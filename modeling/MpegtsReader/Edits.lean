import Mathlib.Data.List.Forall2
import MpegtsReader.Rewrite

/-!
# Sequences of editing passes

Any sequence of passes over a stream, with any arguments. `Edited` says once what all of them
together can do to a segment: they raise `rand_acc` where a PCR starts a unit, replace the PCR by
the PTS of the packet, clear the PES length and renumber the packet. Every pass preserves it
(`edited_run`), so every sequence of passes does (`edited_runPasses`).
-/

namespace MpegtsReader

/-- A call of one of the passes with its arguments. -/
inductive Pass
  | pesResetLen
  | fixKeyframe (pid : BitVec 16)
  | updatePcrByPts (pid : BitVec 16)
  | updateCc (pid : ℤ) (initCc : Byte)

/-- Run one pass. -/
def Pass.run (stream : Stream) : Pass → Stream
  | .pesResetLen => mpegtsStreamPesResetLen stream
  | .fixKeyframe pid => mpegtsStreamFixKeyframe stream pid
  | .updatePcrByPts pid => mpegtsStreamUpdatePcrByPts stream pid
  | .updateCc pid initCc => (mpegtsStreamUpdateCc stream pid initCc).1

/-- Run the passes in order. -/
def runPasses (stream : Stream) (passes : List Pass) : Stream := passes.foldl Pass.run stream

/-! ## What the passes can do to a segment -/

/-- `s'` is an edit of `s`. -/
structure Edited (s s' : Segment) : Prop where
  payload : s'.payload = s.payload
  pusi : s'.header.pusi = s.header.pusi
  ctrl : s'.header.adaptationFieldCtrl = s.header.adaptationFieldCtrl
  len : s'.adaptationField.len = s.adaptationField.len
  privLen : s'.adaptationField.privLen = s.adaptationField.privLen
  hasPcr : s'.adaptationField.hasPcr = s.adaptationField.hasPcr
  randAcc : s'.adaptationField.randAcc →
    s.adaptationField.randAcc ∨ s.header.pusi ∧ s.adaptationField.hasPcr
  pcr : s'.adaptationField.pcr = s.adaptationField.pcr ∨
    ∃ header, s.pesHeader = some header ∧ header.pts ≠ 0 ∧ s'.adaptationField.pcr = header.pts * 300
  pesHeader : s'.pesHeader = s.pesHeader ∨ s'.pesHeader = s.pesHeader.map ({ · with len := 0 })

theorem Edited.refl (s : Segment) : Edited s s :=
  ⟨rfl, rfl, rfl, rfl, rfl, rfl, Or.inl, Or.inl rfl, Or.inl rfl⟩

theorem pesHeader_resetLen (s : Segment) :
    (resetLen s).pesHeader = s.pesHeader.map ({ · with len := 0 }) := by
  unfold resetLen
  cases h : s.pesHeader with
  | none => simp [h]
  | some header => rfl

theorem resetLen_eq (s : Segment) :
    resetLen s = { s with pesHeader := (resetLen s).pesHeader } := by
  unfold resetLen
  cases h : s.pesHeader <;> rfl

theorem edited_resetLen {s s' : Segment} (h : Edited s s') : Edited s (resetLen s') := by
  have hpes : (resetLen s').pesHeader = s.pesHeader.map ({ · with len := 0 }) := by
    rw [pesHeader_resetLen]
    rcases h.pesHeader with he | he
    · rw [he]
    · rw [he]
      cases s.pesHeader <;> rfl
  rw [resetLen_eq]
  exact { h with pesHeader := Or.inr hpes }

theorem edited_fixKeyframe {s s' : Segment} (pid : BitVec 16) (h : Edited s s') :
    Edited s (fixKeyframe pid s') := by
  unfold fixKeyframe
  split_ifs with hc
  · have hset : s.header.pusi ∧ s.adaptationField.hasPcr := by
      rw [← h.pusi, ← h.hasPcr]
      exact ⟨hc.1, hc.2.2⟩
    exact { h with randAcc := fun _ => Or.inr hset }
  · exact h

theorem edited_updatePcr {s s' : Segment} (h : Edited s s') : Edited s (updatePcr s') := by
  cases hp : s'.pesHeader with
  | none =>
    rw [updatePcr_of_none hp]
    exact h
  | some header =>
    rw [updatePcr_of_some hp]
    split_ifs with hc
    · -- the passes never touch the PTS, so it is the one that was parsed
      have hpts : ∃ header', s.pesHeader = some header' ∧ header'.pts = header.pts := by
        rcases h.pesHeader with he | he
        · exact ⟨header, he.symm.trans hp, rfl⟩
        · rw [hp] at he
          obtain ⟨header', h', rfl⟩ := Option.map_eq_some_iff.mp he.symm
          exact ⟨header', h', rfl⟩
      obtain ⟨header', h', he⟩ := hpts
      exact { h with
        pcr := Or.inr ⟨header', h', by rw [he]; exact hc.2, by rw [he]; rfl⟩ }
    · exact h

theorem edited_updateCc {s s' : Segment} (pid : ℤ) (initCc : Byte) (h : Edited s s') :
    Edited s (updateCc pid initCc s').2 := by
  unfold updateCc
  split_ifs
  · exact { h with }
  · exact h

/-! ## Steps and runs -/

theorem forall₂_map {α : Type} {R : α → α → Prop} {f : α → α} (hf : ∀ a b, R a b → R a (f b))
    {as bs : List α} (h : List.Forall₂ R as bs) : List.Forall₂ R as (bs.map f) :=
  List.forall₂_map_right_iff.mpr (h.imp hf)

theorem forall₂_mapAccum {α σ : Type} {R R' : α → α → Prop} {body : σ → α → σ × α}
    (hf : ∀ s a b, R a b → R' a (body s b).2) {as bs : List α} (h : List.Forall₂ R as bs) (s : σ) :
    List.Forall₂ R' as (mapAccum body s bs).2 := by
  induction h generalizing s with
  | nil => exact List.Forall₂.nil
  | cons hab _ ih => exact List.Forall₂.cons (hf s _ _ hab) (ih _)

/-- One pass edits segment by segment. -/
theorem edited_run {segments : List Segment} {stream : Stream} (pass : Pass)
    (h : List.Forall₂ Edited segments stream.segmentList) :
    List.Forall₂ Edited segments (pass.run stream).segmentList := by
  cases pass with
  | pesResetLen =>
    simp only [Pass.run, segmentList_pesResetLen]
    exact forall₂_map (fun _ _ => edited_resetLen) h
  | fixKeyframe pid =>
    simp only [Pass.run, segmentList_fixKeyframe]
    exact forall₂_map (fun _ _ => edited_fixKeyframe pid) h
  | updatePcrByPts pid =>
    simp only [Pass.run, segmentList_updatePcrByPts]
    exact forall₂_map (fun _ _ => edited_updatePcr) h
  | updateCc pid initCc =>
    simp only [Pass.run, mpegtsStreamUpdateCc_eq]
    have hstep : ∀ cc s s', Edited s s' → Edited s (updateCc pid cc s').2 :=
      fun cc _ _ => edited_updateCc pid cc
    exact forall₂_mapAccum hstep h initCc

/-- Any sequence of passes edits segment by segment. -/
theorem edited_runPasses (stream : Stream) (passes : List Pass) :
    List.Forall₂ Edited stream.segmentList (runPasses stream passes).segmentList := by
  suffices h : ∀ s : Stream, List.Forall₂ Edited stream.segmentList s.segmentList →
      List.Forall₂ Edited stream.segmentList (passes.foldl Pass.run s).segmentList from
    h stream (List.forall₂_same.mpr fun s _ => Edited.refl s)
  induction passes with
  | nil => exact fun s h => h
  | cons pass passes ih => exact fun s h => ih _ (edited_run pass h)

/-- The segment of a packet after any sequence of passes. -/
theorem exists_edited (stale : ℕ → Stale) {packets : List TsPacket} (passes : List Pass) {i : ℕ}
    (hi : i < packets.length) :
    ∃ s, (runPasses (streamOf stale packets) passes).segmentList[i]? = some s ∧
      Edited (packets[i].segment (stale i)) s := by
  have h := edited_runPasses (streamOf stale packets) passes
  have hget := getElem?_streamOf stale hi
  obtain ⟨hlt, hseg⟩ := List.getElem?_eq_some_iff.mp hget
  have hlt' := h.length_eq ▸ hlt
  refine ⟨_, List.getElem?_eq_getElem hlt', ?_⟩
  rw [← hseg]
  exact h.get hlt hlt'

end MpegtsReader
