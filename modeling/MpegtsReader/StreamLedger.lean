import MpegtsReader.StreamBlocks
import MpegtsReader.Transition

/-!
# The ledger of a stream

How many blocks a stream has, and how many it has lost: live blocks that nothing of the stream leads
to. The ledger is kept without looking at the memory, and it is right about every run of calls, on
faults as well as on numbers (`stream_ledger`). A stream that is made, read, edited and freed loses
one block each time, if what it writes fits (`stream_lifetimes`): the segment that is allocated for
the packet behind the last one.
-/

namespace MpegtsReader

open Transition
open StreamMemory (Holds blockCount)

/-- The blocks of the segments in the list, whether the `url` has its block, the blocks that are
lost, and whether all patches of the segments stay inside their payloads. -/
structure Ledger where
  linked : ℕ
  url : Bool
  lost : ℕ
  fits : Bool
  deriving DecidableEq

/-- The blocks that are live. -/
def Ledger.balance (l : Ledger) : ℕ := l.linked + l.url.toNat + l.lost

/-- The ledger after a call. There is none after a call that uses the `url` when it is freed, or
after a write that leaves a payload. -/
def ledgerStep (l : Ledger) : StreamCall → Option (Except LogErr Ledger)
  | .init => some (.ok ⟨0, true, l.balance, true⟩)
  | .read stale file =>
    if l.url then
      match file with
      | none => some (.error ⟨.EBADFD, "fail to open"⟩)
      | some fd =>
        let r := readLoop stale [] fd
        match r.2 with
        | some err => some (.error err)
        | none =>
          some (.ok ⟨blockCount r.1, true, l.linked + l.lost + 1, r.1.all fun s => s.PatchesFit⟩)
    else none
  | .pass _ => some (.ok l)
  | .write given opened =>
    if (given || l.url) && (!opened || l.fits) then some (.ok l) else none
  | .free => if l.url then some (.ok ⟨0, false, l.lost, true⟩) else none

/-- The ledger is right, besides the `others` that are live all the time. -/
structure Accounts (others : Finset ℕ) (m : StreamMemory) (l : Ledger) : Prop where
  holds : ∃ ks, Holds others m ks [] ∧ (m.owned ks).length = l.linked ∧ ks.all m.fits = l.fits
  url : m.url ∈ m.blocks.live ↔ l.url = true
  balance : m.blocks.live.card = others.card + l.balance

variable {others : Finset ℕ} {m : StreamMemory} {l : Ledger}

theorem Accounts.of_init {g : StreamMemory} (hg : others ⊆ g.blocks.live)
    (hbalance : g.blocks.live.card = others.card + l.balance) :
    Accounts others g.mpegtsStreamInit ⟨0, true, l.balance, true⟩ where
  holds := ⟨[], .init hg, rfl, rfl⟩
  url := iff_of_true (Blocks.mem_live_alloc.mpr (.inl rfl)) rfl
  balance := by
    have hcard : g.mpegtsStreamInit.blocks.live.card = g.blocks.live.card + 1 :=
      g.blocks.card_live_alloc
    rw [hcard, hbalance]
    simp only [Ledger.balance, Bool.toNat_true]
    omega

/-- A call does to the memory what the ledger says. -/
theorem Accounts.step (h : Accounts others m l) (call : StreamCall) :
    SameOutcome (Accounts others) (streamStep m call) (ledgerStep l call) := by
  obtain ⟨ks, hm, hlinked, hfits⟩ := h.holds
  have hbalance := h.balance
  have hurl : l.url = false ↔ m.url ∉ m.blocks.live := by
    rw [h.url, Bool.not_eq_true]
  cases call with
  | init => exact .ok (.of_init hm.kept h.balance)
  | read stale file =>
    simp only [streamStep, ledgerStep]
    cases hfreed : l.url with
    | false =>
      have hdead := Blocks.use_eq_none_iff.mpr (hurl.mp hfreed)
      simpa [StreamMemory.mpegtsStreamReadSegment, hdead] using SameOutcome.fault
    | true =>
      have hlive := h.url.mpr hfreed
      cases file with
      | none =>
        have hopen := Blocks.use_of_mem hlive
        simpa [StreamMemory.mpegtsStreamReadSegment, hopen] using SameOutcome.exit _
      | some fd =>
        obtain ⟨hfail, hend⟩ := hm.read hlive stale fd
        cases hloop : (readLoop stale [] fd).2 with
        | none =>
          obtain ⟨m', ks', heq, hm', hurl', hfits', howned, hcard⟩ := hend hloop
          simp only [heq, hloop, if_true]
          refine .ok ⟨⟨ks', hm', howned, hfits'⟩, iff_of_true hurl' rfl, ?_⟩
          rw [hcard, howned, hbalance]
          simp only [Ledger.balance, hfreed, Bool.toNat_true]
          omega
        | some err =>
          simp only [hfail err hloop, hloop, if_true]
          exact .exit err
  | pass pes =>
    rw [streamStep, hm.useSegments pes]
    exact .ok h
  | write given opened =>
    have hlive : decide (m.url ∈ m.blocks.live) = l.url := by
      rw [Bool.eq_iff_iff, decide_eq_true_iff]
      exact h.url
    rw [streamStep, hm.write, hlive, hfits, ledgerStep]
    split_ifs
    · exact .ok h
    · exact .fault
  | free =>
    obtain ⟨hdead, hlive⟩ := hm.free
    rw [streamStep, ledgerStep]
    cases hfreed : l.url with
    | false =>
      rw [hdead (hurl.mp hfreed)]
      exact .fault
    | true =>
      obtain ⟨m', heq, hm', hurl', hcard⟩ := hlive (h.url.mpr hfreed)
      rw [heq]
      refine .ok ⟨⟨[], hm', rfl, rfl⟩, iff_of_false hurl' Bool.false_ne_true, ?_⟩
      simp only [Ledger.balance, hfreed, Bool.toNat_true, Bool.toNat_false] at hbalance ⊢
      omega

/-- **The ledger of a stream.** Whatever is called, from the initialisation on: there is no result
exactly where the ledger says that the `url` is used when it is freed or that a packet is written
whose patches do not fit, the process ends where the ledger says so, and otherwise the ledger is
right. Nothing of what was live before is freed. -/
theorem stream_ledger (g : StreamMemory) (calls : List StreamCall) :
    SameOutcome (Accounts g.blocks.live) (runExcept streamStep g.mpegtsStreamInit calls)
      (runExcept ledgerStep ⟨0, true, 0, true⟩ calls) :=
  sameOutcome_run (fun _ _ call h => h.step call)
    (.of_init (l := ⟨0, false, 0, true⟩) subset_rfl rfl) calls

/-! ## Lifetimes -/

/-- A pass, a printer or a write. -/
def StreamCall.edits : StreamCall → Bool
  | .pass _ | .write .. => true
  | .init | .read .. | .free => false

/-- A stream that is made, read from a file of packets, edited and freed. If it is written, its
patches fit. -/
structure Lifetime where
  stale : ℕ → Stale
  packets : List TsPacket
  edits : List StreamCall
  edits_only : ∀ call ∈ edits, call.edits
  fits : (∃ given, .write given true ∈ edits) → ∀ s ∈ segmentsFrom stale 0 packets, s.PatchesFit

/-- The calls, from `mpegts_stream_init` on. -/
def Lifetime.calls (life : Lifetime) : List StreamCall :=
  .init :: .read life.stale (some (fileOf life.packets)) :: life.edits ++ [.free]

theorem ledger_edits (hurl : l.url = true) {edits : List StreamCall}
    (hedits : ∀ call ∈ edits, call.edits)
    (hfits : (∃ given, .write given true ∈ edits) → l.fits = true) :
    runExcept ledgerStep l edits = some (.ok l) := by
  induction edits with
  | nil => rfl
  | cons call edits ih =>
    have hcall : ledgerStep l call = some (.ok l) := by
      cases call with
      | pass pes => rfl
      | write given opened =>
        rw [ledgerStep, hurl, Bool.or_true, Bool.true_and]
        cases opened with
        | false => rfl
        | true =>
          rw [hfits ⟨given, List.mem_cons_self⟩]
          rfl
      | _ => cases hedits _ List.mem_cons_self
    rw [runExcept, hcall]
    refine ih (fun call h => hedits call (List.mem_cons_of_mem _ h)) ?_
    rintro ⟨given, h⟩
    exact hfits ⟨given, List.mem_cons_of_mem _ h⟩

/-- One block is lost. -/
theorem ledger_lifetime (life : Lifetime) (lost : ℕ) :
    runExcept ledgerStep ⟨0, false, lost, true⟩ life.calls =
      some (.ok ⟨0, false, lost + 1, true⟩) := by
  have hread : ledgerStep ⟨0, true, lost, true⟩ (.read life.stale (some (fileOf life.packets))) =
      some (.ok ⟨blockCount (segmentsFrom life.stale 0 life.packets), true, lost + 1,
        (segmentsFrom life.stale 0 life.packets).all fun s => s.PatchesFit⟩) := by
    simp [ledgerStep, readLoop_fileOf]
  have hinit : ledgerStep ⟨0, false, lost, true⟩ .init = some (.ok ⟨0, true, lost, true⟩) := by
    simp [ledgerStep, Ledger.balance]
  rw [Lifetime.calls, List.cons_append, List.cons_append, runExcept, hinit]
  dsimp only
  rw [runExcept, hread]
  refine runExcept_append (ledger_edits rfl life.edits_only fun hwrite => ?_) [.free]
  exact List.all_eq_true.mpr fun s hs => decide_eq_true (life.fits hwrite s hs)

theorem ledger_lifetimes (lives : List Lifetime) (lost : ℕ) :
    runExcept ledgerStep ⟨0, false, lost, true⟩ (lives.flatMap Lifetime.calls) =
      some (.ok ⟨0, false, lost + lives.length, true⟩) := by
  induction lives generalizing lost with
  | nil => rfl
  | cons life lives ih =>
    rw [List.flatMap_cons, runExcept_append (ledger_lifetime life lost), ih, List.length_cons,
      Nat.add_right_comm, Nat.add_assoc]

/-- **The lifetimes of a stream.** However many streams are made, read, edited and freed one after
the other, the memory does not fault, and each of them leaves one block behind. -/
theorem stream_lifetimes (g : StreamMemory) (lives : List Lifetime) :
    ∃ m, runExcept streamStep g (lives.flatMap Lifetime.calls) = some (.ok m) ∧
      g.blocks.live ⊆ m.blocks.live ∧
      m.blocks.live.card = g.blocks.live.card + lives.length := by
  cases lives with
  | nil => exact ⟨g, rfl, subset_rfl, rfl⟩
  | cons life lives =>
    have hledger := ledger_lifetimes (life :: lives) 0
    rw [List.flatMap_cons, Lifetime.calls, List.cons_append, List.cons_append] at hledger ⊢
    have hrun := sameOutcome_run (fun _ _ call h => Accounts.step h call)
      (Accounts.of_init (g := g) (l := ⟨0, false, 0, true⟩) subset_rfl rfl)
      (.read life.stale (some (fileOf life.packets)) :: life.edits ++ [.free] ++
        lives.flatMap Lifetime.calls)
    obtain ⟨m, heq, haccounts⟩ := (hledger ▸ hrun).exists_ok
    obtain ⟨ks, hm, -⟩ := haccounts.holds
    refine ⟨m, heq, hm.kept, ?_⟩
    have hbalance := haccounts.balance
    simp only [Ledger.balance, Bool.toNat_false] at hbalance
    omega

end MpegtsReader
