import MpegtsReader.Rewrite

/-!
# What is left in the destination

`mpegts_stream_write` opens its destination for reading and writing, neither creates nor truncates
it, and returns 0 in every case. `writesWhole_iff` says from which files on the destination holds
the packets of the stream and nothing else.
-/

namespace MpegtsReader

open Buffer

/-- The patches of the segment stay inside its payload. -/
def Segment.PatchesFit (segment : Segment) : Prop :=
  segment.pesHeader.isSome → patchAt segment + 5 < 184

instance (segment : Segment) : Decidable segment.PatchesFit :=
  inferInstanceAs (Decidable (_ → _))

theorem exists_emit_iff {segment : Segment} :
    (∃ out, emit segment = some out) ↔ segment.PatchesFit := by
  have hpatch : (∃ payload, patch segment.payload (payloadStores segment) = some payload) ↔
      segment.PatchesFit := by
    rw [exists_patch_iff, payloadStores_eq, inBounds_append,
      and_iff_right (inBounds_adaptationStores _), inBounds_segmentPesStores]
    rfl
  rw [← hpatch]
  unfold emit writeTsSegment
  cases patch segment.payload (payloadStores segment) with
  | none => simp
  | some payload => simp

theorem exists_emitAll_iff {segments : List Segment} :
    (∃ out, emitAll segments = some out) ↔ ∀ segment ∈ segments, segment.PatchesFit := by
  induction segments with
  | nil => simp
  | cons segment rest ih =>
    rw [List.forall_mem_cons, ← exists_emit_iff, ← ih, emitAll_cons]
    simp only [Option.bind_eq_some_iff, Option.map_eq_some_iff]
    constructor
    · rintro ⟨_, bytes, hbytes, out, hout, -⟩
      exact ⟨⟨bytes, hbytes⟩, out, hout⟩
    · rintro ⟨⟨bytes, hbytes⟩, out, hout⟩
      exact ⟨_, bytes, hbytes, out, hout, rfl⟩

/-- After the write the destination holds what `write_ts_segment` emits for the segments, and
nothing else. -/
def WritesWhole (fs : FileSystem) (stream : Stream) (path : Option Path) : Prop :=
  ∃ out written, emitAll stream.segmentList = some out ∧
    (mpegtsStreamWrite fs stream path).map Prod.fst = some written ∧
    written (path.getD stream.url) = some out

/-- Without a destination nothing is written. -/
theorem not_writesWhole_of_absent {fs : FileSystem} {stream : Stream} {path : Option Path}
    (h : fs (path.getD stream.url) = none) : ¬ WritesWhole fs stream path := by
  rintro ⟨out, written, -, hwrite, hheld⟩
  simp only [mpegtsStreamWrite, h, Option.map_some, Option.some.injEq] at hwrite
  rw [← hwrite, h] at hheld
  cases hheld

/-- What is behind the end of the packets stays. -/
theorem writesWhole_iff_of_present {fs : FileSystem} {stream : Stream} {path : Option Path}
    {content : List Byte} (h : fs (path.getD stream.url) = some content) :
    WritesWhole fs stream path ↔ (∀ segment ∈ stream.segmentList, segment.PatchesFit) ∧
      content.length ≤ 188 * stream.segmentList.length := by
  rw [← exists_emitAll_iff]
  unfold WritesWhole
  rw [map_fst_mpegtsStreamWrite path h]
  constructor
  · rintro ⟨out, written, hout, hwrite, hheld⟩
    refine ⟨⟨out, hout⟩, ?_⟩
    rw [hout, Option.map_some, Option.some.injEq] at hwrite
    rw [← hwrite, Function.update_self, Option.some.injEq, List.append_right_eq_self,
      List.drop_eq_nil_iff] at hheld
    rwa [length_of_emitAll hout] at hheld
  · rintro ⟨⟨out, hout⟩, hlen⟩
    refine ⟨out, _, hout, by rw [hout, Option.map_some], ?_⟩
    rw [Function.update_self, List.drop_eq_nil_of_le (by rwa [length_of_emitAll hout]),
      List.append_nil]

/-- **The destination.** It holds the packets of the stream and nothing else exactly when it is
there and no longer than they are, and the patches of every segment stay inside its payload. -/
theorem writesWhole_iff (fs : FileSystem) (stream : Stream) (path : Option Path) :
    WritesWhole fs stream path ↔ (∀ segment ∈ stream.segmentList, segment.PatchesFit) ∧
      ∃ content, fs (path.getD stream.url) = some content ∧
        content.length ≤ 188 * stream.segmentList.length := by
  cases h : fs (path.getD stream.url) with
  | none => exact iff_of_false (not_writesWhole_of_absent h) nofun
  | some content =>
    rw [writesWhole_iff_of_present h]
    exact and_congr_right fun _ => ⟨fun hlen => ⟨content, rfl, hlen⟩, fun ⟨_, rfl, hlen⟩ => hlen⟩

/-- The output that `main` has removed is not created again. -/
theorem not_writesWhole_removed :
    ¬ ∀ (fs : FileSystem) (stream : Stream) (path : Option Path),
      (∀ segment ∈ stream.segmentList, segment.PatchesFit) → WritesWhole fs stream path := by
  intro h
  refine not_writesWhole_of_absent rfl
    (h (fun _ => none) (streamOf (fun _ => .zeroed) [clearPacket]) (some [0x6f#8]) ?_)
  rw [streamOf_eq]
  intro segment hsegment
  obtain rfl := List.mem_singleton.mp hsegment
  decide

end MpegtsReader
