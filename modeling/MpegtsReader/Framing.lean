import MpegtsReader.Stream

/-!
# Framing

`mpegts_stream_read_segment` cuts a file into 188-byte chunks. `exists_packets` splits any file into
its longest prefix of whole packets and a rest that does not start with one; the read loop turns
the packets into segments and stops at the rest, whatever it is: a short header, a wrong sync byte
or a short payload.
-/

namespace MpegtsReader

/-- The file begins with `n` complete 188-byte chunks that each start with the sync byte. -/
def GoodPrefix (file : List Byte) (n : ℕ) : Prop :=
  188 * n ≤ file.length ∧ ∀ i < n, file[188 * i]? = some tsSync

/-- The file begins with a whole packet. -/
def StartsPacket (file : List Byte) : Prop := 188 ≤ file.length ∧ file[0]? = some tsSync

theorem leWord_setWidth (b0 b1 b2 b3 : Byte) : (leWord [b0, b1, b2, b3]).setWidth 8 = b0 := by
  have h := leBytes_leWord b0 b1 b2 b3
  simp only [leBytes, List.cons.injEq] at h
  exact h.1

/-- 188 bytes that start with the sync byte are a packet. -/
theorem exists_packet {file : List Byte} (h : StartsPacket file) :
    ∃ (p : TsPacket) (rest : List Byte), file = p.bytes ++ rest := by
  obtain ⟨hlen, hsync⟩ := h
  match file, hlen, hsync with
  | b0 :: b1 :: b2 :: b3 :: tail, hlen, hsync =>
    have hb0 : b0 = tsSync := by simpa using hsync
    have htail : 184 ≤ tail.length := by simp only [List.length_cons] at hlen; omega
    refine ⟨⟨leWord [b0, b1, b2, b3], ⟨(tail.take 184).toArray, ?_⟩, ?_⟩, tail.drop 184, ?_⟩
    · simpa using htail
    · rw [leWord_setWidth, hb0]; rfl
    · simp only [TsPacket.bytes, leBytes_leWord, Vector.toList_mk, List.append_assoc,
        List.take_append_drop]
      rfl

/-- Every packet starts with the sync byte. -/
theorem startsPacket_bytes (p : TsPacket) (rest : List Byte) : StartsPacket (p.bytes ++ rest) := by
  refine ⟨by rw [List.length_append, TsPacket.length_bytes]; omega, ?_⟩
  have h : (p.bytes ++ rest)[0]? = some (p.word.setWidth 8) := rfl
  rw [h, p.sync]
  rfl

/-- A file is its longest prefix of whole packets and a rest. -/
theorem exists_packets (file : List Byte) :
    ∃ (packets : List TsPacket) (rest : List Byte),
      file = fileOf packets ++ rest ∧ ¬ StartsPacket rest := by
  induction hn : file.length using Nat.strong_induction_on generalizing file with
  | _ n ih =>
    by_cases h : StartsPacket file
    · obtain ⟨p, rest, rfl⟩ := exists_packet h
      rw [List.length_append, TsPacket.length_bytes] at hn
      obtain ⟨packets, tail, rfl, htail⟩ := ih rest.length (by omega) rest rfl
      exact ⟨p :: packets, tail, by simp [fileOf], htail⟩
    · exact ⟨[], file, by simp [fileOf], h⟩

@[simp] theorem length_fileOf (packets : List TsPacket) :
    (fileOf packets).length = 188 * packets.length := by
  induction packets with
  | nil => rfl
  | cons p ps ih =>
    rw [show fileOf (p :: ps) = p.bytes ++ fileOf ps by simp [fileOf], List.length_append, ih,
      TsPacket.length_bytes, List.length_cons]
    omega

/-- Behind `i` packets stands packet `i`. -/
theorem drop_fileOf {packets : List TsPacket} {i : ℕ} (hi : i < packets.length) :
    (fileOf packets).drop (188 * i) = packets[i].bytes ++ fileOf (packets.drop (i + 1)) := by
  induction packets generalizing i with
  | nil => cases hi
  | cons p ps ih =>
    have hcons : fileOf (p :: ps) = p.bytes ++ fileOf ps := by simp [fileOf]
    cases i with
    | zero => simp [hcons]
    | succ i =>
      rw [hcons, show 188 * (i + 1) = p.bytes.length + 188 * i by
        rw [TsPacket.length_bytes]; omega, List.drop_length_add_append, ih (by simpa using hi)]
      rfl

/-- The packets of a file are its good prefix, and no longer prefix is good. -/
theorem isGreatest_packets {packets : List TsPacket} {rest : List Byte}
    (hrest : ¬ StartsPacket rest) :
    IsGreatest {n | GoodPrefix (fileOf packets ++ rest) n} packets.length := by
  constructor
  · refine ⟨by rw [List.length_append, length_fileOf]; omega, fun i hi => ?_⟩
    have hdrop := drop_fileOf hi
    have hlt : 188 * i < (fileOf packets).length := by rw [length_fileOf]; omega
    have hzero := congrArg (fun l : List Byte => l[0]?) hdrop
    simp only [List.getElem?_drop, Nat.add_zero] at hzero
    rw [List.getElem?_append_left hlt, hzero]
    exact (startsPacket_bytes packets[i] _).2
  · intro m hm
    by_contra hlt
    apply hrest
    obtain ⟨hlen, hsync⟩ := hm
    rw [List.length_append, length_fileOf] at hlen
    refine ⟨by omega, ?_⟩
    have h := hsync packets.length (by omega)
    rwa [List.getElem?_append_right (by rw [length_fileOf]), length_fileOf, Nat.sub_self] at h

/-- `parse_ts_segment` succeeds only on a whole packet. -/
theorem startsPacket_of_parsed {stale : Stale} {fd rest : List Byte} {segment : Segment}
    (h : parseTsSegment stale fd = .parsed segment rest) : StartsPacket fd := by
  have hlen := (parseTsSegment_parsed h).1
  refine ⟨hlen, ?_⟩
  match fd, hlen, h with
  | b0 :: b1 :: b2 :: b3 :: tail, hlen, h =>
    unfold parseTsSegment at h
    split_ifs at h
    cases hp : parseHeader (leWord ((b0 :: b1 :: b2 :: b3 :: tail).take 4)) with
    | error e => rw [hp] at h; simp at h
    | ok header =>
      have hs := (parseHeader_eq_ok_iff.mp hp).1
      have ht : (b0 :: b1 :: b2 :: b3 :: tail).take 4 = [b0, b1, b2, b3] := rfl
      rw [ht, leWord_setWidth] at hs
      simp [hs]

/-- On a rest that does not start with a packet the loop ends. -/
theorem readLoop_rest {rest : List Byte} (h : ¬ StartsPacket rest) (stale : ℕ → Stale)
    (segmentList : List Segment) : (readLoop stale segmentList rest).1 = segmentList := by
  cases hp : parseTsSegment (stale segmentList.length) rest with
  | parsed segment fd => exact absurd (startsPacket_of_parsed hp) h
  | eof => rw [readLoop_eof hp]
  | failed err => rw [readLoop_failed hp]

/-- Whatever follows them, the packets at the start of a file are exactly what is read from it. -/
theorem readLoop_packets_rest {rest : List Byte} (h : ¬ StartsPacket rest) (stale : ℕ → Stale)
    (packets : List TsPacket) :
    (readLoop stale [] (fileOf packets ++ rest)).1 = segmentsFrom stale 0 packets := by
  rw [readLoop_packets, readLoop_rest h]
  rfl

/-- The segment `i` is decoded from the bytes `188 * i` to `188 * i + 187` of the file. -/
structure DecodedAt (file : List Byte) (i : ℕ) (segment : Segment) : Prop where
  header : parseHeader (leWord ((file.drop (188 * i)).take 4)) = .ok segment.header
  payload : segment.payload.toList = (file.drop (188 * i + 4)).take 184

/-- A packet's segment is decoded from the packet's own bytes. -/
theorem decodedAt_segment {packets : List TsPacket} (rest : List Byte) {i : ℕ}
    (hi : i < packets.length) (stale : Stale) :
    DecodedAt (fileOf packets ++ rest) i (packets[i].segment stale) := by
  have hlt : 188 * i ≤ (fileOf packets).length := by rw [length_fileOf]; omega
  have hdrop : (fileOf packets ++ rest).drop (188 * i) =
      packets[i].bytes ++ (fileOf (packets.drop (i + 1)) ++ rest) := by
    rw [List.drop_append_of_le_length hlt, drop_fileOf hi, List.append_assoc]
  constructor
  · rw [hdrop, show (packets[i].bytes ++ _).take 4 = leBytes packets[i].word from rfl,
      leWord_leBytes, parseHeader_of_sync packets[i].sync]
    rfl
  · rw [← List.drop_drop, hdrop, show (packets[i].bytes ++ _).drop 4 =
      packets[i].body.toList ++ (fileOf (packets.drop (i + 1)) ++ rest) from rfl]
    exact (List.take_left' packets[i].body.length_toList).symm

/-- The read loop decodes the good prefix of a file, in order. -/
theorem readLoop_decodes (stale : ℕ → Stale) (file : List Byte) :
    IsGreatest {n | GoodPrefix file n} (readLoop stale [] file).1.length ∧
      ∀ i (hi : i < (readLoop stale [] file).1.length),
        DecodedAt file i (readLoop stale [] file).1[i] := by
  obtain ⟨packets, rest, rfl, hrest⟩ := exists_packets file
  have hread := readLoop_packets_rest hrest stale packets
  have hlen : (readLoop stale [] (fileOf packets ++ rest)).1.length = packets.length := by
    rw [hread, length_segmentsFrom]
  refine ⟨hlen ▸ isGreatest_packets hrest, fun i hi => ?_⟩
  have hi' : i < packets.length := hlen ▸ hi
  have hseg : (readLoop stale [] (fileOf packets ++ rest)).1[i] =
      packets[i].segment (stale (0 + i)) := by
    apply Option.some.inj
    rw [← getElem?_segmentsFrom stale 0 packets hi', ← hread, List.getElem?_eq_getElem hi]
  rw [hseg]
  exact decodedAt_segment rest hi' _

/-- **Framing.** Whatever the file holds, the segment list read from it is the decoding, in order,
of its longest prefix of complete chunks that start with the sync byte; nothing else adds a
segment. -/
theorem readSegment_decodes (fs : FileSystem) (stale : ℕ → Stale) (stream : Stream)
    (file : List Byte) :
    let segments := (mpegtsStreamReadSegment (Function.update fs stream.url (some file)) stale
      stream).1.segmentList
    IsGreatest {n | GoodPrefix file n} segments.length ∧
      ∀ i (hi : i < segments.length), DecodedAt file i segments[i] := by
  unfold mpegtsStreamReadSegment
  rw [Function.update_self]
  exact readLoop_decodes stale file

end MpegtsReader
