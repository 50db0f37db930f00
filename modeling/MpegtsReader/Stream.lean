import MpegtsReader.Write
import MpegtsReader.ListIter

/-!
# Streams

`mpegts_stream_read_segment`, `mpegts_stream_write` and the editing passes of `mpegts_parser.c`.
A stream is the list of its segments; every pass runs the iterator loop over it. `Stale` memory is
given by allocation: `stale n` is what `malloc` returns for the `n`-th packet of a file.
-/

namespace MpegtsReader

/-! ## Files -/

/-- A path, as the bytes of a C string. -/
abbrev Path := List Byte

/-- The files of the system: their contents by path, `none` where there is no file. -/
abbrev FileSystem := Path → Option (List Byte)

/-- A file open for writing. -/
structure Fd where
  content : List Byte
  offset : ℕ

/-- `write`: overwrite the file from the offset on. -/
def Fd.write (fd : Fd) (bytes : List Byte) : Fd where
  content := fd.content.take fd.offset ++ bytes ++ fd.content.drop (fd.offset + bytes.length)
  offset := fd.offset + bytes.length

/-- `mpegts_stream_t`. -/
structure Stream where
  url : Path
  segmentList : List Segment

/-- `mpegts_stream_init`. -/
def mpegtsStreamInit (url : Path) : Stream := ⟨url, []⟩

/-! ## Reading -/

/-- `cdsl_dlistPutTail` on the segment list. -/
def cdslDlistPutTail {α : Type} (lentry : List α) (item : α) : List α := lentry ++ [item]

/-- What a successful `parse_ts_segment` consumes. -/
theorem parseTsSegment_parsed {stale : Stale} {fd rest : List Byte} {segment : Segment}
    (h : parseTsSegment stale fd = .parsed segment rest) :
    188 ≤ fd.length ∧ rest = fd.drop 188 := by
  unfold parseTsSegment at h
  split_ifs at h
  cases hp : parseHeader (leWord (fd.take 4)) with
  | error e => rw [hp] at h; simp at h
  | ok header =>
    rw [hp] at h
    simp only at h
    split_ifs at h with hlen
    simp only [ParseTs.parsed.injEq] at h
    rw [List.length_take, List.length_drop] at hlen
    exact ⟨by omega, by rw [← h.2, List.drop_drop]⟩

/-- `mpegts_stream_read_segment`: the loop. It returns the segment list at the end of the loop, or
at the point where `LOG_ERR` ends the process. -/
def readLoop (stale : ℕ → Stale) (segmentList : List Segment) (fd : List Byte) :
    List Segment × Option LogErr :=
  match _h : parseTsSegment (stale segmentList.length) fd with
  | .parsed segment rest => readLoop stale (cdslDlistPutTail segmentList segment) rest
  | .eof => (segmentList, none)
  | .failed err => (segmentList, some err)
termination_by fd.length
decreasing_by
  obtain ⟨hlen, rfl⟩ := parseTsSegment_parsed _h
  rw [List.length_drop]
  omega

/-- `mpegts_stream_read_segment`. -/
def mpegtsStreamReadSegment (fs : FileSystem) (stale : ℕ → Stale) (stream : Stream) :
    Stream × Option LogErr :=
  match fs stream.url with
  | none => (stream, some ⟨.EBADFD, "fail to open"⟩)
  | some file =>
    let r := readLoop stale [] file
    ({ stream with segmentList := r.1 }, r.2)

/-! ## Writing -/

/-- `mpegts_stream_write`: the loop. It has no result when a store leaves the payload. -/
def writeLoop (segmentList : List Segment) (fd : Fd) : Option (List Segment × Fd) :=
  match segmentList with
  | [] => some ([], fd)
  | segment :: rest => do
    let r ← writeTsSegment segment
    let t ← writeLoop rest (fd.write r.2)
    return (r.1 :: t.1, t.2)

/-- `mpegts_stream_write`. The file is opened `O_RDWR`: it is neither created nor truncated. -/
def mpegtsStreamWrite (fs : FileSystem) (stream : Stream) (path : Option Path) :
    Option (FileSystem × Stream) :=
  let dest := path.getD stream.url
  match fs dest with
  | none => some (fs, stream)
  | some content => do
    let r ← writeLoop stream.segmentList ⟨content, 0⟩
    return (Function.update fs dest (some r.2.content), { stream with segmentList := r.1 })

/-! ## Editing passes -/

/-- `mpegts_stream_pes_reset_len`: the body of the loop. -/
def resetLen (segment : Segment) : Segment :=
  match segment.pesHeader with
  | none => segment
  | some header => { segment with pesHeader := some { header with len := 0 } }

/-- `mpegts_stream_pes_reset_len`. -/
def mpegtsStreamPesResetLen (stream : Stream) : Stream :=
  let r := iterLoop (fun _ segment => ((), resetLen segment)) stream.segmentList cdslIterInit ()
  { stream with segmentList := r.2.1 }

/-- `mpegts_stream_fix_keyframe`: the body of the loop. -/
def fixKeyframe (pid : BitVec 16) (segment : Segment) : Segment :=
  if segment.header.pusi ∧ segment.header.pid.setWidth 16 = pid ∧ segment.adaptationField.hasPcr
  then { segment with adaptationField := { segment.adaptationField with randAcc := true } }
  else segment

/-- `mpegts_stream_fix_keyframe`. -/
def mpegtsStreamFixKeyframe (stream : Stream) (pid : BitVec 16) : Stream :=
  let r := iterLoop (fun _ segment => ((), fixKeyframe pid segment)) stream.segmentList
    cdslIterInit ()
  { stream with segmentList := r.2.1 }

/-- `mpegts_stream_update_pcr_by_pts`: the body of the loop. It does not look at the PID. -/
def updatePcr (segment : Segment) : Segment :=
  match segment.pesHeader with
  | none => segment
  | some header =>
    if segment.adaptationField.hasPcr ∧ header.pts ≠ 0 then
      { segment with adaptationField := { segment.adaptationField with pcr := header.pts * 300 } }
    else segment

/-- The segment with another PCR. -/
def Segment.withPcr (s : Segment) (pcr : BitVec 64) : Segment :=
  { s with adaptationField := { s.adaptationField with pcr } }

theorem updatePcr_of_some {s : Segment} {header : PesHeader} (h : s.pesHeader = some header) :
    updatePcr s =
      if s.adaptationField.hasPcr ∧ header.pts ≠ 0 then s.withPcr (header.pts * 300) else s := by
  unfold updatePcr
  split
  · rename_i hnone
    rw [h] at hnone
    cases hnone
  · rename_i header' hsome
    obtain rfl : header' = header := Option.some.inj (hsome.symm.trans h)
    rfl

theorem updatePcr_of_none {s : Segment} (h : s.pesHeader = none) : updatePcr s = s := by
  unfold updatePcr
  rw [h]

/-- `mpegts_stream_update_pcr_by_pts`. -/
def mpegtsStreamUpdatePcrByPts (stream : Stream) (_pid : BitVec 16) : Stream :=
  let r := iterLoop (fun _ segment => ((), updatePcr segment)) stream.segmentList cdslIterInit ()
  { stream with segmentList := r.2.1 }

/-- `segment->header.pid == pid`, compared as `int`. -/
def HasPid (pid : ℤ) (segment : Segment) : Prop := (segment.header.pid.toNat : ℤ) = pid

instance (pid : ℤ) (segment : Segment) : Decidable (HasPid pid segment) :=
  inferInstanceAs (Decidable (_ = _))

/-- `mpegts_stream_update_cc`: the body of the loop. -/
def updateCc (pid : ℤ) (initCc : Byte) (segment : Segment) : Byte × Segment :=
  if HasPid pid segment then
    ((initCc + 1) &&& 0xF#8,
      { segment with header := { segment.header with continuityCounter := initCc.setWidth 4 } })
  else
    (initCc &&& 0xF#8, segment)

/-- `mpegts_stream_update_cc`: the renumbered stream and the counter returned. -/
def mpegtsStreamUpdateCc (stream : Stream) (pid : ℤ) (initCc : Byte) : Stream × Byte :=
  let r := iterLoop (updateCc pid) stream.segmentList cdslIterInit initCc
  ({ stream with segmentList := r.2.1 }, r.1)

/-! ### The passes as maps -/

theorem segmentList_pesResetLen (stream : Stream) :
    (mpegtsStreamPesResetLen stream).segmentList = stream.segmentList.map resetLen := by
  unfold mpegtsStreamPesResetLen
  simp only [iterLoop_init_snd, mapAccum_const]

theorem segmentList_fixKeyframe (stream : Stream) (pid : BitVec 16) :
    (mpegtsStreamFixKeyframe stream pid).segmentList =
      stream.segmentList.map (fixKeyframe pid) := by
  unfold mpegtsStreamFixKeyframe
  simp only [iterLoop_init_snd, mapAccum_const]

theorem segmentList_updatePcrByPts (stream : Stream) (pid : BitVec 16) :
    (mpegtsStreamUpdatePcrByPts stream pid).segmentList = stream.segmentList.map updatePcr := by
  unfold mpegtsStreamUpdatePcrByPts
  simp only [iterLoop_init_snd, mapAccum_const]

theorem mpegtsStreamUpdateCc_eq (stream : Stream) (pid : ℤ) (initCc : Byte) :
    mpegtsStreamUpdateCc stream pid initCc =
      ({ stream with segmentList := (mapAccum (updateCc pid) initCc stream.segmentList).2 },
        (mapAccum (updateCc pid) initCc stream.segmentList).1) := by
  unfold mpegtsStreamUpdateCc
  simp only [iterLoop_init_snd, iterLoop_init_fst]

/-! ### Reading whole packets -/

theorem parseTsSegment_packet (p : TsPacket) (stale : Stale) (rest : List Byte) :
    parseTsSegment stale (p.bytes ++ rest) = .parsed (p.segment stale) rest := by
  have htake : (p.bytes ++ rest).take 4 = leBytes p.word := rfl
  have hdrop : (p.bytes ++ rest).drop 4 = p.body.toList ++ rest := rfl
  have hbody : (p.body.toList ++ rest).take 184 = p.body.toList :=
    List.take_left' p.body.length_toList
  have hrest : (p.body.toList ++ rest).drop 184 = rest := List.drop_left' p.body.length_toList
  unfold parseTsSegment
  rw [if_neg (by rw [htake]; exact List.cons_ne_nil _ _)]
  rw [htake, leWord_leBytes, parseHeader_of_sync p.sync]
  simp only [hdrop, hbody, hrest]
  rw [dif_pos p.body.length_toList]
  rfl

theorem readLoop_parsed {stale : ℕ → Stale} {segmentList : List Segment} {fd rest : List Byte}
    {segment : Segment}
    (h : parseTsSegment (stale segmentList.length) fd = .parsed segment rest) :
    readLoop stale segmentList fd = readLoop stale (segmentList ++ [segment]) rest := by
  rw [readLoop]
  split
  · rename_i h'
    rw [h, ParseTs.parsed.injEq] at h'
    rw [h'.1, h'.2]
    rfl
  all_goals rename_i h'; rw [h] at h'; cases h'

theorem readLoop_eof {stale : ℕ → Stale} {segmentList : List Segment} {fd : List Byte}
    (h : parseTsSegment (stale segmentList.length) fd = .eof) :
    readLoop stale segmentList fd = (segmentList, none) := by
  rw [readLoop]
  split
  · rename_i h'; rw [h] at h'; cases h'
  · rfl
  · rename_i h'; rw [h] at h'; cases h'

theorem readLoop_failed {stale : ℕ → Stale} {segmentList : List Segment} {fd : List Byte}
    {err : LogErr} (h : parseTsSegment (stale segmentList.length) fd = .failed err) :
    readLoop stale segmentList fd = (segmentList, some err) := by
  rw [readLoop]
  split
  · rename_i h'; rw [h] at h'; cases h'
  · rename_i h'; rw [h] at h'; cases h'
  · rename_i h'
    rw [h, ParseTs.failed.injEq] at h'
    rw [h']

/-- The file that holds the packets. -/
def fileOf (packets : List TsPacket) : List Byte := packets.flatMap TsPacket.bytes

/-- The segments that the packets of a file are read into, from the allocation `n` on. -/
def segmentsFrom (stale : ℕ → Stale) (n : ℕ) : List TsPacket → List Segment
  | [] => []
  | p :: ps => p.segment (stale n) :: segmentsFrom stale (n + 1) ps

/-- Reading whole packets appends their segments and goes on behind them. -/
theorem readLoop_packets (stale : ℕ → Stale) (packets : List TsPacket) (rest : List Byte)
    (segmentList : List Segment) :
    readLoop stale segmentList (fileOf packets ++ rest) =
      readLoop stale (segmentList ++ segmentsFrom stale segmentList.length packets) rest := by
  induction packets generalizing segmentList with
  | nil => simp [fileOf, segmentsFrom]
  | cons p ps ih =>
    have hfile : fileOf (p :: ps) ++ rest = p.bytes ++ (fileOf ps ++ rest) := by
      simp [fileOf]
    rw [hfile, readLoop_parsed (parseTsSegment_packet p _ _), ih]
    simp [segmentsFrom]

theorem parseTsSegment_nil (stale : Stale) : parseTsSegment stale [] = .eof := rfl

/-- A file of whole packets is read to its end. -/
theorem readLoop_fileOf (stale : ℕ → Stale) (packets : List TsPacket) :
    readLoop stale [] (fileOf packets) = (segmentsFrom stale 0 packets, none) := by
  have h := readLoop_packets stale packets [] []
  rw [List.append_nil, List.nil_append] at h
  rw [h, readLoop_eof (parseTsSegment_nil _)]
  rfl

/-- The stream read from a file of whole packets. -/
theorem mpegtsStreamReadSegment_fileOf {fs : FileSystem} (stale : ℕ → Stale) {url : Path}
    {packets : List TsPacket} (hfile : fs url = some (fileOf packets)) :
    mpegtsStreamReadSegment fs stale (mpegtsStreamInit url) =
      (⟨url, segmentsFrom stale 0 packets⟩, none) := by
  unfold mpegtsStreamReadSegment mpegtsStreamInit
  simp only [hfile, readLoop_fileOf]

/-- The file system that holds one file. -/
def oneFile (url : Path) (file : List Byte) : FileSystem :=
  Function.update (fun _ => none) url (some file)

/-- The stream read from the file that holds the packets. -/
def streamOf (stale : ℕ → Stale) (packets : List TsPacket) : Stream :=
  (mpegtsStreamReadSegment (oneFile [] (fileOf packets)) stale (mpegtsStreamInit [])).1

theorem streamOf_eq (stale : ℕ → Stale) (packets : List TsPacket) :
    streamOf stale packets = ⟨[], segmentsFrom stale 0 packets⟩ := by
  have hfile : oneFile [] (fileOf packets) [] = some (fileOf packets) := Function.update_self ..
  unfold streamOf
  rw [mpegtsStreamReadSegment_fileOf stale hfile]

@[simp] theorem length_segmentsFrom (stale : ℕ → Stale) (n : ℕ) (packets : List TsPacket) :
    (segmentsFrom stale n packets).length = packets.length := by
  induction packets generalizing n with
  | nil => rfl
  | cons p ps ih => rw [segmentsFrom, List.length_cons, ih, List.length_cons]

theorem getElem?_segmentsFrom (stale : ℕ → Stale) (n : ℕ) (packets : List TsPacket) {i : ℕ}
    (hi : i < packets.length) :
    (segmentsFrom stale n packets)[i]? = some (packets[i].segment (stale (n + i))) := by
  induction packets generalizing n i with
  | nil => cases hi
  | cons p ps ih =>
    cases i with
    | zero => rfl
    | succ i =>
      rw [segmentsFrom, List.getElem?_cons_succ, ih (n + 1) (by simpa using hi), Nat.add_assoc,
        Nat.add_comm 1]
      rfl

theorem getElem?_streamOf (stale : ℕ → Stale) {packets : List TsPacket} {i : ℕ}
    (hi : i < packets.length) :
    (streamOf stale packets).segmentList[i]? = some (packets[i].segment (stale i)) := by
  rw [streamOf_eq, getElem?_segmentsFrom stale 0 packets hi, Nat.zero_add]

/-! ### Writing whole segments -/

/-- The bytes that `write_ts_segment` writes for a segment. -/
def emit (segment : Segment) : Option (List Byte) := (writeTsSegment segment).map Prod.snd

/-- The bytes that the write loop writes. -/
def emitAll : List Segment → Option (List Byte)
  | [] => some []
  | segment :: rest => (emit segment).bind fun bytes => (emitAll rest).map (bytes ++ ·)

@[simp] theorem emitAll_nil : emitAll [] = some [] := rfl

theorem emitAll_cons (segment : Segment) (rest : List Segment) :
    emitAll (segment :: rest) =
      (emit segment).bind fun bytes => (emitAll rest).map (bytes ++ ·) := rfl

theorem Fd.write_nil (fd : Fd) : fd.write [] = fd := by
  simp [Fd.write]

/-- Two writes in a row write the concatenation. -/
theorem Fd.write_write {fd : Fd} (h : fd.offset ≤ fd.content.length) (a b : List Byte) :
    (fd.write a).write b = fd.write (a ++ b) := by
  have htake : (fd.content.take fd.offset).length = fd.offset := List.length_take_of_le h
  have hleft : (fd.content.take fd.offset ++ a).length = fd.offset + a.length := by
    rw [List.length_append, htake]
  unfold Fd.write
  simp only [Fd.mk.injEq, List.length_append, Nat.add_assoc, and_true]
  rw [List.take_left' hleft]
  have hdrop : (fd.content.take fd.offset ++ a ++
      fd.content.drop (fd.offset + a.length)).drop (fd.offset + (a.length + b.length)) =
        fd.content.drop (fd.offset + (a.length + b.length)) := by
    rw [List.drop_append, List.drop_eq_nil_of_le (by omega), List.drop_drop, hleft, List.nil_append]
    congr 1
    omega
  rw [hdrop]
  simp only [List.append_assoc]

theorem Fd.offset_write_le {fd : Fd} (h : fd.offset ≤ fd.content.length) (a : List Byte) :
    (fd.write a).offset ≤ (fd.write a).content.length := by
  simp only [Fd.write, List.length_append, List.length_take, List.length_drop]
  omega

/-- The write loop writes what its segments emit. -/
theorem map_snd_writeLoop (segmentList : List Segment) {fd : Fd}
    (h : fd.offset ≤ fd.content.length) :
    (writeLoop segmentList fd).map Prod.snd = (emitAll segmentList).map fd.write := by
  induction segmentList generalizing fd with
  | nil => simp [writeLoop, emitAll, Fd.write_nil]
  | cons segment rest ih =>
    unfold writeLoop emitAll emit
    cases hw : writeTsSegment segment with
    | none => rfl
    | some r =>
      have hrest := ih (Fd.offset_write_le h r.2)
      simp only [Option.bind_eq_bind, Option.bind_some, Option.map_some, Option.map_bind,
        Option.map_map] at hrest ⊢
      calc _ = ((writeLoop rest (fd.write r.2)).map Prod.snd) := by
              cases writeLoop rest (fd.write r.2) <;> rfl
        _ = (emitAll rest).map (fd.write r.2).write := hrest
        _ = _ := by
              congr 1
              funext bytes
              exact Fd.write_write h _ _

/-- What `mpegts_stream_write` leaves in an existing file. -/
theorem map_fst_mpegtsStreamWrite {fs : FileSystem} {stream : Stream} (path : Option Path)
    {content : List Byte} (h : fs (path.getD stream.url) = some content) :
    (mpegtsStreamWrite fs stream path).map Prod.fst =
      (emitAll stream.segmentList).map fun out =>
        Function.update fs (path.getD stream.url) (some (out ++ content.drop out.length)) := by
  have hloop := map_snd_writeLoop stream.segmentList
    (show (⟨content, 0⟩ : Fd).offset ≤ content.length from Nat.zero_le _)
  unfold mpegtsStreamWrite
  simp only [h]
  cases hw : writeLoop stream.segmentList ⟨content, 0⟩ with
  | none =>
    rw [hw] at hloop
    cases he : emitAll stream.segmentList with
    | none => rfl
    | some out => rw [he] at hloop; cases hloop
  | some r =>
    rw [hw] at hloop
    cases he : emitAll stream.segmentList with
    | none => rw [he] at hloop; cases hloop
    | some out =>
      rw [he] at hloop
      simp only [Option.map_some, Option.some.injEq] at hloop
      simp [hloop, Fd.write]

end MpegtsReader
