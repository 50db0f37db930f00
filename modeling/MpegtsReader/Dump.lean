import Mathlib.Data.List.TakeWhile
import MpegtsReader.Edits
import MpegtsReader.Printf

/-!
# The dump of a stream

`mpegts_stream_print`, `mpegts_stream_print_pes_header` and what they call. The functions are
modelled by their calls of `printf`; the dump ends at the first segment with another sync byte
(`mpegtsStreamPrint_eq`). A stream that was read from a file and edited is dumped to its end
(`dumps_runPasses`), and the text of a dump tells the segments, but for what `shown`
clears (`texts_mpegtsStreamPrint_iff`).
-/

namespace MpegtsReader

open Printf

/-! ## Descriptions -/

/-- `get_tsc_value`. -/
def getTscValue (tsc : BitVec 16) : String :=
  match tsc with
  | 0 => "NOT SCRAMBLED"
  | 1 => "RESV"
  | 2 => "Even Key"
  | 3 => "Odd Key"
  | _ => "UNKOWN"

/-- `get_stream_type_name`. -/
def getStreamTypeName (streamId : BitVec 8) : String :=
  match streamId with
  | 0xBD => "Private Stream1"
  | 0xBE => "Padding Stream"
  | 0xBF => "Private Stream2"
  | _ =>
    if streamId < 0xDF#8 then "Audio"
    else if streamId < 0xEF#8 then "Video"
    else "Unknown"

/-- `get_pts_value`. The last case has no `return`. -/
def getPtsValue (ptsInd : BitVec 8) : Option String :=
  match ptsInd with
  | 0 => some "NO PTS/DTS"
  | 1 => some "FORBIDDEN!!!"
  | 2 => some "PTS"
  | 3 => some "PTS | DTS"
  | _ => none

/-- `get_pid_description`. -/
def getPidDescription (pid : BitVec 16) : String :=
  match pid with
  | 0x00 => "PAT"
  | 0x01 => "CAT"
  | 0x02 => "TSDT"
  | 0x03 => "IPMP"
  | 0xfff => "PMT"
  | 0x1ffb => "ATSC MGT meta"
  | 0x1fff => "NULL Packet"
  | _ =>
    if pid ≤ 15#16 then "RESV"
    else if pid ≤ 31#16 then "DVB Meta"
    else if pid ≤ 8190#16 then "Elementary Stream"
    else "UNKNOWN"

/-- `get_adpt_field_value`. -/
def getAdptFieldValue (adp : BitVec 16) : Option String :=
  match adp with
  | 0 => some "RESV"
  | 1 => some "(Payload)"
  | 2 => some "(Ad Field)"
  | 3 => some "(Ad Field | Payload)"
  | _ => none

/-! ## Printing -/

/-- The calls of `printf`, and the `LOG_ERR` that ends the process behind them, if there is one. -/
structure Printout where
  calls : List PrintCall
  exit : Option LogErr

/-- Print one after the other. -/
def Printout.andThen (p q : Printout) : Printout :=
  match p.exit with
  | some _ => p
  | none => ⟨p.calls ++ q.calls, q.exit⟩

/-- A bit as an argument of `%d`. -/
def bit (b : Bool) : Arg := .num b.toNat

/-- A bit-field as an argument of `%d`, `%u`, `%lu` or `%02x`. -/
def field {w : ℕ} (v : BitVec w) : Arg := .num v.toNat

def tsHaederFormat : String :=
  "\n[PID : %d (%s) / TSC : %s / AD. Field : %s / PUSI : %s / Priority : %d / CC : %d]\n"

/-- `print_ts_haeder`: the call for an accepted header. -/
def tsHaederCall (header : TsHeader) (scv adv : String) : PrintCall :=
  ⟨tsHaederFormat,
    [field header.pid, .str (some (getPidDescription (header.pid.setWidth 16))), .str (some scv),
      .str (some adv), .str (some (if header.pusi then "YES" else "NO")), bit header.prior,
      field header.continuityCounter]⟩

/-- `print_ts_haeder`. -/
def printTsHaeder (segment : Segment) : Printout :=
  let header := segment.header
  if header.sync ≠ tsSync then
    ⟨[], some ⟨.EINVAL, s!"invalid header : {header.sync.toNat}\n"⟩⟩
  else if header.tei then ⟨[], none⟩
  else
    let scv := getTscValue (header.tscrambleControl.setWidth 16)
    match getAdptFieldValue (header.adaptationFieldCtrl.setWidth 16) with
    | none =>
      let tsc := String.ofList (Nat.toDigits 16 header.tscrambleControl.toNat)
      let ctrl := String.ofList (Nat.toDigits 16 header.adaptationFieldCtrl.toNat)
      ⟨[], some ⟨.EINVAL, s!"invalid header : scv => {scv} ({tsc}) adv => (null)({ctrl})\n"⟩⟩
    | some adv => ⟨[tsHaederCall header scv adv], none⟩

def adaptationFormat : String :=
  "\t> [ADP Len : %d / Discont : %d / Rand Acc : %d / has_priority : %d / has_pcr : %d / " ++
    "has_opcr : %d]\n\t> [splicing point : %d / Private Data : %d / Ad. Ext : %d]\n"

/-- `print_adaptation_field`: the first call. -/
def adaptationCall (adf : TsAdaptField) : PrintCall :=
  ⟨adaptationFormat,
    [field adf.len, bit adf.discontinuity, bit adf.randAcc, bit adf.prior, bit adf.hasPcr,
      bit adf.hasOpcr, bit adf.hasSplic, bit adf.hasPrivate, bit adf.adExt]⟩

def pcrFormat : String := "\t>> PCR : %lu (%f sec.)\n"

/-- `print_adaptation_field`: the call for the PCR. -/
def pcrCall (pcr : BitVec 64) : PrintCall :=
  ⟨pcrFormat, [field pcr, .double (floatDiv pcr.toNat 27000000)]⟩

example : (pcrCall 54054000).text = some "\t>> PCR : 54054000 (2.002000 sec.)\n".toList := by
  decide +kernel

/-- `print_adaptation_field`. -/
def printAdaptationField (segment : Segment) : List PrintCall :=
  let adf := segment.adaptationField
  adaptationCall adf :: if adf.hasPcr then [pcrCall adf.pcr] else []

def psizeFormat : String := "\t\t>>>PAYLOAD size %u\n"

/-- `print_payload`: the size. -/
def psizeCall (payloadStart : ℕ) : PrintCall :=
  ⟨psizeFormat, [field (184#32 - BitVec.ofNat 32 payloadStart)]⟩

def pesFormat : String :=
  "\t\t>>>PAYLOAD [PES Header][Stream ID 0x%02x (%s)][PTS/DTS :(%s) / length : %u / " ++
    "scramble ctrl : 0x%02x / priority : %d / align ind. : %d / copyright : %d / opt. len : %d]\n"

/-- `print_payload`: the first call for a PES header. -/
def pesCall (header : PesHeader) : PrintCall :=
  ⟨pesFormat,
    [field header.streamId, .str (some (getStreamTypeName header.streamId)),
      .str (getPtsValue (header.ptsInd.setWidth 8)), field header.len, field header.scramble,
      bit header.priority, bit header.alignInd, bit header.cpRight, field header.pesHeaderLen]⟩

def pesFlagsFormat : String :=
  "\t\t>>>[ESCR : %d / ES rate : %d / DSM trick mode : %d / Add. Copyr info : %d / CRC %d / " ++
    "Ext. :%d]\n"

/-- `print_payload`: the second call for a PES header. -/
def pesFlagsCall (header : PesHeader) : PrintCall :=
  ⟨pesFlagsFormat,
    [bit header.escr, bit header.es, bit header.dsmTrick, bit header.additionalCpInfo,
      bit header.crc, bit header.ext]⟩

def ptsFormat : String := "\t\t>>> PTS : %lu (%f sec.) / DTS : %lu\n"

/-- `print_payload`: the third call for a PES header. -/
def ptsCall (header : PesHeader) : PrintCall :=
  ⟨ptsFormat, [field header.pts, .double (floatDiv header.pts.toNat 90000), field header.dts]⟩

/-- `print_payload`. -/
def printPayload (segment : Segment) : List PrintCall :=
  psizeCall segment.payloadStart ::
    match segment.pesHeader with
    | none => []
    | some header => [pesCall header, pesFlagsCall header, ptsCall header]

/-- The body of the loops: `print_ts_haeder`, `print_adaptation_field`, `print_payload`. -/
def printSegment (segment : Segment) : Printout :=
  ((printTsHaeder segment).andThen ⟨printAdaptationField segment, none⟩).andThen
    ⟨printPayload segment, none⟩

/-- `mpegts_stream_print`. -/
def mpegtsStreamPrint (stream : Stream) : Printout :=
  (iterLoop (fun out segment => (Printout.andThen out (printSegment segment), segment))
    stream.segmentList cdslIterInit ⟨[], none⟩).1

/-- `mpegts_stream_print_pes_header`. -/
def mpegtsStreamPrintPesHeader (stream : Stream) (pid : BitVec 16) : Printout :=
  (iterLoop (fun out segment =>
      (if segment.header.pusi ∧ segment.header.pid.setWidth 16 = pid then
        Printout.andThen out (printSegment segment) else out, segment))
    stream.segmentList cdslIterInit ⟨[], none⟩).1

/-! ## The calls of a segment -/

/-- What the loops print for a segment with the sync byte. -/
def segmentCalls (segment : Segment) : List PrintCall :=
  (printTsHaeder segment).calls ++ (printAdaptationField segment ++ printPayload segment)

/-- The error of `print_ts_haeder` for another sync byte. -/
def syncError (segment : Segment) : LogErr :=
  ⟨.EINVAL, s!"invalid header : {segment.header.sync.toNat}\n"⟩

/-- The segments before the first one with another sync byte. -/
def dumped (segments : List Segment) : List Segment :=
  segments.takeWhile fun segment => segment.header.sync = tsSync

/-- Every segment has the sync byte. -/
def Synced (segments : List Segment) : Prop := ∀ segment ∈ segments, segment.header.sync = tsSync

theorem two_bits (v : BitVec 2) : v = 0 ∨ v = 1 ∨ v = 2 ∨ v = 3 := by decide +revert

theorem getAdptFieldValue_setWidth (ctrl : BitVec 2) :
    ∃ s, getAdptFieldValue (ctrl.setWidth 16) = some s ∧ '/' ∉ s.toList := by
  rcases two_bits ctrl with rfl | rfl | rfl | rfl <;> exact ⟨_, rfl, by decide⟩

/-- An accepted header is printed but where the packet is marked as corrupted. -/
theorem printTsHaeder_of_sync {segment : Segment} (h : segment.header.sync = tsSync) :
    ∃ adv, getAdptFieldValue (segment.header.adaptationFieldCtrl.setWidth 16) = some adv ∧
      '/' ∉ adv.toList ∧ printTsHaeder segment =
        ⟨if segment.header.tei then [] else
          [tsHaederCall segment.header
            (getTscValue (segment.header.tscrambleControl.setWidth 16)) adv], none⟩ := by
  obtain ⟨adv, hadv, hstop⟩ := getAdptFieldValue_setWidth segment.header.adaptationFieldCtrl
  refine ⟨adv, hadv, hstop, ?_⟩
  unfold printTsHaeder
  rw [if_neg (not_not.mpr h), hadv]
  split_ifs <;> rfl

theorem printSegment_of_sync {segment : Segment} (h : segment.header.sync = tsSync) :
    printSegment segment = ⟨segmentCalls segment, none⟩ := by
  obtain ⟨adv, -, -, hprint⟩ := printTsHaeder_of_sync h
  unfold printSegment segmentCalls
  rw [hprint]
  simp only [Printout.andThen, List.append_assoc]

theorem printSegment_of_ne {segment : Segment} (h : segment.header.sync ≠ tsSync) :
    printSegment segment = ⟨[], some (syncError segment)⟩ := by
  unfold printSegment printTsHaeder
  rw [if_pos h]
  rfl

/-! ## The loop -/

/-- Nothing is printed any more once the process has ended. -/
theorem foldl_andThen_of_exit {α : Type} (f : α → Printout) {out : Printout} {err : LogErr}
    (h : out.exit = some err) (as : List α) :
    as.foldl (fun out a => out.andThen (f a)) out = out := by
  have hstep : ∀ p, out.andThen p = out := by
    intro p
    unfold Printout.andThen
    rw [h]
  induction as with
  | nil => rfl
  | cons a as ih => rw [List.foldl_cons, hstep, ih]

theorem foldl_printSegment (calls : List PrintCall) (segments : List Segment) :
    segments.foldl (fun out segment => Printout.andThen out (printSegment segment))
        ⟨calls, none⟩ =
      ⟨calls ++ (dumped segments).flatMap segmentCalls,
        (segments.find? fun segment => segment.header.sync ≠ tsSync).map syncError⟩ := by
  induction segments generalizing calls with
  | nil => exact congrArg (Printout.mk · none) (List.append_nil calls).symm
  | cons segment segments ih =>
    rw [List.foldl_cons]
    by_cases h : segment.header.sync = tsSync
    · have hdumped : dumped (segment :: segments) = segment :: dumped segments := by
        unfold dumped
        rw [List.takeWhile_cons, if_pos (decide_eq_true h)]
      rw [printSegment_of_sync h, Printout.andThen, ih, hdumped, List.flatMap_cons,
        List.append_assoc, List.find?_cons_of_neg (by simpa using h)]
    · have hdumped : dumped (segment :: segments) = [] := by
        unfold dumped
        rw [List.takeWhile_cons, if_neg (by simpa using h)]
      rw [printSegment_of_ne h, Printout.andThen, hdumped, List.flatMap_nil,
        List.find?_cons_of_pos (by simpa using h)]
      exact foldl_andThen_of_exit _ rfl segments

/-- The dump shows the segments up to the first one with another sync byte, and ends the process
there. -/
theorem mpegtsStreamPrint_eq (stream : Stream) :
    mpegtsStreamPrint stream = ⟨(dumped stream.segmentList).flatMap segmentCalls,
      (stream.segmentList.find? fun segment => segment.header.sync ≠ tsSync).map syncError⟩ := by
  unfold mpegtsStreamPrint
  rw [iterLoop_init_fst, fst_mapAccum_keep, foldl_printSegment, List.nil_append]

/-- The dump of the PES headers shows the packets that start a unit of the PID. -/
theorem mpegtsStreamPrintPesHeader_eq (stream : Stream) (pid : BitVec 16) :
    let starts := stream.segmentList.filter fun segment =>
      segment.header.pusi ∧ segment.header.pid.setWidth 16 = pid
    mpegtsStreamPrintPesHeader stream pid = ⟨(dumped starts).flatMap segmentCalls,
      (starts.find? fun segment => segment.header.sync ≠ tsSync).map syncError⟩ := by
  intro starts
  unfold mpegtsStreamPrintPesHeader
  rw [iterLoop_init_fst, fst_mapAccum_keep]
  have hfold := foldl_printSegment [] starts
  rw [List.foldl_filter, List.nil_append] at hfold
  simpa only [decide_eq_true_eq] using hfold

/-! ## The text -/

def tsHaederLayout : Layout where
  format := tsHaederFormat
  text := _
  spelled := String.toList_ofList
  fields := [.decimal, .str ')', .str '/', .str '/', .str '/', .decimal, .decimal]
  separated := by decide +kernel

def adaptationLayout : Layout where
  format := adaptationFormat
  text := _
  spelled := toList_append_ofList
  fields := List.replicate 9 .decimal
  separated := by decide +kernel

def pcrLayout : Layout where
  format := pcrFormat
  text := _
  spelled := String.toList_ofList
  fields := [.decimal, .fixed]
  separated := by decide +kernel

def psizeLayout : Layout where
  format := psizeFormat
  text := _
  spelled := String.toList_ofList
  fields := [.decimal]
  separated := by decide +kernel

def pesLayout : Layout where
  format := pesFormat
  text := _
  spelled := toList_append_ofList
  fields := [.byte, .str ')', .str ')', .decimal, .byte, .decimal, .decimal, .decimal, .decimal]
  separated := by decide +kernel

def pesFlagsLayout : Layout where
  format := pesFlagsFormat
  text := _
  spelled := toList_append_ofList
  fields := List.replicate 6 .decimal
  separated := by decide +kernel

def ptsLayout : Layout where
  format := ptsFormat
  text := _
  spelled := String.toList_ofList
  fields := [.decimal, .fixed, .decimal]
  separated := by decide +kernel

/-- The layouts of the dump. -/
def dumpLayouts : List Layout :=
  [tsHaederLayout, adaptationLayout, pcrLayout, psizeLayout, pesLayout, pesFlagsLayout, ptsLayout]

theorem distinct_dumpLayouts : Layout.Distinct dumpLayouts := by decide +kernel

theorem start_ne_nil_of_mem : ∀ layout ∈ dumpLayouts, layout.start ≠ [] := by decide +kernel

theorem stop_getTscValue (tsc : BitVec 16) : '/' ∉ (getTscValue tsc).toList := by
  unfold getTscValue
  split <;> decide

theorem stop_getPidDescription (pid : BitVec 16) : ')' ∉ (getPidDescription pid).toList := by
  unfold getPidDescription
  split
  all_goals first | decide | split_ifs <;> decide

theorem stop_getStreamTypeName (streamId : BitVec 8) :
    ')' ∉ (getStreamTypeName streamId).toList := by
  unfold getStreamTypeName
  split
  all_goals first | decide | split_ifs <;> decide

/-- The two bits of a PES header select a description with a text. -/
theorem getPtsValue_setWidth (ptsInd : BitVec 2) :
    ∃ s, getPtsValue (ptsInd.setWidth 8) = some s ∧ ')' ∉ s.toList := by
  rcases two_bits ptsInd with rfl | rfl | rfl | rfl <;> exact ⟨_, rfl, by decide⟩

theorem within_tsHaederCall (header : TsHeader) {scv adv : String} (hscv : '/' ∉ scv.toList)
    (hadv : '/' ∉ adv.toList) : (tsHaederCall header scv adv).Within dumpLayouts := by
  have hpusi : '/' ∉ (if header.pusi then "YES" else "NO").toList := by
    split_ifs <;> decide
  refine ⟨tsHaederLayout, by simp [dumpLayouts], rfl, ?_⟩
  exact .cons trivial (.cons (stop_getPidDescription _) (.cons hscv (.cons hadv (.cons hpusi
    (.cons trivial (.cons trivial .nil))))))

theorem within_adaptationCall (adf : TsAdaptField) : (adaptationCall adf).Within dumpLayouts := by
  refine ⟨adaptationLayout, by simp [dumpLayouts], rfl, ?_⟩
  simp [adaptationLayout, adaptationCall, bit, field, Field.Takes]

theorem within_pcrCall (pcr : BitVec 64) : (pcrCall pcr).Within dumpLayouts := by
  refine ⟨pcrLayout, by simp [dumpLayouts], rfl, ?_⟩
  simp [pcrLayout, pcrCall, field, Field.Takes]

theorem within_psizeCall (payloadStart : ℕ) : (psizeCall payloadStart).Within dumpLayouts := by
  refine ⟨psizeLayout, by simp [dumpLayouts], rfl, ?_⟩
  simp [psizeLayout, psizeCall, field, Field.Takes]

theorem within_pesCall (header : PesHeader) : (pesCall header).Within dumpLayouts := by
  obtain ⟨s, hs, hstop⟩ := getPtsValue_setWidth header.ptsInd
  have hscramble : header.scramble.toNat < 256 := by omega
  refine ⟨pesLayout, by simp [dumpLayouts], rfl, ?_⟩
  simp only [pesLayout, pesCall, hs]
  exact .cons header.streamId.isLt (.cons (stop_getStreamTypeName _) (.cons hstop (.cons trivial
    (.cons hscramble (.cons trivial (.cons trivial (.cons trivial (.cons trivial .nil))))))))

theorem within_pesFlagsCall (header : PesHeader) : (pesFlagsCall header).Within dumpLayouts := by
  refine ⟨pesFlagsLayout, by simp [dumpLayouts], rfl, ?_⟩
  simp [pesFlagsLayout, pesFlagsCall, bit, Field.Takes]

theorem within_ptsCall (header : PesHeader) : (ptsCall header).Within dumpLayouts := by
  refine ⟨ptsLayout, by simp [dumpLayouts], rfl, ?_⟩
  simp [ptsLayout, ptsCall, field, Field.Takes]

/-- Whatever is printed has a text. -/
theorem within_segmentCalls {segment : Segment} (h : segment.header.sync = tsSync) :
    ∀ call ∈ segmentCalls segment, call.Within dumpLayouts := by
  intro call hcall
  obtain ⟨adv, -, hstop, hprint⟩ := printTsHaeder_of_sync h
  rw [segmentCalls, hprint, List.mem_append, List.mem_append] at hcall
  rcases hcall with hcall | hcall | hcall
  · split_ifs at hcall
    · cases hcall
    · rw [List.mem_singleton.mp hcall]
      exact within_tsHaederCall _ (stop_getTscValue _) hstop
  · rcases List.mem_cons.mp hcall with rfl | hcall
    · exact within_adaptationCall _
    · split_ifs at hcall
      · rw [List.mem_singleton.mp hcall]
        exact within_pcrCall _
      · cases hcall
  · rcases List.mem_cons.mp hcall with rfl | hcall
    · exact within_psizeCall _
    · cases hpes : segment.pesHeader with
      | none =>
        rw [hpes] at hcall
        cases hcall
      | some header =>
        simp only [hpes, List.mem_cons, List.not_mem_nil, or_false] at hcall
        rcases hcall with rfl | rfl | rfl
        · exact within_pesCall header
        · exact within_pesFlagsCall header
        · exact within_ptsCall header

theorem synced_dumped (segments : List Segment) : Synced (dumped segments) := by
  intro segment h
  simpa using List.mem_takeWhile_imp h

theorem within_flatMap_segmentCalls (segments : List Segment) :
    ∀ call ∈ (dumped segments).flatMap segmentCalls, call.Within dumpLayouts := by
  intro call hcall
  obtain ⟨segment, hmem, hcall⟩ := List.mem_flatMap.mp hcall
  exact within_segmentCalls (synced_dumped _ segment hmem) call hcall

/-! ## What the text tells -/

/-- A segment with what the dump does not show cleared: the rest of the header of a corrupted
packet, the fields of the adaptation field behind the flags but for a PCR that is there, the bytes
of the payload and the mark of an original. -/
def shown (segment : Segment) : Segment where
  header :=
    if segment.header.tei then ⟨tsSync, true, false, false, 0, 0, 0, 0⟩ else segment.header
  adaptationField :=
    { segment.adaptationField with
      pcr := if segment.adaptationField.hasPcr then segment.adaptationField.pcr else 0
      opcr := 0
      spliceCount := 0
      privLen := 0 }
  payload := Vector.replicate 184 0
  pesHeader := segment.pesHeader.map ({ · with original := false })
  payloadStart := segment.payloadStart % 2 ^ 32

theorem same_num {m n : ℕ} : (Arg.num m).Same (.num n) ↔ m = n := by simp [Arg.Same]

theorem same_str {s t : Option String} : (Arg.str s).Same (.str t) ↔ s = t := by simp [Arg.Same]

theorem same_bit {a b : Bool} : (bit a).Same (bit b) ↔ a = b := by
  unfold bit
  rw [same_num]
  cases a <;> cases b <;> decide

theorem same_field {w : ℕ} {v v' : BitVec w} : (field v).Same (field v') ↔ v = v' := by
  unfold field
  rw [same_num, BitVec.toNat_inj]

theorem getTscValue_inj : ∀ v v' : BitVec 2,
    getTscValue (v.setWidth 16) = getTscValue (v'.setWidth 16) → v = v' := by decide +kernel

theorem getAdptFieldValue_inj : ∀ v v' : BitVec 2,
    getAdptFieldValue (v.setWidth 16) = getAdptFieldValue (v'.setWidth 16) → v = v' := by
  decide +kernel

theorem getPtsValue_inj : ∀ v v' : BitVec 2,
    getPtsValue (v.setWidth 8) = getPtsValue (v'.setWidth 8) → v = v' := by decide +kernel

/-- Two texts with a header in front, or without one, have the same header. -/
theorem header_of_same {s t : Segment} (hs : s.header.sync = tsSync) (ht : t.header.sync = tsSync)
    {a b : TsAdaptField} {r r' : List PrintCall}
    (h : List.Forall₂ PrintCall.Same ((printTsHaeder s).calls ++ adaptationCall a :: r)
      ((printTsHaeder t).calls ++ adaptationCall b :: r')) :
    (shown s).header = (shown t).header ∧
      List.Forall₂ PrintCall.Same (adaptationCall a :: r) (adaptationCall b :: r') := by
  obtain ⟨adv, hadv, -, hprint⟩ := printTsHaeder_of_sync hs
  obtain ⟨adv', hadv', -, hprint'⟩ := printTsHaeder_of_sync ht
  have hformat : tsHaederFormat ≠ adaptationFormat := by decide +kernel
  rw [hprint, hprint'] at h
  cases hst : s.header.tei with
  | true =>
    cases htt : t.header.tei with
    | true =>
      rw [hst, htt] at h
      exact ⟨by simp only [shown, hst, htt, if_true], h⟩
    | false =>
      rw [hst, htt] at h
      cases h with
      | cons hsame _ => exact absurd hsame.1.symm hformat
  | false =>
    cases htt : t.header.tei with
    | true =>
      rw [hst, htt] at h
      cases h with
      | cons hsame _ => exact absurd hsame.1 hformat
    | false =>
      rw [hst, htt] at h
      cases h with
      | cons hsame hrest =>
        refine ⟨?_, hrest⟩
        have hargs := hsame.2
        simp only [tsHaederCall, List.forall₂_cons, same_field, same_bit, same_str,
          Option.some.injEq] at hargs
        obtain ⟨hpid, -, hscv, hadveq, hpusi, hprior, hcc, -⟩ := hargs
        have hctrl := getAdptFieldValue_inj _ _ (hadv.trans (hadveq ▸ hadv'.symm))
        have htsc := getTscValue_inj _ _ hscv
        have hpusi' : s.header.pusi = t.header.pusi := by
          revert hpusi
          cases s.header.pusi <;> cases t.header.pusi <;> decide
        simp only [shown, hst, htt]
        exact TsHeader.ext (hs.trans ht.symm) (hst.trans htt.symm) hpusi' hprior hpid htsc hctrl hcc

theorem adaptation_of_same {s t : Segment} {r r' : List PrintCall}
    (h : List.Forall₂ PrintCall.Same (printAdaptationField s ++ r) (printAdaptationField t ++ r')) :
    (shown s).adaptationField = (shown t).adaptationField ∧ List.Forall₂ PrintCall.Same r r' := by
  unfold printAdaptationField at h
  cases h with
  | cons hsame h =>
    have hargs := hsame.2
    simp only [adaptationCall, List.forall₂_cons, same_field, same_bit] at hargs
    obtain ⟨hlen, hdisc, hrand, hprior, hpcr, hopcr, hsplic, hpriv, hext, -⟩ := hargs
    rw [hpcr] at h
    cases hset : t.adaptationField.hasPcr with
    | false =>
      rw [hset] at h hpcr
      refine ⟨?_, h⟩
      simp only [shown, hset, hpcr, hlen, hdisc, hrand, hprior, hopcr, hsplic, hpriv, hext]
      rfl
    | true =>
      rw [hset] at h hpcr
      cases h with
      | cons hsame h =>
        have hargs := hsame.2
        simp only [pcrCall, List.forall₂_cons, same_field] at hargs
        refine ⟨?_, h⟩
        simp only [shown, hset, hpcr, hlen, hdisc, hrand, hprior, hopcr, hsplic, hpriv, hext,
          hargs.1]

theorem psize_of_same {m n : ℕ} (h : (psizeCall m).Same (psizeCall n)) :
    m % 2 ^ 32 = n % 2 ^ 32 := by
  have hargs := h.2
  simp only [psizeCall, List.forall₂_cons, same_field] at hargs
  have heq : BitVec.ofNat 32 m = BitVec.ofNat 32 n := by
    have := hargs.1
    bv_omega
  simpa using congrArg BitVec.toNat heq

/-- The three calls tell the PES header but for the mark of an original. -/
theorem pes_of_same {header header' : PesHeader} {r r' : List PrintCall}
    (h : List.Forall₂ PrintCall.Same
      ([pesCall header, pesFlagsCall header, ptsCall header] ++ r)
      ([pesCall header', pesFlagsCall header', ptsCall header'] ++ r')) :
    { header with original := false } = { header' with original := false } ∧
      List.Forall₂ PrintCall.Same r r' := by
  simp only [List.cons_append, List.nil_append, List.forall₂_cons] at h
  obtain ⟨⟨-, hpes⟩, ⟨-, hflags⟩, ⟨-, hpts⟩, h⟩ := h
  simp only [pesCall, List.forall₂_cons, same_field, same_bit, same_str] at hpes
  simp only [pesFlagsCall, List.forall₂_cons, same_bit] at hflags
  simp only [ptsCall, List.forall₂_cons, same_field] at hpts
  obtain ⟨hid, -, hind, hlen, hscramble, hprio, halign, hcopy, hopt, -⟩ := hpes
  obtain ⟨hescr, hes, hdsm, hadd, hcrc, hext, -⟩ := hflags
  obtain ⟨hpts, -, hdts, -⟩ := hpts
  have hind := getPtsValue_inj _ _ hind
  refine ⟨?_, h⟩
  rw [PesHeader.mk.injEq]
  exact ⟨hid, hlen, hscramble, hprio, halign, hcopy, rfl, hind, hescr, hes, hdsm, hadd, hcrc, hext,
    hopt, hpts, hdts⟩

/-- What follows a segment does not start like a PES header. -/
def NoPes (calls : List PrintCall) : Prop := ∀ call ∈ calls.head?, call.format ≠ pesFormat

theorem noPes_flatMap {segments : List Segment} (h : Synced segments) :
    NoPes (segments.flatMap segmentCalls) := by
  cases segments with
  | nil =>
    intro call hcall
    cases hcall
  | cons segment segments =>
    obtain ⟨adv, -, -, hprint⟩ := printTsHaeder_of_sync (h segment List.mem_cons_self)
    rw [List.flatMap_cons, segmentCalls, hprint, printAdaptationField]
    intro call hcall
    split_ifs at hcall <;> rw [← Option.some.inj hcall]
    · exact (by decide +kernel : adaptationFormat ≠ pesFormat)
    · exact (by decide +kernel : adaptationFormat ≠ pesFormat)
    · exact (by decide +kernel : tsHaederFormat ≠ pesFormat)
    · exact (by decide +kernel : tsHaederFormat ≠ pesFormat)

theorem payload_of_same {s t : Segment} {r r' : List PrintCall} (hr : NoPes r) (hr' : NoPes r')
    (h : List.Forall₂ PrintCall.Same (printPayload s ++ r) (printPayload t ++ r')) :
    (shown s).payloadStart = (shown t).payloadStart ∧ (shown s).pesHeader = (shown t).pesHeader ∧
      List.Forall₂ PrintCall.Same r r' := by
  unfold printPayload at h
  cases h with
  | cons hsize h =>
    refine ⟨psize_of_same hsize, ?_⟩
    cases hs : s.pesHeader with
    | none =>
      cases ht : t.pesHeader with
      | none =>
        rw [hs, ht] at h
        exact ⟨by simp only [shown, hs, ht], h⟩
      | some header' =>
        rw [hs, ht] at h
        cases r with
        | nil => cases h
        | cons call r =>
          cases h with
          | cons hsame _ => exact absurd hsame.1 (hr call rfl)
    | some header =>
      cases ht : t.pesHeader with
      | none =>
        rw [hs, ht] at h
        cases r' with
        | nil => cases h
        | cons call r' =>
          cases h with
          | cons hsame _ => exact absurd hsame.1.symm (hr' call rfl)
      | some header' =>
        rw [hs, ht] at h
        obtain ⟨hheader, h⟩ := pes_of_same h
        exact ⟨by simp only [shown, hs, ht, Option.map_some, hheader], h⟩

/-- The calls of the dump tell the segments but for what is not shown. -/
theorem shown_of_same {ss ts : List Segment} (hss : Synced ss) (hts : Synced ts)
    (h : List.Forall₂ PrintCall.Same (ss.flatMap segmentCalls) (ts.flatMap segmentCalls)) :
    ss.map shown = ts.map shown := by
  have hne : ∀ s : Segment, segmentCalls s ≠ [] := by
    intro s
    unfold segmentCalls printAdaptationField
    simp
  induction ss generalizing ts with
  | nil =>
    cases ts with
    | nil => rfl
    | cons t ts =>
      have hnil := List.forall₂_nil_left_iff.mp h
      exact absurd (List.append_eq_nil_iff.mp hnil).1 (hne t)
  | cons s ss ih =>
    cases ts with
    | nil =>
      have hnil := List.forall₂_nil_right_iff.mp h
      exact absurd (List.append_eq_nil_iff.mp hnil).1 (hne s)
    | cons t ts =>
      have hsync := hss s List.mem_cons_self
      have hsync' := hts t List.mem_cons_self
      have hss' : Synced ss := fun x hx => hss x (List.mem_cons_of_mem _ hx)
      have hts' : Synced ts := fun x hx => hts x (List.mem_cons_of_mem _ hx)
      simp only [List.flatMap_cons, segmentCalls, List.append_assoc] at h
      obtain ⟨hheader, h⟩ := header_of_same hsync hsync' h
      obtain ⟨hadf, h⟩ := adaptation_of_same h
      obtain ⟨hstart, hpes, h⟩ := payload_of_same (noPes_flatMap hss') (noPes_flatMap hts') h
      have hshown : shown s = shown t := by
        rw [Segment.mk.injEq]
        exact ⟨hheader, hadf, rfl, hpes, hstart⟩
      rw [List.map_cons, List.map_cons, hshown, ih hss' hts' h]

theorem segmentCalls_shown {s : Segment} (h : s.header.sync = tsSync) :
    segmentCalls (shown s) = segmentCalls s := by
  have hheader : (printTsHaeder (shown s)).calls = (printTsHaeder s).calls := by
    cases htei : s.header.tei with
    | false => simp only [printTsHaeder, shown, htei, if_false, Bool.false_eq_true]
    | true => simp only [printTsHaeder, shown, htei, if_true, h]
  have hadaptation : printAdaptationField (shown s) = printAdaptationField s := by
    have hcall : adaptationCall (shown s).adaptationField = adaptationCall s.adaptationField := rfl
    unfold printAdaptationField
    simp only [hcall]
    cases hpcr : s.adaptationField.hasPcr with
    | false => simp only [shown, hpcr, Bool.false_eq_true, if_false]
    | true => simp only [shown, hpcr, if_true]
  have hpayload : printPayload (shown s) = printPayload s := by
    have hsize : psizeCall (s.payloadStart % 2 ^ 32) = psizeCall s.payloadStart := by
      unfold psizeCall
      rw [show BitVec.ofNat 32 (s.payloadStart % 2 ^ 32) = BitVec.ofNat 32 s.payloadStart from
        BitVec.eq_of_toNat_eq (by simp)]
    unfold printPayload
    simp only [shown, hsize]
    cases s.pesHeader <;> rfl
  rw [segmentCalls, segmentCalls, hheader, hadaptation, hpayload]

/-- Two dumps have the same text exactly when they show the same segments. -/
theorem texts_mpegtsStreamPrint_iff (s t : Stream) :
    texts (mpegtsStreamPrint s).calls = texts (mpegtsStreamPrint t).calls ↔
      (dumped s.segmentList).map shown = (dumped t.segmentList).map shown := by
  rw [mpegtsStreamPrint_eq, mpegtsStreamPrint_eq]
  constructor
  · intro h
    obtain ⟨text, htext⟩ := exists_texts (within_flatMap_segmentCalls s.segmentList)
    exact shown_of_same (synced_dumped _) (synced_dumped _)
      (sameCalls_of_texts distinct_dumpLayouts start_ne_nil_of_mem
        (within_flatMap_segmentCalls _) (within_flatMap_segmentCalls _) htext (h ▸ htext))
  · intro h
    have hcalls (segments : List Segment) : (dumped segments).flatMap segmentCalls =
        ((dumped segments).map shown).flatMap segmentCalls := by
      rw [List.flatMap_map]
      exact List.flatMap_congr fun s hs => (segmentCalls_shown (synced_dumped _ s hs)).symm
    exact congrArg texts (by simp only [hcalls, h])

/-! ## Streams that were read -/

/-- What is read has the sync byte. -/
theorem sync_of_parseTsSegment {stale : Stale} {fd rest : List Byte} {segment : Segment}
    (h : parseTsSegment stale fd = .parsed segment rest) : segment.header.sync = tsSync := by
  unfold parseTsSegment at h
  split_ifs at h
  cases hp : parseHeader (leWord (fd.take 4)) with
  | error e =>
    rw [hp] at h
    cases h
  | ok header =>
    rw [hp] at h
    simp only at h
    split_ifs at h
    obtain ⟨rfl, -⟩ := ParseTs.parsed.inj h
    obtain ⟨hsync, rfl⟩ := parseHeader_eq_ok_iff.mp hp
    exact (headerFields_sync _).trans hsync

theorem synced_readLoop {stale : ℕ → Stale} {segmentList : List Segment} (fd : List Byte)
    (h : Synced segmentList) : Synced (readLoop stale segmentList fd).1 := by
  induction hn : fd.length using Nat.strong_induction_on generalizing segmentList fd with
  | _ n ih =>
    cases hp : parseTsSegment (stale segmentList.length) fd with
    | eof => rwa [readLoop_eof hp]
    | failed err => rwa [readLoop_failed hp]
    | parsed segment rest =>
      obtain ⟨hlen, hrest⟩ := parseTsSegment_parsed hp
      rw [readLoop_parsed hp]
      refine ih rest.length ?_ rest ?_ rfl
      · rw [hrest, List.length_drop]
        omega
      · intro s hs
        rcases List.mem_append.mp hs with hs | hs
        · exact h s hs
        · rw [List.mem_singleton.mp hs]
          exact sync_of_parseTsSegment hp

/-- A pass leaves the sync bytes. -/
theorem synced_run {stream : Stream} (pass : Pass) (h : Synced stream.segmentList) :
    Synced (pass.run stream).segmentList := by
  unfold Synced at h ⊢
  cases pass with
  | pesResetLen =>
    simp only [Pass.run, segmentList_pesResetLen, List.forall_mem_map]
    intro s hs
    rw [resetLen_eq s]
    exact h s hs
  | fixKeyframe pid =>
    simp only [Pass.run, segmentList_fixKeyframe, List.forall_mem_map]
    intro s hs
    unfold fixKeyframe
    split_ifs <;> exact h s hs
  | updatePcrByPts pid =>
    simp only [Pass.run, segmentList_updatePcrByPts, List.forall_mem_map]
    intro s hs
    unfold updatePcr
    split <;> [skip; split_ifs] <;> exact h s hs
  | updateCc pid initCc =>
    simp only [Pass.run, mpegtsStreamUpdateCc_eq]
    refine forall_mapAccum (fun cc s hs => ?_) h initCc
    unfold updateCc
    split_ifs <;> exact hs

theorem synced_runPasses {stream : Stream} (passes : List Pass) (h : Synced stream.segmentList) :
    Synced (runPasses stream passes).segmentList := by
  induction passes generalizing stream with
  | nil => exact h
  | cons pass passes ih => exact ih (synced_run pass h)

theorem synced_mpegtsStreamReadSegment (fs : FileSystem) (stale : ℕ → Stale) (url : Path) :
    Synced (mpegtsStreamReadSegment fs stale (mpegtsStreamInit url)).1.segmentList := by
  unfold mpegtsStreamReadSegment
  split
  · exact fun _ hmem => absurd hmem List.not_mem_nil
  · exact synced_readLoop _ fun _ hmem => absurd hmem List.not_mem_nil

theorem dumped_eq_self {segments : List Segment} (h : Synced segments) :
    dumped segments = segments :=
  List.takeWhile_eq_self_iff.mpr fun s hs => decide_eq_true (h s hs)

theorem find?_eq_none_of_synced {segments : List Segment} (h : Synced segments) :
    segments.find? (fun segment => segment.header.sync ≠ tsSync) = none :=
  List.find?_eq_none.mpr fun s hs => by simpa using h s hs

/-- The first call for an adaptation field is made once for a segment. -/
theorem filter_segmentCalls {segment : Segment} (h : segment.header.sync = tsSync) :
    (segmentCalls segment).filter (·.format = adaptationFormat) =
      [adaptationCall segment.adaptationField] := by
  have hne : ∀ format ∈ [tsHaederFormat, pcrFormat, psizeFormat, pesFormat, pesFlagsFormat,
      ptsFormat], format ≠ adaptationFormat := by decide +kernel
  simp only [List.forall_mem_cons, List.not_mem_nil, false_imp_iff, implies_true, and_true] at hne
  obtain ⟨hts, hpcr, hpsize, hpes, hflags, hpts⟩ := hne
  obtain ⟨adv, -, -, hprint⟩ := printTsHaeder_of_sync h
  have hheader : (printTsHaeder segment).calls.filter (·.format = adaptationFormat) = [] := by
    rw [hprint]
    split_ifs <;> simp [tsHaederCall, hts]
  have hadaptation : (printAdaptationField segment).filter (·.format = adaptationFormat) =
      [adaptationCall segment.adaptationField] := by
    simp only [printAdaptationField]
    split_ifs <;> simp [adaptationCall, pcrCall, hpcr]
  have hpayload : (printPayload segment).filter (·.format = adaptationFormat) = [] := by
    unfold printPayload
    cases segment.pesHeader <;> simp [psizeCall, pesCall, pesFlagsCall, ptsCall, *]
  rw [segmentCalls, List.filter_append, List.filter_append, hheader, hadaptation, hpayload]
  rfl

/-- The dump ran to its end: every description has a text, and these segments are shown, each once
and in order. -/
structure Dumps (out : Printout) (segments : List Segment) : Prop where
  exit : out.exit = none
  text : ∃ text, texts out.calls = some text
  packets : out.calls.filter (·.format = adaptationFormat) =
    segments.map fun segment => adaptationCall segment.adaptationField

theorem dumps_of_synced {segments : List Segment} (h : Synced segments) :
    Dumps ⟨(dumped segments).flatMap segmentCalls,
      (segments.find? fun segment => segment.header.sync ≠ tsSync).map syncError⟩ segments := by
  have hwithin := within_flatMap_segmentCalls segments
  rw [find?_eq_none_of_synced h]
  rw [dumped_eq_self h] at hwithin ⊢
  refine ⟨rfl, exists_texts hwithin, ?_⟩
  rw [List.filter_flatMap, List.map_eq_flatMap]
  exact List.flatMap_congr fun s hs => filter_segmentCalls (h s hs)

/-- A stream that was read from any file and edited by any passes is dumped to its end, and so are
its PES headers for any PID. -/
theorem dumps_runPasses (fs : FileSystem) (stale : ℕ → Stale) (url : Path) (passes : List Pass) :
    let stream := runPasses (mpegtsStreamReadSegment fs stale (mpegtsStreamInit url)).1 passes
    Dumps (mpegtsStreamPrint stream) stream.segmentList ∧
      ∀ pid, Dumps (mpegtsStreamPrintPesHeader stream pid) (stream.segmentList.filter fun segment =>
        segment.header.pusi ∧ segment.header.pid.setWidth 16 = pid) := by
  intro stream
  have hsync := synced_runPasses passes (synced_mpegtsStreamReadSegment fs stale url)
  refine ⟨?_, fun pid => ?_⟩
  · rw [mpegtsStreamPrint_eq]
    exact dumps_of_synced hsync
  · rw [mpegtsStreamPrintPesHeader_eq]
    exact dumps_of_synced fun segment hmem => hsync segment (List.mem_filter.mp hmem).1

end MpegtsReader
