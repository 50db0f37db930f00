import Mathlib.Data.List.Basic
import Mathlib.Tactic.Common
import Mathlib.Tactic.IntervalCases

/-!
# The data of a transport stream

The structures of `mpegts_parser.h`. Bit-fields are bit vectors of their declared width (one-bit
fields are `Bool`), pointers into a payload are offsets from its first byte, and the intrusive list
node of a segment is left to the list that holds it. `Stale` is what `malloc` hands out: nothing in
the parsers clears it, so every decoded value is a function of the packet and of a `Stale`.
-/

namespace MpegtsReader

/-- `uint8_t`. -/
abbrev Byte := BitVec 8

/-- A `uint8_t` after the integer promotion to `int`. -/
abbrev promote (b : Byte) : BitVec 32 := b.setWidth 32

/-- `(v & mask) == mask`. -/
def isSet {w : ℕ} (v mask : BitVec w) : Bool := v &&& mask == mask

/-- Testing a one-bit mask reads that bit. -/
theorem isSet_twoPow {w : ℕ} (v : BitVec w) {k : ℕ} (hk : k < w) :
    isSet v (BitVec.twoPow w k) = v.getLsbD k := by
  unfold isSet
  rw [BitVec.and_twoPow]
  cases h : v.getLsbD k
  · have hne : (0#w == BitVec.twoPow w k) = false := by
      rw [beq_eq_false_iff_ne]
      intro he
      have := congrArg (fun x : BitVec w => x.getLsbD k) he
      simp [hk] at this
    simpa using hne
  · simp

/-! ## Structures of the parser -/

/-- `ts_header_t`. -/
@[ext]
structure TsHeader where
  sync : BitVec 8
  tei : Bool
  pusi : Bool
  prior : Bool
  pid : BitVec 13
  tscrambleControl : BitVec 2
  adaptationFieldCtrl : BitVec 2
  continuityCounter : BitVec 4
  deriving DecidableEq, Repr

/-- `ts_adapt_field_t`. -/
structure TsAdaptField where
  len : BitVec 8
  discontinuity : Bool
  randAcc : Bool
  prior : Bool
  hasPcr : Bool
  hasOpcr : Bool
  hasSplic : Bool
  hasPrivate : Bool
  adExt : Bool
  pcr : BitVec 64
  opcr : BitVec 64
  spliceCount : BitVec 8
  privLen : BitVec 8
  deriving DecidableEq, Repr

/-- `pes_header_t`. -/
structure PesHeader where
  streamId : BitVec 8
  len : BitVec 16
  scramble : BitVec 2
  priority : Bool
  alignInd : Bool
  cpRight : Bool
  original : Bool
  ptsInd : BitVec 2
  escr : Bool
  es : Bool
  dsmTrick : Bool
  additionalCpInfo : Bool
  crc : Bool
  ext : Bool
  pesHeaderLen : BitVec 8
  pts : BitVec 64
  dts : BitVec 64
  deriving DecidableEq, Repr

/-- `struct mpegts_segment`. `payloadStart` is the offset of `payload_start` from `payload`. -/
structure Segment where
  header : TsHeader
  adaptationField : TsAdaptField
  payload : Vector Byte 184
  pesHeader : Option PesHeader
  payloadStart : ℕ
  deriving DecidableEq, Repr

/-- The previous contents of the memory that `malloc` returns for one packet: the block of its
segment, the bytes that follow `payload[183]` in memory, and the block of its PES header. -/
structure Stale where
  segment : Segment
  beyond : ℕ → Byte
  pesHeader : PesHeader

/-- The bytes of memory from `payload[0]` on. -/
def memory (payload : Vector Byte 184) (beyond : ℕ → Byte) (i : ℕ) : Byte :=
  if h : i < 184 then payload[i] else beyond (i - 184)

theorem memory_of_lt {payload : Vector Byte 184} {beyond : ℕ → Byte} {i : ℕ}
    (h : i < 184) : memory payload beyond i = payload[i] := dif_pos h

/-- `mpegts_segment_init`. The `memset` clears `sizeof(segment)` bytes, the size of a pointer: only
the list link at the start of the block. -/
def mpegtsSegmentInit (segment : Segment) : Segment := { segment with payloadStart := 0 }

/-! ## Errors -/

/-- The error numbers the reader exits with. -/
inductive Errno
  | EINVAL
  | EBADFD
  deriving DecidableEq, Repr

/-- `LOG_ERR(err, ...)`: print the message and end the process with `err`. -/
structure LogErr where
  err : Errno
  message : String
  deriving DecidableEq, Repr

/-! ## Little-endian words -/

/-- The four bytes of a `uint32_t` in memory. -/
def leBytes (v : BitVec 32) : List Byte :=
  [v.setWidth 8, (v >>> 8).setWidth 8, (v >>> 16).setWidth 8, (v >>> 24).setWidth 8]

/-- The `uint32_t` whose first bytes in memory are `bytes` and whose other bytes are zero. -/
def leWord (bytes : List Byte) : BitVec 32 :=
  promote (bytes.getD 0 0) ||| promote (bytes.getD 1 0) <<< 8 |||
    promote (bytes.getD 2 0) <<< 16 ||| promote (bytes.getD 3 0) <<< 24

@[simp] theorem length_leBytes (v : BitVec 32) : (leBytes v).length = 4 := rfl

theorem leBytes_leWord (b0 b1 b2 b3 : Byte) :
    leBytes (leWord [b0, b1, b2, b3]) = [b0, b1, b2, b3] := by
  simp only [leBytes, leWord, List.getD_cons_zero, List.getD_cons_succ, List.cons.injEq, and_true]
  refine ⟨?_, ?_, ?_, ?_⟩ <;> apply BitVec.eq_of_getLsbD_eq <;> intro i hi <;>
    interval_cases i <;> simp

theorem leWord_leBytes (v : BitVec 32) : leWord (leBytes v) = v := by
  simp only [leBytes, leWord, List.getD_cons_zero, List.getD_cons_succ]
  apply BitVec.eq_of_getLsbD_eq
  intro i hi
  interval_cases i <;> simp

theorem leBytes_injective : Function.Injective leBytes :=
  Function.LeftInverse.injective leWord_leBytes

/-! ## Packets on the wire -/

/-- A 188-byte transport packet: the header as the word read from its first four bytes, and the 184
bytes that follow. -/
structure TsPacket where
  word : BitVec 32
  body : Vector Byte 184
  sync : word.setWidth 8 = 0x47#8

namespace TsPacket

/-- The 188 bytes of a packet. -/
def bytes (p : TsPacket) : List Byte := leBytes p.word ++ p.body.toList

@[simp] theorem length_bytes (p : TsPacket) : p.bytes.length = 188 := by
  simp [bytes]

/-- The bytes of memory from `payload[0]` on, once the packet has been read into a segment. -/
def memory (p : TsPacket) (stale : Stale) : ℕ → Byte := MpegtsReader.memory p.body stale.beyond

end TsPacket

end MpegtsReader
