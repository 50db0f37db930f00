import MpegtsReader.Blocks
import MpegtsReader.DlistView
import MpegtsReader.Stream
import MpegtsReader.WriteFile

/-!
# The memory of a stream

What `malloc` returns for a stream and what `free` is called with: the block of the `url`, one for
each segment, and one for each PES header. There is no result when a block is used or freed that is
not live. What the blocks contain is the matter of `Stream.lean`, with one exception: behind the
payload of a segment is its pointer to the PES header, so there is no result either when
`write_pes_header` stores beyond the end of the payload. (The byte that `strcpy` stores behind the
block of the `url` is left out.) The list of the segments is linked in memory, and its entry is in
the `mpegts_stream_t` itself.
-/

namespace MpegtsReader

open Links Dlist

/-- A stream in memory. A segment is known by its block; its `ln` is `some` of that, and `none` is
the entry `segment_list`. `fits` says for which segments the patches stay inside the payload, which
no pass changes. -/
structure StreamMemory where
  blocks : Blocks
  links : Links (Option ℕ)
  pesHeader : ℕ → Option ℕ
  fits : ℕ → Bool
  url : ℕ

namespace StreamMemory

/-- `mpegts_stream_init`. -/
def mpegtsStreamInit (m : StreamMemory) : StreamMemory :=
  { m with
    links := cdslDlistEntryInit m.links (some none)
    url := m.blocks.count
    blocks := m.blocks.alloc }

/-- The use of a node: the entry is in no block. -/
def useNode (m : StreamMemory) : Option (Option ℕ) → Option Unit
  | some (some segment) => m.blocks.use segment
  | _ => some ()

/-! ## Reading -/

/-- `cdsl_dlistEntryInit` for the list of the segments. -/
def entryInit (m : StreamMemory) : StreamMemory :=
  { m with links := cdslDlistEntryInit m.links (some none) }

/-- `malloc` for a segment, and `mpegts_segment_init`: the segment is the block `m.blocks.count`. -/
def newSegment (m : StreamMemory) : StreamMemory :=
  { m with
    links := cdslDlistNodeInit m.links (some (some m.blocks.count))
    blocks := m.blocks.alloc }

/-- `parse_pes_header`: the store to `segment->pes_header`, with a block that is allocated if there
is a header. -/
def parsePesHeader (m : StreamMemory) (segment : ℕ) (found : Bool) : StreamMemory :=
  if found then
    { m with
      pesHeader := Function.update m.pesHeader segment (some m.blocks.count)
      blocks := m.blocks.alloc }
  else { m with pesHeader := Function.update m.pesHeader segment none }

/-- `parse_ts_segment`: what is kept of the packet. -/
def parsed (m : StreamMemory) (current : ℕ) (segment : Segment) : StreamMemory :=
  { m.parsePesHeader current segment.pesHeader.isSome with
    fits := Function.update m.fits current segment.PatchesFit }

/-- `cdsl_dlistPutTail`, which stores to the node in the tail. -/
def putTail (m : StreamMemory) (segment : ℕ) : Option StreamMemory := do
  if (m.links.next none).isSome then m.useNode (m.links.prev none)
  m.blocks.use segment
  let links ← Dlist.cdslDlistPutTail m.links (some none) (some (some segment))
  return { m with links := links }

/-- `mpegts_stream_read_segment`: the loop, from packet `n` of the file on. -/
def readLoop (stale : ℕ → Stale) (n : ℕ) (m : StreamMemory) (current : ℕ) (fd : List Byte) :
    Option (StreamMemory × Option LogErr) := do
  m.blocks.use current
  match _h : parseTsSegment (stale n) fd with
  | .parsed segment rest =>
    let m ← (m.parsed current segment).putTail current
    readLoop stale (n + 1) m.newSegment m.blocks.count rest
  | .eof => return (m, none)
  | .failed err => return (m, some err)
termination_by fd.length
decreasing_by
  obtain ⟨hlen, rfl⟩ := parseTsSegment_parsed _h
  rw [List.length_drop]
  omega

/-- The use of a segment, and of its PES header if it has one and `pes`. -/
def useSegment (m : StreamMemory) (pes : Bool) (segment : ℕ) : Option Unit := do
  m.blocks.use segment
  match m.pesHeader segment with
  | some header => if pes then m.blocks.use header else return ()
  | none => return ()

/-- `write_ts_segment`: the use of a segment, and the stores to its payload. -/
def writeSegment (m : StreamMemory) (segment : ℕ) : Option Unit := do
  m.useSegment true segment
  if m.fits segment then return () else none

/-- The segments in the list, one after the other. -/
def eachSegment (m : StreamMemory) (f : ℕ → Option Unit) : Option Unit := do
  let nodes ← (LinkIter.cdslIterInit (some none)).nodes m.links (m.blocks.count + 1)
  nodes.forM fun node => node.elim none f

/-- The use of the segments in the list. -/
def useSegments (m : StreamMemory) (pes : Bool) : Option Unit := m.eachSegment (m.useSegment pes)

/-- `mpegts_stream_read_segment` for this file, or where there is none. `cdsl_dlistSize` goes
through the list at the end. -/
def mpegtsStreamReadSegment (m : StreamMemory) (stale : ℕ → Stale) (file : Option (List Byte)) :
    Option (Except LogErr StreamMemory) := do
  m.blocks.use m.url
  match file with
  | none => return .error ⟨.EBADFD, "fail to open"⟩
  | some fd =>
    match ← readLoop stale 0 m.entryInit.newSegment m.blocks.count fd with
    | (_, some err) => return .error err
    | (m, none) => do
      m.useSegments false
      return .ok m

/-- `mpegts_stream_write`, to the path that is given or else to the `url`, if that is opened. -/
def mpegtsStreamWrite (m : StreamMemory) (given opened : Bool) : Option Unit := do
  if !given then m.blocks.use m.url
  if opened then m.eachSegment m.writeSegment

/-! ## Freeing -/

/-- `mpegts_stream_free`: the block that is freed. -/
def freeBlock (m : StreamMemory) (b : ℕ) : Option StreamMemory := do
  let blocks ← m.blocks.free b
  return { m with blocks := blocks }

/-- `mpegts_stream_free`: a segment that is out of the list, and its PES header before it. -/
def freeSegment (m : StreamMemory) (segment : ℕ) : Option StreamMemory := do
  m.blocks.use segment
  let m ← match m.pesHeader segment with
    | some header => m.freeBlock header
    | none => some m
  m.freeBlock segment

/-- `mpegts_stream_free`: the loop. `cdsl_dlistDequeue` reads the node at the head and stores to the
one behind it. -/
def freeLoop : ℕ → StreamMemory → Option StreamMemory
  | 0, _ => none
  | fuel + 1, m => do
    match m.links.next none with
    | none => return m
    | some head =>
      m.useNode (some head)
      m.useNode (m.links.next head)
      let (links, node) ← cdslDlistDequeue m.links (some none)
      let m ← { m with links := links }.freeSegment (← node.join)
      freeLoop fuel m

/-- `mpegts_stream_free`. -/
def mpegtsStreamFree (m : StreamMemory) : Option StreamMemory := do
  let m ← m.freeLoop (m.blocks.count + 1)
  m.freeBlock m.url

end StreamMemory

/-! ## Runs -/

/-- A call for the stream. A pass or a printer uses the segments in the list, and the PES headers or
not. -/
inductive StreamCall
  | init
  | read (stale : ℕ → Stale) (file : Option (List Byte))
  | pass (pes : Bool)
  | write (given opened : Bool)
  | free

open StreamMemory in
/-- What a call makes of the memory, unless `LOG_ERR` ends the process. -/
def streamStep (m : StreamMemory) : StreamCall → Option (Except LogErr StreamMemory)
  | .init => some (.ok m.mpegtsStreamInit)
  | .read stale file => m.mpegtsStreamReadSegment stale file
  | .pass pes => (m.useSegments pes).map fun _ => .ok m
  | .write given opened => (m.mpegtsStreamWrite given opened).map fun _ => .ok m
  | .free => m.mpegtsStreamFree.map .ok

end MpegtsReader
