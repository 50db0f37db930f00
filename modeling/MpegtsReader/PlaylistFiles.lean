import MpegtsReader.Continuity
import MpegtsReader.LastWrite
import MpegtsReader.PacketFiles
import MpegtsReader.PlaylistText

/-!
# A playlist and its files

The whole way of a playlist: `hls_parse` reads it and the files it names, some passes run over it,
and `hls_update` writes every stream back to where it came from. `hlsRewrite_files` says what is in
the file system afterwards, and `hlsRewrite_numbered` that the continuity counters are still right
when the playlist is read again.
-/

namespace MpegtsReader

open LastWrite

/-- `hls_playlist_init`. -/
def hlsPlaylistInit (url : Path) : Playlist := ⟨url, []⟩

/-- `hls_update`: the body of the loop. There are no more files after a write that has left a
payload. -/
def updateStream (fs : Option FileSystem) (stream : Stream) : Option FileSystem × Stream :=
  match fs.bind (mpegtsStreamWrite · stream none) with
  | none => (none, stream)
  | some r => (some r.1, r.2)

/-- `hls_update`. -/
def hlsUpdate (fs : FileSystem) (playlist : Playlist) : Option FileSystem × Playlist :=
  let r := iterLoop updateStream playlist.sublist cdslIterInit (some fs)
  (r.1, { playlist with sublist := r.2.1 })

/-- The playlist is read, passed over and written back. -/
def hlsRewrite (fs : FileSystem) (stale : ℕ → ℕ → Stale) (url : Path) (passes : List PlaylistPass) :
    Except LogErr (Option FileSystem) :=
  (hlsParse fs stale (hlsPlaylistInit url)).map fun playlist =>
    (hlsUpdate fs (runPlaylistPasses playlist passes)).1

/-! ## Reading -/

/-- The streams that `hls_parse` opens, from the allocation `n` on. -/
def openedStreams (stale : ℕ → ℕ → Stale) (files : Path → List TsPacket) (n : ℕ) :
    List Path → List Stream
  | [] => []
  | path :: paths =>
    ⟨path, segmentsFrom (stale n) 0 (files path)⟩ :: openedStreams stale files (n + 1) paths

section Read

variable {fs : FileSystem} {stale : ℕ → ℕ → Stale} {files : Path → List TsPacket}

theorem foldlM_loadMedia {buffers : List (List Byte)}
    (hfiles : ∀ path ∈ buffers.map mediaPath, fs path = some (fileOf (files path)))
    (playlist : Playlist) : buffers.foldlM (loadMedia fs stale) playlist =
      .ok ⟨playlist.url, playlist.sublist ++
        openedStreams stale files playlist.sublist.length (buffers.map mediaPath)⟩ := by
  induction buffers generalizing playlist with
  | nil => rw [List.map_nil, openedStreams, List.append_nil]; rfl
  | cons cb buffers ih =>
    have hload : loadMedia fs stale playlist cb = .ok ⟨playlist.url, playlist.sublist ++
        [⟨mediaPath cb,
          segmentsFrom (stale playlist.sublist.length) 0 (files (mediaPath cb))⟩]⟩ := by
      unfold loadMedia
      rw [mpegtsStreamReadSegment_fileOf _ (hfiles _ List.mem_cons_self)]
      rfl
    rw [List.foldlM_cons, hload]
    refine (ih (fun path hpath => hfiles path (List.mem_cons_of_mem _ hpath)) _).trans ?_
    simp only [List.map_cons, openedStreams, List.length_append, List.length_singleton,
      List.append_assoc, List.singleton_append]

/-- A playlist of packet files is read whole. -/
theorem hlsParse_packetFiles {url text : List Byte} (hurl : fs url = some text)
    (hfiles : ∀ path ∈ openedPaths text, fs path = some (fileOf (files path))) :
    hlsParse fs stale (hlsPlaylistInit url) =
      .ok ⟨url, openedStreams stale files 0 (openedPaths text)⟩ := by
  have h : fs (hlsPlaylistInit url).url = some text := hurl
  rw [hlsParse_eq h]
  exact foldlM_loadMedia hfiles (hlsPlaylistInit url)

end Read

/-! ## Passes -/

/-- The stream keeps its path, and the passes rework its segments one by one. -/
structure ReworkedStream (passes : List PlaylistPass) (stream stream' : Stream) : Prop where
  url : stream'.url = stream.url
  segmentList : List.Forall₂ (Reworked passes) stream.segmentList stream'.segmentList

section Passes

variable {stream stream' : Stream} {streams streams' : List Stream} {passes : List PlaylistPass}

theorem ReworkedStream.skip (h : ReworkedStream passes stream stream') {pass : PlaylistPass}
    (hpass : pass.pass = none) : ReworkedStream (passes ++ [pass]) stream stream' :=
  ⟨h.url, h.segmentList.imp fun _ _ hs => hs.skip hpass⟩

theorem ReworkedStream.step (h : ReworkedStream passes stream stream') {pass : PlaylistPass}
    {p : Pass} (hpass : pass.pass = some p) (cc : Byte) :
    ReworkedStream (passes ++ [pass]) stream (streamBody p cc stream').2 :=
  ⟨h.url, forall₂_mapAccum (fun c _ _ hs => hs.step hpass c) h.segmentList cc⟩

/-- One pass over the playlist. -/
theorem reworked_run {playlist : Playlist} (pass : PlaylistPass)
    (h : List.Forall₂ (ReworkedStream passes) streams playlist.sublist) :
    List.Forall₂ (ReworkedStream (passes ++ [pass])) streams (pass.run playlist).sublist := by
  rw [playlistPass_run_eq]
  cases hpass : pass.pass with
  | none => exact h.imp fun _ _ hs => hs.skip hpass
  | some p => exact forall₂_mapAccum (fun cc _ _ hs => hs.step hpass cc) h 0

/-- Any sequence of passes reworks the playlist stream by stream. -/
theorem reworked_runPlaylistPasses (playlist : Playlist) (passes : List PlaylistPass) :
    List.Forall₂ (ReworkedStream passes) playlist.sublist
      (runPlaylistPasses playlist passes).sublist := by
  suffices h : ∀ (done : List PlaylistPass) (q : Playlist),
      List.Forall₂ (ReworkedStream done) playlist.sublist q.sublist →
      List.Forall₂ (ReworkedStream (done ++ passes)) playlist.sublist
        (passes.foldl PlaylistPass.run q).sublist from
    h [] playlist (List.forall₂_same.mpr fun stream _ =>
      ⟨rfl, List.forall₂_same.mpr fun s _ => .refl s⟩)
  induction passes with
  | nil =>
    intro done q h
    rwa [List.append_nil]
  | cons pass passes ih =>
    intro done q h
    rw [List.append_cons]
    exact ih _ _ (reworked_run pass h)

/-- Once `hls_fix_discontinuity` is among the passes, the packets are numbered behind them. -/
theorem renumber_runPlaylistPasses (h : passes.any (·.numbers)) (playlist : Playlist) :
    renumber 0x100 0 (allSegments (runPlaylistPasses playlist passes).sublist) =
      allSegments (runPlaylistPasses playlist passes).sublist := by
  obtain ⟨pass, hpass, hnumbers⟩ := List.any_eq_true.mp h
  cases pass with
  | fixKeyFrameInfo pid => cases hnumbers
  | updatePcrByPts pid => cases hnumbers
  | fixDiscontinuity pids =>
    have habsorb : hlsFixDiscontinuity (runPlaylistPasses playlist passes) pids =
        runPlaylistPasses playlist passes := (settled_playlistPasses passes).absorb hpass playlist
    have hsegments := segments_hlsFixDiscontinuity (runPlaylistPasses playlist passes) pids
    rw [habsorb, if_neg (of_decide_eq_true hnumbers)] at hsegments
    exact hsegments.symm

/-- The packet at place `j` of stream `i` is numbered behind all packets before it. -/
theorem counter_of_renumber (h : renumber 0x100 0 (allSegments streams) = allSegments streams)
    {i j : ℕ} {s : Segment} (hi : streams[i]? = some stream) (hj : stream.segmentList[j]? = some s)
    (hs : HasPid 0x100 s) : s.header.continuityCounter = BitVec.ofNat 4
      (countPid 0x100 (allSegments (streams.take i) ++ stream.segmentList.take j)) := by
  obtain ⟨hlt, hstream⟩ := List.getElem?_eq_some_iff.mp hi
  obtain ⟨hlt', -⟩ := List.getElem?_eq_some_iff.mp hj
  have hsplit : allSegments streams = allSegments (streams.take i) ++
      (stream.segmentList ++ allSegments (streams.drop (i + 1))) := by
    conv_lhs => rw [← List.take_append_drop i streams, List.drop_eq_getElem_cons hlt, hstream]
    unfold allSegments
    rw [List.flatMap_append, List.flatMap_cons]
  have hat : (allSegments streams)[(allSegments (streams.take i)).length + j]? = some s := by
    rw [hsplit, List.getElem?_append_right (Nat.le_add_right _ _), Nat.add_sub_cancel_left,
      List.getElem?_append_left hlt', hj]
  have htake : (allSegments streams).take ((allSegments (streams.take i)).length + j) =
      allSegments (streams.take i) ++ stream.segmentList.take j := by
    rw [hsplit, List.take_length_add_append, List.take_append_of_le_length hlt'.le]
  have hnumbered := getElem?_renumber 0x100 0 (allSegments streams)
    ((allSegments (streams.take i)).length + j)
  rw [h, hat, htake, Option.map_some, if_pos hs, Option.some.injEq, Nat.zero_add] at hnumbered
  exact congrArg (fun t => t.header.continuityCounter) hnumbered

end Passes

/-! ## Writing -/

/-- The packets that are written for the segments of each stream. -/
def WritesStreams : List Stream → List (List TsPacket) → Prop :=
  List.Forall₂ fun stream packets => List.Forall₂ Writes stream.segmentList packets

/-- The files that `hls_update` writes, one after the other. -/
def streamWrites (streams : List Stream) (packets : List (List TsPacket)) :
    List (Path × Option (List Byte)) :=
  List.zipWith (fun stream packets => (stream.url, some (fileOf packets))) streams packets

/-- The file of the stream is there, and as long as what is written. -/
def FileFits (fs : FileSystem) (stream : Stream) : Prop :=
  ∃ content, fs stream.url = some content ∧ content.length = 188 * stream.segmentList.length

section Write

variable {fs : FileSystem} {stream : Stream} {streams : List Stream} {ps : List TsPacket}
  {packets : List (List TsPacket)}

/-- One file is written over from its start to its end. -/
theorem updateStream_fst (hfits : FileFits fs stream)
    (hwrites : List.Forall₂ Writes stream.segmentList ps) :
    (updateStream (some fs) stream).1 =
      some (Function.update fs stream.url (some (fileOf ps))) := by
  obtain ⟨content, hcontent, hlen⟩ := hfits
  have hemit := emitAll_of_writes hwrites
  have hwrite := map_fst_mpegtsStreamWrite (none : Option Path) hcontent
  rw [hemit, Option.map_some, List.drop_eq_nil_of_le (by rw [hlen, length_of_emitAll hemit]),
    List.append_nil] at hwrite
  unfold updateStream
  simp only [Option.bind_some]
  obtain ⟨r, hr, hfst⟩ := Option.map_eq_some_iff.mp hwrite
  rw [hr]
  exact congrArg some hfst

theorem FileFits.update {stream' : Stream} (hfits' : FileFits fs stream')
    (hfits : FileFits fs stream) (hwrites : List.Forall₂ Writes stream.segmentList ps) :
    FileFits (Function.update fs stream.url (some (fileOf ps))) stream' := by
  by_cases hurl : stream'.url = stream.url
  · obtain ⟨content, hcontent, hlen⟩ := hfits
    obtain ⟨content', hcontent', hlen'⟩ := hfits'
    rw [hurl, hcontent, Option.some.injEq] at hcontent'
    refine ⟨fileOf ps, by rw [hurl, Function.update_self], ?_⟩
    rw [length_of_emitAll (emitAll_of_writes hwrites), ← hlen, hcontent', hlen']
  · obtain ⟨content', hcontent', hlen'⟩ := hfits'
    exact ⟨content', by rw [Function.update_of_ne hurl, hcontent'], hlen'⟩

/-- The streams are written in order, each to its own file. -/
theorem mapAccum_updateStream (hwrites : WritesStreams streams packets)
    (hfits : ∀ stream ∈ streams, FileFits fs stream) :
    (mapAccum updateStream (some fs) streams).1 =
      some (writeAll fs (streamWrites streams packets)) := by
  induction hwrites generalizing fs with
  | nil => rfl
  | cons hstream _ ih =>
    have hfit := hfits _ List.mem_cons_self
    rw [mapAccum_cons, updateStream_fst hfit hstream]
    exact ih fun stream hmem => (hfits stream (List.mem_cons_of_mem _ hmem)).update hfit hstream

theorem hlsUpdate_fst {playlist : Playlist} (hwrites : WritesStreams playlist.sublist packets)
    (hfits : ∀ stream ∈ playlist.sublist, FileFits fs stream) :
    (hlsUpdate fs playlist).1 = some (writeAll fs (streamWrites playlist.sublist packets)) := by
  unfold hlsUpdate
  simp only [iterLoop_init_fst]
  exact mapAccum_updateStream hwrites hfits

end Write

/-! ## The files afterwards -/

/-- The files at the paths hold packets, and what is read from them can be written. -/
structure OpensPackets (fs : FileSystem) (stale : ℕ → ℕ → Stale) (files : Path → List TsPacket)
    (paths : List Path) : Prop where
  held : ∀ path ∈ paths, fs path = some (fileOf (files path))
  fit : ∀ stream ∈ openedStreams stale files 0 paths, ∀ s ∈ stream.segmentList, s.PatchesFit

/-- Each packet of a file was reworked and written back in its place, behind the packets `earlier`
of the files before. -/
structure RewrittenFile (stale : ℕ → Stale) (passes : List PlaylistPass)
    (earlier before after : List TsPacket) : Prop where
  length : after.length = before.length
  packet : ∀ j (hj : j < before.length) (hj' : j < after.length),
    Rewritten (stale j) passes ((earlier ++ before.take j).countP (·.header.pid = 0x100))
      before[j] after[j]

/-- The segment is one of PID `0x100` if the packet is. -/
def SamePid (p : TsPacket) (s : Segment) : Prop := HasPid 0x100 s ↔ p.header.pid = 0x100

section Files

variable {fs : FileSystem} {stale : ℕ → ℕ → Stale} {files : Path → List TsPacket}
  {paths : List Path} {passes : List PlaylistPass}

theorem getElem?_openedStreams (n : ℕ) (paths : List Path) (i : ℕ) :
    (openedStreams stale files n paths)[i]? =
      paths[i]?.map fun path => ⟨path, segmentsFrom (stale (n + i)) 0 (files path)⟩ := by
  induction paths generalizing n i with
  | nil => rfl
  | cons path paths ih =>
    cases i with
    | zero => rfl
    | succ i =>
      rw [openedStreams, List.getElem?_cons_succ, List.getElem?_cons_succ, ih, Nat.add_assoc,
        Nat.add_comm 1]

theorem map_url_openedStreams (n : ℕ) (paths : List Path) :
    (openedStreams stale files n paths).map (·.url) = paths := by
  induction paths generalizing n with
  | nil => rfl
  | cons path paths ih => rw [openedStreams, List.map_cons, ih]

theorem countPid_of_samePid {packets : List TsPacket} {segments : List Segment}
    (h : List.Forall₂ SamePid packets segments) :
    countPid 0x100 segments = packets.countP (·.header.pid = 0x100) := by
  induction h with
  | nil => rfl
  | @cons p s _ _ hs _ ih =>
    by_cases hp : p.header.pid = 0x100
    · rw [countPid_of_hasPid (hs.mpr hp), List.countP_cons_of_pos (by simpa using hp), ih]
    · rw [countPid_of_not (hs.not.mpr hp), List.countP_cons_of_neg (by simpa using hp), ih]

theorem samePid_of_reworked {stale : ℕ → Stale} {n : ℕ} {packets : List TsPacket}
    {segments : List Segment}
    (h : List.Forall₂ (Reworked passes) (segmentsFrom stale n packets) segments) :
    List.Forall₂ SamePid packets segments := by
  induction packets generalizing n segments with
  | nil =>
    cases h
    exact .nil
  | cons p packets ih =>
    cases h with
    | cons hs hrest =>
      obtain ⟨cc, -, rfl⟩ := hs
      exact .cons (hasPid_segment_iff p (stale n)) (ih hrest)

/-- The streams show the PIDs of the files that they were opened from. -/
theorem samePid_of_opened {n : ℕ} {after : List Stream}
    (h : List.Forall₂ (ReworkedStream passes) (openedStreams stale files n paths) after) :
    List.Forall₂ (fun path stream => List.Forall₂ SamePid (files path) stream.segmentList)
      paths after := by
  induction paths generalizing n after with
  | nil =>
    cases h
    exact .nil
  | cons path paths ih =>
    cases h with
    | cons hstream hrest => exact .cons (samePid_of_reworked hstream.segmentList) (ih hrest)

theorem samePid_earlier {after : List Stream}
    (h : List.Forall₂ (ReworkedStream passes) (openedStreams stale files 0 paths) after) (i : ℕ) :
    List.Forall₂ SamePid ((paths.take i).flatMap files) (allSegments (after.take i)) :=
  List.rel_flatMap (List.forall₂_take i (samePid_of_opened h)) fun _ _ hstream => hstream

/-- A stream whose packets are numbered behind those of other files is written as a file that is
reworked packet by packet. -/
theorem rewrittenFile_of_writes {stale : ℕ → Stale} {earlier before after : List TsPacket}
    {segments segments' : List Segment} (hearlier : List.Forall₂ SamePid earlier segments')
    (hedit : List.Forall₂ (Reworked passes) (segmentsFrom stale 0 before) segments)
    (hwrites : List.Forall₂ Writes segments after)
    (hnumbered : passes.any (·.numbers) → ∀ j s, segments[j]? = some s → HasPid 0x100 s →
      s.header.continuityCounter =
        BitVec.ofNat 4 (countPid 0x100 (segments' ++ segments.take j))) :
    RewrittenFile stale passes earlier before after where
  length := by
    rw [← hwrites.length_eq, ← hedit.length_eq, length_segmentsFrom]
  packet j hj hj' := by
    have hread := getElem?_segmentsFrom stale 0 before hj
    rw [Nat.zero_add] at hread
    obtain ⟨hlt, hread⟩ := List.getElem?_eq_some_iff.mp hread
    have hlt' : j < segments.length := hedit.length_eq ▸ hlt
    have hreworked := hedit.get hlt hlt'
    simp only [List.get_eq_getElem, hread] at hreworked
    have hcount : countPid 0x100 (segments' ++ segments.take j) =
        (earlier ++ before.take j).countP (·.header.pid = 0x100) :=
      countPid_of_samePid (List.rel_append hearlier
        (List.forall₂_take j (samePid_of_reworked hedit)))
    refine Writes.rewritten (hwrites.get hlt' hj') hreworked fun hnumbers hpid => ?_
    rw [← hcount]
    exact hnumbered hnumbers j _ (List.getElem?_eq_getElem hlt') hpid

theorem exists_getElem?_left {α β : Type} {R : α → β → Prop} {as : List α} {bs : List β}
    (h : List.Forall₂ R as bs) {i : ℕ} {b : β} (hb : bs[i]? = some b) :
    ∃ a, as[i]? = some a ∧ R a b := by
  induction h generalizing i with
  | nil => cases hb
  | cons hab _ ih =>
    cases i with
    | zero =>
      cases hb
      exact ⟨_, rfl, hab⟩
    | succ i => exact ih hb

/-- What can be written can still be written after the passes. -/
theorem exists_writesStreams {before after : List Stream}
    (hedit : List.Forall₂ (ReworkedStream passes) before after)
    (hfit : ∀ stream ∈ before, ∀ s ∈ stream.segmentList, s.PatchesFit) :
    ∃ packets, WritesStreams after packets := by
  induction hedit with
  | nil => exact ⟨[], .nil⟩
  | @cons stream stream' _ _ hstream _ ih =>
    have hfit' : ∀ s' ∈ stream'.segmentList, s'.PatchesFit := by
      intro s' hs'
      obtain ⟨j, hj⟩ := List.mem_iff_getElem?.mp hs'
      obtain ⟨s, hs, hrel⟩ := exists_getElem?_left hstream.segmentList hj
      exact hrel.patchesFit (hfit stream List.mem_cons_self s (List.mem_of_getElem? hs))
    obtain ⟨ps, hps⟩ := exists_forall₂_writes hfit'
    obtain ⟨packets, hpackets⟩ := ih fun t ht => hfit t (List.mem_cons_of_mem _ ht)
    exact ⟨ps :: packets, .cons hps hpackets⟩

/-- The path that an edited stream was opened with. -/
theorem exists_opened {after : List Stream}
    (hedit : List.Forall₂ (ReworkedStream passes) (openedStreams stale files 0 paths) after) {i : ℕ}
    {stream : Stream} (hi : after[i]? = some stream) : ∃ path, paths[i]? = some path ∧
      ReworkedStream passes ⟨path, segmentsFrom (stale i) 0 (files path)⟩ stream := by
  obtain ⟨before, hbefore, hrel⟩ := exists_getElem?_left hedit hi
  rw [getElem?_openedStreams, Nat.zero_add] at hbefore
  obtain ⟨path, hpath, rfl⟩ := Option.map_eq_some_iff.mp hbefore
  exact ⟨path, hpath, hrel⟩

/-- A stream that was read from a file of packets fits into it after the passes. -/
theorem OpensPackets.fileFits (h : OpensPackets fs stale files paths) {after : List Stream}
    (hedit : List.Forall₂ (ReworkedStream passes) (openedStreams stale files 0 paths) after) :
    ∀ stream ∈ after, FileFits fs stream := by
  intro stream' hstream'
  obtain ⟨i, hi⟩ := List.mem_iff_getElem?.mp hstream'
  obtain ⟨path, hpath, hrel⟩ := exists_opened hedit hi
  refine ⟨fileOf (files path), ?_, ?_⟩
  · rw [hrel.url]
    exact h.held path (List.mem_of_getElem? hpath)
  · rw [← hrel.segmentList.length_eq, length_segmentsFrom, length_fileOf]

/-- The files that the rewritten playlist leaves. -/
theorem OpensPackets.hlsRewrite_eq {url text : List Byte} (hurl : fs url = some text)
    (h : OpensPackets fs stale files (openedPaths text)) (passes : List PlaylistPass) :
    ∃ after packets, after = (runPlaylistPasses
        ⟨url, openedStreams stale files 0 (openedPaths text)⟩ passes).sublist ∧
      List.Forall₂ (ReworkedStream passes) (openedStreams stale files 0 (openedPaths text)) after ∧
      WritesStreams after packets ∧
      hlsRewrite fs stale url passes = .ok (some (writeAll fs (streamWrites after packets))) := by
  have hedit := reworked_runPlaylistPasses
    ⟨url, openedStreams stale files 0 (openedPaths text)⟩ passes
  obtain ⟨packets, hpackets⟩ := exists_writesStreams hedit h.fit
  refine ⟨_, packets, rfl, hedit, hpackets, ?_⟩
  unfold hlsRewrite
  rw [hlsParse_packetFiles hurl h.held]
  exact congrArg Except.ok (hlsUpdate_fst hpackets (h.fileFits hedit))

theorem map_fst_streamWrites {streams : List Stream} {packets : List (List TsPacket)}
    (h : WritesStreams streams packets) :
    (streamWrites streams packets).map Prod.fst = streams.map (·.url) := by
  induction h with
  | nil => rfl
  | cons _ _ ih => exact congrArg (List.cons _) ih

theorem map_url_of_reworked {before after : List Stream}
    (h : List.Forall₂ (ReworkedStream passes) before after) :
    after.map (·.url) = before.map (·.url) := by
  induction h with
  | nil => rfl
  | cons hstream _ ih => rw [List.map_cons, List.map_cons, hstream.url, ih]

/-- What a path holds behind the writes is what its last stream has become. -/
theorem exists_written (fs : FileSystem) {after : List Stream} {packets : List (List TsPacket)}
    (hedit : List.Forall₂ (ReworkedStream passes) (openedStreams stale files 0 paths) after)
    (hwrites : WritesStreams after packets) {path : Path} (hpath : path ∈ paths) :
    ∃ i stream ps, paths[i]? = some path ∧ (∀ j > i, paths[j]? ≠ some path) ∧
      after[i]? = some stream ∧ packets[i]? = some ps ∧
      ReworkedStream passes ⟨path, segmentsFrom (stale i) 0 (files path)⟩ stream ∧
      writeAll fs (streamWrites after packets) path = some (fileOf ps) := by
  have hpaths : (streamWrites after packets).map Prod.fst = paths := by
    rw [map_fst_streamWrites hwrites, map_url_of_reworked hedit, map_url_openedStreams]
  obtain ⟨i, hi, hlast⟩ := exists_last_write fs (hpaths.symm ▸ hpath)
  rw [hpaths] at hlast
  obtain ⟨stream, ps, hstream, hps, hw⟩ := List.getElem?_zipWith_eq_some.mp hi
  obtain ⟨hurl, hvalue⟩ := Prod.mk.inj hw
  obtain ⟨path', hpath', hrel⟩ := exists_opened hedit hstream
  obtain rfl : path' = path := hrel.url.symm.trans hurl
  exact ⟨i, stream, ps, hpath', hlast, hstream, hps, hrel, hvalue.symm⟩

/-- No other path is written. -/
theorem writeAll_streamWrites_of_notMem (fs : FileSystem) {after : List Stream}
    {packets : List (List TsPacket)}
    (hedit : List.Forall₂ (ReworkedStream passes) (openedStreams stale files 0 paths) after)
    (hwrites : WritesStreams after packets) {path : Path} (hpath : path ∉ paths) :
    writeAll fs (streamWrites after packets) path = fs path := by
  refine writeAll_of_notMem fs ?_
  rwa [map_fst_streamWrites hwrites, map_url_of_reworked hedit, map_url_openedStreams]

/-- **The files of a playlist.** Where a playlist opens files of packets that can be written,
reading it, passing over it and writing it back touches no other file, and leaves each of these a
file of as many packets, every byte of which is known from the packets that were there and from the
passes. When a path is opened twice, what its last stream has become is what stays. -/
theorem hlsRewrite_files {url text : List Byte} (hurl : fs url = some text)
    (h : OpensPackets fs stale files (openedPaths text)) (passes : List PlaylistPass) :
    ∃ fs', hlsRewrite fs stale url passes = .ok (some fs') ∧
      (∀ path, path ∉ openedPaths text → fs' path = fs path) ∧
      ∀ path ∈ openedPaths text, ∃ (i : ℕ) (packets : List TsPacket),
        (openedPaths text)[i]? = some path ∧ (∀ j > i, (openedPaths text)[j]? ≠ some path) ∧
        fs' path = some (fileOf packets) ∧
        RewrittenFile (stale i) passes (((openedPaths text).take i).flatMap files) (files path)
          packets := by
  obtain ⟨after, packets, hafter, hedit, hwrites, heq⟩ := h.hlsRewrite_eq hurl passes
  refine ⟨_, heq, fun path => writeAll_streamWrites_of_notMem fs hedit hwrites,
    fun path hpath => ?_⟩
  obtain ⟨i, stream, ps, hpath', hlast, hstream, hps, hrel, hheld⟩ :=
    exists_written fs hedit hwrites hpath
  obtain ⟨stream', hstream', hpackets⟩ := exists_getElem?_left hwrites hps
  obtain rfl : stream = stream' := Option.some.inj (hstream.symm.trans hstream')
  refine ⟨i, ps, hpath', hlast, hheld, rewrittenFile_of_writes (samePid_earlier hedit i)
    hrel.segmentList hpackets fun hnumbers j s hj hpid => ?_⟩
  subst hafter
  exact counter_of_renumber (renumber_runPlaylistPasses hnumbers _) hstream hj hpid

/-! ## Reading the playlist again -/

/-- The numbers of the packets are in their headers. -/
theorem numberedFrom_congr {pid : ℤ} {n : ℕ} {segments segments' : List Segment}
    (h : segments.map (·.header) = segments'.map (·.header)) :
    NumberedFrom pid n segments ↔ NumberedFrom pid n segments' := by
  induction segments generalizing n segments' with
  | nil => rw [List.map_eq_nil_iff.mp h.symm]
  | cons s rest ih =>
    cases segments' with
    | nil => cases h
    | cons s' rest' =>
      obtain ⟨hheader, hrest⟩ : s.header = s'.header ∧
        rest.map (·.header) = rest'.map (·.header) := List.cons.inj h
      have hpid : HasPid pid s ↔ HasPid pid s' := by
        unfold HasPid
        rw [hheader]
      by_cases hs : HasPid pid s
      · rw [numberedFrom_of_hasPid hs, numberedFrom_of_hasPid (hpid.mp hs), hheader, ih hrest]
      · rw [numberedFrom_of_not hs, numberedFrom_of_not (hpid.not.mp hs), ih hrest]

theorem map_header_segmentsFrom (stale : ℕ → Stale) (n : ℕ) (packets : List TsPacket) :
    (segmentsFrom stale n packets).map (·.header) = packets.map TsPacket.header := by
  induction packets generalizing n with
  | nil => rfl
  | cons p packets ih =>
    rw [segmentsFrom, List.map_cons, ih, List.map_cons, TsPacket.segment_header]

/-- The headers are written as they are in memory. -/
theorem map_header_of_writes {stale : ℕ → Stale} {n : ℕ} {before after : List TsPacket}
    {segments : List Segment}
    (hedit : List.Forall₂ (Reworked passes) (segmentsFrom stale n before) segments)
    (hwrites : List.Forall₂ Writes segments after) :
    after.map TsPacket.header = segments.map (·.header) := by
  induction hwrites generalizing n before with
  | nil => rfl
  | cons hp _ ih =>
    cases before with
    | nil => cases hedit
    | cons p before =>
      cases hedit with
      | cons hs hrest => rw [List.map_cons, List.map_cons, ih hrest, hp.header_of_reworked hs]

/-- What is read from the files that were written has the headers that were in memory. -/
theorem map_header_reread {after : List Stream} {packets : List (List TsPacket)}
    {files' : Path → List TsPacket} (stale' : ℕ → ℕ → Stale) {n : ℕ}
    (hedit : List.Forall₂ (ReworkedStream passes) (openedStreams stale files n paths) after)
    (hwrites : WritesStreams after packets)
    (hfiles' : ∀ (i : ℕ) path ps, paths[i]? = some path → packets[i]? = some ps →
      files' path = ps) :
    (allSegments (openedStreams stale' files' n paths)).map (·.header) =
      (allSegments after).map (·.header) := by
  have hcons : ∀ (stream : Stream) (rest : List Stream), (allSegments (stream :: rest)).map
      (·.header) = stream.segmentList.map (·.header) ++ (allSegments rest).map (·.header) := by
    intro stream rest
    rw [allSegments, List.flatMap_cons, List.map_append]
    rfl
  induction hwrites generalizing n paths with
  | nil =>
    cases paths with
    | nil => rfl
    | cons path paths => cases hedit
  | cons hps _ ih =>
    cases paths with
    | nil => cases hedit
    | cons path paths =>
      cases hedit with
      | cons hstream hrest =>
        have hpath := hfiles' 0 path _ rfl rfl
        rw [openedStreams, hcons, hcons, ih hrest fun i => hfiles' (i + 1),
          map_header_segmentsFrom, hpath, map_header_of_writes hstream.segmentList hps]

/-- After `hls_fix_discontinuity` and other passes, before or behind it, the counters are right. -/
theorem numberedFrom_runPlaylistPasses (h : passes.any (·.numbers)) (playlist : Playlist) :
    NumberedFrom 0x100 0 (allSegments (runPlaylistPasses playlist passes).sublist) := by
  rw [← renumber_runPlaylistPasses h]
  exact numberedFrom_renumber 0x100 0 _

/-- **The counters on disk.** Where the paths of a playlist are different ones, and its own is not
among them, the passes over it leave files that give the counters of `hls_fix_discontinuity` again
when the playlist is read another time: the packets of PID `0x100` are numbered across the files. -/
theorem hlsRewrite_numbered {url text : List Byte} (hurl : fs url = some text)
    (h : OpensPackets fs stale files (openedPaths text)) (hnodup : (openedPaths text).Nodup)
    (hown : url ∉ openedPaths text) {pids : List ℤ} (hpids : pids ≠ [])
    (hpass : .fixDiscontinuity pids ∈ passes) (stale' : ℕ → ℕ → Stale) :
    ∃ fs' playlist', hlsRewrite fs stale url passes = .ok (some fs') ∧
      hlsParse fs' stale' (hlsPlaylistInit url) = .ok playlist' ∧
      playlist'.sublist.map (·.url) = openedPaths text ∧
      NumberedFrom 0x100 0 (allSegments playlist'.sublist) := by
  obtain ⟨after, packets, hafter, hedit, hwrites, heq⟩ := h.hlsRewrite_eq hurl passes
  let files' : Path → List TsPacket := fun path => packets.getD ((openedPaths text).idxOf path) []
  have hfiles' : ∀ (i : ℕ) path ps, (openedPaths text)[i]? = some path → packets[i]? = some ps →
      files' path = ps := by
    intro i path ps hpath hps
    obtain ⟨hi, rfl⟩ := List.getElem?_eq_some_iff.mp hpath
    show packets.getD ((openedPaths text).idxOf _) [] = ps
    rw [hnodup.idxOf_getElem, List.getD_eq_getElem?_getD, hps, Option.getD_some]
  have hheld : ∀ path ∈ openedPaths text,
      writeAll fs (streamWrites after packets) path = some (fileOf (files' path)) := by
    intro path hpath
    obtain ⟨i, stream, ps, hpath', -, -, hps, -, hheld⟩ := exists_written fs hedit hwrites hpath
    rw [hheld, hfiles' i path ps hpath' hps]
  have htext : writeAll fs (streamWrites after packets) url = some text :=
    (writeAll_streamWrites_of_notMem fs hedit hwrites hown).trans hurl
  refine ⟨_, _, heq, hlsParse_packetFiles htext hheld, map_url_openedStreams 0 _, ?_⟩
  rw [numberedFrom_congr (map_header_reread stale' hedit hwrites hfiles'), hafter]
  exact numberedFrom_runPlaylistPasses
    (List.any_eq_true.mpr ⟨_, hpass, decide_eq_true hpids⟩) _

end Files

/-! ## Two files -/

/-- A playlist with the tag `#M` and the lines `a` and `b`. -/
def twoLines : List Byte := [hash, 0x4d, lf, 0x61, lf, 0x62, lf]

/-- The packets of the files `a` and `b`. -/
def linePackets (path : Path) : List TsPacket :=
  if path = [0x61] then [clockPacket, audioPacket, privatePacket] else [audioPacket, clockPacket]

/-- The playlist `p`, and the two files that it names. -/
def twoEntries : FileSystem := fun path =>
  if path = [0x70] then some twoLines
  else if path ∈ [[0x61], [(0x62 : Byte)]] then some (fileOf (linePackets path))
  else none

/-- The passes that are commented out in `main`. -/
def mainPasses : List PlaylistPass :=
  [.fixDiscontinuity [0x100, 0, 0xfff], .fixKeyFrameInfo 0x100, .updatePcrByPts 0x100]

theorem openedPaths_entry {c : Byte} (hc : c ≠ 0 ∧ c ≠ lf ∧ c ≠ hash) :
    openedPaths [c, lf] = [[c]] := by
  have hbody : lf ∉ [c] := by simpa using hc.2.1.symm
  have hline : [c, lf] = [c] ++ [lf] ∨ [c, lf] = [c] ∧ [c] ≠ [] := .inl rfl
  have htag : hash ∉ [c, lf] := by
    rw [List.mem_pair, not_or]
    exact ⟨hc.2.2.symm, by decide⟩
  have hzero : 0 ∉ [c, lf] := by
    rw [List.mem_pair, not_or]
    exact ⟨hc.1.symm, by decide⟩
  rw [openedPaths_of_short hbody hline (by simp) htag, mediaPath_line hbody hline hzero]

theorem openedPaths_twoLines : openedPaths twoLines = [[0x61], [0x62]] := by
  have hlines : Lines.lines lf twoLines = [[hash, 0x4d, lf], [0x61, lf], [0x62, lf]] := by decide
  have htag : openedPaths [hash, 0x4d, lf] = [] := by
    have hbody : lf ∉ [hash, 0x4d] := by decide
    have hread : Lines.reads lf 510 [hash, 0x4d, lf] = [[hash, 0x4d, lf]] :=
      Lines.reads_of_short hbody (.inl rfl) (by decide)
    unfold openedPaths loadedBuffers
    rw [hread]
    decide
  rw [openedPaths_eq_flatMap, hlines]
  simp only [List.flatMap_cons, List.flatMap_nil, htag, List.nil_append, List.append_nil]
  rw [openedPaths_entry (by decide), openedPaths_entry (by decide)]
  rfl

theorem opensPackets_twoEntries :
    OpensPackets twoEntries (fun _ _ => .zeroed) linePackets (openedPaths twoLines) := by
  rw [openedPaths_twoLines]
  constructor
  · intro path hpath
    have hne : path ≠ [0x70] := by
      rintro rfl
      exact absurd hpath (by decide)
    unfold twoEntries
    rw [if_neg hne, if_pos hpath]
  · intro stream hstream s hs
    simp only [openedStreams, List.mem_cons, List.not_mem_nil, or_false] at hstream
    rcases hstream with rfl | rfl
    · have hpackets : linePackets [0x61] = [clockPacket, audioPacket, privatePacket] := rfl
      simp only [hpackets, segmentsFrom, List.mem_cons, List.not_mem_nil, or_false] at hs
      rcases hs with rfl | rfl | rfl <;> decide
    · have hpackets : linePackets [0x62] = [audioPacket, clockPacket] := rfl
      simp only [hpackets, segmentsFrom, List.mem_cons, List.not_mem_nil, or_false] at hs
      rcases hs with rfl | rfl <;> decide

/-- The second file is numbered behind the first. -/
theorem hlsRewrite_files_twoEntries : ∃ fs' first second,
    hlsRewrite twoEntries (fun _ _ => .zeroed) [0x70] mainPasses = .ok (some fs') ∧
      fs' [0x70] = some twoLines ∧
      fs' [0x61] = some (fileOf first) ∧
      RewrittenFile (fun _ => .zeroed) mainPasses [] (linePackets [0x61]) first ∧
      fs' [0x62] = some (fileOf second) ∧
      RewrittenFile (fun _ => .zeroed) mainPasses (linePackets [0x61]) (linePackets [0x62])
        second := by
  obtain ⟨fs', heq, hkept, hfiles⟩ :=
    hlsRewrite_files (show twoEntries [0x70] = some twoLines from rfl) opensPackets_twoEntries
      mainPasses
  rw [openedPaths_twoLines] at hkept hfiles
  obtain ⟨i, first, hi, -, hfirst, hrewritten⟩ := hfiles [0x61] (by decide)
  obtain ⟨i', second, hi', -, hsecond, hrewritten'⟩ := hfiles [0x62] (by decide)
  have hplace : i = 0 ∧ i' = 1 := by
    constructor
    · match i, hi with
      | 0, _ => rfl
      | 1, h => exact absurd h (by decide)
      | _ + 2, h => cases h
    · match i', hi' with
      | 0, h => exact absurd h (by decide)
      | 1, _ => rfl
      | _ + 2, h => cases h
  obtain ⟨rfl, rfl⟩ := hplace
  refine ⟨fs', first, second, heq, hkept [0x70] (by decide), hfirst, hrewritten, hsecond, ?_⟩
  simpa using hrewritten'

theorem hlsRewrite_numbered_twoEntries : ∃ fs' playlist',
    hlsRewrite twoEntries (fun _ _ => .zeroed) [0x70] mainPasses = .ok (some fs') ∧
      hlsParse fs' (fun _ _ => .zeroed) (hlsPlaylistInit [0x70]) = .ok playlist' ∧
      playlist'.sublist.map (·.url) = openedPaths twoLines ∧
      NumberedFrom 0x100 0 (allSegments playlist'.sublist) := by
  refine hlsRewrite_numbered (show twoEntries [0x70] = some twoLines from rfl)
    opensPackets_twoEntries ?_ ?_ (List.cons_ne_nil 0x100 [0, 0xfff]) List.mem_cons_self _
  · rw [openedPaths_twoLines]
    decide
  · rw [openedPaths_twoLines]
    decide

end MpegtsReader
