import MpegtsReader.DlistView
import MpegtsReader.PlaylistText
import MpegtsReader.Transition

/-!
# The lists of playlists

`sublist` is an intrusive list that two functions fill: `load_media` links a stream into it, and
`hls_playlist_init` the node of a child playlist into the list of its parent. Every pass over a
playlist takes what it finds there for a stream. Here the lists of all playlists are one heap of
links, and the cast is a function that fails on any other node: `streamsOnly_of_reachable` says that
it never does in a run that makes no child playlist. There the passes over the links are the passes
over sequences of `Playlist.lean` (`castLoop_ofPosition`).
-/

namespace MpegtsReader

open Links Dlist

/-- The links in memory: the `ln` of a stream, the `dl` of a playlist, and the entry `sublist` of a
playlist. -/
inductive PlaylistNode (P : Type)
  | ln (stream : ℕ)
  | dl (playlist : P)
  | sublist (playlist : P)
  deriving DecidableEq

/-- The memory that playlists live in. The streams are numbered in the order in which `load_media`
allocates them, `count` of them so far, and a playlist has no `url` before it is initialised. -/
structure PlaylistHeap (P : Type) where
  links : Links (PlaylistNode P)
  parent : P → Option P
  url : P → Option Path
  stream : ℕ → Stream
  count : ℕ

variable {P : Type} [DecidableEq P]

namespace PlaylistHeap

/-! ## Making playlists -/

/-- `memset`: the part of it that clears the fields of a node. -/
def zeroLinks (h : Links (PlaylistNode P)) (node : PlaylistNode P) : Links (PlaylistNode P) :=
  (h.setNext node none).setPrev node none

/-- `hls_playlist_init`. There is no result after a `NULL` is dereferenced. -/
def hlsPlaylistInit (heap : PlaylistHeap P) (playlist : P) (parent : Option P) (url : Path) :
    Option (PlaylistHeap P) := do
  let links := zeroLinks (zeroLinks heap.links (.dl playlist)) (.sublist playlist)
  let links := cdslDlistEntryInit links (some (.sublist playlist))
  let links := cdslDlistNodeInit links (some (.dl playlist))
  let links ← match parent with
    | some parent => Dlist.cdslDlistPutTail links (some (.sublist parent)) (some (.dl playlist))
    | none => some links
  return { heap with
    links := links
    parent := Function.update heap.parent playlist parent
    url := Function.update heap.url playlist (some url) }

/-- `load_media`: into a new stream, which is then linked. -/
def loadMedia (fs : FileSystem) (stale : ℕ → ℕ → Stale) (playlist : P) (heap : PlaylistHeap P)
    (path : List Byte) : Except LogErr (Option (PlaylistHeap P)) :=
  let r := mpegtsStreamReadSegment fs (stale heap.count) (mpegtsStreamInit (mediaPath path))
  let links := cdslDlistNodeInit heap.links (some (.ln heap.count))
  match r.2 with
  | some err => .error err
  | none =>
    .ok <| (Dlist.cdslDlistPutTail links (some (.sublist playlist))
      (some (.ln heap.count))).map fun links => { heap with
        links := links
        stream := Function.update heap.stream heap.count r.1
        count := heap.count + 1 }

/-- `load_media` where no `NULL` has been dereferenced yet. -/
def loadMediaIn (fs : FileSystem) (stale : ℕ → ℕ → Stale) (playlist : P) :
    Option (PlaylistHeap P) → List Byte → Except LogErr (Option (PlaylistHeap P))
  | none, _ => .ok none
  | some heap, path => loadMedia fs stale playlist heap path

/-- `hls_parse`. There is no result when `LOG_ERR` ends the process, nor for a playlist that has not
been initialised. -/
def hlsParse (fs : FileSystem) (stale : ℕ → ℕ → Stale) (heap : PlaylistHeap P) (playlist : P) :
    Option (PlaylistHeap P) := do
  let url ← heap.url playlist
  match fs url with
  | none => some heap
  | some fp =>
    match parseLoop (loadMediaIn fs stale playlist) (some heap) fp with
    | .ok heap => heap
    | .error _ => none

/-! ## Passes -/

/-- `(mpegts_stream_t *)`: the stream of a node, which only the link of a stream has. -/
def castStream : PlaylistNode P → Option ℕ
  | .ln stream => some stream
  | _ => none

/-- `while (cdsl_iterHasNext(&iter))` with the node cast to a stream. The body updates the
accumulator `s` and the stream. -/
def castLoop {σ : Type} (h : Links (PlaylistNode P)) (body : σ → Stream → σ × Stream) :
    ℕ → LinkIter (PlaylistNode P) → σ → (ℕ → Stream) →
      Option (σ × (ℕ → Stream) × LinkIter (PlaylistNode P))
  | 0, _, _, _ => none
  | fuel + 1, iter, s, streams => do
    if ← iter.cdslIterHasNext h then
      let (iter, node) ← iter.cdslIterNext h
      let stream ← castStream (← node)
      let r := body s (streams stream)
      castLoop h body fuel iter r.1 (Function.update streams stream r.2)
    else some (s, streams, iter)

/-- The loop over the sublist of a playlist. -/
def sublistLoop {σ : Type} (body : σ → Stream → σ × Stream) (fuel : ℕ) (heap : PlaylistHeap P)
    (playlist : P) (s : σ) : Option (σ × PlaylistHeap P) :=
  (castLoop heap.links body fuel (LinkIter.cdslIterInit (some (.sublist playlist))) s
    heap.stream).map fun r => (r.1, { heap with stream := r.2.1 })

/-- `hls_fix_key_frame_info`. -/
def hlsFixKeyFrameInfo (fuel : ℕ) (heap : PlaylistHeap P) (playlist : P) (pid : BitVec 16) :
    Option (Unit × PlaylistHeap P) :=
  sublistLoop (fun _ stream => ((), mpegtsStreamFixKeyframe stream pid)) fuel heap playlist ()

/-- `hls_update_pcr_by_pts`. -/
def hlsUpdatePcrByPts (fuel : ℕ) (heap : PlaylistHeap P) (playlist : P) (pid : BitVec 16) :
    Option (Unit × PlaylistHeap P) :=
  sublistLoop (fun _ stream => ((), mpegtsStreamUpdatePcrByPts stream pid)) fuel heap playlist ()

/-- `mpegts_stream_print_pes_header`: the segments that are printed. -/
def mpegtsStreamPrintPesHeader (stream : Stream) (pid : BitVec 16) : List Segment :=
  stream.segmentList.filter fun segment =>
    segment.header.pusi ∧ segment.header.pid.setWidth 16 = pid

/-- `hls_print_timestamp`: what is printed, in order. -/
def hlsPrintTimestamp (fuel : ℕ) (heap : PlaylistHeap P) (playlist : P) (pid : BitVec 16) :
    Option (List Segment × PlaylistHeap P) :=
  sublistLoop (fun out stream => (out ++ mpegtsStreamPrintPesHeader stream pid, stream)) fuel heap
    playlist []

/-- `hls_update`: the body of the loop. The file system is `none` once a store has left a
payload. -/
def writeStream (fs : Option FileSystem) (stream : Stream) : Option FileSystem × Stream :=
  match fs.bind (mpegtsStreamWrite · stream none) with
  | some r => (some r.1, r.2)
  | none => (none, stream)

/-- `hls_update`. -/
def hlsUpdate (fuel : ℕ) (heap : PlaylistHeap P) (playlist : P) (fs : FileSystem) :
    Option (Option FileSystem × PlaylistHeap P) :=
  sublistLoop writeStream fuel heap playlist (some fs)

/-- `hls_fix_discontinuity`: the loop over the PIDs, with one iterator. -/
def fixDiscontinuityRounds (h : Links (PlaylistNode P)) (fuel : ℕ) :
    List ℤ → LinkIter (PlaylistNode P) → (ℕ → Stream) → Option (ℕ → Stream)
  | [], _, streams => some streams
  | _ :: pids, iter, streams => do
    let r ← castLoop h fixStreamCc fuel iter 0 streams
    fixDiscontinuityRounds h fuel pids r.2.2 r.2.1

/-- `hls_fix_discontinuity`. -/
def hlsFixDiscontinuity (fuel : ℕ) (heap : PlaylistHeap P) (playlist : P) (pids : List ℤ) :
    Option (PlaylistHeap P) :=
  (fixDiscontinuityRounds heap.links fuel pids
    (LinkIter.cdslIterInit (some (.sublist playlist))) heap.stream).map
      fun streams => { heap with stream := streams }

/-! ## The passes on sequences -/

section Passes

variable {h : Links (PlaylistNode P)} {p : P} {ks : List ℕ}

omit [DecidableEq P]

theorem map_update_getElem (hks : ks.Nodup) (streams : ℕ → Stream) {i : ℕ} (hi : i < ks.length)
    (stream : Stream) :
    ks.map (Function.update streams ks[i] stream) = (ks.map streams).set i stream := by
  refine List.ext_getElem (by simp) fun j hj hj' => ?_
  rw [List.getElem_map, List.getElem_set, List.getElem_map]
  by_cases hij : i = j
  · subst hij
    rw [if_pos rfl, Function.update_self]
  · rw [if_neg hij, Function.update_of_ne]
    rw [ne_eq, hks.getElem_inj_iff]
    exact Ne.symm hij

/-- On a list of streams no cast fails, and the loop is the one over the sequence. -/
theorem castLoop_ofPosition {σ : Type} (hrow : Row h none (.sublist p :: ks.map .ln))
    (body : σ → Stream → σ × Stream) (fuel : ℕ) (iter : ListIter) (s : σ) (streams : ℕ → Stream)
    (hiter : iter.next ≤ ks.length) (hfuel : ks.length < fuel + iter.next) :
    ∃ s' streams' iter', castLoop h body fuel (.ofPosition (.sublist p) (ks.map .ln) iter) s
        streams = some (s', streams', .ofPosition (.sublist p) (ks.map .ln) iter') ∧
      iterLoop body (ks.map streams) iter s = (s', ks.map streams', iter') ∧
      iter'.next ≤ ks.length := by
  have hnodup : ks.Nodup := List.Nodup.of_map _ (List.nodup_cons.mp hrow.nodup).2
  induction fuel generalizing iter s streams with
  | zero => omega
  | succ fuel ih =>
    rw [castLoop, hasNext_ofPosition hrow (by simpa using hiter), iterLoop]
    by_cases hlt : iter.next < ks.length
    · obtain ⟨s', streams', iter', hcast, hloop, hend⟩ := ih (cdslIterNext iter)
        (body s (streams ks[iter.next])).1
        (Function.update streams ks[iter.next] (body s (streams ks[iter.next])).2)
        hlt (by rw [next_cdslIterNext]; omega)
      refine ⟨s', streams', iter', ?_, ?_, hend⟩
      · have hnext : cdslIterHasNext (ks.map (PlaylistNode.ln (P := P))) iter = true :=
          cdslIterHasNext_iff.mpr (by simpa using hlt)
        simpa [hnext, iterNext_ofPosition hrow (show iter.next ≤ _ by simpa using hiter), hlt,
          castStream] using hcast
      · rw [dif_pos (cdslIterHasNext_iff.mpr (by simpa using hlt))]
        rw [map_update_getElem hnodup streams hlt] at hloop
        simpa using hloop
    · have hnext : cdslIterHasNext (ks.map (PlaylistNode.ln (P := P))) iter = false :=
        Bool.eq_false_iff.mpr (mt cdslIterHasNext_iff.mp (by simpa using hlt))
      have hnext' : ¬ cdslIterHasNext (ks.map streams) iter = true :=
        mt cdslIterHasNext_iff.mp (by simpa using hlt)
      rw [dif_neg hnext']
      exact ⟨s, streams, iter, by simp [hnext], rfl, hiter⟩

/-- The sublist of a playlist holds these streams, and the tail is the last. -/
abbrev HoldsStreams (h : Links (PlaylistNode P)) (p : P) (ks : List ℕ) : Prop :=
  DlistHolds h (.sublist p) (ks.map .ln) (ks.map PlaylistNode.ln).getLast?

variable {heap : PlaylistHeap P}

/-- Each pass of one round is the pass over the sequence of the streams. -/
theorem sublistLoop_eq {σ : Type} (hl : HoldsStreams heap.links p ks)
    (body : σ → Stream → σ × Stream) {fuel : ℕ} (hfuel : ks.length < fuel) (s : σ) :
    ∃ streams, sublistLoop body fuel heap p s =
        some ((mapAccum body s (ks.map heap.stream)).1, { heap with stream := streams }) ∧
      ks.map streams = (mapAccum body s (ks.map heap.stream)).2 := by
  obtain ⟨s', streams, iter', hcast, hloop, -⟩ := castLoop_ofPosition hl.row body fuel cdslIterInit
    s heap.stream (Nat.zero_le _) hfuel
  have hfst := iterLoop_init_fst body (ks.map heap.stream) s
  have hsnd := iterLoop_init_snd body (ks.map heap.stream) s
  rw [hloop] at hfst hsnd
  refine ⟨streams, ?_, hsnd⟩
  rw [← hfst]
  exact congrArg (Option.map _) hcast

theorem fixDiscontinuityRounds_eq (hrow : Row h none (.sublist p :: ks.map .ln)) {fuel : ℕ}
    (hfuel : ks.length < fuel) (pids : List ℤ) (iter : ListIter) (hiter : iter.next ≤ ks.length)
    (streams : ℕ → Stream) :
    ∃ streams', fixDiscontinuityRounds h fuel pids (.ofPosition (.sublist p) (ks.map .ln) iter)
        streams = some streams' ∧
      ks.map streams' = fixDiscontinuityLoop pids (ks.map streams) iter := by
  induction pids generalizing iter streams with
  | nil => exact ⟨streams, rfl, rfl⟩
  | cons pid pids ih =>
    obtain ⟨cc, streams₁, iter₁, hcast, hloop, hend⟩ := castLoop_ofPosition hrow fixStreamCc fuel
      iter 0 streams hiter (by omega)
    obtain ⟨streams₂, hrounds, hview⟩ := ih iter₁ hend streams₁
    refine ⟨streams₂, ?_, ?_⟩
    · rw [fixDiscontinuityRounds, hcast]
      exact hrounds
    · rw [fixDiscontinuityLoop, hloop]
      exact hview

/-- `hls_fix_discontinuity` is the pass over the sequence of the streams. -/
theorem hlsFixDiscontinuity_eq (hl : HoldsStreams heap.links p ks) {fuel : ℕ}
    (hfuel : ks.length < fuel) (url : Path) (pids : List ℤ) :
    ∃ streams, hlsFixDiscontinuity fuel heap p pids = some { heap with stream := streams } ∧
      ks.map streams =
        (MpegtsReader.hlsFixDiscontinuity ⟨url, ks.map heap.stream⟩ pids).sublist := by
  obtain ⟨streams, hrounds, hview⟩ := fixDiscontinuityRounds_eq hl.row hfuel pids cdslIterInit
    (Nat.zero_le _) heap.stream
  exact ⟨streams, congrArg (Option.map _) hrounds, hview⟩

end Passes

/-! ## What must not happen -/

/-- The sublist of the playlist holds links of streams only, and no pass over it casts anything
else. -/
structure StreamsOnly (heap : PlaylistHeap P) (p : P) : Prop where
  linked : ∀ node, Linked heap.links (.sublist p) node → ∃ k < heap.count, node = .ln k
  passes : ∃ n, ∀ fuel > n, ∀ (pid : BitVec 16) (pids : List ℤ) (fs : FileSystem),
    (hlsUpdate fuel heap p fs).isSome ∧ (hlsFixKeyFrameInfo fuel heap p pid).isSome ∧
      (hlsUpdatePcrByPts fuel heap p pid).isSome ∧ (hlsFixDiscontinuity fuel heap p pids).isSome ∧
      (hlsPrintTimestamp fuel heap p pid).isSome

/-- A call with its arguments. The files and the memory may be others at each call. -/
inductive PlaylistCall (P : Type)
  | init (playlist : P) (parent : Option P) (url : Path)
  | parse (playlist : P) (fs : FileSystem) (stale : ℕ → ℕ → Stale)

/-- One call. -/
def playlistStep (heap : PlaylistHeap P) : PlaylistCall P → Option (PlaylistHeap P)
  | .init playlist parent url => hlsPlaylistInit heap playlist parent url
  | .parse playlist fs stale => hlsParse fs stale heap playlist

/-- The call makes no child playlist. -/
def PlaylistCall.NoParent : PlaylistCall P → Prop
  | .init _ parent _ => parent = none
  | .parse .. => True

/-! ## The lists in memory -/

/-- The initialised playlists hold these streams, no stream in two of them. -/
structure HoldsLists (heap : PlaylistHeap P) (lists : P → List ℕ) : Prop where
  holds : ∀ p, heap.url p ≠ none → HoldsStreams heap.links p (lists p)
  allocated : ∀ p, heap.url p ≠ none → ∀ k ∈ lists p, k < heap.count
  apart : ∀ p q, heap.url p ≠ none → heap.url q ≠ none → p ≠ q → (lists p).Disjoint (lists q)

section Lists

variable {h h' : Links (PlaylistNode P)} {heap heap' : PlaylistHeap P} {lists : P → List ℕ} {p : P}

theorem holds_zeroLinks {ks : List ℕ} {x : PlaylistNode P} (hl : HoldsStreams h p ks)
    (hx : x ∉ .sublist p :: ks.map .ln) : HoldsStreams (zeroLinks h x) p ks :=
  hl.nodeInit hx

theorem HoldsLists.init (hl : HoldsLists heap lists) (url : Path) :
    ∃ heap', hlsPlaylistInit heap p none url = some heap' ∧
      HoldsLists heap' (Function.update lists p []) := by
  have hurl (q : P) (hqp : q ≠ p) (hq : Function.update heap.url p (some url) q ≠ none) :
      heap.url q ≠ none := by
    rwa [Function.update_of_ne hqp] at hq
  refine ⟨_, rfl, ?_, ?_, ?_⟩
  · intro q hq
    by_cases hqp : q = p
    · subst hqp
      rw [Function.update_self]
      exact (holds_entryInit _ _).nodeInit (by simp)
    · rw [Function.update_of_ne hqp]
      have hdl : PlaylistNode.dl p ∉ .sublist q :: (lists q).map .ln := by simp
      have hsub : PlaylistNode.sublist p ∉ .sublist q :: (lists q).map .ln := by
        simp [Ne.symm hqp]
      have hzero := holds_zeroLinks (holds_zeroLinks (hl.holds q (hurl q hqp hq)) hdl) hsub
      exact DlistHolds.nodeInit (DlistHolds.nodeInit hzero hsub) hdl
  · intro q hq k hk
    by_cases hqp : q = p
    · rw [hqp, Function.update_self] at hk
      cases hk
    · rw [Function.update_of_ne hqp] at hk
      exact hl.allocated q (hurl q hqp hq) k hk
  · intro q r hq hr hqr
    by_cases hqp : q = p
    · rw [hqp, Function.update_self]
      exact List.disjoint_nil_left _
    · by_cases hrp : r = p
      · rw [hrp, Function.update_self]
        exact List.disjoint_nil_right _
      · rw [Function.update_of_ne hqp, Function.update_of_ne hrp]
        exact hl.apart q r (hurl q hqp hq) (hurl r hrp hr) hqr

omit [DecidableEq P] in
/-- The node that is linked next is in no list yet. -/
theorem HoldsLists.fresh (hl : HoldsLists heap lists) (hp : heap.url p ≠ none) :
    PlaylistNode.ln heap.count ∉ .sublist p :: (lists p).map .ln := by
  intro hmem
  rcases List.mem_cons.mp hmem with h | h
  · cases h
  · obtain ⟨k, hk, heq⟩ := List.mem_map.mp h
    have hlt := hl.allocated p hp k hk
    rw [PlaylistNode.ln.inj heq] at hlt
    exact Nat.lt_irrefl _ hlt

/-- A stream at the end of one list keeps the others. -/
theorem HoldsLists.other (hl : HoldsLists heap lists) (hp : heap.url p ≠ none) {q : P}
    (hq : heap.url q ≠ none) (hqp : q ≠ p)
    (heq : Dlist.cdslDlistPutTail (cdslDlistNodeInit heap.links (some (.ln heap.count)))
      (some (.sublist p)) (some (.ln heap.count)) = some h') : HoldsStreams h' q (lists q) := by
  have hin := (hl.holds p hp).nodeInit (hl.fresh hp)
  have hother := (hl.holds q hq).nodeInit (hl.fresh hq)
  have hframe (a : PlaylistNode P) (ha : a ∈ PlaylistNode.sublist q :: (lists q).map .ln) :=
    putTail_frame heq (a := a) (by rintro rfl; simp [Ne.symm hqp] at ha)
      (ne_of_mem_of_not_mem ha (hl.fresh hq))
  refine hother.frame (fun a ha => (hframe a ha).2 fun htail => ?_) fun a ha => (hframe a ha).1
  -- the last stream of the list of `p` is not in that of `q`
  rw [hin.tail] at htail
  obtain ⟨k, hk, rfl⟩ := List.mem_map.mp (List.mem_of_mem_getLast? htail)
  rcases List.mem_cons.mp ha with h | h
  · cases h
  · obtain ⟨k', hk', heq'⟩ := List.mem_map.mp h
    rw [PlaylistNode.ln.inj heq'] at hk'
    exact hl.apart q p hq hp hqp hk' hk

/-- `load_media` links the new stream behind the others. -/
theorem HoldsLists.loadMedia (hl : HoldsLists heap lists) (hp : heap.url p ≠ none)
    {fs : FileSystem} {stale : ℕ → ℕ → Stale} {path : List Byte} {r : Option (PlaylistHeap P)}
    (hload : loadMedia fs stale p heap path = .ok r) :
    ∃ heap', r = some heap' ∧ heap'.url = heap.url ∧
      HoldsLists heap' (Function.update lists p (lists p ++ [heap.count])) := by
  obtain ⟨h', heq, hput⟩ := ((hl.holds p hp).nodeInit (hl.fresh hp)).putTail (fun _ => rfl)
    (hl.fresh hp)
  unfold PlaylistHeap.loadMedia at hload
  simp only [heq, Option.map_some] at hload
  split at hload
  · cases hload
  · obtain rfl := Except.ok.inj hload
    refine ⟨_, rfl, rfl, ?_, ?_, ?_⟩
    · intro q hq
      by_cases hqp : q = p
      · rw [hqp, Function.update_self, HoldsStreams, List.map_append, List.map_singleton,
          List.getLast?_concat]
        exact hput
      · rw [Function.update_of_ne hqp]
        exact hl.other hp hq hqp heq
    · intro q hq k hk
      by_cases hqp : q = p
      · rw [hqp, Function.update_self, List.mem_append, List.mem_singleton] at hk
        rcases hk with hk | rfl
        · exact Nat.lt_succ_of_lt (hl.allocated p hp k hk)
        · exact Nat.lt_succ_self _
      · rw [Function.update_of_ne hqp] at hk
        exact Nat.lt_succ_of_lt (hl.allocated q hq k hk)
    · have hnew (q : P) (hq : heap.url q ≠ none) (hqp : q ≠ p) :
          (lists p ++ [heap.count]).Disjoint (lists q) := by
        refine List.disjoint_append_left.mpr ⟨hl.apart p q hp hq (Ne.symm hqp), ?_⟩
        rw [List.singleton_disjoint]
        exact fun hk => Nat.lt_irrefl _ (hl.allocated q hq _ hk)
      intro q r hq hr hqr
      by_cases hqp : q = p
      · subst hqp
        rw [Function.update_self, Function.update_of_ne (Ne.symm hqr)]
        exact hnew r hr (Ne.symm hqr)
      · rw [Function.update_of_ne hqp]
        by_cases hrp : r = p
        · subst hrp
          rw [Function.update_self]
          exact List.disjoint_comm.mp (hnew q hq hqp)
        · rw [Function.update_of_ne hrp]
          exact hl.apart q r hq hr hqr

theorem HoldsLists.loads (hl : HoldsLists heap lists) (hp : heap.url p ≠ none) {fs : FileSystem}
    {stale : ℕ → ℕ → Stale} {paths : List (List Byte)} {r : Option (PlaylistHeap P)}
    (hloads : paths.foldlM (loadMediaIn fs stale p) (some heap) = .ok r) :
    ∃ heap' lists', r = some heap' ∧ HoldsLists heap' lists' := by
  induction paths generalizing heap lists with
  | nil =>
    obtain rfl := Except.ok.inj hloads
    exact ⟨heap, lists, rfl, hl⟩
  | cons path paths ih =>
    rw [List.foldlM_cons] at hloads
    cases hload : PlaylistHeap.loadMedia fs stale p heap path with
    | error err =>
      simp only [loadMediaIn, hload] at hloads
      cases hloads
    | ok r₁ =>
      obtain ⟨heap₁, rfl, hurl₁, hl₁⟩ := hl.loadMedia hp hload
      simp only [loadMediaIn, hload] at hloads
      exact ih hl₁ (by rw [hurl₁]; exact hp) hloads

/-- `hls_parse` links streams only. -/
theorem HoldsLists.parse (hl : HoldsLists heap lists) {fs : FileSystem} {stale : ℕ → ℕ → Stale}
    (hparse : hlsParse fs stale heap p = some heap') : ∃ lists', HoldsLists heap' lists' := by
  unfold hlsParse at hparse
  obtain ⟨url, hurl, hread⟩ := Option.bind_eq_some_iff.mp hparse
  cases hfile : fs url with
  | none =>
    simp only [hfile, Option.some.injEq] at hread
    exact hread ▸ ⟨lists, hl⟩
  | some fp =>
    simp only [hfile, parseLoop_eq_foldlM] at hread
    cases hloads : (loadedBuffers fp).foldlM (loadMediaIn fs stale p) (some heap) with
    | error err =>
      rw [hloads] at hread
      cases hread
    | ok r =>
      rw [hloads] at hread
      obtain ⟨heap₁, lists₁, rfl, hl₁⟩ := hl.loads (hurl ▸ Option.some_ne_none url) hloads
      exact ⟨lists₁, Option.some.inj hread ▸ hl₁⟩

omit [DecidableEq P] in
theorem HoldsLists.streamsOnly (hl : HoldsLists heap lists) (hp : heap.url p ≠ none) :
    StreamsOnly heap p := by
  have hlist := hl.holds p hp
  constructor
  · intro node hnode
    obtain ⟨k, hk, rfl⟩ := List.mem_map.mp (hlist.row.linked_iff.mp hnode)
    exact ⟨k, hl.allocated p hp k hk, rfl⟩
  · refine ⟨(lists p).length, fun fuel hfuel pid pids fs => ?_⟩
    have hloop {σ : Type} (body : σ → Stream → σ × Stream) (s : σ) :
        (sublistLoop body fuel heap p s).isSome := by
      obtain ⟨streams, heq, -⟩ := sublistLoop_eq hlist body hfuel s
      exact heq ▸ rfl
    obtain ⟨streams, heq, -⟩ := hlsFixDiscontinuity_eq hlist hfuel [] pids
    exact ⟨hloop _ _, hloop _ _, hloop _ _, heq ▸ rfl, hloop _ _⟩

theorem HoldsLists.step (hl : HoldsLists heap lists) {call : PlaylistCall P} (hcall : call.NoParent)
    (hstep : playlistStep heap call = some heap') : ∃ lists', HoldsLists heap' lists' := by
  cases call with
  | init playlist parent url =>
    obtain rfl : parent = none := hcall
    obtain ⟨heap₁, heq, hl₁⟩ := hl.init (p := playlist) url
    obtain rfl : heap₁ = heap' := Option.some.inj (heq.symm.trans hstep)
    exact ⟨_, hl₁⟩
  | parse playlist fs stale => exact hl.parse hstep

/-- A child playlist is linked into the list of its parent. -/
theorem HoldsLists.not_streamsOnly (hl : HoldsLists heap lists) {parent : P}
    (hparent : parent = p ∨ heap.url parent ≠ none) (url : Path) :
    ∃ heap', hlsPlaylistInit heap p (some parent) url = some heap' ∧ heap'.url parent ≠ none ∧
      ¬ StreamsOnly heap' parent := by
  obtain ⟨heap₁, hinit, hl₁⟩ := hl.init (p := p) url
  obtain rfl := Option.some.inj hinit
  have hp : Function.update heap.url p (some url) parent ≠ none := by
    rcases hparent with rfl | hparent
    · rw [Function.update_self]
      exact Option.some_ne_none url
    · by_cases hpp : parent = p
      · rw [hpp, Function.update_self]
        exact Option.some_ne_none url
      · rwa [Function.update_of_ne hpp]
  obtain ⟨h', heq, hput⟩ := (hl₁.holds parent hp).putTail (x := .dl p) (fun _ => rfl) (by simp)
  refine ⟨{ heap with
    links := h'
    parent := Function.update heap.parent p (some parent)
    url := Function.update heap.url p (some url) }, ?_, hp, fun hstreams => ?_⟩
  · unfold hlsPlaylistInit
    simp only [heq, Option.bind_eq_bind, Option.bind_some, Option.pure_def]
  · obtain ⟨k, -, hk⟩ := hstreams.linked (.dl p) (hput.row.linked_iff.mpr (by simp))
    cases hk

end Lists

/-! ## Runs -/

/-- Memory in which no playlist has been initialised. -/
def uninitialised (links : Links (PlaylistNode P)) (parent : P → Option P) (stream : ℕ → Stream) :
    PlaylistHeap P :=
  ⟨links, parent, fun _ => none, stream, 0⟩

/-- **Lists of streams.** Whatever the memory holds at the start, after any calls of
`hls_playlist_init` without a parent and of `hls_parse` every playlist is a list of streams. -/
theorem streamsOnly_of_reachable (links : Links (PlaylistNode P)) (parent : P → Option P)
    (stream : ℕ → Stream) {heap : PlaylistHeap P}
    (h : Transition.Reachable playlistStep (fun _ call => call.NoParent)
      (uninitialised links parent stream) heap) {p : P} (hp : heap.url p ≠ none) :
    StreamsOnly heap p := by
  have hlists : ∃ lists, HoldsLists heap lists := by
    refine h.invariant (P := fun heap => ∃ lists, HoldsLists heap lists)
      ⟨fun _ => [], ?_, ?_, ?_⟩ fun s call t ⟨_, hl⟩ => hl.step
    · exact fun p hp => absurd rfl hp
    · exact fun p hp => absurd rfl hp
    · exact fun p q hp => absurd rfl hp
  obtain ⟨lists, hl⟩ := hlists
  exact hl.streamsOnly hp

/-- The file system with a playlist `p` that names one stream, `a`, which is empty. -/
def onePlaylist : FileSystem := Function.update (oneFile [112] [97, 10]) [97] (some [])

/-- Memory that holds zeros. -/
def zeroedHeap : PlaylistHeap Bool :=
  uninitialised ⟨fun _ => none, fun _ => none⟩ (fun _ => none) fun _ => ⟨[], []⟩

theorem loadMedia_onePlaylist (heap : PlaylistHeap Bool) (p : Bool) :
    loadMedia onePlaylist (fun _ _ => .zeroed) p heap [97, 10] =
      .ok ((Dlist.cdslDlistPutTail (cdslDlistNodeInit heap.links (some (.ln heap.count)))
        (some (.sublist p)) (some (.ln heap.count))).map fun links => { heap with
          links := links
          stream := Function.update heap.stream heap.count ⟨[97], []⟩
          count := heap.count + 1 }) := by
  have hread : mpegtsStreamReadSegment onePlaylist (fun _ => .zeroed)
      (mpegtsStreamInit (mediaPath [97, 10])) = (⟨[97], []⟩, none) := by
    have hfile : onePlaylist [97] = some [] := Function.update_self ..
    rw [show mediaPath [97, 10] = [97] by decide]
    have hend : readLoop (fun _ => .zeroed) [] [] = ([], none) := readLoop_eof rfl
    unfold mpegtsStreamReadSegment mpegtsStreamInit
    simp only [hfile, hend]
  unfold loadMedia
  simp only [hread]

/-- A playlist that has been made and read is a list of streams. -/
theorem streamsOnly_onePlaylist :
    ∃ heap, Transition.run playlistStep zeroedHeap
        [.init true none [112], .parse true onePlaylist fun _ _ => .zeroed] = some heap ∧
      heap.count = 1 ∧ StreamsOnly heap true := by
  have hloaded : loadedBuffers [97, 10] = [[97, 10]] := by
    unfold loadedBuffers
    rw [Lines.reads_of_ne_nil 510 (List.cons_ne_nil _ _),
      show Lines.takeLine lf (510 + 1) [97, 10] = ([97, 10], []) by decide, Lines.reads_nil]
    decide
  have hfile : onePlaylist [112] = some [97, 10] := by decide
  obtain ⟨heap, hrun, hcount, hurl⟩ : ∃ heap, Transition.run playlistStep zeroedHeap
      [.init true none [112], .parse true onePlaylist fun _ _ => .zeroed] = some heap ∧
        heap.count = 1 ∧ heap.url true = some [112] := by
    have hurl : Function.update zeroedHeap.url true (some [112]) true = some [112] :=
      Function.update_self ..
    refine ⟨?heap, ?run, ?count, ?url⟩
    case run =>
      simp only [Transition.run, playlistStep, hlsPlaylistInit, hlsParse, Option.bind_some,
        Option.pure_def, Option.bind_eq_bind, hurl, hfile, parseLoop_eq_foldlM, hloaded,
        List.foldlM_cons, loadMediaIn, loadMedia_onePlaylist]
      rfl
    case count => rfl
    case url => exact hurl
  refine ⟨heap, hrun, hcount, streamsOnly_of_reachable _ _ _ (.of_run .start ?_ hrun) ?_⟩
  · intro call hcall u
    simp only [List.mem_cons, List.not_mem_nil, or_false] at hcall
    rcases hcall with rfl | rfl
    · exact rfl
    · exact trivial
  · rw [hurl]
    exact Option.some_ne_none _

/-- A playlist and its child. -/
theorem not_streamsOnly_child :
    ¬ ∀ (links : Links (PlaylistNode Bool)) (parent : Bool → Option Bool) (stream : ℕ → Stream)
      (heap : PlaylistHeap Bool), Transition.Reachable playlistStep (fun _ _ => True)
        (uninitialised links parent stream) heap →
      ∀ p, heap.url p ≠ none → StreamsOnly heap p := by
  intro h
  have hempty : HoldsLists zeroedHeap fun _ => [] :=
    ⟨fun p hp => absurd rfl hp, fun p hp => absurd rfl hp, fun p q hp => absurd rfl hp⟩
  obtain ⟨heap₁, hinit, hl⟩ := hempty.init (p := true) [112]
  have hmade : heap₁.url true ≠ none := by
    rw [← Option.some.inj hinit]
    decide
  obtain ⟨heap₂, hchild, hp, hnot⟩ := hl.not_streamsOnly (p := false) (Or.inr hmade) [113]
  have hreach : Transition.Reachable playlistStep (fun _ _ => True) zeroedHeap heap₂ :=
    (Transition.Reachable.start.next (a := .init true none [112]) trivial hinit).next
      (a := .init false (some true) [113]) trivial hchild
  exact hnot (h _ _ _ heap₂ hreach true hp)

end PlaylistHeap

end MpegtsReader
