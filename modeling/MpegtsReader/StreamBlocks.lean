import MpegtsReader.StreamMemory

/-!
# The blocks of a stream

`Holds`: the segments in the list, their PES headers and the `url` are in blocks of their own. The
loops of `mpegts_stream_read_segment` and `mpegts_stream_free` never use a block that is not live,
and the blocks that they allocate and free are those of the segments (`readLoop_eq`, `freeLoop_eq`).
-/

namespace MpegtsReader

open Links Dlist

namespace StreamMemory

variable {m : StreamMemory} {others : Finset ℕ} {ks spare : List ℕ} {k current : ℕ}

/-- The blocks of a segment, in the order in which they are freed. -/
def segmentBlocks (m : StreamMemory) (segment : ℕ) : List ℕ :=
  (m.pesHeader segment).toList ++ [segment]

/-- The blocks of these segments. -/
def owned (m : StreamMemory) (ks : List ℕ) : List ℕ := ks.flatMap m.segmentBlocks

/-- The segments `ks` are in the list. Their blocks and the `spare` ones are live and, with that of
the `url`, all different; the `others` are live and none of them. -/
structure Holds (others : Finset ℕ) (m : StreamMemory) (ks spare : List ℕ) : Prop where
  list : ∃ t, DlistHolds m.links none (ks.map some) t ∧
    (ks.map some ≠ [] → t = (ks.map some).getLast?)
  nodup : (m.url :: (m.owned ks ++ spare)).Nodup
  live : ∀ b ∈ m.owned ks ++ spare, b ∈ m.blocks.live
  url_lt : m.url < m.blocks.count
  kept : others ⊆ m.blocks.live
  apart : ∀ b ∈ m.url :: (m.owned ks ++ spare), b ∉ others

@[simp] theorem owned_nil (m : StreamMemory) : m.owned [] = [] := rfl

theorem owned_cons (m : StreamMemory) (k : ℕ) (ks : List ℕ) :
    m.owned (k :: ks) = m.segmentBlocks k ++ m.owned ks := rfl

theorem owned_append (m : StreamMemory) (ks ls : List ℕ) :
    m.owned (ks ++ ls) = m.owned ks ++ m.owned ls := List.flatMap_append

theorem self_mem_segmentBlocks (m : StreamMemory) (k : ℕ) : k ∈ m.segmentBlocks k :=
  List.mem_append_right _ (List.mem_singleton_self k)

theorem mem_owned (hk : k ∈ ks) : k ∈ m.owned ks :=
  List.mem_flatMap.mpr ⟨k, hk, m.self_mem_segmentBlocks k⟩

theorem header_mem_owned {header : ℕ} (hk : k ∈ ks) (hheader : m.pesHeader k = some header) :
    header ∈ m.owned ks := by
  refine List.mem_flatMap.mpr ⟨k, hk, List.mem_append_left _ ?_⟩
  rw [hheader]
  exact List.mem_singleton_self header

namespace Holds

/-- The spare blocks are forgotten. -/
theorem drop (hm : Holds others m ks spare) : Holds others m ks [] where
  list := hm.list
  nodup := by
    rw [List.append_nil]
    exact hm.nodup.sublist ((List.sublist_append_left _ spare).cons_cons m.url)
  live b hb := hm.live b (List.mem_append_left _ (List.append_nil (m.owned ks) ▸ hb))
  url_lt := hm.url_lt
  kept := hm.kept
  apart b hb := hm.apart b (by
    rw [List.append_nil] at hb
    exact (List.cons_subset_cons m.url (List.subset_append_left _ spare)) hb)

theorem lt_count (hm : Holds others m ks spare) {b : ℕ} (hb : b ∈ m.url :: (m.owned ks ++ spare)) :
    b < m.blocks.count := by
  rcases List.mem_cons.mp hb with rfl | hb
  · exact hm.url_lt
  · exact m.blocks.lt_count b (hm.live b hb)

theorem live_of_mem (hm : Holds others m ks spare) (hk : k ∈ ks) : k ∈ m.blocks.live :=
  hm.live k (List.mem_append_left _ (mem_owned hk))

theorem nodup_segments (hm : Holds others m ks spare) : ks.Nodup := by
  obtain ⟨t, hlist, -⟩ := hm.list
  exact hlist.nodup.of_map some

/-- There are no more segments than blocks. -/
theorem length_le (hm : Holds others m ks spare) : ks.length ≤ m.blocks.count := by
  have hsub : ks.toFinset ⊆ Finset.range m.blocks.count := fun k hk =>
    Finset.mem_range.mpr (m.blocks.lt_count k (hm.live_of_mem (List.mem_toFinset.mp hk)))
  have hcard := Finset.card_le_card hsub
  rwa [List.toFinset_card_of_nodup hm.nodup_segments, Finset.card_range] at hcard

end Holds

/-! ## Going through the list -/

theorem forM_eq_some_iff {α : Type} {f : α → Option Unit} {l : List α} :
    l.forM f = some () ↔ ∀ a ∈ l, f a = some () := by
  induction l with
  | nil => exact iff_of_true rfl nofun
  | cons a l ih =>
    have hcons : (a :: l).forM f = (f a).bind fun _ => l.forM f := rfl
    rw [List.forall_mem_cons, ← ih, hcons, Option.bind_eq_some_iff]
    exact ⟨fun ⟨_, ha, hl⟩ => ⟨ha, hl⟩, fun ⟨ha, hl⟩ => ⟨(), ha, hl⟩⟩

theorem Holds.eachSegment (hm : Holds others m ks spare) {f : ℕ → Option Unit} :
    m.eachSegment f = some () ↔ ∀ k ∈ ks, f k = some () := by
  obtain ⟨t, hlist, -⟩ := hm.list
  have hlen := hm.length_le
  have hnodes := hlist.sees.iter (m.blocks.count + 1) (by rw [List.length_map]; omega)
  rw [StreamMemory.eachSegment, hnodes]
  refine forM_eq_some_iff.trans ?_
  rw [List.forall_mem_map]
  rfl

theorem Holds.useSegment (hm : Holds others m ks spare) (pes : Bool) (hk : k ∈ ks) :
    m.useSegment pes k = some () := by
  have hk' := Blocks.use_of_mem (hm.live_of_mem hk)
  cases hheader : m.pesHeader k with
  | none => simp [StreamMemory.useSegment, hk', hheader]
  | some header =>
    have hlive := hm.live header (List.mem_append_left _ (header_mem_owned hk hheader))
    simp [StreamMemory.useSegment, hk', hheader, Blocks.use_of_mem hlive]

theorem Holds.useSegments (hm : Holds others m ks spare) (pes : Bool) :
    m.useSegments pes = some () :=
  hm.eachSegment.mpr fun _ hk => hm.useSegment pes hk

theorem Holds.writeSegments (hm : Holds others m ks spare) :
    m.eachSegment m.writeSegment = if ks.all m.fits then some () else none := by
  have hwrite : m.eachSegment m.writeSegment = some () ↔ ks.all m.fits := by
    rw [hm.eachSegment, List.all_eq_true]
    refine forall₂_congr fun k hk => ?_
    rw [writeSegment, hm.useSegment true hk]
    cases m.fits k <;> simp
  split_ifs with hfits
  · exact hwrite.mpr hfits
  · refine Option.eq_none_iff_forall_ne_some.mpr fun _ hsome => hfits (hwrite.mp hsome)

/-- A write needs the `url` if no path is given, and patches that fit if it gets to them. -/
theorem Holds.write (hm : Holds others m ks spare) (given opened : Bool) :
    m.mpegtsStreamWrite given opened =
      if (given || decide (m.url ∈ m.blocks.live)) && (!opened || ks.all m.fits) then some ()
      else none := by
  have hsegments := hm.writeSegments
  by_cases hurl : m.url ∈ m.blocks.live
  · have huse := Blocks.use_of_mem hurl
    cases given <;> cases opened <;> simp [mpegtsStreamWrite, huse, hurl, hsegments]
  · have hdead := Blocks.use_eq_none_iff.mpr hurl
    cases given <;> cases opened <;> simp [mpegtsStreamWrite, hdead, hurl, hsegments]

/-! ## Freeing -/

/-- The blocks of a segment are freed. -/
theorem freeSegment_eq (hnodup : (m.segmentBlocks k).Nodup)
    (hlive : ∀ b ∈ m.segmentBlocks k, b ∈ m.blocks.live) :
    ∃ blocks, m.freeSegment k = some { m with blocks := blocks } ∧
      m.blocks.freeAll (m.segmentBlocks k) = some blocks := by
  have hk := hlive k (m.self_mem_segmentBlocks k)
  rw [segmentBlocks] at hnodup hlive ⊢
  rw [freeSegment, Blocks.use_of_mem hk]
  cases hheader : m.pesHeader k with
  | none =>
    refine ⟨m.blocks.erase k, ?_, Blocks.freeAll_cons hk⟩
    simp [freeBlock, Blocks.free_of_mem hk]
  | some header =>
    rw [hheader] at hnodup hlive
    have hne : header ≠ k := fun h => (List.nodup_cons.mp hnodup).1 (h ▸ List.mem_singleton_self k)
    have hheader' : header ∈ m.blocks.live := hlive header List.mem_cons_self
    have hk' : k ∈ (m.blocks.erase header).live := Finset.mem_erase.mpr ⟨hne.symm, hk⟩
    refine ⟨(m.blocks.erase header).erase k, ?_,
      (Blocks.freeAll_cons hheader').trans (Blocks.freeAll_cons hk')⟩
    simp [freeBlock, Blocks.free_of_mem hheader', Blocks.free_of_mem hk']

/-- The loop frees the blocks of all segments in the list, and empties it. -/
theorem freeLoop_eq {t : Option (Option ℕ)} {fuel : ℕ}
    (hlist : DlistHolds m.links none (ks.map some) t) (hnodup : (m.owned ks).Nodup)
    (hlive : ∀ b ∈ m.owned ks, b ∈ m.blocks.live) (hfuel : ks.length < fuel) :
    ∃ links blocks, m.freeLoop fuel = some { m with links := links, blocks := blocks } ∧
      DlistHolds links none [] t ∧ m.blocks.freeAll (m.owned ks) = some blocks := by
  induction ks generalizing m fuel with
  | nil =>
    obtain ⟨fuel, rfl⟩ := Nat.exists_eq_add_one.mpr hfuel
    have hhead : m.links.next none = none := hlist.head
    refine ⟨m.links, m.blocks, ?_, hlist, rfl⟩
    simp [freeLoop, hhead]
  | cons k ks ih =>
    obtain ⟨fuel, rfl⟩ := Nat.exists_eq_add_one.mpr (Nat.zero_lt_of_lt hfuel)
    rw [owned_cons] at hnodup hlive
    obtain ⟨hnodup₁, hnodup₂, hapart⟩ := List.nodup_append.mp hnodup
    obtain ⟨hlive₁, hlive₂⟩ := List.forall_mem_append.mp hlive
    have hk : m.useNode (some (some k)) = some () :=
      Blocks.use_of_mem (hlive₁ k (m.self_mem_segmentBlocks k))
    have hhead : m.links.next none = some (some k) := hlist.head
    have hnext : m.useNode (m.links.next (some k)) = some () := by
      rw [DlistHolds.next_eq (show DlistHolds m.links none ([] ++ _) t from hlist)]
      cases ks with
      | nil => rfl
      | cons j ks => exact Blocks.use_of_mem (hlive₂ j (mem_owned List.mem_cons_self))
    obtain ⟨links, hdequeue, hlist'⟩ := DlistHolds.dequeue (l := ks.map some) hlist
    obtain ⟨blocks, hfree, hblocks⟩ :=
      freeSegment_eq (m := { m with links := links }) hnodup₁ hlive₁
    obtain ⟨blocks', heq, hb', -⟩ := Blocks.freeAll_eq hnodup₁ hlive₁
    obtain rfl : blocks' = blocks := Option.some.inj (heq.symm.trans hblocks)
    have hlive' : ∀ b ∈ m.owned ks, b ∈ blocks'.live := by
      intro b hb
      rw [hb']
      exact Finset.mem_sdiff.mpr ⟨hlive₂ b hb, fun hmem =>
        hapart b (List.mem_toFinset.mp hmem) b hb rfl⟩
    obtain ⟨links', blocks'', hloop, hlist'', hrest⟩ :=
      ih (m := { m with links := links, blocks := blocks' }) hlist' hnodup₂ hlive'
        (Nat.lt_of_succ_lt_succ hfuel)
    refine ⟨links', blocks'', ?_, hlist'', ?_⟩
    · rw [freeLoop, hhead]
      simp only [hk, hnext, hdequeue, Option.join_some, hfree, Option.bind_eq_bind,
        Option.bind_some]
      exact hloop
    · rw [owned_cons, Blocks.freeAll_append, heq]
      exact hrest

/-! ## Reading -/

theorem segmentBlocks_parsePesHeader (m : StreamMemory) (k : ℕ) (found : Bool) :
    (m.parsePesHeader k found).segmentBlocks k =
      (if found then [m.blocks.count] else []) ++ [k] := by
  unfold segmentBlocks parsePesHeader
  split_ifs <;> simp

theorem owned_parsePesHeader (found : Bool) (hk : k ∉ ks) :
    (m.parsePesHeader k found).owned ks = m.owned ks := by
  refine List.flatMap_congr fun j hj => ?_
  have hne : j ≠ k := ne_of_mem_of_not_mem hj hk
  unfold segmentBlocks parsePesHeader
  split_ifs <;> simp [hne]

/-- A block that is handed out is a new one. -/
theorem Holds.count_notMem (hm : Holds others m ks spare) :
    m.blocks.count ∉ m.url :: (m.owned ks ++ spare) ∧ m.blocks.count ∉ others :=
  ⟨fun hmem => (hm.lt_count hmem).false, fun hmem => m.blocks.count_notMem_live (hm.kept hmem)⟩

theorem Holds.newSegment (hm : Holds others m ks []) :
    Holds others m.newSegment ks [m.blocks.count] := by
  obtain ⟨t, hlist, hlast⟩ := hm.list
  obtain ⟨hnew, hothers⟩ := hm.count_notMem
  have hnode : some m.blocks.count ∉ (none : Option ℕ) :: ks.map some := by
    intro hmem
    rcases List.mem_cons.mp hmem with hnone | hmem
    · cases hnone
    · obtain ⟨k, hk, heq⟩ := List.mem_map.mp hmem
      obtain rfl : k = m.blocks.count := Option.some.inj heq
      exact hnew (List.mem_cons_of_mem _ (List.mem_append_left _ (mem_owned hk)))
  rw [List.append_nil] at hnew
  have hnodup : (m.url :: m.owned ks).Nodup := List.append_nil (m.owned ks) ▸ hm.nodup
  have hapart : ∀ b ∈ m.url :: m.owned ks, b ∉ others := List.append_nil (m.owned ks) ▸ hm.apart
  refine ⟨⟨t, hlist.nodeInit hnode, hlast⟩, ?_, ?_, ?_, ?_, ?_⟩
  · have hconcat : ((m.url :: m.owned ks) ++ [m.blocks.count]).Nodup :=
      List.nodup_append_comm.mp (List.nodup_cons.mpr ⟨hnew, hnodup⟩)
    exact hconcat
  · intro b hb
    refine Blocks.mem_live_alloc.mpr ?_
    rcases List.mem_append.mp hb with hb | hb
    · exact .inr (hm.live b (List.mem_append_left _ hb))
    · exact .inl (List.mem_singleton.mp hb)
  · exact Nat.lt_succ_of_lt hm.url_lt
  · exact fun b hb => Blocks.mem_live_alloc.mpr (.inr (hm.kept hb))
  · intro b hb
    rw [← List.cons_append, List.mem_append, List.mem_singleton] at hb
    rcases hb with hb | rfl
    · exact hapart b hb
    · exact hothers

/-- The blocks of a segment that is read are spare until it is in the list. -/
theorem Holds.parsePesHeader (hm : Holds others m ks [current]) (found : Bool) :
    Holds others (m.parsePesHeader current found) ks
      ((m.parsePesHeader current found).segmentBlocks current) := by
  obtain ⟨hnew, hothers⟩ := hm.count_notMem
  have hcurrent : current ∉ ks := fun hk =>
    (List.nodup_append.mp (List.nodup_cons.mp hm.nodup).2).2.2 current (mem_owned hk) current
      (List.mem_singleton_self current) rfl
  have howned : (m.parsePesHeader current found).owned ks = m.owned ks :=
    owned_parsePesHeader found hcurrent
  have hblocks := m.segmentBlocks_parsePesHeader current found
  cases found with
  | false =>
    refine ⟨hm.list, ?_, ?_, hm.url_lt, hm.kept, ?_⟩
    · rw [howned, hblocks]
      exact hm.nodup
    · rw [howned, hblocks]
      exact hm.live
    · rw [howned, hblocks]
      exact hm.apart
  | true =>
    have hmem : ∀ b, b ∈ m.owned ks ++ ([m.blocks.count] ++ [current]) ↔
        b = m.blocks.count ∨ b ∈ m.owned ks ++ [current] := by
      intro b
      simp only [List.mem_append, List.mem_singleton]
      tauto
    refine ⟨hm.list, ?_, ?_, Nat.lt_succ_of_lt hm.url_lt, fun b hb => ?_, ?_⟩
    · rw [howned, hblocks]
      have hperm : (m.url :: (m.owned ks ++ m.blocks.count :: [current])).Perm
          (m.blocks.count :: m.url :: (m.owned ks ++ [current])) :=
        (List.perm_middle.cons m.url).trans (.swap ..)
      exact hperm.nodup_iff.mpr (List.nodup_cons.mpr ⟨hnew, hm.nodup⟩)
    · rw [howned, hblocks]
      exact fun b hb => Blocks.mem_live_alloc.mpr (((hmem b).mp hb).imp_right (hm.live b))
    · exact Blocks.mem_live_alloc.mpr (.inr (hm.kept hb))
    · rw [howned, hblocks, List.forall_mem_cons]
      refine ⟨hm.apart _ List.mem_cons_self, fun b hb => ?_⟩
      rcases (hmem b).mp hb with rfl | hb
      · exact hothers
      · exact hm.apart b (List.mem_cons_of_mem _ hb)

theorem Holds.putTail (hm : Holds others m ks (m.segmentBlocks k)) :
    ∃ links, m.putTail k = some { m with links := links } ∧
      Holds others { m with links := links } (ks ++ [k]) [] := by
  obtain ⟨t, hlist, hlast⟩ := hm.list
  have hapart := (List.nodup_append.mp (List.nodup_cons.mp hm.nodup).2).2.2
  have hblocks := m.self_mem_segmentBlocks k
  have hk : some k ∉ (none : Option ℕ) :: ks.map some := by
    intro hmem
    rcases List.mem_cons.mp hmem with hnone | hmem
    · cases hnone
    · obtain ⟨j, hj, heq⟩ := List.mem_map.mp hmem
      exact hapart j (mem_owned hj) k hblocks (Option.some.inj heq)
  have htail : (m.links.next none).isSome → m.useNode (m.links.prev none) = some () := by
    intro hhead
    have hne : ks.map some ≠ [] := by
      intro hnil
      rw [hlist.head, hnil] at hhead
      cases hhead
    obtain ⟨j, hj, heq⟩ := List.mem_map.mp (List.getLast_mem hne)
    rw [hlist.tail, hlast hne, List.getLast?_eq_getLast_of_ne_nil hne, ← heq]
    exact Blocks.use_of_mem (hm.live_of_mem hj)
  obtain ⟨links, hput, hlist'⟩ := hlist.putTail hlast hk
  have hmap : (ks ++ [k]).map some = ks.map some ++ [some k] := List.map_append
  have howned : m.owned (ks ++ [k]) ++ [] = m.owned ks ++ m.segmentBlocks k := by
    rw [owned_append, owned_cons, owned_nil, List.append_nil, List.append_nil]
  refine ⟨links, ?_, ⟨some (some k), hmap ▸ hlist', fun _ => ?_⟩, howned ▸ hm.nodup,
    howned ▸ hm.live, hm.url_lt, hm.kept, howned ▸ hm.apart⟩
  · have huse := Blocks.use_of_mem (hm.live k (List.mem_append_right _ hblocks))
    unfold StreamMemory.putTail
    by_cases hhead : (m.links.next none).isSome
    · simp [hhead, htail hhead, huse, hput]
    · simp [hhead, huse, hput]
  · rw [hmap, List.getLast?_concat]

section ReadLoop

variable {stale : ℕ → Stale} {n : ℕ} {fd rest : List Byte} {segment : Segment} {err : LogErr}

theorem readLoop_parsed (huse : m.blocks.use current = some ())
    (h : parseTsSegment (stale n) fd = .parsed segment rest) :
    m.readLoop stale n current fd =
      ((m.parsed current segment).putTail current).bind fun m =>
        m.newSegment.readLoop stale (n + 1) m.blocks.count rest := by
  rw [StreamMemory.readLoop, huse]
  split <;> simp_all

theorem readLoop_eof (huse : m.blocks.use current = some ())
    (h : parseTsSegment (stale n) fd = .eof) : m.readLoop stale n current fd = some (m, none) := by
  rw [StreamMemory.readLoop, huse]
  split <;> simp_all

theorem readLoop_failed (huse : m.blocks.use current = some ())
    (h : parseTsSegment (stale n) fd = .failed err) :
    m.readLoop stale n current fd = some (m, some err) := by
  rw [StreamMemory.readLoop, huse]
  split <;> simp_all

end ReadLoop

/-- How many blocks the segments of a file take. -/
def blockCount (segments : List Segment) : ℕ :=
  (segments.map fun segment => if segment.pesHeader.isSome then 2 else 1).sum

theorem blockCount_concat (segments : List Segment) (segment : Segment) :
    blockCount (segments ++ [segment]) =
      blockCount segments + if segment.pesHeader.isSome then 2 else 1 := by
  rw [blockCount, List.map_append, List.sum_append, List.map_singleton, List.sum_singleton]
  rfl

/-- What a packet adds. -/
theorem counts_parsePesHeader (found : Bool) (hk : k ∉ ks) :
    (m.parsePesHeader k found).blocks.live.card = m.blocks.live.card + found.toNat ∧
      m.blocks.live ⊆ (m.parsePesHeader k found).blocks.live ∧
      ((m.parsePesHeader k found).owned (ks ++ [k])).length =
        (m.owned ks).length + (1 + found.toNat) := by
  refine ⟨?_, ?_, ?_⟩
  · cases found with
    | false => rfl
    | true => exact m.blocks.card_live_alloc
  · cases found with
    | false => exact subset_rfl
    | true => exact Finset.subset_insert ..
  · rw [owned_append, owned_parsePesHeader found hk, owned_cons, owned_nil,
      segmentBlocks_parsePesHeader, List.append_nil, List.length_append]
    cases found <;> rfl

/-- Nothing but `writeSegment` asks whether a segment fits. -/
theorem Holds.withFits (hm : Holds others m ks spare) (fits : ℕ → Bool) :
    Holds others { m with fits } ks spare :=
  ⟨hm.list, hm.nodup, hm.live, hm.url_lt, hm.kept, hm.apart⟩

/-- What is kept of the next packet. -/
theorem fits_parsed {segments : List Segment} {segment : Segment}
    (hfits : ks.map m.fits = segments.map fun s => decide s.PatchesFit) (hk : k ∉ ks) :
    (ks ++ [k]).map (m.parsed k segment).fits =
      (segments ++ [segment]).map fun s => decide s.PatchesFit := by
  have hold : ks.map (m.parsed k segment).fits = ks.map m.fits :=
    List.map_congr_left fun j hj => Function.update_of_ne (ne_of_mem_of_not_mem hj hk) ..
  have hnew : (m.parsed k segment).fits k = decide segment.PatchesFit := Function.update_self ..
  rw [List.map_append, List.map_append, hold, hfits, List.map_singleton, List.map_singleton, hnew]

/-- What the loop makes of a list and one spare segment: the list of the segments that are read,
each with its blocks, and one spare segment again. -/
theorem readLoop_eq (stale : ℕ → Stale) (segments : List Segment) (fd : List Byte)
    (hm : Holds others m ks [current]) (hlen : segments.length = ks.length)
    (hfits : ks.map m.fits = segments.map fun s => decide s.PatchesFit) :
    ∃ m' ks', m.readLoop stale ks.length current fd =
        some (m', (MpegtsReader.readLoop stale segments fd).2) ∧
      Holds others m' ks' [] ∧ m'.url = m.url ∧ m.blocks.live ⊆ m'.blocks.live ∧
      ks'.map m'.fits =
        (MpegtsReader.readLoop stale segments fd).1.map (fun s => decide s.PatchesFit) ∧
      (m'.owned ks').length + blockCount segments =
        (m.owned ks).length + blockCount (MpegtsReader.readLoop stale segments fd).1 ∧
      m'.blocks.live.card + (m.owned ks).length =
        m.blocks.live.card + (m'.owned ks').length := by
  induction hfd : fd.length using Nat.strong_induction_on generalizing m ks current segments fd with
  | h N ih =>
    have huse : m.blocks.use current = some () :=
      Blocks.use_of_mem (hm.live current (List.mem_append_right _ List.mem_cons_self))
    cases hparse : parseTsSegment (stale ks.length) fd with
    | eof =>
      rw [MpegtsReader.readLoop_eof (hlen ▸ hparse)]
      exact ⟨m, ks, readLoop_eof huse hparse, hm.drop, rfl, subset_rfl, hfits, rfl, rfl⟩
    | failed err =>
      rw [MpegtsReader.readLoop_failed (hlen ▸ hparse)]
      exact ⟨m, ks, readLoop_failed huse hparse, hm.drop, rfl, subset_rfl, hfits, rfl, rfl⟩
    | parsed segment rest =>
      rw [MpegtsReader.readLoop_parsed (hlen ▸ hparse)]
      obtain ⟨hpacket, rfl⟩ := parseTsSegment_parsed hparse
      have hcurrent : current ∉ ks := fun hk =>
        (List.nodup_append.mp (List.nodup_cons.mp hm.nodup).2).2.2 current (mem_owned hk) current
          (List.mem_singleton_self current) rfl
      obtain ⟨hcard, hsub, hcount⟩ :=
        counts_parsePesHeader (m := m) segment.pesHeader.isSome hcurrent
      obtain ⟨links, hput, hm'⟩ := ((hm.parsePesHeader segment.pesHeader.isSome).withFits
        (m.parsed current segment).fits).putTail
      obtain ⟨m', ks', heq, hm'', hurl, hsub', hfits', howned, hcard'⟩ :=
        ih (fd.drop 188).length (by rw [List.length_drop]; omega) (segments ++ [segment])
          (fd.drop 188) hm'.newSegment (by simp [hlen]) (fits_parsed hfits hcurrent) rfl
      -- `newSegment` allocates and leaves the rest as it is
      have hurl : m'.url = (m.parsePesHeader current segment.pesHeader.isSome).url := hurl
      have hsub' : (m.parsePesHeader current segment.pesHeader.isSome).blocks.alloc.live ⊆
          m'.blocks.live := hsub'
      have howned : (m'.owned ks').length + blockCount (segments ++ [segment]) =
          ((m.parsePesHeader current segment.pesHeader.isSome).owned (ks ++ [current])).length +
            blockCount _ := howned
      have hcard' : m'.blocks.live.card +
          ((m.parsePesHeader current segment.pesHeader.isSome).owned (ks ++ [current])).length =
            (m.parsePesHeader current segment.pesHeader.isSome).blocks.alloc.live.card +
              (m'.owned ks').length := hcard'
      rw [blockCount_concat, hcount] at howned
      rw [Blocks.card_live_alloc, hcard, hcount] at hcard'
      refine ⟨m', ks', ?_, hm'', ?_, ?_, hfits', ?_, by omega⟩
      · have hput : (m.parsed current segment).putTail current = _ := hput
        rw [readLoop_parsed huse hparse, hput, Option.bind_some, ← heq, List.length_append]
        rfl
      · rw [hurl]
        cases segment.pesHeader.isSome <;> rfl
      · exact hsub.trans ((Finset.subset_insert ..).trans hsub')
      · cases hfound : segment.pesHeader.isSome
        · simp only [hfound, Bool.toNat_false, Bool.false_eq_true, if_false] at howned
          omega
        · simp only [hfound, Bool.toNat_true, if_true] at howned
          omega

/-! ## The calls -/

theorem Holds.init {g : StreamMemory} (hg : others ⊆ g.blocks.live) :
    Holds others g.mpegtsStreamInit [] [] where
  list := ⟨none, holds_entryInit g.links none, fun h => (h rfl).elim⟩
  nodup := List.nodup_singleton _
  live := nofun
  url_lt := Nat.lt_succ_self _
  kept b hb := Blocks.mem_live_alloc.mpr (.inr (hg hb))
  apart b hb := by
    obtain rfl := List.mem_singleton.mp hb
    exact fun hmem => g.blocks.count_notMem_live (hg hmem)

/-- A new list, and a spare segment. The segments of the old list are forgotten. -/
theorem Holds.startReading (hm : Holds others m ks []) :
    Holds others m.entryInit.newSegment [] [m.blocks.count] := by
  refine Holds.newSegment ⟨⟨none, holds_entryInit m.links none, fun h => (h rfl).elim⟩,
    List.nodup_singleton _, nofun, hm.url_lt, hm.kept, fun b hb => ?_⟩
  obtain rfl := List.mem_singleton.mp hb
  exact hm.apart _ List.mem_cons_self

/-- `mpegts_stream_read_segment` allocates the blocks of the segments that are read, and another. -/
theorem Holds.read (hm : Holds others m ks []) (hurl : m.url ∈ m.blocks.live)
    (stale : ℕ → Stale) (fd : List Byte) :
    (∀ err, (MpegtsReader.readLoop stale [] fd).2 = some err →
      m.mpegtsStreamReadSegment stale (some fd) = some (.error err)) ∧
    ((MpegtsReader.readLoop stale [] fd).2 = none → ∃ m' ks',
      m.mpegtsStreamReadSegment stale (some fd) = some (.ok m') ∧ Holds others m' ks' [] ∧
      m'.url ∈ m'.blocks.live ∧
      ks'.all m'.fits =
        (MpegtsReader.readLoop stale [] fd).1.all (fun s => decide s.PatchesFit) ∧
      (m'.owned ks').length = blockCount (MpegtsReader.readLoop stale [] fd).1 ∧
      m'.blocks.live.card = m.blocks.live.card + 1 + (m'.owned ks').length) := by
  obtain ⟨m', ks', heq, hm', hurl', hsub, hfits, howned, hcard⟩ :=
    readLoop_eq stale [] fd hm.startReading rfl rfl
  have hloop : m.entryInit.newSegment.readLoop stale 0 m.blocks.count fd =
      some (m', (MpegtsReader.readLoop stale [] fd).2) := heq
  have hopen := Blocks.use_of_mem hurl
  have howned : (m'.owned ks').length = blockCount (MpegtsReader.readLoop stale [] fd).1 := by
    simpa [blockCount] using howned
  have hcard : m'.blocks.live.card = m.blocks.alloc.live.card + (m'.owned ks').length := hcard
  constructor
  · intro err herr
    rw [herr] at hloop
    simp only [mpegtsStreamReadSegment, hopen, hloop, Option.bind_eq_bind, Option.bind_some]
    rfl
  · intro hend
    rw [hend] at hloop
    refine ⟨m', ks', ?_, hm', ?_, ?_, howned, by rw [hcard, Blocks.card_live_alloc]⟩
    · simp [mpegtsStreamReadSegment, hopen, hloop, hm'.useSegments false]
    · rw [hurl']
      exact hsub (Blocks.mem_live_alloc.mpr (.inr hurl))
    · have hall := congrArg (List.all · id) hfits
      simpa only [List.all_map, Function.id_comp] using hall

theorem Holds.free (hm : Holds others m ks []) :
    (m.url ∉ m.blocks.live → m.mpegtsStreamFree = none) ∧
    (m.url ∈ m.blocks.live → ∃ m', m.mpegtsStreamFree = some m' ∧ Holds others m' [] [] ∧
      m'.url ∉ m'.blocks.live ∧
      m'.blocks.live.card + (m.owned ks).length + 1 = m.blocks.live.card) := by
  obtain ⟨t, hlist, -⟩ := hm.list
  obtain ⟨hurl, hnodup⟩ := List.nodup_cons.mp hm.nodup
  have hlive := hm.live
  rw [List.append_nil] at hurl hnodup hlive
  obtain ⟨links, blocks, hloop, hlist', hfree⟩ :=
    freeLoop_eq hlist hnodup hlive (Nat.lt_succ_of_le hm.length_le)
  obtain ⟨blocks', heq, hlive', hcount⟩ := Blocks.freeAll_eq hnodup hlive
  obtain rfl : blocks' = blocks := Option.some.inj (heq.symm.trans hfree)
  have hmem : m.url ∈ blocks'.live ↔ m.url ∈ m.blocks.live := by
    rw [hlive', Finset.mem_sdiff, List.mem_toFinset, and_iff_left hurl]
  constructor
  · intro hdead
    simp [mpegtsStreamFree, hloop, freeBlock, Blocks.free, mt hmem.mp hdead]
  · intro hmem'
    have hblock := Blocks.free_of_mem (hmem.mpr hmem')
    refine ⟨{ m with links := links, blocks := blocks'.erase m.url }, ?_, ?_, ?_, ?_⟩
    · simp [mpegtsStreamFree, hloop, freeBlock, hblock]
    · refine ⟨⟨t, hlist', fun h => (h rfl).elim⟩, List.nodup_singleton _, nofun, ?_, ?_, ?_⟩
      · exact hcount ▸ hm.url_lt
      · intro b hb
        have hother : b ∉ m.url :: (m.owned ks ++ []) := fun hmem => hm.apart b hmem hb
        rw [List.append_nil, List.mem_cons, not_or] at hother
        refine Finset.mem_erase.mpr ⟨hother.1, ?_⟩
        rw [hlive']
        exact Finset.mem_sdiff.mpr ⟨hm.kept hb, mt List.mem_toFinset.mp hother.2⟩
      · intro b hb
        obtain rfl := List.mem_singleton.mp hb
        exact hm.apart _ List.mem_cons_self
    · exact Finset.notMem_erase _ _
    · have hsub : (m.owned ks).toFinset ⊆ m.blocks.live := fun b hb =>
        hlive b (List.mem_toFinset.mp hb)
      have hcard := Finset.card_sdiff_add_card_eq_card hsub
      rw [← hlive', List.toFinset_card_of_nodup hnodup] at hcard
      have herase := Finset.card_erase_add_one (hmem.mpr hmem')
      have hgoal : (blocks'.live.erase m.url).card + (m.owned ks).length + 1 =
          m.blocks.live.card := by omega
      exact hgoal

end StreamMemory

end MpegtsReader
