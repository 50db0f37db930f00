import MpegtsReader.AvlHeapTurns

/-!
# Insertion in memory

Where `insert_rc` on trees has a result, `insert_rc` on pointers has it in memory, as soon as the
fuel is more than the number of nodes: it stores to the nodes of the tree and the item only.
-/

namespace MpegtsReader

namespace AvlHeap

open AvlTree

variable {α κ : Type} {h h' : AvlHeap α κ} {p pl pr : Option α} {t t' d l l' r r' : AvlTree α κ}
  {a c item : α} {k key : κ} {v bal : ℤ} {S : List α} {dir dir' : UInt8} {isSet : Bool}
  {replaced replaced' : AvlTree α κ}

theorem leansRight_eq (ht : Holds h (some c) t) : h.leansRight bal c = t.leansRight bal := by
  have hl := ht.left
  have hr := ht.right
  unfold leansRight
  generalize h.left c = pl at hl ⊢
  generalize h.right c = pr at hr ⊢
  rcases t with _ | ⟨_ | ⟨ll, y, ky, vy, lr⟩, x, k, v, _ | ⟨rl, z, kz, vz, rr⟩⟩
  · cases ht
  · obtain rfl := hl
    obtain rfl := Option.some.inj ht.1
    simp [AvlTree.leansRight, ht.height_eq]
  · obtain rfl := hl
    obtain rfl := Option.some.inj ht.1
    simp [AvlTree.leansRight, ht.height_eq]
  · obtain ⟨rfl, -, _, _, hy, -⟩ := hl
    obtain rfl := hr
    rfl
  · obtain ⟨rfl, -, _, _, hy, -⟩ := hl
    obtain ⟨rfl, -, _, _, hz, -⟩ := hr
    simp [AvlTree.leansRight, height?, height, hy, hz]

theorem leansLeft_eq (ht : Holds h (some c) t) : h.leansLeft bal c = t.leansLeft bal := by
  have hl := ht.left
  have hr := ht.right
  unfold leansLeft
  generalize h.left c = pl at hl ⊢
  generalize h.right c = pr at hr ⊢
  rcases t with _ | ⟨_ | ⟨ll, y, ky, vy, lr⟩, x, k, v, _ | ⟨rl, z, kz, vz, rr⟩⟩
  · cases ht
  · obtain rfl := hl
    obtain rfl := hr
    rfl
  · obtain rfl := hl
    obtain ⟨rfl, -⟩ := hr
    rfl
  · obtain ⟨rfl, -, _, _, hy, -⟩ := hl
    obtain rfl := hr
    simp [AvlTree.leansLeft, height?, height, hy]
  · obtain ⟨rfl, -, _, _, hy, -⟩ := hl
    obtain ⟨rfl, -, _, _, hz, -⟩ := hr
    simp [AvlTree.leansLeft, height?, height, hy, hz]

variable [DecidableEq α]

omit [DecidableEq α] in
/-- A rotation that is made or not. -/
theorem exists_lean {lean : Option Bool} {turned : AvlHeap α κ × Option α}
    (hturned : Makes h turned.1 S turned.2 t') (hkept : Makes h h S p t)
    (heq : (do let b ← lean; some (if b then t' else t)) = some l) :
    ∃ h' p', (do let b ← lean; some (if b then turned else (h, p))) = some (h', p') ∧
      Makes h h' S p' l := by
  rcases lean with _ | _ | _
  · cases heq
  · obtain rfl := Option.some.inj heq
    exact ⟨h, p, rfl, hkept⟩
  · obtain rfl := Option.some.inj heq
    exact ⟨turned.1, turned.2, rfl, hturned⟩

theorem exists_switchPattern (ht : Holds h (some c) t) (heq : t.switchPattern bal dir = some t') :
    ∃ h' p, h.switchPattern bal dir c = some (h', p) ∧ Makes h h' t.items p t' := by
  have hkept : Makes h h t.items (some c) t := ht.makes
  rcases t with _ | ⟨l, x, k, v, r⟩
  · cases ht
  obtain rfl := Option.some.inj ht.1
  unfold AvlTree.switchPattern at heq
  unfold switchPattern
  rw [leansRight_eq ht, leansLeft_eq ht]
  split_ifs at heq ⊢
  · exact exists_lean (makes_doubleLeft ht) hkept heq
  · exact exists_lean (makes_rotateLeft ht) hkept heq
  · exact exists_lean (makes_rotateRight ht) hkept heq
  · exact exists_lean (makes_doubleRight ht) hkept heq
  · obtain rfl := Option.some.inj heq
    exact ⟨h, some c, rfl, hkept⟩

/-- The node that the recursive call on the left has returned is stored, and the rotation. -/
theorem exists_backFromLeft (ht : Holds h (some c) (node l c k v r)) (hm : Yields h h' S pl l' d)
    (hS : ∀ a ∈ S, a ≠ c ∧ a ∉ r.items)
    (heq : AvlTree.backFromLeft bal c k r (l', dir, replaced) = some (t', dir', replaced')) :
    replaced' = replaced ∧ ∃ h'' p', h'.backFromLeft bal c pl dir = some (h'', p', dir') ∧
      Yields h h'' (r.items ++ c :: S) p' t' d := by
  have hstore := Yields.storeLeft ht hm hS
  cases l' with
  | nil => cases heq
  | node ll y ky vy lr =>
    obtain ⟨t'', hswitch, hres⟩ := Option.bind_eq_some_iff.mp heq
    cases hres
    obtain rfl := hm.holds.1
    have hleft : (h'.setLeft c (some y)).left c = some y := by simp [left, setLeft]
    have hheight : (h'.setLeft c (some y)).height y = vy := by
      have hl : Holds (h'.setLeft c (some y)) _ (node ll y ky vy lr) := hstore.holds.left
      exact hl.height_eq
    have hset := hstore.trans (makes_setHeight hstore.holds (vy + 1))
    obtain ⟨h'', p', hheap, hmakes⟩ := exists_switchPattern hset.holds hswitch
    refine ⟨rfl, h'', p', ?_, hset.trans hmakes⟩
    rw [← hheight] at hheap
    simp only [backFromLeft, hleft, Option.bind_eq_bind, Option.bind_some, hheap]

theorem exists_backFromRight (ht : Holds h (some c) (node l c k v r)) (hm : Yields h h' S pr r' d)
    (hS : ∀ a ∈ S, a ≠ c ∧ a ∉ l.items)
    (heq : AvlTree.backFromRight bal l c k (r', dir, replaced) = some (t', dir', replaced')) :
    replaced' = replaced ∧ ∃ h'' p', h'.backFromRight bal c pr dir = some (h'', p', dir') ∧
      Yields h h'' (l.items ++ c :: S) p' t' d := by
  have hstore := Yields.storeRight ht hm hS
  cases r' with
  | nil => cases heq
  | node rl y ky vy rr =>
    obtain ⟨t'', hswitch, hres⟩ := Option.bind_eq_some_iff.mp heq
    cases hres
    obtain rfl := hm.holds.1
    have hright : (h'.setRight c (some y)).right c = some y := by simp [right, setRight]
    have hheight : (h'.setRight c (some y)).height y = vy := by
      have hr : Holds (h'.setRight c (some y)) _ (node rl y ky vy rr) := hstore.holds.right
      exact hr.height_eq
    have hset := hstore.trans (makes_setHeight hstore.holds (vy + 1))
    obtain ⟨h'', p', hheap, hmakes⟩ := exists_switchPattern hset.holds hswitch
    refine ⟨rfl, h'', p', ?_, hset.trans hmakes⟩
    rw [← hheight] at hheap
    simp only [backFromRight, hright, Option.bind_eq_bind, Option.bind_some, hheap]

/-- The item takes the place of a node. -/
theorem yields_takeLinks (hitem : h.key item = key) (ht : Holds h (some c) (node l c k v r))
    (hnew : item ∉ (node l c k v r).items) :
    Yields h (h.takeLinks c item) (item :: (node l c k v r).items) (some item)
      (node l item key v r) (node l c k v r) := by
  have hshown := ht.shows
  obtain ⟨-, hapart, pl, pr, hc, hl, hr⟩ := ht
  have hne : c ≠ item := by grind
  have hcell (a : α) : (h.takeLinks c item).cell a =
      if a = item then ⟨pl, pr, key, v⟩ else h.cell a := by
    simp only [takeLinks, setHeight, setRight, setLeft, cell_set, left, right, height, hc,
      if_neg hne]
    split_ifs with ha
    · simp [← hitem, AvlHeap.key]
    · rfl
  refine ⟨⟨⟨rfl, ?_, pl, pr, ?_, hl.congr ?_, hr.congr ?_⟩, ?_, ?_⟩, hshown.congr ?_, ?_⟩
  all_goals grind [pointer, top]

/-- **Insertion.** Where it has a result on trees, it has it in memory. -/
theorem exists_insertRc [LinearOrder κ] (hitem : h.cell item = ⟨none, none, key, 0⟩)
    (ht : Holds h p t) (hnew : item ∉ t.items)
    (heq : AvlTree.insertRc bal (AvlTree.cdslAvltreeNodeInit item key) dir isSet t =
      some (t', dir', replaced)) :
    ∃ h' p', (∀ fuel > t.items.length,
        insertRc bal item isSet fuel h p dir = some (h', p', dir', replaced.pointer)) ∧
      Yields h h' (item :: t.items) p' t' replaced := by
  induction t generalizing p t' dir' replaced with
  | nil =>
    obtain rfl := ht
    cases heq
    have hleaf : Holds h (some item) (AvlTree.cdslAvltreeNodeInit item key) :=
      ⟨rfl, ⟨nofun, nofun, nofun⟩, none, none, hitem, rfl, rfl⟩
    refine ⟨h.setHeight item 1, some item, fun fuel hfuel => ?_, (makes_setHeight hleaf 1).yields⟩
    obtain ⟨fuel, rfl⟩ := Nat.exists_eq_add_one_of_ne_zero (Nat.ne_zero_of_lt hfuel)
    rfl
  | node l c k v r ihl ihr =>
    have hapart := ht.2.1
    obtain rfl := ht.1
    have hkey := ht.key_eq
    have hitemKey : h.key item = key := congrArg AvlCell.key hitem
    have hnews : item ∉ l.items ∧ item ≠ c ∧ item ∉ r.items := by grind
    -- on the left, which is also where an equal key goes
    have hleft (heq : (AvlTree.insertRc bal (AvlTree.cdslAvltreeNodeInit item key) dir isSet
        l).bind (AvlTree.backFromLeft bal c k r) = some (t', dir', replaced)) :
        ∃ h' p', (∀ fuel > l.items.length, ((insertRc bal item isSet fuel h (h.left c) dir).bind
          fun r => (r.1.backFromLeft bal c r.2.1 r.2.2.1).bind
            fun s => some (s.1, s.2.1, s.2.2, r.2.2.2)) = some (h', p', dir', replaced.pointer)) ∧
        Yields h h' (item :: (node l c k v r).items) p' t' replaced := by
      obtain ⟨⟨l', dir₁, replaced₁⟩, hrec, hback⟩ := Option.bind_eq_some_iff.mp heq
      obtain ⟨h₁, pl, hheap, hyields⟩ := ihl ht.left hnews.1 hrec
      obtain ⟨rfl, h₂, p', hheap', hyields'⟩ := exists_backFromLeft ht hyields (by grind) hback
      refine ⟨h₂, p', fun fuel hfuel => ?_, hyields'.mono (by grind)⟩
      simp only [hheap fuel hfuel, hheap', Option.bind_some]
    simp only [AvlTree.insertRc, AvlTree.cdslAvltreeNodeInit, top, Option.bind_eq_bind,
      Option.bind_some] at heq
    split_ifs at heq with hgt hlt hset
    · obtain ⟨h', p', hheap, hyields⟩ := hleft heq
      refine ⟨h', p', fun fuel hfuel => ?_, hyields⟩
      obtain ⟨fuel, rfl⟩ := Nat.exists_eq_add_one_of_ne_zero (Nat.ne_zero_of_lt hfuel)
      rw [insertRc, hkey, hitemKey, if_pos hgt]
      exact hheap fuel (length_left_lt hfuel)
    · obtain ⟨⟨r', dir₁, replaced₁⟩, hrec, hback⟩ := Option.bind_eq_some_iff.mp heq
      obtain ⟨h₁, pr, hheap, hyields⟩ := ihr ht.right hnews.2.2 hrec
      obtain ⟨rfl, h₂, p', hheap', hyields'⟩ := exists_backFromRight ht hyields (by grind) hback
      refine ⟨h₂, p', fun fuel hfuel => ?_, hyields'.mono (by grind)⟩
      obtain ⟨fuel, rfl⟩ := Nat.exists_eq_add_one_of_ne_zero (Nat.ne_zero_of_lt hfuel)
      rw [insertRc, hkey, hitemKey, if_neg hgt, if_pos hlt, hheap fuel (length_right_lt hfuel)]
      simp only [hheap', Option.bind_eq_bind, Option.bind_some]
    · cases heq
      refine ⟨_, _, fun fuel hfuel => ?_, yields_takeLinks hitemKey ht hnew⟩
      obtain ⟨fuel, rfl⟩ := Nat.exists_eq_add_one_of_ne_zero (Nat.ne_zero_of_lt hfuel)
      rw [insertRc, hkey, hitemKey, if_neg hgt, if_neg hlt, if_pos hset]
      rfl
    · obtain ⟨h', p', hheap, hyields⟩ := hleft heq
      refine ⟨h', p', fun fuel hfuel => ?_, hyields⟩
      obtain ⟨fuel, rfl⟩ := Nat.exists_eq_add_one_of_ne_zero (Nat.ne_zero_of_lt hfuel)
      rw [insertRc, hkey, hitemKey, if_neg hgt, if_neg hlt, if_neg hset]
      exact hheap fuel (length_left_lt hfuel)

end AvlHeap

end MpegtsReader
