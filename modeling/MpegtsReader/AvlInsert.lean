import MpegtsReader.AvlOrder

/-!
# Insertion in an AVL tree

`insert_rc` inserts a node in the sequence of nodes, on whatever heights are stored. What it does on
the way back is a rotation or nothing, and it reads the height of a child on the side that it went
to only: the direction that was taken last is part of the pattern.
-/

namespace MpegtsReader

namespace AvlTree

open OrderedBag

variable {ν κ : Type} {t l r : AvlTree ν κ} {x : ν} {k : κ}

/-! ## The way back -/

/-- The direction that was taken last is in the pattern. -/
theorem pattern_and {last : UInt8} (dir : UInt8) (hlast : patternMask &&& last = last) :
    (dir ||| last) &&& patternMask &&& last = last := by
  have habsorb : (dir ||| last) &&& last = last := by
    refine UInt8.eq_of_toBitVec_eq (BitVec.eq_of_getElem_eq fun i hi => ?_)
    simp only [UInt8.toBitVec_and, UInt8.toBitVec_or, BitVec.getElem_and, BitVec.getElem_or]
    cases last.toBitVec[i] <;> simp
  rw [UInt8.and_assoc, hlast, habsorb]

theorem exists_leansRight (bal : ℤ) (ht : t.right ≠ nil) :
    ∃ lean, t.leansRight bal = some lean := by
  rcases t with _ | ⟨_ | ⟨ll, y, ky, hl, lr⟩, x, k, h, _ | ⟨rl, z, kz, hr, rr⟩⟩
  · exact (ht rfl).elim
  · exact (ht rfl).elim
  · exact ⟨_, rfl⟩
  · exact (ht rfl).elim
  · exact ⟨_, rfl⟩

theorem exists_leansLeft (bal : ℤ) (ht : t.left ≠ nil) :
    ∃ lean, t.leansLeft bal = some lean := by
  rcases t with _ | ⟨_ | ⟨ll, y, ky, hl, lr⟩, x, k, h, _ | ⟨rl, z, kz, hr, rr⟩⟩
  · exact (ht rfl).elim
  · exact (ht rfl).elim
  · exact (ht rfl).elim
  · exact ⟨_, rfl⟩
  · exact ⟨_, rfl⟩

/-- The height of a child is read on the side that the insertion went to. -/
theorem exists_switchPattern (bal : ℤ) {dir : UInt8}
    (hside : dir &&& patternMask &&& dirLeft = dirLeft ∧ t.left ≠ nil ∨
      dir &&& patternMask &&& dirRight = dirRight ∧ t.right ≠ nil) :
    ∃ t', t.switchPattern bal dir = some t' ∧ Rearranges t t' := by
  have hne : t ≠ nil := by
    rintro rfl
    exact hside.elim (·.2 rfl) (·.2 rfl)
  obtain ⟨l, x, k, h, r, rfl⟩ : ∃ l x k h r, t = node l x k h r := by
    cases t with
    | nil => exact (hne rfl).elim
    | node l x k h r => exact ⟨l, x, k, h, r, rfl⟩
  unfold switchPattern
  split_ifs with hrl hrr hll hlr
  · rw [hrl] at hside
    obtain ⟨lean, hlean⟩ := exists_leansRight bal (hside.resolve_left fun h => nomatch h.1).2
    rw [hlean]
    exact ⟨_, rfl, ((rearranges_rotateRight r).node_right.trans (rearranges_rotateLeft _)).ite⟩
  · rw [hrr] at hside
    obtain ⟨lean, hlean⟩ := exists_leansRight bal (hside.resolve_left fun h => nomatch h.1).2
    rw [hlean]
    exact ⟨_, rfl, (rearranges_rotateLeft _).ite⟩
  · rw [hll] at hside
    obtain ⟨lean, hlean⟩ := exists_leansLeft bal (hside.resolve_right fun h => nomatch h.1).2
    rw [hlean]
    exact ⟨_, rfl, (rearranges_rotateRight _).ite⟩
  · rw [hlr] at hside
    obtain ⟨lean, hlean⟩ := exists_leansLeft bal (hside.resolve_right fun h => nomatch h.1).2
    rw [hlean]
    exact ⟨_, rfl, ((rearranges_rotateLeft l).node_left.trans (rearranges_rotateRight _)).ite⟩
  · exact ⟨_, rfl, .refl _⟩

section Back

variable [LinearOrder κ] {item : ν × κ} {isSet : Bool} {l' r' replaced : AvlTree ν κ}

theorem exists_backFromLeft (bal h : ℤ) (dir : UInt8)
    (hins : Insertion Prod.snd item isSet l.nodes replaced.top l'.nodes)
    (hlow : l.LowLeaves → l'.LowLeaves) (hle : ∀ b ∈ (x, k) :: r.nodes, item.2 ≤ b.2)
    (hnew : isSet = true → ∀ b ∈ (x, k) :: r.nodes, b.2 ≠ item.2) :
    ∃ t dir', backFromLeft bal x k r (l', dir, replaced) = some (t, dir', replaced) ∧
      Insertion Prod.snd item isSet (node l x k h r).nodes replaced.top t.nodes ∧
      ((node l x k h r).LowLeaves → t.LowLeaves) := by
  have hne : l' ≠ nil := mt nodes_eq_nil_iff.mpr hins.ne_nil
  obtain ⟨hl, hheight⟩ := exists_height hne
  obtain ⟨t, ht, hr⟩ := exists_switchPattern (t := node l' x k (hl + 1) r) bal
    (.inl ⟨pattern_and dir rfl, hne⟩)
  refine ⟨t, (dir ||| dirLeft) <<< 2, ?_, ?_, fun h => hr.low ?_⟩
  · simp [backFromLeft, hheight, ht]
  · rw [hr.nodes]
    exact hins.left hle hnew
  · exact LowBelow.lowLeaves ⟨hlow h.2.1, h.2.2⟩ (.inl hne)

theorem exists_backFromRight (bal h : ℤ) (dir : UInt8)
    (hins : Insertion Prod.snd item isSet r.nodes replaced.top r'.nodes)
    (hlow : r.LowLeaves → r'.LowLeaves) (hlt : ∀ b ∈ l.nodes ++ [(x, k)], b.2 < item.2) :
    ∃ t dir', backFromRight bal l x k (r', dir, replaced) = some (t, dir', replaced) ∧
      Insertion Prod.snd item isSet (node l x k h r).nodes replaced.top t.nodes ∧
      ((node l x k h r).LowLeaves → t.LowLeaves) := by
  have hne : r' ≠ nil := mt nodes_eq_nil_iff.mpr hins.ne_nil
  obtain ⟨hr, hheight⟩ := exists_height hne
  obtain ⟨t, ht, hr₁⟩ := exists_switchPattern (t := node l x k (hr + 1) r') bal
    (.inr ⟨pattern_and dir rfl, hne⟩)
  refine ⟨t, (dir ||| dirRight) <<< 2, ?_, ?_, fun h => hr₁.low ?_⟩
  · simp [backFromRight, hheight, ht]
  · rw [hr₁.nodes, nodes_node, nodes_node, List.append_cons l.nodes (x, k) r.nodes,
      List.append_cons l.nodes (x, k) r'.nodes]
    exact hins.right hlt
  · exact LowBelow.lowLeaves ⟨h.2.1, hlow h.2.2⟩ (.inr hne)

end Back

/-! ## The insertion -/

/-- An insertion is an insertion in the sequence of nodes. -/
theorem exists_insertRc [LinearOrder κ] (bal : ℤ) (y : ν) (key : κ) (dir : UInt8) (isSet : Bool)
    (ht : t.InOrder) :
    ∃ t' dir' replaced, insertRc bal (cdslAvltreeNodeInit y key) dir isSet t =
        some (t', dir', replaced) ∧
      Insertion Prod.snd (y, key) isSet t.nodes replaced.top t'.nodes ∧
      (t.LowLeaves → t'.LowLeaves) := by
  induction t with
  | nil =>
    exact ⟨_, _, _, rfl, .add (l := []) (m := []) nofun nofun fun _ => nofun,
      fun _ => ⟨fun _ _ => le_refl _, trivial, trivial⟩⟩
  | node l x k h r ihl ihr =>
    obtain ⟨l', dirl, replacedl, hl', hinsl, hlowl⟩ := ihl ht.left
    rw [cdslAvltreeNodeInit] at hl'
    rcases lt_trichotomy key k with hlt | rfl | hgt
    · have hlt' := ht.lt_of_lt hlt
      obtain ⟨t', dir', heq, hback⟩ := exists_backFromLeft bal h dirl hinsl hlowl
        (fun b hb => (hlt' b hb).le) fun _ b hb => (hlt' b hb).ne'
      refine ⟨t', dir', replacedl, ?_, hback⟩
      rw [← heq]
      simp [insertRc, cdslAvltreeNodeInit, top, hlt, hl']
    · cases isSet with
      | true =>
        refine ⟨node l y key h r, dir, node l x key h r, ?_, .swap rfl rfl, id⟩
        simp [insertRc, cdslAvltreeNodeInit, top, setLinks]
      | false =>
        obtain ⟨t', dir', heq, hback⟩ := exists_backFromLeft (x := x) bal h dirl hinsl hlowl
          (List.forall_mem_cons.mpr ⟨le_rfl, (ordered_middle.mp ht).2.2.2⟩) nofun
        refine ⟨t', dir', replacedl, ?_, hback⟩
        rw [← heq]
        simp [insertRc, cdslAvltreeNodeInit, top, hl']
    · obtain ⟨r', dirr, replacedr, hr', hinsr, hlowr⟩ := ihr ht.right
      rw [cdslAvltreeNodeInit] at hr'
      obtain ⟨t', dir', heq, hback⟩ := exists_backFromRight bal h dirr hinsr hlowr
        (ht.gt_of_gt hgt)
      refine ⟨t', dir', replacedr, ?_, hback⟩
      rw [← heq]
      simp [insertRc, cdslAvltreeNodeInit, top, hgt, hgt.le, hr']

end AvlTree

end MpegtsReader
