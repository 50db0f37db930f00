import Mathlib.Data.Finset.Card

/-!
# Blocks of memory

Blocks are handed out under numbers that do not come back, and given back one by one. There is no
result when a block is used or given back that is not live. A list of live blocks, each in it once,
is given back in one go (`freeAll_eq`).
-/

/-- The blocks that have been handed out so far, and those of them that are live. -/
structure Blocks where
  count : ℕ
  live : Finset ℕ
  lt_count : ∀ b ∈ live, b < count

namespace Blocks

variable {m : Blocks} {b : ℕ} {bs : List ℕ}

/-- Hand out the block `m.count`. -/
def alloc (m : Blocks) : Blocks where
  count := m.count + 1
  live := insert m.count m.live
  lt_count b hb := by
    rcases Finset.mem_insert.mp hb with rfl | hb
    · exact Nat.lt_succ_self _
    · exact Nat.lt_succ_of_lt (m.lt_count b hb)

/-- Read or write a block. -/
def use (m : Blocks) (b : ℕ) : Option Unit := if b ∈ m.live then some () else none

/-- The other blocks. -/
def erase (m : Blocks) (b : ℕ) : Blocks where
  count := m.count
  live := m.live.erase b
  lt_count c hc := m.lt_count c (Finset.mem_of_mem_erase hc)

/-- Give a block back. -/
def free (m : Blocks) (b : ℕ) : Option Blocks := if b ∈ m.live then some (m.erase b) else none

@[simp] theorem count_alloc (m : Blocks) : m.alloc.count = m.count + 1 := rfl

@[simp] theorem count_erase (m : Blocks) (b : ℕ) : (m.erase b).count = m.count := rfl

theorem count_notMem_live (m : Blocks) : m.count ∉ m.live :=
  fun hmem => (m.lt_count _ hmem).false

theorem mem_live_alloc : b ∈ m.alloc.live ↔ b = m.count ∨ b ∈ m.live := Finset.mem_insert

theorem card_live_alloc (m : Blocks) : m.alloc.live.card = m.live.card + 1 :=
  Finset.card_insert_of_notMem m.count_notMem_live

theorem use_of_mem (hb : b ∈ m.live) : m.use b = some () := if_pos hb

theorem free_of_mem (hb : b ∈ m.live) : m.free b = some (m.erase b) := if_pos hb

/-- Nothing is done with a block that is not live. -/
theorem use_eq_none_iff : m.use b = none ↔ b ∉ m.live := by
  unfold use
  split_ifs with hb
  · exact iff_of_false nofun (not_not.mpr hb)
  · exact iff_of_true rfl hb

/-- Give back the blocks, in order. -/
def freeAll (m : Blocks) (bs : List ℕ) : Option Blocks := bs.foldlM free m

theorem freeAll_cons (hb : b ∈ m.live) : m.freeAll (b :: bs) = (m.erase b).freeAll bs := by
  rw [freeAll, List.foldlM_cons, free_of_mem hb]
  rfl

theorem freeAll_append (m : Blocks) (bs cs : List ℕ) :
    m.freeAll (bs ++ cs) = (m.freeAll bs).bind (freeAll · cs) := List.foldlM_append

theorem freeAll_eq (hnodup : bs.Nodup) (hlive : ∀ b ∈ bs, b ∈ m.live) :
    ∃ m', m.freeAll bs = some m' ∧ m'.live = m.live \ bs.toFinset ∧ m'.count = m.count := by
  induction bs generalizing m with
  | nil => exact ⟨m, rfl, by simp, rfl⟩
  | cons b bs ih =>
    obtain ⟨hb, hnodup⟩ := List.nodup_cons.mp hnodup
    obtain ⟨m', heq, hm', hcount⟩ := ih (m := m.erase b) hnodup fun c hc =>
      Finset.mem_erase.mpr ⟨ne_of_mem_of_not_mem hc hb, hlive c (List.mem_cons_of_mem b hc)⟩
    refine ⟨m', (freeAll_cons (hlive b List.mem_cons_self)).trans heq, ?_, hcount⟩
    rw [hm', List.toFinset_cons, Finset.sdiff_insert, erase, Finset.erase_sdiff_comm]

end Blocks
