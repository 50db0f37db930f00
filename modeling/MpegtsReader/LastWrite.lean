import Mathlib.Data.List.Induction
import Mathlib.Logic.Function.Basic

/-!
# A sequence of writes

Writes of values under keys, one after the other. A key that is not written keeps its value, and
one that is written has the value of its last write.
-/

namespace LastWrite

variable {κ ν : Type} [DecidableEq κ] {writes : List (κ × ν)} {k : κ}

/-- The store after the writes, in order. -/
def writeAll (store : κ → ν) (writes : List (κ × ν)) : κ → ν :=
  writes.foldl (fun store w => Function.update store w.1 w.2) store

theorem writeAll_concat (store : κ → ν) (writes : List (κ × ν)) (w : κ × ν) :
    writeAll store (writes ++ [w]) = Function.update (writeAll store writes) w.1 w.2 := by
  unfold writeAll
  rw [List.foldl_append]
  rfl

theorem writeAll_of_notMem (store : κ → ν) (h : k ∉ writes.map Prod.fst) :
    writeAll store writes k = store k := by
  induction writes using List.reverseRecOn with
  | nil => rfl
  | append_singleton writes w ih =>
    rw [List.map_append, List.mem_append, not_or] at h
    have hk : k ≠ w.1 := fun hk => h.2 (List.mem_singleton.mpr hk)
    rw [writeAll_concat, Function.update_of_ne hk, ih h.1]

/-- The last write of a key counts. -/
theorem exists_last_write (store : κ → ν) (h : k ∈ writes.map Prod.fst) :
    ∃ i : ℕ, writes[i]? = some (k, writeAll store writes k) ∧
      ∀ j > i, (writes.map Prod.fst)[j]? ≠ some k := by
  induction writes using List.reverseRecOn with
  | nil => cases h
  | append_singleton writes w ih =>
    have hbehind : ∀ j > writes.length, ((writes ++ [w]).map Prod.fst)[j]? ≠ some k := by
      intro j hj
      have hlen : ((writes ++ [w]).map Prod.fst).length = writes.length + 1 := by
        rw [List.length_map, List.length_append, List.length_singleton]
      rw [List.getElem?_eq_none (by rw [hlen]; exact hj)]
      nofun
    by_cases hw : w.1 = k
    · refine ⟨writes.length, ?_, hbehind⟩
      rw [List.getElem?_concat_length, writeAll_concat, ← hw, Function.update_self]
    · rw [List.map_append, List.mem_append] at h
      obtain ⟨i, hi, hlast⟩ := ih (h.resolve_right fun h => hw (List.mem_singleton.mp h).symm)
      have hlt : i < writes.length := (List.getElem?_eq_some_iff.mp hi).1
      refine ⟨i, ?_, fun j hj => ?_⟩
      · rw [List.getElem?_append_left hlt, hi, writeAll_concat, Function.update_of_ne (Ne.symm hw)]
      · rcases Nat.lt_trichotomy j writes.length with hlt | rfl | hgt
        · rw [List.map_append, List.getElem?_append_left (by simpa using hlt)]
          exact hlast j hj
        · rw [List.getElem?_map, List.getElem?_concat_length]
          exact fun h => hw (Option.some.inj h)
        · exact hbehind j hgt

end LastWrite
