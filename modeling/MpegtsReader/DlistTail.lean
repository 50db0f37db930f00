import MpegtsReader.DlistOps
import MpegtsReader.Transition

/-!
# The tail of a list

The tail of a list is to be its last node, and `NULL` when it has none. The operations that have no
entry cannot change it: they leave it stale when they touch the last node. Two that have the entry
forget it: `cdsl_dlistDequeue` when it takes the only node, which `cdsl_dlistRemoveHead` does not,
and `cdsl_dlistEnqueuePriority` in an empty list. `DlistOp.KeepsTail` is the exact condition
(`tailAfter_eq_iff`), and the tail is right in every run whose steps meet it (`tail_of_reachable`).
-/

namespace MpegtsReader

namespace Dlist

open Links

variable {α : Type} [DecidableEq α] {h h₀ : Links α} {e a : α} {l l₁ l₂ m : List α}

/-- The operation leaves the last node in the tail of a list with the nodes `l`. -/
def DlistOp.KeepsTail (l : List α) : DlistOp α → Prop
  | .enqueuePriority _ _ _ => l ≠ []
  | .insertAfter a _ | .remove a | .replace a _ => l.getLast? ≠ some a
  | .dequeue => l.length ≠ 1
  | .putHead _ | .putTail _ | .removeHead | .removeTail => True

/-! ## One operation -/

omit [DecidableEq α] in
/-- Other nodes in the place of `a`, the last of which is not `a`. -/
theorem getLast?_middle_iff (ha : a ∉ l₁ ++ l₂) (hm : (l₁ ++ m).getLast? ≠ some a) :
    (l₁ ++ a :: l₂).getLast? = (l₁ ++ (m ++ l₂)).getLast? ↔ (l₁ ++ a :: l₂).getLast? ≠ some a := by
  rcases List.eq_nil_or_concat' l₂ with rfl | ⟨l, y, rfl⟩
  · rw [List.getLast?_concat, List.append_nil]
    exact ⟨fun heq => (hm heq.symm).elim, fun hne => (hne rfl).elim⟩
  · have hy : y ≠ a := by
      rintro rfl
      exact ha (by simp)
    rw [← List.cons_append, ← List.append_assoc, ← List.append_assoc, ← List.append_assoc,
      List.getLast?_concat, List.getLast?_concat]
    exact ⟨fun _ heq => hy (Option.some.inj heq), fun _ => rfl⟩

/-- An operation leaves the tail right exactly under its condition. -/
theorem tailAfter_eq_iff {op : DlistOp α} (hop : op.Permitted e l) (hnodup : l.Nodup) :
    op.tailAfter l l.getLast? = (op.apply l).getLast? ↔ op.KeepsTail l := by
  cases op with
  | putHead item => exact iff_of_true (tailAfter_putHead fun _ => rfl) trivial
  | putTail item => exact iff_of_true (List.getLast?_concat ..).symm trivial
  | enqueuePriority item rule fuel =>
    show (if _ then some item else l.getLast?) = (_ ++ item :: _).getLast? ↔ l ≠ []
    have hlist := List.takeWhile_append_dropWhile (p := staysAhead rule item) (l := l)
    rcases List.eq_nil_or_concat' (l.dropWhile (staysAhead rule item)) with hnil | ⟨r, y, hy⟩
    · rw [hnil, List.getLast?_concat]
      by_cases hne : l ≠ []
      · exact iff_of_true (if_pos ⟨rfl, hne⟩) hne
      · rw [if_neg fun h => hne h.2, not_not.mp hne]
        exact iff_of_false nofun fun h => h rfl
    · have hlast : l.getLast? = some y := by
        rw [← hlist, hy, ← List.append_assoc, List.getLast?_concat]
      have hne : l ≠ [] := by
        rintro rfl
        cases hlast
      rw [if_neg (by simp [hy]), hy, ← List.cons_append, ← List.append_assoc, List.getLast?_concat]
      exact iff_of_true hlast hne
  | insertAfter ahead item =>
    obtain ⟨l₁, l₂, rfl, hnot⟩ := exists_split hnodup hop.1
    rw [apply_insertAfter hnot]
    refine getLast?_middle_iff (m := [ahead, item]) hnot fun heq => ?_
    rw [List.append_cons, List.getLast?_concat] at heq
    exact hop.2 (Option.some.inj heq ▸ by simp)
  | dequeue =>
    show l.getLast? = l.tail.getLast? ↔ l.length ≠ 1
    rw [List.getLast?_tail]
    split_ifs with hlen
    · rw [List.getLast?_eq_none_iff]
      exact iff_of_false (by rintro rfl; cases hlen) fun h => h hlen
    · exact iff_of_true rfl hlen
  | removeHead => exact iff_of_true List.getLast?_tail.symm trivial
  | removeTail => exact iff_of_true rfl trivial
  | remove item =>
    obtain ⟨l₁, l₂, rfl, hnot⟩ := exists_split hnodup hop
    rw [apply_remove hnot]
    refine getLast?_middle_iff (m := []) hnot fun heq => ?_
    rw [List.append_nil] at heq
    exact hnot (List.mem_append_left _ (List.mem_of_getLast? heq))
  | replace old nu =>
    obtain ⟨l₁, l₂, rfl, hnot⟩ := exists_split hnodup hop.1
    rw [apply_replace hnot]
    refine getLast?_middle_iff (m := [nu]) hnot fun heq => ?_
    rw [List.getLast?_concat] at heq
    exact hop.2 (Option.some.inj heq ▸ by simp)

/-! ## Runs -/

/-- The links after an operation. -/
def goDlist (e : α) (h : Links α) (op : DlistOp α) : Option (Links α) :=
  (dlistStep e h op).map Prod.fst

/-- The list at `e` is a list, and the operation is permitted and leaves its tail right. -/
def Careful (e : α) (h : Links α) (op : DlistOp α) : Prop :=
  ∃ l, Row h none (e :: l) ∧ op.Permitted e l ∧ op.KeepsTail l

/-- A list with the right tail meets what every operation needs of the tail. -/
theorem DlistHolds.step_last (hl : DlistHolds h e l l.getLast?) (op : DlistOp α)
    (hop : op.Permitted e l) :
    ∃ h', dlistStep e h op = some (h', op.returns l) ∧
      DlistHolds h' e (op.apply l) (op.tailAfter l l.getLast?) :=
  hl.step hop (fun _ => rfl) fun _ hnil => hnil ▸ rfl

theorem last_of_reachable
    (hreach : Transition.Reachable (goDlist e) (Careful e) (cdslDlistEntryInit h₀ (some e)) h) :
    ∃ l, DlistHolds h e l l.getLast? := by
  refine hreach.invariant (P := fun h => ∃ l, DlistHolds h e l l.getLast?)
    ⟨[], holds_entryInit h₀ e⟩ ?_
  intro h op h' hl hcareful hstep
  obtain ⟨l, hl⟩ := hl
  obtain ⟨l', hrow, hop, hkeeps⟩ := hcareful
  obtain rfl := row_unique hl.row hrow
  obtain ⟨h'', heq, hl'⟩ := hl.step_last op hop
  rw [goDlist, heq] at hstep
  obtain rfl : h'' = h' := Option.some.inj hstep
  rw [(tailAfter_eq_iff hop hl.nodup).mpr hkeeps] at hl'
  exact ⟨_, hl'⟩

/-- In every run whose steps meet the condition, the links are a list with its last node in the
tail, the last node is what is read and removed there, and every operation works. The condition is
exact: an operation leaves such a list if and only if it meets the condition. -/
theorem tail_of_reachable (h₀ : Links α)
    (hreach : Transition.Reachable (goDlist e) (Careful e) (cdslDlistEntryInit h₀ (some e)) h) :
    ∃ l, DlistHolds h e l l.getLast? ∧ cdslDlistGetLast h (some e) = l.getLast? ∧
      (cdslDlistRemoveTail h (some e)).map Prod.snd = some l.getLast? ∧
      ∀ op : DlistOp α, op.Permitted e l → ∃ h', dlistStep e h op = some (h', op.returns l) ∧
        ((∃ l', DlistHolds h' e l' l'.getLast?) ↔ op.KeepsTail l) := by
  obtain ⟨l, hl⟩ := last_of_reachable hreach
  refine ⟨l, hl, hl.tail, ?_, fun op hop => ?_⟩
  · obtain ⟨h', heq, -⟩ := hl.step_last .removeTail trivial
    exact congrArg (Option.map Prod.snd) heq
  · obtain ⟨h', heq, hl'⟩ := hl.step_last op hop
    refine ⟨h', heq, ?_⟩
    rw [← tailAfter_eq_iff hop hl.nodup]
    constructor
    · rintro ⟨l', hl''⟩
      obtain rfl := row_unique hl'.row hl''.row
      rw [← hl'.tail, ← hl''.tail]
    · intro htail
      exact ⟨_, htail ▸ hl'⟩

theorem tail_threeSteps :
    ∃ h, (runDlist 0 (cdslDlistEntryInit ⟨fun _ => none, fun _ => none⟩ (some 0))
        [.putTail 1, .putHead 2, .dequeue]).map Prod.fst = some h ∧
      ∃ l, DlistHolds h (0 : ℕ) l l.getLast? ∧ cdslDlistGetLast h (some 0) = l.getLast? ∧
        (cdslDlistRemoveTail h (some 0)).map Prod.snd = some l.getLast? ∧
        ∀ op : DlistOp ℕ, op.Permitted 0 l → ∃ h', dlistStep 0 h op = some (h', op.returns l) ∧
          ((∃ l', DlistHolds h' 0 l' l'.getLast?) ↔ op.KeepsTail l) := by
  refine ⟨_, rfl, tail_of_reachable ⟨fun _ => none, fun _ => none⟩ ?_⟩
  refine .next (a := .dequeue) (.next (a := .putHead 2) (.next (a := .putTail 1) .start
    ⟨[], ?_, by simp [DlistOp.Permitted], trivial⟩ rfl)
    ⟨[1], ?_, by simp [DlistOp.Permitted], trivial⟩ rfl)
    ⟨[2, 1], ?_, trivial, by simp [DlistOp.KeepsTail]⟩ rfl
  · exact row_singleton.mpr ⟨rfl, nofun⟩
  · exact row_pair.mpr ⟨rfl, rfl, rfl, nofun⟩
  · exact ⟨rfl, fun b hb => Option.some.inj hb ▸ rfl, row_pair.mpr ⟨rfl, rfl, rfl, nofun⟩⟩

/-- The only node is dequeued: it stays in the tail, where it is read and removed once more. A node
that is enqueued in an empty list is not in the tail, and the next one is put behind `NULL`. -/
theorem not_tail_dequeue :
    (PermittedAll (0 : ℕ) [] [.putTail 1, .dequeue] ∧
      ∃ h, runDlist 0 (cdslDlistEntryInit ⟨fun _ => none, fun _ => none⟩ (some 0))
          [.putTail 1, .dequeue] = some (h, [none, some 1]) ∧
        h.next 0 = none ∧ cdslDlistGetLast h (some 0) = some 1 ∧
        (cdslDlistRemoveTail h (some 0)).map Prod.snd = some (some 1) ∧
        ¬ ∃ l, DlistHolds h 0 l l.getLast?) ∧
    PermittedAll (0 : ℕ) [] [.enqueuePriority 1 (fun _ item => some item) 1, .putTail 2] ∧
      runDlist 0 (cdslDlistEntryInit ⟨fun _ => none, fun _ => none⟩ (some 0))
        [.enqueuePriority 1 (fun _ item => some item) 1, .putTail 2] = none := by
  refine ⟨⟨by simp [PermittedAll, DlistOp.Permitted], _, rfl, rfl, rfl, rfl, ?_⟩, ?_, rfl⟩
  · rintro ⟨l, hl⟩
    have hnil : l = [] := List.head?_eq_none_iff.mp (hl.head.symm.trans rfl)
    subst hnil
    cases hl.tail
  · simp [PermittedAll, DlistOp.Permitted, DlistOp.apply]

end Dlist

end MpegtsReader
