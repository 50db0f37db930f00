import MpegtsReader.DlistRow
import MpegtsReader.Simulation
import MpegtsReader.SlistChain
import MpegtsReader.StableOrder

/-!
# Two priority queues

`cdsl_dlistEnqueuePriority` and `cdsl_dlistDequeue`, and the same of `utils/cdsl_slist.c`, against
the sequence of the nodes that were enqueued and not dequeued yet. A node leaves the singly linked
list with its field `next` as it was, and `cdsl_slistEnqueuePriority` does not clear the field of a
node that it puts at the end.
-/

namespace MpegtsReader

open Links Simulation StableOrder
open Function (update update_self update_of_ne)

/-- The rule returns its second argument when that has the higher priority. Of one node twice it may
say anything. -/
structure PriorityRule {α : Type} (le : α → α → Prop) (rule : α → α → Option α) : Prop where
  total : ∀ a b, le a b ∨ le b a
  trans : ∀ a b c, le a b → le b c → le a c
  second : ∀ a b, a ≠ b → (rule a b = some b ↔ le a b ∧ ¬le b a)

/-- The operations of a priority queue. -/
inductive QueueOp (α : Type)
  | enqueue (item : α)
  | dequeue

namespace QueueOp

variable {α : Type} [DecidableEq α] (le : α → α → Prop) [DecidableRel le]

/-- The nodes in the queue, in the order in which they arrived. -/
def arrive (arrivals : List α) : QueueOp α → List α
  | enqueue item => arrivals ++ [item]
  | dequeue =>
    match (order le arrivals).head? with
    | some first => arrivals.erase first
    | none => arrivals

/-- The node that is returned. -/
def serve (arrivals : List α) : QueueOp α → Option α
  | enqueue _ => none
  | dequeue => (order le arrivals).head?

/-- A node is enqueued that is not in the queue, nor its entry. -/
def Permitted (e : α) (arrivals : List α) : QueueOp α → Prop
  | enqueue item => item ∉ e :: arrivals
  | dequeue => True

end QueueOp

variable {α : Type} [DecidableEq α]

/-- An operation on the doubly linked list. -/
def dlistQueueStep (rule : α → α → Option α) (e : α) (fuel : ℕ) (h : Links α) :
    QueueOp α → Option (Links α × Option α)
  | .enqueue item =>
    (Dlist.cdslDlistEnqueuePriority fuel h (some e) (some item) rule).map (·, none)
  | .dequeue => Dlist.cdslDlistDequeue h (some e)

/-- An operation on the singly linked list. -/
def slistQueueStep (rule : α → α → Option α) (e : α) (fuel : ℕ) (h : Slist.Nexts α) :
    QueueOp α → Option (Slist.Nexts α × Option α)
  | .enqueue item =>
    (Slist.cdslSlistEnqueuePriority fuel h (some e) (some item) (some rule)).map (·, none)
  | .dequeue => some (Slist.cdslSlistDequeue h (some e))

variable {le : α → α → Prop} [DecidableRel le]

/-- From the entry the field `next` leads through the nodes in the order of service, which is
stable, and then to `NULL`. -/
structure QueueHolds (le : α → α → Prop) [DecidableRel le] (e : α) (next : α → Option α)
    (arrivals : List α) : Prop where
  chain : Chain next none (e :: order le arrivals)
  stable : IsStable le arrivals (order le arrivals)

/-- A node that is put at the end has no next node before. -/
def EndsClear (le : α → α → Prop) (h : Slist.Nexts α) (arrivals : List α) : QueueOp α → Prop
  | .enqueue item => h item = none ∨ ∃ a ∈ arrivals, le a item ∧ ¬le item a
  | .dequeue => True

variable {rule : α → α → Option α} {e c x : α} {arrivals l r : List α}

omit [DecidableRel le] in
theorem PriorityRule.staysAhead_iff (hrule : PriorityRule le rule) {a : α} (hax : a ≠ x) :
    Dlist.staysAhead rule x a = true ↔ le x a := by
  rw [Dlist.staysAhead, decide_eq_true_iff, Ne, hrule.second a x hax]
  constructor
  · intro hnot
    by_contra hxa
    exact hnot ⟨(hrule.total a x).resolve_right hxa, hxa⟩
  · exact fun hxa hboth => hboth.2 hxa

/-- The place that the loops look for. -/
theorem PriorityRule.insert_eq (hrule : PriorityRule le rule) (hx : x ∉ l) :
    l.takeWhile (Dlist.staysAhead rule x) ++ x :: l.dropWhile (Dlist.staysAhead rule x) =
      StableOrder.insert le x l :=
  StableOrder.insert_eq fun _ ha => hrule.staysAhead_iff (ne_of_mem_of_not_mem ha hx)

omit [DecidableEq α] in
theorem PriorityRule.mem_order (hrule : PriorityRule le rule) :
    x ∈ order le arrivals ↔ x ∈ arrivals :=
  (isStable_order hrule.total hrule.trans arrivals).perm.mem_iff

omit [DecidableEq α] in
theorem PriorityRule.not_mem_order (hrule : PriorityRule le rule) (hx : x ∉ e :: arrivals) :
    x ∉ e :: order le arrivals := by
  rwa [List.mem_cons, hrule.mem_order, ← List.mem_cons]

omit [DecidableEq α] in
theorem PriorityRule.queueHolds (hrule : PriorityRule le rule) {next : α → Option α}
    (hchain : Chain next none (e :: order le arrivals)) : QueueHolds le e next arrivals :=
  ⟨hchain, isStable_order hrule.total hrule.trans arrivals⟩

/-- A node less in the queue. -/
theorem arrive_dequeue {a : α} {q : List α} (horder : order le arrivals = a :: q) :
    QueueOp.dequeue.arrive le arrivals = arrivals.erase a := by
  rw [QueueOp.arrive, horder]
  rfl

theorem PriorityRule.order_dequeue (hrule : PriorityRule le rule) {a : α} {q : List α}
    (hnodup : (order le arrivals).Nodup) (horder : order le arrivals = a :: q) :
    order le (QueueOp.dequeue.arrive le arrivals) = q := by
  have hperm := (isStable_order hrule.total hrule.trans arrivals).perm
  rw [arrive_dequeue horder]
  exact order_erase hrule.total hrule.trans (hperm.nodup_iff.mp hnodup) horder

theorem order_empty (horder : order le arrivals = []) :
    QueueOp.dequeue.arrive le arrivals = arrivals := by
  rw [QueueOp.arrive, horder]
  rfl

/-! ## The doubly linked list -/

/-- The list at the entry has the nodes in the order of service. -/
def DlistQueue (le : α → α → Prop) [DecidableRel le] (e : α) (h : Links α) (arrivals : List α) :
    Prop := ∃ t, Dlist.DlistHolds h e (order le arrivals) t

theorem dlistQueue_step (hrule : PriorityRule le rule) {h : Links α} {op : QueueOp α}
    (hq : DlistQueue le e h arrivals) (hop : op.Permitted e arrivals) :
    StepSimulates (dlistQueueStep rule e) (QueueOp.arrive le) (QueueOp.serve le) (DlistQueue le e)
      h arrivals op := by
  obtain ⟨t, hl⟩ := hq
  cases op with
  | enqueue x =>
    have hx := hrule.not_mem_order hop
    obtain ⟨h', heq, hl'⟩ := hl.enqueuePriority rule hx
    rw [hrule.insert_eq (List.not_mem_of_not_mem_cons hx), ← order_concat] at hl'
    exact ⟨_, h', fun fuel hfuel => congrArg (Option.map (·, none)) (heq fuel hfuel), _, hl'⟩
  | dequeue =>
    cases horder : order le arrivals with
    | nil =>
      rw [horder] at hl
      refine ⟨0, h, fun _ _ => ?_, t, ?_⟩
      · rw [dlistQueueStep, hl.dequeue_nil, QueueOp.serve, horder]
        rfl
      · rwa [order_empty horder, horder]
    | cons a q =>
      have hnodup := horder ▸ hl.nodup
      rw [horder] at hl
      obtain ⟨h', heq, hl'⟩ := hl.dequeue
      refine ⟨0, h', fun _ _ => ?_, t, ?_⟩
      · rw [dlistQueueStep, heq, QueueOp.serve, horder]
        rfl
      · rwa [hrule.order_dequeue (horder ▸ hnodup) horder]

/-! ## The singly linked list -/

/-- The heap with the field `next` of the new node, which is left alone where nothing follows. -/
def beforeLink (rule : α → α → Option α) (h : Slist.Nexts α) (l : List α) (x : α) : Slist.Nexts α :=
  if l.dropWhile (Dlist.staysAhead rule x) = [] then h
  else update h x (l.dropWhile (Dlist.staysAhead rule x)).head?

/-- The loop of `cdsl_slistEnqueuePriority` goes on to the link to the first node that `item` comes
before. -/
theorem enqueueLoop_eq {h : Slist.Nexts α} {lentry : Option α} {cnode : Slist.LinkAddr α}
    {fuel : ℕ} (hload : ∀ v, cnode.load (update h x v) lentry = some c)
    (hr : Chain h none (c :: r)) (hx : x ∉ c :: r) (hfuel : r.length < fuel) :
    Slist.enqueueLoop h lentry x rule fuel cnode =
      some (update (beforeLink rule h r x) ((r.takeWhile (Dlist.staysAhead rule x)).getLastD c)
        (some x)) := by
  unfold beforeLink
  induction r generalizing c cnode fuel with
  | nil =>
    obtain ⟨fuel, rfl⟩ := Nat.exists_eq_add_one.mpr (Nat.zero_lt_of_lt hfuel)
    have hnode : cnode.load h lentry = some c := by simpa using hload (h x)
    have hc : h c = none := hr.head
    simp [Slist.enqueueLoop, hnode, hc]
  | cons b r ih =>
    obtain ⟨fuel, rfl⟩ := Nat.exists_eq_add_one.mpr (Nat.zero_lt_of_lt hfuel)
    have hnode : cnode.load h lentry = some c := by simpa using hload (h x)
    have hc : h c = some b := hr.head
    by_cases hrule : rule b x = some x
    · have hstop : ¬Dlist.staysAhead rule x b = true := by simpa [Dlist.staysAhead] using hrule
      rw [List.takeWhile_cons_of_neg hstop, List.dropWhile_cons_of_neg hstop,
        if_neg (List.cons_ne_nil b r)]
      simp [Slist.enqueueLoop, hnode, hc, hrule, hload]
    · have hgo : Dlist.staysAhead rule x b = true := decide_eq_true hrule
      have hcx : c ≠ x := (List.ne_of_not_mem_cons hx).symm
      have hnext : ∀ v, (Slist.LinkAddr.next c).load (update h x v) lentry = some b :=
        fun v => (update_of_ne hcx ..).trans hc
      have hloop : Slist.enqueueLoop h lentry x rule (fuel + 1) cnode =
          Slist.enqueueLoop h lentry x rule fuel (.next c) := by
        simp [Slist.enqueueLoop, hnode, hc, hrule]
      rw [hloop, ih hnext hr.2 (List.not_mem_of_not_mem_cons hx)
        (Nat.lt_of_succ_lt_succ hfuel), List.takeWhile_cons_of_pos hgo,
        List.dropWhile_cons_of_pos hgo, List.getLastD_cons]

theorem beforeLink_self (h : Slist.Nexts α) (l : List α) (x : α) :
    beforeLink rule h l x x = (l.dropWhile (Dlist.staysAhead rule x)).head? ↔
      (l.dropWhile (Dlist.staysAhead rule x) = [] → h x = none) := by
  unfold beforeLink
  split_ifs with hend
  · simp [hend]
  · simp [hend]

theorem beforeLink_of_ne (h : Slist.Nexts α) (l : List α) {a : α} (hax : a ≠ x) :
    beforeLink rule h l x a = h a := by
  unfold beforeLink
  split_ifs
  · rfl
  · exact update_of_ne hax ..

/-- A list with the new node in its place, when the field `next` of that is right. -/
theorem chain_link_iff (rule : α → α → Option α) {h : Slist.Nexts α}
    (hl : Chain h none (e :: l)) (hx : x ∉ e :: l) :
    Chain (update (beforeLink rule h l x) ((l.takeWhile (Dlist.staysAhead rule x)).getLastD e)
        (some x)) none
      (e :: (l.takeWhile (Dlist.staysAhead rule x) ++
        x :: l.dropWhile (Dlist.staysAhead rule x))) ↔
      (l.dropWhile (Dlist.staysAhead rule x) = [] → h x = none) := by
  rw [← beforeLink_self]
  have hsplit := List.takeWhile_append_dropWhile (p := Dlist.staysAhead rule x) (l := l)
  have hbefore : Chain (beforeLink rule h l x) none (e :: l) :=
    hl.congr fun a ha => beforeLink_of_ne h l (ne_of_mem_of_not_mem ha hx)
  generalize l.takeWhile (Dlist.staysAhead rule x) = l₁ at hsplit ⊢
  generalize l.dropWhile (Dlist.staysAhead rule x) = l₂ at hsplit ⊢
  generalize beforeLink rule h l x = h₁ at hbefore ⊢
  subst hsplit
  constructor
  · intro hchain
    have hlast : x ≠ l₁.getLastD e := by
      rintro rfl
      exact hx (List.mem_append_left l₂ (getLastD_mem e l₁))
    rw [← List.cons_append] at hchain
    exact (update_of_ne hlast ..).symm.trans hchain.next_eq
  · exact chain_insert hbefore hx

theorem endsClear_iff (hrule : PriorityRule le rule) {h : Slist.Nexts α} (hx : x ∉ arrivals) :
    EndsClear le h arrivals (.enqueue x) ↔
      ((order le arrivals).dropWhile (Dlist.staysAhead rule x) = [] → h x = none) := by
  have hlower : (order le arrivals).dropWhile (Dlist.staysAhead rule x) = [] ↔
      ¬∃ a ∈ arrivals, le a x ∧ ¬le x a := by
    rw [List.dropWhile_eq_nil_iff]
    constructor
    · rintro hall ⟨a, ha, -, hlow⟩
      exact hlow ((hrule.staysAhead_iff (ne_of_mem_of_not_mem ha hx)).mp
        (hall a (hrule.mem_order.mpr ha)))
    · intro hnone a ha
      have ha := hrule.mem_order.mp ha
      refine (hrule.staysAhead_iff (ne_of_mem_of_not_mem ha hx)).mpr ?_
      by_contra hlow
      exact hnone ⟨a, ha, (hrule.total a x).resolve_right hlow, hlow⟩
  rw [hlower, EndsClear, or_iff_not_imp_right]

/-- A node is put in its place exactly when it does not bring a next node with it to the end. -/
theorem slistQueue_enqueue_iff (hrule : PriorityRule le rule) {h : Slist.Nexts α}
    (hq : QueueHolds le e h arrivals) (hop : (QueueOp.enqueue x).Permitted e arrivals) :
    StepSimulates (slistQueueStep rule e) (QueueOp.arrive le) (QueueOp.serve le) (QueueHolds le e)
      h arrivals (.enqueue x) ↔ EndsClear le h arrivals (.enqueue x) := by
  have hx := hrule.not_mem_order hop
  have hstep : ∀ fuel > (order le arrivals).length, slistQueueStep rule e fuel h (.enqueue x) =
      some (update (beforeLink rule h (order le arrivals) x)
        (((order le arrivals).takeWhile (Dlist.staysAhead rule x)).getLastD e) (some x), none) :=
    fun fuel hfuel => congrArg (Option.map (·, none))
      (enqueueLoop_eq (fun _ => rfl) hq.chain hx hfuel)
  have hplace := chain_link_iff rule hq.chain hx
  rw [hrule.insert_eq (List.not_mem_of_not_mem_cons hx), ← order_concat] at hplace
  rw [endsClear_iff hrule (List.not_mem_of_not_mem_cons hop), ← hplace]
  constructor
  · rintro ⟨bound, h', heq, hq'⟩
    have hboth := (heq (max bound (order le arrivals).length + 1) (by omega)).symm.trans
      (hstep _ (by omega))
    obtain rfl := (Prod.mk.inj (Option.some.inj hboth)).1
    exact hq'.chain
  · exact fun hchain => ⟨_, _, hstep, hrule.queueHolds hchain⟩

/-- A node that is initialised again first is put in its place. -/
theorem slistQueue_enqueue_nodeInit (hrule : PriorityRule le rule) {h : Slist.Nexts α}
    (hq : QueueHolds le e h arrivals) (hop : (QueueOp.enqueue x).Permitted e arrivals) :
    StepSimulates (slistQueueStep rule e) (QueueOp.arrive le) (QueueOp.serve le) (QueueHolds le e)
      (Slist.cdslSlistNodeInit h (some x)) arrivals (.enqueue x) := by
  have hclear : Slist.cdslSlistNodeInit h (some x) x = none := update_self ..
  have hchain : Chain (Slist.cdslSlistNodeInit h (some x)) none (e :: order le arrivals) :=
    hq.chain.congr fun a ha =>
      update_of_ne (ne_of_mem_of_not_mem ha (hrule.not_mem_order hop)) ..
  exact (slistQueue_enqueue_iff hrule (hrule.queueHolds hchain) hop).mpr (.inl hclear)

theorem slistQueue_dequeue (hrule : PriorityRule le rule) {h : Slist.Nexts α}
    (hq : QueueHolds le e h arrivals) :
    StepSimulates (slistQueueStep rule e) (QueueOp.arrive le) (QueueOp.serve le) (QueueHolds le e)
      h arrivals .dequeue := by
  have hl := hq.chain
  cases horder : order le arrivals with
  | nil =>
    rw [horder] at hl
    refine ⟨0, h, fun _ _ => ?_, ?_⟩
    · rw [slistQueueStep, Slist.dequeue_nil hl, QueueOp.serve, horder]
      rfl
    · rwa [order_empty horder]
  | cons a q =>
    have hnodup := (List.nodup_cons.mp hl.nodup).2
    rw [horder] at hl
    obtain ⟨h', heq, hl', -⟩ := Slist.chain_dequeue hl
    refine ⟨0, h', fun _ _ => ?_, hrule.queueHolds ?_⟩
    · rw [slistQueueStep, heq, QueueOp.serve, horder]
      rfl
    · rwa [hrule.order_dequeue hnodup horder]

theorem slistQueue_step_iff (hrule : PriorityRule le rule) {h : Slist.Nexts α} {op : QueueOp α}
    (hq : QueueHolds le e h arrivals) (hop : op.Permitted e arrivals) :
    StepSimulates (slistQueueStep rule e) (QueueOp.arrive le) (QueueOp.serve le) (QueueHolds le e)
      h arrivals op ↔ EndsClear le h arrivals op := by
  cases op with
  | enqueue x => exact slistQueue_enqueue_iff hrule hq hop
  | dequeue => exact iff_of_true (slistQueue_dequeue hrule hq) trivial

/-! ## Both queues -/

/-- **Two priority queues.** The doubly linked list is a stable priority queue in every run. The
singly linked list is the same one all the way exactly when no node brings a next node with it to
the end. -/
theorem priorityQueues_of_run (hrule : PriorityRule le rule) (h : Links α) (n : Slist.Nexts α)
    (e : α) (ops : List (QueueOp α))
    (hops : EachTime (QueueOp.arrive le) (QueueOp.Permitted e) [] ops) :
    Simulates (dlistQueueStep rule e) (QueueOp.arrive le) (QueueOp.serve le)
        (fun h => QueueHolds le e h.next) (Dlist.cdslDlistEntryInit h (some e)) [] ops ∧
      ((∀ pre, pre <+: ops →
          Simulates (slistQueueStep rule e) (QueueOp.arrive le) (QueueOp.serve le)
            (QueueHolds le e) (Slist.cdslSlistEntryInit n (some e)) [] pre) ↔
        Meets (slistQueueStep rule e) (QueueOp.arrive le) (EndsClear le)
          (Slist.cdslSlistEntryInit n (some e)) [] ops) := by
  constructor
  · have hsim := simulates_of_eachTime (fun _ _ _ hq hop => dlistQueue_step hrule hq hop)
      ⟨none, Dlist.holds_entryInit h e⟩ hops
    exact hsim.mono fun h arrivals ⟨_, hl⟩ => hrule.queueHolds hl.row.chain
  · exact simulates_prefixes_iff (fun _ _ _ hq hop => slistQueue_step_iff hrule hq hop)
      (hrule.queueHolds (Slist.chain_entryInit n e).1) hops

/-! ## Runs with a rule -/

/-- The priority of a number is its decade. -/
abbrev decadeLe (a b : ℕ) : Prop := a / 10 ≤ b / 10

def decadeRule (a b : ℕ) : Option ℕ := if a / 10 < b / 10 then some b else some a

theorem priorityRule_decade : PriorityRule decadeLe decadeRule where
  total a b := Nat.le_total ..
  trans a b c := Nat.le_trans
  second a b hab := by
    unfold decadeRule
    split_ifs with hlt <;> simp [hab, decadeLe] <;> omega

/-- A node is dequeued, and enqueued again before another. -/
theorem priorityQueues_requeued :
    Simulates (dlistQueueStep decadeRule 0) (QueueOp.arrive decadeLe) (QueueOp.serve decadeLe)
        (fun h => QueueHolds decadeLe 0 h.next)
        (Dlist.cdslDlistEntryInit ⟨fun _ => none, fun _ => none⟩ (some 0)) []
        [.enqueue 11, .enqueue 25, .dequeue, .enqueue 25] ∧
      ∀ pre, pre <+: [.enqueue 11, .enqueue 25, .dequeue, .enqueue 25] →
        Simulates (slistQueueStep decadeRule 0) (QueueOp.arrive decadeLe) (QueueOp.serve decadeLe)
          (QueueHolds decadeLe 0) (Slist.cdslSlistEntryInit (fun _ => none) (some 0)) [] pre := by
  have hboth := priorityQueues_of_run priorityRule_decade ⟨fun _ => none, fun _ => none⟩
    (fun _ => none) 0 [.enqueue 11, .enqueue 25, .dequeue, .enqueue 25]
    (by simp [EachTime, QueueOp.Permitted]; decide)
  refine ⟨hboth.1, hboth.2.mpr ⟨.inl rfl, fun bound h r heq => ?_⟩⟩
  obtain ⟨rfl, -⟩ := Prod.mk.inj (Option.some.inj (heq (bound + 3) (by omega)))
  refine ⟨.inl rfl, fun bound h r heq => ?_⟩
  obtain ⟨rfl, -⟩ := Prod.mk.inj (Option.some.inj (heq (bound + 3) (by omega)))
  refine ⟨trivial, fun bound h r heq => ?_⟩
  obtain ⟨rfl, -⟩ := Prod.mk.inj (Option.some.inj (heq (bound + 3) (by omega)))
  exact ⟨.inr ⟨11, by decide⟩, fun _ _ _ _ => trivial⟩

/-- The first of two nodes of equal priority is dequeued and enqueued again: the nodes are linked in
a circle. -/
theorem priorityQueues_circle :
    PriorityRule decadeLe decadeRule ∧
      EachTime (QueueOp.arrive decadeLe) (QueueOp.Permitted 0) []
        [.enqueue 11, .enqueue 12, .dequeue, .enqueue 11] ∧
      ¬Simulates (slistQueueStep decadeRule 0) (QueueOp.arrive decadeLe) (QueueOp.serve decadeLe)
        (QueueHolds decadeLe 0) (Slist.cdslSlistEntryInit (fun _ => none) (some 0)) []
        [.enqueue 11, .enqueue 12, .dequeue, .enqueue 11] := by
  refine ⟨priorityRule_decade, by simp [EachTime, QueueOp.Permitted]; decide, ?_⟩
  rintro ⟨bound, h', htrace, hq⟩
  obtain ⟨rfl, -⟩ := Prod.mk.inj (Option.some.inj (htrace (bound + 3) (by omega)))
  exact absurd hq.chain.2.2.1 (by decide)

end MpegtsReader
