import CrosKernel.Sched.Process
import CrosKernel.Sched.QueueRuns

/-!
# Removing a process from the scheduler queue

What `queue::remove` does to the list of the waiting processes. Its loop stops in front of the last
node, never counts `queue_size` down, reads the first node of an empty queue, and runs off the end
of the function when it has found nothing. `remove_meets_iff` says when the caller gets what the
name promises nevertheless, and `guarded_runs_remove_meets` says it after every history of calls.
-/

namespace CrosKernel.Sched

open Lib

variable {α : Type}

namespace Queue

/-- `queue::remove`, with the pointer that the caller sees: `unset` is what the return register
holds when the function ends without a `return`. -/
def removeReturn (q : Queue α) (getPid : α → Pid) (pid : Pid) (unset : Option α) :
    Option (Queue α × Option α) := do
  let (q, p) ← q.remove fun process => some (getPid process == pid)
  pure (q, p <|> unset)

/-- Removing takes out the process with the pid and returns it, keeps the others in their order and
counts them. Without such a process it returns null and changes nothing. -/
def RemoveMeets (q : Queue α) (getPid : α → Pid) (pid : Pid) (unset : Option α) : Prop :=
  ∃ q' p, q.removeReturn getPid pid unset = some (q', p) ∧
    p = q.values.find? (fun process => getPid process == pid) ∧
    q'.values = q.values.eraseP (fun process => getPid process == pid) ∧
    q'.size = q'.values.length ∧ (p = none → q' = q)

/-- There are waiting processes, none of them has the pid, and the return register is null. -/
def RemoveReady (q : Queue α) (getPid : α → Pid) (pid : Pid) (unset : Option α) : Prop :=
  q.values ≠ [] ∧ (∀ process ∈ q.values, getPid process ≠ pid) ∧ unset = none

variable {q q' : Queue α} {L : List α} {getPid : α → Pid} {pid : Pid} {unset : Option α}

theorem modify_queue_size {a : NodeAddr} {f : QueueNode α → QueueNode α}
    (h : q.modify a f = some q') : q'.queue_size = q.queue_size := by
  simp only [modify, Option.pure_def, Option.bind_eq_bind, Option.bind_eq_some_iff,
    Option.some.injEq] at h
  obtain ⟨n, -, rfl⟩ := h
  rfl

/-- The loop changes links and frees a node, and nothing counts. -/
theorem removeLoop_queue_size {hasPid : α → Option Bool} {fuel : Nat} {cur : NodeAddr}
    {p : Option α} (h : removeLoop hasPid fuel q cur = some (q', p)) :
    q'.queue_size = q.queue_size := by
  induction fuel generalizing cur with
  | zero => cases h
  | succ fuel ih =>
      simp only [removeLoop, Option.bind_eq_bind, Option.bind_eq_some_iff] at h
      obtain ⟨n, -, h⟩ := h
      cases hnext : n.next with
      | none =>
          rw [hnext] at h
          cases h
          rfl
      | some next =>
          simp only [hnext, Option.bind_eq_some_iff] at h
          obtain ⟨found, -, h⟩ := h
          cases found with
          | false => exact ih h
          | true =>
              simp only [if_true, Option.bind_eq_some_iff, Option.pure_def, Option.some.injEq,
                Prod.mk.injEq] at h
              obtain ⟨prev, -, q₁, h₁, q₂, h₂, rfl, -⟩ := h
              exact (modify_queue_size h₂).trans (modify_queue_size h₁)

theorem removeReturn_queue_size {p : Option α}
    (h : q.removeReturn getPid pid unset = some (q', p)) : q'.queue_size = q.queue_size := by
  simp only [removeReturn, remove, Option.bind_eq_bind, Option.bind_eq_some_iff, Option.pure_def,
    Option.some.injEq, Prod.mk.injEq, Prod.exists] at h
  obtain ⟨q₁, p₁, ⟨front, -, hloop⟩, rfl, -⟩ := h
  exact removeLoop_queue_size hloop

/-- Without the pid the loop runs from the first node to the last one, which it does not look
at. -/
theorem removeLoop_absent {l : List (NodeAddr × QueueNode α)} {a : NodeAddr} {n : QueueNode α}
    {fuel : Nat} (hseg : Segment QueueNode.next q.nodes (some a) ((a, n) :: l) none)
    (habsent : ∀ x ∈ (a, n) :: l, getPid x.2.value ≠ pid) (hfuel : l.length < fuel) :
    removeLoop (fun process => some (getPid process == pid)) fuel q a = some (q, none) := by
  induction l generalizing a n fuel with
  | nil =>
      obtain ⟨fuel, rfl⟩ := Nat.exists_eq_succ_of_ne_zero (Nat.ne_of_gt hfuel)
      obtain ⟨-, hn, hnext⟩ := hseg
      simp only [segment_nil] at hnext
      simp [removeLoop, hn, hnext]
  | cons x l ih =>
      obtain ⟨b, m⟩ := x
      obtain ⟨fuel, rfl⟩ := Nat.exists_eq_succ_of_ne_zero (Nat.ne_of_gt (Nat.zero_lt_of_lt hfuel))
      obtain ⟨-, hn, hrest⟩ := hseg
      have hnext : n.next = some b := hrest.1
      have hpid : getPid n.value ≠ pid := habsent (a, n) List.mem_cons_self
      have hrec := ih (hnext ▸ hrest) (fun x hx => habsent x (List.mem_cons_of_mem _ hx))
        (Nat.lt_of_succ_lt_succ hfuel)
      simpa [removeLoop, hn, hnext, hpid] using hrec

/-- A queue without the pid, but with waiting processes, comes back as it was. -/
theorem Lists.remove_absent (h : q.Lists L) (hne : L ≠ [])
    (habsent : ∀ process ∈ L, getPid process ≠ pid) :
    q.removeReturn getPid pid unset = some (q, unset) := by
  obtain ⟨l, hseg, -, -, hsize, rfl⟩ := h
  cases l with
  | nil => exact absurd rfl hne
  | cons x l =>
      obtain ⟨a, n⟩ := x
      have hfront : q.linked_list_front = some a := hseg.1
      have hfuel : l.length < q.queue_size.toNat + 1 := by
        rw [hsize, List.length_cons]
        omega
      have hloop := removeLoop_absent (hfront ▸ hseg)
        (fun x hx => habsent x.2.value (List.mem_map_of_mem hx)) hfuel
      simp [removeReturn, remove, hfront, hloop]

/-- The first node of an empty queue is read through a null pointer. -/
theorem Lists.remove_nil (h : q.Lists []) : q.removeReturn getPid pid unset = none := by
  obtain ⟨l, hseg, -, -, -, hl⟩ := h
  obtain rfl := List.map_eq_nil_iff.1 hl
  have hfront : q.linked_list_front = none := hseg
  simp [removeReturn, remove, hfront]

/-- `queue::remove` does what it is for on the queues that keep all their processes, and on no
other one. -/
theorem Lists.remove_meets_iff (h : q.Lists L) :
    q.RemoveMeets getPid pid unset ↔ q.RemoveReady getPid pid unset := by
  unfold RemoveMeets RemoveReady
  rw [h.values_eq]
  constructor
  · intro hmeets
    obtain ⟨q', p, hreturn, hp, hvalues, hcount, hsame⟩ := hmeets
    have hne : L ≠ [] := by
      intro hnil
      rw [hnil] at h
      rw [h.remove_nil] at hreturn
      cases hreturn
    have hkept : q'.values.length = L.length := by
      obtain ⟨l, -, -, -, hsize, rfl⟩ := h
      have hq' : q'.queue_size = l.length := (removeReturn_queue_size hreturn).trans hsize
      rw [size, hq', Int.natCast_inj] at hcount
      rw [List.length_map, hcount]
    have habsent : ∀ process ∈ L, getPid process ≠ pid := by
      intro process hmem heq
      -- a process that is taken out would have to be counted out
      have hlt := List.length_eraseP_of_mem (p := fun process => getPid process == pid) hmem
        (beq_iff_eq.2 heq)
      have hpos : 0 < L.length := List.length_pos_of_mem hmem
      rw [← hvalues, hkept] at hlt
      omega
    have hnull : L.find? (fun process => getPid process == pid) = none :=
      List.find?_eq_none.2 fun process hmem hfound => habsent process hmem (beq_iff_eq.1 hfound)
    rw [h.remove_absent hne habsent, Option.some.injEq, Prod.mk.injEq] at hreturn
    exact ⟨hne, habsent, hreturn.2.trans (hp.trans hnull)⟩
  · intro hready
    obtain ⟨hne, habsent, rfl⟩ := hready
    have hnot : ∀ process ∈ L, ¬ (getPid process == pid) = true := by
      intro process hmem hfound
      exact habsent process hmem (beq_iff_eq.1 hfound)
    refine ⟨q, none, h.remove_absent hne habsent, (List.find?_eq_none.2 hnot).symm, ?_, ?_,
      fun _ => rfl⟩
    · rw [h.values_eq, List.eraseP_of_forall_not hnot]
    · have hvalues := h.values_eq
      obtain ⟨l, -, -, -, hsize, rfl⟩ := h
      rw [hvalues, List.length_map]
      exact hsize

/-! ## Histories -/

end Queue

/-- The calls of a history: those of `QueueOp`, and `remove` with the pids that the processes have
by then and what the return register holds. -/
inductive HistoryOp (α : Type) where
  | call (op : QueueOp α)
  | remove (getPid : α → Pid) (pid : Pid) (unset : Option α)

namespace Queue

/-- A call of a history. -/
inductive HistoryStep : Queue α → HistoryOp α → Queue α → Prop where
  | call {q q' : Queue α} {op : QueueOp α} {p : Option α} :
      Step q (op, p) q' → HistoryStep q (.call op) q'
  | remove {q q' : Queue α} {getPid : α → Pid} {pid : Pid} {unset p : Option α} :
      q.removeReturn getPid pid unset = some (q', p) →
        HistoryStep q (.remove getPid pid unset) q'

/-- Every `remove` is called when `RemoveReady` says so. -/
def HistoryReady (q : Queue α) : HistoryOp α → Prop
  | .call _ => True
  | .remove getPid pid unset => q.RemoveReady getPid pid unset

variable {q q' : Queue α}

/-- Calls without `remove` are a history. -/
theorem run_history {events : List (QueueOp α × Option α)} (hrun : Run Step q events q') :
    Run HistoryStep q (events.map fun event => .call event.1) q' := by
  induction hrun with
  | nil q => exact .nil q
  | cons hstep _ ih => exact .cons (.call hstep) ih

/-- A call of a guarded history keeps the queue a list. -/
theorem Refines.historyStep {r : ReadyList α} {event : HistoryOp α} (h : q.Refines r)
    (hstep : Guarded HistoryReady HistoryStep q event q') : ∃ r', q'.Refines r' := by
  obtain ⟨hready, hstep⟩ := hstep
  cases hstep with
  | call hcall => exact ⟨_, (h.step hcall).2⟩
  | remove hremove =>
      obtain ⟨hne, habsent, -⟩ := hready
      rw [h.2.values_eq] at hne habsent
      rw [h.2.remove_absent hne habsent, Option.some.injEq, Prod.mk.injEq] at hremove
      exact ⟨r, hremove.1 ▸ h⟩

/-- After every history whose calls of `remove` were ready, `remove` does what it is for if and
only if it is ready. -/
theorem guarded_runs_remove_meets {events : List (HistoryOp α)}
    (hrun : Run (Guarded HistoryReady HistoryStep) init events q) (getPid : α → Pid) (pid : Pid)
    (unset : Option α) : q.RemoveMeets getPid pid unset ↔ q.RemoveReady getPid pid unset := by
  have hrefines : ∃ r, q.Refines r := by
    have hkeep : ∀ (q : Queue α) event q', (∃ r, q.Refines r) →
        Guarded HistoryReady HistoryStep q event q' → ∃ r, q'.Refines r := by
      intro q event q' hr hstep
      obtain ⟨r, h⟩ := hr
      exact h.historyStep hstep
    exact hrun.invariant ⟨_, init_refines⟩ hkeep
  obtain ⟨r, h⟩ := hrefines
  exact h.2.remove_meets_iff

/-- A queue of one process that another one's pid was removed from. -/
theorem guarded_runs_remove_meets_one :
    ∃ q : Queue Nat,
      Run (Guarded HistoryReady HistoryStep) init
        [.call (.enqueue 7), .remove id 8 none] q ∧
      (q.RemoveMeets id 8 none ↔ q.RemoveReady id 8 none) := by
  have hrun : Run (Guarded HistoryReady HistoryStep) init
      [.call (.enqueue 7), .remove id 8 none] _ :=
    .cons ⟨trivial, .call ⟨0, rfl, rfl⟩⟩ <|
      .single ⟨⟨by decide, by decide, rfl⟩, .remove rfl⟩
  exact ⟨_, hrun, guarded_runs_remove_meets hrun id 8 none⟩

/-- The middle one of three processes is removed, and the queue still counts three. -/
theorem remove_middle_counts_three :
    ∃ q : Queue Nat,
      Run HistoryStep init [.call (.enqueue 7), .call (.enqueue 8), .call (.enqueue 9)] q ∧
      ¬ q.RemoveMeets id 8 none := by
  have hrun : Run Step init [(.enqueue 7, none), (.enqueue 8, none), (.enqueue 9, none)] _ :=
    .cons ⟨0, rfl, rfl⟩ <| .cons ⟨1, rfl, rfl⟩ <| .single ⟨2, rfl, rfl⟩
  have hlists : Lists _ [7, 8, 9] := (init_refines.run hrun).2
  refine ⟨_, run_history hrun, fun hmeets => ?_⟩
  have hready := hlists.remove_meets_iff.1 hmeets
  rw [RemoveReady, hlists.values_eq] at hready
  exact hready.2.1 8 (by decide) rfl

end Queue

end CrosKernel.Sched
