import CrosKernel.Lib.Run
import CrosKernel.Sched.Queue

/-!
# The scheduler queue as a list

Runs of the calls of `queue` (all but `remove`) against `ReadyList`, which is the running process
and the list of the waiting ones. `queue_refines` says that each call has the effect and the result
it has on the list, and reads off three consequences: the counter, that `sched_next` only moves
processes around, and the order in which `sched_next` returns them.
-/

namespace CrosKernel.Sched

open Lib

variable {α : Type}

/-! ## The abstract scheduler -/

/-- The calls of the queue. -/
inductive QueueOp (α : Type) where
  | enqueue (process : α)
  | dequeue
  | schedNext
  | clearCurProcess

/-- The running process, and the waiting ones in the order they came. -/
structure ReadyList (α : Type) where
  cur : Option α
  waiting : List α

namespace ReadyList

/-- Everything in the scheduler, in the order in which `sched_next` will come to it. -/
def order (r : ReadyList α) : List α := r.waiting ++ r.cur.toList

/-- A call, with the process it returns. -/
def call (r : ReadyList α) : QueueOp α → ReadyList α × Option α
  | .enqueue process => (⟨r.cur, r.waiting ++ [process]⟩, none)
  | .dequeue => (⟨r.cur, r.waiting.tail⟩, r.waiting.head?)
  | .schedNext => (⟨r.order.head?, r.order.tail⟩, r.order.head?)
  | .clearCurProcess => (⟨none, r.waiting⟩, none)

/-- `sched_next` moves the first process of the order to its end. -/
theorem order_schedNext (r : ReadyList α) {p : α} {rest : List α} (h : r.order = p :: rest) :
    (r.call .schedNext).2 = some p ∧ (r.call .schedNext).1.order = rest ++ [p] := by
  simp only [call, h, List.head?_cons, List.tail_cons, true_and]
  rfl

end ReadyList

namespace Queue

/-! ## The calls of the queue -/

/-- `queue::size`. -/
def size (q : Queue α) : Int := q.queue_size

/-- `queue::set_cur_process`. -/
def setCurProcess (q : Queue α) (proc : Option α) : Queue α :=
  { q with cur_Process := proc }

/-- `queue::sched_next`, with the pointer it returns. -/
def schedNextReturn (q : Queue α) (a : NodeAddr) : Option (Queue α × Option α) := do
  let q ← q.enqueueNonNull a q.cur_Process
  if q.empty then some (q, none)
  else do
    let (q, p) ← q.dequeue
    pure ({ q with cur_Process := p }, p)

/-- A call, with the pointer it returns and `a` for the address of a new node. -/
def call (q : Queue α) (a : NodeAddr) : QueueOp α → Option (Queue α × Option α)
  | .enqueue process => (q.enqueue a process).map fun q => (q, none)
  | .dequeue => q.dequeue
  | .schedNext => q.schedNextReturn a
  | .clearCurProcess => some (q.setCurProcess none, none)

/-- A call and what it returns, as a transition. New nodes get addresses that are not in use. -/
def Step (q : Queue α) (event : QueueOp α × Option α) (q' : Queue α) : Prop :=
  ∃ a, q.nodes a = none ∧ q.call a event.1 = some (q', event.2)

variable {q q' : Queue α} {r : ReadyList α} {a : NodeAddr} {op : QueueOp α}

/-- The queue holds what the list says. -/
def Refines (q : Queue α) (r : ReadyList α) : Prop :=
  q.cur_Process = r.cur ∧ q.Lists r.waiting

theorem init_refines : (init : Queue α).Refines ⟨none, []⟩ :=
  ⟨rfl, init_lists⟩

/-- The two forms of `sched_next` move the pointers in the same way. -/
theorem schedNextReturn_fst (q : Queue α) (a : NodeAddr) :
    (q.schedNextReturn a).map Prod.fst = q.schedNext a := by
  unfold schedNextReturn schedNext
  cases q.enqueueNonNull a q.cur_Process with
  | none => rfl
  | some q₁ =>
      simp only [Option.bind_eq_bind, Option.bind_some]
      split
      · rfl
      · cases q₁.dequeue <;> rfl

/-- `sched_next` turns the order and returns the process that runs now. -/
theorem Refines.schedNextReturn (h : q.Refines r) (ha : q.nodes a = none) :
    ∃ q', q.schedNextReturn a = some (q', r.order.head?) ∧
      q'.Refines ⟨r.order.head?, r.order.tail⟩ := by
  obtain ⟨hcur, hlists⟩ := h
  obtain ⟨q₁, hq₁, hlists₁, hcur₁⟩ := enqueueNonNull_lists hlists fun _ => ha
  rw [hcur] at hq₁ hlists₁ hcur₁
  simp only [Queue.schedNextReturn, hcur, hq₁, Option.bind_eq_bind, Option.bind_some]
  cases horder : r.order with
  | nil =>
      have hnone : r.cur = none := by
        simpa using (List.append_eq_nil_iff.1 horder).2
      have hnil : q₁.Lists [] := horder ▸ hlists₁
      exact ⟨q₁, by simp [hnil.empty_iff.2 rfl], hcur₁.trans hnone, hnil⟩
  | cons p rest =>
      have hcons : q₁.Lists (p :: rest) := horder ▸ hlists₁
      obtain ⟨q₂, hq₂, ⟨l, hrest⟩, -⟩ := dequeue_lists hcons
      have hne : q₁.empty = false := by
        rw [← Bool.not_eq_true, hcons.empty_iff]
        exact List.cons_ne_nil p rest
      exact ⟨{ q₂ with cur_Process := some p }, by simp [hne, hq₂], rfl, l, hrest⟩

/-- Every call goes through, with the effect and the result it has on the list. -/
theorem Refines.call (h : q.Refines r) (ha : q.nodes a = none) (op : QueueOp α) :
    ∃ q', q.call a op = some (q', (r.call op).2) ∧ q'.Refines (r.call op).1 := by
  cases op with
  | enqueue process =>
      obtain ⟨q', hq', hlists, hcur⟩ := enqueue_lists process h.2 ha
      exact ⟨q', by simp [Queue.call, hq', ReadyList.call], hcur.trans h.1, hlists⟩
  | dequeue =>
      obtain ⟨hcur, hlists⟩ := h
      cases hwaiting : r.waiting with
      | nil =>
          rw [hwaiting] at hlists
          exact ⟨q, by simp [Queue.call, dequeue_nil hlists, ReadyList.call, hwaiting], hcur,
            by simpa [ReadyList.call, hwaiting] using hlists⟩
      | cons p rest =>
          rw [hwaiting] at hlists
          obtain ⟨q', hq', hlists', hcur'⟩ := dequeue_lists hlists
          exact ⟨q', by simp [Queue.call, hq', ReadyList.call, hwaiting], hcur'.trans hcur,
            by simpa [ReadyList.call, hwaiting] using hlists'⟩
  | schedNext => exact h.schedNextReturn ha
  | clearCurProcess =>
      obtain ⟨l, hlists⟩ := h.2
      exact ⟨q.setCurProcess none, rfl, rfl, l, hlists⟩

/-- A transition of the queue is one of the list. -/
theorem Refines.step (h : q.Refines r) {event : QueueOp α × Option α} (hstep : Step q event q') :
    event.2 = (r.call event.1).2 ∧ q'.Refines (r.call event.1).1 := by
  obtain ⟨a, ha, hcall⟩ := hstep
  obtain ⟨q'', hcall', hrefines⟩ := h.call ha event.1
  obtain ⟨rfl, hevent⟩ := Prod.mk.inj (Option.some.inj (hcall'.symm.trans hcall))
  exact ⟨hevent.symm, hrefines⟩

/-! ## Runs -/

/-- The queue refines the list that the same calls make. -/
theorem Refines.run {events : List (QueueOp α × Option α)} (h : q.Refines r)
    (hrun : Run Step q events q') :
    q'.Refines (events.foldl (fun r event => (r.call event.1).1) r) := by
  induction hrun generalizing r with
  | nil => exact h
  | cons hstep _ ih => exact ih (h.step hstep).2

/-- Calls of `sched_next` and what they returned. -/
def scheduling (returned : List (Option α)) : List (QueueOp α × Option α) :=
  returned.map fun p => (.schedNext, p)

/-- As long as no process of the order comes up a second time, `sched_next` returns the order. -/
theorem Refines.scheduling (h : q.Refines r) {pending done : List α} {returned : List (Option α)}
    (horder : r.order = pending ++ done) (hlength : returned.length ≤ pending.length)
    (hrun : Run Step q (scheduling returned) q') :
    returned = (pending.map some).take returned.length := by
  induction returned generalizing q r pending done with
  | nil => rfl
  | cons p returned ih =>
      cases pending with
      | nil => cases hlength
      | cons p' pending =>
          cases hrun with
          | cons hstep hrest =>
              obtain ⟨hreturn, hrefines⟩ := h.step hstep
              obtain ⟨hfirst, hturned⟩ := r.order_schedNext horder
              have hlast : (r.call .schedNext).1.order = pending ++ (done ++ [p']) :=
                hturned.trans (List.append_assoc pending done [p'])
              have hnext := ih hrefines hlast (Nat.le_of_succ_le_succ hlength) hrest
              simp only [List.length_cons, List.map_cons, List.take_succ_cons]
              rw [← hnext, show p = some p' from hreturn.trans hfirst]

/-- What a queue shares with the list that it refines, and what follows for its users. -/
structure Behaves (q : Queue α) (r : ReadyList α) : Prop where
  /-- Every call goes through, with the effect and the result it has on the list. -/
  call : ∀ op a, q.nodes a = none →
    ∃ q', q.call a op = some (q', (r.call op).2) ∧ q'.Refines (r.call op).1
  size : q.size = q.values.length
  /-- `sched_next` keeps the processes of the scheduler. -/
  scheduled : ∀ p q', Step q (.schedNext, p) q' → q'.scheduled.Perm q.scheduled
  /-- `sched_next` returns the waiting processes in their order and then the running one. -/
  round : ∀ p₀ returned q', q.cur_Process = some p₀ → returned.length = q.values.length + 1 →
    Run Step q (Queue.scheduling returned) q' → returned = (q.values ++ [p₀]).map some

theorem Refines.behaves (h : q.Refines r) : q.Behaves r where
  call op a ha := h.call ha op
  size := by
    obtain ⟨l, -, -, -, hsize, hl⟩ := h.2
    rw [h.2.values_eq, ← hl, List.length_map]
    exact hsize
  scheduled p q' hstep := by
    obtain ⟨-, hcur, hlists⟩ := h.step hstep
    rw [hlists.scheduled_eq, hcur, h.2.scheduled_eq, h.1]
    show ((r.order.head?).toList ++ r.order.tail).Perm (r.cur.toList ++ r.waiting)
    have hsplit : (r.order.head?).toList ++ r.order.tail = r.order := by
      cases r.order <;> rfl
    rw [hsplit]
    exact List.perm_append_comm
  round p₀ returned q' hcur hlength hrun := by
    have hvalues := h.2.values_eq
    have horder : r.order = (q.values ++ [p₀]) ++ [] := by
      rw [List.append_nil, hvalues, ReadyList.order, ← h.1, hcur]
      rfl
    have htotal : returned.length = (q.values ++ [p₀]).length := by
      rw [hlength, List.length_append, List.length_singleton]
    rw [h.scheduling horder (Nat.le_of_eq htotal) hrun, htotal, ← List.length_map some,
      List.take_length]

/-- Every sequence of calls on a new queue leaves it behaving like a list, the one that the same
calls make of the empty list. -/
theorem queue_refines {events : List (QueueOp α × Option α)} (hrun : Run Step init events q) :
    q.Behaves (events.foldl (fun r event => (r.call event.1).1) ⟨none, []⟩) :=
  (init_refines.run hrun).behaves

/-- Two processes are enqueued and the first one is scheduled. -/
theorem queue_refines_two :
    ∃ q, Run Step init [(.enqueue 7, none), (.enqueue 8, none), (.schedNext, some 7)] q ∧
      q.Behaves (⟨some 7, [8]⟩ : ReadyList Nat) := by
  have hrun : Run Step init [(.enqueue 7, none), (.enqueue 8, none), (.schedNext, some 7)] _ :=
    .cons ⟨0, rfl, rfl⟩ <| .cons ⟨1, rfl, rfl⟩ <| .single ⟨2, rfl, rfl⟩
  exact ⟨_, hrun, queue_refines hrun⟩

end Queue

end CrosKernel.Sched
