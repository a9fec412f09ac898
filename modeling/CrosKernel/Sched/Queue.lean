import CrosKernel.Lib.LinkedSegment

/-!
# The scheduler queue

`queue` of `src/sched/queue.cpp`: a linked list of process pointers and the pointer to the running
process. Following a null pointer or the pointer of a deleted node yields `none`. `new node` takes
its address as an argument. `Lists q L` says that the nodes of `q` hold the pointers `L` from front
to back; `enqueue_lists` and `schedNext_lists` follow the operations.
-/

namespace CrosKernel.Sched

open Lib

/-- The address of a node. -/
abbrev NodeAddr := Nat

/-- `node` of `src/sched/queue.h`, with a process pointer of type `α`. -/
structure QueueNode (α : Type) where
  value : α
  prev : Option NodeAddr
  next : Option NodeAddr

/-- `queue`, with the heap of its nodes. -/
structure Queue (α : Type) where
  nodes : NodeAddr → Option (QueueNode α)
  queue_size : Int
  linked_list_front : Option NodeAddr
  linked_list_back : Option NodeAddr
  cur_Process : Option α

namespace Queue

variable {α : Type}

/-- `queue::queue`. -/
def init : Queue α where
  nodes _ := none
  queue_size := 0
  linked_list_front := none
  linked_list_back := none
  cur_Process := none

/-- Assign to the node at `a`. -/
def modify (q : Queue α) (a : NodeAddr) (f : QueueNode α → QueueNode α) : Option (Queue α) := do
  let n ← q.nodes a
  pure { q with nodes := Function.update q.nodes a (some (f n)) }

/-- `queue::empty`. -/
def empty (q : Queue α) : Bool := q.queue_size == 0

/-- `queue::enqueue`. -/
def enqueue (q : Queue α) (a : NodeAddr) (process : α) : Option (Queue α) := do
  let q := { q with nodes := Function.update q.nodes a (some ⟨process, none, none⟩) }
  let q ← if q.empty then some { q with linked_list_front := some a }
    else do
      let last ← q.linked_list_back
      let q ← q.modify last fun n => { n with next := some a }
      q.modify a fun n => { n with prev := some last }
  pure { q with linked_list_back := some a, queue_size := q.queue_size + 1 }

/-- `queue::dequeue`, with the pointer it returns. -/
def dequeue (q : Queue α) : Option (Queue α × Option α) :=
  if q.queue_size = 0 then some (q, none)
  else do
    let a ← q.linked_list_front
    let n ← q.nodes a
    pure ({ q with
      nodes := Function.update q.nodes a none
      queue_size := q.queue_size - 1
      linked_list_front := n.next
      linked_list_back := if q.linked_list_back = some a then none else q.linked_list_back },
      some n.value)

/-- The loop of `queue::remove`, where `hasPid` says whether a process pointer is one to a process
with the pid. Running off the end of the function returns no pointer. -/
def removeLoop (hasPid : α → Option Bool) : Nat → Queue α → NodeAddr → Option (Queue α × Option α)
  | 0, _, _ => none
  | fuel + 1, q, cur => do
      let n ← q.nodes cur
      match n.next with
      | none => some (q, none)
      | some next => do
          let found ← hasPid n.value
          if found then do
            let prev ← n.prev
            let q ← q.modify prev fun m => { m with next := n.next }
            let q ← q.modify next fun m => { m with prev := n.prev }
            pure ({ q with nodes := Function.update q.nodes cur none }, some n.value)
          else removeLoop hasPid fuel q next

/-- `queue::remove`. -/
def remove (hasPid : α → Option Bool) (q : Queue α) : Option (Queue α × Option α) := do
  let front ← q.linked_list_front
  removeLoop hasPid (q.queue_size.toNat + 1) q front

/-- Enqueue a process pointer unless it is null. -/
def enqueueNonNull (q : Queue α) (a : NodeAddr) : Option α → Option (Queue α)
  | none => some q
  | some process => q.enqueue a process

/-- `queue::sched_next`. -/
def schedNext (q : Queue α) (a : NodeAddr) : Option (Queue α) := do
  let q ← q.enqueueNonNull a q.cur_Process
  if q.empty then some q
  else do
    let (q, p) ← q.dequeue
    pure { q with cur_Process := p }

/-! ## The pointers in the queue -/

/-- The values of the nodes from a pointer on. -/
def valuesFrom (q : Queue α) : Nat → Option NodeAddr → List α
  | 0, _ => []
  | n + 1, p =>
      match p.bind q.nodes with
      | none => []
      | some node => node.value :: valuesFrom q n node.next

/-- The process pointers that the queue holds, from front to back. -/
def values (q : Queue α) : List α := q.valuesFrom q.queue_size.toNat q.linked_list_front

/-- The process pointers that the scheduler holds. -/
def scheduled (q : Queue α) : List α := q.cur_Process.toList ++ q.values

/-- The nodes of the queue hold the pointers of `L` and are linked in this order. -/
def Lists (q : Queue α) (L : List α) : Prop :=
  ∃ l : List (NodeAddr × QueueNode α),
    Segment QueueNode.next q.nodes q.linked_list_front l none ∧ (l.map Prod.fst).Nodup ∧
      q.linked_list_back = l.getLast?.map Prod.fst ∧ q.queue_size = l.length ∧
      l.map (fun x => x.2.value) = L

variable {q q' : Queue α} {L : List α}

theorem init_lists : (init : Queue α).Lists [] :=
  ⟨[], rfl, List.nodup_nil, rfl, rfl, rfl⟩

/-- The list that the queue holds is the one that its links spell. -/
theorem Lists.values_eq (h : q.Lists L) : q.values = L := by
  obtain ⟨l, hseg, -, -, hsize, rfl⟩ := h
  rw [values, hsize, Int.toNat_natCast]
  generalize q.linked_list_front = p at hseg
  clear hsize
  induction l generalizing p with
  | nil => rfl
  | cons x l ih =>
      obtain ⟨a, n⟩ := x
      obtain ⟨rfl, hn, hseg⟩ := hseg
      simp [valuesFrom, hn, ih _ hseg]

theorem Lists.scheduled_eq (h : q.Lists L) : q.scheduled = q.cur_Process.toList ++ L := by
  rw [scheduled, h.values_eq]

theorem Lists.empty_iff (h : q.Lists L) : q.empty = true ↔ L = [] := by
  obtain ⟨l, -, -, -, hsize, rfl⟩ := h
  simp [empty, hsize]

/-- `enqueue` succeeds and appends the pointer. -/
theorem enqueue_lists {a : NodeAddr} (p : α) (h : q.Lists L) (hfresh : q.nodes a = none) :
    ∃ q', q.enqueue a p = some q' ∧ q'.Lists (L ++ [p]) ∧ q'.cur_Process = q.cur_Process := by
  obtain ⟨l, hseg, hnodup, hback, hsize, rfl⟩ := h
  have hout : a ∉ l.map Prod.fst := by
    intro ha
    obtain ⟨x, hx, rfl⟩ := List.mem_map.1 ha
    rw [hseg.nodes_eq hx] at hfresh
    cases hfresh
  rcases List.eq_nil_or_concat' l with rfl | ⟨l, ⟨z, m⟩, rfl⟩
  · refine ⟨{ q with
      nodes := Function.update q.nodes a (some ⟨p, none, none⟩)
      linked_list_front := some a
      linked_list_back := some a
      queue_size := q.queue_size + 1 }, ?_, ⟨[(a, ⟨p, none, none⟩)], ?_, ?_, rfl, ?_, rfl⟩, rfl⟩
    · have hzero : q.queue_size = 0 := hsize
      simp [enqueue, empty, hzero]
    · simp
    · simp
    · simp [hsize]
  · -- the last node gets a successor, and the new node gets it as its predecessor
    obtain ⟨r, hseg, hz⟩ := segment_append.1 hseg
    obtain ⟨rfl, hm, hnext⟩ := hz
    rw [List.map_append, List.map_cons, List.map_nil] at hnodup hout
    simp only [List.mem_append, List.mem_singleton, not_or] at hout
    have hza : z ≠ a := fun heq => hout.2 heq.symm
    have hzl : z ∉ l.map Prod.fst := by
      intro hz
      exact List.disjoint_of_nodup_append hnodup hz (by simp)
    refine ⟨{ q with
      nodes := Function.update (Function.update q.nodes z (some { m with next := some a })) a
        (some ⟨p, some z, none⟩)
      linked_list_back := some a
      queue_size := q.queue_size + 1 }, ?_,
      ⟨l ++ [(z, { m with next := some a }), (a, ⟨p, some z, none⟩)], ?_, ?_, ?_, ?_, ?_⟩, rfl⟩
    · have hne : q.queue_size ≠ 0 := by
        simp only [List.length_append, List.length_singleton] at hsize
        omega
      simp [enqueue, empty, hne, hback, modify, hza, hza.symm, hm, Function.update_comm hza]
    · refine segment_append.2 ⟨some z, hseg.congr fun x hx => ?_, ?_⟩
      · have hxz : x ≠ z := fun heq => hzl (heq ▸ hx)
        have hxa : x ≠ a := fun heq => hout.1 (heq ▸ hx)
        simp [hxz, hxa]
      · simp [hza]
    · have hperm : (l.map Prod.fst ++ [z, a]).Perm (a :: (l.map Prod.fst ++ [z])) := by
        have happend : (l.map Prod.fst ++ [z] ++ [a]).Perm ([a] ++ (l.map Prod.fst ++ [z])) :=
          List.perm_append_comm
        simpa using happend
      simpa using hperm.nodup_iff.2 (List.nodup_cons.2 ⟨by simpa using hout, hnodup⟩)
    · simp
    · simp [hsize, Int.add_assoc]
    · simp

/-- `dequeue` returns null from an empty queue. -/
theorem dequeue_nil (h : q.Lists []) : q.dequeue = some (q, none) := by
  have hempty : q.empty = true := h.empty_iff.2 rfl
  simp only [empty, beq_iff_eq] at hempty
  simp [dequeue, hempty]

/-- `dequeue` takes the pointer at the front. -/
theorem dequeue_lists {p : α} (h : q.Lists (p :: L)) :
    ∃ q', q.dequeue = some (q', some p) ∧ q'.Lists L ∧ q'.cur_Process = q.cur_Process := by
  obtain ⟨l, hseg, hnodup, hback, hsize, hL⟩ := h
  cases l with
  | nil => cases hL
  | cons x l =>
      obtain ⟨a, n⟩ := x
      obtain ⟨hfront, hn, hseg⟩ := hseg
      simp only [List.map_cons, List.cons.injEq, List.nodup_cons] at hL hnodup
      obtain ⟨rfl, rfl⟩ := hL
      have hne : q.queue_size ≠ 0 := by
        simp only [List.length_cons] at hsize
        omega
      refine ⟨{ q with
        nodes := Function.update q.nodes a none
        queue_size := q.queue_size - 1
        linked_list_front := n.next
        linked_list_back := if q.linked_list_back = some a then none else q.linked_list_back },
        ?_, ⟨l, ?_, hnodup.2, ?_, ?_, rfl⟩, rfl⟩
      · simp [dequeue, hne, hfront, hn]
      · refine hseg.congr fun x hx => ?_
        have hxa : x ≠ a := fun heq => hnodup.1 (heq ▸ hx)
        simp [hxa]
      · cases l with
        | nil => simp [hback]
        | cons y l =>
            have hlast : (y :: l).getLast?.map Prod.fst ≠ some a := by
              intro heq
              obtain ⟨w, hw, rfl⟩ := Option.map_eq_some_iff.1 heq
              exact hnodup.1 (List.mem_map_of_mem (List.mem_of_getLast? hw))
            rw [List.getLast?_cons_cons] at hback
            rw [if_neg (by rwa [hback]), hback]
      · simp [hsize]

/-- Enqueueing the running process, if there is one. -/
theorem enqueueNonNull_lists {a : NodeAddr} (h : q.Lists L)
    (hfresh : q.cur_Process ≠ none → q.nodes a = none) :
    ∃ q', q.enqueueNonNull a q.cur_Process = some q' ∧ q'.Lists (L ++ q.cur_Process.toList) ∧
      q'.cur_Process = q.cur_Process := by
  cases hcur : q.cur_Process with
  | none => exact ⟨q, rfl, by simpa using h, hcur⟩
  | some p =>
      obtain ⟨q', hq', h', hcur'⟩ := enqueue_lists p h (hfresh (by simp [hcur]))
      exact ⟨q', hq', by simpa using h', hcur'.trans hcur⟩

/-- `sched_next` puts the running process at the end of the queue and takes the first one. -/
theorem schedNext_lists {a : NodeAddr} (h : q.Lists L)
    (hfresh : q.cur_Process ≠ none → q.nodes a = none) :
    ∃ q', q.schedNext a = some q' ∧
      match L ++ q.cur_Process.toList with
      | [] => q'.Lists [] ∧ q'.cur_Process = none
      | p :: L' => q'.Lists L' ∧ q'.cur_Process = some p := by
  obtain ⟨q₁, hq₁, h₁, hcur₁⟩ := enqueueNonNull_lists h hfresh
  simp only [schedNext, hq₁, Option.bind_eq_bind, Option.bind_some]
  cases hL : L ++ q.cur_Process.toList with
  | nil =>
      rw [hL] at h₁
      have hcur : q.cur_Process = none := by
        simpa using (List.append_eq_nil_iff.1 hL).2
      exact ⟨q₁, by simp [h₁.empty_iff.2 rfl], h₁, hcur₁.trans hcur⟩
  | cons p L' =>
      rw [hL] at h₁
      obtain ⟨q₂, hq₂, h₂, -⟩ := dequeue_lists h₁
      have hne : q₁.empty = false := by
        rw [← Bool.not_eq_true, h₁.empty_iff]
        simp
      obtain ⟨l, hrest⟩ := h₂
      exact ⟨{ q₂ with cur_Process := some p }, by simp [hne, hq₂], ⟨l, hrest⟩, rfl⟩

end Queue

end CrosKernel.Sched
