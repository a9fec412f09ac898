import CrosKernel.Containers.BinarySearchTree
import CrosKernel.Kernel.Kernel
import Mathlib.Data.List.Count
import Mathlib.Data.Set.Disjoint
import Mathlib.Order.BooleanAlgebra.Set

/-!
# Schedules

The kernel as the scheduler sees it: a `Schedule` is the list of processes with the nodes they live
in and their states, the process pointers in the queue and the running one. The relations on
schedules are the moves of which system calls are made. `Valid` and `Balanced` are the invariants
about them: every pointer leads to its process, and every process that is not asleep is scheduled
once.
-/

namespace CrosKernel

open Containers Sched

/-- A process of the table. -/
structure Slot where
  node : Addr
  pid : Pid
  state : State

/-- The processes, the queue and the running process. -/
structure Schedule where
  slots : List Slot
  queue : List ProcessRef
  cur : Option ProcessRef

namespace Schedule

/-- The process pointers that the scheduler holds. -/
def scheduled (s : Schedule) : List ProcessRef := s.cur.toList ++ s.queue

/-- The process in the node `a` gets the state `st`. -/
def setState (s : Schedule) (a : Addr) (st : State) : Schedule :=
  { s with slots := s.slots.map fun c => if c.node = a then { c with state := st } else c }

/-- A process pointer more at the end of the queue. -/
def enqueue (s : Schedule) (r : ProcessRef) : Schedule := { s with queue := s.queue ++ [r] }

/-- No process runs. -/
def sleep (s : Schedule) : Schedule := { s with cur := none }

/-! ## Moves -/

/-- The running process goes to the end of the queue and the first one runs. -/
inductive Switched (s : Schedule) : Schedule → Prop where
  | switch {r : ProcessRef} {L : List ProcessRef} :
      s.queue ++ s.cur.toList = r :: L → Switched s { s with queue := L, cur := some r }

/-- A process with the pid is added in a new node, and a process with the pid is enqueued. -/
inductive Spawned (s : Schedule) (pid : Pid) : Schedule → Prop where
  | spawn {A B : List Slot} {b : Addr} {c : Slot} :
      s.slots = A ++ B → (∀ d ∈ s.slots, d.node ≠ b) → c ∈ A ++ ⟨b, pid, .ACTIVE⟩ :: B →
      c.pid = pid →
      Spawned s pid { s with
        slots := A ++ ⟨b, pid, .ACTIVE⟩ :: B
        queue := s.queue ++ [⟨c.node, pid⟩] }

/-- A signal is raised on the pid, which the table resolves to `target`. It is ignored, or a
process with the pid gets it and is enqueued if it was waiting. -/
inductive Raised (s : Schedule) (target : Option Addr) (pid : Pid) : Schedule → Prop where
  | ignored : (∀ x, target = some x → ∃ c ∈ s.slots, c.node = x ∧ c.state = .SIGNAL) →
      Raised s target pid s
  | handled {c : Slot} {st : State} : c ∈ s.slots → c.pid = pid → target = some c.node →
      c.state = .ACTIVE → Raised s target pid (s.setState c.node st)
  | woken {c : Slot} {st : State} : c ∈ s.slots → c.pid = pid → target = some c.node →
      c.state = .SIGWAIT → Raised s target pid ((s.setState c.node st).enqueue ⟨c.node, pid⟩)

/-- A process is removed. Processes that live outside of the nodes `chain` stay where they are. -/
structure Removed (s : Schedule) (chain : List Addr) (s' : Schedule) : Prop where
  queue : s'.queue = s.queue
  cur : s'.cur = s.cur
  slots : ∀ c ∈ s.slots, c.node ∉ chain → c ∈ s'.slots

variable {s s' : Schedule}

theorem Raised.cur_eq {target : Option Addr} {pid : Pid} (h : s.Raised target pid s') :
    s'.cur = s.cur := by
  cases h <;> rfl

theorem Spawned.cur_eq {pid : Pid} (h : s.Spawned pid s') : s'.cur = s.cur := by
  cases h
  rfl

theorem mem_setState {c : Slot} (h : c ∈ s.slots) (a : Addr) (st : State) :
    ∃ c' ∈ (s.setState a st).slots, c'.node = c.node ∧ c'.pid = c.pid := by
  refine ⟨_, List.mem_map_of_mem h, ?_⟩
  split <;> exact ⟨rfl, rfl⟩

@[simp]
theorem setState_pids (s : Schedule) (a : Addr) (st : State) :
    (s.setState a st).slots.map Slot.pid = s.slots.map Slot.pid := by
  simp only [setState, List.map_map]
  refine List.map_congr_left fun c _ => ?_
  simp only [Function.comp_apply]
  split <;> rfl

@[simp]
theorem setState_nodes (s : Schedule) (a : Addr) (st : State) :
    (s.setState a st).slots.map Slot.node = s.slots.map Slot.node := by
  simp only [setState, List.map_map]
  refine List.map_congr_left fun c _ => ?_
  simp only [Function.comp_apply]
  split <;> rfl

theorem exists_mem_of_setState {a : Addr} {st : State} {c : Slot}
    (h : c ∈ (s.setState a st).slots) : ∃ d ∈ s.slots, d.node = c.node := by
  have hmem : c.node ∈ (s.setState a st).slots.map Slot.node := List.mem_map_of_mem h
  rw [setState_nodes] at hmem
  exact List.mem_map.1 hmem

/-! ## Pointers lead to their processes -/

/-- Every process pointer leads to the process for which it was taken. -/
def Valid (s : Schedule) : Prop :=
  ∀ r ∈ s.scheduled, ∃ c ∈ s.slots, c.node = r.node ∧ c.pid = r.enqueued

theorem Valid.mono (h : s.Valid) (hscheduled : ∀ r ∈ s'.scheduled, r ∈ s.scheduled)
    (hslots : ∀ c ∈ s.slots, ∃ c' ∈ s'.slots, c'.node = c.node ∧ c'.pid = c.pid) : s'.Valid := by
  intro r hr
  obtain ⟨c, hc, hnode, hpid⟩ := h r (hscheduled r hr)
  obtain ⟨c', hc', hnode', hpid'⟩ := hslots c hc
  exact ⟨c', hc', hnode'.trans hnode, hpid'.trans hpid⟩

theorem Valid.setState (h : s.Valid) (a : Addr) (st : State) : (s.setState a st).Valid :=
  h.mono (fun _ hr => hr) fun _ hc => mem_setState hc a st

theorem Valid.sleep (h : s.Valid) : s.sleep.Valid :=
  h.mono (fun r hr => by simp_all [scheduled, Schedule.sleep]) fun c hc => ⟨c, hc, rfl, rfl⟩

theorem Valid.enqueue {c : Slot} (h : s.Valid) (hc : c ∈ s.slots) :
    (s.enqueue ⟨c.node, c.pid⟩).Valid := by
  intro r hr
  have hr' : r ∈ s.scheduled ∨ r = ⟨c.node, c.pid⟩ := by
    simp only [scheduled, Schedule.enqueue, List.mem_append, List.mem_singleton] at hr ⊢
    tauto
  rcases hr' with hr' | rfl
  exacts [h r hr', ⟨c, hc, rfl, rfl⟩]

theorem Switched.mem_scheduled {r : ProcessRef} (h : s.Switched s') :
    r ∈ s'.scheduled ↔ r ∈ s.scheduled := by
  obtain ⟨heq⟩ := h
  rename_i p L
  have hmem : r ∈ s.queue ++ s.cur.toList ↔ r ∈ p :: L := by rw [heq]
  simp only [scheduled, List.mem_append, Option.toList_some, List.mem_cons] at hmem ⊢
  simp only [List.not_mem_nil, or_false]
  tauto

theorem Switched.cur_ne_none (h : s.Switched s') : s'.cur ≠ none := by
  obtain ⟨-⟩ := h
  exact Option.some_ne_none _

theorem Valid.switched (h : s.Valid) (hs : s.Switched s') : s'.Valid := by
  have hmem := fun r => hs.mem_scheduled (r := r)
  obtain ⟨heq⟩ := hs
  exact h.mono (fun r hr => (hmem r).1 hr) fun c hc => ⟨c, hc, rfl, rfl⟩

theorem Valid.spawned {pid : Pid} (h : s.Valid) (hs : s.Spawned pid s') : s'.Valid := by
  cases hs with
  | spawn hslots hfresh hc hpid =>
      rename_i A B b c
      have h₁ : Valid { s with slots := A ++ ⟨b, pid, .ACTIVE⟩ :: B } := by
        refine h.mono (fun _ hr => hr) fun d hd => ⟨d, ?_, rfl, rfl⟩
        rw [hslots] at hd
        simp only [List.mem_append, List.mem_cons] at hd ⊢
        tauto
      subst hpid
      exact h₁.enqueue hc

theorem Valid.raised {target : Option Addr} {pid : Pid} (h : s.Valid)
    (hs : s.Raised target pid s') : s'.Valid := by
  cases hs with
  | ignored => exact h
  | handled => exact h.setState _ _
  | woken hc hpid htarget hstate =>
      rename_i c st
      obtain ⟨c', hc', hnode, hpid'⟩ := mem_setState hc c.node st
      have hvalid := (h.setState c.node st).enqueue hc'
      rwa [hnode, hpid', hpid] at hvalid

/-- Removal keeps the pointers valid when none of them leads into the chain. -/
theorem Valid.removed {chain : List Addr} (h : s.Valid) (hs : s.Removed chain s')
    (hchain : ∀ r ∈ s'.scheduled, r.node ∉ chain) : s'.Valid := by
  intro r hr
  have hr' : r ∈ s.scheduled := by
    rwa [scheduled, hs.queue, hs.cur] at hr
  obtain ⟨c, hc, hnode, hpid⟩ := h r hr'
  exact ⟨c, hs.slots c hc (hnode ▸ hchain r hr), hnode, hpid⟩

/-! ## Every process that is awake is scheduled once -/

/-- How often the scheduler holds a pointer to the node `a`. -/
def occurrences (s : Schedule) (a : Addr) : Nat := (s.scheduled.map ProcessRef.node).count a

/-- Processes have distinct pids and nodes, the asleep ones wait for a signal and are scheduled
nowhere, and all others are scheduled once. -/
structure Balanced (s : Schedule) (asleep : Set Addr) : Prop where
  pids : (s.slots.map Slot.pid).Nodup
  nodes : (s.slots.map Slot.node).Nodup
  refs : ∀ r ∈ s.scheduled, ∃ c ∈ s.slots, c.node = r.node
  waiting : ∀ a ∈ asleep, ∃ c ∈ s.slots, c.node = a ∧ c.state = .SIGWAIT
  none : ∀ c ∈ s.slots, c.node ∈ asleep → s.occurrences c.node = 0
  one : ∀ c ∈ s.slots, c.node ∉ asleep → s.occurrences c.node = 1

variable {asleep : Set Addr}

theorem occurrences_pos {r : ProcessRef} (h : r ∈ s.scheduled) : 0 < s.occurrences r.node :=
  List.count_pos_iff.2 (List.mem_map_of_mem h)

theorem Switched.occurrences (h : s.Switched s') (a : Addr) :
    s'.occurrences a = s.occurrences a := by
  obtain ⟨heq⟩ := h
  rename_i r L
  have hperm : (s.cur.toList ++ s.queue).Perm (r :: L) := heq ▸ List.perm_append_comm
  exact ((hperm.map ProcessRef.node).count_eq a).symm

theorem Balanced.switched (h : s.Balanced asleep) (hs : s.Switched s') : s'.Balanced asleep := by
  have hmem := fun r => hs.mem_scheduled (r := r)
  have hocc := hs.occurrences
  obtain ⟨heq⟩ := hs
  exact ⟨h.pids, h.nodes, fun r hr => h.refs r ((hmem r).1 hr), h.waiting,
    fun c hc ha => (hocc _).trans (h.none c hc ha), fun c hc ha => (hocc _).trans (h.one c hc ha)⟩

/-- A running process is not asleep. -/
theorem Balanced.not_mem_asleep {r : ProcessRef} (h : s.Balanced asleep) (hr : r ∈ s.scheduled) :
    r.node ∉ asleep := by
  intro ha
  obtain ⟨c, hc, hnode⟩ := h.refs r hr
  have hzero := h.none c hc (hnode ▸ ha)
  have hpos := occurrences_pos hr
  rw [← hnode] at hpos
  omega

/-- Processes that are scheduled nowhere. -/
theorem occurrences_eq_zero {a : Addr} (h : ∀ r ∈ s.scheduled, r.node ≠ a) :
    s.occurrences a = 0 := by
  refine List.count_eq_zero.2 fun hmem => ?_
  obtain ⟨r, hr, heq⟩ := List.mem_map.1 hmem
  exact h r hr heq

theorem occurrences_enqueue (s : Schedule) (r : ProcessRef) (a : Addr) :
    (s.enqueue r).occurrences a = s.occurrences a + if r.node = a then 1 else 0 := by
  simp only [occurrences, scheduled, enqueue, List.map_append, List.count_append, List.map_cons,
    List.map_nil, List.count_singleton, beq_iff_eq]
  omega

/-- Changing states and the set of sleeping processes. Only sleeping processes have to keep their
state. -/
theorem Balanced.setState {a : Addr} {st : State} (h : s.Balanced asleep) (ha : a ∉ asleep) :
    (s.setState a st).Balanced asleep where
  pids := by simpa using h.pids
  nodes := by simpa using h.nodes
  refs r hr := by
    obtain ⟨c, hc, hnode⟩ := h.refs r hr
    obtain ⟨c', hc', hnode', -⟩ := mem_setState hc a st
    exact ⟨c', hc', hnode'.trans hnode⟩
  waiting x hx := by
    obtain ⟨c, hc, rfl, hstate⟩ := h.waiting x hx
    have hne : c.node ≠ a := fun heq => ha (heq ▸ hx)
    exact ⟨c, List.mem_map.2 ⟨c, hc, if_neg hne⟩, rfl, hstate⟩
  none c hc hx := by
    obtain ⟨d, hd, hnode⟩ := exists_mem_of_setState hc
    rw [← hnode] at hx ⊢
    exact h.none d hd hx
  one c hc hx := by
    obtain ⟨d, hd, hnode⟩ := exists_mem_of_setState hc
    rw [← hnode] at hx ⊢
    exact h.one d hd hx

/-- A process with a new pid and its pointer. -/
theorem Balanced.spawned {pid : Pid} (h : s.Balanced asleep) (hs : s.Spawned pid s')
    (hpid : ∀ c ∈ s.slots, c.pid ≠ pid) : s'.Balanced asleep := by
  cases hs with
  | spawn hslots hfresh hc hcpid =>
      rename_i A B b c
      have hmem : ∀ d, d ∈ A ++ ⟨b, pid, .ACTIVE⟩ :: B ↔ d = ⟨b, pid, .ACTIVE⟩ ∨ d ∈ s.slots := by
        intro d
        rw [hslots]
        simp only [List.mem_append, List.mem_cons]
        tauto
      -- the pid is new, so the pointer that is enqueued is one to the new node
      obtain rfl : c = ⟨b, pid, .ACTIVE⟩ := by
        rcases (hmem c).1 hc with heq | hc
        exacts [heq, absurd hcpid (hpid c hc)]
      have hzero : s.occurrences b = 0 := by
        refine occurrences_eq_zero fun r hr heq => ?_
        obtain ⟨d, hd, hnode⟩ := h.refs r hr
        exact hfresh d hd (hnode.trans heq)
      have hb : b ∉ asleep := by
        intro hb
        obtain ⟨d, hd, hnode, -⟩ := h.waiting b hb
        exact hfresh d hd hnode
      have hocc : ∀ x, occurrences { s with
          slots := A ++ ⟨b, pid, .ACTIVE⟩ :: B
          queue := s.queue ++ [⟨b, pid⟩] } x = s.occurrences x + if b = x then 1 else 0 :=
        occurrences_enqueue s ⟨b, pid⟩
      have hperm : (A ++ ⟨b, pid, .ACTIVE⟩ :: B).Perm (⟨b, pid, .ACTIVE⟩ :: s.slots) :=
        hslots ▸ List.perm_middle
      refine ⟨?_, ?_, fun r hr => ?_, fun x hx => ?_, fun d hd hx => ?_, fun d hd hx => ?_⟩
      · refine (hperm.map Slot.pid).nodup_iff.2 (List.nodup_cons.2 ⟨fun hp => ?_, h.pids⟩)
        obtain ⟨d, hd, heq⟩ := List.mem_map.1 hp
        exact hpid d hd heq
      · refine (hperm.map Slot.node).nodup_iff.2 (List.nodup_cons.2 ⟨fun hp => ?_, h.nodes⟩)
        obtain ⟨d, hd, heq⟩ := List.mem_map.1 hp
        exact hfresh d hd heq
      · have hr' : r ∈ s.scheduled ∨ r = ⟨b, pid⟩ := by
          simp only [scheduled, List.mem_append, List.mem_singleton] at hr ⊢
          tauto
        rcases hr' with hr' | rfl
        · obtain ⟨d, hd, hnode⟩ := h.refs r hr'
          exact ⟨d, (hmem d).2 (.inr hd), hnode⟩
        · exact ⟨_, hc, rfl⟩
      · obtain ⟨d, hd, hnode⟩ := h.waiting x hx
        exact ⟨d, (hmem d).2 (.inr hd), hnode⟩
      · rcases (hmem d).1 hd with rfl | hd
        · exact absurd hx hb
        · rw [hocc, h.none d hd hx, if_neg (hfresh d hd).symm]
      · rcases (hmem d).1 hd with rfl | hd
        · rw [hocc, hzero, if_pos rfl]
        · rw [hocc, h.one d hd hx, if_neg (hfresh d hd).symm]

/-- A process that is scheduled nowhere wakes up and is scheduled once. -/
theorem Balanced.woken {c : Slot} {st : State} (h : s.Balanced asleep) (hc : c ∈ s.slots)
    (hout : s.occurrences c.node = 0) :
    ((s.setState c.node st).enqueue ⟨c.node, c.pid⟩).Balanced (asleep \ {c.node}) where
  pids := by simpa [Schedule.enqueue] using h.pids
  nodes := by simpa [Schedule.enqueue] using h.nodes
  refs r hr := by
    have hr' : r ∈ s.scheduled ∨ r = ⟨c.node, c.pid⟩ := by
      simp only [scheduled, Schedule.enqueue, Schedule.setState, List.mem_append,
        List.mem_singleton] at hr ⊢
      tauto
    rcases hr' with hr' | rfl
    · obtain ⟨d, hd, hnode⟩ := h.refs r hr'
      obtain ⟨d', hd', hnode', -⟩ := mem_setState hd c.node st
      exact ⟨d', hd', hnode'.trans hnode⟩
    · obtain ⟨d', hd', hnode', -⟩ := mem_setState hc c.node st
      exact ⟨d', hd', hnode'⟩
  waiting x hx := by
    obtain ⟨d, hd, rfl, hstate⟩ := h.waiting x hx.1
    exact ⟨d, List.mem_map.2 ⟨d, hd, if_neg hx.2⟩, rfl, hstate⟩
  none d hd hx := by
    obtain ⟨d', hd', hnode⟩ := exists_mem_of_setState hd
    rw [← hnode] at hx ⊢
    rw [occurrences_enqueue, if_neg fun heq => hx.2 heq.symm]
    exact h.none d' hd' hx.1
  one d hd hx := by
    obtain ⟨d', hd', hnode⟩ := exists_mem_of_setState hd
    rw [← hnode] at hx ⊢
    rw [occurrences_enqueue]
    by_cases heq : c.node = d'.node
    · rw [if_pos heq, ← heq]
      show s.occurrences c.node + 1 = 1
      rw [hout]
    · rw [if_neg heq]
      exact h.one d' hd' fun ha => hx ⟨ha, fun heq' => heq heq'.symm⟩

/-- A signal, raised on a process that is not both waiting and scheduled. -/
theorem Balanced.raised {target : Option Addr} {pid : Pid} (h : s.Balanced asleep)
    (hs : s.Raised target pid s')
    (hsafe : ∀ c ∈ s.slots, target = some c.node → c.state = .SIGWAIT → s.occurrences c.node = 0) :
    s'.Balanced (asleep \ {a | target = some a}) := by
  have hstate : ∀ c ∈ s.slots, c.state ≠ .SIGWAIT → c.node ∉ asleep := by
    intro c hc hne ha
    obtain ⟨d, hd, hnode, hwait⟩ := h.waiting _ ha
    obtain rfl := List.inj_on_of_nodup_map h.nodes hd hc hnode
    exact hne hwait
  cases hs with
  | ignored hsignal =>
      have hout : ∀ x ∈ {a | target = some a}, x ∉ asleep := by
        intro x hx
        obtain ⟨c, hc, rfl, hsig⟩ := hsignal x hx
        exact hstate c hc (by simp [hsig])
      rwa [sdiff_eq_left.2 (Set.disjoint_right.2 hout)]
  | handled hc hpid htarget hactive =>
      rename_i c st
      have hout := hstate c hc (by simp [hactive])
      have heq : {a | target = some a} = {c.node} := by
        ext x
        simp [htarget, eq_comm]
      rw [heq, Set.sdiff_singleton_eq_self hout]
      exact h.setState hout
  | woken hc hpid htarget hwait =>
      rename_i c st
      have heq : {a | target = some a} = {c.node} := by
        ext x
        simp [htarget, eq_comm]
      rw [heq, ← hpid]
      exact h.woken hc (hsafe c hc htarget hwait)

/-- The running process waits for a signal and another one runs. -/
theorem Balanced.slept {r : ProcessRef} (h : s.Balanced asleep) (hr : s.cur = some r)
    (hs : (s.setState r.node .SIGWAIT).sleep.Switched s') :
    s'.Balanced (insert r.node asleep) := by
  have hmem : r ∈ s.scheduled := by simp [scheduled, hr]
  have hawake := h.not_mem_asleep hmem
  have hocc : ∀ x, s.occurrences x =
      (s.setState r.node .SIGWAIT).sleep.occurrences x + if r.node = x then 1 else 0 := by
    intro x
    simp only [occurrences, scheduled, Schedule.sleep, Schedule.setState, hr, Option.toList_some,
      Option.toList_none, List.nil_append, List.singleton_append, List.map_cons, List.count_cons,
      beq_iff_eq]
  refine Balanced.switched ⟨?_, ?_, fun p hp => ?_, fun x hx => ?_, fun c hc hx => ?_,
    fun c hc hx => ?_⟩ hs
  · simpa [Schedule.sleep] using h.pids
  · simpa [Schedule.sleep] using h.nodes
  · have hp' : p ∈ s.scheduled := by simp_all [scheduled, Schedule.sleep, Schedule.setState]
    obtain ⟨c, hc, hnode⟩ := h.refs p hp'
    obtain ⟨c', hc', hnode', -⟩ := mem_setState hc r.node .SIGWAIT
    exact ⟨c', hc', hnode'.trans hnode⟩
  · rcases hx with rfl | hx
    · obtain ⟨c, hc, hnode⟩ := h.refs r hmem
      exact ⟨_, List.mem_map.2 ⟨c, hc, if_pos hnode⟩, hnode, rfl⟩
    · obtain ⟨c, hc, rfl, hstate⟩ := h.waiting x hx
      have hne : c.node ≠ r.node := fun heq => hawake (heq ▸ hx)
      exact ⟨c, List.mem_map.2 ⟨c, hc, if_neg hne⟩, rfl, hstate⟩
  · obtain ⟨d, hd, hnode⟩ := exists_mem_of_setState hc
    rw [← hnode] at hx ⊢
    have hx' := hocc d.node
    rcases hx with heq | hx
    · have hone := h.one d hd (heq ▸ hawake)
      rw [if_pos heq.symm] at hx'
      omega
    · have hzero := h.none d hd hx
      omega
  · obtain ⟨d, hd, hnode⟩ := exists_mem_of_setState hc
    rw [← hnode] at hx ⊢
    have hx' := hocc d.node
    rw [Set.mem_insert_iff, not_or] at hx
    rw [if_neg fun heq => hx.1 heq.symm] at hx'
    have hone := h.one d hd hx.2
    omega

end Schedule

end CrosKernel
