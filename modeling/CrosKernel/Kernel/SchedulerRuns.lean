import CrosKernel.Kernel.KernelView

/-!
# The scheduler over whole runs

`scheduled_valid` says when every process pointer of the scheduler leads to the process for which
it was taken: removing a process from the table copies processes between nodes, so no scheduled
process may live in the nodes that a removal changes. `scheduled_once` says when every process that
is not asleep is scheduled exactly once: a signal that does not end the waiting state enqueues its
process again each time.
-/

namespace CrosKernel.Kernel

open Containers Sched Lib Schedule

variable {k k' : Kernel} {v : View}

/-! ## Pointers lead to their processes -/

/-- The parent of the active process, if it waits for a signal: ending the active process enqueues
it. -/
def wokenParent (k : Kernel) : Option Addr := do
  let parent ← k.activeParent
  let node ← k.target parent
  let p ← k.process node
  if p.state = .SIGWAIT then some node else none

/-- When a process ends, no pointer in the queue, with the one to its parent that the signal adds,
leads into the nodes that its removal changes. -/
def RemovalSafe (k : Kernel) (e : Event) : Prop :=
  ∀ ctx, e = .syscall ctx .terminate →
    (∀ r ∈ k.scheduler.values, r.node ∉ k.removedChain) ∧
      ∀ x, k.wokenParent = some x → x ∉ k.removedChain

/-- Every process pointer in the queue and in `cur_Process` leads to a node of the process table
that stores the process for which the pointer was taken. -/
def PointersValid (k : Kernel) : Prop :=
  ∀ r ∈ k.scheduler.scheduled, ∃ n, k.processTable.nodes r.node = some n ∧ n.value.pid = r.enqueued

theorem PointersValid.of_valid (h : Views k v) (hvalid : v.schedule.Valid) : PointersValid k := by
  intro r hr
  rw [h.scheduled_eq] at hr
  obtain ⟨c, hc, hnode, hpid⟩ := hvalid r hr
  obtain ⟨e, he, rfl⟩ := List.mem_map.1 hc
  obtain ⟨n, hn, -, hvalue⟩ := h.table.exists_node he
  refine ⟨n, ?_, ?_⟩
  · rw [← hnode]
    exact hn
  · rw [hvalue, h.key_eq e he]
    exact hpid

/-- The pointers that a terminating process leaves in the scheduler stay out of its chain. -/
theorem not_mem_removedChain {parent : Pid} {s : Schedule} {r : ProcessRef} (h : Views k v)
    (hparent : k.activeParent = some parent)
    (hraised : v.schedule.Raised (k.target parent) parent s)
    (hqueue : ∀ r ∈ k.scheduler.values, r.node ∉ k.removedChain)
    (hwoken : ∀ x, k.wokenParent = some x → x ∉ k.removedChain) (hr : r ∈ s.queue) :
    r.node ∉ k.removedChain := by
  rw [h.queue.values_eq] at hqueue
  cases hraised with
  | ignored => exact hqueue r hr
  | handled => exact hqueue r hr
  | woken hc hpid htarget hstate =>
      rcases List.mem_append.1 hr with hr | hr
      · exact hqueue r hr
      · obtain ⟨e, he, rfl⟩ := List.mem_map.1 hc
        obtain rfl := List.mem_singleton.1 hr
        refine hwoken _ ?_
        have hstate' : e.value.state = .SIGWAIT := hstate
        have hprocess := h.process_eq he
        simp only [slot] at htarget ⊢
        simp [wokenParent, hparent, htarget, hprocess, hstate']

theorem Effect.valid {e : Event} {s' : Schedule} (h : Views k v) (hvalid : v.schedule.Valid)
    (heffect : Effect k v.schedule e s') (hsafe : RemovalSafe k e) : s'.Valid := by
  cases heffect with
  | addProcess hs => exact hvalid.spawned hs
  | timer hs => exact hvalid.switched hs
  | syscall hcall =>
      rename_i ctx call
      cases hcall with
      | clone hs => exact hvalid.spawned hs
      | yield hs => exact hvalid.switched hs
      | sigraise hs => exact hvalid.raised hs
      | sigret => exact hvalid.setState _ _
      | sigwait _ hs => exact ((hvalid.setState _ _).sleep).switched hs
      | sigaction => exact hvalid
      | terminate hparent hraised hremoved hswitched =>
          rename_i parent s₁ s₂
          obtain ⟨hqueue, hwoken⟩ := hsafe ctx rfl
          -- the pointer to the running process is dropped, the others stay out of the chain
          have hvalid₁ : s₁.sleep.Valid := (hvalid.raised hraised).sleep
          have hremoved' : s₁.sleep.Removed k.removedChain s₂.sleep :=
            ⟨hremoved.queue, rfl, hremoved.slots⟩
          refine (hvalid₁.removed hremoved' fun r hr => ?_).switched hswitched
          have hr' : r ∈ s₁.queue := by
            simpa [scheduled, Schedule.sleep, hremoved.queue] using hr
          exact not_mem_removedChain h hparent hraised hqueue hwoken hr'

/-- In every run in which processes end safely, every process pointer that the scheduler holds leads
to the process for which it was taken. -/
theorem scheduled_valid {es : List Event} (h : Run (Guarded RemovalSafe Step) init es k) :
    PointersValid k := by
  have hstep : ∀ k e k', (∃ v, Views k v ∧ v.schedule.Valid) → Guarded RemovalSafe Step k e k' →
      ∃ v, Views k' v ∧ v.schedule.Valid := by
    rintro k e k' ⟨v, hv, hvalid⟩ ⟨hsafe, hstep⟩
    obtain ⟨v', hv', heffect⟩ := step_effect hv hstep
    exact ⟨v', hv', heffect.valid hv hvalid hsafe⟩
  obtain ⟨v, hv, hvalid⟩ := h.invariant ⟨_, init_views, fun r hr => nomatch hr⟩ hstep
  exact .of_valid hv hvalid

/-! ## Processes that are not asleep are scheduled once -/

/-- The processes that called `sigwait` and on which no signal was raised since, by their nodes,
after an event. -/
def asleepAfter (k : Kernel) (asleep : Set Addr) : Event → Set Addr
  | .syscall _ .sigwait => {a | ∃ r, k.getActiveProcess = some r ∧ r.node = a} ∪ asleep
  | .syscall _ (.sigraise pid _) => asleep \ {a | k.target pid = some a}
  | _ => asleep

/-- A step of the kernel, with the record of the processes that are asleep. -/
def SleepStep (s : Kernel × Set Addr) (e : Event) (s' : Kernel × Set Addr) : Prop :=
  Step s.1 e s'.1 ∧ s'.2 = asleepAfter s.1 s.2 e

/-- No process ends, a process whose state is that of waiting for a signal is scheduled nowhere when
a signal is raised on it, and the pid of a new process is not in use. -/
def WakeSafe (k : Kernel) : Event → Prop
  | .addProcess p => k.processTable.contains p.pid = some false
  | .timer _ => True
  | .syscall _ call => match call with
    | .clone .. => k.processTable.contains k.currPid = some false
    | .terminate => False
    | .sigraise pid _ => ∀ x p, k.target pid = some x → k.process x = some p → p.state = .SIGWAIT →
        ∀ r ∈ k.scheduler.scheduled, r.node ≠ x
    | _ => True

/-- How often the queue and `cur_Process` hold a pointer to the node `a`. -/
def occurrences (k : Kernel) (a : Addr) : Nat :=
  (k.scheduler.scheduled.map ProcessRef.node).count a

/-- Processes that are asleep are scheduled nowhere and all others once. -/
def ScheduledOnce (k : Kernel) (asleep : Set Addr) : Prop :=
  ∀ a n, k.processTable.nodes a = some n →
    (a ∈ asleep → k.occurrences a = 0) ∧ (a ∉ asleep → k.occurrences a = 1)

theorem ScheduledOnce.of_balanced {asleep : Set Addr} (h : Views k v)
    (hbalanced : v.schedule.Balanced asleep) : ScheduledOnce k asleep := by
  intro a n hn
  have hmem : slot ⟨a, n.key, n.value⟩ ∈ v.schedule.slots :=
    View.mem_slots (h.table.mem_of_nodes hn)
  rw [occurrences, h.scheduled_eq]
  exact ⟨hbalanced.none _ hmem, hbalanced.one _ hmem⟩

/-- A pid that is not in the table is no pid of a process. -/
theorem pid_ne_of_not_contains {pid : Pid} (h : Views k v)
    (hpid : k.processTable.contains pid = some false) : ∀ c ∈ v.schedule.slots, c.pid ≠ pid := by
  intro c hc heq
  obtain ⟨e, he, rfl⟩ := List.mem_map.1 hc
  obtain ⟨b, hb, hiff⟩ := h.table.contains pid
  obtain rfl := Option.some.inj (hb.symm.trans hpid)
  cases hiff.2 ⟨e, he, heq⟩

/-- No event that is safe unbalances the schedule. -/
theorem Effect.balanced {asleep : Set Addr} {e : Event} {s' : Schedule} (h : Views k v)
    (hbalanced : v.schedule.Balanced asleep) (heffect : Effect k v.schedule e s')
    (hsafe : WakeSafe k e) : s'.Balanced (asleepAfter k asleep e) := by
  cases heffect with
  | addProcess hs => exact hbalanced.spawned hs (pid_ne_of_not_contains h hsafe)
  | timer hs => exact hbalanced.switched hs
  | syscall hcall =>
      cases hcall with
      | clone hs => exact hbalanced.spawned hs (pid_ne_of_not_contains h hsafe)
      | terminate => exact hsafe.elim
      | yield hs => exact hbalanced.switched hs
      | sigraise hs =>
          refine hbalanced.raised hs fun c hc htarget hstate => occurrences_eq_zero fun r hr => ?_
          obtain ⟨e, he, rfl⟩ := List.mem_map.1 hc
          exact hsafe e.id e.value htarget (h.process_eq he) hstate r (h.scheduled_eq ▸ hr)
      | sigret hr =>
          -- the running process is not asleep, so it may change its state
          exact hbalanced.setState (hbalanced.not_mem_asleep (by simp [scheduled, hr]))
      | sigwait hr hs =>
          rename_i r
          have hasleep : {a | ∃ r, k.getActiveProcess = some r ∧ r.node = a} = {r.node} := by
            ext a
            simp [getActiveProcess, h.cur, show v.cur = some r from hr, eq_comm]
          rw [asleepAfter, hasleep]
          exact hbalanced.slept hr hs
      | sigaction => exact hbalanced

/-- In every run without `terminate` in which signals are raised safely, every process that sleeps
in `sigwait` is scheduled nowhere and every other one exactly once. -/
theorem scheduled_once {es : List Event} {asleep : Set Addr}
    (h : Run (Guarded (fun s e => WakeSafe s.1 e) SleepStep) (init, ∅) es (k, asleep)) :
    ScheduledOnce k asleep := by
  have hinit : (⟨[], [], none⟩ : Schedule).Balanced ∅ := by
    constructor <;> simp [scheduled]
  have hstep : ∀ (s : Kernel × Set Addr) (e : Event) (s' : Kernel × Set Addr),
      (∃ v, Views s.1 v ∧ v.schedule.Balanced s.2) →
      Guarded (fun s e => WakeSafe s.1 e) SleepStep s e s' →
      ∃ v, Views s'.1 v ∧ v.schedule.Balanced s'.2 := by
    rintro ⟨k, asleep⟩ e ⟨k', asleep'⟩ ⟨v, hv, hbalanced⟩ ⟨hsafe, hstep, rfl⟩
    obtain ⟨v', hv', heffect⟩ := step_effect hv hstep
    exact ⟨v', hv', heffect.balanced hv hbalanced hsafe⟩
  obtain ⟨v, hv, hbalanced⟩ := h.invariant ⟨_, init_views, hinit⟩ hstep
  exact .of_balanced hv hbalanced

/-! ## Concrete runs -/

/-- Perform events one after the other at the given addresses of new nodes, as long as the guard
holds. -/
def performAll (guard : Kernel → Event → Bool) : Kernel → List (NodeAddr × Addr × Event) →
    Option Kernel
  | k, [] => some k
  | k, (a, b, e) :: l =>
      if guard k e ∧ (k.scheduler.nodes a).isNone ∧ (k.processTable.nodes b).isNone then do
        let k ← k.perform a b e
        performAll guard k l
      else none

/-- Events that can be performed are a run. -/
theorem run_of_performAll {guard : Kernel → Event → Bool} {ok : Kernel → Event → Prop}
    (hguard : ∀ k e, guard k e = true → ok k e) {l : List (NodeAddr × Addr × Event)}
    (hnew : ∀ x ∈ l, ∀ p, x.2.2 = .addProcess p → Constructed p)
    (h : performAll guard k l = some k') :
    Run (Guarded ok Step) k (l.map fun x => x.2.2) k' := by
  induction l generalizing k with
  | nil =>
      cases h
      exact .nil _
  | cons x l ih =>
      obtain ⟨a, b, e⟩ := x
      simp only [performAll] at h
      split at h
      case isTrue hcond =>
        obtain ⟨hok, ha, hb⟩ := hcond
        obtain ⟨k₁, hk₁, hl⟩ := Option.bind_eq_some_iff.1 h
        refine .cons ⟨hguard _ _ hok, hnew _ List.mem_cons_self, a, b, ?_, ?_, hk₁⟩
          (ih (fun y hy => hnew y (List.mem_cons_of_mem _ hy)) hl)
        · simpa using ha
        · simpa using hb
      case isFalse => cases h

/-- The guard of `RemovalSafe` as a test. -/
def removalGuard (k : Kernel) : Event → Bool
  | .syscall _ .terminate =>
      (k.scheduler.values.all fun r => !k.removedChain.contains r.node) &&
        (k.wokenParent.all fun x => !k.removedChain.contains x)
  | _ => true

theorem removalSafe_of_guard (k : Kernel) (e : Event) (h : removalGuard k e = true) :
    RemovalSafe k e := by
  rintro ctx rfl
  simp only [removalGuard, Bool.and_eq_true, List.all_eq_true, Option.all_eq_true,
    Bool.not_eq_true', List.contains_eq_mem, decide_eq_false_iff_not] at h
  exact h

/-- Some registers. -/
private def someContext : Context := Context.new 0 0 0

/-- The boot, a clone, a switch to the clone, and the clone ends. -/
private def clonedRun : List (NodeAddr × Addr × Event) :=
  [(0, 0, .addProcess (Process.init 0)), (1, 1, .timer someContext),
    (1, 1, .syscall someContext (.clone 0 0 0 0)), (2, 2, .syscall someContext .yield),
    (3, 3, .syscall someContext .terminate)]

private theorem constructed_of_mem_clonedRun (x : NodeAddr × Addr × Event) (hx : x ∈ clonedRun)
    (p : Process) (hp : x.2.2 = .addProcess p) : Constructed p := by
  simp only [clonedRun, List.mem_cons, List.not_mem_nil, or_false] at hx
  rcases hx with rfl | rfl | rfl | rfl | rfl <;> cases hp
  exact ⟨rfl, Process.new_noKill _ _ _ _ _⟩

theorem scheduled_valid_cloned :
    ∃ k, Run (Guarded RemovalSafe Step) init (clonedRun.map fun x => x.2.2) k ∧
      PointersValid k := by
  obtain ⟨k, hk⟩ : ∃ k, performAll removalGuard init clonedRun = some k :=
    Option.isSome_iff_exists.1 (by decide)
  have hrun := run_of_performAll removalSafe_of_guard constructed_of_mem_clonedRun hk
  exact ⟨k, hrun, scheduled_valid hrun⟩

/-- The process 1 ends while its clone 2 is in the queue. The tree copies the process 2 into the
node of 1 and deletes the node to which the queue points. -/
private def danglingRun : List (NodeAddr × Addr × Event) :=
  [(0, 0, .addProcess (Process.init 0)), (1, 1, .timer someContext),
    (1, 1, .syscall someContext (.clone 0 0 0 0)), (2, 2, .syscall someContext .yield),
    (3, 2, .syscall someContext (.clone 0 0 0 0)), (4, 3, .syscall someContext .terminate)]

private theorem constructed_of_mem_danglingRun (x : NodeAddr × Addr × Event)
    (hx : x ∈ danglingRun) (p : Process) (hp : x.2.2 = .addProcess p) : Constructed p := by
  simp only [danglingRun, List.mem_cons, List.not_mem_nil, or_false] at hx
  rcases hx with rfl | rfl | rfl | rfl | rfl | rfl <;> cases hp
  exact ⟨rfl, Process.new_noKill _ _ _ _ _⟩

/-- Not every run leaves valid pointers in the scheduler. -/
theorem terminate_leaves_dangling_pointer :
    ¬ ∀ es k, Run Step init es k → PointersValid k := by
  intro hall
  obtain ⟨k, hk, hdangling⟩ : ∃ k, performAll (fun _ _ => true) init danglingRun = some k ∧
      ∃ r ∈ k.scheduler.scheduled, k.processTable.nodes r.node = none := by
    have htest : (performAll (fun _ _ => true) init danglingRun).any (fun k =>
        k.scheduler.scheduled.any fun r => (k.processTable.nodes r.node).isNone) = true := by
      decide
    simpa [Option.any_eq_true] using htest
  have hok : ∀ (k : Kernel) (e : Event), (true : Bool) = true → True := fun _ _ _ => trivial
  have hrun := run_of_performAll hok constructed_of_mem_danglingRun hk
  obtain ⟨r, hr, hnone⟩ := hdangling
  obtain ⟨n, hn, -⟩ := hall _ k (hrun.mono fun _ _ _ h => h.2) r hr
  rw [hnone] at hn
  cases hn

/-- Every run of the kernel has a record of the processes that are asleep. -/
theorem exists_sleep_run {ok : Kernel → Event → Prop} {es : List Event}
    (h : Run (Guarded ok Step) k es k') (asleep : Set Addr) :
    ∃ asleep', Run (Guarded (fun s e => ok s.1 e) SleepStep) (k, asleep) es (k', asleep') := by
  let recorded (k : Kernel) (s : Kernel × Set Addr) : Prop := s.1 = k
  have hstep : ∀ k e k' s, recorded k s → Guarded ok Step k e k' →
      ∃ s', Guarded (fun s e => ok s.1 e) SleepStep s e s' ∧ recorded k' s' := by
    rintro _ e k' ⟨k, asleep⟩ rfl ⟨hok, hstep⟩
    exact ⟨(k', asleepAfter k asleep e), ⟨hok, hstep, rfl⟩, rfl⟩
  have hsim : ∃ s, Run (Guarded (fun s e => ok s.1 e) SleepStep) (k, asleep) es s ∧
      recorded k' s := h.simulation rfl hstep
  obtain ⟨⟨_, asleep'⟩, hrun, rfl⟩ := hsim
  exact ⟨asleep', hrun⟩

/-- The guard of `WakeSafe` as a test. -/
def wakeGuard (k : Kernel) : Event → Bool
  | .addProcess p => k.processTable.contains p.pid == some false
  | .timer _ => true
  | .syscall _ call => match call with
    | .clone .. => k.processTable.contains k.currPid == some false
    | .terminate => false
    | .sigraise pid _ => (k.target pid).all fun x =>
        ((k.process x).all fun p => p.state != .SIGWAIT) ||
          k.scheduler.scheduled.all fun r => r.node != x
    | _ => true

theorem wakeSafe_of_guard (k : Kernel) (e : Event) (h : wakeGuard k e = true) : WakeSafe k e := by
  cases e with
  | addProcess p => exact beq_iff_eq.1 h
  | timer ctx => trivial
  | syscall ctx call =>
      cases call with
      | clone => exact beq_iff_eq.1 h
      | terminate => cases h
      | sigraise pid signal =>
          intro x p hx hp hstate r hr
          simp only [wakeGuard, hx, Option.all_some, hp, hstate, bne_self_eq_false, Bool.false_or,
            List.all_eq_true, bne_iff_ne] at h
          exact h r hr
      | yield | sigret | sigwait | sigaction => trivial

/-- The process 0 waits for a signal, and its clone wakes it. -/
private def wokenRun : List (NodeAddr × Addr × Event) :=
  [(0, 0, .addProcess (Process.init 0)), (1, 1, .timer someContext),
    (1, 1, .syscall someContext (.clone 0 0 0 0)), (2, 2, .syscall someContext .sigwait),
    (2, 2, .syscall someContext (.sigraise 0 5))]

private theorem constructed_of_mem_wokenRun (x : NodeAddr × Addr × Event) (hx : x ∈ wokenRun)
    (p : Process) (hp : x.2.2 = .addProcess p) : Constructed p := by
  simp only [wokenRun, List.mem_cons, List.not_mem_nil, or_false] at hx
  rcases hx with rfl | rfl | rfl | rfl | rfl <;> cases hp
  exact ⟨rfl, Process.new_noKill _ _ _ _ _⟩

theorem scheduled_once_woken :
    ∃ k asleep, Run (Guarded (fun s e => WakeSafe s.1 e) SleepStep) (init, ∅)
      (wokenRun.map fun x => x.2.2) (k, asleep) ∧ ScheduledOnce k asleep := by
  obtain ⟨k, hk⟩ : ∃ k, performAll wakeGuard init wokenRun = some k :=
    Option.isSome_iff_exists.1 (by decide)
  obtain ⟨asleep, hrun⟩ := exists_sleep_run
    (run_of_performAll wakeSafe_of_guard constructed_of_mem_wokenRun hk) ∅
  exact ⟨k, asleep, hrun, scheduled_once hrun⟩

/-- A second signal without a handler is raised on the process 0, which is in the queue already. -/
private def wokenTwiceRun : List (NodeAddr × Addr × Event) :=
  wokenRun ++ [(3, 2, .syscall someContext (.sigraise 0 5))]

private theorem constructed_of_mem_wokenTwiceRun (x : NodeAddr × Addr × Event)
    (hx : x ∈ wokenTwiceRun) (p : Process) (hp : x.2.2 = .addProcess p) : Constructed p := by
  rcases List.mem_append.1 hx with hx | hx
  · exact constructed_of_mem_wokenRun x hx p hp
  · obtain rfl := List.mem_singleton.1 hx
    cases hp

/-- A run in which no process ends may schedule a process twice. -/
theorem sigraise_enqueues_twice :
    ¬ ∀ es k asleep, Run SleepStep (init, ∅) es (k, asleep) →
      (∀ ctx, Event.syscall ctx .terminate ∉ es) → ScheduledOnce k asleep := by
  intro hall
  obtain ⟨k, hk, htwice⟩ : ∃ k, performAll (fun _ _ => true) init wokenTwiceRun = some k ∧
      ((k.processTable.nodes 0).isSome ∧ k.occurrences 0 = 2) := by
    have htest : (performAll (fun _ _ => true) init wokenTwiceRun).any (fun k =>
        (k.processTable.nodes 0).isSome && k.occurrences 0 == 2) = true := by
      decide
    simpa [Option.any_eq_true] using htest
  have hok : ∀ (k : Kernel) (e : Event), (true : Bool) = true → True := fun _ _ _ => trivial
  obtain ⟨asleep, hrun⟩ := exists_sleep_run
    (run_of_performAll hok constructed_of_mem_wokenTwiceRun hk) ∅
  obtain ⟨n, hn⟩ := Option.isSome_iff_exists.1 htwice.1
  have hends : ∀ ctx, Event.syscall ctx .terminate ∉ wokenTwiceRun.map fun x => x.2.2 := by
    intro ctx
    simp [wokenTwiceRun, wokenRun]
  obtain ⟨hzero, hone⟩ := hall _ k asleep (hrun.mono fun _ _ _ h => h.2) hends 0 n hn
  by_cases hmem : (0 : Addr) ∈ asleep
  · exact absurd (hzero hmem) (by simp [htwice.2])
  · exact absurd (hone hmem) (by simp [htwice.2])

end CrosKernel.Kernel
