import CrosKernel.Kernel.SchedulerRuns

/-!
# What `switchTask` finds

`queue::sched_next` returns null when no process runs and none waits in the queue, and `switchTask`
follows the pointer without a test. `FindsProcess` says of an event that every `cur_Process` that
`switchTask` and `do_syscall` follow in it is one to a process. `Runnable` is the condition for it:
a process that goes to sleep or ends leaves another one in the queue, or wakes its parent.
-/

namespace CrosKernel.Kernel

open Containers Sched Lib Schedule

variable {k k' : Kernel} {v : View} {a : NodeAddr} {b : Addr} {e : Event}

/-- The kernel in which an event calls `switchTask`, for the events that do. No signal kills a
process, so `raiseSignal` never comes to its call (`raiseSignal_views`). -/
def switching (k : Kernel) (a : NodeAddr) : Event → Option Kernel
  | .syscall ctx .yield => do
      let k ← k.storeContext ctx
      k.setCallerReturn 0
  | .syscall ctx .sigwait => do
      let k ← k.storeContext ctx
      let k ← k.updateActive fun p => some { p with state := .SIGWAIT }
      pure k.sleepActiveProcess
  | .syscall ctx .terminate => do
      let k ← k.storeContext ctx
      let cur ← k.getActiveProcess
      let p ← k.process cur.node
      let (k, _) ← k.raiseSignal a p.parent 17
      k.deleteActiveProcess
  | .timer ctx => if k.getActiveProcess = none then some k else k.storeContext ctx
  | _ => none

/-- The kernel in which `do_syscall` reads the context of the active process. -/
def returning (k : Kernel) (a : NodeAddr) (b : Addr) : Event → Option Kernel
  | .syscall ctx call => do
      let k ← k.storeContext ctx
      k.syscall a b call
  | _ => none

/-- The check of `cur_Process` at the end of `do_syscall` passes after a switch. -/
theorem switchTask_active (h : k.switchTask a = some k') :
    (do
      let cur ← k'.getActiveProcess
      let _ ← k'.process cur.node
      pure k') = some k' := by
  obtain ⟨q, hq, hk₁⟩ := Option.bind_eq_some_iff.1 h
  obtain ⟨cur, hcur, hk₂⟩ := Option.bind_eq_some_iff.1 hk₁
  obtain ⟨p, hp, hk₃⟩ := Option.bind_eq_some_iff.1 hk₂
  cases hk₃
  simp [hcur, hp]

/-- An event that comes to `switchTask` is over with it. -/
theorem perform_switching {k₁ : Kernel} (h : k.switching a e = some k₁) :
    k.perform a b e = k₁.switchTask a := by
  -- what `do_syscall` does after a system call that switches
  have hlast : ∀ {ctx : Context} {call : Syscall} {k₀ : Kernel}, k.storeContext ctx = some k₀ →
      k₀.syscall a b call = k₁.switchTask a →
      k.doSyscall a b ctx call = k₁.switchTask a := by
    intro ctx call k₀ hstore hcall
    simp only [doSyscall, hstore, hcall, Option.bind_eq_bind, Option.bind_some]
    cases hswitch : k₁.switchTask a with
    | none => rfl
    | some k' => exact switchTask_active hswitch
  cases e with
  | addProcess p => cases h
  | timer ctx =>
      rw [switching] at h
      by_cases hactive : k.getActiveProcess = none
      · obtain rfl : k = k₁ := by simpa [hactive] using h
        simp [perform, timerInterrupt, hactive]
      · have hstore : k.storeContext ctx = some k₁ := by simpa [hactive] using h
        simp [perform, timerInterrupt, hactive, hstore]
  | syscall ctx call =>
      cases call with
      | yield =>
          obtain ⟨k₀, hstore, hret⟩ := Option.bind_eq_some_iff.1 h
          refine hlast hstore ?_
          simp [syscall, syscallYield, hret]
      | sigwait =>
          obtain ⟨k₀, hstore, h⟩ := Option.bind_eq_some_iff.1 h
          obtain ⟨k₂, hset, h⟩ := Option.bind_eq_some_iff.1 h
          cases h
          refine hlast hstore ?_
          simp only [syscall, syscallSigwait, hset, Option.bind_eq_bind, Option.bind_some]
      | terminate =>
          obtain ⟨k₀, hstore, h⟩ := Option.bind_eq_some_iff.1 h
          obtain ⟨cur, hcur, h⟩ := Option.bind_eq_some_iff.1 h
          obtain ⟨p, hp, h⟩ := Option.bind_eq_some_iff.1 h
          obtain ⟨⟨k₂, status⟩, hraise, hdelete⟩ := Option.bind_eq_some_iff.1 h
          refine hlast hstore ?_
          simp only [syscall, syscallTerminate, hcur, hp, hraise, hdelete, Option.bind_eq_bind,
            Option.bind_some]
      | clone | sigraise | sigret | sigaction => cases h

/-- Every `cur_Process` that `switchTask` and `do_syscall` follow in the event is not null. -/
structure FindsProcess (k : Kernel) (a : NodeAddr) (b : Addr) (e : Event) : Prop where
  switchTask : ∀ k₁ s, k.switching a e = some k₁ → k₁.scheduler.schedNext a = some s →
    s.cur_Process ≠ none
  doSyscall : ∀ k₂, k.returning a b e = some k₂ → k₂.getActiveProcess ≠ none

/-- A process that goes to sleep leaves another one in the queue. A process that ends does so too,
or its parent waits for a signal, which the end of the process is. -/
def Runnable (k : Kernel) : Event → Prop
  | .syscall _ .sigwait => k.scheduler.empty = false
  | .syscall _ .terminate => k.scheduler.empty = false ∨ k.wokenParent ≠ none
  | _ => True

/-- The kernel after the boot code has added a process and switched to it. -/
def Booted (k : Kernel) : Prop :=
  ∃ p ctx, Run Step init [.addProcess p, .timer ctx] k

/-! ## The queue at the switch -/

/-- `sched_next` finds a process unless none runs and none waits. -/
theorem schedNext_cur {q : Queue ProcessRef} (h : Views k v)
    (hfresh : v.cur ≠ none → k.scheduler.nodes a = none) (hq : k.scheduler.schedNext a = some q) :
    q.cur_Process ≠ none ↔ v.queue ++ v.cur.toList ≠ [] := by
  obtain ⟨hempty, hcur⟩ | ⟨r, L, hqueue, -, hcur⟩ := schedNext_views h hfresh hq
  · simp [hempty, hcur]
  · simp [hqueue, hcur]

theorem empty_eq_false_iff (h : Views k v) : k.scheduler.empty = false ↔ v.queue ≠ [] := by
  rw [Ne, ← h.queue.empty_iff, Bool.not_eq_true]

/-- The parent of the active process waits for a signal, as the schedule shows it. -/
theorem wokenParent_iff (h : Views k v) :
    k.wokenParent ≠ none ↔ ∃ parent, k.activeParent = some parent ∧
      ∃ c ∈ v.schedule.slots, k.target parent = some c.node ∧ c.state = .SIGWAIT := by
  rw [Option.ne_none_iff_exists']
  refine ⟨fun hwoken => ?_, fun hwaits => ?_⟩
  · obtain ⟨x, hx⟩ := hwoken
    obtain ⟨parent, hparent, hx⟩ := Option.bind_eq_some_iff.1 hx
    obtain ⟨node, hnode, hx⟩ := Option.bind_eq_some_iff.1 hx
    obtain ⟨p, hp, hx⟩ := Option.bind_eq_some_iff.1 hx
    obtain ⟨e, he, rfl, rfl⟩ := h.exists_entry hp
    refine ⟨parent, hparent, slot e, View.mem_slots he, hnode, ?_⟩
    by_contra hstate
    rw [if_neg (show ¬ e.value.state = .SIGWAIT from hstate)] at hx
    cases hx
  · obtain ⟨parent, hparent, c, hc, htarget, hstate⟩ := hwaits
    obtain ⟨e, he, rfl⟩ := List.mem_map.1 hc
    refine ⟨e.id, ?_⟩
    have hprocess := h.process_eq he
    have hstate' : e.value.state = .SIGWAIT := hstate
    have htarget' : k.target parent = some e.id := htarget
    simp [wokenParent, hparent, htarget', hprocess, hstate']

/-- A signal adds to the queue exactly if the process it is raised on waits for one. -/
theorem raised_queue {s s' : Schedule} {target : Option Addr} {pid : Pid}
    (hnodup : (s.slots.map Slot.node).Nodup) (h : s.Raised target pid s') :
    s'.queue ≠ [] ↔
      s.queue ≠ [] ∨ ∃ c ∈ s.slots, target = some c.node ∧ c.state = .SIGWAIT := by
  cases h with
  | ignored hsignal =>
      refine ⟨.inl, fun hor => hor.resolve_right fun ⟨c, hc, htarget, hstate⟩ => ?_⟩
      obtain ⟨d, hd, hnode, hstate'⟩ := hsignal _ htarget
      obtain rfl := List.inj_on_of_nodup_map hnodup hd hc hnode
      rw [hstate] at hstate'
      cases hstate'
  | handled hd hpid htarget' hstate' =>
      refine ⟨.inl, fun hor => hor.resolve_right fun ⟨c, hc, htarget, hstate⟩ => ?_⟩
      have hnode := Option.some.inj (htarget'.symm.trans htarget)
      obtain rfl := List.inj_on_of_nodup_map hnodup hd hc hnode
      rw [hstate] at hstate'
      cases hstate'
  | woken hc hpid htarget hstate =>
      exact ⟨fun _ => .inr ⟨_, hc, htarget, hstate⟩, fun _ => by simp [Schedule.enqueue]⟩

/-- At the switch of an event some process runs or waits exactly if the event is runnable. -/
theorem switching_views {k₁ : Kernel} (h : Views k v) (hcur : v.cur ≠ none)
    (ha : k.scheduler.nodes a = none) (hk : k.switching a e = some k₁) :
    ∃ v₁, Views k₁ v₁ ∧ (v₁.cur ≠ none → k₁.scheduler.nodes a = none) ∧
      (v₁.queue ++ v₁.cur.toList ≠ [] ↔ k.Runnable e) := by
  have hrunning : ∀ {v₁ : View}, v₁.cur = v.cur → v₁.queue ++ v₁.cur.toList ≠ [] := by
    intro v₁ hcur₁ hnil
    have hnone := (List.append_eq_nil_iff.1 hnil).2
    rw [hcur₁, Option.toList_eq_nil_iff] at hnone
    exact hcur hnone
  cases e with
  | addProcess p => cases hk
  | timer ctx =>
      have hactive : k.getActiveProcess ≠ none := fun hnone => hcur (h.cur ▸ hnone)
      rw [switching, if_neg hactive] at hk
      obtain ⟨v₁, h₁, hsched, -, hscheduler, -⟩ := storeContext_views h hk
      exact ⟨v₁, h₁, fun _ => hscheduler ▸ ha,
        iff_of_true (hrunning (congrArg Schedule.cur hsched)) trivial⟩
  | syscall ctx call =>
      cases call with
      | clone | sigraise | sigret | sigaction => cases hk
      | yield =>
          obtain ⟨k₀, hstore, hret⟩ := Option.bind_eq_some_iff.1 hk
          obtain ⟨v₀, h₀, hsched₀, -, hscheduler₀, -⟩ := storeContext_views h hstore
          obtain ⟨v₁, h₁, hsched, -, hscheduler, -⟩ := setCallerReturn_schedule h₀ hret
          refine ⟨v₁, h₁, fun _ => by rwa [hscheduler, hscheduler₀], iff_of_true ?_ trivial⟩
          exact hrunning (congrArg Schedule.cur (hsched.trans hsched₀))
      | sigwait =>
          obtain ⟨k₀, hstore, hk⟩ := Option.bind_eq_some_iff.1 hk
          obtain ⟨k₂, hset, hk⟩ := Option.bind_eq_some_iff.1 hk
          cases hk
          obtain ⟨v₀, h₀, hsched₀, -⟩ := storeContext_views h hstore
          obtain ⟨r, e, p', -, -, -, -, h₂, -⟩ :=
            updateActive_views h₀ (fun p p' hp => by cases hp; exact ⟨rfl, id⟩) hset
          refine ⟨_, sleepActiveProcess_views h₂, fun hne => absurd rfl hne, ?_⟩
          have hqueue : v₀.queue = v.queue := congrArg Schedule.queue hsched₀
          show v₀.queue ++ [] ≠ [] ↔ k.scheduler.empty = false
          rw [List.append_nil, hqueue, empty_eq_false_iff h]
      | terminate =>
          obtain ⟨k₀, hstore, hk⟩ := Option.bind_eq_some_iff.1 hk
          obtain ⟨cur, hactive, hk⟩ := Option.bind_eq_some_iff.1 hk
          obtain ⟨p, hp, hk⟩ := Option.bind_eq_some_iff.1 hk
          obtain ⟨⟨k₂, status⟩, hraise, hdelete⟩ := Option.bind_eq_some_iff.1 hk
          obtain ⟨v₀, h₀, hsched₀, hshape, hscheduler, -, hparent⟩ := storeContext_views h hstore
          obtain ⟨v₂, hraised, h₂, -⟩ := raiseSignal_views h₀ (hscheduler ▸ ha) hraise
          obtain ⟨v₁, s, hremoved, hs, h₁, -⟩ := deleteActiveProcess_views h₂ hdelete
          have hcur₁ : v₁.cur = none := congrArg Schedule.cur hs
          have hqueue₁ : v₁.queue = v₂.queue :=
            (congrArg Schedule.queue hs).trans hremoved.queue
          refine ⟨v₁, h₁, fun hne => absurd hcur₁ hne, ?_⟩
          have hnodup : (v₀.schedule.slots.map Slot.node).Nodup := by
            show ((v₀.entries.map slot).map Slot.node).Nodup
            rw [List.map_map]
            exact h₀.table.nodup
          have hactiveParent : k.activeParent = some p.parent := by
            rw [← hparent]
            simp [activeParent, hactive, hp]
          have hwoken : k.wokenParent ≠ none ↔
              ∃ c ∈ v₀.schedule.slots, k₀.target p.parent = some c.node ∧ c.state = .SIGWAIT := by
            simp only [wokenParent_iff h, hactiveParent, Option.some.injEq, exists_eq_left',
              hsched₀, target_congr hshape]
          rw [hcur₁, hqueue₁, Option.toList_none, List.append_nil, Runnable,
            empty_eq_false_iff h, hwoken]
          have hqueue₀ : v₀.queue = v.queue := congrArg Schedule.queue hsched₀
          exact hqueue₀ ▸ raised_queue hnodup hraised

/-! ## Runs -/

/-- After an event that began with a running process, some process runs. -/
theorem Effect.cur_ne_none {s' : Schedule} (hcur : v.schedule.cur ≠ none)
    (h : Effect k v.schedule e s') : s'.cur ≠ none := by
  cases h with
  | addProcess hs =>
      obtain ⟨-⟩ := hs
      exact hcur
  | timer hs => exact hs.cur_ne_none
  | syscall hcall =>
      cases hcall with
      | clone hs =>
          obtain ⟨-⟩ := hs
          exact hcur
      | terminate _ _ _ hs => exact hs.cur_ne_none
      | yield hs => exact hs.cur_ne_none
      | sigraise hs => exact hs.cur_eq ▸ hcur
      | sigret => exact hcur
      | sigwait _ hs => exact hs.cur_ne_none
      | sigaction => exact hcur

/-- The state of the kernel between two events: some process runs. -/
def Running (k : Kernel) : Prop := ∃ v, Views k v ∧ v.cur ≠ none

theorem Running.step (h : k.Running) (hstep : Step k e k') : k'.Running := by
  obtain ⟨v, hv, hcur⟩ := h
  obtain ⟨v', hv', heffect⟩ := step_effect hv hstep
  exact ⟨v', hv', heffect.cur_ne_none hcur⟩

/-- The boot code ends with a running process. -/
theorem Booted.running (h : k.Booted) : k.Running := by
  obtain ⟨p, ctx, hrun⟩ := h
  cases hrun with
  | cons hadd hrest =>
      cases hrest with
      | cons htimer hnil =>
          cases hnil
          obtain ⟨v₁, hv₁, -⟩ := step_effect init_views hadd
          obtain ⟨v, hv, heffect⟩ := step_effect hv₁ htimer
          cases heffect with
          | timer hs => exact ⟨v, hv, hs.cur_ne_none⟩

/-- While a process runs, an event finds the processes it follows exactly if it is runnable, or
does not come to the switch. -/
theorem Running.findsProcess_iff (h : k.Running) (ha : k.scheduler.nodes a = none)
    (hb : k.processTable.nodes b = none) :
    k.FindsProcess a b e ↔ (k.switching a e ≠ none → k.Runnable e) := by
  obtain ⟨v, hv, hcur⟩ := h
  refine ⟨fun hfinds hswitch => ?_, fun hrunnable => ⟨fun k₁ q hk₁ hq => ?_, fun k₂ hk₂ => ?_⟩⟩
  · obtain ⟨k₁, hk₁⟩ := Option.ne_none_iff_exists'.1 hswitch
    obtain ⟨v₁, hv₁, hfresh, hiff⟩ := switching_views hv hcur ha hk₁
    obtain ⟨q, hq, -⟩ := Queue.schedNext_lists hv₁.queue (hv₁.cur ▸ hfresh)
    exact hiff.1 ((schedNext_cur hv₁ hfresh hq).1 (hfinds.switchTask k₁ q hk₁ hq))
  · obtain ⟨v₁, hv₁, hfresh, hiff⟩ := switching_views hv hcur ha hk₁
    exact (schedNext_cur hv₁ hfresh hq).2 (hiff.2 (hrunnable (by simp [hk₁])))
  · -- a system call that comes to its end has left a running process
    cases e with
    | addProcess | timer => cases hk₂
    | syscall ctx call =>
        obtain ⟨k₀, hstore, hcall⟩ := Option.bind_eq_some_iff.1 hk₂
        obtain ⟨v₀, hv₀, hsched, hshape, hscheduler, -⟩ := storeContext_views hv hstore
        have hb₀ : k₀.processTable.nodes b = none := by simpa [hb] using hshape.nodes b
        obtain ⟨v₂, hv₂, heffect⟩ := syscall_effect hv₀ (hscheduler ▸ ha) hb₀ hcall
        have hcur₀ : v₀.schedule.cur ≠ none := by rwa [hsched]
        have hcur₂ : v₂.schedule.cur ≠ none := by
          have heffect' : Effect _ v₀.schedule (.syscall ctx call) v₂.schedule := .syscall heffect
          exact heffect'.cur_ne_none hcur₀
        rwa [getActiveProcess, hv₂.cur]

/-- In every run from the boot on, a process runs after each event, and the next event finds the
processes it follows if it is runnable. For an event that comes to the switch the converse holds
too. -/
theorem run_finds_process {k₀ : Kernel} {es : List Event} (hboot : k₀.Booted)
    (hrun : Run Step k₀ es k) :
    k.getActiveProcess ≠ none ∧
      ∀ e a b, k.scheduler.nodes a = none → k.processTable.nodes b = none →
        (k.FindsProcess a b e ↔ (k.switching a e ≠ none → k.Runnable e)) := by
  have hrunning : k.Running :=
    hrun.invariant hboot.running fun _ _ _ h hstep => h.step hstep
  refine ⟨?_, fun e a b ha hb => hrunning.findsProcess_iff ha hb⟩
  obtain ⟨v, hv, hcur⟩ := hrunning
  rwa [getActiveProcess, hv.cur]

/-- The boot, with the addresses of the nodes. -/
private def bootEvents : List (NodeAddr × Addr × Event) :=
  [(0, 0, .addProcess (Process.init 0)), (1, 1, .timer (Context.new 0 0 0))]

private theorem booted_of_performAll (h : performAll (fun _ _ => true) init bootEvents = some k) :
    k.Booted := by
  have hnew : ∀ x ∈ bootEvents, ∀ p, x.2.2 = .addProcess p → Constructed p := by
    intro x hx p hp
    simp only [bootEvents, List.mem_cons, List.not_mem_nil, or_false] at hx
    rcases hx with rfl | rfl <;> cases hp
    exact ⟨rfl, Process.new_noKill _ _ _ _ _⟩
  have hok : ∀ (k : Kernel) (e : Event), (true : Bool) = true → True := fun _ _ _ => trivial
  exact ⟨_, _, (run_of_performAll hok hnew h).mono fun _ _ _ h => h.2⟩

/-- The booted process makes a clone of itself, and may then go to sleep. -/
theorem run_finds_process_cloned :
    ∃ k₀ k, Booted k₀ ∧ Run Step k₀ [.syscall (Context.new 0 0 0) (.clone 0 0 0 0)] k ∧
      k.getActiveProcess ≠ none ∧
      ∀ e a b, k.scheduler.nodes a = none → k.processTable.nodes b = none →
        (k.FindsProcess a b e ↔ (k.switching a e ≠ none → k.Runnable e)) := by
  obtain ⟨k₀, hk₀, k, hk, ha, hb⟩ : ∃ k₀, performAll (fun _ _ => true) init bootEvents = some k₀ ∧
      ∃ k, k₀.perform 1 1 (.syscall (Context.new 0 0 0) (.clone 0 0 0 0)) = some k ∧
        k₀.scheduler.nodes 1 = none ∧ k₀.processTable.nodes 1 = none := by
    have htest : (performAll (fun _ _ => true) init bootEvents).any (fun k₀ =>
        (k₀.perform 1 1 (.syscall (Context.new 0 0 0) (.clone 0 0 0 0))).isSome &&
          (k₀.scheduler.nodes 1).isNone && (k₀.processTable.nodes 1).isNone) = true := by
      decide
    simpa [Option.any_eq_true, Option.isSome_iff_exists, and_assoc] using htest
  have hrun : Run Step k₀ [.syscall (Context.new 0 0 0) (.clone 0 0 0 0)] k :=
    .single ⟨fun p hp => (by cases hp), 1, 1, ha, hb, hk⟩
  exact ⟨k₀, k, booted_of_performAll hk₀, hrun,
    run_finds_process (booted_of_performAll hk₀) hrun⟩

/-- Not every event finds the processes it follows: the booted process goes to sleep. -/
theorem sigwait_finds_no_process :
    ¬ ∀ (k₀ k : Kernel) (es : List Event) (e : Event) (a : NodeAddr) (b : Addr), Booted k₀ →
      Run Step k₀ es k → k.scheduler.nodes a = none → k.processTable.nodes b = none →
      k.FindsProcess a b e := by
  intro hall
  obtain ⟨k, hk, ⟨ha, hb⟩, k₁, hk₁, q, hq, hnone⟩ :
      ∃ k, performAll (fun _ _ => true) init bootEvents = some k ∧
        (k.scheduler.nodes 1 = none ∧ k.processTable.nodes 1 = none) ∧
        ∃ k₁, k.switching 1 (.syscall (Context.new 0 0 0) .sigwait) = some k₁ ∧
          ∃ q, k₁.scheduler.schedNext 1 = some q ∧ q.cur_Process = none := by
    have htest : (performAll (fun _ _ => true) init bootEvents).any (fun k =>
        ((k.scheduler.nodes 1).isNone && (k.processTable.nodes 1).isNone) &&
          (k.switching 1 (.syscall (Context.new 0 0 0) .sigwait)).any fun k₁ =>
            (k₁.scheduler.schedNext 1).any fun q => q.cur_Process.isNone) = true := by
      decide
    simpa [Option.any_eq_true] using htest
  exact (hall k k [] _ 1 1 (booted_of_performAll hk) (.nil _) ha hb).switchTask k₁ q hk₁ hq hnone

end CrosKernel.Kernel
