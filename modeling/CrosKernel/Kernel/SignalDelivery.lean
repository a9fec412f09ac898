import CrosKernel.Kernel.SchedulerRuns
import CrosKernel.Sched.Signal

/-!
# The delivery of signals

A signal that a process accepts rewrites its saved context, and the process enters its handler when
it runs the next time. `sigraise` also writes its status into the context of the caller. When the
caller raised the signal on itself, that is the context that was just rewritten, and the handler
gets the status in place of its userdata: `signal_delivered_iff`.

A process lives in a node of the process table, and removing another process may copy it into
another node. `nodeAfter` says where it lives after an event.
-/

namespace CrosKernel

open Containers Sched Lib BinarySearchTree

/-- The context enters the handler with its userdata, and returns to the trampoline. -/
structure Sched.Context.Enters (ctx : Context) (action : SignalAction) : Prop where
  programCounter : ctx.programCounter = action.handler
  link : ctx.gpRegs 30 = action.trampoline
  argument : ctx.gpRegs 0 = action.userdata

namespace Sched

/-- The call that a signal makes enters the handler. -/
theorem Context.enters_functionCall (ctx : Context) (action : SignalAction) :
    (ctx.functionCall action.handler action.trampoline action.userdata).Enters action where
  programCounter := rfl
  link := rfl
  argument := rfl

/-- A result that is set on the same context replaces the userdata. -/
theorem Context.enters_setReturnValue_iff (ctx : Context) (action : SignalAction) (value : UInt64) :
    ((ctx.functionCall action.handler action.trampoline action.userdata).setReturnValue
      value).Enters action ↔ action.userdata = value := by
  constructor
  · intro h
    exact h.argument.symm
  · intro h
    exact ⟨rfl, rfl, h.symm⟩

theorem Process.signalTrigger_of_startsHandler {p : Process} {sig : Int} (h : p.StartsHandler sig) :
    (p.signalTrigger sig).1.state = .SIGNAL ∧
      (p.signalTrigger sig).1.ctx = p.ctx.functionCall (p.signalHandlers sig.toNat).handler
        (p.signalHandlers sig.toNat).trampoline (p.signalHandlers sig.toNat).userdata := by
  obtain ⟨hstate, hlow, hhigh, htype⟩ := h
  have hrange : ¬ (sig < 0 ∨ sig ≥ MAX_SIGNAL) := by omega
  have hsignal : p.state ≠ .SIGNAL := by
    rcases hstate with hstate | hstate <;> simp [hstate]
  rw [signalTrigger, if_neg hrange]
  simp [htype, hsignal]

end Sched

namespace Kernel

variable {k k' k₁ : Kernel} {v : View} {a : NodeAddr} {b x y : Addr} {p q : Process} {e : Event}

/-- The node of the active process. -/
def activeNode (k : Kernel) : Option Addr := k.getActiveProcess.map ProcessRef.node

/-- The node of the process on which an event raises a signal, and the signal. -/
def raises (k : Kernel) : Event → Option (Addr × Int)
  | .syscall _ (.sigraise pid signal) => do
      let x ← k.target pid
      pure (x, signal)
  | .syscall _ .terminate => do
      let parent ← k.activeParent
      let x ← k.target parent
      pure (x, 17)
  | _ => none

/-- The node in which the process of the node `x` lives after an event, if it was not the one that
ended. -/
def nodeAfter (k : Kernel) (x : Addr) : Event → Option Addr
  | .syscall _ .terminate => movedAlong k.removedChain x
  | _ => some x

/-- A step, with the record of the node in which a process lives. -/
def TrackStep (s : Kernel × Addr) (e : Event) (s' : Kernel × Addr) : Prop :=
  Step s.1 e s'.1 ∧ s.1.nodeAfter s.2 e = some s'.2

/-- Another process runs than the one in the node `x`. -/
def NotRunning (s : Kernel × Addr) (_ : Event) : Prop := s.1.activeNode ≠ some s.2

/-! ## What the parts of an event keep -/

/-- Assigning to the active process. -/
theorem updateActive_process {f : Process → Option Process} (hk : k.updateActive f = some k') :
    k'.scheduler = k.scheduler ∧ (k.activeNode ≠ some x → k'.process x = k.process x) ∧
      (k.activeNode = some x → ∃ p p', k.process x = some p ∧ f p = some p' ∧
        k'.process x = some p') := by
  obtain ⟨r, hr, hk₁⟩ := Option.bind_eq_some_iff.1 hk
  obtain ⟨p, hp, hk₂⟩ := Option.bind_eq_some_iff.1 hk₁
  obtain ⟨p', hp', hk₃⟩ := Option.bind_eq_some_iff.1 hk₂
  obtain ⟨table, htable, hk₄⟩ := Option.bind_eq_some_iff.1 hk₃
  cases hk₄
  obtain ⟨n, hn, htable'⟩ := Option.bind_eq_some_iff.1 htable
  cases htable'
  have hactive : k.activeNode = some r.node := by simp [activeNode, hr]
  refine ⟨rfl, fun hne => ?_, fun heq => ?_⟩
  · have hx : x ≠ r.node := fun h => hne (by rw [hactive, h])
    simp [process, Function.update_of_ne hx]
  · obtain rfl : r.node = x := Option.some.inj (hactive.symm.trans heq)
    exact ⟨p, p', hp, hp', by simp [process]⟩

theorem switchTask_process (hk : k.switchTask a = some k') : k'.process x = k.process x := by
  obtain ⟨q, -, hk₁⟩ := Option.bind_eq_some_iff.1 hk
  obtain ⟨r, -, hk₂⟩ := Option.bind_eq_some_iff.1 hk₁
  obtain ⟨p, -, hk₃⟩ := Option.bind_eq_some_iff.1 hk₂
  cases hk₃
  rfl

theorem activeNode_congr (hcur : k'.scheduler.cur_Process = k.scheduler.cur_Process) :
    k'.activeNode = k.activeNode := by
  simp [activeNode, getActiveProcess, hcur]

/-- A new process changes no other one. -/
theorem addProcess_process (h : Views k v) (ha : k.scheduler.nodes a = none)
    (hb : k.processTable.nodes b = none) (hq : Constructed q) (hx : k.process x = some p)
    (hk : k.addProcess a b q = some k') :
    ∃ v', Views k' v' ∧ k'.activeNode = k.activeNode ∧ k'.process x = some p := by
  obtain ⟨v', hspawned, h', hperm⟩ := addProcess_views h ha hb hq hk
  have hcur : v'.cur = v.cur := hspawned.cur_eq
  obtain ⟨d, hd, rfl, rfl⟩ := h.exists_entry hx
  refine ⟨v', h', activeNode_congr ?_, h'.process_eq (hperm.mem_iff.2 (List.mem_cons_of_mem _ hd))⟩
  rw [h'.cur, h.cur, hcur]

/-- Raising a signal changes no process in a handler, and starts the handler of a process that
accepts it. -/
theorem raiseSignal_process {pid : Pid} {signal status : Int} (h : Views k v)
    (hfresh : k.scheduler.nodes a = none) (hx : k.process x = some p)
    (hk : k.raiseSignal a pid signal = some (k', status)) :
    ∃ v', Views k' v' ∧ SameTable k k' ∧ k'.activeNode = k.activeNode ∧ v'.cur = v.cur ∧
      status ≤ 0 ∧
      (p.state = .SIGNAL → k'.process x = some p) ∧
      (k.target pid = some x → p.StartsHandler signal →
        status = 0 ∧ k'.process x = some (p.signalTrigger signal).1) := by
  obtain ⟨v', hraised, h', hshape, hstatus, hentries⟩ := raiseSignal_views h hfresh hk
  obtain ⟨d, hd, rfl, rfl⟩ := h.exists_entry hx
  have hcur : v'.cur = v.cur := hraised.cur_eq
  have hactive : k'.activeNode = k.activeNode := activeNode_congr (by rw [h'.cur, h.cur, hcur])
  refine ⟨v', h', hshape, hactive, hcur, hstatus, ?_⟩
  obtain ⟨E, hE⟩ : ∃ E, v'.entries = E := ⟨_, rfl⟩
  rw [hE] at hentries
  cases hentries with
  | refused hall =>
      refine ⟨fun _ => h'.process_eq (hE ▸ hd), fun htarget hstarts => ?_⟩
      have hsignal := hall d hd htarget
      rcases hstarts.1 with hstate | hstate <;> simp [hstate] at hsignal
  | @raised e he htarget hstate =>
      have hmem : ∀ y ∈ v.entries, setValue e.id (e.value.signalTrigger signal).1 y ∈ v'.entries :=
        fun y hy => hE ▸ List.mem_map_of_mem hy
      refine ⟨fun hsignal => ?_, fun htarget' _ => ⟨rfl, ?_⟩⟩
      · have hne : d.id ≠ e.id := by
          intro hid
          obtain rfl := List.inj_on_of_nodup_map h.table.nodup hd he hid
          exact hstate hsignal
        have hmem' := hmem d hd
        rw [setValue, if_neg hne] at hmem'
        exact h'.process_eq hmem'
      · have hid : d.id = e.id := Option.some.inj (htarget'.symm.trans htarget)
        obtain rfl := List.inj_on_of_nodup_map h.table.nodup hd he hid
        have hprocess := h'.process_eq (hmem d hd)
        simpa [setValue] using hprocess

/-- Ending the active process moves the other ones along the chain. -/
theorem deleteActiveProcess_process (h : Views k v) (hx : k.process x = some p)
    (hy : movedAlong k.removedChain x = some y) (hk : k.deleteActiveProcess = some k') :
    ∃ v', Views k' v' ∧ k'.process y = some p := by
  obtain ⟨v', s, -, -, h', hmoved⟩ := deleteActiveProcess_views h hk
  obtain ⟨d, hd, rfl, rfl⟩ := h.exists_entry hx
  exact ⟨v', h', h'.process_eq (hmoved d hd y hy)⟩

theorem updateActive_keeps {f : Process → Option Process} (hne : k.activeNode ≠ some x)
    (hx : k.process x = some p) (hk : k.updateActive f = some k') :
    k'.activeNode = k.activeNode ∧ k'.process x = some p := by
  obtain ⟨hsched, hother, -⟩ := updateActive_process (x := x) hk
  exact ⟨activeNode_congr (by rw [hsched]), (hother hne).trans hx⟩

/-! ## System calls -/

/-- The process that ends raises a signal on its parent, and the processes move. -/
theorem syscallTerminate_process (h : Views k v) (ha : k.scheduler.nodes a = none)
    (hx : k.process x = some p) (hy : movedAlong k.removedChain x = some y)
    (hk : k.syscallTerminate a = some k') :
    (p.state = .SIGNAL → k'.process y = some p) ∧
      ∀ parent, k.activeParent = some parent → k.target parent = some x → p.StartsHandler 17 →
        k'.process y = some (p.signalTrigger 17).1 := by
  obtain ⟨r, hr, hk₁⟩ := Option.bind_eq_some_iff.1 hk
  obtain ⟨q, hq, hk₂⟩ := Option.bind_eq_some_iff.1 hk₁
  obtain ⟨⟨k₁, status⟩, hraise, hk₃⟩ := Option.bind_eq_some_iff.1 hk₂
  obtain ⟨k₂, hdelete, hswitch⟩ := Option.bind_eq_some_iff.1 hk₃
  obtain ⟨v₁, h₁, hshape, -, hcur, -, hkept, hraised⟩ := raiseSignal_process h ha hx hraise
  rw [← removedChain_congr h h₁ hcur hshape] at hy
  have hparent : k.activeParent = some q.parent := by simp [activeParent, hr, hq]
  refine ⟨fun hsignal => ?_, fun parent hpar htarget hstarts => ?_⟩
  · obtain ⟨v₂, -, hy₂⟩ := deleteActiveProcess_process h₁ (hkept hsignal) hy hdelete
    exact (switchTask_process hswitch).trans hy₂
  · obtain rfl : q.parent = parent := Option.some.inj (hparent.symm.trans hpar)
    obtain ⟨v₂, -, hy₂⟩ := deleteActiveProcess_process h₁ (hraised htarget hstarts).2 hy hdelete
    exact (switchTask_process hswitch).trans hy₂

/-- A system call of another process changes no process in a handler. -/
theorem syscall_keeps {ctx : Context} {call : Syscall} (h : Views k v)
    (ha : k.scheduler.nodes a = none) (hb : k.processTable.nodes b = none)
    (hne : k.activeNode ≠ some x) (hx : k.process x = some p) (hsignal : p.state = .SIGNAL)
    (hy : k.nodeAfter x (.syscall ctx call) = some y) (hk : k.syscall a b call = some k') :
    k'.process y = some p := by
  cases call with
  | clone fn stack userdata kernelStack =>
      obtain rfl : x = y := Option.some.inj hy
      simp only [syscall, syscallClone, nextPid] at hk
      obtain ⟨r, hr, hk₁⟩ := Option.bind_eq_some_iff.1 hk
      obtain ⟨q, hq, hk₂⟩ := Option.bind_eq_some_iff.1 hk₁
      obtain ⟨k₁, hadd, hret⟩ := Option.bind_eq_some_iff.1 hk₂
      have hview : Views { k with currPid := (k.currPid + 1) % 2 ^ 32 } v :=
        ⟨h.table, h.queue, h.cur, h.key_eq, h.noKill⟩
      have hnew : Constructed (q.clone k.currPid fn stack userdata kernelStack) :=
        ⟨rfl, Process.clone_noKill q _ _ _ _ _⟩
      obtain ⟨v₁, -, hactive, hx₁⟩ := addProcess_process hview ha hb hnew hx hadd
      have hne₁ : k₁.activeNode ≠ some x := by
        rw [hactive]
        exact hne
      exact (updateActive_keeps hne₁ hx₁ hret).2
  | terminate => exact (syscallTerminate_process h ha hx hy hk).1 hsignal
  | yield =>
      obtain rfl : x = y := Option.some.inj hy
      obtain ⟨k₁, hret, hswitch⟩ := Option.bind_eq_some_iff.1 hk
      exact (switchTask_process hswitch).trans (updateActive_keeps hne hx hret).2
  | sigraise pid signal =>
      obtain rfl : x = y := Option.some.inj hy
      obtain ⟨⟨k₁, status⟩, hraise, hret⟩ := Option.bind_eq_some_iff.1 hk
      obtain ⟨v₁, h₁, -, hactive, -, hstatus, hkept, -⟩ := raiseSignal_process h ha hx hraise
      simp only [hstatus, if_true] at hret
      exact (updateActive_keeps (hactive ▸ hne) (hkept hsignal) hret).2
  | sigret =>
      obtain rfl : x = y := Option.some.inj hy
      exact (updateActive_keeps hne hx hk).2
  | sigwait =>
      obtain rfl : x = y := Option.some.inj hy
      obtain ⟨k₁, hset, hswitch⟩ := Option.bind_eq_some_iff.1 hk
      exact (switchTask_process hswitch).trans (updateActive_keeps hne hx hset).2
  | sigaction signal handler trampoline userdata =>
      obtain rfl : x = y := Option.some.inj hy
      obtain ⟨k₁, hset, hret⟩ := Option.bind_eq_some_iff.1 hk
      obtain ⟨hactive, hx₁⟩ := updateActive_keeps hne hx hset
      exact (updateActive_keeps (hactive ▸ hne) hx₁ hret).2

/-! ## Events -/

/-- A system call works on the state in which the registers of its caller are stored. Nothing that
it looks up depends on them. -/
theorem step_syscall {ctx : Context} {call : Syscall} (h : Views k v)
    (hstep : Step k (.syscall ctx call) k') :
    ∃ a b k₁ v₁, k.storeContext ctx = some k₁ ∧ Views k₁ v₁ ∧ k₁.scheduler.nodes a = none ∧
      k₁.processTable.nodes b = none ∧ k₁.syscall a b call = some k' ∧
      k₁.activeNode = k.activeNode ∧ k₁.target = k.target ∧ k₁.activeParent = k.activeParent ∧
      k₁.removedChain = k.removedChain := by
  obtain ⟨-, a, b, ha, hb, hk⟩ := hstep
  obtain ⟨k₁, hstore, hk₁⟩ := Option.bind_eq_some_iff.1 hk
  obtain ⟨k₂, hcall, hk₂⟩ := Option.bind_eq_some_iff.1 hk₁
  obtain ⟨r, -, hk₃⟩ := Option.bind_eq_some_iff.1 hk₂
  obtain ⟨p, -, hk₄⟩ := Option.bind_eq_some_iff.1 hk₃
  cases hk₄
  obtain ⟨v₁, h₁, hsched, hshape, hscheduler, -, hparent⟩ := storeContext_views h hstore
  have hcur : v₁.cur = v.cur := congrArg Schedule.cur hsched
  have hb₁ : k₁.processTable.nodes b = none := by
    simpa [hb] using hshape.nodes b
  exact ⟨a, b, k₁, v₁, hstore, h₁, hscheduler ▸ ha, hb₁, hcall,
    activeNode_congr (by rw [hscheduler]),
    funext fun pid => target_congr hshape pid, hparent, removedChain_congr h h₁ hcur hshape⟩

theorem nodeAfter_congr (hchain : k₁.removedChain = k.removedChain) (x : Addr) (e : Event) :
    k₁.nodeAfter x e = k.nodeAfter x e := by
  unfold nodeAfter
  rw [hchain]

/-- A process in a handler stays as it is while another one runs. -/
theorem step_keeps (h : Views k v) (hstep : TrackStep (k, x) e (k', y))
    (hne : NotRunning (k, x) e) (hx : k.process x = some p) (hsignal : p.state = .SIGNAL) :
    k'.process y = some p := by
  obtain ⟨hstep, hy⟩ := hstep
  cases e with
  | addProcess q =>
      obtain rfl : x = y := Option.some.inj hy
      obtain ⟨hnew, a, b, ha, hb, hk⟩ := hstep
      obtain ⟨v', -, -, hx'⟩ := addProcess_process h ha hb (hnew q rfl) hx hk
      exact hx'
  | syscall ctx call =>
      obtain ⟨a, b, k₁, v₁, hstore, h₁, ha, hb, hcall, hactive, -, -, hchain⟩ :=
        step_syscall h hstep
      have hy₁ : k₁.nodeAfter x (.syscall ctx call) = some y :=
        (nodeAfter_congr hchain x _).trans hy
      have hx₁ : k₁.process x = some p := (updateActive_keeps hne hx hstore).2
      exact syscall_keeps h₁ ha hb (hactive ▸ hne) hx₁ hsignal hy₁ hcall
  | timer ctx =>
      obtain rfl : x = y := Option.some.inj hy
      obtain ⟨-, a, b, -, -, hk⟩ := hstep
      simp only [perform, timerInterrupt] at hk
      split at hk
      · exact (switchTask_process hk).trans hx
      · obtain ⟨k₁, hstore, hswitch⟩ := Option.bind_eq_some_iff.1 hk
        exact (switchTask_process hswitch).trans (updateActive_keeps hne hx hstore).2

/-- A process that ends is not its own parent afterwards: it is gone. -/
theorem removedChain_of_active {parent : Pid} (h : Views k v) (hactive : k.activeNode = some x)
    (htarget : k.target parent = some x) : ∃ rest, k.removedChain = x :: rest := by
  obtain ⟨r, hr, rfl⟩ := Option.map_eq_some_iff.1 hactive
  obtain ⟨e, he, hid, hkey⟩ := target_eq_some h htarget
  have hpid : k.activePid = some parent := by
    have hprocess := h.process_eq he
    rw [hid] at hprocess
    simp [activePid, hr, hprocess, h.key_eq e he, hkey]
  have hsearch : k.processTable.searchRec parent = some (some r.node) := by
    obtain ⟨c, hc, hfind⟩ := Option.bind_eq_some_iff.1 htarget
    cases c with
    | false => cases hfind
    | true =>
        obtain ⟨found, hfound, hc⟩ := Option.bind_eq_some_iff.1 hc
        cases found with
        | none => cases hc
        | some y =>
            obtain ⟨n, hn, hnkey⟩ := Option.bind_eq_some_iff.1 hc
            have hnkey : n.key = parent := by simpa using hnkey
            have hy : some y = some r.node := by
              simpa [BinarySearchTree.find, hfound, hn, hnkey] using hfind
            rw [hfound, hy]
  rw [removedChain, hpid, Option.bind_some, hsearch]
  show ∃ rest, k.processTable.successorChain (k.processTable.fuel + 1) r.node = r.node :: rest
  unfold successorChain
  split
  · exact ⟨_, rfl⟩
  · exact ⟨_, rfl⟩

/-- The event that raises the signal. Only a process that raises it on itself gets the status of
`sigraise` for its userdata. -/
theorem step_raises {sig : Int} (h : Views k v) (hstep : TrackStep (k, x) e (k', y))
    (hraises : k.raises e = some (x, sig)) (hx : k.process x = some p)
    (hstarts : p.StartsHandler sig) :
    ∃ p', k'.process y = some p' ∧ p'.state = .SIGNAL ∧
      (p'.ctx.Enters (p.signalHandlers sig.toNat) ↔
        (k.activeNode = some x → (p.signalHandlers sig.toNat).userdata = 0)) := by
  obtain ⟨hstep, hy⟩ := hstep
  cases e with
  | addProcess q => cases hraises
  | timer ctx => cases hraises
  | syscall ctx call =>
      obtain ⟨a, b, k₁, v₁, hstore, h₁, ha, hb, hcall, hactive, htargets, hparents, hchain⟩ :=
        step_syscall h hstep
      -- the registers of the caller are stored first, also when it is the target
      obtain ⟨p₁, hx₁, hstate₁, hhandlers₁⟩ : ∃ p₁, k₁.process x = some p₁ ∧ p₁.state = p.state ∧
          p₁.signalHandlers = p.signalHandlers := by
        obtain ⟨-, hother, hself⟩ := updateActive_process (x := x) hstore
        by_cases heq : k.activeNode = some x
        · obtain ⟨q, q', hq, hq', hx₁⟩ := hself heq
          obtain rfl := Option.some.inj (hx.symm.trans hq)
          obtain rfl := Option.some.inj hq'
          exact ⟨_, hx₁, rfl, rfl⟩
        · exact ⟨p, (hother heq).trans hx, rfl, rfl⟩
      have hstarts₁ : p₁.StartsHandler sig := by
        rw [Process.StartsHandler, hstate₁, hhandlers₁]
        exact hstarts
      obtain ⟨hsignal, hctx⟩ := Process.signalTrigger_of_startsHandler hstarts₁
      rw [hhandlers₁] at hctx
      have hy₁ : k₁.nodeAfter x (.syscall ctx call) = some y :=
        (nodeAfter_congr hchain x _).trans hy
      cases call with
      | clone | yield | sigret | sigwait | sigaction => cases hraises
      | terminate =>
          obtain ⟨parent, hparent, hfound⟩ := Option.bind_eq_some_iff.1 hraises
          obtain ⟨z, htarget, hz⟩ := Option.bind_eq_some_iff.1 hfound
          cases hz
          have hself : k.activeNode ≠ some x := by
            intro heq
            obtain ⟨rest, hrest⟩ := removedChain_of_active h heq htarget
            rw [nodeAfter, hrest] at hy
            cases rest <;> simp [movedAlong] at hy
          refine ⟨_, (syscallTerminate_process h₁ ha hx₁ hy₁ hcall).2 parent (hparents ▸ hparent)
            (htargets ▸ htarget) hstarts₁, hsignal, ?_⟩
          rw [hctx]
          exact iff_of_true (Context.enters_functionCall _ _) fun heq => absurd heq hself
      | sigraise pid signal =>
          obtain rfl : x = y := Option.some.inj hy
          obtain ⟨z, htarget, hz⟩ := Option.bind_eq_some_iff.1 hraises
          cases hz
          obtain ⟨⟨k₂, status⟩, hraise, hret⟩ := Option.bind_eq_some_iff.1 hcall
          obtain ⟨v₂, h₂, -, hactive₂, -, hstatus, -, hraised⟩ :=
            raiseSignal_process h₁ ha hx₁ hraise
          obtain ⟨rfl, hx₂⟩ := hraised (htargets ▸ htarget) hstarts₁
          simp only [Int.le_refl, if_true] at hret
          obtain ⟨-, hother, hself⟩ := updateActive_process (x := x) hret
          rw [hactive₂, hactive] at hother hself
          by_cases heq : k.activeNode = some x
          · obtain ⟨q, q', hq, hq', hx'⟩ := hself heq
            obtain rfl := Option.some.inj (hx₂.symm.trans hq)
            obtain rfl := Option.some.inj hq'
            refine ⟨_, hx', hsignal, ?_⟩
            show ((p₁.signalTrigger sig).1.ctx.setReturnValue _).Enters _ ↔ _
            rw [hctx, Context.enters_setReturnValue_iff]
            exact ⟨fun hzero _ => hzero, fun hzero => hzero heq⟩
          · refine ⟨_, (hother heq).trans hx₂, hsignal, ?_⟩
            rw [hctx]
            exact iff_of_true (Context.enters_functionCall _ _) fun hself => absurd hself heq

/-! ## Runs -/

theorem run_views {es : List Event} (hrun : Run Step init es k) : ∃ v, Views k v := by
  have hstep : ∀ k e k', (∃ v, Views k v) → Step k e k' → ∃ v, Views k' v := by
    intro k e k' hk hstep
    obtain ⟨v, h⟩ := hk
    obtain ⟨v', h', -⟩ := step_effect h hstep
    exact ⟨v', h'⟩
  exact hrun.invariant ⟨_, init_views⟩ hstep

/-- A process in a handler stays as it is until it runs. -/
theorem run_keeps {s s' : Kernel × Addr} {es : List Event}
    (hrun : Run (Guarded NotRunning TrackStep) s es s')
    (h : Views s.1 v) (hx : s.1.process s.2 = some p) (hsignal : p.state = .SIGNAL) :
    s'.1.process s'.2 = some p := by
  have hstep : ∀ (s : Kernel × Addr) (e : Event) (s' : Kernel × Addr),
      ((∃ v, Views s.1 v) ∧ s.1.process s.2 = some p) → Guarded NotRunning TrackStep s e s' →
      (∃ v, Views s'.1 v) ∧ s'.1.process s'.2 = some p := by
    rintro s e s' ⟨⟨v, h⟩, hx⟩ ⟨hne, hstep⟩
    obtain ⟨v', h', -⟩ := step_effect h hstep.1
    exact ⟨⟨v', h'⟩, step_keeps h hstep hne hx hsignal⟩
  have hend : (∃ v, Views s'.1 v) ∧ s'.1.process s'.2 = some p := hrun.invariant ⟨⟨v, h⟩, hx⟩ hstep
  exact hend.2

/-- In every run, a signal that starts a handler is delivered when the process runs the next time,
if and only if the process did not raise it on itself with a userdata that is not null. -/
theorem signal_delivered_iff {es es' : List Event} {sig : Int} {x₁ : Addr}
    (hinit : Run Step init es k)
    (hraises : k.raises e = some (x, sig)) (hx : k.process x = some p)
    (hstarts : p.StartsHandler sig)
    (hstep : TrackStep (k, x) e (k₁, x₁))
    (hrun : Run (Guarded NotRunning TrackStep) (k₁, x₁) es' (k', y)) :
    ∃ p', k'.process y = some p' ∧ (p'.ctx.Enters (p.signalHandlers sig.toNat) ↔
      (k.activeNode = some x → (p.signalHandlers sig.toNat).userdata = 0)) := by
  obtain ⟨v, h⟩ := run_views hinit
  obtain ⟨p', hx', hsignal, hiff⟩ := step_raises h hstep hraises hx hstarts
  obtain ⟨v₁, h₁, -⟩ := step_effect h hstep.1
  exact ⟨p', run_keeps hrun h₁ hx' hsignal, hiff⟩

/-! ## Concrete runs -/

/-- Some registers. -/
private def anyContext : Context := Context.new 0 0 0

/-- The boot, and the process 0 sets a handler for the signal 1. -/
private def handlerRun : List (NodeAddr × Addr × Event) :=
  [(0, 0, .addProcess (Process.init 0)), (1, 1, .timer anyContext),
    (1, 1, .syscall anyContext (.sigaction 1 64 68 72))]

/-- Then its clone runs. -/
private def handlerClonedRun : List (NodeAddr × Addr × Event) :=
  handlerRun ++ [(1, 1, .syscall anyContext (.clone 0 0 0 0)), (2, 2, .syscall anyContext .yield)]

/-- The signal 1 is raised on the process 0. -/
private def raiseEvent : Event := .syscall anyContext (.sigraise 0 1)

/-- `raiseEvent` starts the handler of the process 0. -/
private def raiseStarts (k : Kernel) : Bool :=
  k.raises raiseEvent == some (0, 1) && (k.process 0).any fun p =>
    p.StartsHandler 1 && (p.signalHandlers 1).userdata == 72

private theorem raiseStarts_spec (h : raiseStarts k = true) :
    k.raises raiseEvent = some (0, 1) ∧ ∃ p, k.process 0 = some p ∧ p.StartsHandler 1 ∧
      (p.signalHandlers 1).userdata = 72 := by
  simpa [raiseStarts, Option.any_eq_true] using h

private theorem constructed_of_mem_handlerClonedRun (x : NodeAddr × Addr × Event)
    (hx : x ∈ handlerClonedRun) (p : Process) (hp : x.2.2 = .addProcess p) : Constructed p := by
  simp only [handlerClonedRun, handlerRun, List.cons_append, List.nil_append, List.mem_cons,
    List.not_mem_nil, or_false] at hx
  rcases hx with rfl | rfl | rfl | rfl | rfl <;> cases hp
  exact ⟨rfl, Process.new_noKill _ _ _ _ _⟩

/-- Events that can be performed are a run of the kernel. -/
private theorem run_of_performed {l : List (NodeAddr × Addr × Event)}
    (hnew : ∀ x ∈ l, ∀ p, x.2.2 = .addProcess p → Constructed p)
    (h : performAll (fun _ _ => true) k l = some k') : Run Step k (l.map fun x => x.2.2) k' := by
  have hok : ∀ (k : Kernel) (e : Event), (true : Bool) = true → True := fun _ _ _ => trivial
  exact (run_of_performAll hok hnew h).mono fun _ _ _ hstep => hstep.2

/-- A system call or a timer interrupt that can be performed is a step. -/
private theorem step_of_performed (hnew : ∀ p, e ≠ .addProcess p)
    (h : performAll (fun _ _ => true) k [(a, b, e)] = some k') : Step k e k' := by
  have hrun : Run Step k [e] k' := run_of_performed (fun x hx p hp => by
    obtain rfl := List.mem_singleton.1 hx
    exact absurd hp (hnew p)) h
  cases hrun with
  | cons hstep hnil =>
      cases hnil
      exact hstep

/-- The clone raises the signal, and the timer switches to the process 0. -/
theorem signal_delivered_iff_cloned : ∃ (k' : Kernel) (p p' : Process),
    k'.activeNode = some 0 ∧ k'.process 0 = some p' ∧
    (p.signalHandlers 1).userdata = 72 ∧ p'.ctx.Enters (p.signalHandlers 1) := by
  have htest : (performAll (fun _ _ => true) init handlerClonedRun).any (fun k =>
      (raiseStarts k && k.activeNode != some 0) &&
        (performAll (fun _ _ => true) k [(3, 3, raiseEvent)]).any fun k₁ =>
          k₁.activeNode != some 0 &&
            (performAll (fun _ _ => true) k₁ [(3, 3, .timer anyContext)]).any fun k' =>
              k'.activeNode == some 0) = true := by
    decide
  simp only [Option.any_eq_true, Bool.and_eq_true, bne_iff_ne, beq_iff_eq] at htest
  obtain ⟨k, hk, ⟨hraise, hactive⟩, k₁, hk₁, hactive₁, k', hk', hactive'⟩ := htest
  obtain ⟨hraises, p, hp, hstarts, huserdata⟩ := raiseStarts_spec hraise
  have hstep : TrackStep (k, 0) raiseEvent (k₁, 0) := ⟨step_of_performed nofun hk₁, rfl⟩
  have hrun : Run (Guarded NotRunning TrackStep) (k₁, 0) [.timer anyContext] (k', 0) :=
    .single ⟨hactive₁, step_of_performed nofun hk', rfl⟩
  obtain ⟨p', hp', hiff⟩ := signal_delivered_iff
    (run_of_performed constructed_of_mem_handlerClonedRun hk) hraises hp hstarts hstep hrun
  exact ⟨k', p, p', hactive', hp', huserdata, hiff.2 fun heq => absurd heq hactive⟩

/-- The process 0 raises the signal on itself, and enters the handler with 0 for its userdata. -/
theorem self_raise_loses_userdata :
    ¬ ∀ es k e x sig p k₁ x₁ es' k' y, Run Step init es k → k.raises e = some (x, sig) →
      k.process x = some p → p.StartsHandler sig → TrackStep (k, x) e (k₁, x₁) →
      Run (Guarded NotRunning TrackStep) (k₁, x₁) es' (k', y) → k'.activeNode = some y →
      ∃ p', k'.process y = some p' ∧ p'.ctx.Enters (p.signalHandlers sig.toNat) := by
  intro hall
  have htest : (performAll (fun _ _ => true) init handlerRun).any (fun k => raiseStarts k &&
      (performAll (fun _ _ => true) k [(3, 3, raiseEvent)]).any fun k₁ =>
        k₁.activeNode == some 0 && (k₁.process 0).all fun p' => p'.ctx.gpRegs 0 == 0) = true := by
    decide
  simp only [Option.any_eq_true, Option.all_eq_true, Bool.and_eq_true, beq_iff_eq] at htest
  obtain ⟨k, hk, hraise, k₁, hk₁, hactive₁, hzero⟩ := htest
  obtain ⟨hraises, p, hp, hstarts, huserdata⟩ := raiseStarts_spec hraise
  have hnew : ∀ x ∈ handlerRun, ∀ p, x.2.2 = .addProcess p → Constructed p := fun x hx =>
    constructed_of_mem_handlerClonedRun x (List.mem_append_left _ hx)
  have hstep : TrackStep (k, 0) raiseEvent (k₁, 0) := ⟨step_of_performed nofun hk₁, rfl⟩
  obtain ⟨p', hp', henters⟩ := hall _ k raiseEvent 0 1 p k₁ 0 [] k₁ 0 (run_of_performed hnew hk)
    hraises hp hstarts hstep (.nil _) hactive₁
  have hargument : (0 : UInt64) = (p.signalHandlers 1).userdata :=
    (hzero p' hp').symm.trans henters.argument
  rw [huserdata] at hargument
  exact absurd hargument (by decide)

end Kernel

end CrosKernel
