import CrosKernel.Lib.Run
import CrosKernel.Sched.Process

/-!
# Signal handlers and the context they interrupt

A process as signals see it: it runs, sets handlers, gets signals, waits and returns from handlers.
`SignalStep` keeps beside the process the contexts that started handlers interrupted and that no
`sigret` gave back yet, the innermost first. The process has one backup slot, guarded by its state.
`saved_contexts_restored` says that this is enough as long as no handler calls `sigwait`: that call
overwrites the state, and the next handler overwrites the slot.
-/

namespace CrosKernel.Sched

open Lib

namespace Process

/-- The part of `Kernel::raiseSignal` that concerns the process it finds. -/
def raise (p : Process) (sig : Int) : Process :=
  if p.state ≠ .ACTIVE ∧ p.state ≠ .SIGWAIT then p else (p.signalTrigger sig).1

/-- The signal starts a handler. -/
def StartsHandler (p : Process) (sig : Int) : Prop :=
  (p.state = .ACTIVE ∨ p.state = .SIGWAIT) ∧ 0 ≤ sig ∧ sig < MAX_SIGNAL ∧
    (p.signalHandlers sig.toNat).type = .HANDLER

instance (p : Process) (sig : Int) : Decidable (p.StartsHandler sig) := by
  unfold StartsHandler
  infer_instance

end Process

/-- What happens to a process as far as signals are concerned. -/
inductive SignalEvent where
  /-- It runs and enters the kernel with these registers, or a system call sets its result. -/
  | run (ctx : Context)
  | sigaction (signal : Int) (handler trampoline userdata : UInt64)
  | raise (sig : Int)
  | sigwait
  | sigret

namespace SignalEvent

/-- The process after an event. Returning from a handler follows the pointer to the backup. -/
def perform (p : Process) : SignalEvent → Option Process
  | run ctx => some { p with ctx := ctx }
  | sigaction signal handler trampoline userdata =>
      some (p.setSignalAction signal handler trampoline userdata)
  | raise sig => some (p.raise sig)
  | sigwait => some { p with state := .SIGWAIT }
  | sigret => p.signalReturn

/-- The interrupted contexts after an event: a handler that is started adds the context it
interrupts, and `sigret` ends the handler that was started last. -/
def savedAfter (p : Process) (saved : List Context) : SignalEvent → List Context
  | raise sig => if p.StartsHandler sig then p.ctx :: saved else saved
  | sigret => saved.tail
  | _ => saved

end SignalEvent

/-- An event, with the record of the interrupted contexts. -/
def SignalStep (s : Process × List Context) (e : SignalEvent) (s' : Process × List Context) :
    Prop :=
  e.perform s.1 = some s'.1 ∧ s'.2 = e.savedAfter s.1 s.2

theorem SignalStep.of_perform {p p' : Process} {e : SignalEvent} (saved : List Context)
    (h : e.perform p = some p') : SignalStep (p, saved) e (p', e.savedAfter p saved) :=
  ⟨h, rfl⟩

/-- `sigwait` is not called from a handler. -/
def WaitsOutside (s : Process × List Context) (e : SignalEvent) : Prop :=
  e = .sigwait → s.1.state ≠ .SIGNAL

/-- The process still holds every interrupted context, and `sigret` gives back the innermost one. -/
structure Restores (p : Process) (saved : List Context) : Prop where
  held : p.backupCtx.toList = saved
  sigret : ∀ ctx rest, saved = ctx :: rest → ∃ p', p.signalReturn = some p' ∧ p'.ctx = ctx

/-- The backup slot is in use in the state `SIGNAL` only. -/
structure Backed (p : Process) (saved : List Context) : Prop where
  held : p.backupCtx.toList = saved
  state_iff : p.state = .SIGNAL ↔ saved ≠ []

namespace Process

@[simp]
theorem setSignalAction_backupCtx (p : Process) (signal : Int)
    (handler trampoline userdata : UInt64) :
    (p.setSignalAction signal handler trampoline userdata).backupCtx = p.backupCtx := by
  unfold setSignalAction
  split
  · rfl
  · split <;> rfl

/-- A signal that starts a handler saves the context and leaves the process in the handler. -/
theorem raise_of_startsHandler {p : Process} {sig : Int} (h : p.StartsHandler sig) :
    (p.raise sig).backupCtx = some p.ctx ∧ (p.raise sig).state = .SIGNAL := by
  obtain ⟨hstate, hlow, hhigh, htype⟩ := h
  have hraise : ¬ (p.state ≠ .ACTIVE ∧ p.state ≠ .SIGWAIT) := by tauto
  have hrange : ¬ (sig < 0 ∨ sig ≥ MAX_SIGNAL) := by omega
  have hsignal : p.state ≠ .SIGNAL := by
    rcases hstate with hstate | hstate <;> simp [hstate]
  rw [raise, if_neg hraise, signalTrigger, if_neg hrange]
  simp [htype, hsignal]

/-- Every other signal leaves the process as it is. -/
theorem raise_of_not_startsHandler {p : Process} {sig : Int} (h : ¬ p.StartsHandler sig) :
    p.raise sig = p := by
  unfold raise
  split
  · rfl
  · unfold signalTrigger
    split
    · rfl
    · dsimp only
      split
      · rfl
      case h_2 hstate hrange _ htype => exact absurd ⟨by tauto, by omega, by omega, htype⟩ h
      · rfl

/-- `sigret` in a handler gives the saved context back. -/
theorem signalReturn_of_backup {p : Process} {ctx : Context} (hstate : p.state = .SIGNAL)
    (hbackup : p.backupCtx = some ctx) :
    p.signalReturn = some { p with ctx := ctx, backupCtx := none, state := .ACTIVE } := by
  simp [signalReturn, hstate, hbackup]

end Process

variable {p p' : Process} {saved : List Context}

theorem Backed.restores (h : Backed p saved) : Restores p saved where
  held := h.held
  sigret ctx rest hsaved := by
    have hstate : p.state = .SIGNAL := h.state_iff.2 (by simp [hsaved])
    have hbackup : p.backupCtx = some ctx := by
      cases hb : p.backupCtx <;> simp_all [← h.held]
    exact ⟨_, Process.signalReturn_of_backup hstate hbackup, rfl⟩

/-- Every event but `sigwait` from a handler keeps the backup slot in step with the handlers. -/
theorem Backed.step {s' : Process × List Context} {e : SignalEvent} (h : Backed p saved)
    (hsafe : WaitsOutside (p, saved) e) (hstep : SignalStep (p, saved) e s') :
    Backed s'.1 s'.2 := by
  obtain ⟨p', saved'⟩ := s'
  obtain ⟨hperform, rfl⟩ := hstep
  cases e with
  | run ctx =>
      obtain rfl : { p with ctx := ctx } = p' := Option.some.inj hperform
      exact ⟨h.held, h.state_iff⟩
  | sigaction signal handler trampoline userdata =>
      obtain rfl : p.setSignalAction signal handler trampoline userdata = p' :=
        Option.some.inj hperform
      exact ⟨by simpa [SignalEvent.savedAfter] using h.held, by
        simpa [SignalEvent.savedAfter] using h.state_iff⟩
  | raise sig =>
      obtain rfl : p.raise sig = p' := Option.some.inj hperform
      by_cases hstarts : p.StartsHandler sig
      · -- no handler is active here, so no context is saved yet
        obtain ⟨hbackup, hstate⟩ := Process.raise_of_startsHandler hstarts
        have hnone : saved = [] := by
          by_contra hne
          have hsignal := h.state_iff.2 hne
          rcases hstarts.1 with hactive | hwait <;> simp_all
        simp only [SignalEvent.savedAfter, hstarts, if_true, hnone]
        exact ⟨by simp [hbackup], by simp [hstate]⟩
      · simp only [SignalEvent.savedAfter, hstarts, if_false,
          Process.raise_of_not_startsHandler hstarts]
        exact h
  | sigwait =>
      obtain rfl : { p with state := .SIGWAIT } = p' := Option.some.inj hperform
      have hnone : saved = [] := by
        by_contra hne
        exact hsafe rfl (h.state_iff.2 hne)
      exact ⟨h.held, by simp [SignalEvent.savedAfter, hnone]⟩
  | sigret =>
      by_cases hstate : p.state = .SIGNAL
      · obtain ⟨ctx, hbackup⟩ : ∃ ctx, p.backupCtx = some ctx := by
          have hne := h.state_iff.1 hstate
          cases hb : p.backupCtx <;> simp_all [← h.held]
        have hreturn := Process.signalReturn_of_backup hstate hbackup
        obtain rfl := Option.some.inj (hreturn.symm.trans hperform)
        have hsaved : saved = [ctx] := by simp [← h.held, hbackup]
        exact ⟨by simp [SignalEvent.savedAfter, hsaved], by simp [SignalEvent.savedAfter, hsaved]⟩
      · have hnone : saved = [] := by
          by_contra hne
          exact hstate (h.state_iff.2 hne)
        have hreturn : p.signalReturn = some p := by simp [Process.signalReturn, hstate]
        obtain rfl := Option.some.inj (hreturn.symm.trans hperform)
        exact ⟨by simp [SignalEvent.savedAfter, hnone, h.held], by
          simp [SignalEvent.savedAfter, hnone, hstate]⟩

/-- As long as no handler calls `sigwait`, every context that a handler interrupts is kept and given
back by the `sigret` that ends the handler. -/
theorem saved_contexts_restored {p₀ : Process} {es : List SignalEvent} (hstate : p₀.state = .ACTIVE)
    (hbackup : p₀.backupCtx = none)
    (h : Run (Guarded WaitsOutside SignalStep) (p₀, []) es (p, saved)) : Restores p saved := by
  have hstep : ∀ (s : Process × List Context) (e : SignalEvent) (s' : Process × List Context),
      Backed s.1 s.2 → Guarded WaitsOutside SignalStep s e s' → Backed s'.1 s'.2 :=
    fun _ _ _ hs hstep => hs.step hstep.1 hstep.2
  have hinit : Backed p₀ [] := ⟨by simp [hbackup], by simp [hstate]⟩
  have hbacked : Backed p saved := h.invariant hinit hstep
  exact hbacked.restores

/-- The registers of a process at the program counter `pc`. -/
private def contextAt (pc : UInt64) : Context := Context.new pc 0 0

/-- A process sets a handler, gets the signal at 8, and returns from the handler. -/
private def handledOnce : List SignalEvent :=
  [.sigaction 1 64 68 0, .run (contextAt 8), .raise 1, .run (contextAt 68)]

theorem saved_contexts_restored_once :
    ∃ p, Run (Guarded WaitsOutside SignalStep) (Process.new 0 0 0 0 0, []) handledOnce
      (p, [contextAt 8]) ∧ Restores p [contextAt 8] := by
  have hrun : Run (Guarded WaitsOutside SignalStep) (Process.new 0 0 0 0 0, []) handledOnce
      (_, [contextAt 8]) :=
    .cons ⟨nofun, .of_perform _ rfl⟩ (.cons ⟨nofun, .of_perform _ rfl⟩
      (.cons ⟨nofun, .of_perform _ rfl⟩ (.cons ⟨nofun, .of_perform _ rfl⟩ (.nil _))))
  exact ⟨_, hrun, saved_contexts_restored rfl rfl hrun⟩

/-- The handler waits for a signal, and the second handler overwrites the saved context. -/
theorem sigwait_in_handler_loses_context :
    ¬ ∀ p₀ es p saved, p₀.state = .ACTIVE → p₀.backupCtx = none →
      Run SignalStep (p₀, []) es (p, saved) → Restores p saved := by
  intro hall
  have hrun : Run SignalStep (Process.new 0 0 0 0 0, [])
      (handledOnce ++ [.sigwait, .raise 1]) (_, [contextAt 68, contextAt 8]) :=
    .cons (.of_perform _ rfl) (.cons (.of_perform _ rfl) (.cons (.of_perform _ rfl)
      (.cons (.of_perform _ rfl) (.cons (.of_perform _ rfl) (.cons (.of_perform _ rfl) (.nil _))))))
  have hheld := (hall _ _ _ _ rfl rfl hrun).held
  -- one slot cannot hold two contexts
  have hlength := congrArg List.length hheld
  exact absurd hlength (by decide)

end CrosKernel.Sched
