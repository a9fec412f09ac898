import CrosKernel.Types.Status
import Mathlib.Logic.Function.Basic

/-!
# Processes

`Context` of `src/sched/aarch64/context.cpp` and `Process` of `src/sched/process.cpp`, without the
address space and the open files, on which scheduling and signals do not depend. A pointer to a
context is the context it points to: the code copies contexts whenever it copies a process.
-/

namespace CrosKernel.Sched

/-- `pid_t`, an unsigned integer of 32 bits. -/
abbrev Pid := Nat

/-- `Context`: the registers of a process. -/
structure Context where
  fpRegs : Fin 64 → UInt64
  gpRegs : Fin 31 → UInt64
  stackPointer : UInt64
  programCounter : UInt64
  programStatus : UInt64
  fpcr : UInt64
  fpsr : UInt64
  kernelStack : UInt64

namespace Context

/-- `Context::Context(pc, sp, ksp)`. -/
def new (pc sp ksp : UInt64) : Context where
  fpRegs _ := 0
  gpRegs i := UInt64.ofNat i
  stackPointer := sp
  programCounter := pc
  programStatus := 0
  fpcr := 0
  fpsr := 0
  kernelStack := ksp

/-- `Context::functionCall`. -/
def functionCall (ctx : Context) (func returnLoc arg : UInt64) : Context :=
  { ctx with
    programCounter := func
    gpRegs := Function.update (Function.update ctx.gpRegs 30 returnLoc) 0 arg }

/-- `Context::setReturnValue`. -/
def setReturnValue (ctx : Context) (v : UInt64) : Context :=
  { ctx with gpRegs := Function.update ctx.gpRegs 0 v }

/-- `Context::setProgramCounter`. -/
def setProgramCounter (ctx : Context) (pc : UInt64) : Context :=
  { ctx with programCounter := pc }

/-- `Context::setStackPointer`. -/
def setStackPointer (ctx : Context) (sp : UInt64) : Context :=
  { ctx with stackPointer := sp }

/-- `Context::setKernelStack`. -/
def setKernelStack (ctx : Context) (sp : UInt64) : Context :=
  { ctx with kernelStack := sp }

/-- `Context::setProcessArgs`. -/
def setProcessArgs (ctx : Context) (argc : Nat) (argv envp : UInt64) : Context :=
  let gpRegs := Function.update ctx.gpRegs 0 (UInt64.ofNat argc)
  { ctx with gpRegs := Function.update (Function.update gpRegs 1 argv) 2 envp }

/-- The register that the entry point of a program finds its first argument in. -/
def argc (ctx : Context) : UInt64 := ctx.gpRegs 0

/-- The register that the entry point finds its second argument in. -/
def argv (ctx : Context) : UInt64 := ctx.gpRegs 1

/-- The register that the entry point finds its third argument in. -/
def envp (ctx : Context) : UInt64 := ctx.gpRegs 2

end Context

/-- `ActionType`. -/
inductive ActionType where
  | NONE | HANDLER | KILL
  deriving DecidableEq, Repr

/-- `SignalAction`. Function pointers are addresses. -/
structure SignalAction where
  type : ActionType
  handler : UInt64
  trampoline : UInt64
  userdata : UInt64

/-- The action that a null handler stands for. -/
def SignalAction.none : SignalAction := ⟨.NONE, 0, 0, 0⟩

/-- `Process::State`. -/
inductive State where
  | ACTIVE | SIGNAL | SIGWAIT
  deriving DecidableEq, Repr

/-- `Process::MAX_SIGNAL`. -/
def MAX_SIGNAL : Int := 64

/-- `Process`. The array of signal handlers is a total map; the indices that are used are checked
against `MAX_SIGNAL`. -/
structure Process where
  pid : Pid
  parent : Pid
  ctx : Context
  backupCtx : Option Context
  state : State
  signalHandlers : Nat → SignalAction

namespace Process

/-- `Process::Process(pid, parent, entry, stack, kernelStack, addressSpace)`. The constructor sets
only the types of the handlers. -/
def new (pid parent : Pid) (entry stack kernelStack : UInt64) : Process where
  pid := pid
  parent := parent
  ctx := Context.new entry stack kernelStack
  backupCtx := none
  state := .ACTIVE
  signalHandlers _ := .none

/-- `Process::Process()`, the first process. Its kernel stack pointer is left uninitialized. -/
def init (kernelStack : UInt64) : Process := new 0 0 0 0 kernelStack

/-- `Process::clone`. The kernel stack is allocated by the caller's heap. -/
def clone (p : Process) (pid : Pid) (pc stack userdata kernelStack : UInt64) : Process :=
  let copy := new pid p.pid pc stack kernelStack
  { copy with ctx := copy.ctx.functionCall pc 0 userdata }

/-- `Process::setSignalAction`. -/
def setSignalAction (p : Process) (signal : Int) (handler trampoline userdata : UInt64) : Process :=
  if signal < 0 ∨ signal ≥ MAX_SIGNAL then p
  else if handler = 0 then
    { p with signalHandlers := Function.update p.signalHandlers signal.toNat .none }
  else
    { p with signalHandlers :=
        Function.update p.signalHandlers signal.toNat ⟨.HANDLER, handler, trampoline, userdata⟩ }

/-- `Process::signalTrigger`, with its status. -/
def signalTrigger (p : Process) (sig : Int) : Process × Int :=
  if sig < 0 ∨ sig ≥ MAX_SIGNAL then (p, 0)
  else
    let action := p.signalHandlers sig.toNat
    match action.type with
    | .NONE => (p, 0)
    | .HANDLER =>
        if p.state = .SIGNAL then (p, -1)
        else
          ({ p with
            backupCtx := some p.ctx
            ctx := p.ctx.functionCall action.handler action.trampoline action.userdata
            state := .SIGNAL }, 0)
    | .KILL => (p, 1)

/-- `Process::signalReturn`. -/
def signalReturn (p : Process) : Option Process :=
  if p.state ≠ .SIGNAL then some p
  else do
    let ctx ← p.backupCtx
    pure { p with ctx := ctx, backupCtx := none, state := .ACTIVE }

/-- No signal kills the process. -/
def NoKill (p : Process) : Prop := ∀ sig, (p.signalHandlers sig).type ≠ .KILL

theorem new_noKill (pid parent : Pid) (entry stack kernelStack : UInt64) :
    (new pid parent entry stack kernelStack).NoKill := by
  intro sig
  simp [new, SignalAction.none]

theorem clone_noKill (p : Process) (pid : Pid) (pc stack userdata kernelStack : UInt64) :
    (p.clone pid pc stack userdata kernelStack).NoKill :=
  new_noKill pid p.pid pc stack kernelStack

/-- A handler that is set does not kill. -/
theorem setSignalAction_noKill {p : Process} (h : p.NoKill) (signal : Int)
    (handler trampoline userdata : UInt64) :
    (p.setSignalAction signal handler trampoline userdata).NoKill := by
  intro sig
  unfold setSignalAction
  split
  · exact h sig
  · split
    all_goals
      by_cases hsig : sig = signal.toNat
      · simp [hsig, SignalAction.none]
      · simpa [hsig] using h sig

@[simp]
theorem setSignalAction_pid (p : Process) (signal : Int) (handler trampoline userdata : UInt64) :
    (p.setSignalAction signal handler trampoline userdata).pid = p.pid := by
  unfold setSignalAction
  split
  · rfl
  · split <;> rfl

@[simp]
theorem setSignalAction_state (p : Process) (signal : Int)
    (handler trampoline userdata : UInt64) :
    (p.setSignalAction signal handler trampoline userdata).state = p.state := by
  unfold setSignalAction
  split
  · rfl
  · split <;> rfl

/-- Everything `signalTrigger` does to a process that no signal kills: the state either stays or
becomes `SIGNAL`, and outside of a handler the status is 0. -/
theorem signalTrigger_cases {p p' : Process} {sig status : Int} (hkill : p.NoKill)
    (h : p.signalTrigger sig = (p', status)) :
    p'.pid = p.pid ∧ p'.NoKill ∧ (p'.state = p.state ∨ p'.state = .SIGNAL) ∧
      (status = 0 ∨ status = -1) ∧ (p.state ≠ .SIGNAL → status = 0) := by
  unfold signalTrigger at h
  split at h
  · cases h
    exact ⟨rfl, hkill, .inl rfl, .inl rfl, fun _ => rfl⟩
  · dsimp only at h
    split at h
    · cases h
      exact ⟨rfl, hkill, .inl rfl, .inl rfl, fun _ => rfl⟩
    · split at h
      · cases h
        exact ⟨rfl, hkill, .inl rfl, .inr rfl, fun hs => absurd ‹_› hs⟩
      · cases h
        exact ⟨rfl, hkill, .inr rfl, .inl rfl, fun _ => rfl⟩
    case _ heq => exact absurd heq (hkill _)

theorem signalReturn_cases {p p' : Process} (h : p.signalReturn = some p') :
    p'.pid = p.pid ∧ p'.signalHandlers = p.signalHandlers ∧
      (p'.state = p.state ∨ p.state = .SIGNAL ∧ p'.state = .ACTIVE) := by
  unfold signalReturn at h
  split at h
  · cases h
    exact ⟨rfl, rfl, .inl rfl⟩
  · cases hb : p.backupCtx with
    | none => simp [hb] at h
    | some ctx =>
        simp only [hb, Option.bind_eq_bind, Option.bind_some, Option.pure_def,
          Option.some.injEq] at h
        subst h
        exact ⟨rfl, rfl, .inr ⟨not_not.1 ‹_›, rfl⟩⟩

end Process

end CrosKernel.Sched
