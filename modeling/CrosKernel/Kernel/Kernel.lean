import CrosKernel.Containers.BinarySearchTree
import CrosKernel.Lib.Run
import CrosKernel.Sched.Process
import CrosKernel.Sched.Queue
import Mathlib.Algebra.Order.Ring.Nat
import Mathlib.Order.Nat

/-!
# The kernel

`Kernel` and the system calls of `src/kernel.cpp` that create, switch, wake and end processes, with
`do_syscall` and the timer interrupt around them. The process table stores processes by value in
the nodes of a search tree, and the scheduler holds pointers into these nodes. Following a null
pointer or a dangling one yields `none`: the machine stops there. Allocations succeed, at the
addresses that are arguments: `a` is the one for a node of the queue and `b` the one for a node of
the process table.
-/

namespace CrosKernel

open Containers Sched Lib

/-- `Process *` as the scheduler holds it: the address of the tree node in which the process lives.
The pid is a record of the process for which the pointer was taken; no function reads it. -/
structure ProcessRef where
  node : Addr
  enqueued : Pid
  deriving DecidableEq, Repr

/-- `Kernel`. -/
structure Kernel where
  scheduler : Queue ProcessRef
  processTable : BinarySearchTree Pid Process
  currPid : Pid

namespace Kernel

/-- `Kernel::Kernel`. -/
def init : Kernel where
  scheduler := .init
  processTable := .empty
  currPid := 1

/-- The process that a pointer points to. -/
def process (k : Kernel) (p : Addr) : Option Process := (k.processTable.nodes p).map (·.value)

/-- Assign to the process at a pointer. -/
def setProcess (k : Kernel) (p : Addr) (process : Process) : Option Kernel := do
  let table ← k.processTable.modify p fun n => { n with value := process }
  pure { k with processTable := table }

/-- `Kernel::nextPid`. -/
def nextPid (k : Kernel) : Pid × Kernel :=
  (k.currPid, { k with currPid := (k.currPid + 1) % 2 ^ 32 })

/-- `Kernel::getActiveProcess`. -/
def getActiveProcess (k : Kernel) : Option ProcessRef := k.scheduler.cur_Process

/-- `Kernel::switchTask`. Loading the address space follows the new pointer. -/
def switchTask (k : Kernel) (a : NodeAddr) : Option Kernel := do
  let scheduler ← k.scheduler.schedNext a
  let k := { k with scheduler := scheduler }
  let cur ← k.getActiveProcess
  let _ ← k.process cur.node
  pure k

/-- Assign to the active process. -/
def updateActive (k : Kernel) (f : Process → Option Process) : Option Kernel := do
  let cur ← k.getActiveProcess
  let p ← k.process cur.node
  let p' ← f p
  k.setProcess cur.node p'

/-- `Kernel::setCallerReturn`. -/
def setCallerReturn (k : Kernel) (v : UInt64) : Option Kernel :=
  k.updateActive fun p => some { p with ctx := p.ctx.setReturnValue v }

/-- `scheduler.enqueue(&processTable.get(pid))`. -/
def enqueuePid (k : Kernel) (a : NodeAddr) (pid : Pid) : Option Kernel := do
  let node ← k.processTable.find pid
  let scheduler ← k.scheduler.enqueue a ⟨node, pid⟩
  pure { k with scheduler := scheduler }

/-- `Kernel::addProcess`. -/
def addProcess (k : Kernel) (a : NodeAddr) (b : Addr) (p : Process) : Option Kernel := do
  let table ← k.processTable.insert p.pid p b
  let k := { k with processTable := table }
  if p.state = .ACTIVE then k.enqueuePid a p.pid else some k

/-- `Kernel::sleepActiveProcess`. -/
def sleepActiveProcess (k : Kernel) : Kernel :=
  { k with scheduler := { k.scheduler with cur_Process := none } }

/-- `Kernel::deleteActiveProcess`. -/
def deleteActiveProcess (k : Kernel) : Option Kernel := do
  let cur ← k.getActiveProcess
  let p ← k.process cur.node
  let table ← k.processTable.remove p.pid
  pure ({ k with processTable := table }).sleepActiveProcess

/-- The branch of `Kernel::raiseSignal` for a signal that kills the process. -/
def killProcess (k : Kernel) (a : NodeAddr) (pid : Pid) : Option Kernel := do
  let node ← k.processTable.find pid
  let p ← k.process node
  let k ← if p.state = .ACTIVE then do
      let (scheduler, _) ← k.scheduler.remove fun r => (k.process r.node).map (·.pid == pid)
      let k := { k with scheduler := scheduler }
      let cur ← k.getActiveProcess
      let active ← k.process cur.node
      if active.pid = pid then k.sleepActiveProcess.switchTask a else some k
    else some k
  let table ← k.processTable.remove pid
  pure { k with processTable := table }

/-- `Kernel::raiseSignal`, with its status. -/
def raiseSignal (k : Kernel) (a : NodeAddr) (pid : Pid) (signal : Int) : Option (Kernel × Int) := do
  let contained ← k.processTable.contains pid
  if !contained then some (k, -1)
  else do
    let node ← k.processTable.find pid
    let p ← k.process node
    if p.state ≠ .ACTIVE ∧ p.state ≠ .SIGWAIT then some (k, -1)
    else do
      let (p', status) := p.signalTrigger signal
      let k ← k.setProcess node p'
      let k ← if status > 0 then k.killProcess a pid
        else if status = 0 ∧ p.state = .SIGWAIT then k.enqueuePid a pid
        else some k
      pure (k, status)

/-! ## System calls -/

/-- The arguments of a system call. -/
inductive Syscall where
  | clone (fn stack userdata kernelStack : UInt64)
  | terminate
  | yield
  | sigraise (pid : Pid) (signal : Int)
  | sigret
  | sigwait
  | sigaction (signal : Int) (handler trampoline userdata : UInt64)

/-- `syscall_clone`. The kernel stack of the new process is allocated on the heap. -/
def syscallClone (k : Kernel) (a : NodeAddr) (b : Addr) (fn stack userdata kernelStack : UInt64) :
    Option Kernel := do
  let (pid, k) := k.nextPid
  let cur ← k.getActiveProcess
  let p ← k.process cur.node
  let k ← k.addProcess a b (p.clone pid fn stack userdata kernelStack)
  k.setCallerReturn 0

/-- `syscall_terminate`. -/
def syscallTerminate (k : Kernel) (a : NodeAddr) : Option Kernel := do
  let cur ← k.getActiveProcess
  let p ← k.process cur.node
  let (k, _) ← k.raiseSignal a p.parent 17
  let k ← k.deleteActiveProcess
  k.switchTask a

/-- `syscall_yield`. -/
def syscallYield (k : Kernel) (a : NodeAddr) : Option Kernel := do
  let k ← k.setCallerReturn 0
  k.switchTask a

/-- `syscall_sigraise`. -/
def syscallSigraise (k : Kernel) (a : NodeAddr) (pid : Pid) (signal : Int) : Option Kernel := do
  let (k, status) ← k.raiseSignal a pid signal
  if status ≤ 0 then k.setCallerReturn (UInt64.ofInt status) else some k

/-- `syscall_sigret`. -/
def syscallSigret (k : Kernel) : Option Kernel := k.updateActive Process.signalReturn

/-- `syscall_sigwait`. -/
def syscallSigwait (k : Kernel) (a : NodeAddr) : Option Kernel := do
  let k ← k.updateActive fun p => some { p with state := .SIGWAIT }
  k.sleepActiveProcess.switchTask a

/-- `syscall_sigaction`. -/
def syscallSigaction (k : Kernel) (signal : Int) (handler trampoline userdata : UInt64) :
    Option Kernel := do
  let k ← k.updateActive fun p => some (p.setSignalAction signal handler trampoline userdata)
  k.setCallerReturn 0

/-- The entry of a system call in `syscall_table`. -/
def syscall (k : Kernel) (a : NodeAddr) (b : Addr) : Syscall → Option Kernel
  | .clone fn stack userdata kernelStack => k.syscallClone a b fn stack userdata kernelStack
  | .terminate => k.syscallTerminate a
  | .yield => k.syscallYield a
  | .sigraise pid signal => k.syscallSigraise a pid signal
  | .sigret => k.syscallSigret
  | .sigwait => k.syscallSigwait a
  | .sigaction signal handler trampoline userdata =>
      k.syscallSigaction signal handler trampoline userdata

/-- `storeContext` of the active process. -/
def storeContext (k : Kernel) (ctx : Context) : Option Kernel :=
  k.updateActive fun p => some { p with ctx := ctx }

/-- `do_syscall`, entered with the registers `ctx`. It returns to the context of the process that
is active then. -/
def doSyscall (k : Kernel) (a : NodeAddr) (b : Addr) (ctx : Context) (call : Syscall) :
    Option Kernel := do
  let k ← k.storeContext ctx
  let k ← k.syscall a b call
  let cur ← k.getActiveProcess
  let _ ← k.process cur.node
  pure k

/-- `handle_irq` of a timer interrupt, entered with the registers `ctx`. -/
def timerInterrupt (k : Kernel) (a : NodeAddr) (ctx : Context) : Option Kernel := do
  let k ← if k.getActiveProcess = none then some k else k.storeContext ctx
  k.switchTask a

/-! ## Runs -/

/-- What can happen to the kernel. The boot code adds the first process and switches to it. -/
inductive Event where
  | addProcess (p : Process)
  | syscall (ctx : Context) (call : Syscall)
  | timer (ctx : Context)

/-- A process as the constructors of `Process` leave it. -/
structure Constructed (p : Process) : Prop where
  state_eq : p.state = .ACTIVE
  noKill : p.NoKill

/-- One event, with the addresses of the new nodes. -/
def perform (k : Kernel) (a : NodeAddr) (b : Addr) : Event → Option Kernel
  | .addProcess p => k.addProcess a b p
  | .syscall ctx call => k.doSyscall a b ctx call
  | .timer ctx => k.timerInterrupt a ctx

/-- An event takes the kernel from one state to the next. `new` returns addresses that are not in
use. -/
def Step (k : Kernel) (e : Event) (k' : Kernel) : Prop :=
  (∀ p, e = .addProcess p → Constructed p) ∧
    ∃ a b, k.scheduler.nodes a = none ∧ k.processTable.nodes b = none ∧
      k.perform a b e = some k'

end Kernel

end CrosKernel
