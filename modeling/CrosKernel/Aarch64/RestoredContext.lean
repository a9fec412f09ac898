import CrosKernel.Aarch64.LoadContext

/-!
# Restored contexts

`registers` is the register state that a `Context` stands for. `save_context` and `load_context`
agree with it, and the member functions that change a context change the registers of the same
meaning. A process that is interrupted and resumed therefore finds its registers as they were, apart
from those that were set in between.
-/

namespace CrosKernel.Aarch64

open Lib Sched

variable {memory : WordMemory} {this : UInt64}

/-- The registers that a context stands for. -/
def registers (ctx : Context) (r : Register) : UInt64 :=
  ctx.element r.member ⟨r.index, r.index_lt⟩

/-- The registers after `load_context` when the memory has changed before. -/
def resume (c : Cpu) (memory : WordMemory) : Register → UInt64 :=
  ({ c with memory := memory }.run loadContext).reg

theorem registers_readContext (memory : WordMemory) (this : UInt64) (r : Register) :
    registers (readContext memory this) r = loadWord memory (offsetBy this r.offset) :=
  readContext_element memory this r.member ⟨r.index, r.index_lt⟩

theorem registers_assign (ctx : Context) (r : Register) (v : UInt64) :
    registers (ctx.assign r.member ⟨r.index, r.index_lt⟩ v) =
      Function.update (registers ctx) r v := by
  funext r'
  by_cases hr : r' = r
  · subst hr
    rw [Function.update_self]
    exact Context.element_assign_self ctx r'.member _ v
  · rw [Function.update_of_ne hr]
    exact Context.element_assign_of_ne (fun h => hr (Register.eq_of_place h.1 h.2)) ctx v

/-- A signal handler starts with its address, its return address and its argument. -/
theorem registers_functionCall (ctx : Context) (func returnLoc arg : UInt64) :
    registers (ctx.functionCall func returnLoc arg) =
      Function.update (Function.update (Function.update (registers ctx) .ELR_EL1 func) (.X 30)
        returnLoc) (.X 0) arg := by
  rw [← registers_assign, ← registers_assign, ← registers_assign]
  rfl

/-! ## The routines and the structure -/

/-- The structure that `save_context` leaves at the stack pointer. -/
theorem registers_saveContext (m : Cpu) :
    registers (readContext (m.run saveContext).memory ((m.run saveContext).reg .SP)) = m.reg := by
  obtain ⟨hsp, hsaved⟩ := run_saveContext m
  funext r
  rw [registers_readContext, hsp, hsaved]

/-- What `load_context` makes of the structure that `x0` points to. -/
theorem resume_eq (c : Cpu) (memory : WordMemory) :
    resume c memory = registers (readContext memory (c.reg (.X 0))) := by
  funext r
  rw [registers_readContext]
  exact run_loadContext { c with memory := memory } r

/-- The process goes on at the program counter and with the status of its context. -/
theorem loadContext_resumes (c : Cpu) :
    (c.run loadContext).pc = (c.run loadContext).reg .ELR_EL1 ∧
      (c.run loadContext).pstate = (c.run loadContext).reg .SPSR_EL1 := by
  have hlast : loadContext = loadContext.take 35 ++ [.eret] := rfl
  rw [hlast, Cpu.run_append]
  exact ⟨rfl, rfl⟩

/-- A copy of a structure is the same context. -/
theorem readContext_congr {memory' : WordMemory} {this' : UInt64}
    (h : ∀ i < contextSize, memory (offsetBy this i) = memory' (offsetBy this' i)) :
    readContext memory this = readContext memory' this' := by
  refine Context.ext_element fun member i => ?_
  rw [readContext_element, readContext_element]
  exact loadWord_offset_congr (Member.element_le i.isLt) h

/-! ## The main theorem -/

/-- A process that is resumed with a copy of the structure that was saved finds every register as it
was. The two routines use the offsets of the members of `Context`, so that a register that a member
function has set in the copy has the new value, and only that. -/
theorem loadContext_saveContext (m c : Cpu)
    (h : ∀ i < contextSize, c.memory (offsetBy (c.reg (.X 0)) i) =
      (m.run saveContext).memory (offsetBy ((m.run saveContext).reg .SP) i)) :
    (∀ r : Register, (c.run loadContext).reg r = m.reg r) ∧
      (∀ r : Register, loadWord (m.run saveContext).memory
        (offsetBy ((m.run saveContext).reg .SP) (r.member.element r.index)) = m.reg r) ∧
      (∀ r : Register, (c.run loadContext).reg r =
        loadWord c.memory (offsetBy (c.reg (.X 0)) (r.member.element r.index))) ∧
      (∀ v, resume c (setReturnValueAt c.memory (c.reg (.X 0)) v) =
        Function.update m.reg (.X 0) v) ∧
      (∀ func returnLoc arg,
        resume c (functionCallAt c.memory (c.reg (.X 0)) func returnLoc arg) =
          Function.update (Function.update (Function.update m.reg .ELR_EL1 func) (.X 30) returnLoc)
            (.X 0) arg) ∧
      (∀ sp, resume c (setStackPointerAt c.memory (c.reg (.X 0)) sp) =
        Function.update m.reg .SP_EL0 sp) ∧
      (∀ pc, resume c (setProgramCounterAt c.memory (c.reg (.X 0)) pc) =
        Function.update m.reg .ELR_EL1 pc) ∧
      ∀ sp, resume c (setKernelStackAt c.memory (c.reg (.X 0)) sp) =
        Function.update m.reg .SP sp := by
  have hctx : registers (readContext c.memory (c.reg (.X 0))) = m.reg := by
    rw [readContext_congr h, registers_saveContext]
  refine ⟨fun r => ?_, fun r => ?_, run_loadContext c, fun v => ?_, fun func returnLoc arg => ?_,
    fun sp => ?_, fun pc => ?_, fun sp => ?_⟩
  · rw [run_loadContext, ← registers_readContext, hctx]
  · rw [← congrFun (registers_saveContext m) r, registers_readContext]
    rfl
  · rw [resume_eq, readContext_setReturnValueAt, ← hctx]
    exact registers_assign _ (.X 0) v
  · rw [resume_eq, readContext_functionCallAt, registers_functionCall, hctx]
  · rw [resume_eq, readContext_setStackPointerAt, ← hctx]
    exact registers_assign _ .SP_EL0 sp
  · rw [resume_eq, readContext_setProgramCounterAt, ← hctx]
    exact registers_assign _ .ELR_EL1 pc
  · rw [resume_eq, readContext_setKernelStackAt, ← hctx]
    exact registers_assign _ .SP sp

theorem loadContext_saveContext_copy :
    let m : Cpu := ⟨fun r => UInt64.ofNat r.offset, fun _ => 0, 0, 0⟩
    let c : Cpu := (m.run saveContext).set (.X 0) ((m.run saveContext).reg .SP)
    (c.run loadContext).reg (.X 8) = 576 ∧ (c.run loadContext).reg .SP = 800 := by
  intro m c
  obtain ⟨hreg, -⟩ := loadContext_saveContext m c fun i _ => by
    rw [Cpu.set_self, Cpu.set_memory]
  exact ⟨hreg (.X 8), hreg .SP⟩

end CrosKernel.Aarch64
