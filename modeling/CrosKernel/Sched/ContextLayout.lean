import CrosKernel.Lib.WordMemory
import CrosKernel.Sched.Process

/-!
# Contexts in memory

`Context` of `src/sched/context.h` as an object in memory. All its members are words or arrays of
words, so that they lie one behind the other in the order of their declaration. Each member function
that sets something stores words at the members it names, and `readContext` turns that into the
function of the same name on `Context`.
-/

namespace CrosKernel.Sched

open Lib

/-- The data members of `Context`. -/
inductive Member where
  | fpRegs | gpRegs | stackPointer | programCounter | programStatus | fpcr | fpsr | kernelStack
  deriving DecidableEq

namespace Member

/-- The members in the order of their declaration. -/
def declared : List Member :=
  [fpRegs, gpRegs, stackPointer, programCounter, programStatus, fpcr, fpsr, kernelStack]

/-- The number of words of a member. -/
def count : Member → Nat
  | fpRegs => 64
  | gpRegs => 31
  | _ => 1

/-- The offset of a member: the size of those declared before it. -/
def offset (member : Member) : Nat :=
  ((declared.takeWhile (· ≠ member)).map fun before => 8 * before.count).sum

/-- The offset of an element of a member. -/
def element (member : Member) (index : Nat) : Nat := member.offset + 8 * index

end Member

/-- `sizeof(Context)`. -/
def contextSize : Nat := (Member.declared.map fun member => 8 * member.count).sum

/-- The context that lies at an address. -/
def readContext (memory : WordMemory) (this : UInt64) : Context where
  fpRegs i := loadWord memory (offsetBy this (Member.fpRegs.element i))
  gpRegs i := loadWord memory (offsetBy this (Member.gpRegs.element i))
  stackPointer := loadWord memory (offsetBy this (Member.stackPointer.element 0))
  programCounter := loadWord memory (offsetBy this (Member.programCounter.element 0))
  programStatus := loadWord memory (offsetBy this (Member.programStatus.element 0))
  fpcr := loadWord memory (offsetBy this (Member.fpcr.element 0))
  fpsr := loadWord memory (offsetBy this (Member.fpsr.element 0))
  kernelStack := loadWord memory (offsetBy this (Member.kernelStack.element 0))

/-- An assignment to an element of a member. -/
def assign (memory : WordMemory) (this : UInt64) (member : Member) (index : Nat) (v : UInt64) :
    WordMemory :=
  storeWord memory (offsetBy this (member.element index)) v

/-! ## The member functions -/

/-- `Context::functionCall` on the context at an address. -/
def functionCallAt (memory : WordMemory) (this func returnLoc arg : UInt64) : WordMemory :=
  let memory := assign memory this .programCounter 0 func
  let memory := assign memory this .gpRegs 30 returnLoc
  assign memory this .gpRegs 0 arg

/-- `Context::setReturnValue` on the context at an address. -/
def setReturnValueAt (memory : WordMemory) (this v : UInt64) : WordMemory :=
  assign memory this .gpRegs 0 v

/-- `Context::setProgramCounter` on the context at an address. -/
def setProgramCounterAt (memory : WordMemory) (this pc : UInt64) : WordMemory :=
  assign memory this .programCounter 0 pc

/-- `Context::setStackPointer` on the context at an address. -/
def setStackPointerAt (memory : WordMemory) (this sp : UInt64) : WordMemory :=
  assign memory this .stackPointer 0 sp

/-- `Context::setKernelStack` on the context at an address. -/
def setKernelStackAt (memory : WordMemory) (this sp : UInt64) : WordMemory :=
  assign memory this .kernelStack 0 sp

/-! ## What an assignment changes -/

variable {member member' : Member} {i j : Nat} {memory : WordMemory} {this v : UInt64}

namespace Member

theorem element_eq (member : Member) (i : Nat) :
    member.element i = (match member with
      | fpRegs => 0
      | gpRegs => 512
      | stackPointer => 760
      | programCounter => 768
      | programStatus => 776
      | fpcr => 784
      | fpsr => 792
      | kernelStack => 800) + 8 * i := by
  cases member <;> rfl

/-- Different elements do not overlap. -/
theorem element_apart (hi : i < member.count) (hj : j < member'.count)
    (h : ¬ (member' = member ∧ j = i)) :
    member'.element j + 8 ≤ member.element i ∨ member.element i + 8 ≤ member'.element j := by
  rw [element_eq, element_eq]
  cases member <;> cases member' <;> simp only [count] at hi hj <;>
    simp only [true_and, reduceCtorEq, false_and, not_false_eq_true] at h ⊢ <;> omega

theorem element_le (hi : i < member.count) : member.element i + 8 ≤ contextSize := by
  have hsize : contextSize = 808 := rfl
  rw [element_eq, hsize]
  cases member <;> simp only [count] at hi ⊢ <;> omega

end Member

theorem load_assign_self (memory : WordMemory) (this : UInt64) (member : Member) (i : Nat)
    (v : UInt64) :
    loadWord (assign memory this member i v) (offsetBy this (member.element i)) = v :=
  loadWord_storeWord_same memory _ v

theorem load_assign_of_ne (hi : i < member.count) (hj : j < member'.count)
    (h : ¬ (member' = member ∧ j = i)) (memory : WordMemory) (this v : UInt64) :
    loadWord (assign memory this member i v) (offsetBy this (member'.element j)) =
      loadWord memory (offsetBy this (member'.element j)) := by
  have hsize : contextSize = 808 := rfl
  have hle := Member.element_le hi
  have hle' := Member.element_le hj
  exact loadWord_storeWord_other (Member.element_apart hi hj h) (by omega) (by omega) memory this v

/-! ## The context at an address -/

namespace Context

/-- An element of a member. -/
def element (ctx : Context) : (member : Member) → Fin member.count → UInt64
  | .fpRegs, i => ctx.fpRegs i
  | .gpRegs, i => ctx.gpRegs i
  | .stackPointer, _ => ctx.stackPointer
  | .programCounter, _ => ctx.programCounter
  | .programStatus, _ => ctx.programStatus
  | .fpcr, _ => ctx.fpcr
  | .fpsr, _ => ctx.fpsr
  | .kernelStack, _ => ctx.kernelStack

/-- The context with another value for an element of a member. -/
def assign (ctx : Context) : (member : Member) → Fin member.count → UInt64 → Context
  | .fpRegs, i, v => { ctx with fpRegs := Function.update ctx.fpRegs i v }
  | .gpRegs, i, v => { ctx with gpRegs := Function.update ctx.gpRegs i v }
  | .stackPointer, _, v => { ctx with stackPointer := v }
  | .programCounter, _, v => { ctx with programCounter := v }
  | .programStatus, _, v => { ctx with programStatus := v }
  | .fpcr, _, v => { ctx with fpcr := v }
  | .fpsr, _, v => { ctx with fpsr := v }
  | .kernelStack, _, v => { ctx with kernelStack := v }

theorem ext_element {ctx ctx' : Context}
    (h : ∀ member i, ctx.element member i = ctx'.element member i) : ctx = ctx' := by
  rw [Context.mk.injEq]
  exact ⟨funext (h .fpRegs), funext (h .gpRegs), h .stackPointer ⟨0, Nat.one_pos⟩,
    h .programCounter ⟨0, Nat.one_pos⟩, h .programStatus ⟨0, Nat.one_pos⟩,
    h .fpcr ⟨0, Nat.one_pos⟩, h .fpsr ⟨0, Nat.one_pos⟩, h .kernelStack ⟨0, Nat.one_pos⟩⟩

theorem element_assign_self (ctx : Context) (member : Member) (k : Fin member.count)
    (v : UInt64) : (ctx.assign member k v).element member k = v := by
  cases member
  case fpRegs => exact Function.update_self k v ctx.fpRegs
  case gpRegs => exact Function.update_self k v ctx.gpRegs
  all_goals rfl

theorem element_assign_of_ne {k : Fin member.count} {l : Fin member'.count}
    (h : ¬ (member' = member ∧ l.val = k.val)) (ctx : Context) (v : UInt64) :
    (ctx.assign member k v).element member' l = ctx.element member' l := by
  by_cases hmember : member' = member
  · subst hmember
    have hne : l ≠ k := fun heq => h ⟨rfl, congrArg Fin.val heq⟩
    cases member'
    case fpRegs => exact Function.update_of_ne hne v ctx.fpRegs
    case gpRegs => exact Function.update_of_ne hne v ctx.gpRegs
    -- A member with one word has no other element.
    all_goals
      have hl := Nat.lt_one_iff.1 l.isLt
      have hk := Nat.lt_one_iff.1 k.isLt
      exact absurd (Fin.ext (hl.trans hk.symm)) hne
  · cases member <;> cases member' <;> first | rfl | exact absurd rfl hmember

end Context

theorem readContext_element (memory : WordMemory) (this : UInt64) (member : Member)
    (k : Fin member.count) :
    (readContext memory this).element member k =
      loadWord memory (offsetBy this (member.element k)) := by
  cases member
  case fpRegs => rfl
  case gpRegs => rfl
  all_goals
    obtain rfl := Subsingleton.elim (0 : Fin 1) k
    rfl

/-- An assignment in memory is the assignment to the context that lies there. -/
theorem readContext_assign (memory : WordMemory) (this : UInt64) (member : Member)
    (k : Fin member.count) (v : UInt64) :
    readContext (assign memory this member k v) this =
      (readContext memory this).assign member k v := by
  refine Context.ext_element fun member' l => ?_
  rw [readContext_element]
  by_cases h : member' = member ∧ l.val = k.val
  · obtain ⟨rfl, hl⟩ := h
    obtain rfl := Fin.ext hl
    rw [load_assign_self, Context.element_assign_self]
  · rw [load_assign_of_ne k.isLt l.isLt h, Context.element_assign_of_ne h, readContext_element]

theorem functionCall_eq_assign (ctx : Context) (func returnLoc arg : UInt64) :
    ctx.functionCall func returnLoc arg =
      ((ctx.assign .programCounter (0 : Fin 1) func).assign .gpRegs (30 : Fin 31)
        returnLoc).assign .gpRegs (0 : Fin 31) arg := rfl

theorem readContext_functionCallAt (memory : WordMemory) (this func returnLoc arg : UInt64) :
    readContext (functionCallAt memory this func returnLoc arg) this =
      (readContext memory this).functionCall func returnLoc arg := by
  have hfunc := readContext_assign memory this .programCounter (0 : Fin 1) func
  have hloc := readContext_assign (assign memory this .programCounter 0 func) this .gpRegs
    (30 : Fin 31) returnLoc
  have harg := readContext_assign
    (assign (assign memory this .programCounter 0 func) this .gpRegs 30 returnLoc) this .gpRegs
    (0 : Fin 31) arg
  rw [functionCall_eq_assign, ← hfunc]
  exact harg.trans (congrArg (Context.assign · .gpRegs (0 : Fin 31) arg) hloc)

theorem readContext_setReturnValueAt (memory : WordMemory) (this v : UInt64) :
    readContext (setReturnValueAt memory this v) this =
      (readContext memory this).setReturnValue v :=
  readContext_assign memory this .gpRegs (0 : Fin 31) v

theorem readContext_setProgramCounterAt (memory : WordMemory) (this pc : UInt64) :
    readContext (setProgramCounterAt memory this pc) this =
      (readContext memory this).setProgramCounter pc :=
  readContext_assign memory this .programCounter (0 : Fin 1) pc

theorem readContext_setStackPointerAt (memory : WordMemory) (this sp : UInt64) :
    readContext (setStackPointerAt memory this sp) this =
      (readContext memory this).setStackPointer sp :=
  readContext_assign memory this .stackPointer (0 : Fin 1) sp

theorem readContext_setKernelStackAt (memory : WordMemory) (this sp : UInt64) :
    readContext (setKernelStackAt memory this sp) this =
      (readContext memory this).setKernelStack sp :=
  readContext_assign memory this .kernelStack (0 : Fin 1) sp

end CrosKernel.Sched
