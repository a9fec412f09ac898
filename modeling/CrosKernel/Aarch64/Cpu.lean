import CrosKernel.Lib.WordMemory

/-!
# The instructions of the context routines

A processor at EL1 with its registers, its memory and the instructions that `save_context` and
`load_context` consist of. A vector register is two lanes of 64 bits.
-/

namespace CrosKernel.Aarch64

open Lib

theorem neZero_general : NeZero 31 := ⟨by decide⟩

theorem neZero_vector : NeZero 32 := ⟨by decide⟩

/-- The registers of 64 bits, with the lanes of the vector registers. -/
inductive Register where
  | X (i : Fin 31)
  | V (i : Fin 32) (lane : Fin 2)
  | SP | SP_EL0 | ELR_EL1 | SPSR_EL1 | FPCR | FPSR
  deriving DecidableEq

/-- A processor and its memory. `SP` is the stack pointer of the kernel. -/
structure Cpu where
  reg : Register → UInt64
  memory : WordMemory
  pc : UInt64
  pstate : UInt64

/-- The instructions, with the operands in the order of the assembly language. An immediate of
`ldpOffset` has a sign. -/
inductive Instruction where
  | add (rd rn : Register) (imm : Nat)
  | sub (rd rn : Register) (imm : Nat)
  | mov (rd rn : Register)
  | mrs (rt : Register) (system : Register)
  | msr (system : Register) (rt : Register)
  | stp (rt rt2 rn : Register) (imm : Nat)
  | ldp (rt rt2 rn : Register) (imm : Nat)
  | ldpOffset (rt rt2 rn : Register) (imm : Int)
  | st4 (vt : Fin 32) (rn : Register) (imm : Nat)
  | ld4 (vt : Fin 32) (rn : Register) (imm : Nat)
  | eret

namespace Cpu

/-- Write a register. -/
def set (c : Cpu) (r : Register) (value : UInt64) : Cpu :=
  { c with reg := Function.update c.reg r value }

/-- The order of `st4` and `ld4`: the first lanes of four vector registers, then the second ones. -/
def interleaved (vt : Fin 32) : List Register :=
  [.V vt 0, .V (vt + 1) 0, .V (vt + 2) 0, .V (vt + 3) 0,
    .V vt 1, .V (vt + 1) 1, .V (vt + 2) 1, .V (vt + 3) 1]

/-- The registers that `ld4` loads with the words at an address. -/
def deinterleave (c : Cpu) (vt : Fin 32) (address : UInt64) : Cpu :=
  { c with
    reg := fun r =>
      match r with
      | .V i lane =>
          if (i - vt).val < 4 then
            loadWord c.memory (offsetBy address (8 * (4 * lane.val + (i - vt).val)))
          else c.reg (.V i lane)
      | r => c.reg r }

/-- The effect of an instruction, the program counter apart. -/
def effect (c : Cpu) : Instruction → Cpu
  | .add rd rn imm => c.set rd (offsetBy (c.reg rn) imm)
  | .sub rd rn imm => c.set rd (c.reg rn - UInt64.ofNat imm)
  | .mov rd rn => c.set rd (c.reg rn)
  | .mrs rt system => c.set rt (c.reg system)
  | .msr system rt => c.set system (c.reg rt)
  | .stp rt rt2 rn imm =>
      { c with memory := storeWords c.memory (c.reg rn) [c.reg rt, c.reg rt2] }.set rn
        (offsetBy (c.reg rn) imm)
  | .ldp rt rt2 rn imm =>
      let address := c.reg rn
      ((c.set rt (loadWord c.memory address)).set rt2
        (loadWord c.memory (offsetBy address 8))).set rn (offsetBy address imm)
  | .ldpOffset rt rt2 rn imm =>
      let address := c.reg rn + UInt64.ofInt imm
      (c.set rt (loadWord c.memory address)).set rt2 (loadWord c.memory (offsetBy address 8))
  | .st4 vt rn imm =>
      { c with memory := storeWords c.memory (c.reg rn) ((interleaved vt).map c.reg) }.set rn
        (offsetBy (c.reg rn) imm)
  | .ld4 vt rn imm =>
      (c.deinterleave vt (c.reg rn)).set rn (offsetBy (c.reg rn) imm)
  | .eret => { c with pc := c.reg .ELR_EL1, pstate := c.reg .SPSR_EL1 }

/-- One instruction. All but `eret` go on with the next one. -/
def exec (c : Cpu) (instruction : Instruction) : Cpu :=
  { c with pc := offsetBy c.pc 4 }.effect instruction

/-- A sequence of instructions without a branch. -/
def run (c : Cpu) (program : List Instruction) : Cpu := program.foldl exec c

variable {c : Cpu} {r r' rd rt rt2 rn : Register}

@[simp] theorem set_memory (c : Cpu) (r : Register) (value : UInt64) :
    (c.set r value).memory = c.memory := rfl

@[simp] theorem set_self (c : Cpu) (r : Register) (value : UInt64) :
    (c.set r value).reg r = value := by
  show Function.update c.reg r value r = value
  rw [Function.update_self]

theorem set_of_ne (h : r' ≠ r) (c : Cpu) (value : UInt64) :
    (c.set r value).reg r' = c.reg r' := by
  show Function.update c.reg r value r' = c.reg r'
  rw [Function.update_of_ne h]

/-! ## What the instructions change -/

theorem exec_add_self (c : Cpu) (rd rn : Register) (imm : Nat) :
    (c.exec (.add rd rn imm)).reg rd = offsetBy (c.reg rn) imm :=
  set_self _ rd _

theorem exec_add_other (h : r ≠ rd) (c : Cpu) (rn : Register) (imm : Nat) :
    (c.exec (.add rd rn imm)).reg r = c.reg r :=
  set_of_ne h _ _

theorem exec_sub_self (c : Cpu) (rd rn : Register) (imm : Nat) :
    (c.exec (.sub rd rn imm)).reg rd = c.reg rn - UInt64.ofNat imm :=
  set_self _ rd _

theorem exec_sub_other (h : r ≠ rd) (c : Cpu) (rn : Register) (imm : Nat) :
    (c.exec (.sub rd rn imm)).reg r = c.reg r :=
  set_of_ne h _ _

theorem exec_mov_self (c : Cpu) (rd rn : Register) : (c.exec (.mov rd rn)).reg rd = c.reg rn :=
  set_self _ rd _

theorem exec_mov_other (h : r ≠ rd) (c : Cpu) (rn : Register) :
    (c.exec (.mov rd rn)).reg r = c.reg r :=
  set_of_ne h _ _

theorem exec_mrs_self (c : Cpu) (rt r : Register) : (c.exec (.mrs rt r)).reg rt = c.reg r :=
  set_self _ rt _

theorem exec_mrs_other (h : r' ≠ rt) (c : Cpu) (r : Register) :
    (c.exec (.mrs rt r)).reg r' = c.reg r' :=
  set_of_ne h _ _

theorem exec_msr_self (c : Cpu) (r rt : Register) : (c.exec (.msr r rt)).reg r = c.reg rt :=
  set_self _ r _

theorem exec_msr_other (h : r' ≠ r) (c : Cpu) (rt : Register) :
    (c.exec (.msr r rt)).reg r' = c.reg r' :=
  set_of_ne h _ _

theorem exec_ldp_first (hne : rt ≠ rt2) (hrn : rt ≠ rn) (c : Cpu) (imm : Nat) :
    (c.exec (.ldp rt rt2 rn imm)).reg rt = loadWord c.memory (c.reg rn) := by
  show (((set _ rt _).set rt2 _).set rn _).reg rt = _
  rw [set_of_ne hrn, set_of_ne hne, set_self]

theorem exec_ldp_second (hrn : rt2 ≠ rn) (c : Cpu) (rt : Register) (imm : Nat) :
    (c.exec (.ldp rt rt2 rn imm)).reg rt2 = loadWord c.memory (offsetBy (c.reg rn) 8) := by
  show (((set _ rt _).set rt2 _).set rn _).reg rt2 = _
  rw [set_of_ne hrn, set_self]

theorem exec_ldp_base (c : Cpu) (rt rt2 rn : Register) (imm : Nat) :
    (c.exec (.ldp rt rt2 rn imm)).reg rn = offsetBy (c.reg rn) imm :=
  set_self _ rn _

theorem exec_ldp_other (hrt : r ≠ rt) (hrt2 : r ≠ rt2) (hrn : r ≠ rn) (c : Cpu) (imm : Nat) :
    (c.exec (.ldp rt rt2 rn imm)).reg r = c.reg r := by
  show (((set _ rt _).set rt2 _).set rn _).reg r = _
  rw [set_of_ne hrn, set_of_ne hrt2, set_of_ne hrt]

theorem exec_ldpOffset_first (hne : rt ≠ rt2) (c : Cpu) (rn : Register) (imm : Int) :
    (c.exec (.ldpOffset rt rt2 rn imm)).reg rt =
      loadWord c.memory (c.reg rn + UInt64.ofInt imm) := by
  show ((set _ rt _).set rt2 _).reg rt = _
  rw [set_of_ne hne, set_self]

theorem exec_ldpOffset_second (c : Cpu) (rt rt2 rn : Register) (imm : Int) :
    (c.exec (.ldpOffset rt rt2 rn imm)).reg rt2 =
      loadWord c.memory (offsetBy (c.reg rn + UInt64.ofInt imm) 8) :=
  set_self _ rt2 _

theorem exec_ldpOffset_other (hrt : r ≠ rt) (hrt2 : r ≠ rt2) (c : Cpu) (rn : Register)
    (imm : Int) : (c.exec (.ldpOffset rt rt2 rn imm)).reg r = c.reg r := by
  show ((set _ rt _).set rt2 _).reg r = _
  rw [set_of_ne hrt2, set_of_ne hrt]

theorem exec_eret_reg (c : Cpu) : (c.exec .eret).reg = c.reg := rfl

/-! ## Runs -/

@[simp] theorem run_nil (c : Cpu) : c.run [] = c := rfl

@[simp] theorem run_cons (c : Cpu) (instruction : Instruction) (rest : List Instruction) :
    c.run (instruction :: rest) = (c.exec instruction).run rest := rfl

theorem run_append (c : Cpu) (first second : List Instruction) :
    c.run (first ++ second) = (c.run first).run second :=
  List.foldl_append

/-- A repeated instruction keeps what one of them keeps, counted by the rounds. -/
theorem run_range (P : Nat → Cpu → Prop) (instruction : Nat → Instruction) {n : Nat}
    (hstart : P 0 c) (hstep : ∀ k < n, ∀ c, P k c → P (k + 1) (c.exec (instruction k))) :
    P n (c.run ((List.range n).map instruction)) := by
  induction n with
  | zero => exact hstart
  | succ n ih =>
      have hbefore := ih fun k hk => hstep k (Nat.lt_succ_of_lt hk)
      rw [List.range_succ, List.map_append, run_append]
      exact hstep n (Nat.lt_succ_self n) _ hbefore

/-- The place of a lane among those of the four registers that are moved at once. -/
theorem interleaved_get (i : Fin 32) (lane : Fin 2) :
    (interleaved (Fin.ofNat 32 (4 * (i.val / 4))))[4 * lane.val + i.val % 4]? =
      some (.V i lane) := by
  revert i lane
  decide

end Cpu

end CrosKernel.Aarch64
