import CrosKernel.Aarch64.Cpu
import CrosKernel.Sched.ContextLayout

/-!
# Saving a context

`save_context` of `src/aarch64/irq/exceptions.s` stores the registers of the interrupted process
below the stack pointer of the kernel. `run_saveContext` says that a `Context` lies there afterwards
and that each member holds the register it stands for, although `x8` and `x9` are used to move the
system registers.
-/

namespace CrosKernel.Aarch64

open Lib Sched Instruction

section Program

attribute [local instance] neZero_general neZero_vector

/-- `save_context`. -/
def saveContext : List Instruction :=
  [sub .SP .SP 816,
    st4 0 .SP 64,
    st4 4 .SP 64,
    st4 8 .SP 64,
    st4 12 .SP 64,
    st4 16 .SP 64,
    st4 20 .SP 64,
    st4 24 .SP 64,
    st4 28 .SP 64,
    stp (.X 0) (.X 1) .SP 16,
    stp (.X 2) (.X 3) .SP 16,
    stp (.X 4) (.X 5) .SP 16,
    stp (.X 6) (.X 7) .SP 16,
    stp (.X 8) (.X 9) .SP 16,
    stp (.X 10) (.X 11) .SP 16,
    stp (.X 12) (.X 13) .SP 16,
    stp (.X 14) (.X 15) .SP 16,
    stp (.X 16) (.X 17) .SP 16,
    stp (.X 18) (.X 19) .SP 16,
    stp (.X 20) (.X 21) .SP 16,
    stp (.X 22) (.X 23) .SP 16,
    stp (.X 24) (.X 25) .SP 16,
    stp (.X 26) (.X 27) .SP 16,
    stp (.X 28) (.X 29) .SP 16,
    mrs (.X 8) .SP_EL0,
    stp (.X 30) (.X 8) .SP 16,
    mrs (.X 8) .ELR_EL1,
    mrs (.X 9) .SPSR_EL1,
    stp (.X 8) (.X 9) .SP 16,
    mrs (.X 8) .FPCR,
    mrs (.X 9) .FPSR,
    stp (.X 8) (.X 9) .SP 16,
    mov (.X 8) .SP,
    add (.X 8) (.X 8) 16,
    stp (.X 8) (.X 8) .SP 16,
    sub .SP .SP 816]

end Program

namespace Register

/-! ## Where a context keeps a register -/

/-- The member of `Context` that keeps a register. -/
def member : Register → Member
  | .V _ _ => .fpRegs
  | .X _ => .gpRegs
  | .SP_EL0 => .stackPointer
  | .ELR_EL1 => .programCounter
  | .SPSR_EL1 => .programStatus
  | .FPCR => .fpcr
  | .FPSR => .fpsr
  | .SP => .kernelStack

/-- The element of the member. Four vector registers are interleaved. -/
def index : Register → Nat
  | .V i lane => 8 * (i.val / 4) + 4 * lane.val + i.val % 4
  | .X i => i
  | _ => 0

/-- The offset of a register in a context. -/
def offset (r : Register) : Nat := r.member.element r.index

theorem index_lt (r : Register) : r.index < r.member.count := by
  cases r with
  | X i => exact i.isLt
  | V i lane =>
      show 8 * (i.val / 4) + 4 * lane.val + i.val % 4 < 64
      omega
  | _ => exact Nat.one_pos

theorem eq_of_place {r r' : Register} (hmember : r'.member = r.member)
    (hindex : r'.index = r.index) : r' = r := by
  cases r <;> cases r' <;> simp only [member, reduceCtorEq] at hmember <;>
    simp only [index, X.injEq, V.injEq] at hindex ⊢ <;> omega

theorem offset_apart {r r' : Register} (h : r' ≠ r) :
    r'.offset + 8 ≤ r.offset ∨ r.offset + 8 ≤ r'.offset :=
  Member.element_apart r.index_lt r'.index_lt fun hplace => h (eq_of_place hplace.1 hplace.2)

theorem offset_inj {r r' : Register} (h : r'.offset = r.offset) : r' = r := by
  by_contra hne
  have hapart := offset_apart hne
  omega

theorem dvd_offset (r : Register) : 8 ∣ r.offset := by
  rw [offset, Member.element_eq]
  cases r.member <;> simp only <;> omega

theorem offset_le (r : Register) : r.offset + 8 ≤ contextSize := Member.element_le r.index_lt

@[simp] theorem offset_X (i : Fin 31) : (X i).offset = 512 + 8 * i.val :=
  Member.element_eq .gpRegs i

@[simp] theorem offset_V (i : Fin 32) (lane : Fin 2) :
    (V i lane).offset = 8 * (8 * (i.val / 4) + 4 * lane.val + i.val % 4) :=
  (Member.element_eq .fpRegs _).trans (Nat.zero_add _)

/-- The vector registers come first. -/
theorem eq_V {r : Register} (h : r.offset < 512) : ∃ i lane, r = .V i lane := by
  rw [offset, Member.element_eq] at h
  cases r with
  | V i lane => exact ⟨i, lane, rfl⟩
  | _ => simp only [member] at h; omega

end Register

/-! ## The passes of the save -/

/-- The structure at an address is filled up to an offset with the registers of a processor, and
the registers that belong behind it have not changed. -/
structure Saving (m : Cpu) (address : UInt64) (filled : Nat) (c : Cpu) : Prop where
  aligned : 8 ∣ filled
  sp_eq : c.reg .SP = offsetBy address filled
  saved : ∀ r : Register, r.offset + 8 ≤ filled →
    loadWord c.memory (offsetBy address r.offset) = m.reg r
  kept : ∀ r : Register, r ≠ .SP → filled ≤ r.offset → c.reg r = m.reg r

namespace Saving

variable {m c c' : Cpu} {address : UInt64} {filled : Nat} {r rt rt2 : Register}

/-- A register that is saved may be used for something else. -/
theorem scratch (h : Saving m address filled c) (hsaved : r.offset + 8 ≤ filled) (hsp : r ≠ .SP)
    (hmemory : c'.memory = c.memory) (hreg : ∀ r', r' ≠ r → c'.reg r' = c.reg r') :
    Saving m address filled c' where
  aligned := h.aligned
  sp_eq := by rw [hreg .SP hsp.symm, h.sp_eq]
  saved r' hr' := by rw [hmemory, h.saved r' hr']
  kept r' hne hr' := by
    have hother : r' ≠ r := by
      rintro rfl
      omega
    rw [hreg r' hother, h.kept r' hne hr']

/-- A store of consecutive words, each the register that belongs there. -/
theorem store (h : Saving m address filled c) (values : List UInt64)
    (hbound : filled + 8 * values.length ≤ 816)
    (hvalues : ∀ (r : Register) (n : Nat) (hn : n < values.length), r.offset = filled + 8 * n →
      values[n] = m.reg r)
    (hmemory : c'.memory = storeWords c.memory (offsetBy address filled) values)
    (hsp : c'.reg .SP = offsetBy address (filled + 8 * values.length))
    (hreg : ∀ r, r ≠ .SP → c'.reg r = c.reg r) :
    Saving m address (filled + 8 * values.length) c' where
  aligned := Nat.dvd_add h.aligned (Nat.dvd_mul_right 8 _)
  sp_eq := hsp
  saved r hr := by
    rw [hmemory]
    by_cases hold : r.offset + 8 ≤ filled
    · rw [loadWord_storeWords_other (.inl hold) (by omega) (by omega), h.saved r hold]
    · -- The word is one of the new ones, as both offsets are multiples of 8.
      obtain ⟨n, hn⟩ : ∃ n, r.offset = filled + 8 * n := by
        obtain ⟨k, hk⟩ := h.aligned
        obtain ⟨l, hl⟩ := r.dvd_offset
        exact ⟨l - k, by omega⟩
      have hlt : n < values.length := by omega
      rw [hn, loadWord_storeWords_get hlt (by omega)]
      exact hvalues r n hlt hn
  kept r hne hr := by rw [hreg r hne, h.kept r hne (by omega)]

theorem stp (h : Saving m address filled c) (hbound : filled + 16 ≤ 816)
    (hfirst : ∀ r : Register, r.offset = filled → c.reg rt = m.reg r)
    (hsecond : ∀ r : Register, r.offset = filled + 8 → c.reg rt2 = m.reg r) :
    Saving m address (filled + 16) (c.exec (.stp rt rt2 .SP 16)) := by
  refine h.store [c.reg rt, c.reg rt2] hbound ?_ ?_ ?_ ?_
  · intro r n hn hr
    match n, hn with
    | 0, _ => exact hfirst r hr
    | 1, _ => exact hsecond r hr
  · show storeWords c.memory (c.reg .SP) _ = _
    rw [h.sp_eq]
  · show ((c.set .SP _).reg .SP) = _
    rw [Cpu.set_self, h.sp_eq, ← offsetBy_add]
    rfl
  · exact fun r hne => Cpu.set_of_ne hne _ _

theorem st4 (h : Saving m address filled c) {k : Nat} (hk : k < 8) (hfilled : filled = 64 * k) :
    Saving m address (64 * (k + 1)) (c.exec (.st4 (Fin.ofNat 32 (4 * k)) .SP 64)) := by
  subst hfilled
  refine h.store ((Cpu.interleaved (Fin.ofNat 32 (4 * k))).map c.reg) ?_ ?_ ?_ ?_ ?_
  · show 64 * k + 64 ≤ 816
    omega
  · intro r n hn hr
    have hlt : n < 8 := hn
    obtain ⟨i, lane, rfl⟩ := Register.eq_V (show r.offset < 512 by omega)
    have hkept := h.kept (.V i lane) (by simp) (by omega)
    rw [Register.offset_V] at hr
    have hk' : k = i.val / 4 := by omega
    have hn' : n = 4 * lane.val + i.val % 4 := by omega
    subst hk' hn'
    obtain ⟨_, hlane⟩ := List.getElem?_eq_some_iff.1 (Cpu.interleaved_get i lane)
    rw [List.getElem_map, hlane, hkept]
  · show storeWords c.memory (c.reg .SP) _ = _
    rw [h.sp_eq]
  · show ((c.set .SP _).reg .SP) = _
    rw [Cpu.set_self, h.sp_eq, ← offsetBy_add]
    rfl
  · exact fun r hne => Cpu.set_of_ne hne _ _

/-- Two of the general registers. -/
theorem pair (h : Saving m address filled c) {k : Nat} (hk : k < 15)
    (hfilled : filled = 512 + 16 * k) :
    Saving m address (512 + 16 * (k + 1))
      (c.exec (.stp (.X (Fin.ofNat 31 (2 * k))) (.X (Fin.ofNat 31 (2 * k + 1))) .SP 16)) := by
  subst hfilled
  have hval : (Fin.ofNat 31 (2 * k)).val = 2 * k := Nat.mod_eq_of_lt (by omega)
  have hval2 : (Fin.ofNat 31 (2 * k + 1)).val = 2 * k + 1 := Nat.mod_eq_of_lt (by omega)
  refine h.stp (by omega) ?_ ?_
  · intro r hr
    have hX : r = .X (Fin.ofNat 31 (2 * k)) :=
      Register.offset_inj (by rw [hr, Register.offset_X, hval]; omega)
    exact hX ▸ h.kept r (by rw [hX]; simp) hr.ge
  · intro r hr
    have hX : r = .X (Fin.ofNat 31 (2 * k + 1)) :=
      Register.offset_inj (by rw [hr, Register.offset_X, hval2]; omega)
    exact hX ▸ h.kept r (by rw [hX]; simp) (by omega)

/-- Two system registers are stored by way of `x8` and `x9`. -/
theorem system (h : Saving m address filled c) (rt rt2 : Register)
    (hbound : filled + 16 ≤ 816) (hscratch : 592 ≤ filled) (hfirst : rt.offset = filled)
    (hsecond : rt2.offset = filled + 8)
    (hsp : rt ≠ .SP) (hsp2 : rt2 ≠ .SP) :
    Saving m address (filled + 16)
      (c.run [.mrs (.X 8) rt, .mrs (.X 9) rt2, .stp (.X 8) (.X 9) .SP 16]) := by
  have h8 : (Register.X 8).offset = 576 := rfl
  have h9 : (Register.X 9).offset = 584 := rfl
  have hone : Saving m address filled (c.exec (.mrs (.X 8) rt)) :=
    h.scratch (by omega) (by decide) rfl fun r hne => Cpu.exec_mrs_other hne c rt
  have htwo : Saving m address filled ((c.exec (.mrs (.X 8) rt)).exec (.mrs (.X 9) rt2)) :=
    hone.scratch (by omega) (by decide) rfl fun r hne => Cpu.exec_mrs_other hne _ rt2
  refine htwo.stp hbound ?_ ?_
  · intro r hr
    obtain rfl := Register.offset_inj (hr.trans hfirst.symm)
    rw [Cpu.exec_mrs_other (by decide), Cpu.exec_mrs_self, h.kept r hsp hr.ge]
  · intro r hr
    obtain rfl := Register.offset_inj (hr.trans hsecond.symm)
    rw [Cpu.exec_mrs_self, hone.kept r hsp2 (by omega)]

/-- `x30` and the stack pointer of the process, which is moved through `x8`. -/
theorem stackPointer (h : Saving m address 752 c) :
    Saving m address 768 (c.run [.mrs (.X 8) .SP_EL0, .stp (.X 30) (.X 8) .SP 16]) := by
  have hone : Saving m address 752 (c.exec (.mrs (.X 8) .SP_EL0)) :=
    h.scratch (by decide) (by decide) rfl fun r hne => Cpu.exec_mrs_other hne c .SP_EL0
  refine hone.stp (by decide) ?_ ?_
  · intro r hr
    obtain rfl : r = .X 30 := Register.offset_inj hr
    exact hone.kept _ (by decide) hr.ge
  · intro r hr
    obtain rfl : r = .SP_EL0 := Register.offset_inj hr
    rw [Cpu.exec_mrs_self]
    exact h.kept _ (by decide) (by decide)

/-- The stack pointer that the kernel had is behind the structure and its padding. -/
theorem kernelStack (h : Saving m address 800 c) (hsp : offsetBy address 816 = m.reg .SP) :
    Saving m address 816
      (c.run [.mov (.X 8) .SP, .add (.X 8) (.X 8) 16, .stp (.X 8) (.X 8) .SP 16]) := by
  have hone : Saving m address 800 (c.exec (.mov (.X 8) .SP)) :=
    h.scratch (by decide) (by decide) rfl fun r hne => Cpu.exec_mov_other hne c .SP
  have htwo : Saving m address 800 ((c.exec (.mov (.X 8) .SP)).exec (.add (.X 8) (.X 8) 16)) :=
    hone.scratch (by decide) (by decide) rfl fun r hne => Cpu.exec_add_other hne _ (.X 8) 16
  have h8 : ((c.exec (.mov (.X 8) .SP)).exec (.add (.X 8) (.X 8) 16)).reg (.X 8) = m.reg .SP := by
    rw [Cpu.exec_add_self, Cpu.exec_mov_self, h.sp_eq, ← offsetBy_add, hsp]
  refine htwo.stp (by decide) ?_ ?_
  · intro r hr
    obtain rfl : r = .SP := Register.offset_inj hr
    exact h8
  · intro r hr
    have hle : r.offset + 8 ≤ 808 := r.offset_le
    omega

/-- A structure that is filled holds every register. -/
theorem finish (h : Saving m address 816 c) :
    (c.run [.sub .SP .SP 816]).reg .SP = address ∧
      ∀ r : Register,
        loadWord (c.run [.sub .SP .SP 816]).memory (offsetBy address r.offset) = m.reg r := by
  constructor
  · rw [Cpu.run_cons, Cpu.run_nil, Cpu.exec_sub_self, h.sp_eq,
      offsetBy_sub address (Nat.le_refl 816), offsetBy_zero]
  · intro r
    have hle : r.offset + 8 ≤ 808 := r.offset_le
    exact h.saved r (by omega)

end Saving

/-- The parts of the save, with the repeated instructions as such. -/
theorem saveContext_eq : saveContext =
    [sub .SP .SP 816]
      ++ ((List.range 8).map fun k => st4 (Fin.ofNat 32 (4 * k)) .SP 64)
      ++ ((List.range 15).map fun k =>
        stp (.X (Fin.ofNat 31 (2 * k))) (.X (Fin.ofNat 31 (2 * k + 1))) .SP 16)
      ++ [mrs (.X 8) .SP_EL0, stp (.X 30) (.X 8) .SP 16]
      ++ [mrs (.X 8) .ELR_EL1, mrs (.X 9) .SPSR_EL1, stp (.X 8) (.X 9) .SP 16]
      ++ [mrs (.X 8) .FPCR, mrs (.X 9) .FPSR, stp (.X 8) (.X 9) .SP 16]
      ++ [mov (.X 8) .SP, add (.X 8) (.X 8) 16, stp (.X 8) (.X 8) .SP 16]
      ++ [sub .SP .SP 816] := rfl

/-- `save_context` leaves the stack pointer at a structure that holds every register. -/
theorem run_saveContext (m : Cpu) :
    (m.run saveContext).reg .SP = m.reg .SP - 816 ∧
      ∀ r : Register,
        loadWord (m.run saveContext).memory (offsetBy (m.reg .SP - 816) r.offset) = m.reg r := by
  have hback : offsetBy (m.reg .SP - 816) 816 = m.reg .SP := UInt64.sub_add_cancel _ _
  have hstart : Saving m (m.reg .SP - 816) (64 * 0) (m.run [.sub .SP .SP 816]) :=
    { aligned := ⟨0, rfl⟩
      sp_eq := by
        rw [Cpu.run_cons, Cpu.run_nil, Cpu.exec_sub_self, offsetBy_zero]
        rfl
      saved := fun r hr => absurd hr (by omega)
      kept := fun r hne _ => Cpu.exec_sub_other hne m .SP 816 }
  have hvectors := Cpu.run_range (fun k c => Saving m (m.reg .SP - 816) (64 * k) c)
    (fun k => .st4 (Fin.ofNat 32 (4 * k)) .SP 64) hstart fun k hk c h => h.st4 hk rfl
  have hgeneral := Cpu.run_range (n := 15)
    (fun k c => Saving m (m.reg .SP - 816) (512 + 16 * k) c)
    (fun k => .stp (.X (Fin.ofNat 31 (2 * k))) (.X (Fin.ofNat 31 (2 * k + 1))) .SP 16) hvectors
    fun k hk c h => h.pair hk rfl
  have hstack := hgeneral.stackPointer
  have hstatus := hstack.system .ELR_EL1 .SPSR_EL1 (by decide) (by decide) rfl rfl (by decide)
    (by decide)
  have hfloat := hstatus.system .FPCR .FPSR (by decide) (by decide) rfl rfl (by decide) (by decide)
  have hkernel := hfloat.kernelStack hback
  rw [saveContext_eq]
  simp only [Cpu.run_append]
  exact hkernel.finish

end CrosKernel.Aarch64
