import CrosKernel.Aarch64.SaveContext

/-!
# Loading a context

`load_context` of `src/sched/aarch64/loadcontext.s` reads a `Context` and returns from the
exception. `x0` to `x3` are needed on the way and come last. `run_loadContext` says that each
register gets what its member holds.
-/

namespace CrosKernel.Aarch64

open Lib Sched Instruction

section Program

attribute [local instance] neZero_general neZero_vector

/-- `load_context`. -/
def loadContext : List Instruction :=
  [ld4 0 (.X 0) 64,
    ld4 4 (.X 0) 64,
    ld4 8 (.X 0) 64,
    ld4 12 (.X 0) 64,
    ld4 16 (.X 0) 64,
    ld4 20 (.X 0) 64,
    ld4 24 (.X 0) 64,
    ld4 28 (.X 0) 64,
    add (.X 0) (.X 0) 32,
    ldp (.X 4) (.X 5) (.X 0) 16,
    ldp (.X 6) (.X 7) (.X 0) 16,
    ldp (.X 8) (.X 9) (.X 0) 16,
    ldp (.X 10) (.X 11) (.X 0) 16,
    ldp (.X 12) (.X 13) (.X 0) 16,
    ldp (.X 14) (.X 15) (.X 0) 16,
    ldp (.X 16) (.X 17) (.X 0) 16,
    ldp (.X 18) (.X 19) (.X 0) 16,
    ldp (.X 20) (.X 21) (.X 0) 16,
    ldp (.X 22) (.X 23) (.X 0) 16,
    ldp (.X 24) (.X 25) (.X 0) 16,
    ldp (.X 26) (.X 27) (.X 0) 16,
    ldp (.X 28) (.X 29) (.X 0) 16,
    ldp (.X 30) (.X 1) (.X 0) 16,
    msr .SP_EL0 (.X 1),
    ldp (.X 2) (.X 3) (.X 0) 16,
    msr .ELR_EL1 (.X 2),
    msr .SPSR_EL1 (.X 3),
    ldp (.X 2) (.X 3) (.X 0) 16,
    msr .FPCR (.X 2),
    msr .FPSR (.X 3),
    ldpOffset (.X 2) (.X 3) (.X 0) (-8),
    mov .SP (.X 3),
    sub (.X 0) (.X 0) 288,
    ldpOffset (.X 2) (.X 3) (.X 0) 16,
    ldpOffset (.X 0) (.X 1) (.X 0) 0,
    eret]

end Program

/-! ## The passes of the load -/

/-- The registers `x0` to `x3`, which are used while the others are loaded. -/
def Scratch (r : Register) : Prop := 512 ≤ r.offset ∧ r.offset < 544

/-- The structure at an address is loaded up to an offset, `x0` to `x3` apart. -/
structure Loading (memory : WordMemory) (address : UInt64) (done : Nat) (c : Cpu) : Prop where
  memory_eq : c.memory = memory
  x0_eq : c.reg (.X 0) = offsetBy address done
  loaded : ∀ r : Register, r.offset + 8 ≤ done → ¬ Scratch r →
    c.reg r = loadWord memory (offsetBy address r.offset)

theorem scratch_X {i : Fin 31} (h : i.val < 4) : Scratch (.X i) := by
  rw [Scratch, Register.offset_X]
  omega

/-- The registers that are used on the way are the first four. -/
theorem Scratch.eq_X {r : Register} (h : Scratch r) :
    r = .X 0 ∨ r = .X 1 ∨ r = .X 2 ∨ r = .X 3 := by
  obtain ⟨k, hk⟩ := r.dvd_offset
  obtain ⟨hle, hlt⟩ := h
  have hX : ∀ i : Fin 31, r.offset = 512 + 8 * i.val → r = .X i := fun i hi =>
    Register.offset_inj (by rw [hi, Register.offset_X])
  obtain rfl | rfl | rfl | rfl : k = 64 ∨ k = 65 ∨ k = 66 ∨ k = 67 := by omega
  · exact .inl (hX 0 hk)
  · exact .inr (.inl (hX 1 hk))
  · exact .inr (.inr (.inl (hX 2 hk)))
  · exact .inr (.inr (.inr (hX 3 hk)))

theorem Register.ne_X {r : Register} {i : Fin 31} (hr : ¬ Scratch r) (h : i.val < 4) :
    r ≠ .X i := by
  rintro rfl
  exact hr (scratch_X h)

namespace Loading

variable {memory : WordMemory} {address : UInt64} {done : Nat} {c c' : Cpu}
  {r rt rt2 : Register}

/-- Two more words are loaded, each into the register that belongs there. -/
theorem two (h : Loading memory address done c) (hfirst : rt.offset = done)
    (hsecond : rt2.offset = done + 8) (hmemory : c'.memory = c.memory)
    (hx0 : c'.reg (.X 0) = offsetBy address (done + 16))
    (hword : c'.reg rt = loadWord memory (offsetBy address done))
    (hword2 : c'.reg rt2 = loadWord memory (offsetBy address (done + 8)))
    (hreg : ∀ r, r ≠ rt → r ≠ rt2 → ¬ Scratch r → c'.reg r = c.reg r) :
    Loading memory address (done + 16) c' where
  memory_eq := hmemory.trans h.memory_eq
  x0_eq := hx0
  loaded r hr hscratch := by
    by_cases heq : r = rt
    · rw [heq, hword, hfirst]
    by_cases heq2 : r = rt2
    · rw [heq2, hword2, hsecond]
    have hapart := Register.offset_apart heq
    have hapart2 := Register.offset_apart heq2
    rw [hreg r heq heq2 hscratch, h.loaded r (by omega) hscratch]

theorem ldp (h : Loading memory address done c) (hfirst : rt.offset = done)
    (hsecond : rt2.offset = done + 8) (hrt : ¬ Scratch rt) (hrt2 : ¬ Scratch rt2) :
    Loading memory address (done + 16) (c.exec (.ldp rt rt2 (.X 0) 16)) := by
  have hne : rt ≠ rt2 := by
    rintro rfl
    omega
  refine h.two hfirst hsecond rfl ?_ ?_ ?_ fun r hr hr2 hscratch => ?_
  · rw [Cpu.exec_ldp_base, h.x0_eq, offsetBy_add]
  · rw [Cpu.exec_ldp_first hne (Register.ne_X hrt (by decide)), h.memory_eq, h.x0_eq]
  · rw [Cpu.exec_ldp_second (Register.ne_X hrt2 (by decide)), h.memory_eq, h.x0_eq, offsetBy_add]
  · exact Cpu.exec_ldp_other hr hr2 (Register.ne_X hscratch (by decide)) c 16

theorem ld4 (h : Loading memory address done c) {k : Nat} (hk : k < 8) (hdone : done = 64 * k) :
    Loading memory address (64 * (k + 1)) (c.exec (.ld4 (Fin.ofNat 32 (4 * k)) (.X 0) 64)) where
  memory_eq := h.memory_eq
  x0_eq := by
    show (Cpu.set _ (.X 0) _).reg (.X 0) = _
    rw [Cpu.set_self, h.x0_eq, ← offsetBy_add, hdone, Nat.mul_succ]
  loaded r hr hscratch := by
    obtain ⟨i, lane, rfl⟩ := Register.eq_V (show r.offset < 512 by omega)
    have hsub : (i - Fin.ofNat 32 (4 * k)).val = (32 - 4 * k + i.val) % 32 := by
      rw [Fin.val_sub, Fin.val_ofNat, Nat.mod_eq_of_lt (show 4 * k < 32 by omega)]
    rw [Register.offset_V] at hr
    show (Cpu.set _ (.X 0) _).reg _ = _
    rw [Cpu.set_of_ne (by simp)]
    show (if (i - Fin.ofNat 32 (4 * k)).val < 4 then loadWord c.memory (offsetBy (c.reg (.X 0))
      (8 * (4 * lane.val + (i - Fin.ofNat 32 (4 * k)).val))) else c.reg (.V i lane)) = _
    by_cases hold : i.val / 4 = k
    · have hplace : 8 * (4 * lane.val + (i - Fin.ofNat 32 (4 * k)).val) + 64 * k =
          (Register.V i lane).offset := by
        rw [hsub, Register.offset_V]
        omega
      rw [if_pos (by omega), h.memory_eq, h.x0_eq, ← offsetBy_add, hdone, ← hplace, Nat.add_comm]
    · rw [if_neg (by omega)]
      exact h.loaded _ (by rw [Register.offset_V]; omega) hscratch

/-- The places of the registers that are needed on the way. -/
theorem skip (h : Loading memory address 512 c) :
    Loading memory address 544 (c.run [.add (.X 0) (.X 0) 32]) where
  memory_eq := h.memory_eq
  x0_eq := by
    rw [Cpu.run_cons, Cpu.run_nil, Cpu.exec_add_self, h.x0_eq, ← offsetBy_add]
  loaded r hr hscratch := by
    have hlt : r.offset < 512 := by
      by_contra hge
      exact hscratch ⟨Nat.le_of_not_lt hge, by omega⟩
    obtain ⟨k, hk⟩ := r.dvd_offset
    rw [Cpu.run_cons, Cpu.run_nil, Cpu.exec_add_other (Register.ne_X hscratch (by decide)),
      h.loaded r (by omega) hscratch]

/-- Two of the general registers. -/
theorem pair (h : Loading memory address done c) {k : Nat} (hk : k < 13)
    (hdone : done = 544 + 16 * k) :
    Loading memory address (544 + 16 * (k + 1)) (c.exec
      (.ldp (.X (Fin.ofNat 31 (2 * k + 4))) (.X (Fin.ofNat 31 (2 * k + 5))) (.X 0) 16)) := by
  subst hdone
  have hoffset : (Register.X (Fin.ofNat 31 (2 * k + 4))).offset = 544 + 16 * k := by
    rw [Register.offset_X, Fin.val_ofNat, Nat.mod_eq_of_lt (by omega)]
    omega
  have hoffset2 : (Register.X (Fin.ofNat 31 (2 * k + 5))).offset = 544 + 16 * k + 8 := by
    rw [Register.offset_X, Fin.val_ofNat, Nat.mod_eq_of_lt (by omega)]
    omega
  refine h.ldp hoffset hoffset2 ?_ ?_
  · rw [Scratch, hoffset]
    omega
  · rw [Scratch, hoffset2]
    omega

/-- `x30`, and the stack pointer of the process by way of `x1`. -/
theorem stackPointer (h : Loading memory address 752 c) :
    Loading memory address 768 (c.run [.ldp (.X 30) (.X 1) (.X 0) 16, .msr .SP_EL0 (.X 1)]) := by
  simp only [Cpu.run_cons, Cpu.run_nil]
  refine @two _ _ _ c _ (.X 30) .SP_EL0 h rfl rfl rfl ?_ ?_ ?_ fun r hr hr2 hscratch => ?_
  · rw [Cpu.exec_msr_other (by decide), Cpu.exec_ldp_base, h.x0_eq, offsetBy_add]
  · rw [Cpu.exec_msr_other (by decide), Cpu.exec_ldp_first (by decide) (by decide), h.memory_eq,
      h.x0_eq]
  · rw [Cpu.exec_msr_self, Cpu.exec_ldp_second (by decide), h.memory_eq, h.x0_eq, offsetBy_add]
  · rw [Cpu.exec_msr_other hr2, Cpu.exec_ldp_other hr (Register.ne_X hscratch (by decide))
      (Register.ne_X hscratch (by decide))]

/-- Two system registers by way of `x2` and `x3`. -/
theorem system (h : Loading memory address done c) (first second : Register)
    (hfirst : first.offset = done) (hsecond : second.offset = done + 8) (hdone : 544 ≤ done) :
    Loading memory address (done + 16)
      (c.run [.ldp (.X 2) (.X 3) (.X 0) 16, .msr first (.X 2), .msr second (.X 3)]) := by
  have hne : first ≠ second := by
    rintro rfl
    omega
  have hne2 : ∀ {i : Fin 31}, i.val < 4 → .X i ≠ first := fun hi heq => by
    rw [← heq, Register.offset_X] at hfirst
    omega
  have hne3 : ∀ {i : Fin 31}, i.val < 4 → .X i ≠ second := fun hi heq => by
    rw [← heq, Register.offset_X] at hsecond
    omega
  simp only [Cpu.run_cons, Cpu.run_nil]
  refine h.two hfirst hsecond rfl ?_ ?_ ?_ fun r hr hr2 hscratch => ?_
  · rw [Cpu.exec_msr_other (hne3 (by decide)), Cpu.exec_msr_other (hne2 (by decide)),
      Cpu.exec_ldp_base, h.x0_eq, offsetBy_add]
  · rw [Cpu.exec_msr_other hne, Cpu.exec_msr_self, Cpu.exec_ldp_first (by decide) (by decide),
      h.memory_eq, h.x0_eq]
  · rw [Cpu.exec_msr_self, Cpu.exec_msr_other (hne2 (by decide)),
      Cpu.exec_ldp_second (by decide), h.memory_eq, h.x0_eq, offsetBy_add]
  · rw [Cpu.exec_msr_other hr2, Cpu.exec_msr_other hr,
      Cpu.exec_ldp_other (Register.ne_X hscratch (by decide))
        (Register.ne_X hscratch (by decide)) (Register.ne_X hscratch (by decide))]

/-- The kernel's stack pointer by way of `x3`, and `x0` back at the general registers. -/
theorem kernelStack (h : Loading memory address 800 c) :
    let c' := c.run [.ldpOffset (.X 2) (.X 3) (.X 0) (-8), .mov .SP (.X 3), .sub (.X 0) (.X 0) 288]
    c'.memory = memory ∧ c'.reg (.X 0) = offsetBy address 512 ∧
      ∀ r : Register, ¬ Scratch r → c'.reg r = loadWord memory (offsetBy address r.offset) := by
  have hback : c.reg (.X 0) + UInt64.ofInt (-8) = offsetBy address 792 := by
    have hzero : UInt64.ofNat 8 + UInt64.ofInt (-8) = 0 := by decide
    rw [h.x0_eq, offsetBy_add address 792 8, offsetBy, UInt64.add_assoc, hzero, UInt64.add_zero]
  have hsp : (c.exec (.ldpOffset (.X 2) (.X 3) (.X 0) (-8))).reg (.X 3) =
      loadWord memory (offsetBy address 800) := by
    rw [Cpu.exec_ldpOffset_second, h.memory_eq, hback, ← offsetBy_add]
  simp only [Cpu.run_cons, Cpu.run_nil]
  refine ⟨h.memory_eq, ?_, fun r hr => ?_⟩
  · rw [Cpu.exec_sub_self, Cpu.exec_mov_other (by decide),
      Cpu.exec_ldpOffset_other (by decide) (by decide), h.x0_eq, offsetBy_sub address (by decide)]
  · rw [Cpu.exec_sub_other (Register.ne_X hr (by decide))]
    by_cases hrsp : r = .SP
    · subst hrsp
      exact (Cpu.exec_mov_self _ .SP _).trans hsp
    · have hapart := Register.offset_apart hrsp
      have hle : r.offset + 8 ≤ 808 := r.offset_le
      have hoffset : Register.SP.offset = 800 := rfl
      rw [Cpu.exec_mov_other hrsp, Cpu.exec_ldpOffset_other (Register.ne_X hr (by decide))
        (Register.ne_X hr (by decide)), h.loaded r (by omega) hr]

end Loading

/-- The registers `x0` to `x3` come last, and the two that give the address at the very end. -/
theorem load_scratch {memory : WordMemory} {address : UInt64} {c : Cpu}
    (hmemory : c.memory = memory) (hx0 : c.reg (.X 0) = offsetBy address 512)
    (hreg : ∀ r : Register, ¬ Scratch r → c.reg r = loadWord memory (offsetBy address r.offset))
    (r : Register) :
    (c.run [.ldpOffset (.X 2) (.X 3) (.X 0) 16, .ldpOffset (.X 0) (.X 1) (.X 0) 0, .eret]).reg r =
      loadWord memory (offsetBy address r.offset) := by
  have hx2 : c.reg (.X 0) + UInt64.ofInt 16 = offsetBy address 528 := by
    rw [hx0, offsetBy_add address 512 16]
    rfl
  have hx0' : (c.exec (.ldpOffset (.X 2) (.X 3) (.X 0) 16)).reg (.X 0) + UInt64.ofInt 0 =
      offsetBy address 512 := by
    rw [Cpu.exec_ldpOffset_other (by decide) (by decide), hx0]
    exact UInt64.add_zero _
  simp only [Cpu.run_cons, Cpu.run_nil, Cpu.exec_eret_reg]
  by_cases hr : Scratch r
  · obtain rfl | rfl | rfl | rfl := hr.eq_X
    · rw [Cpu.exec_ldpOffset_first (by decide), hx0', Register.offset_X, ← hmemory]
      rfl
    · rw [Cpu.exec_ldpOffset_second, hx0', ← offsetBy_add, Register.offset_X, ← hmemory]
      rfl
    · rw [Cpu.exec_ldpOffset_other (by decide) (by decide),
        Cpu.exec_ldpOffset_first (by decide), hx2, Register.offset_X, ← hmemory]
      rfl
    · rw [Cpu.exec_ldpOffset_other (by decide) (by decide), Cpu.exec_ldpOffset_second, hx2,
        ← offsetBy_add, Register.offset_X, ← hmemory]
      rfl
  · rw [Cpu.exec_ldpOffset_other (Register.ne_X hr (by decide)) (Register.ne_X hr (by decide)),
      Cpu.exec_ldpOffset_other (Register.ne_X hr (by decide)) (Register.ne_X hr (by decide)),
      hreg r hr]

/-- The parts of the load, with the repeated instructions as such. -/
theorem loadContext_eq : loadContext =
    ((List.range 8).map fun k => ld4 (Fin.ofNat 32 (4 * k)) (.X 0) 64)
      ++ [add (.X 0) (.X 0) 32]
      ++ ((List.range 13).map fun k =>
        ldp (.X (Fin.ofNat 31 (2 * k + 4))) (.X (Fin.ofNat 31 (2 * k + 5))) (.X 0) 16)
      ++ [ldp (.X 30) (.X 1) (.X 0) 16, msr .SP_EL0 (.X 1)]
      ++ [ldp (.X 2) (.X 3) (.X 0) 16, msr .ELR_EL1 (.X 2), msr .SPSR_EL1 (.X 3)]
      ++ [ldp (.X 2) (.X 3) (.X 0) 16, msr .FPCR (.X 2), msr .FPSR (.X 3)]
      ++ [ldpOffset (.X 2) (.X 3) (.X 0) (-8), mov .SP (.X 3), sub (.X 0) (.X 0) 288]
      ++ [ldpOffset (.X 2) (.X 3) (.X 0) 16, ldpOffset (.X 0) (.X 1) (.X 0) 0, eret] := rfl

/-- `load_context` loads every register from its place in the structure that `x0` points to. -/
theorem run_loadContext (c : Cpu) (r : Register) :
    (c.run loadContext).reg r = loadWord c.memory (offsetBy (c.reg (.X 0)) r.offset) := by
  have hstart : Loading c.memory (c.reg (.X 0)) (64 * 0) c :=
    { memory_eq := rfl
      x0_eq := (offsetBy_zero _).symm
      loaded := fun r hr => absurd hr (by omega) }
  have hvectors := Cpu.run_range
    (fun k c' => Loading c.memory (c.reg (.X 0)) (64 * k) c')
    (fun k => .ld4 (Fin.ofNat 32 (4 * k)) (.X 0) 64) hstart fun k hk c' h => h.ld4 hk rfl
  have hgeneral := Cpu.run_range (n := 13)
    (fun k c' => Loading c.memory (c.reg (.X 0)) (544 + 16 * k) c')
    (fun k => .ldp (.X (Fin.ofNat 31 (2 * k + 4))) (.X (Fin.ofNat 31 (2 * k + 5))) (.X 0) 16)
    hvectors.skip fun k hk c' h => h.pair hk rfl
  have hstatus := hgeneral.stackPointer.system .ELR_EL1 .SPSR_EL1 rfl rfl (by decide)
  have hfloat := hstatus.system .FPCR .FPSR rfl rfl (by decide)
  obtain ⟨hmemory, hx0, hreg⟩ := hfloat.kernelStack
  rw [loadContext_eq]
  simp only [Cpu.run_append]
  exact load_scratch hmemory hx0 hreg r

end CrosKernel.Aarch64
