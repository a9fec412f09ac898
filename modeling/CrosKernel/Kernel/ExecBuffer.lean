import CrosKernel.Kernel.Exec
import CrosKernel.Loader.ImageBytes
import CrosKernel.Memory.KernelWalks

/-!
# The file in the heap

The loop of `exec` writes the sectors of the file to addresses of the kernel half. `RoomAt` says that
every address leads to a byte of its own, which belongs to no table and to no process. Then the loop
leaves the bytes of the sectors there, and writes nowhere else: `Wrote.readLoop`.
-/

namespace CrosKernel

open Fs Loader Memory Mmu UserNode

namespace ExecKernel

/-- There is room for `n` bytes in the kernel half: every address leads to a byte of its own, in a
block of memory that consists of page frames of `K`, or in a page of the kernel. -/
structure RoomAt (K : Set Nat) (blocks : Set UserNode) (m : Mmu) (start n : Nat) : Prop where
  high : highMem ≤ start
  below : start + n ≤ 2 ^ 64
  lands : ∀ o < n, ∃ leaf pa, m.walk (start + o) = .ok (leaf, pa) ∧ leaf.Writable ∧
    (leaf.type = false ∧ pa / pageSize ∈ K ∨ Mappable blocks .kernel (start + o))
  injective : ∀ o < n, ∀ o' < n, ∀ leaf leaf' pa, m.walk (start + o) = .ok (leaf, pa) →
    m.walk (start + o') = .ok (leaf', pa) → o = o'

variable {v : ByteView} {K : Set Nat} {blocks : Set UserNode} {m m' m₀ : Mmu}
  {place : SpaceNode → Option PageTableEntry} {leaf : PageTableEntry}
  {start n o pa fuel : Nat} {byte : UInt8}

/-! ## One byte -/

/-- A page frame of the room holds no table and no page of a process. -/
theorem RoomAt.frame_cases (h : RoomAt K blocks m start n) (hT : Tables K blocks m place)
    (ho : o < n) (hwalk : m.walk (start + o) = .ok (leaf, pa)) :
    pa / pageSize ∈ K ∨ ∃ p e, place (.kernel, pageOf p) = some e ∧
      e.outputAddress = pa / pageSize := by
  obtain ⟨leaf', pa', hwalk', -, ⟨-, hmem⟩ | hpage⟩ := h.lands o ho
  · rw [hwalk] at hwalk'
    cases hwalk'
    exact .inl hmem
  · have hbelow := h.below
    have hplaced := hT.walk_page hpage (by omega)
    cases hplace : place (.kernel, pageOf (pageIn .kernel (start + o))) with
    | none =>
        rw [hplace] at hplaced
        obtain ⟨a, hplaced⟩ := hplaced
        rw [hwalk] at hplaced
        cases hplaced
    | some e =>
        rw [hplace] at hplaced
        rw [hwalk] at hplaced
        cases hplaced
        refine .inr ⟨_, _, hplace, ?_⟩
        unfold pageSize
        omega

theorem RoomAt.frame_ne (h : RoomAt K blocks m start n) (hT : Tables K blocks m place)
    (ho : o < n) (hwalk : m.walk (start + o) = .ok (leaf, pa)) {c : SpaceNode}
    {e : PageTableEntry} (hc : place c = some e) (hnot : c.1 = .kernel → ¬ c.2.IsPage) :
    e.outputAddress ≠ pa / pageSize := by
  intro heq
  obtain hmem | ⟨p, e', hpage, hframe⟩ := h.frame_cases hT ho hwalk
  · exact (hT.apart hc).1 (heq ▸ hmem)
  · obtain rfl := hT.placed.injective hc hpage (heq.trans hframe.symm)
    exact hnot rfl trivial

theorem RoomAt.frame_not_free (h : RoomAt K blocks m start n) (hT : Tables K blocks m place)
    (ho : o < n) (hwalk : m.walk (start + o) = .ok (leaf, pa)) :
    pa / pageSize ∉ m.pageAllocator.freePages := by
  obtain hmem | ⟨p, e', hpage, hframe⟩ := h.frame_cases hT ho hwalk
  · exact fun hfree => hT.free_apart _ hfree hmem
  · exact hframe ▸ (hT.apart hpage).2

/-- Between the two states only bytes of the room were written. -/
structure Wrote (K : Set Nat) (blocks : Set UserNode) (place : SpaceNode → Option PageTableEntry)
    (m₀ : Mmu) (start n : Nat) (m : Mmu) : Prop where
  tables : Tables K blocks m place
  room : RoomAt K blocks m start n
  state_eq : m = { m₀ with memory := m.memory }
  frames_eq : framesAt m start n = framesAt m₀ start n
  memory_eq : ∀ f, f ∉ framesAt m₀ start n → m.memory f = m₀.memory f

theorem Wrote.refl (h : Tables K blocks m place) (hroom : RoomAt K blocks m start n) :
    Wrote K blocks place m start n m :=
  ⟨h, hroom, rfl, rfl, fun _ _ => rfl⟩

/-- A byte of the room is written. -/
theorem Wrote.storeByte (hv : v.Lawful) (h : Wrote K blocks place m₀ start n m) (ho : o < n)
    (hstore : storeByte v fuel m (start + o) byte = some m') :
    Wrote K blocks place m₀ start n m' ∧ loadByte v m' (start + o) = some byte ∧
      ∀ o' < n, o' ≠ o → loadByte v m' (start + o') = loadByte v m (start + o') := by
  obtain ⟨leaf, pa, hwalk, ⟨haf, hro⟩, hland⟩ := h.room.lands o ho
  have hm' : m' = { m with memory := v.poke m.memory pa byte } := by
    cases fuel with
    | zero => cases hstore
    | succ fuel =>
        rw [Loader.storeByte, hwalk] at hstore
        simp only [haf, hro, Bool.not_false, Bool.and_true, if_true] at hstore
        exact (Option.some.inj hstore).symm
  have hother : ∀ f, f ≠ pa / pageSize → m'.memory f = m.memory f := by
    intro f hf
    rw [hm']
    exact hv.poke_of_ne _ _ _ f hf
  have hT' : Tables K blocks m' place := by
    rw [hm']
    refine h.tables.with_memory (fun c e hpage hc => ?_) fun f hf => ?_
    · exact hv.poke_of_ne _ _ _ _ (h.room.frame_ne h.tables ho hwalk hc fun _ => hpage)
    · refine hv.poke_of_ne _ _ _ _ ?_
      rintro rfl
      exact h.room.frame_not_free h.tables ho hwalk hf
  have hwalks : ∀ va, highMem ≤ va → m'.walk va = m.walk va := by
    intro va hva
    refine walk_kernel ⟨by rw [hm'], by rw [hm'], fun f hf => hother f ?_⟩ hva
    rintro rfl
    obtain ⟨c, e, hpage, -, hc, heq⟩ := h.tables.kernelFrames_placed hf
    exact h.room.frame_ne h.tables ho hwalk hc (fun _ => hpage) heq
  have hroomWalk : ∀ o', m'.walk (start + o') = m.walk (start + o') := fun o' =>
    hwalks _ (h.room.high.trans (Nat.le_add_right ..))
  have hframe : pa / pageSize ∈ framesAt m₀ start n :=
    h.frames_eq ▸ ⟨o, ho, leaf, pa, hwalk, rfl⟩
  refine ⟨⟨hT', ?_, ?_, ?_, fun f hf => ?_⟩, ?_, fun o' ho' hne => ?_⟩
  · refine ⟨h.room.high, h.room.below, ?_, ?_⟩
    · simpa only [hroomWalk] using h.room.lands
    · simpa only [hroomWalk] using h.room.injective
  · rw [hm', h.state_eq]
  · rw [← h.frames_eq]
    simp only [framesAt, hroomWalk]
  · rw [hother f fun heq => hf (heq ▸ hframe)]
    exact h.memory_eq f hf
  · rw [loadByte, hroomWalk, hwalk]
    simp only [haf, if_true, hm', hv.peek_poke]
  · obtain ⟨leaf', pa', hwalk', -, -⟩ := h.room.lands o' ho'
    rw [loadByte, loadByte, hroomWalk, hwalk']
    have hpa : pa' ≠ pa := by
      rintro rfl
      exact hne (h.room.injective o' ho' o ho leaf' leaf pa' hwalk' hwalk)
    simp only [hm', hv.peek_poke_of_ne _ _ _ _ hpa]

/-! ## The loops -/

variable {data : Buffer} {count index i remaining : Nat} {fs : FAT32} {path : Str} {size : Int}
  {ok : Bool}

/-- A part of a sector is copied to the room from the offset `i` on. -/
theorem Wrote.copySector (hv : v.Lawful) (h : Wrote K blocks place m₀ start n m)
    (hi : i + count ≤ n) (hcopy : copySector v fuel data count index (start + i) m = some m') :
    Wrote K blocks place m₀ start n m' ∧
      (∀ k < count, ∃ byte, data.get (index + k) = some byte ∧
        loadByte v m' (start + (i + k)) = some byte) ∧
      ∀ o < n, (o < i ∨ i + count ≤ o) → loadByte v m' (start + o) = loadByte v m (start + o) := by
  induction count generalizing m index i with
  | zero =>
      cases hcopy
      exact ⟨h, fun k hk => absurd hk (Nat.not_lt_zero k), fun _ _ _ => rfl⟩
  | succ count ih =>
      obtain ⟨byte, hbyte, hcopy⟩ := Option.bind_eq_some_iff.1 hcopy
      obtain ⟨m₁, hstore, hcopy⟩ := Option.bind_eq_some_iff.1 hcopy
      have hbelow := h.room.below
      rw [Nat.mod_eq_of_lt (by omega)] at hstore
      obtain ⟨h₁, hread, hother⟩ := h.storeByte hv (by omega) hstore
      obtain ⟨h', hreads, hsame⟩ := ih (i := i + 1) h₁ (by omega) hcopy
      refine ⟨h', fun k hk => ?_, fun o ho hout => ?_⟩
      · cases k with
        | zero => exact ⟨byte, hbyte, (hsame i (by omega) (.inl (by omega))).trans hread⟩
        | succ k =>
            obtain ⟨byte', hget, hload⟩ := hreads k (by omega)
            rw [Nat.add_right_comm] at hget
            rw [Nat.add_right_comm] at hload
            exact ⟨byte', hget, hload⟩
      · rw [hsame o ho (by omega), hother o ho (by omega)]

/-- What the loop leaves: the bytes from the offset `i` on are those of the sectors. -/
def ReadFrom (v : ByteView) (fs : FAT32) (path : Str) (start n i : Nat) (m : Mmu) : Prop :=
  ∀ o, i ≤ o → o < n → ∃ data byte, fs.readFile path (o / 512) = some (some data) ∧
    data.get (o % 512) = some byte ∧ loadByte v m (start + o) = some byte

/-- The loop writes nowhere but to the room, and when no sector fails it has read the file. -/
theorem Wrote.readLoop (hv : v.Lawful) (h : Wrote K blocks place m₀ start n m)
    (hsize : size.toNat = n) (hi : i % 512 = 0)
    (hloop : readLoop v fuel fs path size start remaining i m = some (m', ok)) :
    Wrote K blocks place m₀ start n m' ∧ (ok = true → ReadFrom v fs path start n i m') ∧
      ∀ o < n, o < i → loadByte v m' (start + o) = loadByte v m (start + o) := by
  induction remaining generalizing m i with
  | zero => cases hloop
  | succ remaining ih =>
      rw [ExecKernel.readLoop] at hloop
      split at hloop
      next hlt =>
        obtain ⟨sector, hread, hloop⟩ := Option.bind_eq_some_iff.1 hloop
        cases sector with
        | none =>
            cases hloop
            exact ⟨h, fun hok => (by cases hok), fun _ _ _ => rfl⟩
        | some data =>
            obtain ⟨m₁, hcopy, hloop⟩ := Option.bind_eq_some_iff.1 hloop
            generalize hcount : (if size - i ≥ 512 then 512 else (size - i).toNat) = count at hcopy
            have hmin : i + count = min (i + 512) n := by
              split at hcount <;> omega
            obtain ⟨h₁, hreads, hsame⟩ := h.copySector hv (by omega) hcopy
            split at hloop
            next =>
              obtain ⟨h', hrest, hkept⟩ := ih h₁ (by omega) hloop
              refine ⟨h', fun hok o hle ho => ?_, fun o ho hio => ?_⟩
              · by_cases hnext : i + 512 ≤ o
                · exact hrest hok o hnext ho
                · obtain ⟨byte, hget, hload⟩ := hreads (o - i) (by omega)
                  have hsector : o / 512 = i / 512 := by omega
                  have hoffset : 0 + (o - i) = o % 512 := by omega
                  rw [hoffset] at hget
                  rw [Nat.add_sub_of_le hle] at hload
                  exact ⟨data, byte, hsector ▸ hread, hget,
                    (hkept o ho (by omega)).trans hload⟩
              · rw [hkept o ho (by omega), hsame o ho (.inl hio)]
            next => cases hloop
      next hend =>
        cases hloop
        exact ⟨h, fun _ o hle ho => absurd ho (by omega), fun _ _ _ => rfl⟩

end ExecKernel

end CrosKernel
