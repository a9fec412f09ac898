import CrosKernel.Fs.DirEntry

/-!
# Slots of a directory on disk

A slot is the 32 bytes of a directory entry. `clear_entry`, `write_long_name_entry` and the first
part of `write_dir_entry` each load the sector of a slot, change bytes of the slot in the buffer and
store the sector. `WritesIn` says where a function changes the disk.
-/

namespace CrosKernel.Fs

open Lib

namespace Buffer

/-- `b'` is `b` with changes in `[low, high)` only. -/
structure ChangedIn (low high : Nat) (b b' : Buffer) : Prop where
  size_eq : b'.size = b.size
  data_eq : ∀ x, x < low ∨ high ≤ x → b'.data x = b.data x

variable {b b' b'' : Buffer} {low high low' high' : Nat}

theorem ChangedIn.refl (low high : Nat) (b : Buffer) : ChangedIn low high b b :=
  ⟨rfl, fun _ _ => rfl⟩

theorem ChangedIn.trans (h : ChangedIn low high b b') (h' : ChangedIn low high b' b'') :
    ChangedIn low high b b'' :=
  ⟨h'.size_eq.trans h.size_eq, fun x hx => (h'.data_eq x hx).trans (h.data_eq x hx)⟩

theorem ChangedIn.mono (h : ChangedIn low high b b') (hlow : low' ≤ low) (hhigh : high ≤ high') :
    ChangedIn low' high' b b' :=
  ⟨h.size_eq, fun x hx => h.data_eq x (by omega)⟩

/-- Storing one byte of the buffer. -/
theorem set_spec (index : Nat) (byte : UInt8) (h : index < b.size) :
    ∃ b', b.set index byte = some b' ∧ ChangedIn index (index + 1) b b' ∧ b'.data index = byte := by
  refine ⟨_, if_pos h, ⟨rfl, fun x hx => ?_⟩, Function.update_self ..⟩
  exact Function.update_of_ne (by omega) ..

/-- Storing a word in the buffer. -/
theorem natToBytes_spec (num offset size : Nat) (h : offset + size ≤ b.size) :
    ∃ b', natToBytes num b offset size = some b' ∧ ChangedIn offset (offset + size) b b' ∧
      wordAt b'.data offset size = num % 256 ^ size := by
  refine ⟨_, natToBytes_eq h, ⟨rfl, fun x hx => ?_⟩, wordAt_setWord_same ..⟩
  exact setWord_outside hx

end Buffer

namespace FAT32

/-- The volume with another disk content. -/
def withDisk (fs : FAT32) (disk : Nat → UInt8) : FAT32 :=
  { fs with di := { fs.di with disk := disk } }

/-- From `fs` to `fs'` the disk changes in `[low, high)` only, and nothing else changes. -/
structure WritesIn (fs : FAT32) (low high : Nat) (fs' : FAT32) : Prop where
  config : fs' = fs.withDisk fs'.di.disk
  outside : ∀ x, x < low ∨ high ≤ x → fs'.di.disk x = fs.di.disk x

/-- What makes slots of 32 bytes on this volume. -/
structure SlotSize (fs : FAT32) : Prop extends fs.Valid where
  bytesPerDirEntry_eq : fs.bytesPerDirEntry = 32

variable {fs fs' fs'' : FAT32} {a low high low' high' : Nat} {b : Buffer}

theorem WritesIn.refl (fs : FAT32) (low high : Nat) : fs.WritesIn low high fs :=
  ⟨rfl, fun _ _ => rfl⟩

theorem WritesIn.trans (h : fs.WritesIn low high fs') (h' : fs'.WritesIn low high fs'') :
    fs.WritesIn low high fs'' where
  config := by
    rw [h'.config, h.config]
    rfl
  outside x hx := (h'.outside x hx).trans (h.outside x hx)

theorem WritesIn.mono (h : fs.WritesIn low high fs') (hlow : low' ≤ low) (hhigh : high ≤ high') :
    fs.WritesIn low' high' fs' :=
  ⟨h.config, fun x hx => h.outside x (by omega)⟩

theorem Valid.withDisk (h : fs.Valid) (disk : Nat → UInt8) : (fs.withDisk disk).Valid where
  bytesPerSector_eq := h.bytesPerSector_eq
  disk_bytesPerSector_eq := h.disk_bytesPerSector_eq
  bytesPerFatEntry_eq := h.bytesPerFatEntry_eq
  sectorsPerCluster_pos := h.sectorsPerCluster_pos
  fatEntries_le := h.fatEntries_le

theorem SlotSize.withDisk (h : fs.SlotSize) (disk : Nat → UInt8) : (fs.withDisk disk).SlotSize :=
  ⟨h.toValid.withDisk disk, h.bytesPerDirEntry_eq⟩

theorem WritesIn.bytesPerSector (h : fs.WritesIn low high fs') :
    fs'.bytesPerSector = fs.bytesPerSector := by
  rw [h.config]
  rfl

theorem WritesIn.entries (h : fs.WritesIn low high fs') : fs'.entries = fs.entries := by
  rw [h.config]
  rfl

theorem WritesIn.slotSize (h : fs.WritesIn low high fs') (hsize : fs.SlotSize) : fs'.SlotSize := by
  rw [h.config]
  exact hsize.withDisk _

/-- Slots start at the multiples of their size, so none crosses a sector boundary. -/
def IsSlot (a : Nat) : Prop := a % 32 = 0

instance (a : Nat) : Decidable (IsSlot a) := inferInstanceAs (Decidable (_ = _))

/-- The slots are the ones before and behind a slot. -/
theorem isSlot_add {n : Nat} : IsSlot (a + 32 * n) ↔ IsSlot a := by
  unfold IsSlot
  omega

theorem IsSlot.fits (ha : IsSlot a) (hvalid : fs.Valid) : a % fs.bytesPerSector + 32 ≤ 512 := by
  unfold IsSlot at ha
  rw [hvalid.bytesPerSector_eq]
  omega

/-- The buffer of the sector of a slot holds the slot. -/
theorem read_slot (hvalid : fs.Valid) (a : Nat) :
    (fs.di.read (a / fs.bytesPerSector)).size = 512 ∧
      ∀ j, (fs.di.read (a / fs.bytesPerSector)).data (a % fs.bytesPerSector + j) =
        fs.di.disk (a + j) := by
  refine ⟨hvalid.disk_bytesPerSector_eq, fun j => ?_⟩
  show fs.di.disk _ = _
  rw [hvalid.disk_bytesPerSector_eq, hvalid.bytesPerSector_eq]
  congr 1
  omega

/-- Changing bytes in the buffer of their sector and storing the buffer changes these bytes. -/
theorem write_bytes (hvalid : fs.Valid) {size : Nat} (hfits : a % fs.bytesPerSector + size ≤ 512)
    (hb : Buffer.ChangedIn (a % fs.bytesPerSector) (a % fs.bytesPerSector + size)
      (fs.di.read (a / fs.bytesPerSector)) b) :
    fs.WritesIn a (a + size) (fs.writeSector (a / fs.bytesPerSector) b) ∧
      ∀ j, j < size → (fs.writeSector (a / fs.bytesPerSector) b).di.disk (a + j) =
        b.data (a % fs.bytesPerSector + j) := by
  obtain ⟨hsize, hdata⟩ := hb
  rw [hvalid.bytesPerSector_eq] at hdata hfits ⊢
  have hdisk : ∀ x, (fs.writeSector (a / 512) b).di.disk x =
      if 512 * (a / 512) ≤ x ∧ x < 512 * (a / 512) + 512 then b.data (x - 512 * (a / 512))
      else fs.di.disk x := by
    intro x
    show (if _ then _ else _) = _
    rw [hvalid.disk_bytesPerSector_eq]
  refine ⟨⟨rfl, fun x hx => ?_⟩, fun j hj => ?_⟩
  · rw [hdisk]
    split
    next hin =>
      rw [hdata _ (by omega)]
      show fs.di.disk _ = _
      rw [hvalid.disk_bytesPerSector_eq, Nat.sub_add_cancel hin.1]
    next => rfl
  · rw [hdisk, if_pos (by omega)]
    congr 1
    omega

/-- Changing bytes of a slot in the buffer of its sector and storing the buffer changes the slot. -/
theorem write_slot (hvalid : fs.Valid) (ha : IsSlot a)
    (hb : Buffer.ChangedIn (a % fs.bytesPerSector) (a % fs.bytesPerSector + 32)
      (fs.di.read (a / fs.bytesPerSector)) b) :
    fs.WritesIn a (a + 32) (fs.writeSector (a / fs.bytesPerSector) b) ∧
      ∀ j, j < 32 → (fs.writeSector (a / fs.bytesPerSector) b).di.disk (a + j) =
        b.data (a % fs.bytesPerSector + j) :=
  write_bytes hvalid (ha.fits hvalid) hb

/-- A byte of a slot, read through the buffer of its sector. -/
theorem get_slot (hvalid : fs.Valid) (ha : IsSlot a) {j : Nat} (hj : j < 32) :
    (fs.di.read (a / fs.bytesPerSector)).get (j + a % fs.bytesPerSector) =
      some (fs.di.disk (a + j)) := by
  obtain ⟨hread, hdata⟩ := read_slot hvalid a
  have hfits := ha.fits hvalid
  rw [Buffer.get, if_pos (by omega), Nat.add_comm j, hdata]

/-- A word of a slot, read through the buffer of its sector. -/
theorem bytesToNat_slot (hvalid : fs.Valid) (ha : IsSlot a) {j size : Nat} (hj : j + size ≤ 32) :
    (fs.di.read (a / fs.bytesPerSector)).bytesToNat (j + a % fs.bytesPerSector) size =
      some (wordAt fs.di.disk (a + j) size) := by
  obtain ⟨hread, hdata⟩ := read_slot hvalid a
  have hfits := ha.fits hvalid
  rw [Buffer.bytesToNat_eq (by omega)]
  congr 1
  induction size generalizing j with
  | zero => rfl
  | succ size ih =>
      have hhead := hdata j
      have htail := ih (j := j + 1) (by omega)
      rw [Nat.add_comm] at hhead
      rw [wordAt, wordAt, hhead, Nat.add_right_comm, htail]
      rfl

theorem bytesToShort_slot (hvalid : fs.Valid) (ha : IsSlot a) {j : Nat} (hj : j + 2 ≤ 32) :
    (fs.di.read (a / fs.bytesPerSector)).bytesToShort (j + a % fs.bytesPerSector) =
      some (wordAt fs.di.disk (a + j) 2) :=
  bytesToNat_slot hvalid ha hj

theorem bytesToInt_slot (hvalid : fs.Valid) (ha : IsSlot a) {j : Nat} (hj : j + 4 ≤ 32) :
    (fs.di.read (a / fs.bytesPerSector)).bytesToInt (j + a % fs.bytesPerSector) =
      some (wordAt fs.di.disk (a + j) 4) :=
  bytesToNat_slot hvalid ha hj

/-- `parse_attribute` reads the attribute byte of the slot. -/
theorem parseAttribute_eq (hvalid : fs.Valid) (ha : IsSlot a) :
    fs.parseAttribute a = some (attributeType (fs.di.disk (a + 11))) := by
  simp [parseAttribute, get_slot hvalid ha (j := 11) (by omega)]

/-! ## Clearing a slot -/

theorem clearLoop_spec {offset count : Nat} (h : offset + count ≤ b.size) :
    ∃ b', clearLoop b offset count = some b' ∧ Buffer.ChangedIn offset (offset + count) b b' ∧
      ∀ j, j < count → b'.data (offset + j) = 0 := by
  induction count generalizing b offset with
  | zero => exact ⟨b, rfl, .refl _ _ _, by simp⟩
  | succ count ih =>
      obtain ⟨b1, hset, hchanged, hzero⟩ := Buffer.set_spec (b := b) offset 0 (by omega)
      have hsize : offset + 1 + count ≤ b1.size := by
        rw [hchanged.size_eq]
        omega
      obtain ⟨b2, hloop, hchanged', hzeros⟩ := ih hsize
      refine ⟨b2, by simp [clearLoop, hset, hloop],
        (hchanged.mono (by omega) (by omega)).trans (hchanged'.mono (by omega) (by omega)), ?_⟩
      intro j hj
      rcases Nat.eq_zero_or_pos j with rfl | hpos
      · rw [Nat.add_zero, hchanged'.data_eq _ (by omega), hzero]
      · have hrest := hzeros (j - 1) (by omega)
        rwa [show offset + 1 + (j - 1) = offset + j by omega] at hrest

/-- `clear_entry` zeroes the slot. -/
theorem clearEntry_spec (hsize : fs.SlotSize) (ha : IsSlot a) :
    ∃ fs', fs.clearEntry a = some fs' ∧ fs.WritesIn a (a + 32) fs' ∧
      ∀ j, j < 32 → fs'.di.disk (a + j) = 0 := by
  obtain ⟨hread, -⟩ := read_slot hsize.toValid a
  have hfits : a % fs.bytesPerSector + 32 ≤ (fs.di.read (a / fs.bytesPerSector)).size := by
    rw [hread]
    exact ha.fits hsize.toValid
  obtain ⟨b, hloop, hchanged, hzero⟩ := clearLoop_spec hfits
  obtain ⟨hwrite, hdisk⟩ := write_slot hsize.toValid ha hchanged
  refine ⟨_, by simp [clearEntry, hsize.bytesPerDirEntry_eq, hloop], hwrite, fun j hj => ?_⟩
  rw [hdisk j hj, hzero j hj]

end FAT32

end CrosKernel.Fs
