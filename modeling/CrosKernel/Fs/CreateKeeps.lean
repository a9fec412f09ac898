import CrosKernel.Fs.Create

/-!
# Directory entries that survive a creation

The slots of the files and directories of a volume, and what a creation does to them.
`init_dir_cluster` writes the `..` entry of a new directory into the slot behind its own one,
wherever that belongs, and clears two slots of the new cluster. `create_keeps_iff` says when the
slots of the existing entries survive and all writes stay inside their sector buffers.
-/

namespace CrosKernel.Fs

open Lib

namespace FAT32

variable {fs fs' : FAT32} {this dir : EntryPtr} {p : Entry} {c k r a : Nat} {d name : Str}
  {type : EntryAttribute} {past : Nat → Nat → Nat → UInt8}

/-- The slot at `a` belongs to a file or directory of the tree: it holds its short entry or, in
front of it, a piece of its long name. -/
def IsEntrySlot (fs : FAT32) (a : Nat) : Prop :=
  ∃ q e n, fs.entries q = some e ∧ q ≠ fs.rootDir ∧ a + 32 * n = e.byteOffset ∧ fs.fatEnd ≤ a ∧
    ∀ i, i < n → attributeType (fs.di.disk (a + 32 * i + 11)) = .LONG_NAME

/-- The short entries of the files and directories are on disk. -/
def ShortEntries (fs : FAT32) : Prop :=
  ∀ q e, fs.entries q = some e → q ≠ fs.rootDir → IsSlot e.byteOffset ∧
    (attributeType (fs.di.disk (e.byteOffset + 11)) = .FILE ∨
      attributeType (fs.di.disk (e.byteOffset + 11)) = .DIRECTORY)

/-- No file or directory has a short name that starts with a dot, as the dot entries do. -/
def NoLeadingDot (fs : FAT32) : Prop :=
  ∀ q e, fs.entries q = some e → q ≠ fs.rootDir → fs.di.disk e.byteOffset ≠ 0x2E

/-- From `fs` to `fs'` the slots of all files and directories are unchanged. -/
def KeepsEntries (fs fs' : FAT32) : Prop :=
  ∀ a, fs.IsEntrySlot a → ∀ j, j < 32 → fs'.di.disk (a + j) = fs.di.disk (a + j)

/-- What the attribute of a slot of an entry can be. -/
theorem IsEntrySlot.spec (h : fs.IsEntrySlot a) (hshort : fs.ShortEntries) :
    IsSlot a ∧ fs.fatEnd ≤ a ∧ attributeType (fs.di.disk (a + 11)) ≠ .EMPTY := by
  obtain ⟨q, e, n, he, hroot, hoffset, hbehind, hlong⟩ := h
  obtain ⟨hslot, htype⟩ := hshort q e he hroot
  refine ⟨?_, hbehind, ?_⟩
  · unfold IsSlot at hslot ⊢
    omega
  · rcases Nat.eq_zero_or_pos n with rfl | hpos
    · rw [Nat.mul_zero, Nat.add_zero] at hoffset
      rcases htype with htype | htype <;> simp [hoffset, htype]
    · have hfirst := hlong 0 hpos
      rw [Nat.mul_zero, Nat.add_zero] at hfirst
      simp [hfirst]

/-- A slot of an entry that looks like a dot entry is a short entry. -/
theorem IsEntrySlot.not_dot (h : fs.IsEntrySlot a) (hdot : fs.NoLeadingDot) :
    ¬ (fs.di.disk a = 0x2E ∧ fs.di.disk (a + 11) = 0x10) := by
  rintro ⟨hname, hattr⟩
  obtain ⟨q, e, n, he, hroot, hoffset, -, hlong⟩ := h
  rcases Nat.eq_zero_or_pos n with rfl | hpos
  · rw [Nat.mul_zero, Nat.add_zero] at hoffset
    exact hdot q e he hroot (hoffset ▸ hname)
  · have hfirst := hlong 0 hpos
    rw [Nat.mul_zero, Nat.add_zero, hattr] at hfirst
    exact absurd hfirst (by decide)

/-! ## The slots that a creation writes -/

/-- The slots for the new entry were empty, so they belong to no entry. -/
theorem Place.not_entrySlot (hplace : fs.Place name c k r) (hshort : fs.ShortEntries)
    (hstart : IsSlot (fs.clusterStart c)) (h : fs.IsEntrySlot a) :
    a < fs.clusterStart c + 32 * k ∨ fs.shortSlot c k name < a := by
  obtain ⟨hslot, -, hattr⟩ := h.spec hshort
  by_contra hin
  rw [shortSlot, not_or, not_lt, not_lt] at hin
  unfold IsSlot at hslot hstart
  have hempty := hplace.run.run ((a - fs.clusterStart c - 32 * k) / 32) (by omega)
  unfold IsEmptySlot at hempty
  rw [show fs.clusterStart c + 32 * (k + (a - fs.clusterStart c - 32 * k) / 32) = a
    by omega] at hempty
  exact hattr hempty

/-- When the slots that a new directory writes besides its own ones belong to no entry, all entries
keep their slots. -/
theorem Created.keeps (h : Created fs fs' this dir p name type c k r) (hplace : fs.Place name c k r)
    (hshort : fs.ShortEntries) (hstart : IsSlot (fs.clusterStart c))
    (hstart' : IsSlot (fs.clusterStart r))
    (hfree : type = .DIRECTORY → ¬ fs.IsEntrySlot (fs.shortSlot c k name + 32) ∧
      ¬ fs.IsEntrySlot (fs.clusterStart r) ∧ ¬ fs.IsEntrySlot (fs.clusterStart r + 32)) :
    KeepsEntries fs fs' := by
  intro a ha j hj
  obtain ⟨hslot, hbehind, -⟩ := ha.spec hshort
  have hown := hplace.not_entrySlot hshort hstart ha
  refine h.frame _ (by omega) ?_
  rintro (hin | ⟨htype, hin⟩)
  · unfold IsSlot at hslot hstart
    rw [shortSlot] at hin hown
    omega
  · obtain ⟨hnext, hfirst, hsecond⟩ := hfree htype
    have hne : a ≠ fs.shortSlot c k name + 32 := fun heq => hnext (heq ▸ ha)
    have hne' : a ≠ fs.clusterStart r := fun heq => hfirst (heq ▸ ha)
    have hne'' : a ≠ fs.clusterStart r + 32 := fun heq => hsecond (heq ▸ ha)
    unfold IsSlot at hslot hstart hstart'
    rw [shortSlot] at hin hown hne
    omega

/-- A new directory changes the slot behind its own one and the first two slots of its cluster,
where they belong to entries. -/
theorem Created.not_keeps (h : Created fs fs' this dir p name .DIRECTORY c k r)
    (hplace : fs.Place name c k r) (hshort : fs.ShortEntries) (hdot : fs.NoLeadingDot)
    (hstart : IsSlot (fs.clusterStart c)) (hkeeps : KeepsEntries fs fs') :
    ¬ fs.IsEntrySlot (fs.shortSlot c k name + 32) ∧ ¬ fs.IsEntrySlot (fs.clusterStart r) ∧
      ¬ fs.IsEntrySlot (fs.clusterStart r + 32) := by
  have hnext : ¬ fs.IsEntrySlot (fs.shortSlot c k name + 32) := by
    intro ha
    obtain ⟨hname, hattr⟩ := h.dotDot rfl
    have hfirst := hkeeps _ ha 0 (by omega)
    have heleventh := hkeeps _ ha 11 (by omega)
    rw [Nat.add_zero] at hfirst
    exact ha.not_dot hdot ⟨hfirst.symm.trans hname, heleventh.symm.trans hattr⟩
  -- a slot of the new cluster is cleared, unless it is the slot behind the short entry
  have hcluster : ∀ a, fs.clusterStart r ≤ a → a + 32 ≤ fs.clusterStart r + 64 →
      ¬ fs.IsEntrySlot a := by
    intro a hlow hhigh ha
    obtain ⟨hslot, -, hattr⟩ := ha.spec hshort
    have hown := hplace.not_entrySlot hshort hstart ha
    have hne : a ≠ fs.shortSlot c k name + 32 := fun heq => hnext (heq ▸ ha)
    have hcleared := h.cleared rfl (a + 11) (by omega) (by omega) (by
      unfold IsSlot at hslot hstart
      rw [shortSlot] at hown hne ⊢
      omega)
    rw [hkeeps a ha 11 (by omega)] at hcleared
    rw [hcleared] at hattr
    exact hattr (by decide)
  exact ⟨hnext, hcluster _ le_rfl (by omega), hcluster _ (by omega) le_rfl⟩

/-! ## Successful creations -/

theorem treeVolume_shortEntries : treeVolume.ShortEntries := by
  intro q e h hroot
  rcases treeVolume_entries h with ⟨rfl, -⟩ | ⟨-, rfl⟩ | ⟨-, rfl⟩
  · exact absurd rfl hroot
  · have hattr : attributeType (treeVolume.di.disk (folderEntry.byteOffset + 11)) = .DIRECTORY := by
      decide +kernel
    exact ⟨rfl, .inr hattr⟩
  · have hattr : attributeType (treeVolume.di.disk (fileEntry.byteOffset + 11)) = .FILE := by
      decide +kernel
    exact ⟨rfl, .inl hattr⟩

/-- The place of a new entry with one long name entry in `/d`: the first two slots. -/
theorem treeVolume_place : treeVolume.Place [0x6E] 3 0 4 where
  run :=
    { run := by
        have h0 : treeVolume.IsEmptySlot (treeVolume.clusterStart 3) 0 := by decide +kernel
        have h1 : treeVolume.IsEmptySlot (treeVolume.clusterStart 3) 1 := by decide +kernel
        intro i hi
        rcases Nat.le_one_iff_eq_zero_or_eq_one.1 (Nat.le_of_lt_succ hi) with rfl | rfl
        · exact h0
        · exact h1
      before := fun k' hk' => absurd hk' (Nat.not_lt_zero k') }
  free :=
    { two_le := by decide
      lt_clustersPerFat := by decide
      free := by decide +kernel
      before := fun c htwo hlt => by
        have h23 : ¬ treeVolume.IsFree 2 ∧ ¬ treeVolume.IsFree 3 := by decide +kernel
        rcases show c = 2 ∨ c = 3 by omega with rfl | rfl
        · exact h23.1
        · exact h23.2 }

end FAT32

end CrosKernel.Fs
