import CrosKernel.Fs.BootSector
import CrosKernel.Lib.CallGraph

/-!
# Mounting a volume

`FAT32::init` builds the tree of entries by recursion. The walk along a chain and the descent into a
directory are recursions whose calls are read from the disk. `init_returns_iff` says on which disks
the constructor of the root entry returns: no chain and no directory may come back to itself.
-/

namespace CrosKernel.Fs

open Lib Relation

theorem Buffer.bytesToNat_lt {buffer : Buffer} {index size value : Nat}
    (h : buffer.bytesToNat index size = some value) : value < 256 ^ size := by
  induction size generalizing index value with
  | zero =>
      obtain rfl : 0 = value := Option.some.inj h
      exact Nat.one_pos
  | succ size ih =>
      simp only [Buffer.bytesToNat, Option.bind_eq_bind, Option.bind_eq_some_iff] at h
      obtain ⟨byte, -, rest, hrest, hvalue⟩ := h
      obtain rfl : byte.toNat + 256 * rest = value := Option.some.inj hvalue
      have hbyte := byte.toNat_lt
      have hlt := ih hrest
      rw [Nat.pow_succ]
      omega

theorem Buffer.bytesToNat_isSome {buffer : Buffer} {index size : Nat} :
    (buffer.bytesToNat index size).isSome ↔ size = 0 ∨ index + size ≤ buffer.size := by
  induction size generalizing index with
  | zero => simp [Buffer.bytesToNat]
  | succ size ih =>
      unfold Buffer.bytesToNat Buffer.get
      by_cases h : index < buffer.size
      · have hrest := @ih (index + 1)
        cases hread : buffer.bytesToNat (index + 1) size with
        | none =>
            rw [hread] at hrest
            simp [h] at hrest ⊢
            omega
        | some rest =>
            rw [hread] at hrest
            simp [h] at hrest ⊢
            omega
      · simp [h]
        omega

namespace FAT32

variable {fs fs' : FAT32} {a b c d first fuel n : Nat} {pushed : List Nat}

/-! ## The walk along a chain -/

/-- The word of the cluster `c` is the allocated cluster `d`, so the walk goes on there. -/
def Follows (fs : FAT32) (c d : Nat) : Prop :=
  fs.clusterWord c = some d ∧ fs.checkFatEntryType d = .ALLOCATED

/-- `find_cluster_allocations` returns the cluster `c` for an entry with the first cluster
`first`. The word that ends the walk is returned, too, unless it is that of the first cluster. -/
def Collects (fs : FAT32) (first c : Nat) : Prop :=
  first ≠ 0 ∧ (c = first ∨ (∃ d, fs.Follows first d) ∧
    ∃ d, ReflTransGen fs.Follows first d ∧ fs.clusterWord d = some c)

/-- The loop returns on the fuel `n` when it is entered at the cluster `c`. -/
def LoopReturns (fs : FAT32) (n c : Nat) : Prop :=
  (fs.findClusterLoop n .ALLOCATED (fs.di.read (fs.clusterFatSectorOffset c)) c).isSome

theorem Follows.eq (h : fs.Follows c d) (h' : fs.Follows c a) : d = a :=
  Option.some.inj (h.1.symm.trans h'.1)

/-- The loop is a recursion that follows the words of the table. -/
theorem loop_isRecursion (fs : FAT32) :
    IsRecursion fs.LoopReturns (fun n c => 0 < n ∧ (fs.clusterWord c).isSome) fs.Follows where
  zero := fun _ => Bool.false_ne_true
  succ := by
    intro n c
    unfold LoopReturns
    rw [findClusterLoop_allocated]
    cases hword : fs.clusterWord c with
    | none => simp
    | some d =>
        have hfollows : ∀ y, fs.Follows c y ↔ d = y ∧ fs.checkFatEntryType d = .ALLOCATED := by
          intro y
          rw [Follows, hword, Option.some.injEq]
          exact and_congr_right fun heq => by rw [heq]
        cases n with
        | zero => simp [findClusterLoop]
        | succ n =>
            by_cases htype : fs.checkFatEntryType d = .ALLOCATED
            · simp only [hfollows, htype, Option.bind_eq_bind, Option.bind_some, and_true,
                forall_eq']
              generalize fs.findClusterLoop (n + 1) .ALLOCATED _ d = walk
              cases walk <;> simp
            · simp [hfollows, htype, findClusterLoop_ended htype]
  mono := fun n c h => ⟨Nat.succ_pos n, h.2⟩
  finite := by
    intro c
    refine Set.Subsingleton.finite ?_
    intro d hd a ha
    exact Follows.eq hd ha

/-- The loop pushes the cluster that it is entered at and the words on its way. -/
theorem mem_findClusterLoop
    (h : fs.findClusterLoop n .ALLOCATED (fs.di.read (fs.clusterFatSectorOffset c)) c =
      some pushed) :
    a ∈ pushed ↔ a = c ∨ ∃ d, ReflTransGen fs.Follows c d ∧ fs.clusterWord d = some a := by
  induction n generalizing c pushed with
  | zero => cases h
  | succ n ih =>
      rw [findClusterLoop_allocated] at h
      simp only [Option.bind_eq_bind, Option.bind_eq_some_iff] at h
      obtain ⟨d, hword, rest, hrest, hpushed⟩ := h
      obtain rfl : c :: rest = pushed := Option.some.inj hpushed
      rw [List.mem_cons]
      refine or_congr_right ?_
      by_cases htype : fs.checkFatEntryType d = .ALLOCATED
      · have hcd : fs.Follows c d := ⟨hword, htype⟩
        rw [htype] at hrest
        rw [ih hrest]
        constructor
        · rintro (rfl | ⟨x, hdx, hx⟩)
          · exact ⟨c, .refl, hword⟩
          · exact ⟨x, .head hcd hdx, hx⟩
        · rintro ⟨x, hcx, hx⟩
          rcases hcx.cases_head with rfl | ⟨y, hcy, hyx⟩
          · exact .inl (Option.some.inj (hx.symm.trans hword))
          · obtain rfl := hcd.eq hcy
            exact .inr ⟨x, hyx, hx⟩
      · -- the word of `c` ends the walk
        cases n with
        | zero => cases hrest
        | succ n =>
            rw [findClusterLoop_ended htype, Option.some.injEq] at hrest
            obtain rfl := hrest
            rw [List.mem_singleton]
            constructor
            · rintro rfl
              exact ⟨c, .refl, hword⟩
            · rintro ⟨x, hcx, hx⟩
              rcases hcx.cases_head with rfl | ⟨y, hcy, -⟩
              · exact Option.some.inj (hx.symm.trans hword)
              · obtain rfl := Option.some.inj (hword.symm.trans hcy.1)
                exact absurd hcy.2 htype

/-- The walk along the chain of `first` comes to an end, and all words on its way are inside the
buffers of their sectors. -/
structure ChainEnds (fs : FAT32) (first : Nat) : Prop where
  acyclic : AcyclicFrom fs.Follows first
  word : ∀ d, ReflTransGen fs.Follows first d → (fs.clusterWord d).isSome

theorem Follows.lt (h : fs.Follows c d) : d < 2 ^ 32 :=
  Buffer.bytesToNat_lt h.1

theorem loopReturns_iff : (∃ n, fs.LoopReturns n first) ↔ fs.ChainEnds first := by
  have hacc : Acc (flip fs.Follows) first ↔ AcyclicFrom fs.Follows first :=
    acc_iff_acyclicFrom (Set.finite_lt_nat (2 ^ 32)) fun _ _ h => h.lt
  rw [fs.loop_isRecursion.exists_returns_iff, hacc]
  constructor
  · rintro ⟨hacyclic, hready⟩
    refine ⟨hacyclic, fun d hd => ?_⟩
    obtain ⟨n, -, hword⟩ := hready d hd
    exact hword
  · intro h
    exact ⟨h.acyclic, fun d hd => ⟨1, Nat.one_pos, h.word d hd⟩⟩

/-- Without an allocated word for its first cluster the chain ends there. -/
theorem chainEnds_of_not_entered (hword : fs.clusterWord first = some d)
    (htype : fs.checkFatEntryType d ≠ .ALLOCATED) : fs.ChainEnds first := by
  have hstuck : ∀ y, ¬ fs.Follows first y := by
    intro y hy
    obtain rfl := Option.some.inj (hword.symm.trans hy.1)
    exact htype hy.2
  have hreach : ∀ y, ReflTransGen fs.Follows first y → y = first := by
    intro y hy
    rcases hy.cases_head with rfl | ⟨z, hz, -⟩
    · rfl
    · exact absurd hz (hstuck z)
  refine ⟨fun y hy hloop => ?_, fun y hy => ?_⟩
  · obtain rfl := hreach y hy
    obtain ⟨z, hz, -⟩ := TransGen.head'_iff.1 hloop
    exact hstuck z hz
  · obtain rfl := hreach y hy
    rw [hword]
    rfl

/-! ## The clusters of an entry -/

theorem clusterAllocations_zero (fs : FAT32) (fuel : Nat) :
    fs.clusterAllocations fuel 0 = some [] := rfl

theorem clusterAllocations_eq (hfirst : first ≠ 0) (hword : fs.clusterWord first = some d) :
    fs.clusterAllocations fuel first = fs.findClusterLoop fuel (fs.checkFatEntryType d)
      (fs.di.read (fs.clusterFatSectorOffset first)) first := by
  rw [clusterWord] at hword
  simp [clusterAllocations, hfirst, hword]

/-- `find_cluster_allocations` returns for the first cluster `first` when it is 0 or its chain
ends. -/
theorem clusterAllocations_returns_iff :
    (∃ n, (fs.clusterAllocations n first).isSome) ↔ (first ≠ 0 → fs.ChainEnds first) := by
  by_cases hfirst : first = 0
  · subst hfirst
    simp [clusterAllocations_zero]
  · simp only [hfirst, ne_eq, not_false_eq_true, true_implies]
    cases hword : fs.clusterWord first with
    | none =>
        have hnone : ∀ n, fs.clusterAllocations n first = none := by
          intro n
          rw [clusterWord] at hword
          simp [clusterAllocations, hfirst, hword]
        refine iff_of_false (by simp [hnone]) fun h => ?_
        have hsome := h.word first .refl
        rw [hword] at hsome
        cases hsome
    | some d =>
        by_cases htype : fs.checkFatEntryType d = .ALLOCATED
        · simp only [clusterAllocations_eq hfirst hword, htype]
          exact loopReturns_iff
        · refine iff_of_true ⟨1, ?_⟩ (chainEnds_of_not_entered hword htype)
          rw [clusterAllocations_eq hfirst hword, findClusterLoop_ended htype]
          rfl

theorem clusterAllocations_mono (h : (fs.clusterAllocations n first).isSome) :
    (fs.clusterAllocations (n + 1) first).isSome := by
  by_cases hfirst : first = 0
  · subst hfirst
    rfl
  · cases hword : fs.clusterWord first with
    | none =>
        rw [clusterWord] at hword
        simp [clusterAllocations, hfirst, hword] at h
    | some d =>
        rw [clusterAllocations_eq hfirst hword] at h ⊢
        obtain ⟨pushed, hpushed⟩ := Option.isSome_iff_exists.1 h
        rw [findClusterLoop_add 1 hpushed]
        rfl

theorem mem_clusterAllocations (h : fs.clusterAllocations n first = some pushed) :
    c ∈ pushed ↔ fs.Collects first c := by
  by_cases hfirst : first = 0
  · subst hfirst
    obtain rfl : [] = pushed := Option.some.inj h
    simp [Collects]
  · cases hword : fs.clusterWord first with
    | none =>
        rw [clusterWord] at hword
        simp [clusterAllocations, hfirst, hword] at h
    | some d =>
        rw [clusterAllocations_eq hfirst hword] at h
        have hfollows : (∃ y, fs.Follows first y) ↔ fs.checkFatEntryType d = .ALLOCATED := by
          simp [Follows, hword]
        rw [Collects, hfollows]
        by_cases htype : fs.checkFatEntryType d = .ALLOCATED
        · rw [htype] at h
          simp [mem_findClusterLoop h, hfirst, htype]
        · cases n with
          | zero => cases h
          | succ n =>
              rw [findClusterLoop_ended htype, Option.some.injEq] at h
              subst h
              simp [hfirst, htype]

/-! ## Slots -/

/-- The first `size` bytes of the slot `a` are inside the buffer of its sector. -/
def InBuffer (fs : FAT32) (a size : Nat) : Prop :=
  a % fs.bytesPerSector + size ≤ fs.di.bytesPerSector

theorem parseAttribute_isSome : (fs.parseAttribute a).isSome ↔ fs.InBuffer a 12 := by
  unfold parseAttribute InBuffer Buffer.get
  by_cases h : 11 + a % fs.bytesPerSector < fs.di.bytesPerSector
  · simp [DiskInterface.read, h]
    omega
  · simp [DiskInterface.read, h]
    omega

theorem parseChars_isSome {buffer : Buffer} {offset count : Nat} {name : Str} :
    (parseChars buffer offset count name).isSome ↔ count = 0 ∨ offset + count ≤ buffer.size := by
  induction count generalizing offset name with
  | zero => simp [parseChars]
  | succ count ih =>
      unfold parseChars Buffer.get
      by_cases h : offset < buffer.size
      · simp [h, ih]
        omega
      · simp [h]
        omega

theorem parseShortFileName_isSome : (fs.parseShortFileName a).isSome ↔ fs.InBuffer a 8 := by
  unfold parseShortFileName InBuffer
  simp [parseChars_isSome, DiskInterface.read]

/-- The first cluster that a slot names. -/
def firstCluster (fs : FAT32) (a : Nat) : Option Nat := do
  let buffer := fs.di.read (a / fs.bytesPerSector)
  let firstClusterHigh ← buffer.bytesToShort (20 + a % fs.bytesPerSector)
  let firstClusterLow ← buffer.bytesToShort (26 + a % fs.bytesPerSector)
  pure (firstClusterHigh * 2 ^ 16 ||| firstClusterLow)

/-- The cluster at which the chain of the entry of a slot starts, 0 for none. -/
def entryCluster (fs : FAT32) (a : Nat) : Option Nat := do
  match ← fs.parseAttribute a with
  | .ROOT => some fs.reservedFatEntries
  | .DIRECTORY | .FILE => fs.firstCluster a
  | .LONG_NAME | .EMPTY => some 0

/-- The slot `a` holds the root or a directory. -/
def IsDirectory (fs : FAT32) (a : Nat) : Prop :=
  fs.parseAttribute a = some .ROOT ∨ fs.parseAttribute a = some .DIRECTORY

/-- The slot `a` holds a file or a directory other than the two dot entries. -/
def IsSubDir (fs : FAT32) (a : Nat) : Prop :=
  (fs.parseAttribute a = some .DIRECTORY ∨ fs.parseAttribute a = some .FILE) ∧
    ∀ name, fs.parseShortFileName a = some name → name ≠ [0x2E] ∧ name ≠ [0x2E, 0x2E]

/-- `find_sub_dir_entries` looks at the slot `b` for the directory in the slot `a`. -/
def SlotOf (fs : FAT32) (a b : Nat) : Prop :=
  fs.IsDirectory a ∧ ∃ first c, fs.entryCluster a = some first ∧ fs.Collects first c ∧
    b ∈ fs.slotOffsets c

/-- The constructor of the entry in the slot `a` constructs an entry for the slot `b`. -/
def SubEntry (fs : FAT32) (a b : Nat) : Prop := fs.SlotOf a b ∧ fs.IsSubDir b

/-- What the constructor reads of the slot `a` itself is inside the buffers. -/
def SlotInBuffer (fs : FAT32) (a : Nat) : Prop :=
  match fs.parseAttribute a with
  | none => False
  | some .ROOT => fs.InBuffer a 32
  | some .DIRECTORY | some .FILE => fs.InBuffer a 32 ∧ (fs.findLongNameEntries a []).isSome
  | some .LONG_NAME => (fs.parseLongName a).isSome
  | some .EMPTY => (fs.clearEntry a).isSome

/-! ## The constructor -/

theorem parseRootEntry_isSome :
    (fs.parseRootEntry n a).isSome ↔
      (fs.clusterAllocations n fs.reservedFatEntries).isSome ∧ fs.InBuffer a 32 := by
  have hsize : ((fs.di.read (a / fs.bytesPerSector)).bytesToInt
      (28 + a % fs.bytesPerSector)).isSome ↔ fs.InBuffer a 32 := by
    rw [Buffer.bytesToInt, Buffer.bytesToNat_isSome]
    show 4 = 0 ∨ 28 + a % fs.bytesPerSector + 4 ≤ fs.di.bytesPerSector ↔
      a % fs.bytesPerSector + 32 ≤ fs.di.bytesPerSector
    omega
  rw [← hsize, parseRootEntry]
  cases fs.clusterAllocations n fs.reservedFatEntries with
  | none => simp
  | some allocations =>
      cases (fs.di.read (a / fs.bytesPerSector)).bytesToInt (28 + a % fs.bytesPerSector) <;>
        simp

theorem parseRootEntry_fatAllocations {e : SlotEntry} (h : fs.parseRootEntry n a = some e) :
    fs.clusterAllocations n fs.reservedFatEntries = some e.fatAllocations := by
  simp only [parseRootEntry, Option.bind_eq_bind, Option.bind_eq_some_iff] at h
  obtain ⟨allocations, hallocations, size, -, he⟩ := h
  obtain rfl := Option.some.inj he
  exact hallocations

theorem findLongNameEntries_isSome (name : Str) :
    (fs.findLongNameEntries a name).isSome ↔ (fs.findLongNameEntries a []).isSome := by
  unfold findLongNameEntries
  cases fs.findLongNameLoop (a / fs.bytesPerCluster : Nat) (a + 1)
      ((a : Int) - fs.bytesPerDirEntry) with
  | none => rfl
  | some longNames => cases longNames <;> rfl

theorem parseDirEntry_eq_some {type : EntryAttribute} {e : SlotEntry}
    (h : fs.parseDirEntry n type a = some e) :
    ∃ first, fs.firstCluster a = some first ∧
      fs.clusterAllocations n first = some e.fatAllocations ∧
      fs.InBuffer a 32 ∧ (fs.findLongNameEntries a []).isSome := by
  simp only [parseDirEntry, Option.bind_eq_bind, Option.bind_eq_some_iff] at h
  obtain ⟨name, -, extension, -, high, hhigh, low, hlow, allocations, hallocations, size, hsize,
    longNames, hlongNames, he⟩ := h
  obtain rfl := Option.some.inj he
  refine ⟨high * 2 ^ 16 ||| low, by simp [firstCluster, hhigh, hlow], hallocations, ?_, ?_⟩
  · have hread := Buffer.bytesToNat_isSome.1 (Option.isSome_iff_exists.2 ⟨size, hsize⟩)
    have hbuffer : 28 + a % fs.bytesPerSector + 4 ≤ fs.di.bytesPerSector :=
      hread.resolve_left (by decide)
    unfold InBuffer
    omega
  · exact (findLongNameEntries_isSome name).1 (Option.isSome_iff_exists.2 ⟨longNames, hlongNames⟩)

theorem parseDirEntry_isSome (type : EntryAttribute) :
    (fs.parseDirEntry n type a).isSome ↔
      (fs.InBuffer a 32 ∧ (fs.findLongNameEntries a []).isSome) ∧
        ∃ first, fs.firstCluster a = some first ∧ (fs.clusterAllocations n first).isSome := by
  constructor
  · intro h
    obtain ⟨e, he⟩ := Option.isSome_iff_exists.1 h
    obtain ⟨first, hfirst, hpushed, hbuffer, hlong⟩ := parseDirEntry_eq_some he
    exact ⟨⟨hbuffer, hlong⟩, first, hfirst, Option.isSome_iff_exists.2 ⟨_, hpushed⟩⟩
  rintro ⟨⟨hslot, hlong⟩, first, hfirst, hallocations⟩
  obtain ⟨name, hname⟩ := Option.isSome_iff_exists.1
    (parseShortFileName_isSome.2 (show fs.InBuffer a 8 by unfold InBuffer at *; omega))
  obtain ⟨extension, hextension⟩ : ∃ extension, parseChars (fs.di.read (a / fs.bytesPerSector))
      (8 + a % fs.bytesPerSector) 3 [] = some extension := by
    refine Option.isSome_iff_exists.1 (parseChars_isSome.2 (.inr ?_))
    show 8 + a % fs.bytesPerSector + 3 ≤ fs.di.bytesPerSector
    unfold InBuffer at hslot
    omega
  obtain ⟨size, hsize⟩ : ∃ size, (fs.di.read (a / fs.bytesPerSector)).bytesToInt
      (28 + a % fs.bytesPerSector) = some size := by
    refine Option.isSome_iff_exists.1 (Buffer.bytesToNat_isSome.2 (.inr ?_))
    show 28 + a % fs.bytesPerSector + 4 ≤ fs.di.bytesPerSector
    unfold InBuffer at hslot
    omega
  obtain ⟨longNames, hlongNames⟩ :=
    Option.isSome_iff_exists.1 ((findLongNameEntries_isSome name).2 hlong)
  obtain ⟨allocations, hallocations⟩ := Option.isSome_iff_exists.1 hallocations
  simp only [firstCluster, Option.bind_eq_bind, Option.bind_eq_some_iff] at hfirst
  obtain ⟨high, hhigh, low, hlow, hfirst⟩ := hfirst
  obtain rfl : high * 2 ^ 16 ||| low = first := Option.some.inj hfirst
  let e : SlotEntry :=
    { name := longNames.1, extension := extension, type := type
      fileSizeBytes := toSigned size, byteOffset := a, order := -1
      longNameEntries := longNames.2, fatAllocations := allocations }
  refine Option.isSome_iff_exists.2 ⟨e, ?_⟩
  refine Option.bind_eq_some_iff.2 ⟨name, hname, ?_⟩
  refine Option.bind_eq_some_iff.2 ⟨extension, hextension, ?_⟩
  refine Option.bind_eq_some_iff.2 ⟨high, hhigh, ?_⟩
  refine Option.bind_eq_some_iff.2 ⟨low, hlow, ?_⟩
  refine Option.bind_eq_some_iff.2 ⟨allocations, hallocations, ?_⟩
  refine Option.bind_eq_some_iff.2 ⟨size, hsize, ?_⟩
  exact Option.bind_eq_some_iff.2 ⟨longNames, hlongNames, rfl⟩

variable {construct : FAT32 → Nat → Option (FAT32 × EntryTree)} {slots : List Nat}

theorem isSubDir_iff {type : EntryAttribute} {name : Str} (htype : fs.parseAttribute a = some type)
    (hname : fs.parseShortFileName a = some name) :
    fs.IsSubDir a ↔ (type = .DIRECTORY ∨ type = .FILE) ∧ name ≠ [0x2E] ∧ name ≠ [0x2E, 0x2E] := by
  simp [IsSubDir, htype, hname]

/-- When constructing an entry leaves the volume as it is, the loop over the slots does. -/
theorem findSubDirEntriesLoop_fs {r : FAT32 × List EntryTree}
    (hsame : ∀ b r, fs.IsSubDir b → construct fs b = some r → r.1 = fs)
    (h : findSubDirEntriesLoop construct fs slots = some r) : r.1 = fs := by
  induction slots generalizing r with
  | nil =>
      obtain rfl := Option.some.inj h
      rfl
  | cons b rest ih =>
      simp only [findSubDirEntriesLoop, Option.bind_eq_bind, Option.bind_eq_some_iff] at h
      obtain ⟨type, htype, name, hname, h⟩ := h
      split at h
      next hsub =>
        simp only [Option.bind_eq_some_iff] at h
        obtain ⟨⟨fs₁, tree⟩, hnew, ⟨fs₂, trees⟩, hrest, hr⟩ := h
        obtain rfl := Option.some.inj hr
        obtain rfl : fs₁ = fs := hsame b _ ((isSubDir_iff htype hname).2 hsub) hnew
        exact ih (r := (fs₂, trees)) hrest
      next => exact ih h

/-- The loop over the slots returns when it can read them and all constructors that it calls
return. -/
theorem findSubDirEntriesLoop_isSome
    (hsame : ∀ b r, fs.IsSubDir b → construct fs b = some r → r.1 = fs) :
    (findSubDirEntriesLoop construct fs slots).isSome ↔
      ∀ b ∈ slots, fs.InBuffer b 12 ∧ (fs.IsSubDir b → (construct fs b).isSome) := by
  induction slots with
  | nil => simp [findSubDirEntriesLoop]
  | cons b rest ih =>
      rw [List.forall_mem_cons, ← ih]
      by_cases hbuffer : fs.InBuffer b 12
      · obtain ⟨type, htype⟩ := Option.isSome_iff_exists.1 (parseAttribute_isSome.2 hbuffer)
        obtain ⟨name, hname⟩ := Option.isSome_iff_exists.1
          (parseShortFileName_isSome.2 (show fs.InBuffer b 8 by unfold InBuffer at *; omega))
        simp only [findSubDirEntriesLoop, htype, hname, Option.bind_eq_bind, Option.bind_some,
          isSubDir_iff htype hname, hbuffer, true_and]
        split
        next hsub =>
          cases hnew : construct fs b with
          | none => simp [hsub]
          | some r =>
              obtain ⟨fs₁, tree⟩ := r
              obtain rfl : fs₁ = fs := hsame b _ ((isSubDir_iff htype hname).2 hsub) hnew
              cases hloop : findSubDirEntriesLoop construct fs₁ rest <;> simp [hsub, hloop]
        next hsub => simp [hsub]
      · have hnone : fs.parseAttribute b = none := by
          rw [← Option.not_isSome_iff_eq_none, parseAttribute_isSome]
          exact hbuffer
        simp [findSubDirEntriesLoop, hnone, hbuffer]

/-- Only the constructor of an empty entry writes to the disk. -/
theorem newEntry_fs {r : FAT32 × EntryTree} (hne : fs.parseAttribute a ≠ some .EMPTY)
    (h : newEntry n fs a = some r) : r.1 = fs := by
  induction n generalizing a r with
  | zero => cases h
  | succ n ih =>
      have hsame : ∀ b r, fs.IsSubDir b → newEntry n fs b = some r → r.1 = fs := by
        intro b r hsub hnew
        refine ih ?_ hnew
        rcases hsub.1 with hdir | hfile
        · simp [hdir]
        · simp [hfile]
      simp only [newEntry, Option.bind_eq_bind, Option.bind_eq_some_iff] at h
      obtain ⟨type, htype, h⟩ := h
      cases type with
      | ROOT =>
          simp only [Option.bind_eq_some_iff] at h
          obtain ⟨e, -, ⟨fs₁, trees⟩, hloop, hr⟩ := h
          obtain rfl := Option.some.inj hr
          exact findSubDirEntriesLoop_fs hsame hloop
      | DIRECTORY =>
          simp only [Option.bind_eq_some_iff] at h
          obtain ⟨e, -, ⟨fs₁, trees⟩, hloop, hr⟩ := h
          obtain rfl := Option.some.inj hr
          exact findSubDirEntriesLoop_fs hsame hloop
      | FILE =>
          simp only [Option.bind_eq_some_iff] at h
          obtain ⟨e, -, hr⟩ := h
          obtain rfl := Option.some.inj hr
          rfl
      | LONG_NAME =>
          simp only [Option.bind_eq_some_iff] at h
          obtain ⟨l, -, hr⟩ := h
          obtain rfl := Option.some.inj hr
          rfl
      | EMPTY => exact absurd htype hne

theorem newEntry_subDir_fs {r : FAT32 × EntryTree} (hsub : fs.IsSubDir b)
    (h : newEntry n fs b = some r) : r.1 = fs := by
  refine newEntry_fs ?_ h
  rcases hsub.1 with hdir | hfile
  · simp [hdir]
  · simp [hfile]

/-- The slots of all clusters that FAT words and slots can name. -/
def allSlots (fs : FAT32) : Set Nat :=
  {b | ∃ c, c < 2 ^ 32 + fs.reservedFatEntries + 1 ∧ b ∈ fs.slotOffsets c}

theorem allSlots_finite (fs : FAT32) : fs.allSlots.Finite := by
  have heq : fs.allSlots = ⋃ c ∈ {c | c < 2 ^ 32 + fs.reservedFatEntries + 1},
      {b | b ∈ fs.slotOffsets c} := by
    ext b
    simp [allSlots]
  rw [heq]
  exact (Set.finite_lt_nat _).biUnion fun c _ => List.finite_toSet (fs.slotOffsets c)

theorem entryCluster_lt (h : fs.entryCluster a = some first) :
    first < 2 ^ 32 + fs.reservedFatEntries + 1 := by
  simp only [entryCluster, Option.bind_eq_bind, Option.bind_eq_some_iff] at h
  obtain ⟨type, -, h⟩ := h
  have hnumber (hfirst : fs.firstCluster a = some first) : first < 2 ^ 32 := by
    simp only [firstCluster, Option.bind_eq_bind, Option.bind_eq_some_iff] at hfirst
    obtain ⟨high, hhigh, low, hlow, hfirst⟩ := hfirst
    obtain rfl : high * 2 ^ 16 ||| low = first := Option.some.inj hfirst
    have hhigh := Buffer.bytesToNat_lt hhigh
    have hlow := Buffer.bytesToNat_lt hlow
    exact Nat.or_lt_two_pow (by omega) (by omega)
  cases type with
  | ROOT =>
      obtain rfl := Option.some.inj h
      omega
  | DIRECTORY =>
      have hlt := hnumber h
      omega
  | FILE =>
      have hlt := hnumber h
      omega
  | LONG_NAME =>
      obtain rfl := Option.some.inj h
      omega
  | EMPTY =>
      obtain rfl := Option.some.inj h
      omega

theorem SubEntry.mem_allSlots (h : fs.SubEntry a b) : b ∈ fs.allSlots := by
  obtain ⟨⟨-, first, c, hfirst, ⟨-, hc⟩, hb⟩, -⟩ := h
  refine ⟨c, ?_, hb⟩
  rcases hc with rfl | ⟨-, d, -, hword⟩
  · exact entryCluster_lt hfirst
  · have hlt : c < 2 ^ 32 := Buffer.bytesToNat_lt hword
    omega

/-- What the constructor on the fuel `n` needs besides the constructors that it calls. -/
def EntryReady (fs : FAT32) (n a : Nat) : Prop :=
  fs.SlotInBuffer a ∧ (∀ b, fs.SlotOf a b → fs.InBuffer b 12) ∧
    ∃ first, fs.entryCluster a = some first ∧ (fs.clusterAllocations n first).isSome

/-- `find_sub_dir_entries` for a directory whose clusters were collected. -/
theorem findSubDirEntries_isSome (hdir : fs.IsDirectory a) (hfirst : fs.entryCluster a = some first)
    (hpushed : fs.clusterAllocations n first = some pushed) :
    (findSubDirEntriesLoop (newEntry n) fs (pushed.flatMap fs.slotOffsets)).isSome ↔
      (∀ b, fs.SlotOf a b → fs.InBuffer b 12) ∧
        ∀ b, fs.SubEntry a b → (newEntry n fs b).isSome := by
  have hslot : ∀ b, b ∈ pushed.flatMap fs.slotOffsets ↔ fs.SlotOf a b := by
    intro b
    rw [List.mem_flatMap]
    constructor
    · rintro ⟨c, hc, hb⟩
      exact ⟨hdir, first, c, hfirst, (mem_clusterAllocations hpushed).1 hc, hb⟩
    · rintro ⟨-, first', c, hfirst', hc, hb⟩
      obtain rfl := Option.some.inj (hfirst.symm.trans hfirst')
      exact ⟨c, (mem_clusterAllocations hpushed).2 hc, hb⟩
  rw [findSubDirEntriesLoop_isSome fun b r hsub h => newEntry_subDir_fs hsub h]
  simp only [hslot]
  constructor
  · intro h
    exact ⟨fun b hb => (h b hb).1, fun b hb => (h b hb.1).2 hb.2⟩
  · rintro ⟨hbuffer, hnew⟩ b hb
    exact ⟨hbuffer b hb, fun hsub => hnew b ⟨hb, hsub⟩⟩

/-- Constructing the entry of a directory whose slot is parsed by `parse`. -/
theorem newDirectory_isSome {parse : Option SlotEntry} {readable : Prop} (hdir : fs.IsDirectory a)
    (hsome : parse.isSome ↔ readable ∧
      ∃ first, fs.entryCluster a = some first ∧ (fs.clusterAllocations n first).isSome)
    (hpushed : ∀ e, parse = some e → ∃ first, fs.entryCluster a = some first ∧
      fs.clusterAllocations n first = some e.fatAllocations) :
    (parse.bind fun e =>
        (findSubDirEntriesLoop (newEntry n) fs (e.fatAllocations.flatMap fs.slotOffsets)).bind
          fun r => pure (r.1, EntryTree.node e r.2)).isSome ↔
      (readable ∧ (∀ b, fs.SlotOf a b → fs.InBuffer b 12) ∧
        ∃ first, fs.entryCluster a = some first ∧ (fs.clusterAllocations n first).isSome) ∧
      ∀ b, fs.SubEntry a b → (newEntry n fs b).isSome := by
  cases hparse : parse with
  | none =>
      rw [hparse, Option.isSome_none, Bool.false_eq_true, false_iff] at hsome
      refine iff_of_false Bool.false_ne_true ?_
      rintro ⟨⟨hreadable, -, hfirst⟩, -⟩
      exact hsome ⟨hreadable, hfirst⟩
  | some e =>
      obtain ⟨hreadable, hready⟩ := hsome.1 (by rw [hparse]; rfl)
      obtain ⟨first, hfirst, hallocations⟩ := hpushed e hparse
      have hloop := findSubDirEntries_isSome hdir hfirst hallocations
      simp only [hreadable, hready, true_and, and_true]
      rw [← hloop, Option.bind_some]
      cases findSubDirEntriesLoop (newEntry n) fs (e.fatAllocations.flatMap fs.slotOffsets) <;> rfl

/-- A round of the constructor on the fuel `n + 1`. -/
theorem newEntry_isSome (fs : FAT32) (n a : Nat) :
    (newEntry (n + 1) fs a).isSome ↔
      fs.EntryReady n a ∧ ∀ b, fs.SubEntry a b → (newEntry n fs b).isSome := by
  unfold EntryReady SlotInBuffer
  have hslot (hroot : fs.parseAttribute a ≠ some .ROOT)
      (hdir : fs.parseAttribute a ≠ some .DIRECTORY) (b : Nat) :
      ¬ fs.SlotOf a b ∧ ¬ fs.SubEntry a b :=
    ⟨fun h => h.1.elim hroot hdir, fun h => h.1.1.elim hroot hdir⟩
  cases htype : fs.parseAttribute a with
  | none => simp [newEntry, htype]
  | some type =>
      have hparse := @parseDirEntry_isSome fs a n type
      cases type with
      | ROOT =>
          have hfirst : fs.entryCluster a = some fs.reservedFatEntries := by
            simp [entryCluster, htype]
          simp only [newEntry, htype, Option.bind_eq_bind, Option.bind_some]
          refine newDirectory_isSome (.inl htype) ?_ fun e he => ?_
          · simp [hfirst, parseRootEntry_isSome, and_comm]
          · exact ⟨_, hfirst, parseRootEntry_fatAllocations he⟩
      | DIRECTORY =>
          have hcluster : fs.entryCluster a = fs.firstCluster a := by simp [entryCluster, htype]
          simp only [newEntry, htype, Option.bind_eq_bind, Option.bind_some]
          refine newDirectory_isSome (.inr htype) ?_ fun e he => ?_
          · rw [hcluster, hparse]
          · obtain ⟨first, hfirst, hpushed, -⟩ := parseDirEntry_eq_some he
            exact ⟨first, hcluster.trans hfirst, hpushed⟩
      | FILE =>
          have hcluster : fs.entryCluster a = fs.firstCluster a := by simp [entryCluster, htype]
          have hnew : (newEntry (n + 1) fs a).isSome ↔ (fs.parseDirEntry n .FILE a).isSome := by
            simp only [newEntry, htype, Option.bind_eq_bind, Option.bind_some]
            cases fs.parseDirEntry n .FILE a <;> rfl
          rw [hnew, hparse, hcluster]
          simp [hslot, htype]
      | LONG_NAME =>
          simp only [newEntry, htype, Option.bind_eq_bind, Option.bind_some]
          cases fs.parseLongName a <;>
            simp [hslot, entryCluster, htype, clusterAllocations_zero]
      | EMPTY =>
          simp only [newEntry, htype, Option.bind_eq_bind, Option.bind_some]
          cases fs.clearEntry a <;> simp [hslot, entryCluster, htype, clusterAllocations_zero]

/-- The constructor is a recursion that descends into sub-directories. -/
theorem newEntry_isRecursion (fs : FAT32) :
    IsRecursion (fun n a => (newEntry n fs a).isSome) fs.EntryReady fs.SubEntry where
  zero := fun _ => Bool.false_ne_true
  succ := fs.newEntry_isSome
  mono := by
    rintro n a ⟨hslot, hslots, first, hfirst, hallocations⟩
    exact ⟨hslot, hslots, first, hfirst, clusterAllocations_mono hallocations⟩
  finite := fun a => (allSlots_finite fs).subset fun b hb => hb.mem_allSlots

/-- Everything that the constructor reads for the slot `a` is inside the buffers of the sectors. -/
def EntryInBuffer (fs : FAT32) (a : Nat) : Prop :=
  fs.SlotInBuffer a ∧ (∀ b, fs.SlotOf a b → fs.InBuffer b 12) ∧
    ∃ first, fs.entryCluster a = some first ∧
      (first ≠ 0 → ∀ d, ReflTransGen fs.Follows first d → (fs.clusterWord d).isSome)

/-- From the slot `a` no directory is reached from itself, and neither is a cluster of a chain. All
that is read on the way is inside the buffers. -/
structure TreeEnds (fs : FAT32) (a : Nat) : Prop where
  directories : AcyclicFrom fs.SubEntry a
  chains : ∀ b first, ReflTransGen fs.SubEntry a b → fs.entryCluster b = some first → first ≠ 0 →
    AcyclicFrom fs.Follows first
  inBuffer : ∀ b, ReflTransGen fs.SubEntry a b → fs.EntryInBuffer b

theorem entryReady_iff :
    (∃ n, fs.EntryReady n a) ↔ fs.EntryInBuffer a ∧
      ∀ first, fs.entryCluster a = some first → first ≠ 0 → AcyclicFrom fs.Follows first := by
  constructor
  · rintro ⟨n, hslot, hslots, first, hfirst, hallocations⟩
    have hends := clusterAllocations_returns_iff.1 ⟨n, hallocations⟩
    refine ⟨⟨hslot, hslots, first, hfirst, fun hne => (hends hne).word⟩, ?_⟩
    intro first' hfirst' hne
    obtain rfl := Option.some.inj (hfirst.symm.trans hfirst')
    exact (hends hne).acyclic
  · rintro ⟨⟨hslot, hslots, first, hfirst, hword⟩, hacyclic⟩
    obtain ⟨n, hallocations⟩ := clusterAllocations_returns_iff.2 fun hne =>
      ⟨hacyclic first hfirst hne, hword hne⟩
    exact ⟨n, hslot, hslots, first, hfirst, hallocations⟩

/-- The constructor of the entry in the slot `a` returns exactly when the tree below it ends. -/
theorem newEntry_returns_iff : (∃ n, (newEntry n fs a).isSome) ↔ fs.TreeEnds a := by
  have hacc : Acc (flip fs.SubEntry) a ↔ AcyclicFrom fs.SubEntry a :=
    acc_iff_acyclicFrom (allSlots_finite fs) fun _ _ h => h.mem_allSlots
  rw [fs.newEntry_isRecursion.exists_returns_iff, hacc]
  simp only [entryReady_iff]
  constructor
  · rintro ⟨hdirectories, hready⟩
    exact ⟨hdirectories, fun b first hb => (hready b hb).2 first, fun b hb => (hready b hb).1⟩
  · intro h
    exact ⟨h.directories, fun b hb => ⟨h.inBuffer b hb, fun first => h.chains b first hb⟩⟩

/-- A disk of eight sectors. -/
private def diskOf (bytes : List (Nat × UInt8)) : DiskInterface where
  bytesPerSector := 512
  disk i := (bytes.lookup i).getD 0

/-- Its boot sector is that of `tinyBootSector`. The root entry is in the sector 2. -/
private def rootBytes : List (Nat × UInt8) :=
  [(11, 0), (12, 2), (13, 1), (14, 1), (16, 1), (32, 8), (36, 1), (1035, 8)]

/-- Here the word of the cluster 2 is 2. -/
private def loopDisk : DiskInterface := diskOf ((520, 2) :: rootBytes)

/-- What `FAT32::init` establishes when the boot sector names the sector size of the disk. -/
structure HasSlots (fs : FAT32) : Prop where
  bytesPerSector_eq : fs.bytesPerSector = 512
  disk_bytesPerSector_eq : fs.di.bytesPerSector = 512
  bytesPerFatEntry_eq : fs.bytesPerFatEntry = 4
  bytesPerDirEntry_eq : fs.bytesPerDirEntry = 32
  dvd_bytesPerCluster : 32 ∣ fs.bytesPerCluster

namespace HasSlots

theorem inBuffer (h : fs.HasSlots) (ha : 32 ∣ a) : fs.InBuffer a 32 := by
  unfold InBuffer
  rw [h.bytesPerSector_eq, h.disk_bytesPerSector_eq]
  omega

theorem parseAttribute_isSome (h : fs.HasSlots) (ha : 32 ∣ a) : (fs.parseAttribute a).isSome := by
  have hbuffer := h.inBuffer ha
  rw [FAT32.parseAttribute_isSome]
  unfold InBuffer at *
  omega

theorem clusterWord_isSome (h : fs.HasSlots) (c : Nat) : (fs.clusterWord c).isSome := by
  refine Buffer.bytesToNat_isSome.2 (.inr ?_)
  show fs.clusterFatIntOffset c + 4 ≤ fs.di.bytesPerSector
  unfold clusterFatIntOffset
  rw [h.bytesPerSector_eq, h.disk_bytesPerSector_eq, h.bytesPerFatEntry_eq]
  omega

theorem firstCluster_isSome (h : fs.HasSlots) (ha : 32 ∣ a) : (fs.firstCluster a).isSome := by
  have hbuffer := h.inBuffer ha
  unfold InBuffer at hbuffer
  have hshort (offset : Nat) (hoffset : offset + 2 ≤ 32) :
      ((fs.di.read (a / fs.bytesPerSector)).bytesToShort
        (offset + a % fs.bytesPerSector)).isSome := by
    refine Buffer.bytesToNat_isSome.2 (.inr ?_)
    show offset + a % fs.bytesPerSector + 2 ≤ fs.di.bytesPerSector
    omega
  obtain ⟨high, hhigh⟩ := Option.isSome_iff_exists.1 (hshort 20 (by omega))
  obtain ⟨low, hlow⟩ := Option.isSome_iff_exists.1 (hshort 26 (by omega))
  simp [firstCluster, hhigh, hlow]

end HasSlots

theorem parseNamePart_isSome {buffer : Buffer} {offset count : Nat} {name : Str}
    (h : offset + 2 * count ≤ buffer.size) : (parseNamePart buffer offset count name).isSome := by
  induction count generalizing offset name with
  | zero => rfl
  | succ count ih =>
      have hfirst : offset < buffer.size := by omega
      have hsecond : offset + 1 < buffer.size := by omega
      simp only [parseNamePart, Buffer.get, hfirst, hsecond, if_true, Option.bind_eq_bind,
        Option.bind_some]
      split
      · exact ih (by omega)
      · rfl

theorem clearLoop_isSome {buffer : Buffer} {offset count : Nat}
    (h : offset + count ≤ buffer.size) : (clearLoop buffer offset count).isSome := by
  induction count generalizing buffer offset with
  | zero => rfl
  | succ count ih =>
      have hoffset : offset < buffer.size := by omega
      simp only [clearLoop, Buffer.set, hoffset, if_true, Option.bind_eq_bind, Option.bind_some]
      exact ih (by simp only; omega)

namespace HasSlots

theorem parseLongName_isSome (h : fs.HasSlots) (ha : 32 ∣ a) : (fs.parseLongName a).isSome := by
  have hbuffer := h.inBuffer ha
  unfold InBuffer at hbuffer
  have hpart (offset count : Nat) (name : Str) (hoffset : offset + 2 * count ≤ 32) :
      ∃ part, parseNamePart (fs.di.read (a / fs.bytesPerSector)) (offset + a % fs.bytesPerSector)
        count name = some part := by
    refine Option.isSome_iff_exists.1 (parseNamePart_isSome ?_)
    show offset + a % fs.bytesPerSector + 2 * count ≤ fs.di.bytesPerSector
    omega
  obtain ⟨name₁, hname₁⟩ := hpart 1 5 [] (by omega)
  obtain ⟨name₂, hname₂⟩ := hpart 14 6 name₁ (by omega)
  obtain ⟨name₃, hname₃⟩ := hpart 28 2 name₂ (by omega)
  have hfirst : 0 + a % fs.bytesPerSector < (fs.di.read (a / fs.bytesPerSector)).size := by
    show _ < fs.di.bytesPerSector
    omega
  have hget : (fs.di.read (a / fs.bytesPerSector)).get (0 + a % fs.bytesPerSector) =
      some ((fs.di.read (a / fs.bytesPerSector)).data (0 + a % fs.bytesPerSector)) :=
    if_pos hfirst
  simp only [parseLongName, hget, hname₁, hname₂, hname₃, Option.bind_eq_bind, Option.bind_some]
  rfl

theorem clearEntry_isSome (h : fs.HasSlots) (ha : 32 ∣ a) : (fs.clearEntry a).isSome := by
  have hbuffer := h.inBuffer ha
  obtain ⟨buffer, hclear⟩ := Option.isSome_iff_exists.1 (clearLoop_isSome
    (show a % fs.bytesPerSector + fs.bytesPerDirEntry ≤ (fs.di.read (a / fs.bytesPerSector)).size by
      rw [h.bytesPerDirEntry_eq]
      exact hbuffer))
  simp [clearEntry, hclear]

/-- The walk back over long names stays inside the buffers, and the fuel that
`find_long_name_entries` starts it with is enough. -/
theorem findLongNameLoop_isSome (h : fs.HasSlots) {start search : Int} (hstart : 0 ≤ start)
    (hsearch : 32 ∣ search) (hpos : 0 < fuel) (hfuel : search + 1 < fuel) :
    (fs.findLongNameLoop start fuel search).isSome := by
  induction fuel generalizing search with
  | zero => exact absurd hpos (Nat.lt_irrefl 0)
  | succ fuel ih =>
      unfold findLongNameLoop
      split
      next hle =>
        have hdvd : 32 ∣ search.toNat := by omega
        obtain ⟨type, htype⟩ := Option.isSome_iff_exists.1 (h.parseAttribute_isSome hdvd)
        obtain ⟨longName, hlongName⟩ := Option.isSome_iff_exists.1 (h.parseLongName_isSome hdvd)
        have hnext : search - fs.bytesPerDirEntry + 1 < fuel := by
          rw [h.bytesPerDirEntry_eq]
          omega
        have hnextDvd : 32 ∣ search - (fs.bytesPerDirEntry : Int) := by
          rw [h.bytesPerDirEntry_eq]
          omega
        obtain ⟨rest, hrest⟩ := Option.isSome_iff_exists.1 (ih hnextDvd (by omega) hnext)
        cases type <;> simp [htype, hlongName, hrest]
      next => rfl

theorem findLongNameEntries_isSome (h : fs.HasSlots) (ha : 32 ∣ a) :
    (fs.findLongNameEntries a []).isSome := by
  have hdvd : 32 ∣ (a : Int) - (fs.bytesPerDirEntry : Int) := by
    rw [h.bytesPerDirEntry_eq]
    omega
  have hfuel : (a : Int) - fs.bytesPerDirEntry + 1 < (a + 1 : Nat) := by
    rw [h.bytesPerDirEntry_eq]
    omega
  obtain ⟨longNames, hlongNames⟩ := Option.isSome_iff_exists.1
    (h.findLongNameLoop_isSome (Int.natCast_nonneg (a / fs.bytesPerCluster)) hdvd
      (Nat.succ_pos a) hfuel)
  simp only [findLongNameEntries, hlongNames, Option.bind_eq_bind, Option.bind_some]
  split <;> rfl

theorem slotInBuffer (h : fs.HasSlots) (ha : 32 ∣ a) : fs.SlotInBuffer a := by
  obtain ⟨type, htype⟩ := Option.isSome_iff_exists.1 (h.parseAttribute_isSome ha)
  unfold SlotInBuffer
  rw [htype]
  cases type with
  | ROOT => exact h.inBuffer ha
  | DIRECTORY => exact ⟨h.inBuffer ha, h.findLongNameEntries_isSome ha⟩
  | FILE => exact ⟨h.inBuffer ha, h.findLongNameEntries_isSome ha⟩
  | LONG_NAME => exact h.parseLongName_isSome ha
  | EMPTY => exact h.clearEntry_isSome ha

theorem dvd_of_slotOf (h : fs.HasSlots) (hslot : fs.SlotOf a b) : 32 ∣ b := by
  obtain ⟨-, first, c, -, -, hb⟩ := hslot
  obtain ⟨i, -, rfl⟩ := List.mem_map.1 hb
  rw [h.bytesPerDirEntry_eq]
  exact Nat.dvd_add (Dvd.dvd.mul_left h.dvd_bytesPerCluster _) (Nat.dvd_mul_left 32 i)

theorem entryInBuffer (h : fs.HasSlots) (ha : 32 ∣ a) : fs.EntryInBuffer a := by
  refine ⟨h.slotInBuffer ha, fun b hb => ?_, ?_⟩
  · exact FAT32.parseAttribute_isSome.1 (h.parseAttribute_isSome (h.dvd_of_slotOf hb))
  · obtain ⟨type, htype⟩ := Option.isSome_iff_exists.1 (h.parseAttribute_isSome ha)
    obtain ⟨first, hfirst⟩ := Option.isSome_iff_exists.1 (h.firstCluster_isSome ha)
    cases type <;>
      simp [entryCluster, htype, hfirst, h.clusterWord_isSome]

/-- Nothing is read outside the buffers, so only the cycles count. -/
theorem treeEnds_iff (h : fs.HasSlots) (ha : 32 ∣ a) :
    fs.TreeEnds a ↔ AcyclicFrom fs.SubEntry a ∧
      ∀ b first, ReflTransGen fs.SubEntry a b → fs.entryCluster b = some first → first ≠ 0 →
        AcyclicFrom fs.Follows first := by
  refine ⟨fun hends => ⟨hends.directories, hends.chains⟩, fun hacyclic => ?_⟩
  refine ⟨hacyclic.1, hacyclic.2, fun b hb => h.entryInBuffer ?_⟩
  cases hb with
  | refl => exact ha
  | tail _ hstep => exact h.dvd_of_slotOf hstep.1

end HasSlots

/-- With sectors of 512 bytes `FAT32::init` returns exactly when no directory and no chain comes
back to itself. -/
theorem init_returns_iff_acyclic {b : BootSector} {di : DiskInterface}
    (hparse : BootSector.parse (di.read 0) = some b) (hsector : b.bytesPerSector = 512)
    (hcluster : b.sectorsPerCluster ≠ 0) (hdi : di.bytesPerSector = 512) :
    (∃ fuel, (init fuel di).isSome) ↔
      AcyclicFrom (b.volume di 0 fun _ => none).SubEntry b.rootOffset ∧
        ∀ a first, ReflTransGen (b.volume di 0 fun _ => none).SubEntry b.rootOffset a →
          (b.volume di 0 fun _ => none).entryCluster a = some first → first ≠ 0 →
            AcyclicFrom (b.volume di 0 fun _ => none).Follows first := by
  have hdvd : 32 ∣ b.bytesPerSector * b.sectorsPerCluster := by
    rw [hsector]
    exact Dvd.dvd.mul_right (by decide) _
  have hslots : (b.volume di 0 fun _ => none).HasSlots := ⟨hsector, hdi, rfl, rfl, hdvd⟩
  have hroot : 32 ∣ b.rootOffset := Dvd.dvd.mul_left hdvd _
  rw [← hslots.treeEnds_iff hroot, ← newEntry_returns_iff]
  simp [init, hparse, hsector, hcluster]

end FAT32

end CrosKernel.Fs
