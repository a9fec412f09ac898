import CrosKernel.Fs.CreateEffects
import CrosKernel.Fs.PathLookup

/-!
# `create_file` and `create_dir`

What a creation does to the tree of entries and to the disk. `create_iff` says for which directories
and volumes both functions succeed; the root, whose parent is null, is never among them.
-/

namespace CrosKernel.Fs

open Lib

namespace FAT32

/-- A volume as `FAT32::init` sets it up, with the table in front of the data region, and its tree
of entries: only the root has no parent, and every directory has a first cluster. -/
structure Mounted (fs : FAT32) : Prop extends fs.SlotSize where
  bytesPerCluster_eq : fs.bytesPerCluster = fs.bytesPerSector * fs.sectorsPerCluster
  reservedFatEntries_eq : fs.reservedFatEntries = 2
  reservedSectors_pos : 0 < fs.reservedSectors
  fatEnd_le : fs.fatEnd ≤ fs.dataRegionStartClusterOffset * fs.bytesPerCluster
  clusters_lt : fs.fatEntries + fs.dataRegionStartClusterOffset < 2 ^ 32
  root : ∀ e, fs.entries fs.rootDir = some e → e.parentDir = none
  parent : ∀ q e, fs.entries q = some e → q ≠ fs.rootDir → e.parentDir ≠ none
  directory : ∀ q e, fs.entries q = some e → e.type = .DIRECTORY ∨ q = fs.rootDir →
    ∃ c, e.fatAllocations.head? = some c ∧ fs.IsDataCluster c

variable {fs fs' : FAT32} {this dir : EntryPtr} {p : Entry} {c k r : Nat} {d name : Str}
  {type : EntryAttribute} {past : Nat → Nat → Nat → UInt8}

namespace Mounted

/-- The clusters of the table lie behind it. -/
theorem clusterStart_spec (hm : fs.Mounted) (htwo : 2 ≤ c) (hlt : c < fs.fatEntries) :
    IsSlot (fs.clusterStart c) ∧ fs.fatEnd ≤ fs.clusterStart c ∧ 0 < fs.clusterStart c := by
  have hoffset : fs.fatEntryToClusterOffset c = c - 2 + fs.dataRegionStartClusterOffset := by
    have hclusters := hm.clusters_lt
    rw [fatEntryToClusterOffset, hm.reservedFatEntries_eq]
    omega
  have hstart : fs.clusterStart c = 32 * ((c - 2 + fs.dataRegionStartClusterOffset) *
      (16 * fs.sectorsPerCluster)) := by
    rw [clusterStart, hoffset, hm.bytesPerCluster_eq, hm.bytesPerSector_eq]
    ring
  have hle : fs.dataRegionStartClusterOffset * fs.bytesPerCluster ≤ fs.clusterStart c := by
    rw [clusterStart, hoffset]
    exact Nat.mul_le_mul_right _ (by omega)
  have hpos : 0 < fs.fatEnd := by
    have hreserved := hm.reservedSectors_pos
    rw [fatEnd, fatEntryByteOffset, hm.bytesPerSector_eq]
    omega
  have hend := hm.fatEnd_le
  refine ⟨?_, by omega, by omega⟩
  unfold IsSlot
  omega

/-- A directory other than the root is not the root, and the root has no parent. -/
theorem parentDir_ne_none_iff (hm : fs.Mounted) (hp : fs.entries dir = some p) :
    p.parentDir ≠ none ↔ dir ≠ fs.rootDir := by
  constructor
  · intro hparent hroot
    subst hroot
    exact hparent (hm.root p hp)
  · exact hm.parent dir p hp

end Mounted

/-! ## New entries -/

/-- The slot of the short entry of a new entry whose slots start `k` slots behind the first cluster
`c` of its directory. -/
def shortSlot (fs : FAT32) (c k : Nat) (name : Str) : Nat :=
  fs.clusterStart c + 32 * k + 32 * numLongNameEntries name

/-- The new entry while `new_dir_entry` allocates its cluster. -/
def pendingEntry (dir : EntryPtr) (name : Str) (type : EntryAttribute) (byteOffset : Nat) :
    Entry where
  name := name
  type := type
  fileSizeBytes := 0
  byteOffset := byteOffset
  parentDir := some dir
  subDirs := []
  fatAllocations := []

/-- The entry that `new_dir_entry` makes, with the cluster `r`. -/
def newEntryFor (fs : FAT32) (dir : EntryPtr) (name : Str) (type : EntryAttribute)
    (byteOffset r : Nat) : Entry where
  name := name
  type := type
  fileSizeBytes := if type = .FILE then 0 else (fs.bytesPerCluster : Int)
  byteOffset := byteOffset
  parentDir := some dir
  subDirs := []
  fatAllocations := [r]

/-- The end of `new_dir_entry` stores the slots and appends the entry to its directory. -/
theorem storeDirEntry_spec (type : EntryAttribute) (past : Nat → Nat → Nat → UInt8)
    (hsize : fs.SlotSize) {e : Entry} {first : Nat}
    (he : fs.entries this = some e) (hp : fs.entries dir = some p) (hne : dir ≠ this)
    (hhead : e.fatAllocations.head? = some r) (hname : name ≠ []) (hfirst : IsSlot first)
    (hoffset : e.byteOffset = first + 32 * numLongNameEntries name) :
    ∃ disk, fs.storeDirEntry this dir name type past first =
        some (((fs.withDisk disk).setEntry this { e with
          fileSizeBytes := if type = .FILE then 0 else (fs.bytesPerCluster : Int) }).setEntry dir
          { p with subDirs := p.subDirs ++ [this] }) ∧
      ∀ x, x < first ∨ e.byteOffset + 32 ≤ x → disk x = fs.di.disk x := by
  obtain ⟨e', he'⟩ : ∃ e', e' = { e with
    fileSizeBytes := if type = EntryAttribute.FILE then 0 else (fs.bytesPerCluster : Int) } :=
    ⟨_, rfl⟩
  have hsize' : (fs.setEntry this e').SlotSize :=
    ⟨hsize.toValid.setEntry this e', hsize.bytesPerDirEntry_eq⟩
  have hlength : (markLast ((fs.setEntry this e').longNames name first)).length =
      numLongNameEntries name := by
    rw [markLast_length, longNames_length]
  have hhead' : e'.fatAllocations.head? = some r := by
    rw [he']
    exact hhead
  have hoffset' : e'.byteOffset = e.byteOffset := by rw [he']
  obtain ⟨fs2, hwrite, hwrites, -, -⟩ := writeDirEntry_spec hsize' [] past hhead' hfirst
    (markLast_inSlots (longNames_inSlots hsize' name first)) (by rw [hlength, hoffset', hoffset])
  have hp' : fs2.entries dir = some p :=
    (congrFun hwrites.entries dir).trans ((Function.update_of_ne hne ..).trans hp)
  have hpos := numLongNameEntries_pos hname
  refine ⟨fs2.di.disk, ?_, fun x hx => hwrites.outside x (by rwa [hoffset'])⟩
  simp only [storeDirEntry, he, Option.bind_eq_bind, Option.bind_some, ← he']
  rw [if_neg (by omega), hwrite, Option.bind_some, hp', Option.bind_some, hwrites.config]
  rfl

/-- The bytes behind the table that a creation with the cluster `r` writes: the slots of the entry,
and for a directory the first two slots of its cluster and the slot behind its own. -/
def IsWritten (fs : FAT32) (name : Str) (type : EntryAttribute) (c k r x : Nat) : Prop :=
  (fs.clusterStart c + 32 * k ≤ x ∧ x < fs.shortSlot c k name + 32) ∨
    type = .DIRECTORY ∧ ((fs.clusterStart r ≤ x ∧ x < fs.clusterStart r + 64) ∨
      (fs.shortSlot c k name ≤ x ∧ x < fs.shortSlot c k name + 64))

/-- What a creation with the cluster `r` leaves, for an entry whose slots start `k` slots behind the
first cluster `c` of its directory. -/
structure Created (fs fs' : FAT32) (this dir : EntryPtr) (p : Entry) (name : Str)
    (type : EntryAttribute) (c k r : Nat) : Prop where
  linked : Linked fs fs' this dir p (fs.newEntryFor dir name type (fs.shortSlot c k name) r)
  frame : ∀ x, fs.fatEnd ≤ x → ¬ fs.IsWritten name type c k r x → fs'.di.disk x = fs.di.disk x
  cleared : type = .DIRECTORY → ∀ x, fs.clusterStart r ≤ x → x < fs.clusterStart r + 64 →
    (x < fs.clusterStart c + 32 * k ∨ fs.shortSlot c k name + 64 ≤ x) → fs'.di.disk x = 0
  dotDot : type = .DIRECTORY → fs'.di.disk (fs.shortSlot c k name + 32) = 0x2E ∧
    fs'.di.disk (fs.shortSlot c k name + 32 + 11) = 0x10

/-- Where the code finds its place for a new entry: the first run of empty slots from the first
cluster `c` of the directory on, and the first free cluster. -/
structure Place (fs : FAT32) (name : Str) (c k r : Nat) : Prop where
  run : IsFirstRun (fs.IsEmptySlot (fs.clusterStart c)) (numLongNameEntries name + 1) k
  free : fs.FirstFree r

section NewDirEntry

variable {fuel : Nat} (hm : fs.Mounted) (hcluster : fs.IsDataCluster c)
include hm hcluster

/-- The steps of `new_dir_entry` up to the allocation of the cluster. -/
theorem newDirEntry_eq
    (hfind : (fs.setEntry this (pendingEntry dir name type 0)).findEmptyEntries fuel
      dir (numLongNameEntries name + 1) =
    some (fs.setEntry this (pendingEntry dir name type 0), fs.clusterStart c + 32 * k)) :
    (fs.setEntry this blankEntry).newDirEntry fuel this dir name type past =
      (((fs.setEntry this (pendingEntry dir name type (fs.shortSlot c k name))).allocateMoreClusters
          this 1).bind fun result =>
        if !result.2 then some (result.1, false)
        else (result.1.storeDirEntry this dir name type past (fs.clusterStart c + 32 * k)).bind
          fun fs => some (fs, true)) := by
  obtain ⟨-, -, hpos⟩ := hm.clusterStart_spec hcluster.1 hcluster.2.2
  have hset : ∀ e, (fs.setEntry this blankEntry).setEntry this e = fs.setEntry this e := fun e => by
    simp [setEntry]
  have hset' : ∀ e e', (fs.setEntry this e).setEntry this e' = fs.setEntry this e' := fun e e' => by
    simp [setEntry]
  obtain ⟨e1, he1⟩ : ∃ e1, e1 = pendingEntry dir name type 0 := ⟨_, rfl⟩
  rw [← he1] at hfind
  have hsize1 : (fs.setEntry this e1).bytesPerDirEntry = 32 := hm.bytesPerDirEntry_eq
  have hfirst : fs.clusterStart c + 32 * k ≠ 0 := by omega
  have hblank : { blankEntry with parentDir := some dir, name := name, type := type } = e1 := by
    rw [he1]
    rfl
  have hoffset : fs.clusterStart c + 32 * k + numLongNameEntries name * 32 =
      fs.shortSlot c k name := by
    rw [Nat.mul_comm (numLongNameEntries name)]
    rfl
  have hpending : { e1 with byteOffset := fs.shortSlot c k name } =
      pendingEntry dir name type (fs.shortSlot c k name) := by
    rw [he1]
    rfl
  simp only [newDirEntry, setEntry_entries_self, Option.bind_eq_bind, Option.bind_some, hblank,
    hset]
  rw [hfind, Option.bind_some]
  simp only [hfirst, if_false, hsize1, setEntry_entries_self, Option.bind_some,
    hoffset, hpending, hset']
  rfl

variable (hfresh : fs.entries this = none) (hp : fs.entries dir = some p)
  (hhead : p.fatAllocations.head? = some c)
include hfresh hp hhead

/-- `new_dir_entry` makes the entry at its place. A directory must not get the last slot of a
sector. -/
theorem newDirEntry_spec (type : EntryAttribute) (past : Nat → Nat → Nat → UInt8)
    (hparent : dir ≠ fs.rootDir) (hname : name ≠ [])
    (hplace : fs.Place name c k r) (hfuel : k + (numLongNameEntries name + 1) ≤ fuel)
    (hroom : type = .DIRECTORY → fs.shortSlot c k name % 512 + 64 ≤ 512) :
    ∃ fs', (fs.setEntry this blankEntry).newDirEntry fuel this dir name type past =
      some (fs', true) ∧
      Created fs fs' this dir p name type c k r := by
  obtain ⟨hstart, hbehind, -⟩ := hm.clusterStart_spec hcluster.1 hcluster.2.2
  have hne : dir ≠ this := by
    rintro rfl
    exact absurd (hfresh.symm.trans hp) (by simp)
  obtain ⟨hstart', hbehind', -⟩ := hm.clusterStart_spec hplace.free.two_le
    (hplace.free.lt_fatEntries hm.toValid)
  obtain ⟨pending, hpending⟩ : ∃ pending, pending =
    pendingEntry dir name type (fs.shortSlot c k name) := ⟨_, rfl⟩
  have hoffset : pending.byteOffset = fs.shortSlot c k name := by
    rw [hpending]
    rfl
  have htype : pending.type = type := by
    rw [hpending]
    rfl
  have hsize1 : (fs.setEntry this pending).SlotSize :=
    ⟨hm.toValid.setEntry this pending, hm.bytesPerDirEntry_eq⟩
  have hp1 : (fs.setEntry this pending).entries dir = some p :=
    (Function.update_of_ne hne ..).trans hp
  have hrun := hplace.run
  have hsize0 : (fs.setEntry this (pendingEntry dir name type 0)).SlotSize :=
    ⟨hm.toValid.setEntry this _, hm.bytesPerDirEntry_eq⟩
  have hfind := findEmptyEntries_complete hsize0 ((Function.update_of_ne hne ..).trans hp)
    ((hm.parentDir_ne_none_iff hp).2 hparent) hhead hstart (Nat.succ_pos _) hrun hfuel
  -- the cluster
  obtain ⟨disk, halloc, hcluster'⟩ := allocateMoreClusters_spec hsize1 (setEntry_entries_self ..)
    (by rw [hpending]; rfl) ⟨hplace.free.1, hplace.free.2, hplace.free.3, hplace.free.4⟩
    (by rw [hpending]; rfl) hne hp1 hhead hstart'
    (show fs.fatEnd ≤ pending.byteOffset by rw [hoffset, shortSlot]; omega) hbehind'
    (by rw [hoffset, htype]; exact hroom)
  obtain ⟨hkeep, hcleared, hdots⟩ : FirstCluster fs pending r disk :=
    ⟨hcluster'.frame, hcluster'.cleared, hcluster'.dotDot⟩
  rw [htype, hoffset] at hkeep hcleared hdots
  -- the slots and the tree
  obtain ⟨stored, hstored⟩ : ∃ stored, stored =
    ((fs.setEntry this pending).withDisk disk).setEntry this (pending.addClusters [r]) := ⟨_, rfl⟩
  have hsize2 : stored.SlotSize := by
    rw [hstored]
    exact ⟨(hsize1.toValid.withDisk disk).setEntry this _, hm.bytesPerDirEntry_eq⟩
  have hthis2 : stored.entries this = some (pending.addClusters [r]) := by
    rw [hstored]
    exact setEntry_entries_self ..
  have hp2 : stored.entries dir = some p := by
    rw [hstored]
    exact (Function.update_of_ne hne ..).trans hp1
  have hslot : IsSlot (fs.clusterStart c + 32 * k) := isSlot_add.2 hstart
  obtain ⟨disk', hstore, hframe⟩ := storeDirEntry_spec type past hsize2 hthis2 hp2 hne
    (by rw [hpending]; rfl) hname hslot (show pending.byteOffset = _ from hoffset)
  have hmade : { pending.addClusters [r] with
      fileSizeBytes := if type = EntryAttribute.FILE then 0 else (stored.bytesPerCluster : Int) } =
      fs.newEntryFor dir name type (fs.shortSlot c k name) r := by
    rw [hpending, hstored]
    rfl
  rw [hmade] at hstore
  have hframe' : ∀ x, x < fs.clusterStart c + 32 * k ∨ fs.shortSlot c k name + 32 ≤ x →
      disk' x = disk x := by
    intro x hx
    rw [hframe x (by rw [show (pending.addClusters [r]).byteOffset = _ from hoffset]; exact hx),
      hstored]
    rfl
  refine ⟨((stored.withDisk disk').setEntry this
      (fs.newEntryFor dir name type (fs.shortSlot c k name) r)).setEntry dir
      { p with subDirs := p.subDirs ++ [this] },
    ?_, ⟨⟨?_, hfresh, hp, ?_, ?_, ?_⟩, ?_, ?_, ?_⟩⟩
  · rw [newDirEntry_eq hm hcluster hfind, ← hpending, halloc,
      Option.bind_some]
    simp only [Bool.not_true, Bool.false_eq_true, if_false]
    rw [← hstored, hstore, Option.bind_some]
  · rw [hstored]
    rfl
  · exact (Function.update_of_ne (Ne.symm hne) ..).trans (setEntry_entries_self ..)
  · exact setEntry_entries_self ..
  · intro q hthis hdir
    rw [hstored]
    exact (Function.update_of_ne hdir ..).trans ((Function.update_of_ne hthis ..).trans
      ((Function.update_of_ne hthis ..).trans (Function.update_of_ne hthis ..)))
  · intro x hx hwritten
    rw [IsWritten, not_or, not_and, not_lt] at hwritten
    refine (hframe' x (by omega)).trans (hkeep x hx fun hdir => ?_)
    have hnot : ¬ _ := fun h => hwritten.2 ⟨hdir, h⟩
    omega
  · intro hdir x hlow hhigh hx
    refine (hframe' x (by omega)).trans (hcleared hdir x hlow hhigh ?_)
    rw [shortSlot] at hx ⊢
    omega
  · intro hdir
    exact ⟨(hframe' _ (by omega)).trans (hdots hdir).1, (hframe' _ (by omega)).trans (hdots hdir).2⟩

/-- Where `new_dir_entry` succeeds, the directory is not the root, there is a place, and a directory
does not get the last slot of a sector. -/
theorem newDirEntry_sound
    (h : (fs.setEntry this blankEntry).newDirEntry fuel this dir name type past =
      some (fs', true)) :
    dir ≠ fs.rootDir ∧ ∃ k r, fs.Place name c k r ∧
      (type = .DIRECTORY → fs.shortSlot c k name % 512 + 64 ≤ 512) := by
  obtain ⟨hstart, hbehind, -⟩ := hm.clusterStart_spec hcluster.1 hcluster.2.2
  have hne : dir ≠ this := by
    rintro rfl
    exact absurd (hfresh.symm.trans hp) (by simp)
  have hsize1 : ∀ e, (fs.setEntry this e).SlotSize := fun e =>
    ⟨hm.toValid.setEntry this e, hm.bytesPerDirEntry_eq⟩
  have hp1 : ∀ e, (fs.setEntry this e).entries dir = some p := fun e =>
    (Function.update_of_ne hne ..).trans hp
  have hset : ∀ e e', (fs.setEntry this e).setEntry this e' = fs.setEntry this e' := fun e e' => by
    simp [setEntry]
  -- the scan found a place
  have hscan := h
  simp only [newDirEntry, setEntry_entries_self, Option.bind_eq_bind, Option.bind_some, hset,
    Option.bind_eq_some_iff] at hscan
  obtain ⟨result, hfind, -⟩ := hscan
  obtain ⟨hparent, k, hresult, hrun⟩ := findEmptyEntries_sound (hsize1 _) (hp1 _) hhead hstart
    (Nat.succ_pos _) hfind
  have hroot := (hm.parentDir_ne_none_iff hp).1 hparent
  rw [newDirEntry_eq hm hcluster (hfind.trans (congrArg some hresult))] at h
  -- and the allocation a cluster
  have hpending : (pendingEntry dir name type (fs.shortSlot c k name)).fatAllocations = [] := rfl
  rcases findFreeCluster_spec (hsize1 (pendingEntry dir name type (fs.shortSlot c k name))).toValid
    with ⟨hnone, -⟩ | ⟨r, -, hfree⟩
  · rw [allocateMoreClusters_full (setEntry_entries_self ..) (by decide) hpending hnone] at h
    simp at h
  · have hfree' : fs.FirstFree r := ⟨hfree.1, hfree.2, hfree.3, hfree.4⟩
    refine ⟨hroot, k, r, ⟨hrun, hfree'⟩, fun htype => ?_⟩
    obtain ⟨hstart', -, -⟩ := hm.clusterStart_spec hfree'.two_le (hfree'.lt_fatEntries hm.toValid)
    have hslot : IsSlot (fs.shortSlot c k name) := by
      unfold IsSlot at hstart ⊢
      unfold shortSlot
      omega
    by_contra hlast
    rw [allocateMoreClusters_outside (hsize1 _) (setEntry_entries_self ..) hpending hfree rfl hne
      (hp1 _) hhead hstart' hslot htype (Nat.lt_of_not_le hlast)] at h
    cases h

end NewDirEntry

/-! ## Creating by path -/

/-- The path of `name` in the directory with the path `d`. -/
def childPath (d name : Str) : Str := if d = [slash] then slash :: name else d ++ slash :: name

theorem snipFilePath_childPath (hd : fs.findEntry d = some (some dir)) (hslash : slash ∉ name) :
    snipFilePath (childPath d name) = d := by
  unfold childPath
  split
  next heq => rw [snipFilePath_root hslash, heq]
  next hne =>
    refine snipFilePath_append ?_ hslash
    rintro rfl
    exact parseFilePath_ne_nil hne hd rfl

theorem getLast_childPath (hd : fs.findEntry d = some (some dir)) (hslash : slash ∉ name) :
    (parseFilePath (childPath d name)).getLast? = some name := by
  unfold childPath
  split
  next =>
    rw [parseFilePath, if_neg (by simp), parseFilePathLoop_of_notMem hslash]
    simp
  next hne =>
    rw [parseFilePath_append (parseFilePath_ne_nil hne hd) hslash]
    simp

/-- After the creation of the entry `this` of the wanted type, `path` resolves to it and every path
that resolved resolves to the same entry. -/
structure CreatedAt (fs fs' : FAT32) (this : EntryPtr) (path : Str) (type : EntryAttribute) :
    Prop where
  found : fs'.findEntry path = some (some this)
  type_eq : ∃ e, fs'.entries this = some e ∧ e.type = type
  kept : ∀ path x, fs.findEntry path = some (some x) → fs'.findEntry path = some (some x)

section CreateIn

variable (hd : fs.findEntry d = some (some dir)) (hslash : slash ∉ name)
  (hnew : fs.findEntry (childPath d name) = some none)
include hd hslash hnew

/-- For a new name `create_file` and `create_dir` succeed when `new_dir_entry` does. -/
theorem createIn_iff (fuel : Nat) :
    fs.createIn fuel this dir (childPath d name) type past = some (fs', true) ↔
      (fs.setEntry this blankEntry).newDirEntry fuel this dir name type past =
        some (fs', true) := by
  simp only [createIn, hnew, getLast_childPath hd hslash, Option.bind_eq_bind, Option.bind_some]
  cases (fs.setEntry this blankEntry).newDirEntry fuel this dir name type past with
  | none => simp
  | some result => cases hok : result.2 <;> simp [hok, Prod.ext_iff]

variable (hm : fs.Mounted) (hfresh : fs.entries this = none) (hp : fs.entries dir = some p)
  (hhead : p.fatAllocations.head? = some c)
include hm hfresh hp hhead

/-- A creation in a directory other than the root, at its place. -/
theorem createIn_spec (type : EntryAttribute) (past : Nat → Nat → Nat → UInt8) {fuel : Nat}
    (hcluster : fs.IsDataCluster c) (hparent : dir ≠ fs.rootDir) (hname : name ≠ [])
    (hplace : fs.Place name c k r) (hfuel : k + (numLongNameEntries name + 1) ≤ fuel)
    (hroom : type = .DIRECTORY → fs.shortSlot c k name % 512 + 64 ≤ 512) :
    ∃ fs', fs.createIn fuel this dir (childPath d name) type past = some (fs', true) ∧
      Created fs fs' this dir p name type c k r ∧
        CreatedAt fs fs' this (childPath d name) type := by
  obtain ⟨fs', hcall, hcreated⟩ :=
    newDirEntry_spec hm hcluster hfresh hp hhead type past hparent hname hplace hfuel hroom
  have hlinked := hcreated.linked
  have hdroot : d ≠ [slash] := by
    rintro rfl
    exact hparent (by simpa [findEntry] using hd.symm)
  have hpath : childPath d name = d ++ slash :: name := if_neg hdroot
  refine ⟨fs', (createIn_iff hd hslash hnew fuel).2 hcall, hcreated,
    ⟨?_, ⟨_, hlinked.this_eq, rfl⟩, fun path x => hlinked.findEntry_found⟩⟩
  rw [hpath] at hnew ⊢
  exact hlinked.findEntry_new hdroot hd hslash hnew

end CreateIn

/-- The code finds a cluster when one is free among those that it looks at. -/
theorem exists_firstFree_iff (hvalid : fs.Valid) : (∃ r, fs.FirstFree r) ↔
    ∃ r, 2 ≤ r ∧ r < fs.sectorsPerFat / fs.sectorsPerCluster ∧ fs.IsFree r := by
  constructor
  · rintro ⟨r, h⟩
    exact ⟨r, h.two_le, h.lt_clustersPerFat, h.free⟩
  · rintro ⟨r, htwo, hlt, hfree⟩
    rcases findFreeCluster_spec hvalid with ⟨-, hnone⟩ | ⟨r', -, h⟩
    · exact absurd hfree (hnone r htwo hlt)
    · exact ⟨r', h⟩

/-- `create_file` and `create_dir` of a new name in an existing directory succeed, with the lookups
afterwards as they should be, exactly when the directory is not the root, enough empty slots in a
row follow somewhere behind the start of its first cluster, and one of the clusters that the code
looks at is free. In addition the short entry of a new directory must not be the last slot of its
sector. -/
theorem create_iff (hm : fs.Mounted) (hfresh : fs.entries this = none)
    (hd : fs.findEntry d = some (some dir)) (hp : fs.entries dir = some p)
    (hkind : p.type = .DIRECTORY ∨ dir = fs.rootDir) (hhead : p.fatAllocations.head? = some c)
    (hname : name ≠ []) (hslash : slash ∉ name)
    (hnew : fs.findEntry (childPath d name) = some none) (past : Nat → Nat → Nat → UInt8) :
    ((∃ fuel fs', fs.createFile fuel this (childPath d name) past = some (fs', true) ∧
        CreatedAt fs fs' this (childPath d name) .FILE) ↔
      dir ≠ fs.rootDir ∧
        (∃ k, IsRun (fs.IsEmptySlot (fs.clusterStart c)) (numLongNameEntries name + 1) k) ∧
        ∃ r, 2 ≤ r ∧ r < fs.sectorsPerFat / fs.sectorsPerCluster ∧ fs.IsFree r) ∧
    ((∃ fuel fs', fs.createDir fuel this (childPath d name) past = some (fs', true) ∧
        CreatedAt fs fs' this (childPath d name) .DIRECTORY) ↔
      dir ≠ fs.rootDir ∧
        (∃ k, IsFirstRun (fs.IsEmptySlot (fs.clusterStart c)) (numLongNameEntries name + 1) k ∧
          fs.shortSlot c k name % 512 + 64 ≤ 512) ∧
        ∃ r, 2 ≤ r ∧ r < fs.sectorsPerFat / fs.sectorsPerCluster ∧ fs.IsFree r) := by
  obtain ⟨c', hhead', hcluster⟩ := hm.directory dir p hp hkind
  obtain rfl : c' = c := Option.some.inj (hhead'.symm.trans hhead)
  have hsnip := snipFilePath_childPath hd hslash
  rw [← exists_firstFree_iff hm.toValid]
  constructor
  · constructor
    · rintro ⟨fuel, fs', hcall, -⟩
      simp only [createFile, hsnip, hd, hp, Option.bind_eq_bind, Option.bind_some] at hcall
      split at hcall
      next => simp at hcall
      next =>
        obtain ⟨hroot, k, r, hplace, -⟩ := newDirEntry_sound hm hcluster hfresh hp hhead
          ((createIn_iff hd hslash hnew fuel).1 hcall)
        exact ⟨hroot, ⟨k, hplace.run.run⟩, r, hplace.free⟩
    · rintro ⟨hroot, ⟨k, hrun⟩, r, hfree⟩
      obtain ⟨k', hfirst⟩ := hrun.exists_first
      obtain ⟨fs', hcall, -, hat⟩ := createIn_spec hd hslash hnew hm hfresh hp hhead .FILE
        past hcluster hroot hname ⟨hfirst, hfree⟩ le_rfl (by simp)
      have htype : p.type = .DIRECTORY := hkind.resolve_right hroot
      refine ⟨k' + (numLongNameEntries name + 1), fs', ?_, hat⟩
      simp only [createFile, hsnip, hd, hp, Option.bind_eq_bind, Option.bind_some, htype, ne_eq,
        not_true_eq_false, if_false, hcall]
  · constructor
    · rintro ⟨fuel, fs', hcall, -⟩
      simp only [createDir, hsnip, hd, Option.bind_eq_bind, Option.bind_some] at hcall
      obtain ⟨hroot, k, r, hplace, hroom⟩ := newDirEntry_sound hm hcluster hfresh hp hhead
        ((createIn_iff hd hslash hnew fuel).1 hcall)
      exact ⟨hroot, ⟨k, hplace.run, hroom rfl⟩, r, hplace.free⟩
    · rintro ⟨hroot, ⟨k, hrun, hroom⟩, r, hfree⟩
      obtain ⟨fs', hcall, -, hat⟩ := createIn_spec hd hslash hnew hm hfresh hp hhead
        .DIRECTORY past hcluster hroot hname ⟨hrun, hfree⟩ le_rfl (fun _ => hroom)
      refine ⟨k + (numLongNameEntries name + 1), fs', ?_, hat⟩
      simp only [createDir, hsnip, hd, Option.bind_eq_bind, Option.bind_some, hcall]

/-! ## A volume with a folder -/

/-- The root directory, in the cluster 2. -/
def rootEntry : Entry where
  name := []
  type := .ROOT
  fileSizeBytes := 0
  byteOffset := 9 * 512
  parentDir := none
  subDirs := [1]
  fatAllocations := [2]

/-- The directory `d`, in the cluster 3. -/
def folderEntry : Entry where
  name := [0x64]
  type := .DIRECTORY
  fileSizeBytes := 512
  byteOffset := 9 * 512 + 64
  parentDir := some 0
  subDirs := [2]
  fatAllocations := [3]

/-- The empty file `f` in the third slot of the directory. -/
def fileEntry : Entry where
  name := [0x66]
  type := .FILE
  fileSizeBytes := 0
  byteOffset := 10 * 512 + 64
  parentDir := some 1
  subDirs := []
  fatAllocations := []

/-- A volume with the directory `/d` and the file `/d/f`. -/
def treeVolume : FAT32 :=
  { (smallVolume.setFatWord 2 endMarker).setFatWord 3 endMarker with
    entries := fun q =>
      if q = 0 then some rootEntry
      else if q = 1 then some folderEntry
      else if q = 2 then some fileEntry
      else none
    di := { bytesPerSector := 512
            disk := Function.update (Function.update
              ((smallVolume.setFatWord 2 endMarker).setFatWord 3 endMarker).di.disk
              (9 * 512 + 64 + 11) 0x10) (10 * 512 + 64 + 11) 0x20 } }

theorem treeVolume_entries {q : EntryPtr} {e : Entry} (h : treeVolume.entries q = some e) :
    q = 0 ∧ e = rootEntry ∨ q = 1 ∧ e = folderEntry ∨ q = 2 ∧ e = fileEntry := by
  have hcases : (if q = 0 then some rootEntry else if q = 1 then some folderEntry
    else if q = 2 then some fileEntry else none) = some e := h
  split_ifs at hcases with h0 h1 h2
  · exact .inl ⟨h0, (Option.some.inj hcases).symm⟩
  · exact .inr (.inl ⟨h1, (Option.some.inj hcases).symm⟩)
  · exact .inr (.inr ⟨h2, (Option.some.inj hcases).symm⟩)

theorem treeVolume_mounted : treeVolume.Mounted where
  toSlotSize := ⟨⟨rfl, rfl, rfl, by decide, by decide⟩, rfl⟩
  bytesPerCluster_eq := rfl
  reservedFatEntries_eq := rfl
  reservedSectors_pos := by decide
  fatEnd_le := by decide
  clusters_lt := by decide
  root e h := by
    rcases treeVolume_entries h with ⟨-, rfl⟩ | ⟨hq, -⟩ | ⟨hq, -⟩
    · rfl
    · exact absurd hq (by decide)
    · exact absurd hq (by decide)
  parent q e h hroot := by
    rcases treeVolume_entries h with ⟨hq, -⟩ | ⟨-, rfl⟩ | ⟨-, rfl⟩
    · exact absurd hq hroot
    · simp [folderEntry]
    · simp [fileEntry]
  directory q e h hkind := by
    rcases treeVolume_entries h with ⟨-, rfl⟩ | ⟨-, rfl⟩ | ⟨rfl, rfl⟩
    · exact ⟨2, rfl, by decide⟩
    · exact ⟨3, rfl, by decide⟩
    · exact absurd hkind (by decide)

/-- In the directory `/d` there is room for the file `n`, and for the directory `n`. -/
theorem create_iff_folder :
    ((∃ fuel fs', treeVolume.createFile fuel 3 (childPath [slash, 0x64] [0x6E]) (fun _ _ _ => 0) =
          some (fs', true) ∧
        CreatedAt treeVolume fs' 3 (childPath [slash, 0x64] [0x6E]) .FILE) ↔
      (1 : EntryPtr) ≠ treeVolume.rootDir ∧
        (∃ k, IsRun (treeVolume.IsEmptySlot (treeVolume.clusterStart 3))
          (numLongNameEntries [0x6E] + 1) k) ∧
        ∃ r, 2 ≤ r ∧ r < treeVolume.sectorsPerFat / treeVolume.sectorsPerCluster ∧
          treeVolume.IsFree r) ∧
    ((∃ fuel fs', treeVolume.createDir fuel 3 (childPath [slash, 0x64] [0x6E]) (fun _ _ _ => 0) =
          some (fs', true) ∧
        CreatedAt treeVolume fs' 3 (childPath [slash, 0x64] [0x6E]) .DIRECTORY) ↔
      (1 : EntryPtr) ≠ treeVolume.rootDir ∧
        (∃ k, IsFirstRun (treeVolume.IsEmptySlot (treeVolume.clusterStart 3))
            (numLongNameEntries [0x6E] + 1) k ∧
          treeVolume.shortSlot 3 k [0x6E] % 512 + 64 ≤ 512) ∧
        ∃ r, 2 ≤ r ∧ r < treeVolume.sectorsPerFat / treeVolume.sectorsPerCluster ∧
          treeVolume.IsFree r) :=
  create_iff (p := folderEntry) treeVolume_mounted rfl rfl rfl (.inl rfl) rfl
    (by decide) (by decide)
    rfl (fun _ _ _ => 0)

/-- The root directory has room for a file, and clusters are free, but its creation fails. -/
theorem createFile_root_fails :
    ¬ ∀ (fs : FAT32) (this dir : EntryPtr) (p : Entry) (c : Nat) (d name : Str)
      (past : Nat → Nat → Nat → UInt8), fs.Mounted → fs.entries this = none →
      fs.findEntry d = some (some dir) → fs.entries dir = some p →
      p.type = .DIRECTORY ∨ dir = fs.rootDir → p.fatAllocations.head? = some c → name ≠ [] →
      slash ∉ name → fs.findEntry (childPath d name) = some none →
      (∃ k, 32 * (k + (numLongNameEntries name + 1)) ≤ fs.bytesPerCluster ∧
        IsRun (fs.IsEmptySlot (fs.clusterStart c)) (numLongNameEntries name + 1) k) →
      (∃ r, fs.FirstFree r) →
      ∃ fuel fs', fs.createFile fuel this (childPath d name) past = some (fs', true) ∧
        CreatedAt fs fs' this (childPath d name) .FILE := by
  intro hall
  have hrun : IsRun (treeVolume.IsEmptySlot (treeVolume.clusterStart 2)) 2 0 := by
    have h0 : treeVolume.IsEmptySlot (treeVolume.clusterStart 2) 0 := by decide +kernel
    have h1 : treeVolume.IsEmptySlot (treeVolume.clusterStart 2) 1 := by decide +kernel
    intro i hi
    rcases Nat.le_one_iff_eq_zero_or_eq_one.1 (Nat.le_of_lt_succ hi) with rfl | rfl
    · exact h0
    · exact h1
  have hfree : ∃ r, treeVolume.FirstFree r := by
    have h4 : treeVolume.IsFree 4 := by decide +kernel
    exact (exists_firstFree_iff treeVolume_mounted.toValid).2 ⟨4, by decide, by decide, h4⟩
  obtain ⟨fuel, fs', hcall, -⟩ := hall treeVolume 3 0 rootEntry 2 [slash] [0x6E] (fun _ _ _ => 0)
    treeVolume_mounted rfl rfl rfl (.inr rfl) rfl (by decide) (by decide) rfl
    ⟨0, by decide, hrun⟩ hfree
  have hfails : treeVolume.createFile fuel 3 (childPath [slash] [0x6E]) (fun _ _ _ => 0) =
      some (treeVolume, false) := rfl
  rw [hfails] at hcall
  simp at hcall

end FAT32

end CrosKernel.Fs
