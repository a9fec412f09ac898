import CrosKernel.Fs.Create
import Mathlib.Logic.Relation

/-!
# The slots that a search for empty ones visits

`find_empty_entries` compares the cluster of the directory's own slot with itself, so it never
notices the end of a cluster: it scans the disk from the first cluster on. `findEmptyStep` is one
pass of its loop, and `findsInside_iff` says when the scan stays in the clusters of the directory.
-/

namespace CrosKernel.Fs

open Lib Relation

namespace FAT32

variable {fs : FAT32} {dir : EntryPtr} {p : Entry} {c m j count start : Nat}

/-! ## One pass of the loop -/

/-- The variables of the loop of `find_empty_entries`, with the volume. -/
structure ScanState where
  fs : FAT32
  currentByteOffset : Nat
  currentClusterOffset : Nat
  numEmptyFound : Nat
  emptyStartOffset : Nat
  clusterNum : Nat

/-- The fate of a pass of the loop: another pass, or the result of the search. -/
inductive ScanOutcome where
  | next (s : ScanState)
  | done (fs : FAT32) (result : Nat)

/-- The rest of a search after a pass. -/
def ScanOutcome.rest (this : EntryPtr) (numEntries fuel : Nat) : ScanOutcome → Option (FAT32 × Nat)
  | next s => findEmptyLoop this numEntries fuel s.fs s.currentByteOffset s.currentClusterOffset
      s.numEmptyFound s.emptyStartOffset s.clusterNum
  | done fs result => some (fs, result)

/-- One pass of the loop of `find_empty_entries`. -/
def findEmptyStep (this : EntryPtr) (numEntries : Nat) (s : ScanState) : Option ScanOutcome := do
  let type ← s.fs.parseAttribute s.currentByteOffset
  let emptyStartOffset :=
    if type = .EMPTY ∧ s.numEmptyFound = 0 then s.currentByteOffset else s.emptyStartOffset
  let numEmptyFound := if type = .EMPTY then s.numEmptyFound + 1 else 0
  if type = .EMPTY ∧ numEmptyFound = numEntries then some (.done s.fs emptyStartOffset)
  else
    let e ← s.fs.entries this
    let nextByteOffset := s.currentByteOffset + s.fs.bytesPerDirEntry
    let nextClusterOffset := e.byteOffset / s.fs.bytesPerCluster
    if nextClusterOffset ≠ s.currentClusterOffset then
      let parentDir ← e.parentDir
      let parent ← s.fs.entries parentDir
      let (fs, ok) ←
        (if s.clusterNum + 1 > parent.fatAllocations.length then
          s.fs.allocateMoreClusters parentDir 1
        else some (s.fs, true))
      if !ok then some (.done fs 0)
      else
        let parent ← fs.entries parentDir
        let back ← parent.fatAllocations.getLast?
        some (.next
          { fs := fs
            currentByteOffset := fs.fatEntryToClusterOffset back + 2 * fs.bytesPerDirEntry
            currentClusterOffset := e.byteOffset / fs.bytesPerCluster
            numEmptyFound := numEmptyFound
            emptyStartOffset := emptyStartOffset
            clusterNum := s.clusterNum + 1 })
    else
      some (.next
        { fs := s.fs
          currentByteOffset := nextByteOffset
          currentClusterOffset := nextClusterOffset
          numEmptyFound := numEmptyFound
          emptyStartOffset := emptyStartOffset
          clusterNum := s.clusterNum })

/-- The loop of `find_empty_entries` is made of its passes. -/
theorem findEmptyLoop_succ (this : EntryPtr) (numEntries fuel : Nat) (s : ScanState) :
    (ScanOutcome.next s).rest this numEntries (fuel + 1) =
      (findEmptyStep this numEntries s).bind (ScanOutcome.rest this numEntries fuel) := by
  show findEmptyLoop .. = _
  rw [findEmptyLoop, findEmptyStep]
  show Option.bind _ _ = Option.bind (Option.bind _ _) _
  rw [Option.bind_assoc]
  refine Option.bind_congr fun type _ => ?_
  dsimp only
  generalize (if type = .EMPTY then s.numEmptyFound + 1 else 0) = found
  generalize (if type = .EMPTY ∧ s.numEmptyFound = 0 then s.currentByteOffset
    else s.emptyStartOffset) = first
  split
  · rfl
  · show Option.bind _ _ = Option.bind (Option.bind _ _) _
    rw [Option.bind_assoc]
    refine Option.bind_congr fun e _ => ?_
    split
    · show Option.bind _ _ = Option.bind (Option.bind _ _) _
      rw [Option.bind_assoc]
      refine Option.bind_congr fun parentDir _ => ?_
      show Option.bind _ _ = Option.bind (Option.bind _ _) _
      rw [Option.bind_assoc]
      refine Option.bind_congr fun parent _ => ?_
      show Option.bind _ _ = Option.bind (Option.bind _ _) _
      rw [Option.bind_assoc]
      refine Option.bind_congr fun allocated _ => ?_
      obtain ⟨fs', ok⟩ := allocated
      cases ok with
      | false => rfl
      | true =>
          show Option.bind _ _ = Option.bind (Option.bind _ _) _
          rw [Option.bind_assoc]
          refine Option.bind_congr fun parent' _ => ?_
          show Option.bind _ _ = Option.bind (Option.bind _ _) _
          rw [Option.bind_assoc]
          rfl
    · rfl

/-- The variables at the first pass. -/
def scanStart (fs : FAT32) (this : EntryPtr) : Option ScanState := do
  let e ← fs.entries this
  let _ ← e.parentDir
  let first ← e.fatAllocations.head?
  some
    { fs := fs
      currentByteOffset := fs.fatEntryToClusterOffset first * fs.bytesPerCluster
      currentClusterOffset := e.byteOffset / fs.bytesPerCluster
      numEmptyFound := 0
      emptyStartOffset := 0
      clusterNum := 1 }

theorem findEmptyEntries_eq_scan (fuel : Nat) (this : EntryPtr) (numEntries : Nat) :
    fs.findEmptyEntries fuel this numEntries =
      (fs.scanStart this).bind fun s => (ScanOutcome.next s).rest this numEntries fuel := by
  simp only [findEmptyEntries, scanStart, Option.bind_eq_bind, Option.bind_assoc, Option.bind_some]
  rfl

/-- A pass that another one follows. -/
def Passes (this : EntryPtr) (numEntries : Nat) (s s' : ScanState) : Prop :=
  findEmptyStep this numEntries s = some (.next s')

/-- The search comes to a pass with these variables. It calls `parse_attribute` at the current byte
offset. -/
def Visits (fs : FAT32) (this : EntryPtr) (numEntries : Nat) (s : ScanState) : Prop :=
  ∃ first, fs.scanStart this = some first ∧ ReflTransGen (Passes this numEntries) first s

/-! ## The scan from the first cluster -/

/-- The variables at the slot `j`, counted from `start`, with the last `count` slots empty. -/
def scanAt (fs : FAT32) (p : Entry) (start j count emptyStart : Nat) : ScanState where
  fs := fs
  currentByteOffset := start + 32 * j
  currentClusterOffset := p.byteOffset / fs.bytesPerCluster
  numEmptyFound := count
  emptyStartOffset := emptyStart
  clusterNum := 1

/-- A pass that finds the cluster of the directory's own slot unchanged. -/
theorem findEmptyStep_eq {s : ScanState} {type : EntryAttribute} {e : Entry}
    (htype : s.fs.parseAttribute s.currentByteOffset = some type) (he : s.fs.entries dir = some e)
    (hcluster : e.byteOffset / s.fs.bytesPerCluster = s.currentClusterOffset) :
    findEmptyStep dir m s =
      if type = .EMPTY ∧ s.numEmptyFound + 1 = m then
        some (.done s.fs (if s.numEmptyFound = 0 then s.currentByteOffset else s.emptyStartOffset))
      else
        some (.next { s with
          currentByteOffset := s.currentByteOffset + s.fs.bytesPerDirEntry
          numEmptyFound := if type = .EMPTY then s.numEmptyFound + 1 else 0
          emptyStartOffset :=
            if type = .EMPTY ∧ s.numEmptyFound = 0 then s.currentByteOffset
            else s.emptyStartOffset }) := by
  have hsame : ¬ e.byteOffset / s.fs.bytesPerCluster ≠ s.currentClusterOffset :=
    not_not_intro hcluster
  rw [findEmptyStep, htype]
  simp only [Option.bind_eq_bind, Option.bind_some, he, hcluster, ne_eq, not_true_eq_false,
    if_false]
  by_cases hempty : type = .EMPTY
  · simp only [hempty, true_and, if_true]
  · simp only [hempty, false_and, if_false]

/-- A pass goes on to the next slot, whatever cluster it is in, unless a run of empty slots ends. -/
theorem findEmptyStep_spec (hsize : fs.SlotSize) (hp : fs.entries dir = some p)
    (hstart : IsSlot start) (hscan : Scanned (fs.IsEmptySlot start) m j count) (emptyStart : Nat) :
    (∃ count' emptyStart', findEmptyStep dir m (fs.scanAt p start j count emptyStart) =
        some (.next (fs.scanAt p start (j + 1) count' emptyStart')) ∧
      Scanned (fs.IsEmptySlot start) m (j + 1) count') ∨
    (∃ a, findEmptyStep dir m (fs.scanAt p start j count emptyStart) = some (.done fs a)) ∧
      IsFirstRun (fs.IsEmptySlot start) m (j - count) ∧ j + 1 = j - count + m := by
  have hslot : IsSlot (start + 32 * j) := isSlot_add.2 hstart
  have hnext : start + 32 * j + fs.bytesPerDirEntry = start + 32 * (j + 1) := by
    rw [hsize.bytesPerDirEntry_eq]
    omega
  have hle := hscan.le
  have hstep : findEmptyStep dir m (fs.scanAt p start j count emptyStart) =
      if attributeType (fs.di.disk (start + 32 * j + 11)) = .EMPTY ∧ count + 1 = m then
        some (.done fs (if count = 0 then start + 32 * j else emptyStart))
      else
        some (.next { fs.scanAt p start j count emptyStart with
          currentByteOffset := start + 32 * j + fs.bytesPerDirEntry
          numEmptyFound := if attributeType (fs.di.disk (start + 32 * j + 11)) = .EMPTY then
            count + 1 else 0
          emptyStartOffset :=
            if attributeType (fs.di.disk (start + 32 * j + 11)) = .EMPTY ∧ count = 0 then
              start + 32 * j
            else emptyStart }) :=
    findEmptyStep_eq (parseAttribute_eq hsize.toValid hslot) hp rfl
  rw [hstep, hnext]
  by_cases htype : attributeType (fs.di.disk (start + 32 * j + 11)) = .EMPTY
  · have hj : fs.IsEmptySlot start j := htype
    have hlt := hscan.lt
    by_cases heq : count + 1 = m
    · rw [if_pos ⟨htype, heq⟩]
      exact .inr ⟨⟨_, rfl⟩, hscan.hit hj heq, by omega⟩
    · rw [if_neg (fun h => heq h.2), if_pos htype]
      exact .inl ⟨count + 1, _, rfl, hscan.grow hj (by omega)⟩
  · have hj : ¬ fs.IsEmptySlot start j := htype
    rw [if_neg (fun h => htype h.1), if_neg htype]
    exact .inl ⟨0, _, rfl, hscan.reset hj⟩

theorem scanStart_eq (hp : fs.entries dir = some p) (hhead : p.fatAllocations.head? = some c) :
    fs.scanStart dir = p.parentDir.map fun _ => fs.scanAt p (fs.clusterStart c) 0 0 0 := by
  simp only [scanStart, hp, hhead, Option.bind_eq_bind, Option.bind_some]
  cases p.parentDir <;> rfl

/-- Every pass is at a slot that the scan from `start` comes to. -/
theorem scanned_of_passes (hsize : fs.SlotSize) (hp : fs.entries dir = some p)
    (hstart : IsSlot start) (hm : 0 < m) {s : ScanState}
    (h : ReflTransGen (Passes dir m) (fs.scanAt p start 0 0 0) s) :
    ∃ j count emptyStart, s = fs.scanAt p start j count emptyStart ∧
      Scanned (fs.IsEmptySlot start) m j count := by
  induction h with
  | refl => exact ⟨0, 0, 0, rfl, .init hm⟩
  | tail _ hpass ih =>
      obtain ⟨j, count, emptyStart, rfl, hscan⟩ := ih
      rcases findEmptyStep_spec hsize hp hstart hscan emptyStart with
        ⟨count', emptyStart', hstep, hscan'⟩ | ⟨⟨a, hstep⟩, -, -⟩
      · have heq := hstep.symm.trans hpass
        cases heq
        exact ⟨j + 1, count', emptyStart', rfl, hscan'⟩
      · exact absurd (hstep.symm.trans hpass) (by simp)

/-- The scan comes to every slot that no run of empty slots lies before. -/
theorem passes_of_none_before (hsize : fs.SlotSize) (hp : fs.entries dir = some p)
    (hstart : IsSlot start) (hm : 0 < m) (j : Nat)
    (hnone : ∀ k, k + m ≤ j → ¬ IsRun (fs.IsEmptySlot start) m k) :
    ∃ count emptyStart, ReflTransGen (Passes dir m) (fs.scanAt p start 0 0 0)
        (fs.scanAt p start j count emptyStart) ∧ Scanned (fs.IsEmptySlot start) m j count := by
  induction j with
  | zero => exact ⟨0, 0, .refl, .init hm⟩
  | succ j ih =>
      obtain ⟨count, emptyStart, hreach, hscan⟩ := ih fun k hk => hnone k (Nat.le_succ_of_le hk)
      rcases findEmptyStep_spec hsize hp hstart hscan emptyStart with
        ⟨count', emptyStart', hstep, hscan'⟩ | ⟨-, hfirst, hend⟩
      · exact ⟨count', emptyStart', hreach.tail hstep, hscan'⟩
      · exact absurd hfirst.run (hnone _ (Nat.le_of_eq hend.symm))

/-! ## Staying in the directory -/

/-- The slot at `a` lies in a cluster allocated to the entry. -/
def InClusters (fs : FAT32) (p : Entry) (a : Nat) : Prop :=
  ∃ c ∈ p.fatAllocations, fs.IsDataCluster c ∧ fs.clusterStart c ≤ a ∧
    a + 32 ≤ fs.clusterStart c + fs.bytesPerCluster

/-- The search ends, with `failure` or with the first of `m` empty slots in the clusters of the
directory, and it reads no slots outside these clusters. -/
structure FindsInside (fs : FAT32) (dir : EntryPtr) (m : Nat) : Prop where
  ends : ∃ fuel fs' a, fs.findEmptyEntries fuel dir m = some (fs', a) ∧
    (a ≠ 0 → ∃ p, fs'.entries dir = some p ∧
      ∀ i < m, fs'.InClusters p (a + 32 * i) ∧ fs'.parseAttribute (a + 32 * i) = some .EMPTY)
  reads : ∀ s, fs.Visits dir m s →
    ∃ p, s.fs.entries dir = some p ∧ s.fs.InClusters p s.currentByteOffset

/-- The run of empty slots behind the first cluster of a directory that the search ends with lies in
the stretch of slots that the directory owns. -/
theorem FindsInside.run (h : fs.FindsInside dir m) (hsize : fs.SlotSize)
    (hp : fs.entries dir = some p) (hhead : p.fatAllocations.head? = some c)
    (hstart : IsSlot (fs.clusterStart c)) (hm : 0 < m) :
    p.parentDir ≠ none ∧ ∃ k, IsRun (fs.IsEmptySlot (fs.clusterStart c)) m k ∧
      ∀ j < k + m, fs.InClusters p (fs.clusterStart c + 32 * j) := by
  obtain ⟨fuel, fs', a, hcall, -⟩ := h.ends
  obtain ⟨hparent, k, -, hfirst⟩ := findEmptyEntries_sound hsize hp hhead hstart hm hcall
  refine ⟨hparent, k, hfirst.run, fun j hj => ?_⟩
  obtain ⟨count, emptyStart, hreach, -⟩ := passes_of_none_before hsize hp hstart hm j
    fun k' hk' => hfirst.before k' (by omega)
  have hfirstPass : fs.scanStart dir = some (fs.scanAt p (fs.clusterStart c) 0 0 0) := by
    obtain ⟨q, hq⟩ := Option.ne_none_iff_exists'.1 hparent
    rw [scanStart_eq hp hhead, hq, Option.map_some]
  obtain ⟨p', hp', hin⟩ := h.reads _ ⟨_, hfirstPass, hreach⟩
  obtain rfl : p = p' := Option.some.inj (hp.symm.trans hp')
  exact hin

/-- The search of a directory stays in its clusters if and only if the directory is not the root and
there are `m` empty slots in a row in the stretch of its clusters that starts at the first one on
disk. -/
theorem findsInside_iff (hsize : fs.SlotSize) (hdvd : 32 ∣ fs.bytesPerCluster)
    (hp : fs.entries dir = some p) (hhead : p.fatAllocations.head? = some c) (hm : 0 < m) :
    fs.FindsInside dir m ↔ p.parentDir ≠ none ∧
      ∃ k, IsRun (fs.IsEmptySlot (fs.clusterStart c)) m k ∧
        ∀ j < k + m, fs.InClusters p (fs.clusterStart c + 32 * j) := by
  have hstart : IsSlot (fs.clusterStart c) :=
    Nat.mod_eq_zero_of_dvd (Dvd.dvd.mul_left hdvd (fs.fatEntryToClusterOffset c))
  refine ⟨fun h => h.run hsize hp hhead hstart hm, fun ⟨hparent, k, hrun, hin⟩ => ?_⟩
  obtain ⟨k', hfirst⟩ := hrun.exists_first
  have hle : k' ≤ k := Nat.le_of_not_lt fun hlt => hfirst.before k hlt hrun
  refine ⟨⟨k' + m, fs, _, findEmptyEntries_complete hsize hp hparent hhead hstart hm hfirst le_rfl,
    fun _ => ⟨p, hp, fun i hi => ?_⟩⟩, fun s hs => ?_⟩
  · have hoffset : fs.clusterStart c + 32 * k' + 32 * i = fs.clusterStart c + 32 * (k' + i) := by
      omega
    rw [hoffset]
    refine ⟨hin (k' + i) (by omega), ?_⟩
    rw [parseAttribute_eq hsize.toValid (isSlot_add.2 hstart)]
    exact congrArg some (hfirst.run i hi)
  · obtain ⟨first, hfirstPass, hreach⟩ := hs
    rw [scanStart_eq hp hhead, Option.map_eq_some_iff] at hfirstPass
    obtain ⟨q, -, rfl⟩ := hfirstPass
    obtain ⟨j, count, emptyStart, rfl, hscan⟩ := scanned_of_passes hsize hp hstart hm hreach
    refine ⟨p, hp, hin j ?_⟩
    by_contra hge
    exact hscan.none_before k' (by omega) hfirst.run

/-- In the directory `/d`, which owns one cluster, there are two empty slots in front of the file.
-/
theorem findsInside_iff_folder :
    treeVolume.FindsInside 1 2 ↔ folderEntry.parentDir ≠ none ∧
      ∃ k, IsRun (treeVolume.IsEmptySlot (treeVolume.clusterStart 3)) 2 k ∧
        ∀ j < k + 2, treeVolume.InClusters folderEntry (treeVolume.clusterStart 3 + 32 * j) :=
  findsInside_iff treeVolume_mounted.toSlotSize (by decide) rfl rfl (by decide)

/-- Behind the file in the third slot of `/d` there are 13 slots left in the cluster of the
directory. A search for 15 runs on into the next cluster of the disk. -/
theorem findsInside_leaves :
    ¬ ∀ (fs : FAT32) (dir : EntryPtr) (p : Entry) (c m : Nat), fs.SlotSize →
      32 ∣ fs.bytesPerCluster → fs.entries dir = some p → p.parentDir ≠ none →
      p.fatAllocations.head? = some c → 0 < m → fs.FindsInside dir m := by
  intro hall
  have hsize := treeVolume_mounted.toSlotSize
  have hfinds :=
    hall treeVolume 1 folderEntry 3 15 hsize (by decide) rfl (by decide) rfl (by decide)
  obtain ⟨-, k, hrun, hin⟩ := hfinds.run (p := folderEntry) hsize rfl rfl (by decide) (by decide)
  have hle : k ≤ 1 := by
    by_contra hgt
    obtain ⟨c, hc, -, -, hend⟩ := hin 16 (by omega)
    obtain rfl := List.mem_singleton.1 hc
    exact absurd hend (by decide)
  have hused : ¬ treeVolume.IsEmptySlot (treeVolume.clusterStart 3) 2 := by decide +kernel
  have hslot := hrun (2 - k) (by omega)
  rw [Nat.add_sub_cancel' (by omega : k ≤ 2)] at hslot
  exact hused hslot

end FAT32

end CrosKernel.Fs
