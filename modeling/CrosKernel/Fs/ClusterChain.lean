import CrosKernel.Fs.FatAllocation

/-!
# Reading the chain of an entry

`find_cluster_allocations` of `src/fs/fat32/entry_helpers.cpp`. Its loop classifies the word that it
just fetched instead of the one it stands for, and pushes once more after the loop. What it appends
is `collected`; `findClusterAllocations_chain_iff` says for which chains this is the chain.
-/

namespace CrosKernel.Fs

namespace FAT32

/-- The sector of a FAT entry as `find_cluster_allocations` computes it, in `unsigned int`
arithmetic. -/
def clusterFatSectorOffset (fs : FAT32) (entryOffset : Nat) : Nat :=
  fs.reservedSectors + entryOffset * fs.bytesPerFatEntry % 2 ^ 32 / fs.bytesPerSector

/-- The position of a FAT entry in its sector, in the same arithmetic. -/
def clusterFatIntOffset (fs : FAT32) (entryOffset : Nat) : Nat :=
  entryOffset * fs.bytesPerFatEntry % 2 ^ 32 % fs.bytesPerSector

/-- The loop of `find_cluster_allocations`, with the clusters that it pushes. A cyclic chain runs
out of fuel. -/
def findClusterLoop (fs : FAT32) : Nat → FatEntryType → Buffer → Nat → Option (List Nat)
  | 0, _, _, _ => none
  | fuel + 1, type, buffer, current =>
      if type ≠ .ALLOCATED then some [current]
      else do
        let next ← buffer.bytesToInt (fs.clusterFatIntOffset current)
        let buffer :=
          if fs.checkFatEntryType next = .ALLOCATED ∧
              fs.clusterFatSectorOffset next ≠ fs.clusterFatSectorOffset current then
            fs.di.read (fs.clusterFatSectorOffset next)
          else buffer
        let pushed ← findClusterLoop fs fuel (fs.checkFatEntryType next) buffer next
        pure (current :: pushed)

/-- `Entry::find_cluster_allocations`. -/
def findClusterAllocations (fs : FAT32) (fuel : Nat) (this : EntryPtr) (first : Nat) :
    Option FAT32 :=
  if first = 0 then some fs
  else do
    let buffer := fs.di.read (fs.clusterFatSectorOffset first)
    let val ← buffer.bytesToInt (fs.clusterFatIntOffset first)
    let pushed ← fs.findClusterLoop fuel (fs.checkFatEntryType val) buffer first
    let e ← fs.entries this
    pure (fs.setEntry this { e with fatAllocations := e.fatAllocations ++ pushed })

/-! ## Chains on disk -/

/-- A cluster of the data region: its number is below the reserved values, and it has an entry in
the table. -/
def IsDataCluster (fs : FAT32) (c : Nat) : Prop := 2 ≤ c ∧ c < 0xFFFFFF7 ∧ c < fs.fatEntries

/-- A word that marks the end of a chain. Its upper four bits are reserved. -/
def IsEndMarker (val : Nat) : Prop := 0xFFFFFF8 ≤ val % 2 ^ 28

instance (fs : FAT32) (c : Nat) : Decidable (fs.IsDataCluster c) :=
  inferInstanceAs (Decidable (_ ∧ _))

instance (val : Nat) : Decidable (IsEndMarker val) := inferInstanceAs (Decidable (_ ≤ _))

/-- `chain` is the chain of its first cluster: each word holds the next cluster number and the last
one an end marker. -/
structure IsChainOf (fs : FAT32) (chain : List Nat) : Prop where
  linked : chain.IsChain fun c next => fs.fatWord c = next
  last : ∀ c ∈ chain.getLast?, IsEndMarker (fs.fatWord c)
  nodup : chain.Nodup
  data : ∀ c ∈ chain, fs.IsDataCluster c

/-- The clusters below the number of clusters that `check_fat_entry_type` computes. -/
def Counted (fs : FAT32) (c : Nat) : Prop := c < fs.totalSectors / fs.sectorsPerCluster

instance (fs : FAT32) (c : Nat) : Decidable (fs.Counted c) := inferInstanceAs (Decidable (_ < _))

/-- What the loop pushes for a chain once it was entered. -/
def collected (fs : FAT32) : List Nat → List Nat
  | [] => []
  | [c] => [c, fs.fatWord c]
  | c :: d :: rest => if fs.Counted d then c :: collected fs (d :: rest) else [c, d]

variable {fs : FAT32} {c : Nat} {chain : List Nat}

/-- The number of clusters does not exceed what FAT32 allows. -/
def FewClusters (fs : FAT32) : Prop := fs.totalSectors / fs.sectorsPerCluster ≤ 0xFFFFFF7

instance (fs : FAT32) : Decidable fs.FewClusters := inferInstanceAs (Decidable (_ ≤ _))

/-- A cluster number below the reserved values. -/
def IsClusterNumber (c : Nat) : Prop := 2 ≤ c ∧ c < 0xFFFFFF7

theorem IsDataCluster.isClusterNumber (h : fs.IsDataCluster c) : IsClusterNumber c :=
  ⟨h.1, h.2.1⟩

/-- The words of the clusters of `chain` link them up to an end marker. -/
structure IsLinked (fs : FAT32) (chain : List Nat) : Prop where
  linked : chain.IsChain fun c next => fs.fatWord c = next
  last : ∀ c ∈ chain.getLast?, IsEndMarker (fs.fatWord c)
  number : ∀ c ∈ chain, IsClusterNumber c

theorem IsChainOf.isLinked (h : fs.IsChainOf chain) : fs.IsLinked chain :=
  ⟨h.linked, h.last, fun c hc => (h.data c hc).isClusterNumber⟩

theorem checkFatEntryType_number (h : IsClusterNumber c) :
    fs.checkFatEntryType c = .ALLOCATED ↔ fs.Counted c := by
  obtain ⟨htwo, hlt⟩ := h
  have hand : c &&& 0xFFFFFFF = c := by
    rw [show 0xFFFFFFF = 2 ^ 28 - 1 from rfl, Nat.and_two_pow_sub_one_eq_mod,
      Nat.mod_eq_of_lt (by omega)]
  simp only [checkFatEntryType, hand]
  rw [if_neg (by omega), if_neg (by omega), if_neg (by omega)]
  show (if fs.Counted c then FatEntryType.ALLOCATED else FatEntryType.RESERVED) = .ALLOCATED ↔ _
  by_cases hcounted : fs.Counted c <;> simp [hcounted]

theorem checkFatEntryType_endMarker_ne {val : Nat} (h : IsEndMarker val) (hfew : fs.FewClusters) :
    fs.checkFatEntryType val ≠ .ALLOCATED := by
  unfold IsEndMarker at h
  unfold FewClusters at hfew
  simp only [checkFatEntryType]
  split
  · simp
  · split
    · simp
    · split
      · simp
      · rw [if_neg (by omega)]
        simp

/-- The offsets of a cluster do not wrap. -/
theorem clusterFatOffsets_eq (hvalid : fs.HasSectors) (h : IsClusterNumber c) :
    fs.clusterFatSectorOffset c = fs.fatEntrySectorOffset c ∧
      fs.clusterFatIntOffset c = fs.fatEntrySectorByteOffset c := by
  obtain ⟨-, hlt⟩ := h
  unfold clusterFatSectorOffset clusterFatIntOffset fatEntrySectorOffset fatEntrySectorByteOffset
    fatEntryByteOffset
  rw [hvalid.bytesPerSector_eq, hvalid.bytesPerFatEntry_eq]
  omega

/-- The word that `find_cluster_allocations` reads for a cluster. -/
def clusterWord (fs : FAT32) (c : Nat) : Option Nat :=
  (fs.di.read (fs.clusterFatSectorOffset c)).bytesToInt (fs.clusterFatIntOffset c)

theorem read_clusterFat (hvalid : fs.HasSectors) (h : IsClusterNumber c) :
    (fs.di.read (fs.clusterFatSectorOffset c)).bytesToInt (fs.clusterFatIntOffset c) =
      some (fs.fatWord c) := by
  obtain ⟨hsector, hint⟩ := clusterFatOffsets_eq hvalid h
  rw [hsector, hint]
  exact hvalid.read_fatWord c

theorem clusterWord_eq (hvalid : fs.HasSectors) (h : IsClusterNumber c) :
    fs.clusterWord c = some (fs.fatWord c) :=
  read_clusterFat hvalid h

/-! ## The loop -/

theorem findClusterLoop_ended {type : FatEntryType} (h : type ≠ .ALLOCATED) (fuel : Nat)
    (buffer : Buffer) (current : Nat) :
    fs.findClusterLoop (fuel + 1) type buffer current = some [current] := by
  simp [findClusterLoop, h]

/-- A round of the loop. The buffer is that of the sector of the current cluster, read again or
not. -/
theorem findClusterLoop_allocated (fs : FAT32) (fuel c : Nat) :
    fs.findClusterLoop (fuel + 1) .ALLOCATED (fs.di.read (fs.clusterFatSectorOffset c)) c =
      (do
        let d ← fs.clusterWord c
        let pushed ← fs.findClusterLoop fuel (fs.checkFatEntryType d)
          (fs.di.read (fs.clusterFatSectorOffset d)) d
        pure (c :: pushed)) := by
  show (fs.clusterWord c >>= fun d => _) = _
  refine congrArg (fs.clusterWord c >>= ·) (funext fun d => ?_)
  by_cases htype : fs.checkFatEntryType d = .ALLOCATED
  · have hbuffer : (if fs.checkFatEntryType d = .ALLOCATED ∧
        fs.clusterFatSectorOffset d ≠ fs.clusterFatSectorOffset c then
          fs.di.read (fs.clusterFatSectorOffset d)
        else fs.di.read (fs.clusterFatSectorOffset c)) =
        fs.di.read (fs.clusterFatSectorOffset d) := by
      split
      next => rfl
      next hsame =>
        rw [not_and, not_not] at hsame
        rw [hsame htype]
    simp only [hbuffer]
  · -- the loop ends at once, so the buffer does not matter
    cases fuel with
    | zero => rfl
    | succ fuel => simp only [findClusterLoop_ended htype]

/-- Once it was entered, the loop pushes what `collected` says. -/
theorem findClusterLoop_spec (hvalid : fs.HasSectors) (hfew : fs.FewClusters)
    (h : fs.IsLinked (c :: chain)) {fuel : Nat} (hfuel : chain.length + 1 < fuel) :
    fs.findClusterLoop fuel .ALLOCATED (fs.di.read (fs.clusterFatSectorOffset c)) c =
      some (fs.collected (c :: chain)) := by
  induction chain generalizing c fuel with
  | nil =>
      obtain ⟨n, rfl⟩ : ∃ n, fuel = n + 2 := ⟨fuel - 2, by simp at hfuel; omega⟩
      have hread := clusterWord_eq hvalid (h.number c (by simp))
      have hend : fs.checkFatEntryType (fs.fatWord c) ≠ .ALLOCATED :=
        checkFatEntryType_endMarker_ne (h.last c (by simp)) hfew
      simp [findClusterLoop_allocated, findClusterLoop_ended hend, hread, collected]
  | cons d rest ih =>
      obtain ⟨n, rfl⟩ : ∃ n, fuel = n + 2 := ⟨fuel - 2, by simp at hfuel; omega⟩
      have hread := clusterWord_eq hvalid (h.number c (by simp))
      have hword : fs.fatWord c = d := (List.isChain_cons_cons.1 h.linked).1
      have htail : fs.IsLinked (d :: rest) :=
        ⟨(List.isChain_cons_cons.1 h.linked).2, by simpa using h.last,
          fun x hx => h.number x (List.mem_cons_of_mem c hx)⟩
      have htype : fs.checkFatEntryType d = .ALLOCATED ↔ fs.Counted d :=
        checkFatEntryType_number (htail.number d (by simp))
      by_cases hcounted : fs.Counted d
      · have hlt : rest.length + 1 < n + 1 := by
          simp only [List.length_cons] at hfuel
          omega
        have hrest := ih htail hlt
        simp [findClusterLoop_allocated, hread, hword, htype.2 hcounted, hrest, collected, hcounted]
      · have hne : fs.checkFatEntryType d ≠ .ALLOCATED := fun heq => hcounted (htype.1 heq)
        simp [findClusterLoop_allocated, findClusterLoop_ended hne, hread, hword, collected,
          hcounted]

/-- More fuel does not change what the loop pushes. -/
theorem findClusterLoop_add {fuel : Nat} {type : FatEntryType} {buffer : Buffer} {current : Nat}
    {pushed : List Nat} (extra : Nat)
    (h : fs.findClusterLoop fuel type buffer current = some pushed) :
    fs.findClusterLoop (fuel + extra) type buffer current = some pushed := by
  induction fuel generalizing type buffer current pushed with
  | zero => simp [findClusterLoop] at h
  | succ fuel ih =>
      rw [Nat.add_right_comm]
      by_cases hentered : type = .ALLOCATED
      · simp only [findClusterLoop, hentered, ne_eq, not_true_eq_false, if_false,
          Option.bind_eq_bind, Option.bind_eq_some_iff] at h ⊢
        obtain ⟨next, hnext, rest, hrest, hpushed⟩ := h
        exact ⟨next, hnext, rest, ih hrest, hpushed⟩
      · simpa [findClusterLoop, hentered] using h

/-- What the loop pushes is the chain when all clusters but the last are counted and the last one is
not. -/
theorem collected_eq_iff (c : Nat) (chain : List Nat) :
    fs.collected (c :: chain) = c :: chain ↔
      ∃ middle last, chain = middle ++ [last] ∧ (∀ d ∈ middle, fs.Counted d) ∧
        ¬ fs.Counted last := by
  induction chain generalizing c with
  | nil => simp [collected]
  | cons d rest ih =>
      by_cases hcounted : fs.Counted d
      · simp only [collected, hcounted, if_true, List.cons.injEq, true_and, ih]
        constructor
        · rintro ⟨middle, last, rfl, hmiddle, hlast⟩
          exact ⟨d :: middle, last, rfl, by simpa [hcounted] using hmiddle, hlast⟩
        · rintro ⟨middle, last, heq, hmiddle, hlast⟩
          cases middle with
          | nil =>
              obtain ⟨rfl, rfl⟩ : d = last ∧ rest = [] := by simpa using heq
              exact absurd hcounted hlast
          | cons x middle =>
              obtain ⟨rfl, rfl⟩ : d = x ∧ rest = middle ++ [last] := by simpa using heq
              exact ⟨middle, last, rfl, fun y hy => hmiddle y (List.mem_cons_of_mem _ hy), hlast⟩
      · simp only [collected, hcounted, if_false, List.cons.injEq, true_and]
        constructor
        · intro heq
          exact ⟨[], d, by simp [← heq], by simp, hcounted⟩
        · rintro ⟨middle, last, heq, hmiddle, -⟩
          cases middle with
          | nil =>
              obtain ⟨-, rfl⟩ : d = last ∧ rest = [] := by simpa using heq
              rfl
          | cons x middle =>
              obtain ⟨rfl, -⟩ : d = x ∧ rest = middle ++ [last] := by simpa using heq
              exact absurd (hmiddle d (by simp)) hcounted

/-- `find_cluster_allocations` appends the chain of a first cluster exactly when the chain has one
cluster, or when it has at least three and, of all but the first, only the last is not below the
number of clusters. -/
theorem findClusterAllocations_chain_iff {this : EntryPtr} {e : Entry} (hvalid : fs.Valid)
    (hfew : fs.FewClusters) (hentry : fs.entries this = some e) (h : fs.IsChainOf (c :: chain))
    {fuel : Nat} (hfuel : chain.length + 1 < fuel) :
    ∃ appended, fs.findClusterAllocations fuel this c =
        some (fs.setEntry this { e with fatAllocations := e.fatAllocations ++ appended }) ∧
      (appended = c :: chain ↔ chain = [] ∨ ∃ middle last, middle ≠ [] ∧ chain = middle ++ [last] ∧
        (∀ d ∈ middle, fs.Counted d) ∧ ¬ fs.Counted last) := by
  have hdata := h.data c (by simp)
  have hne : c ≠ 0 := by
    have htwo := hdata.1
    omega
  have hread := read_clusterFat hvalid.hasSectors hdata.isClusterNumber
  by_cases hentered : fs.checkFatEntryType (fs.fatWord c) = .ALLOCATED
  · refine ⟨fs.collected (c :: chain), ?_, ?_⟩
    · simp [findClusterAllocations, hne, hread, hentered,
        findClusterLoop_spec hvalid.hasSectors hfew h.isLinked hfuel, hentry]
    · -- the second cluster is counted, so the last one is not the second
      cases chain with
      | nil =>
          exact absurd hentered (checkFatEntryType_endMarker_ne (h.last c (by simp)) hfew)
      | cons d rest =>
          have hword : fs.fatWord c = d := (List.isChain_cons_cons.1 h.linked).1
          have hcounted : fs.Counted d :=
            (checkFatEntryType_number (h.data d (by simp)).isClusterNumber).1 (hword ▸ hentered)
          rw [collected_eq_iff]
          constructor
          · rintro ⟨middle, last, heq, hmiddle, hlast⟩
            refine .inr ⟨middle, last, ?_, heq, hmiddle, hlast⟩
            rintro rfl
            obtain ⟨rfl, -⟩ : d = last ∧ rest = [] := by simpa using heq
            exact hlast hcounted
          · rintro (heq | ⟨middle, last, -, heq, hmiddle, hlast⟩)
            · cases heq
            · exact ⟨middle, last, heq, hmiddle, hlast⟩
  · obtain ⟨n, rfl⟩ : ∃ n, fuel = n + 1 := ⟨fuel - 1, by omega⟩
    refine ⟨[c], by simp [findClusterAllocations, hne, hread, findClusterLoop, hentered, hentry],
      ?_⟩
    cases chain with
    | nil => simp
    | cons d rest =>
        have hword : fs.fatWord c = d := (List.isChain_cons_cons.1 h.linked).1
        have hcounted : ¬ fs.Counted d := fun hc => hentered
          (hword ▸ (checkFatEntryType_number (h.data d (by simp)).isClusterNumber).2 hc)
        refine iff_of_false (by simp) ?_
        rintro (heq | ⟨middle, last, hmiddle, heq, hall, -⟩)
        · cases heq
        · cases middle with
          | nil => exact hmiddle rfl
          | cons x middle =>
              obtain ⟨rfl, -⟩ : d = x ∧ rest = middle ++ [last] := by simpa using heq
              exact hcounted (hall d (by simp))

/-- The small volume with the chain of the clusters 2 and 3. -/
private def chainedVolume : FAT32 := (smallVolume.setFatWord 2 3).setFatWord 3 endMarker

private theorem chainedVolume_valid : chainedVolume.Valid :=
  (smallVolume_valid.setFatWord 2 3).setFatWord 3 endMarker

theorem findClusterAllocations_chain_iff_last :
    ∃ appended, chainedVolume.findClusterAllocations 2 0 3 =
        some (chainedVolume.setEntry 0 { emptyFile with fatAllocations := [] ++ appended }) ∧
      (appended = [3] ↔ ([] : List Nat) = [] ∨ ∃ middle last, middle ≠ [] ∧
        [] = middle ++ [last] ∧ (∀ d ∈ middle, chainedVolume.Counted d) ∧
        ¬ chainedVolume.Counted last) := by
  have hmarker : IsEndMarker (chainedVolume.fatWord 3) := by decide +kernel
  have hdata : chainedVolume.IsDataCluster 3 := by decide +kernel
  have hchain : chainedVolume.IsChainOf [3] :=
    ⟨.singleton 3, by simpa using hmarker, by simp, by simpa using hdata⟩
  exact findClusterAllocations_chain_iff chainedVolume_valid (by decide) rfl hchain (by simp)

/-- For the chain of two clusters the end marker is appended, too. -/
theorem findClusterAllocations_pushes_marker :
    ¬ ∀ (fs : FAT32) (this : EntryPtr) (e : Entry) (c : Nat) (chain : List Nat), fs.Valid →
      fs.FewClusters → fs.entries this = some e → fs.IsChainOf (c :: chain) →
      ∃ fuel, fs.findClusterAllocations fuel this c = some
        (fs.setEntry this { e with fatAllocations := e.fatAllocations ++ c :: chain }) := by
  intro hall
  have hlinked : chainedVolume.fatWord 2 = 3 := by decide +kernel
  have hword : chainedVolume.fatWord 3 = endMarker := by decide +kernel
  have hmarker : IsEndMarker endMarker := by decide
  have hfew : chainedVolume.FewClusters := by decide
  have hdata : chainedVolume.IsDataCluster 2 ∧ chainedVolume.IsDataCluster 3 := by decide +kernel
  have hchain : chainedVolume.IsChainOf [2, 3] :=
    ⟨by simpa using hlinked, by simpa [hword] using hmarker, by simp, by simpa using hdata⟩
  obtain ⟨fuel, h⟩ := hall chainedVolume 0 emptyFile 2 [3] chainedVolume_valid hfew rfl hchain
  have hread := read_clusterFat chainedVolume_valid.hasSectors hdata.1.isClusterNumber
  have hentered : chainedVolume.checkFatEntryType 3 = .ALLOCATED := by decide
  have hentry : chainedVolume.entries 0 = some emptyFile := rfl
  simp only [findClusterAllocations, OfNat.ofNat_ne_zero, if_false, hread, hlinked, hentered,
    hentry, Option.bind_eq_bind, Option.bind_some, Option.bind_eq_some_iff, Option.pure_def] at h
  obtain ⟨pushed, hloop, hset⟩ := h
  -- with fuel to spare the loop pushes the end marker, too
  have hmore := findClusterLoop_add 3 hloop
  rw [findClusterLoop_spec chainedVolume_valid.hasSectors hfew hchain.isLinked (by simp)] at hmore
  have hpushed : pushed = [2, 3] := by
    have hentries := congrArg (fun fs => (fs.entries 0).map Entry.fatAllocations)
      (Option.some.inj hset)
    simpa [setEntry, emptyFile] using hentries
  have hcollected : chainedVolume.collected [2, 3] = [2, 3, endMarker] := by decide +kernel
  rw [hcollected, hpushed] at hmore
  exact absurd hmore (by simp)

end FAT32

end CrosKernel.Fs
