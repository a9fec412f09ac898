import CrosKernel.Fs.Create

/-!
# Writing to a file

`Entry::write_data` of `src/fs/fat32/entry.cpp`. When the file grows, its size in memory becomes the
position behind the last byte of the data that is not zero, but its size on disk the end of the
sector: `writeData_sizes_iff` says when the two are equal.
-/

namespace CrosKernel.Fs

open Lib

namespace FAT32

variable {fs fs' fs'' : FAT32} {this : EntryPtr} {e : Entry} {added more : List Nat} {c r : Nat}

/-- The loop of `write_data` over the bytes of the sector from the last one down. -/
def dataSizeLoop (data : Buffer) : Nat → Option Nat
  | 0 => some 0
  | i + 1 => do
      let byte ← data.get i
      if byte ≠ 0 then some (i + 1) else dataSizeLoop data i

/-- The end of `write_data`, once the data is written: update the file size if needed. -/
def updateFileSize (fs : FAT32) (this : EntryPtr) (sectorOffset : Nat) (data : Buffer) :
    Option FAT32 := do
  let e ← fs.entries this
  let requiredSize := (sectorOffset + 1) * fs.bytesPerSector
  if e.fileSizeBytes < toSigned requiredSize then
    let dataSizeBytes ← dataSizeLoop data fs.bytesPerSector
    let fs := fs.setEntry this
      { e with fileSizeBytes := toSigned (sectorOffset * fs.bytesPerSector + dataSizeBytes) }
    let entrySectorOffset := e.byteOffset / fs.bytesPerSector
    let sectorByteOffset := e.byteOffset % fs.bytesPerSector
    let buffer ← Buffer.intToBytes requiredSize (fs.di.read entrySectorOffset)
      (28 + sectorByteOffset)
    some (fs.writeSector entrySectorOffset buffer)
  else some fs

/-- `Entry::write_data`. -/
def writeData (fs : FAT32) (this : EntryPtr) (sectorOffset : Nat) (data : Buffer) :
    Option (FAT32 × Bool) := do
  let e ← fs.entries this
  if e.type ≠ .FILE then some (fs, false)
  else
    let targetCluster := sectorOffset / fs.sectorsPerCluster
    let numClusters := e.fatAllocations.length
    let (fs, ok) ←
      (if targetCluster ≥ numClusters then
        fs.allocateMoreClusters this ((targetCluster + 1 : Nat) - (numClusters : Int))
      else some (fs, true))
    if !ok then some (fs, false)
    else
      let e ← fs.entries this
      let cluster ← e.fatAllocations[targetCluster]?
      let targetSectorOffset := fs.fatEntryToClusterOffset cluster * fs.sectorsPerCluster +
        sectorOffset % fs.sectorsPerCluster
      let fs ← (fs.writeSector targetSectorOffset data).updateFileSize this sectorOffset data
      some (fs, true)

/-! ## Where an allocation writes -/

/-- From `fs` to `fs'` the file `e` at `this` has received the clusters `added`, which were free.
Only words of the table that belong to its clusters have changed. -/
structure ExtendsFile (fs fs' : FAT32) (this : EntryPtr) (e : Entry) (added : List Nat) : Prop where
  config : ∃ disk entries, fs' = { fs.withDisk disk with entries := entries }
  entry_eq : fs'.entries this = some (e.addClusters added)
  frame : ∀ x, (∀ c ∈ e.fatAllocations ++ added,
    x < fs.fatEntryByteOffset c ∨ fs.fatEntryByteOffset c + 4 ≤ x) → fs'.di.disk x = fs.di.disk x
  lt : ∀ c ∈ added, c < fs.fatEntries
  used : ∀ d, d ∉ e.fatAllocations → ¬ fs.IsFree d → d ∉ added

namespace ExtendsFile

/-- A word that belongs to no cluster of the file keeps its kind. -/
theorem isFree_iff (h : ExtendsFile fs fs' this e added) (hvalid : fs.Valid) {d : Nat}
    (hd : d ∉ e.fatAllocations ++ added) : fs'.IsFree d ↔ fs.IsFree d := by
  have hword : wordAt fs'.di.disk (fs.fatEntryByteOffset d) 4 =
      wordAt fs.di.disk (fs.fatEntryByteOffset d) 4 := by
    refine wordAt_congr fun i hi => h.frame _ fun c hc => ?_
    have hne : c ≠ d := fun heq => hd (heq ▸ hc)
    unfold fatEntryByteOffset
    rw [hvalid.bytesPerFatEntry_eq]
    omega
  obtain ⟨disk, entries, hconfig⟩ := h.config
  unfold IsFree fatWord at *
  rw [hconfig] at hword ⊢
  show fs.checkFatEntryType (wordAt disk (fs.fatEntryByteOffset d) 4) = .FREE ↔ _
  rw [show wordAt disk (fs.fatEntryByteOffset d) 4 = _ from hword]

theorem valid (h : ExtendsFile fs fs' this e added) (hvalid : fs.Valid) : fs'.Valid := by
  obtain ⟨disk, entries, rfl⟩ := h.config
  exact ⟨hvalid.bytesPerSector_eq, hvalid.disk_bytesPerSector_eq, hvalid.bytesPerFatEntry_eq,
    hvalid.sectorsPerCluster_pos, hvalid.fatEntries_le⟩

/-- Two extensions in a row. -/
theorem trans (h : ExtendsFile fs fs' this e added)
    (h' : ExtendsFile fs' fs'' this (e.addClusters added) more) (hvalid : fs.Valid) :
    ExtendsFile fs fs'' this e (added ++ more) := by
  obtain ⟨disk, entries, hconfig⟩ := h.config
  obtain ⟨disk', entries', hconfig'⟩ := h'.config
  have hoffset : fs'.fatEntryByteOffset = fs.fatEntryByteOffset := by rw [hconfig]; rfl
  have hentries : fs'.fatEntries = fs.fatEntries := by rw [hconfig]; rfl
  refine {
    config := ⟨disk', entries', by rw [hconfig', hconfig]; rfl⟩
    entry_eq := by rw [h'.entry_eq, Entry.addClusters_append]
    frame := fun x hx => ?_
    lt := fun c hc => ?_
    used := fun d hd hused => ?_ }
  · rw [← List.append_assoc] at hx
    have hfirst := h.frame x fun c hc => hx c (List.mem_append_left _ hc)
    have hsecond := h'.frame x fun c hc => by rw [hoffset]; exact hx c hc
    exact hsecond.trans hfirst
  · rcases List.mem_append.1 hc with hc | hc
    · exact h.lt c hc
    · exact hentries ▸ h'.lt c hc
  · have hadded := h.used d hd hused
    have hboth : d ∉ e.fatAllocations ++ added := by simp [hd, hadded]
    have hmore := h'.used d hboth fun hfree => hused ((h.isFree_iff hvalid hboth).1 hfree)
    simp [hadded, hmore]

end ExtendsFile

theorem extendsFile_mark (hentry : fs.entries this = some e) (hc : c ∈ e.fatAllocations)
    (value : Nat) : ExtendsFile fs (fs.setFatWord c value) this e [] where
  config := ⟨_, _, rfl⟩
  entry_eq := by rw [Entry.addClusters_nil]; exact hentry
  frame x hx := setWord_outside (hx c (by simpa using hc))
  lt := by simp
  used := by simp

theorem extendsFile_add (fs : FAT32) (this : EntryPtr) (e : Entry) (hvalid : fs.Valid)
    (hr : fs.FirstFree r) (hc : c ∈ e.fatAllocations ++ [r]) (value : Nat) :
    ExtendsFile fs ((fs.setFatWord c value).setEntry this (e.addClusters [r])) this e [r] where
  config := ⟨_, _, rfl⟩
  entry_eq := setEntry_entries_self ..
  frame x hx := setWord_outside (hx c hc)
  lt x hx := by
    obtain rfl := List.mem_singleton.1 hx
    exact hr.lt_fatEntries hvalid
  used d _ hused hmem := by
    obtain rfl := List.mem_singleton.1 hmem
    exact hused hr.free

theorem ExtendsFile.refl (hentry : fs.entries this = some e) : ExtendsFile fs fs this e [] where
  config := ⟨_, _, rfl⟩
  entry_eq := by rw [Entry.addClusters_nil]; exact hentry
  frame _ _ := rfl
  lt := by simp
  used := by simp

section Allocate

variable {current n : Nat} {buffer : Buffer} {ok : Bool} {k : Int}

/-- The passes of the loop extend the file. -/
theorem Extending.allocateLoop_extends (h : Extending fs this e current buffer) (n : Nat) :
    ∃ fs' buffer' current' stopped added,
      allocateLoop this n fs buffer current = some (fs', buffer', current', stopped) ∧
        Extending fs' this (e.addClusters added) current' buffer' ∧
        ExtendsFile fs fs' this e added := by
  induction n generalizing fs e current buffer with
  | zero =>
      refine ⟨fs, buffer, current, false, [], rfl, ?_, .refl h.entry_eq⟩
      rwa [Entry.addClusters_nil]
  | succ n ih =>
      rcases findFreeCluster_spec h.valid with ⟨hnone, -⟩ | ⟨r, hfound, hfirst⟩
      · refine ⟨fs, buffer, current, true, [], allocateLoop_none hnone, ?_, .refl h.entry_eq⟩
        rwa [Entry.addClusters_nil]
      · obtain ⟨buffer', hloop, hnext⟩ := h.allocateLoop_some (n := n) hfound hfirst.ne_zero
        obtain ⟨fs', buffer'', current', stopped, added, hrest, hend, hextends⟩ := ih hnext
        have hcurrent : current ∈ e.fatAllocations ++ [r] :=
          List.mem_append_left _ (List.mem_of_getLast? h.last_eq)
        have hone := extendsFile_add fs this e h.valid hfirst hcurrent r
        refine ⟨fs', buffer'', current', stopped, [r] ++ added, hloop.trans hrest, ?_,
          hone.trans hextends h.valid⟩
        rwa [← Entry.addClusters_append]

theorem Extending.extendChain_extends (h : Extending fs this e current buffer)
    (hcall : fs.extendChain this n = some (fs', ok)) :
    ∃ added, ExtendsFile fs fs' this e added := by
  obtain ⟨fs1, buffer', current', stopped, added, hloop, hend, hextends⟩ := h.allocateLoop_extends n
  have hcurrent := List.mem_of_getLast? hend.last_eq
  rw [h.extendChain_eq hloop hend, Option.some.injEq, Prod.mk.injEq] at hcall
  refine ⟨added ++ [], ?_⟩
  rw [← hcall.1]
  exact hextends.trans (extendsFile_mark hend.entry_eq hcurrent endMarker) h.valid

/-- Whatever `allocate_more_clusters` does for a file, it changes words of the table only. -/
theorem allocateMoreClusters_extends (hvalid : fs.Valid) (hentry : fs.entries this = some e)
    (hfile : e.type = .FILE) (hcall : fs.allocateMoreClusters this k = some (fs', ok)) :
    ∃ added, ExtendsFile fs fs' this e added := by
  by_cases hk : 1 ≤ k
  · by_cases hempty : e.fatAllocations = []
    · rcases findFreeCluster_spec hvalid with ⟨hnone, -⟩ | ⟨r, -, hfirst⟩
      · rw [allocateMoreClusters_full hentry hk hempty hnone, Option.some.injEq,
          Prod.mk.injEq] at hcall
        exact ⟨[], hcall.1 ▸ .refl hentry⟩
      · rw [allocateMoreClusters_start hvalid hentry hfile hk hempty hfirst] at hcall
        obtain ⟨added, hextends⟩ := (extending_startCluster this r hvalid hfile).extendChain_extends
          hcall
        have hstart := extendsFile_add fs this e hvalid hfirst (List.mem_append_right _
          (List.mem_singleton_self r)) endMarker
        exact ⟨[r] ++ added, hstart.trans hextends hvalid⟩
    · rw [allocateMoreClusters_extend hentry hk hempty] at hcall
      exact (Extending.start hvalid hentry hfile
        (List.getLast?_eq_some_getLast hempty)).extendChain_extends hcall
  · have hnone : k ≤ 0 := by omega
    simp only [allocateMoreClusters, hnone, if_true, Option.some.injEq, Prod.mk.injEq] at hcall
    exact ⟨[], hcall.1 ▸ .refl hentry⟩

end Allocate

/-! ## The size in memory and on disk -/

theorem toSigned_mod (n : Nat) : toSigned (n % 2 ^ 32) = toSigned n := by
  unfold toSigned
  split_ifs <;> omega

/-- The size field of the slot of an entry. -/
def sizeOnDisk (fs : FAT32) (e : Entry) : Int := toSigned (wordAt fs.di.disk (e.byteOffset + 28) 4)

/-- The entry at `this` has the same size in memory and on disk. -/
def SizesAgree (fs : FAT32) (this : EntryPtr) : Prop :=
  ∃ e, fs.entries this = some e ∧ e.fileSizeBytes = fs.sizeOnDisk e

/-- The slot of a file lies behind the table, in a cluster that is in use and not one of the file's,
and apart from the words of the table that belong to the file. -/
structure SlotApart (fs : FAT32) (e : Entry) : Prop where
  slot : IsSlot e.byteOffset
  behind : fs.fatEnd ≤ e.byteOffset
  words : ∀ c ∈ e.fatAllocations, e.byteOffset + 32 ≤ fs.fatEntryByteOffset c ∨
    fs.fatEntryByteOffset c + 4 ≤ e.byteOffset
  lt : ∀ c ∈ e.fatAllocations, c < 2 ^ 32
  cluster : ∃ d, d < 2 ^ 32 ∧ d ∉ e.fatAllocations ∧ ¬ fs.IsFree d ∧
    ∃ i < fs.sectorsPerCluster,
      e.byteOffset / 512 = fs.fatEntryToClusterOffset d * fs.sectorsPerCluster + i

/-- The loop over the bytes finds the last one that is not zero. -/
theorem dataSizeLoop_spec {data : Buffer} {n : Nat} (hn : n ≤ data.size) :
    ∃ count, dataSizeLoop data n = some count ∧ count ≤ n ∧
      (0 < n → (count = n ↔ data.data (n - 1) ≠ 0)) := by
  induction n with
  | zero => exact ⟨0, rfl, le_rfl, fun h => absurd h (Nat.lt_irrefl 0)⟩
  | succ n ih =>
      have hget : data.get n = some (data.data n) := if_pos hn
      rw [dataSizeLoop, hget]
      simp only [Option.bind_eq_bind, Option.bind_some, Nat.add_sub_cancel]
      by_cases hbyte : data.data n = 0
      · obtain ⟨count, hcount, hle, -⟩ := ih (Nat.le_of_succ_le hn)
        rw [if_neg (not_not_intro hbyte)]
        exact ⟨count, hcount, by omega, fun _ => iff_of_false (by omega) (not_not_intro hbyte)⟩
      · rw [if_pos hbyte]
        exact ⟨n + 1, rfl, le_rfl, fun _ => iff_of_true rfl hbyte⟩

section Write

variable {fs1 : FAT32} {s : Nat} {data : Buffer}

/-- A successful `write_data` extends the file, writes the data to a sector of one of its clusters
and updates the size. -/
theorem writeData_eq_some (hvalid : fs.Valid) (hentry : fs.entries this = some e)
    (hfile : e.type = .FILE) (hcall : fs.writeData this s data = some (fs', true)) :
    ∃ fs1 added c, ExtendsFile fs fs1 this e added ∧ c ∈ e.fatAllocations ++ added ∧
      (fs1.writeSector (fs1.fatEntryToClusterOffset c * fs1.sectorsPerCluster +
        s % fs1.sectorsPerCluster) data).updateFileSize this s data = some fs' := by
  simp only [writeData, hentry, Option.bind_eq_bind, Option.bind_some] at hcall
  rw [if_neg (not_not_intro hfile), Option.bind_eq_some_iff] at hcall
  obtain ⟨⟨fs1, ok⟩, halloc, hcall⟩ := hcall
  have hextends : ∃ added, ExtendsFile fs fs1 this e added := by
    split at halloc
    next => exact allocateMoreClusters_extends hvalid hentry hfile halloc
    next =>
      rw [Option.some.injEq, Prod.mk.injEq] at halloc
      exact ⟨[], halloc.1 ▸ .refl hentry⟩
  obtain ⟨added, hextends⟩ := hextends
  cases ok with
  | false => simp at hcall
  | true =>
      rw [if_neg (by simp)] at hcall
      simp only [hextends.entry_eq, Option.bind_some, Option.bind_eq_some_iff] at hcall
      obtain ⟨c, hc, fs2, hupdate, hcall⟩ := hcall
      rw [Option.some.injEq, Prod.mk.injEq] at hcall
      obtain ⟨disk, entries, hconfig⟩ := hextends.config
      have hspc : fs1.sectorsPerCluster = fs.sectorsPerCluster := by rw [hconfig]; rfl
      refine ⟨fs1, added, c, hextends, List.mem_of_getElem? hc, ?_⟩
      rw [← hcall.1]
      exact hupdate

/-- Writing another sector than that of the slot leaves the size field alone. -/
theorem writeSector_sizeOnDisk (hvalid : fs.Valid) (hslot : IsSlot e.byteOffset) {sector : Nat}
    (hne : sector ≠ e.byteOffset / 512) :
    (fs.writeSector sector data).sizeOnDisk e = fs.sizeOnDisk e := by
  refine congrArg toSigned (wordAt_congr fun i hi => ?_)
  show (if _ then _ else _) = _
  rw [if_neg]
  rw [hvalid.disk_bytesPerSector_eq]
  unfold IsSlot at hslot
  omega

/-- Different clusters start at different offsets. -/
theorem fatEntryToClusterOffset_ne {d i j : Nat} (hspc : 0 < fs.sectorsPerCluster)
    (hc : c < 2 ^ 32) (hd : d < 2 ^ 32) (hne : c ≠ d) (hi : i < fs.sectorsPerCluster)
    (hj : j < fs.sectorsPerCluster) :
    fs.fatEntryToClusterOffset c * fs.sectorsPerCluster + i ≠
      fs.fatEntryToClusterOffset d * fs.sectorsPerCluster + j := by
  intro heq
  have hdiv := congrArg (· / fs.sectorsPerCluster) heq
  simp only [Nat.mul_comm _ fs.sectorsPerCluster, Nat.mul_add_div hspc, Nat.div_eq_of_lt hi,
    Nat.div_eq_of_lt hj, Nat.add_zero] at hdiv
  unfold fatEntryToClusterOffset at hdiv
  omega

/-- The clusters of a file that was extended are not the one of its slot. -/
theorem SlotApart.targetSector_ne (h : fs.SlotApart e) (hvalid : fs.Valid)
    (hextends : ExtendsFile fs fs1 this e added) (hc : c ∈ e.fatAllocations ++ added) :
    fs1.fatEntryToClusterOffset c * fs1.sectorsPerCluster + s % fs1.sectorsPerCluster ≠
      e.byteOffset / 512 := by
  obtain ⟨d, hd, hout, hused, i, hi, hsector⟩ := h.cluster
  have hentries := hvalid.fatEntries_le
  obtain ⟨disk, entries, rfl⟩ := hextends.config
  have hlt : c < 2 ^ 32 := by
    rcases List.mem_append.1 hc with hmem | hmem
    · exact h.lt c hmem
    · have hfew := hextends.lt c hmem
      omega
  have hne : c ≠ d := by
    rintro rfl
    rcases List.mem_append.1 hc with hmem | hmem
    · exact hout hmem
    · exact hextends.used c hout hused hmem
  rw [hsector]
  exact fatEntryToClusterOffset_ne hvalid.sectorsPerCluster_pos hlt hd hne
    (Nat.mod_lt s hvalid.sectorsPerCluster_pos) hi

/-- Extending a file does not change the size field of its slot. -/
theorem SlotApart.sizeOnDisk_eq (h : fs.SlotApart e) (hvalid : fs.Valid)
    (hextends : ExtendsFile fs fs1 this e added) : fs1.sizeOnDisk e = fs.sizeOnDisk e := by
  refine congrArg toSigned (wordAt_congr fun i hi => hextends.frame _ fun c hc => ?_)
  rcases List.mem_append.1 hc with hmem | hmem
  · have hword := h.words c hmem
    omega
  · have hlt := hextends.lt c hmem
    have hbehind := h.behind
    unfold fatEnd at hbehind
    unfold fatEntryByteOffset at hbehind ⊢
    rw [hvalid.bytesPerFatEntry_eq] at hbehind ⊢
    omega

/-- The size after the end of `write_data`: as it was, or the two numbers that the code computes. -/
theorem updateFileSize_spec (hvalid : fs.Valid) (hentry : fs.entries this = some e)
    (hslot : IsSlot e.byteOffset)
    (hcall : fs.updateFileSize this s data = some fs') :
    (¬ e.fileSizeBytes < toSigned ((s + 1) * 512) ∧ fs' = fs) ∨
    (e.fileSizeBytes < toSigned ((s + 1) * 512) ∧ ∃ count e',
      dataSizeLoop data 512 = some count ∧ fs'.entries this = some e' ∧
        e'.fileSizeBytes = toSigned (s * 512 + count) ∧
        fs'.sizeOnDisk e' = toSigned ((s + 1) * 512)) := by
  simp only [updateFileSize, hentry, Option.bind_eq_bind, Option.bind_some,
    hvalid.bytesPerSector_eq] at hcall
  split at hcall
  next hlt =>
    simp only [Option.bind_eq_some_iff] at hcall
    obtain ⟨count, hcount, buffer, hbuffer, hcall⟩ := hcall
    refine .inr
      ⟨hlt, count, { e with fileSizeBytes := toSigned (s * 512 + count) }, hcount, ?_, rfl,
      ?_⟩
    · rw [← Option.some.inj hcall]
      exact Function.update_self ..
    · have hsector : fs.di.InSector (e.byteOffset + 28) 4 := by
        unfold DiskInterface.InSector
        unfold IsSlot at hslot
        rw [hvalid.disk_bytesPerSector_eq]
        omega
      obtain ⟨written, hwritten, hwrite⟩ := DiskInterface.write_natToBytes ((s + 1) * 512) hsector
      have hdiv : (e.byteOffset + 28) / 512 = e.byteOffset / 512 := by
        unfold IsSlot at hslot
        omega
      have hmod : (e.byteOffset + 28) % 512 = 28 + e.byteOffset % 512 := by
        unfold IsSlot at hslot
        omega
      have hbps (e' : Entry) : (fs.setEntry this e').bytesPerSector = 512 :=
        hvalid.bytesPerSector_eq
      simp only [hbps] at hbuffer hcall
      rw [hvalid.disk_bytesPerSector_eq, hdiv, hmod] at hwritten
      rw [hvalid.disk_bytesPerSector_eq, hdiv] at hwrite
      obtain rfl : written = buffer := Option.some.inj (hwritten.symm.trans hbuffer)
      rw [← Option.some.inj hcall]
      show toSigned
        (wordAt (fs.di.write (e.byteOffset / 512) written).disk (e.byteOffset + 28) 4) = _
      rw [hwrite, wordAt_setWord_same]
      exact toSigned_mod _
  next hge => exact .inl ⟨hge, (Option.some.inj hcall).symm⟩

/-- After a successful write the sizes agree if and only if the file did not grow or the last byte
of the sector is not zero. -/
theorem writeData_sizes_iff (hvalid : fs.Valid) (hentry : fs.entries this = some e)
    (hfile : e.type = .FILE) (hslot : fs.SlotApart e) (hagree : e.fileSizeBytes = fs.sizeOnDisk e)
    (hdata : data.size = 512) (hcall : fs.writeData this s data = some (fs', true)) :
    fs'.SizesAgree this ↔
      (e.fileSizeBytes < toSigned ((s + 1) * 512) → data.data 511 ≠ 0) := by
  obtain ⟨fs1, added, c, hextends, hc, hupdate⟩ := writeData_eq_some hvalid hentry hfile hcall
  have hvalid1 := hextends.valid hvalid
  have hentry1 : (fs1.writeSector (fs1.fatEntryToClusterOffset c * fs1.sectorsPerCluster +
      s % fs1.sectorsPerCluster) data).entries this = some (e.addClusters added) :=
        hextends.entry_eq
  have hvalid2 : (fs1.writeSector (fs1.fatEntryToClusterOffset c * fs1.sectorsPerCluster +
      s % fs1.sectorsPerCluster) data).Valid :=
    ⟨hvalid1.bytesPerSector_eq, hvalid1.disk_bytesPerSector_eq, hvalid1.bytesPerFatEntry_eq,
      hvalid1.sectorsPerCluster_pos, hvalid1.fatEntries_le⟩
  rcases updateFileSize_spec hvalid2 hentry1 hslot.slot hupdate with
    ⟨hge, rfl⟩ | ⟨hlt, count, e', hcount, hentry', hsize, hdisk⟩
  · -- the size field lies outside everything that was written
    refine iff_of_true ⟨_, hentry1, ?_⟩ fun hlt => absurd hlt hge
    show e.fileSizeBytes = (fs1.writeSector _ data).sizeOnDisk e
    rw [writeSector_sizeOnDisk hvalid1 hslot.slot (hslot.targetSector_ne hvalid hextends hc),
      hslot.sizeOnDisk_eq hvalid hextends, hagree]
  · obtain ⟨count', hcount', hle, hlast⟩ := dataSizeLoop_spec (le_of_eq hdata.symm)
    obtain rfl : count' = count := Option.some.inj (hcount'.symm.trans hcount)
    have hgrows : (e.fileSizeBytes < toSigned ((s + 1) * 512) → data.data 511 ≠ 0) ↔
        count' = 512 := by
      rw [hlast (by decide)]
      exact ⟨fun h => h hlt, fun h _ => h⟩
    rw [hgrows]
    constructor
    · rintro ⟨e'', he'', heq⟩
      obtain rfl : e' = e'' := Option.some.inj (hentry'.symm.trans he'')
      rw [hsize, hdisk] at heq
      unfold toSigned at heq
      omega
    · rintro rfl
      refine ⟨e', hentry', ?_⟩
      rw [hsize, hdisk, Nat.add_mul, Nat.one_mul]

end Write

theorem fileEntry_slotApart : treeVolume.SlotApart fileEntry where
  slot := by decide
  behind := by decide
  words := by simp [fileEntry]
  lt := by simp [fileEntry]
  cluster := ⟨3, by decide, by decide, by decide +kernel, 0, by decide, by decide⟩

/-- The first sector of the file `/d/f`, filled with a letter. -/
theorem writeData_sizes_iff_file : ∃ fs', treeVolume.writeData 2 0 ⟨512, fun _ => 0x61⟩ =
      some (fs', true) ∧
    (fs'.SizesAgree 2 ↔ (fileEntry.fileSizeBytes < toSigned ((0 + 1) * 512) →
      (0x61 : UInt8) ≠ 0)) := by
  have hrun : (treeVolume.writeData 2 0 ⟨512, fun _ => 0x61⟩).map (·.2) = some true := by
    decide +kernel
  obtain ⟨⟨fs', ok⟩, hcall, hok⟩ := Option.map_eq_some_iff.1 hrun
  obtain rfl : ok = true := hok
  exact ⟨fs', hcall, writeData_sizes_iff treeVolume_mounted.toValid rfl rfl fileEntry_slotApart
    (by decide +kernel) rfl hcall⟩

/-- A sector of zeros leaves the size 0 in memory and stores the size 512 on disk. -/
theorem writeData_zeros :
    ¬ ∀ (fs fs' : FAT32) (this : EntryPtr) (e : Entry) (s : Nat) (data : Buffer), fs.Valid →
      fs.entries this = some e → e.type = .FILE → fs.SlotApart e →
      e.fileSizeBytes = fs.sizeOnDisk e → data.size = 512 →
      fs.writeData this s data = some (fs', true) → fs'.SizesAgree this := by
  intro hall
  have hrun : (treeVolume.writeData 2 0 ⟨512, fun _ => 0⟩).bind (fun r =>
      (r.1.entries 2).map fun e => (r.2, e.fileSizeBytes, r.1.sizeOnDisk e)) =
        some (true, 0, 512) := by decide +kernel
  obtain ⟨⟨fs', ok⟩, hcall, hsizes⟩ := Option.bind_eq_some_iff.1 hrun
  obtain ⟨e', he', heq⟩ := Option.map_eq_some_iff.1 hsizes
  simp only [Prod.mk.injEq] at heq
  obtain ⟨rfl, hmemory, hdisk⟩ := heq
  obtain ⟨e'', he'', hagree⟩ := hall treeVolume fs' 2 fileEntry 0 ⟨512, fun _ => 0⟩
    treeVolume_mounted.toValid rfl rfl fileEntry_slotApart (by decide +kernel) rfl hcall
  obtain rfl : e' = e'' := Option.some.inj (he'.symm.trans he'')
  rw [hmemory, hdisk] at hagree
  exact absurd hagree (by decide)

end FAT32

end CrosKernel.Fs
