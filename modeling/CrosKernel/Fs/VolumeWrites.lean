import CrosKernel.Fs.OwnClusters
import CrosKernel.Fs.WriteData

/-!
# Writing on a separate volume

`write_data` on a volume whose chains are apart, for a sector at most one cluster behind the file.
`writeData_carries` says that it stores the sector and leaves every other sector of every file.
-/

namespace CrosKernel.Fs

open Lib

/-- The name of an entry and its sub-directories. -/
def Entry.listing (e : Entry) : Str × List EntryPtr := (e.name, e.subDirs)

namespace FAT32

variable {fs fs' fs'' : FAT32} {this p q : EntryPtr} {e : Entry} {added : List Nat} {buffer : Buffer}
  {current c s t x n : Nat} {ok : Bool} {k : Int}

/-! ## Allocation -/

theorem AllocatedBy.refl (hentry : fs.entries this = some e) (hchain : fs.OnDisk e.fatAllocations) :
    AllocatedBy fs fs this e [] where
  entry_eq := by rw [Entry.addClusters_nil]; exact hentry
  others_eq _ _ := rfl
  nodup := .nil
  free := by simp
  unowned := by simp
  onDisk := by rwa [List.append_nil]
  frame _ _ := rfl

/-- An extension by one cluster, whether there is a free one or not. -/
theorem Extending.extendChain_one_allocatedBy (h : Extending fs this e current buffer)
    (hchain : fs.OnDisk e.fatAllocations) (hcall : fs.extendChain this 1 = some (fs', ok)) :
    ∃ added, AllocatedBy fs fs' this e added := by
  rcases findFreeCluster_spec h.valid with ⟨hnone, -⟩ | ⟨r, hfound, hfirst⟩
  · rw [h.extendChain_eq (allocateLoop_none hnone) h, Option.some.injEq, Prod.mk.injEq] at hcall
    exact ⟨[], hcall.1 ▸ h.allocatedBy_nil hchain⟩
  · obtain ⟨buffer', hloop, hnext⟩ := h.allocateLoop_some (n := 0) hfound hfirst.ne_zero
    rw [h.extendChain_eq hloop hnext, Option.some.injEq, Prod.mk.injEq] at hcall
    exact ⟨[r], hcall.1 ▸ h.allocatedBy_one hchain hfirst⟩

/-- As long as the loop makes one pass, `allocate_more_clusters` adds free clusters to the chain, also
when it fails. -/
theorem allocateMoreClusters_allocatedBy (hvalid : fs.Valid) (hentry : fs.entries this = some e)
    (hfile : e.type = .FILE) (hchain : fs.OnDisk e.fatAllocations)
    (hk : k ≤ if e.fatAllocations = [] then 2 else 1)
    (hcall : fs.allocateMoreClusters this k = some (fs', ok)) :
    ∃ added, AllocatedBy fs fs' this e added := by
  by_cases hpos : 1 ≤ k
  · by_cases hempty : e.fatAllocations = []
    · rw [if_pos hempty] at hk
      rcases findFreeCluster_spec hvalid with ⟨hnone, -⟩ | ⟨r, -, hfirst⟩
      · rw [allocateMoreClusters_full hentry hpos hempty hnone, Option.some.injEq,
          Prod.mk.injEq] at hcall
        exact ⟨[], hcall.1 ▸ .refl hentry hchain⟩
      · rw [allocateMoreClusters_start hvalid hentry hfile hpos hempty hfirst] at hcall
        have hstart := extending_startCluster this r hvalid hfile
        have hfirstCluster := allocatedBy_startCluster this hvalid hempty hfirst
        obtain hzero | hone : (k - 1).toNat = 0 ∨ (k - 1).toNat = 1 := by omega
        · rw [hzero, hstart.extendChain_zero, Option.some.injEq, Prod.mk.injEq] at hcall
          have hmarked := hstart.allocatedBy_nil hfirstCluster.onDisk
          exact ⟨_, hcall.1 ▸ hfirstCluster.trans hmarked hvalid hstart.valid⟩
        · rw [hone] at hcall
          obtain ⟨added, hmore⟩ := hstart.extendChain_one_allocatedBy hfirstCluster.onDisk hcall
          exact ⟨_, hfirstCluster.trans hmore hvalid hstart.valid⟩
    · rw [if_neg hempty] at hk
      have hone : (k - 1).toNat + 1 = 1 := by omega
      rw [allocateMoreClusters_extend hentry hpos hempty, hone] at hcall
      exact (Extending.start hvalid hentry hfile
        (List.getLast?_eq_some_getLast hempty)).extendChain_one_allocatedBy hchain hcall
  · have hnone : k ≤ 0 := by omega
    simp only [allocateMoreClusters, hnone, if_true, Option.some.injEq, Prod.mk.injEq] at hcall
    exact ⟨[], hcall.1 ▸ .refl hentry hchain⟩

/-! ## The size -/

/-- The size that `write_data` of a sector leaves: a file that does not reach behind the sector gets
the end of the data in it, which is behind the last byte that is not zero. -/
def sizeAfter (size : Int) (s : Nat) (data : Buffer) : Int :=
  if size < toSigned ((s + 1) * 512) then toSigned (s * 512 + (dataSizeLoop data 512).getD 0)
  else size

/-- The end of `write_data` changes the size in memory and four bytes of the slot. -/
theorem updateFileSize_eq {data : Buffer} (hvalid : fs.Valid) (hentry : fs.entries this = some e)
    (hslot : IsSlot e.byteOffset) (hcall : fs.updateFileSize this s data = some fs') :
    ∃ disk, fs' = (fs.withDisk disk).setEntry this
        { e with fileSizeBytes := sizeAfter e.fileSizeBytes s data } ∧
      ∀ x, x < e.byteOffset + 28 ∨ e.byteOffset + 32 ≤ x → disk x = fs.di.disk x := by
  simp only [updateFileSize, hentry, Option.bind_eq_bind, Option.bind_some,
    hvalid.bytesPerSector_eq] at hcall
  split at hcall
  next hlt =>
    simp only [Option.bind_eq_some_iff] at hcall
    obtain ⟨count, hcount, written, hwritten, hcall⟩ := hcall
    have hsector : fs.di.InSector (e.byteOffset + 28) 4 := by
      unfold DiskInterface.InSector
      unfold IsSlot at hslot
      rw [hvalid.disk_bytesPerSector_eq]
      omega
    obtain ⟨written', hwritten', hwrite⟩ := DiskInterface.write_natToBytes ((s + 1) * 512) hsector
    have hdiv : (e.byteOffset + 28) / 512 = e.byteOffset / 512 := by
      unfold IsSlot at hslot
      omega
    have hmod : (e.byteOffset + 28) % 512 = 28 + e.byteOffset % 512 := by
      unfold IsSlot at hslot
      omega
    have hbps (e' : Entry) : (fs.setEntry this e').bytesPerSector = 512 :=
      hvalid.bytesPerSector_eq
    simp only [hbps] at hwritten hcall
    rw [hvalid.disk_bytesPerSector_eq, hdiv, hmod] at hwritten'
    rw [hvalid.disk_bytesPerSector_eq, hdiv] at hwrite
    obtain rfl : written' = written := Option.some.inj (hwritten'.symm.trans hwritten)
    have hsize : sizeAfter e.fileSizeBytes s data = toSigned (s * 512 + count) := by
      rw [sizeAfter, if_pos hlt, hcount, Option.getD_some]
    refine ⟨(fs.di.write (e.byteOffset / 512) written').disk, ?_, fun x hx => ?_⟩
    · rw [hsize]
      exact (Option.some.inj hcall).symm
    · rw [hwrite]
      exact setWord_outside (by omega)
  next hge =>
    refine ⟨fs.di.disk, ?_, fun _ _ => rfl⟩
    have hsame : Function.update fs.entries this (some e) = fs.entries := by
      rw [← hentry, Function.update_eq_self]
    have hset : fs.setEntry this e = fs := by
      unfold setEntry
      rw [hsame]
    rw [sizeAfter, if_neg hge]
    exact (Option.some.inj hcall).symm.trans hset.symm

/-! ## The steps of `write_data` -/

/-- The allocation of `write_data` leaves the bytes of the files. -/
theorem Separate.allocate (h : fs.Separate) (hentry : fs.entries this = some e)
    (hfile : e.type = .FILE) (hk : k ≤ if e.fatAllocations = [] then 2 else 1)
    (hcall : fs.allocateMoreClusters this k = some (fs', ok)) :
    fs'.Separate ∧ fs.Keeps fs' ∅ ∧ (∃ added, fs'.entries this = some (e.addClusters added)) ∧
      ∀ q, q ≠ this → fs'.entries q = fs.entries q := by
  obtain ⟨added, hallocated⟩ := allocateMoreClusters_allocatedBy h.toValid hentry hfile
    (h.chain this e hentry) hk hcall
  obtain ⟨added', hextends⟩ := allocateMoreClusters_extends h.toValid hentry hfile hcall
  have hclusters : fs'.fatEntries = fs.fatEntries := by
    obtain ⟨disk, entries, rfl⟩ := hextends.config
    rfl
  have hkeeps : fs.Keeps fs' ∅ := by
    refine ⟨hextends.config, fun q e' he' => ?_, fun x hx _ => hextends.frame x fun c hc => ?_⟩
    · by_cases hq : q = this
      · subst hq
        obtain rfl : e' = e := Option.some.inj (he'.symm.trans hentry)
        exact ⟨_, hallocated.entry_eq, rfl, rfl, rfl, List.prefix_append ..⟩
      · exact ⟨e', (hallocated.others_eq q hq).trans he', .refl e'⟩
    · have hlt : c < fs.fatEntries := (List.mem_append.1 hc).elim
        (fun hmem => (h.cluster_lt hentry hmem).2) (hextends.lt c)
      unfold fatEnd fatEntryByteOffset at hx
      unfold fatEntryByteOffset
      rw [h.bytesPerFatEntry_eq] at hx ⊢
      omega
  refine ⟨hkeeps.separate h (h.toChains.allocated hentry hallocated hclusters) ?_, hkeeps,
    ⟨added, hallocated.entry_eq⟩, hallocated.others_eq⟩
  intro q e' he' hnone
  have hq : q ≠ this := by
    rintro rfl
    exact absurd (hnone.symm.trans hentry) (by simp)
  rw [hallocated.others_eq q hq, hnone] at he'
  cases he'

/-- Writing a sector of a file. -/
theorem Separate.writeSector (h : fs.Separate) (hx : fs.targetSector this s = some x)
    (data : Buffer) :
    (fs.writeSector x data).Separate ∧
      fs.Keeps (fs.writeSector x data) {y | 512 * x ≤ y ∧ y < 512 * x + 512} ∧
      (fs.writeSector x data).blockAt this s = some data.block := by
  have hdisk : ∀ y, (fs.writeSector x data).di.disk y =
      if 512 * x ≤ y ∧ y < 512 * x + 512 then data.data (y - 512 * x) else fs.di.disk y := by
    intro y
    rw [← h.disk_bytesPerSector_eq]
    rfl
  obtain ⟨e, c, he, -, hc, hin⟩ := h.inCluster_target hx
  have hbehind : fs.fatEnd ≤ 512 * x := by
    have hfirst := h.fatEnd_le_of_inCluster (h.cluster_lt he hc) (hin 0 (by decide))
    rwa [Nat.zero_add] at hfirst
  have hkeeps : fs.Keeps (fs.writeSector x data) {y | 512 * x ≤ y ∧ y < 512 * x + 512} :=
    ⟨⟨_, fs.entries, rfl⟩, fun q e he => ⟨e, he, .refl e⟩, fun y _ hy => (hdisk y).trans (if_neg hy)⟩
  refine ⟨hkeeps.separate_behind h (fun y hy => (hdisk y).trans (if_neg (by omega)))
    fun q e' he' => ⟨e', he', rfl⟩, hkeeps, ?_⟩
  rw [blockAt_eq, show (fs.writeSector x data).targetSector this s = some x from hx, Option.map_some]
  refine congrArg some (funext fun i => ?_)
  show (fs.writeSector x data).di.disk (i + fs.di.bytesPerSector * x) = data.data i
  have hlt := i.isLt
  rw [h.disk_bytesPerSector_eq, hdisk, if_pos (by omega), Nat.add_sub_cancel]

/-- Changing the size of a file. -/
theorem Separate.updateFileSize (h : fs.Separate) {data : Buffer}
    (hentry : fs.entries this = some e) (hfile : e.type = .FILE)
    (hcall : fs.updateFileSize this s data = some fs') :
    fs'.Separate ∧ fs.Keeps fs' {y | ∃ j < 32, y = e.byteOffset + j} ∧
      fs'.entries this = some { e with fileSizeBytes := sizeAfter e.fileSizeBytes s data } ∧
        ∀ q, q ≠ this → fs'.entries q = fs.entries q := by
  obtain ⟨hslot, hdirectory⟩ := h.slot this e hentry hfile
  obtain ⟨disk, rfl, hdisk⟩ := updateFileSize_eq h.toValid hentry hslot hcall
  obtain ⟨size, hsize⟩ : ∃ size, size = sizeAfter e.fileSizeBytes s data := ⟨_, rfl⟩
  rw [← hsize]
  have hbehind : fs.fatEnd ≤ e.byteOffset := by
    obtain ⟨q, d, c, hd, -, hc, hin⟩ := hdirectory
    exact h.fatEnd_le_of_inCluster (h.cluster_lt hd hc) (hin 0 (by decide))
  have hentries : ∀ q e', fs.entries q = some e' → ∃ e'', Function.update fs.entries this
      (some { e with fileSizeBytes := size }) q = some e'' ∧ e'.Grows e'' ∧
        e''.fatAllocations = e'.fatAllocations := by
    intro q e' he'
    by_cases hq : q = this
    · subst hq
      obtain rfl : e' = e := Option.some.inj (he'.symm.trans hentry)
      exact ⟨_, Function.update_self .., ⟨rfl, rfl, rfl, List.prefix_rfl⟩, rfl⟩
    · exact ⟨e', (Function.update_of_ne hq ..).trans he', .refl e', rfl⟩
  have hkeeps : fs.Keeps ((fs.withDisk disk).setEntry this { e with fileSizeBytes := size })
      {y | ∃ j < 32, y = e.byteOffset + j} := by
    refine ⟨⟨disk, _, rfl⟩, fun q e' he' => ?_, fun y _ hy => hdisk y ?_⟩
    · obtain ⟨e'', he'', hgrows, -⟩ := hentries q e' he'
      exact ⟨e'', he'', hgrows⟩
    · by_contra hin
      exact hy ⟨y - e.byteOffset, by omega, by omega⟩
  refine ⟨hkeeps.separate_behind h (fun y hy => hdisk y (by omega)) fun q e' he' => ?_, hkeeps,
    setEntry_entries_self .., fun q hq => Function.update_of_ne hq ..⟩
  by_cases hq : q = this
  · subst hq
    rw [setEntry_entries_self] at he'
    exact ⟨e, hentry, Option.some.inj he' ▸ rfl⟩
  · exact ⟨e', (Function.update_of_ne hq ..).symm.trans he', rfl⟩

/-! ## Paths -/

section Paths

variable (hentries : ∀ q, (fs'.entries q).map Entry.listing = (fs.entries q).map Entry.listing)
include hentries

theorem findSubDirLoop_congr (name : Str) (list : List EntryPtr) :
    fs'.findSubDirLoop name list = fs.findSubDirLoop name list := by
  induction list with
  | nil => rfl
  | cons q rest ih =>
      have hq := hentries q
      simp only [findSubDirLoop, Option.bind_eq_bind]
      cases he : fs.entries q with
      | none =>
          rw [he, Option.map_none, Option.map_eq_none_iff] at hq
          rw [hq]
          rfl
      | some e =>
          rw [he, Option.map_some, Option.map_eq_some_iff] at hq
          obtain ⟨e', he', hlisting⟩ := hq
          have hname : e'.name = e.name := congrArg Prod.fst hlisting
          rw [he', Option.bind_some, Option.bind_some, hname, ih]

theorem findSubDir_congr (p : EntryPtr) (name : Str) :
    fs'.findSubDir p name = fs.findSubDir p name := by
  have hp := hentries p
  simp only [findSubDir, Option.bind_eq_bind]
  cases he : fs.entries p with
  | none =>
      rw [he, Option.map_none, Option.map_eq_none_iff] at hp
      rw [hp]
      rfl
  | some e =>
      rw [he, Option.map_some, Option.map_eq_some_iff] at hp
      obtain ⟨e', he', hlisting⟩ := hp
      have hsub : e'.subDirs = e.subDirs := congrArg Prod.snd hlisting
      rw [he', Option.bind_some, Option.bind_some, hsub, findSubDirLoop_congr hentries]

/-- Paths depend on the names and the sub-directories of the entries. -/
theorem findEntry_congr (hroot : fs'.rootDir = fs.rootDir) (path : Str) :
    fs'.findEntry path = fs.findEntry path := by
  have hloop : ∀ names current, fs'.findEntryLoop current names = fs.findEntryLoop current names := by
    intro names
    induction names with
    | nil => exact fun _ => rfl
    | cons name rest ih =>
        intro current
        simp only [findEntryLoop, findSubDir_congr hentries, ih]
  unfold findEntry
  rw [hroot]
  split
  · rfl
  · split
    · rfl
    · exact hloop _ _

end Paths

/-- The listing of the tree, when one entry was assigned to. -/
theorem listing_eq {e' : Entry} (hentry : fs.entries this = some e)
    (hentry' : fs'.entries this = some e') (hlisting : e'.listing = e.listing)
    (hothers : ∀ q, q ≠ this → fs'.entries q = fs.entries q) (q : EntryPtr) :
    (fs'.entries q).map Entry.listing = (fs.entries q).map Entry.listing := by
  by_cases hq : q = this
  · rw [hq, hentry, hentry', Option.map_some, Option.map_some, hlisting]
  · rw [hothers q hq]

/-! ## The whole call -/

/-- From `fs` to `fs'` the volume stays separate, paths that resolved resolve to the same entries, and
the sectors of files keep their bytes, except for those that are `written`. Entries of which nothing is
written keep their size. -/
structure Carries (fs fs' : FAT32) (written : EntryPtr → Nat → Prop) : Prop where
  separate : fs'.Separate
  config : fs.Rewrites fs'
  found : ∀ path p, fs.findEntry path = some (some p) → fs'.findEntry path = some (some p)
  block : ∀ p s b, ¬ written p s → fs.blockAt p s = some b → fs'.blockAt p s = some b
  size : ∀ p e, (∀ s, ¬ written p s) → fs.entries p = some e →
    ∃ e', fs'.entries p = some e' ∧ e'.fileSizeBytes = e.fileSizeBytes

theorem Carries.refl (h : fs.Separate) (written : EntryPtr → Nat → Prop) : Carries fs fs written :=
  ⟨h, ⟨fs.di.disk, fs.entries, rfl⟩, fun _ _ hp => hp, fun _ _ _ _ hb => hb,
    fun _ e _ he => ⟨e, he, rfl⟩⟩

theorem Carries.trans {written written' : EntryPtr → Nat → Prop} (h : Carries fs fs' written)
    (h' : Carries fs' fs'' written') (hle : ∀ p s, written p s → written' p s) :
    Carries fs fs'' written' where
  separate := h'.separate
  config := h.config.trans h'.config
  found path p hp := h'.found path p (h.found path p hp)
  block p s b hnot hb := h'.block p s b hnot (h.block p s b (fun hw => hnot (hle p s hw)) hb)
  size p e hnot he := by
    obtain ⟨e', he', hsize⟩ := h.size p e (fun s hw => hnot s (hle p s hw)) he
    obtain ⟨e'', he'', hsize'⟩ := h'.size p e' hnot he'
    exact ⟨e'', he'', hsize'.trans hsize⟩

theorem Carries.mono {written written' : EntryPtr → Nat → Prop} (h : Carries fs fs' written)
    (hle : ∀ p s, written p s → written' p s) : Carries fs fs' written' where
  separate := h.separate
  config := h.config
  found := h.found
  block p s b hnot := h.block p s b fun hw => hnot (hle p s hw)
  size p e hnot := h.size p e fun s hw => hnot s (hle p s hw)

/-- The slots of directories are not in the sectors of files. -/
theorem Separate.slot_apart (h : fs.Separate) {a : Nat} (ha : fs.InDirectory a)
    (hx : fs.targetSector p s = some x) {i : Nat} (hi : i < 512) :
    i + 512 * x ∉ {y | ∃ j < 32, y = a + j} := by
  rintro ⟨j, hj, heq⟩
  obtain ⟨q, d, c, hd, htype, hc, hin⟩ := ha
  obtain ⟨e, c', he, hfile, hc', hin'⟩ := h.inCluster_target hx
  have hsector := hin' i hi
  rw [heq] at hsector
  obtain ⟨rfl, -⟩ := h.owner_unique hd he hc hc' (hin j hj) hsector
  exact htype (Option.some.inj (hd.symm.trans he) ▸ hfile)

section Calls

variable {data : Buffer} (h : fs.Separate) (hentry : fs.entries this = some e)
  (hfile : e.type = .FILE)
include h hentry hfile

theorem Separate.allocate_carries (hk : k ≤ if e.fatAllocations = [] then 2 else 1)
    (hcall : fs.allocateMoreClusters this k = some (fs', ok)) :
    Carries fs fs' (fun _ _ => False) ∧
      ∃ added, fs'.entries this = some (e.addClusters added) := by
  obtain ⟨h', hkeeps, ⟨added, hentry'⟩, hothers⟩ := h.allocate hentry hfile hk hcall
  have hroot : fs'.rootDir = fs.rootDir := by
    obtain ⟨disk, entries, rfl⟩ := hkeeps.config
    rfl
  have hlisting := listing_eq hentry hentry' rfl hothers
  refine ⟨⟨h', hkeeps.config, fun path p hp => (findEntry_congr hlisting hroot path).trans hp,
    fun p t b _ hb => hkeeps.blockAt_eq h hb fun _ _ _ _ hmem => hmem, fun p e' _ he' => ?_⟩, added,
    hentry'⟩
  by_cases hp : p = this
  · subst hp
    obtain rfl := Option.some.inj (hentry.symm.trans he')
    exact ⟨_, hentry', rfl⟩
  · exact ⟨e', (hothers p hp).trans he', rfl⟩

/-- Storing a sector of the file and updating the size. -/
theorem Separate.storeSector (hx : fs.targetSector this s = some x)
    (hcall : (fs.writeSector x data).updateFileSize this s data = some fs') :
    Carries fs fs' (fun p t => p = this ∧ t = s) ∧ fs'.blockAt this s = some data.block ∧
      fs'.entries this = some { e with fileSizeBytes := sizeAfter e.fileSizeBytes s data } := by
  obtain ⟨h₁, hkeeps₁, hstored⟩ := h.writeSector hx data
  obtain ⟨h', hkeeps, hentry', hothers⟩ := h₁.updateFileSize hentry hfile hcall
  have hroot : fs'.rootDir = fs.rootDir := by
    obtain ⟨disk, entries, rfl⟩ := hkeeps.config
    rfl
  have hlisting : ∀ q, (fs'.entries q).map Entry.listing = (fs.entries q).map Entry.listing :=
    listing_eq hentry hentry' rfl hothers
  have hslot := (h₁.slot this e hentry hfile).2
  have hblock : ∀ p t b, (fs.writeSector x data).blockAt p t = some b → fs'.blockAt p t = some b :=
    fun p t b hb => hkeeps.blockAt_eq h₁ hb fun y hy i hi => h₁.slot_apart hslot hy hi
  refine ⟨⟨h', hkeeps₁.config.trans hkeeps.config,
    fun path p hp => (findEntry_congr hlisting hroot path).trans hp,
    fun p t b hnot hb => hblock p t b (hkeeps₁.blockAt_eq h hb fun y hy i hi hmem => ?_),
    fun p e' hnot he' => ⟨e', (hothers p fun hp => hnot s ⟨hp, rfl⟩).trans he', rfl⟩⟩,
    hblock this s _ hstored, hentry'⟩
  -- another sector of a file stands in another place
  have hin : 512 * x ≤ i + 512 * y ∧ i + 512 * y < 512 * x + 512 := hmem
  obtain rfl : y = x := by omega
  exact hnot (h.targetSector_inj hy hx)

end Calls

/-- `write_data` for a sector at most one cluster behind the file: a success stores the sector, and
nothing else changes in the files. -/
theorem Separate.writeData_carries (h : fs.Separate) (hentry : fs.entries this = some e)
    (hone : s / fs.sectorsPerCluster ≤ max 1 e.fatAllocations.length) {data : Buffer}
    (hcall : fs.writeData this s data = some (fs', ok)) :
    Carries fs fs' (fun p t => ok = true ∧ p = this ∧ t = s) ∧
      (ok = true → fs'.blockAt this s = some data.block ∧ ∃ e', fs'.entries this = some e' ∧
        e'.fileSizeBytes = sizeAfter e.fileSizeBytes s data) := by
  simp only [writeData, hentry, Option.bind_eq_bind, Option.bind_some] at hcall
  by_cases hfile : e.type = .FILE
  · rw [if_neg (not_not_intro hfile), Option.bind_eq_some_iff] at hcall
    obtain ⟨⟨fs₁, ok₁⟩, halloc, hcall⟩ := hcall
    -- the file has room for the sector, or it is extended
    have hallocated : Carries fs fs₁ (fun _ _ => False) ∧
        ∃ added, fs₁.entries this = some (e.addClusters added) := by
      split at halloc
      next =>
        refine h.allocate_carries hentry hfile ?_ halloc
        split
        next hempty =>
          rw [hempty] at hone ⊢
          simp only [List.length_nil] at hone ⊢
          omega
        next hne =>
          have hpos := List.length_pos_iff.2 hne
          omega
      next =>
        rw [Option.some.injEq, Prod.mk.injEq] at halloc
        obtain ⟨rfl, -⟩ := halloc
        exact ⟨.refl h _, [], by rw [Entry.addClusters_nil]; exact hentry⟩
    obtain ⟨hcarries, added, hentry₁⟩ := hallocated
    cases ok₁ with
    | false =>
        rw [if_pos (by rfl), Option.some.injEq, Prod.mk.injEq] at hcall
        obtain ⟨rfl, rfl⟩ := hcall
        exact ⟨hcarries.trans (.refl hcarries.separate _) fun _ _ hw => hw.elim,
          fun hok => absurd hok (by decide)⟩
    | true =>
        rw [if_neg (by simp)] at hcall
        simp only [hentry₁, Option.bind_some, Option.bind_eq_some_iff] at hcall
        obtain ⟨c, hc, fs₂, hupdate, hcall⟩ := hcall
        rw [Option.some.injEq, Prod.mk.injEq] at hcall
        obtain ⟨rfl, rfl⟩ := hcall
        have hspc : fs₁.sectorsPerCluster = fs.sectorsPerCluster := by
          obtain ⟨disk, entries, rfl⟩ := hcarries.config
          rfl
        rw [← hspc] at hc
        have htarget := targetSector_eq_some.2 ⟨_, c, hentry₁, hfile, hc, rfl⟩
        obtain ⟨hstore, hstored, hentry'⟩ :=
          hcarries.separate.storeSector hentry₁ hfile htarget hupdate
        refine ⟨hcarries.trans (hstore.mono fun _ _ hw => ⟨rfl, hw⟩) fun _ _ hw => hw.elim,
          fun _ => ⟨hstored, _, hentry', rfl⟩⟩
  · rw [if_pos hfile, Option.some.injEq, Prod.mk.injEq] at hcall
    obtain ⟨rfl, rfl⟩ := hcall
    exact ⟨.refl h _, fun hok => absurd hok (by decide)⟩

end FAT32

end CrosKernel.Fs
