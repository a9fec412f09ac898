import CrosKernel.Fs.Create

/-!
# Files with clusters of their own

On a volume whose chains are apart, every sector of every file has a place of its own on the disk
(`targetSector_inj`), behind the table and outside the clusters of the directories. `Keeps` says what
a step leaves of the files, and `Keeps.blockAt` that the sectors it does not touch are among it.
-/

namespace CrosKernel.Fs

open Lib

/-! ## Chains -/

namespace FatChain

variable {fat fat' : Nat → Nat} {clusters c next : Nat} {chain chain' : List Nat}

/-- The end of a chain is a chain. -/
theorem of_append (before : List Nat) (h : FatChain fat clusters (before ++ chain)) :
    FatChain fat clusters chain where
  linked := (List.isChain_append.1 h.linked).2.1
  last_eq last hlast := by
    refine h.last_eq last ?_
    rw [List.getLast?_append, Option.mem_def.1 hlast]
    rfl
  two_le c hc := h.two_le c (List.mem_append_right _ hc)
  lt_clusters c hc := h.lt_clusters c (List.mem_append_right _ hc)

theorem tail (h : FatChain fat clusters (c :: chain)) : FatChain fat clusters chain :=
  h.of_append [c]

/-- The words of its clusters make a chain. -/
theorem congr (h : FatChain fat clusters chain) (hfat : ∀ c ∈ chain, fat' c = fat c) :
    FatChain fat' clusters chain where
  linked := h.linked.imp_of_mem_imp fun _ _ hc _ hword => (hfat _ hc).trans hword
  last_eq last hlast := (hfat last (List.mem_of_mem_getLast? hlast)).trans (h.last_eq last hlast)
  two_le := h.two_le
  lt_clusters := h.lt_clusters

/-- In front of another cluster stands its number, which is not the end marker. -/
theorem fat_eq (hmarker : clusters ≤ FAT32.endMarker) (h : FatChain fat clusters (c :: next :: chain)) :
    fat c = next ∧ fat c ≠ FAT32.endMarker := by
  have hword : fat c = next := (List.isChain_cons_cons.1 h.linked).1
  have hlt := h.lt_clusters next (by simp)
  exact ⟨hword, by omega⟩

/-- A chain is what its first cluster leads to. -/
theorem tail_eq (hmarker : clusters ≤ FAT32.endMarker) (h : FatChain fat clusters (c :: chain))
    (h' : FatChain fat clusters (c :: chain')) : chain = chain' := by
  induction chain generalizing c chain' with
  | nil =>
      have hend : fat c = FAT32.endMarker := h.last_eq c rfl
      cases chain' with
      | nil => rfl
      | cons next' rest' => exact absurd hend (h'.fat_eq hmarker).2
  | cons next rest ih =>
      obtain ⟨hword, hne⟩ := h.fat_eq hmarker
      cases chain' with
      | nil => exact absurd (h'.last_eq c rfl) hne
      | cons next' rest' =>
          obtain rfl := hword.symm.trans (h'.fat_eq hmarker).1
          rw [ih h.tail h'.tail]

/-- A chain visits no cluster twice. -/
theorem nodup (hmarker : clusters ≤ FAT32.endMarker) (h : FatChain fat clusters chain) :
    chain.Nodup := by
  induction chain with
  | nil => exact .nil
  | cons c rest ih =>
      refine List.nodup_cons.2 ⟨fun hc => ?_, ih h.tail⟩
      obtain ⟨before, after, rfl⟩ := List.append_of_mem hc
      have hagain : FatChain fat clusters (c :: after) := h.of_append (c :: before)
      have hlength := congrArg List.length (tail_eq hmarker h hagain)
      simp only [List.length_append, List.length_cons] at hlength
      omega

end FatChain

/-- The bytes of a sector. -/
abbrev Block := Fin 512 → UInt8

/-- The first 512 bytes of a buffer. -/
def Buffer.block (b : Buffer) : Block := fun i => b.data i

/-- From `e` to `e'` an entry may have received clusters; it stays what and where it is. -/
structure Entry.Grows (e e' : Entry) : Prop where
  type_eq : e'.type = e.type
  byteOffset_eq : e'.byteOffset = e.byteOffset
  parentDir_eq : e'.parentDir = e.parentDir
  fatAllocations_prefix : e.fatAllocations <+: e'.fatAllocations

namespace Entry.Grows

variable {e e' e'' : Entry}

theorem refl (e : Entry) : e.Grows e := ⟨rfl, rfl, rfl, List.prefix_rfl⟩

theorem trans (h : e.Grows e') (h' : e'.Grows e'') : e.Grows e'' where
  type_eq := h'.type_eq.trans h.type_eq
  byteOffset_eq := h'.byteOffset_eq.trans h.byteOffset_eq
  parentDir_eq := h'.parentDir_eq.trans h.parentDir_eq
  fatAllocations_prefix := h.fatAllocations_prefix.trans h'.fatAllocations_prefix

end Entry.Grows

namespace FAT32

variable {fs fs' fs'' : FAT32} {this p q : EntryPtr} {e e' : Entry} {added : List Nat}
  {c d s t x : Nat}

/-- The clusters of every entry are its chain on the disk, and none belongs to two entries. -/
structure Chains (fs : FAT32) : Prop where
  chain : ∀ p e, fs.entries p = some e → fs.OnDisk e.fatAllocations
  disjoint : ∀ p q e e', p ≠ q → fs.entries p = some e → fs.entries q = some e' →
    e.fatAllocations.Disjoint e'.fatAllocations

namespace Chains

/-- An allocation takes clusters of no chain. -/
theorem allocated (h : fs.Chains) (hentry : fs.entries this = some e)
    (halloc : AllocatedBy fs fs' this e added) (hclusters : fs'.fatEntries = fs.fatEntries) :
    fs'.Chains := by
  have hout : ∀ q e', q ≠ this → fs.entries q = some e' →
      (e.fatAllocations ++ added).Disjoint e'.fatAllocations := by
    intro q e' hne he'
    refine List.disjoint_append_left.2 ⟨h.disjoint this q e e' hne.symm hentry he', ?_⟩
    exact fun c hc => halloc.unowned q e' he' (h.chain q e' he') c hc
  have hthis : ∀ e', fs'.entries this = some e' → e' = e.addClusters added := fun e' he' =>
    Option.some.inj (he'.symm.trans halloc.entry_eq)
  constructor
  · intro q e' he'
    by_cases hq : q = this
    · rw [hq] at he'
      rw [hthis e' he']
      exact halloc.onDisk
    · rw [halloc.others_eq q hq] at he'
      unfold OnDisk
      rw [hclusters]
      exact FatChain.congr (h.chain q e' he') fun c hc =>
        halloc.frame c fun hmem => hout q e' hq he' hmem hc
  · intro p q e₁ e₂ hne h₁ h₂
    by_cases hp : p = this
    · rw [hp] at h₁ hne
      rw [halloc.others_eq q hne.symm] at h₂
      rw [hthis e₁ h₁]
      exact hout q e₂ hne.symm h₂
    · rw [halloc.others_eq p hp] at h₁
      by_cases hq : q = this
      · rw [hq] at h₂
        rw [hthis e₂ h₂]
        exact fun c hc hc' => hout p e₁ hp h₁ hc' hc
      · rw [halloc.others_eq q hq] at h₂
        exact h.disjoint p q e₁ e₂ hne h₁ h₂

/-- Chains depend on the table and on the clusters of the entries. -/
theorem congr (h : fs.Chains) (hclusters : fs'.fatEntries = fs.fatEntries)
    (hfat : ∀ c < fs.fatEntries, fs'.fatWord c = fs.fatWord c)
    (hentries : ∀ q e', fs'.entries q = some e' →
      ∃ e, fs.entries q = some e ∧ e'.fatAllocations = e.fatAllocations) : fs'.Chains := by
  constructor
  · intro q e' he'
    obtain ⟨e, he, heq⟩ := hentries q e' he'
    have hchain := h.chain q e he
    unfold OnDisk
    rw [hclusters, heq]
    exact FatChain.congr hchain fun c hc => hfat c (hchain.lt_clusters c hc)
  · intro p q e₁ e₂ hne h₁ h₂
    obtain ⟨e₁', h₁', heq₁⟩ := hentries p e₁ h₁
    obtain ⟨e₂', h₂', heq₂⟩ := hentries q e₂ h₂
    rw [heq₁, heq₂]
    exact h.disjoint p q e₁' e₂' hne h₁' h₂'

/-- A new entry without clusters. -/
theorem setEntry (h : fs.Chains) (he : e.fatAllocations = []) : (fs.setEntry this e).Chains := by
  have hcases : ∀ q e', (fs.setEntry this e).entries q = some e' →
      e'.fatAllocations = [] ∨ q ≠ this ∧ fs.entries q = some e' := by
    intro q e' he'
    by_cases hq : q = this
    · rw [hq, setEntry_entries_self] at he'
      exact .inl (Option.some.inj he' ▸ he)
    · exact .inr ⟨hq, (Function.update_of_ne hq ..).symm.trans he'⟩
  constructor
  · intro q e' he'
    obtain hnil | ⟨-, hold⟩ := hcases q e' he'
    · rw [hnil]
      exact .nil
    · exact h.chain q e' hold
  · intro p q e₁ e₂ hne h₁ h₂
    obtain hnil | ⟨-, hold₁⟩ := hcases p e₁ h₁
    · simp [hnil]
    · obtain hnil | ⟨-, hold₂⟩ := hcases q e₂ h₂
      · simp [hnil]
      · exact h.disjoint p q e₁ e₂ hne hold₁ hold₂

end Chains

/-! ## Clusters on the disk -/

/-- The byte `x` of the disk lies in the cluster `c`. -/
def InCluster (fs : FAT32) (c x : Nat) : Prop :=
  fs.clusterStart c ≤ x ∧ x < fs.clusterStart c + fs.bytesPerCluster

namespace Mounted

theorem bytesPerCluster_eq_mul (hm : fs.Mounted) :
    fs.bytesPerCluster = 512 * fs.sectorsPerCluster := by
  rw [hm.bytesPerCluster_eq, hm.bytesPerSector_eq]

theorem fatEntryToClusterOffset_eq (hm : fs.Mounted) (htwo : 2 ≤ c) (hlt : c < fs.fatEntries) :
    fs.fatEntryToClusterOffset c = c - 2 + fs.dataRegionStartClusterOffset := by
  have hclusters := hm.clusters_lt
  rw [fatEntryToClusterOffset, hm.reservedFatEntries_eq]
  omega

/-- A byte lies in one cluster. -/
theorem inCluster_unique (hm : fs.Mounted) (hc : 2 ≤ c ∧ c < fs.fatEntries)
    (hd : 2 ≤ d ∧ d < fs.fatEntries) (h : fs.InCluster c x) (h' : fs.InCluster d x) : c = d := by
  have hindex : ∀ {c}, 2 ≤ c ∧ c < fs.fatEntries → fs.InCluster c x →
      x / fs.bytesPerCluster = c - 2 + fs.dataRegionStartClusterOffset := by
    rintro c ⟨htwo, hlt⟩ ⟨hlow, hhigh⟩
    rw [clusterStart, hm.fatEntryToClusterOffset_eq htwo hlt] at hlow hhigh
    refine Nat.div_eq_of_lt_le hlow ?_
    rw [Nat.add_mul, Nat.one_mul]
    exact hhigh
  have hsame := (hindex hc h).symm.trans (hindex hd h')
  omega

theorem fatEnd_le_of_inCluster (hm : fs.Mounted) (hc : 2 ≤ c ∧ c < fs.fatEntries)
    (h : fs.InCluster c x) : fs.fatEnd ≤ x :=
  (hm.clusterStart_spec hc.1 hc.2).2.1.trans h.1

/-- The bytes of a sector of a cluster. -/
theorem inCluster_sector (hm : fs.Mounted) (c s : Nat) {i : Nat} (hi : i < 512) :
    fs.InCluster c (i + 512 * (fs.fatEntryToClusterOffset c * fs.sectorsPerCluster +
      s % fs.sectorsPerCluster)) := by
  have hlt := Nat.mod_lt s hm.sectorsPerCluster_pos
  have hmul : 512 * (fs.fatEntryToClusterOffset c * fs.sectorsPerCluster +
      s % fs.sectorsPerCluster) = fs.fatEntryToClusterOffset c * (512 * fs.sectorsPerCluster) +
        512 * (s % fs.sectorsPerCluster) := by ring
  rw [InCluster, clusterStart, hm.bytesPerCluster_eq_mul, hmul]
  omega

end Mounted

/-- Volumes of the same shape, with other bytes on the disk and other entries. -/
def Rewrites (fs fs' : FAT32) : Prop :=
  ∃ disk entries, fs' = { fs.withDisk disk with entries := entries }

theorem Rewrites.trans (h : fs.Rewrites fs') (h' : fs'.Rewrites fs'') : fs.Rewrites fs'' := by
  obtain ⟨disk, entries, rfl⟩ := h
  obtain ⟨disk', entries', rfl⟩ := h'
  exact ⟨disk', entries', rfl⟩

/-- The slot at `a` lies in a cluster of a directory or of the root. -/
def InDirectory (fs : FAT32) (a : Nat) : Prop :=
  ∃ q d c, fs.entries q = some d ∧ d.type ≠ .FILE ∧ c ∈ d.fatAllocations ∧
    ∀ j < 32, fs.InCluster c (a + j)

/-- A mounted volume whose chains are apart, with the slots of the files in directories. -/
structure Separate (fs : FAT32) : Prop extends fs.Mounted, fs.Chains where
  hasRoot : ∃ e, fs.entries fs.rootDir = some e
  slot : ∀ q e, fs.entries q = some e → e.type = .FILE →
    IsSlot e.byteOffset ∧ fs.InDirectory e.byteOffset

/-- What an entry that a step adds to a separate volume has to satisfy. -/
structure IsNewEntry (fs : FAT32) (q : EntryPtr) (e : Entry) : Prop where
  ne_root : q ≠ fs.rootDir
  parent : e.parentDir ≠ none
  directory : e.type = .DIRECTORY → ∃ c, e.fatAllocations.head? = some c ∧ fs.IsDataCluster c
  slot : e.type = .FILE → IsSlot e.byteOffset ∧ fs.InDirectory e.byteOffset

/-- What a step leaves of the files: their entries may grow, and the bytes behind the table that it
does not touch are as before. -/
structure Keeps (fs fs' : FAT32) (touched : Set Nat) : Prop where
  config : fs.Rewrites fs'
  entry : ∀ q e, fs.entries q = some e → ∃ e', fs'.entries q = some e' ∧ e.Grows e'
  bytes : ∀ x, fs.fatEnd ≤ x → x ∉ touched → fs'.di.disk x = fs.di.disk x

namespace Keeps

variable {touched touched' : Set Nat}

theorem refl (fs : FAT32) (touched : Set Nat) : fs.Keeps fs touched where
  config := ⟨fs.di.disk, fs.entries, rfl⟩
  entry _ e he := ⟨e, he, .refl e⟩
  bytes _ _ _ := rfl

theorem trans (h : fs.Keeps fs' touched) (h' : fs'.Keeps fs'' touched') :
    fs.Keeps fs'' (touched ∪ touched') where
  config := h.config.trans h'.config
  entry q e he := by
    obtain ⟨e', he', hgrows⟩ := h.entry q e he
    obtain ⟨e'', he'', hgrows'⟩ := h'.entry q e' he'
    exact ⟨e'', he'', hgrows.trans hgrows'⟩
  bytes x hx hout := by
    have hend : fs'.fatEnd = fs.fatEnd := by
      obtain ⟨disk, entries, rfl⟩ := h.config
      rfl
    have hfirst := h.bytes x hx fun hmem => hout (.inl hmem)
    have hsecond := h'.bytes x (hend ▸ hx) fun hmem => hout (.inr hmem)
    exact hsecond.trans hfirst

theorem inDirectory (h : fs.Keeps fs' touched) {a : Nat} (ha : fs.InDirectory a) :
    fs'.InDirectory a := by
  obtain ⟨q, d, c, hd, htype, hc, hin⟩ := ha
  obtain ⟨d', hd', hgrows⟩ := h.entry q d hd
  obtain ⟨disk, entries, rfl⟩ := h.config
  exact ⟨q, d', c, hd', hgrows.type_eq ▸ htype, hgrows.fatAllocations_prefix.subset hc, hin⟩

/-- A step that keeps chains apart and adds only such entries keeps a volume separate. -/
theorem separate (h : fs.Keeps fs' touched) (hfs : fs.Separate) (hchains : fs'.Chains)
    (hnew : ∀ q e', fs'.entries q = some e' → fs.entries q = none → fs.IsNewEntry q e') :
    fs'.Separate := by
  have hcases : ∀ q e', fs'.entries q = some e' →
      (∃ e, fs.entries q = some e ∧ e.Grows e') ∨ fs.IsNewEntry q e' := by
    intro q e' he'
    cases hq : fs.entries q with
    | none => exact .inr (hnew q e' he' hq)
    | some e =>
        obtain ⟨e'', he'', hgrows⟩ := h.entry q e hq
        obtain rfl : e'' = e' := Option.some.inj (he''.symm.trans he')
        exact .inl ⟨e, rfl, hgrows⟩
  have hdirectory := @h.inDirectory
  have hentry := h.entry
  obtain ⟨disk, entries, rfl⟩ := h.config
  refine {
    toSlotSize := ⟨⟨hfs.bytesPerSector_eq, hfs.disk_bytesPerSector_eq, hfs.bytesPerFatEntry_eq,
      hfs.sectorsPerCluster_pos, hfs.fatEntries_le⟩, hfs.bytesPerDirEntry_eq⟩
    bytesPerCluster_eq := hfs.bytesPerCluster_eq
    reservedFatEntries_eq := hfs.reservedFatEntries_eq
    reservedSectors_pos := hfs.reservedSectors_pos
    fatEnd_le := hfs.fatEnd_le
    clusters_lt := hfs.clusters_lt
    root := fun e' he' => ?_
    parent := fun q e' he' hroot => ?_
    directory := fun q e' he' hkind => ?_
    toChains := hchains
    hasRoot := ?_
    slot := fun q e' he' hfile => ?_ }
  · obtain ⟨e, he, hgrows⟩ | hentry := hcases _ e' he'
    · exact hgrows.parentDir_eq.trans (hfs.root e he)
    · exact absurd rfl hentry.ne_root
  · obtain ⟨e, he, hgrows⟩ | hentry := hcases q e' he'
    · rw [hgrows.parentDir_eq]
      exact hfs.parent q e he hroot
    · exact hentry.parent
  · obtain ⟨e, he, hgrows⟩ | hentry := hcases q e' he'
    · rw [hgrows.type_eq] at hkind
      obtain ⟨c, hc, hdata⟩ := hfs.directory q e he hkind
      refine ⟨c, ?_, hdata⟩
      obtain ⟨more, hmore⟩ := hgrows.fatAllocations_prefix
      rw [← hmore, List.head?_append, hc]
      rfl
    · exact hentry.directory (hkind.resolve_right hentry.ne_root)
  · obtain ⟨e, he⟩ := hfs.hasRoot
    obtain ⟨e', he', -⟩ := hentry fs.rootDir e he
    exact ⟨e', he'⟩
  · obtain ⟨e, he, hgrows⟩ | hentry := hcases q e' he'
    · rw [hgrows.type_eq] at hfile
      rw [hgrows.byteOffset_eq]
      exact ⟨(hfs.slot q e he hfile).1, hdirectory (hfs.slot q e he hfile).2⟩
    · exact ⟨(hentry.slot hfile).1, hdirectory (hentry.slot hfile).2⟩

/-- A step that changes nothing in front of the data region and gives no cluster away keeps a volume
separate. -/
theorem separate_behind (h : fs.Keeps fs' touched) (hfs : fs.Separate)
    (hbelow : ∀ x < fs.fatEnd, fs'.di.disk x = fs.di.disk x)
    (hentries : ∀ q e', fs'.entries q = some e' →
      ∃ e, fs.entries q = some e ∧ e'.fatAllocations = e.fatAllocations) : fs'.Separate := by
  refine h.separate hfs (hfs.toChains.congr ?_ (fun c hc => ?_) hentries) fun q e' he' hnone => ?_
  · obtain ⟨disk, entries, rfl⟩ := h.config
    rfl
  · have hoffset : fs'.fatEntryByteOffset c = fs.fatEntryByteOffset c := by
      obtain ⟨disk, entries, rfl⟩ := h.config
      rfl
    rw [fatWord, fatWord, hoffset]
    refine wordAt_congr fun i hi => hbelow _ ?_
    unfold fatEnd fatEntryByteOffset
    rw [hfs.bytesPerFatEntry_eq]
    omega
  · obtain ⟨e, he, -⟩ := hentries q e' he'
    exact absurd (hnone.symm.trans he) (by simp)

end Keeps

/-! ## Sectors of files -/

/-- The sector of the disk that holds a sector of a file, as `read_data` and `write_data` compute
it. -/
def targetSector (fs : FAT32) (p : EntryPtr) (s : Nat) : Option Nat := do
  let e ← fs.entries p
  if e.type ≠ .FILE then none
  else
    let c ← e.fatAllocations[s / fs.sectorsPerCluster]?
    some (fs.fatEntryToClusterOffset c * fs.sectorsPerCluster + s % fs.sectorsPerCluster)

/-- What `read_data` reads. -/
def blockAt (fs : FAT32) (p : EntryPtr) (s : Nat) : Option Block :=
  (fs.readData p s).join.map Buffer.block

theorem blockAt_eq (fs : FAT32) (p : EntryPtr) (s : Nat) :
    fs.blockAt p s = (fs.targetSector p s).map fun sector => (fs.di.read sector).block := by
  unfold blockAt readData targetSector
  cases fs.entries p with
  | none => rfl
  | some e =>
      by_cases hfile : e.type = .FILE
      · simp only [hfile, Option.bind_eq_bind, Option.bind_some, ne_eq, not_true_eq_false, if_false]
        cases e.fatAllocations[s / fs.sectorsPerCluster]? <;> rfl
      · simp [hfile]

theorem targetSector_eq_some : fs.targetSector p s = some x ↔ ∃ e c, fs.entries p = some e ∧
    e.type = .FILE ∧ e.fatAllocations[s / fs.sectorsPerCluster]? = some c ∧
      x = fs.fatEntryToClusterOffset c * fs.sectorsPerCluster + s % fs.sectorsPerCluster := by
  simp only [targetSector, Option.bind_eq_bind, Option.bind_eq_some_iff]
  constructor
  · rintro ⟨e, he, hsector⟩
    by_cases hfile : e.type = .FILE
    · rw [if_neg (not_not_intro hfile), Option.bind_eq_some_iff] at hsector
      obtain ⟨c, hc, hx⟩ := hsector
      exact ⟨e, c, he, hfile, hc, (Option.some.inj hx).symm⟩
    · rw [if_pos hfile] at hsector
      cases hsector
  · rintro ⟨e, c, he, hfile, hc, rfl⟩
    refine ⟨e, he, ?_⟩
    rw [if_neg (not_not_intro hfile), hc, Option.bind_some]

namespace Separate

/-- The clusters of an entry are clusters of the data region. -/
theorem cluster_lt (h : fs.Separate) (he : fs.entries p = some e) (hc : c ∈ e.fatAllocations) :
    2 ≤ c ∧ c < fs.fatEntries :=
  ⟨(h.chain p e he).two_le c hc, (h.chain p e he).lt_clusters c hc⟩

theorem nodup (h : fs.Separate) (he : fs.entries p = some e) : e.fatAllocations.Nodup :=
  (h.chain p e he).nodup (h.fatEntries_le.trans (by decide))

/-- The entries that own a byte are the same. -/
theorem owner_unique (h : fs.Separate) (he : fs.entries p = some e) (he' : fs.entries q = some e')
    (hc : c ∈ e.fatAllocations) (hd : d ∈ e'.fatAllocations) (hx : fs.InCluster c x)
    (hx' : fs.InCluster d x) : p = q ∧ c = d := by
  obtain rfl := h.inCluster_unique (h.cluster_lt he hc) (h.cluster_lt he' hd) hx hx'
  refine ⟨?_, rfl⟩
  by_contra hne
  exact h.disjoint p q e e' hne he he' hc hd

/-- Two sectors of files are in different places. -/
theorem targetSector_inj (h : fs.Separate) (hx : fs.targetSector p s = some x)
    (hx' : fs.targetSector q t = some x) : p = q ∧ s = t := by
  obtain ⟨e, c, he, -, hc, hsector⟩ := targetSector_eq_some.1 hx
  obtain ⟨e', d, he', -, hd, hsector'⟩ := targetSector_eq_some.1 hx'
  have hin := h.inCluster_sector c s (i := 0) (by decide)
  have hin' := h.inCluster_sector d t (i := 0) (by decide)
  rw [← hsector] at hin
  rw [← hsector'] at hin'
  obtain ⟨rfl, rfl⟩ := h.owner_unique he he' (List.mem_of_getElem? hc) (List.mem_of_getElem? hd) hin
    hin'
  obtain rfl : e = e' := Option.some.inj (he.symm.trans he')
  have hmod : s % fs.sectorsPerCluster = t % fs.sectorsPerCluster :=
    Nat.add_left_cancel (hsector.symm.trans hsector')
  have hdiv : s / fs.sectorsPerCluster = t / fs.sectorsPerCluster :=
    (List.getElem?_inj (List.getElem?_eq_some_iff.1 hc).1 (h.nodup he)).1 (hc.trans hd.symm)
  refine ⟨rfl, ?_⟩
  rw [← Nat.div_add_mod s fs.sectorsPerCluster, ← Nat.div_add_mod t fs.sectorsPerCluster, hmod, hdiv]

/-- The bytes of a sector of a file are in a cluster of the file. -/
theorem inCluster_target (h : fs.Separate) (hx : fs.targetSector p s = some x) :
    ∃ e c, fs.entries p = some e ∧ e.type = .FILE ∧ c ∈ e.fatAllocations ∧
      ∀ i < 512, fs.InCluster c (i + 512 * x) := by
  obtain ⟨e, c, he, hfile, hc, rfl⟩ := targetSector_eq_some.1 hx
  exact ⟨e, c, he, hfile, List.mem_of_getElem? hc, fun i hi => h.inCluster_sector c s hi⟩

end Separate

namespace Keeps

variable {touched : Set Nat} {b : Block}

theorem targetSector_eq (h : fs.Keeps fs' touched) (hx : fs.targetSector p s = some x) :
    fs'.targetSector p s = some x := by
  obtain ⟨e, c, he, hfile, hc, rfl⟩ := targetSector_eq_some.1 hx
  obtain ⟨e', he', hgrows⟩ := h.entry p e he
  have hc' : e'.fatAllocations[s / fs.sectorsPerCluster]? = some c := by
    obtain ⟨more, hmore⟩ := hgrows.fatAllocations_prefix
    rw [← hmore, List.getElem?_append_left (List.getElem?_eq_some_iff.1 hc).1]
    exact hc
  obtain ⟨disk, entries, rfl⟩ := h.config
  exact targetSector_eq_some.2 ⟨e', c, he', hgrows.type_eq.trans hfile, hc', rfl⟩

/-- A sector that a step does not touch keeps its bytes. -/
theorem blockAt_eq (h : fs.Keeps fs' touched) (hfs : fs.Separate) (hb : fs.blockAt p s = some b)
    (hout : ∀ x, fs.targetSector p s = some x → ∀ i < 512, i + 512 * x ∉ touched) :
    fs'.blockAt p s = some b := by
  rw [FAT32.blockAt_eq, Option.map_eq_some_iff] at hb ⊢
  obtain ⟨x, hx, rfl⟩ := hb
  refine ⟨x, h.targetSector_eq hx, ?_⟩
  obtain ⟨e, c, he, -, hc, hin⟩ := hfs.inCluster_target hx
  have hsame : ∀ i < 512, fs'.di.disk (i + 512 * x) = fs.di.disk (i + 512 * x) := fun i hi =>
    h.bytes _ (hfs.fatEnd_le_of_inCluster (hfs.cluster_lt he hc) (hin i hi)) (hout x hx i hi)
  obtain ⟨disk, entries, rfl⟩ := h.config
  funext i
  show disk (i + fs.di.bytesPerSector * x) = fs.di.disk (i + fs.di.bytesPerSector * x)
  rw [hfs.disk_bytesPerSector_eq]
  exact hsame i i.isLt

end Keeps

end FAT32

end CrosKernel.Fs
