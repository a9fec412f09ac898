import CrosKernel.Fs.FatTable

/-!
# Allocation of clusters

The effect of `Entry::allocate_more_clusters` on the allocation table and on the entry of a file.
`Allocated` is the intended effect. The loop of the code links a cluster before it looks for the
next one but marks it as used only after that search, so two passes of the loop in a row find the
same cluster (`extendChain_repeats`). `allocated_iff` says for which numbers of clusters a
successful call has the intended effect.
-/

namespace CrosKernel.Fs

open Lib

/-- An entry with the clusters `added` behind its own. -/
def Entry.addClusters (e : Entry) (added : List Nat) : Entry :=
  { e with fatAllocations := e.fatAllocations ++ added }

theorem Entry.addClusters_nil (e : Entry) : e.addClusters [] = e := by
  simp [addClusters]

theorem Entry.addClusters_append (e : Entry) (added more : List Nat) :
    (e.addClusters added).addClusters more = e.addClusters (added ++ more) := by
  simp [addClusters]

namespace FAT32

/-- `AllocatedBy fs fs' this e added`: from `fs` to `fs'` the entry `e` at `this` has received the
clusters `added`, all different, free before and in no chain; its chain on disk is its list of
clusters; other entries of the volume and of the table are as before. -/
structure AllocatedBy (fs fs' : FAT32) (this : EntryPtr) (e : Entry) (added : List Nat) :
    Prop where
  entry_eq : fs'.entries this = some (e.addClusters added)
  others_eq : ∀ p, p ≠ this → fs'.entries p = fs.entries p
  nodup : added.Nodup
  free : ∀ c ∈ added, fs.IsFree c
  unowned : ∀ p other, fs.entries p = some other → fs.OnDisk other.fatAllocations →
    ∀ c ∈ added, c ∉ other.fatAllocations
  onDisk : fs'.OnDisk (e.fatAllocations ++ added)
  frame : ∀ c, c ∉ e.fatAllocations ++ added → fs'.fatWord c = fs.fatWord c

/-- From `fs` to `fs'` the entry `e` at `this` has received exactly `k` clusters. -/
def Allocated (fs fs' : FAT32) (this : EntryPtr) (e : Entry) (k : Nat) : Prop :=
  ∃ added, added.length = k ∧ AllocatedBy fs fs' this e added

variable {fs fs' fs'' : FAT32} {this : EntryPtr} {e : Entry} {current r n : Nat} {buffer : Buffer}

/-- The `FREE` words: zero in the low 28 bits, except for the end marker. -/
theorem checkFatEntryType_free_iff (fs : FAT32) (val : Nat) :
    fs.checkFatEntryType val = .FREE ↔ val ≠ 0xFFFFFFFF ∧ val &&& 0xFFFFFFF = 0 := by
  simp only [checkFatEntryType]
  by_cases hend : val = 0xFFFFFFFF
  · simp [hend]
  · by_cases hzero : val &&& 0xFFFFFFF = 0
    · simp [hend, hzero]
    · simp only [hend, hzero, if_false, and_false, iff_false]
      split
      · simp
      · split <;> simp

/-- Whether an entry of the table is free depends on its word only. -/
theorem isFree_congr {c : Nat} (h : fs'.fatWord c = fs.fatWord c) :
    fs'.IsFree c ↔ fs.IsFree c := by
  rw [IsFree, IsFree, h, checkFatEntryType_free_iff, checkFatEntryType_free_iff]

/-- Free clusters are in no entry whose clusters are its chain on disk. -/
theorem unowned_of_free {added : List Nat} (hvalid : fs.Valid) (hfree : ∀ c ∈ added, fs.IsFree c)
    (p : EntryPtr) (other : Entry) (_ : fs.entries p = some other)
    (hchain : fs.OnDisk other.fatAllocations) (c : Nat) (hc : c ∈ added) :
    c ∉ other.fatAllocations :=
  fun hmem => hchain.not_isFree hvalid hmem (hfree c hc)

/-- Two allocations in a row are one allocation. -/
theorem AllocatedBy.trans {added more : List Nat} (h : AllocatedBy fs fs' this e added)
    (h' : AllocatedBy fs' fs'' this (e.addClusters added) more)
    (hvalid : fs.Valid) (hvalid' : fs'.Valid) :
    AllocatedBy fs fs'' this e (added ++ more) := by
  have hnew : ∀ c ∈ more, c ∉ e.fatAllocations ++ added :=
    fun c hc hmem => h.onDisk.not_isFree hvalid' hmem (h'.free c hc)
  have hfree : ∀ c ∈ added ++ more, fs.IsFree c := by
    intro c hc
    rcases List.mem_append.mp hc with hc | hc
    · exact h.free c hc
    · exact (isFree_congr (h.frame c (hnew c hc))).mp (h'.free c hc)
  refine {
    entry_eq := by rw [h'.entry_eq, Entry.addClusters_append]
    others_eq := fun p hp => (h'.others_eq p hp).trans (h.others_eq p hp)
    nodup := ?_
    free := hfree
    unowned := unowned_of_free hvalid hfree
    onDisk := by simpa [Entry.addClusters] using h'.onDisk
    frame := ?_ }
  · rw [List.nodup_append]
    refine ⟨h.nodup, h'.nodup, ?_⟩
    rintro a ha b hb rfl
    exact hnew a hb (List.mem_append.mpr (Or.inr ha))
  · intro c hc
    simp only [List.mem_append, not_or] at hc
    rw [h'.frame c (by simp [Entry.addClusters, hc]), h.frame c (by simp [hc])]

/-! ## One pass of the loop -/

/-- The state in which the loop of `allocate_more_clusters` stands before a pass: `e` is the file
entry at `this`, `current` its last cluster, and `buffer` a copy of the sector of that cluster. -/
structure Extending (fs : FAT32) (this : EntryPtr) (e : Entry) (current : Nat) (buffer : Buffer) :
    Prop where
  valid : fs.Valid
  entry_eq : fs.entries this = some e
  isFile : e.type = .FILE
  last_eq : e.fatAllocations.getLast? = some current
  buffer_eq : buffer = fs.di.read (fs.fatEntrySectorOffset current)

/-- The volume after `current` has been linked to `r` and `r` has joined the clusters of `e`. -/
def linkCluster (fs : FAT32) (this : EntryPtr) (e : Entry) (current r : Nat) : FAT32 :=
  (fs.setFatWord current r).setEntry this (e.addClusters [r])

/-- A file needs no setup of its clusters. -/
theorem setupCluster_file (hentry : fs.entries this = some e) (hfile : e.type = .FILE) :
    fs.setupCluster this r = some fs := by
  simp [setupCluster, hentry, hfile]

theorem pushAllocation_eq (hentry : fs.entries this = some e) :
    fs.pushAllocation this r = some (fs.setEntry this (e.addClusters [r])) := by
  simp [pushAllocation, hentry, Entry.addClusters]

namespace Extending

/-- The loop stops when no cluster is free. -/
theorem allocateLoop_none (hnone : fs.findFreeCluster = some 0) :
    allocateLoop this (n + 1) fs buffer current = some (fs, buffer, current, true) := by
  simp [allocateLoop, hnone]

/-- A pass that finds a cluster links it and continues from it. -/
theorem allocateLoop_some (h : Extending fs this e current buffer)
    (hfound : fs.findFreeCluster = some r) (hr : r ≠ 0) :
    ∃ buffer', allocateLoop this (n + 1) fs buffer current =
        allocateLoop this n (fs.linkCluster this e current r) buffer' r ∧
      Extending (fs.linkCluster this e current r) this (e.addClusters [r]) r buffer' := by
  obtain ⟨written, hwritten, hwrite⟩ := h.valid.writeFatEntry_eq current r
  have hentry : (fs.setFatWord current r).entries this = some e := h.entry_eq
  refine ⟨_, ?_, (h.valid.setFatWord current r).setEntry this _, setEntry_entries_self .., h.isFile,
    by simp [Entry.addClusters], rfl⟩
  simp only [allocateLoop, hfound, Option.bind_eq_bind, Option.bind_some, hr, if_false,
    h.buffer_eq, hwritten, hwrite, setupCluster_file hentry h.isFile, pushAllocation_eq hentry]
  rfl

/-- Any number of passes ends in such a state again, with more clusters in the entry. -/
theorem allocateLoop_total (h : Extending fs this e current buffer) (n : Nat) :
    ∃ fs' buffer' current' stopped added,
      allocateLoop this n fs buffer current = some (fs', buffer', current', stopped) ∧
        Extending fs' this (e.addClusters added) current' buffer' := by
  induction n generalizing fs e current buffer with
  | zero =>
      refine ⟨fs, buffer, current, false, [], rfl, ?_⟩
      rwa [Entry.addClusters_nil]
  | succ n ih =>
      rcases findFreeCluster_spec h.valid with ⟨hnone, -⟩ | ⟨r, hfound, hfirst⟩
      · refine ⟨fs, buffer, current, true, [], allocateLoop_none hnone, ?_⟩
        rwa [Entry.addClusters_nil]
      · obtain ⟨buffer', hloop, hnext⟩ := h.allocateLoop_some (n := n) hfound hfirst.ne_zero
        obtain ⟨fs', buffer'', current', stopped, added, hrest, hend⟩ := ih hnext
        refine ⟨fs', buffer'', current', stopped, [r] ++ added, hloop.trans hrest, ?_⟩
        rwa [← Entry.addClusters_append]

end Extending

/-! ## The end of the chain -/

/-- The state in which `extendChain` starts. -/
theorem Extending.start (hvalid : fs.Valid) (hentry : fs.entries this = some e)
    (hfile : e.type = .FILE) (hlast : e.fatAllocations.getLast? = some current) :
    Extending fs this e current (fs.di.read (fs.fatEntrySectorOffset current)) :=
  ⟨hvalid, hentry, hfile, hlast, rfl⟩

/-- After the loop the last cluster is marked as the end. -/
theorem Extending.extendChain_eq {e' : Entry} {current' : Nat} {buffer' : Buffer} {stopped : Bool}
    (h : Extending fs this e current buffer)
    (hloop : allocateLoop this n fs buffer current = some (fs', buffer', current', stopped))
    (h' : Extending fs' this e' current' buffer') :
    fs.extendChain this n = some (fs'.setFatWord current' endMarker, !stopped) := by
  obtain ⟨written, hwritten, hwrite⟩ := h'.valid.writeFatEntry_eq current' endMarker
  rw [h.buffer_eq] at hloop
  simp [extendChain, h.entry_eq, h.last_eq, hloop, h'.buffer_eq, hwritten, hwrite]

/-- Extending a chain by nothing marks its last cluster again. -/
theorem Extending.extendChain_zero (h : Extending fs this e current buffer) :
    fs.extendChain this 0 = some (fs.setFatWord current endMarker, true) :=
  h.extendChain_eq (n := 0) rfl h

/-- A successful extension by one cluster links and marks the first free one. -/
theorem Extending.extendChain_one (h : Extending fs this e current buffer)
    (hsuccess : fs.extendChain this 1 = some (fs', true)) :
    ∃ r, fs.FirstFree r ∧
      fs' = (fs.linkCluster this e current r).setFatWord r endMarker := by
  rcases findFreeCluster_spec h.valid with ⟨hnone, -⟩ | ⟨r, hfound, hfirst⟩
  · rw [h.extendChain_eq (allocateLoop_none hnone) h] at hsuccess
    simp at hsuccess
  · obtain ⟨buffer', hloop, hnext⟩ := h.allocateLoop_some (n := 0) hfound hfirst.ne_zero
    rw [h.extendChain_eq hloop hnext] at hsuccess
    refine ⟨r, hfirst, ?_⟩
    simpa using hsuccess.symm

/-- The words of the table after an extension by one cluster. -/
theorem linkCluster_fatWord (this : EntryPtr) (e : Entry) (current : Nat) (hvalid : fs.Valid)
    (hr : r < 2 ^ 32) :
    ((fs.linkCluster this e current r).setFatWord r endMarker).fatWord =
      Function.update (Function.update fs.fatWord current r) r endMarker := by
  have hlinked : (fs.linkCluster this e current r).fatWord =
      Function.update fs.fatWord current r := hvalid.fatWord_setFatWord hr
  have hvalid' : (fs.linkCluster this e current r).Valid :=
    (hvalid.setFatWord current r).setEntry this _
  rw [hvalid'.fatWord_setFatWord (by decide), hlinked]

/-- One free cluster is added: what is left to prove is the chain on disk, and that the other words
stay. -/
theorem FirstFree.allocatedBy (hfirst : fs.FirstFree r) (hvalid : fs.Valid)
    (hentry : fs'.entries this = some (e.addClusters [r]))
    (hothers : ∀ p, p ≠ this → fs'.entries p = fs.entries p)
    (honDisk : fs'.OnDisk (e.fatAllocations ++ [r]))
    (hframe : ∀ c, c ∉ e.fatAllocations ++ [r] → fs'.fatWord c = fs.fatWord c) :
    AllocatedBy fs fs' this e [r] where
  entry_eq := hentry
  others_eq := hothers
  nodup := by simp
  free := by simpa using hfirst.free
  unowned := unowned_of_free hvalid (by simpa using hfirst.free)
  onDisk := honDisk
  frame := hframe

/-- An extension by one cluster has the intended effect. -/
theorem Extending.allocatedBy_one (h : Extending fs this e current buffer)
    (hchain : fs.OnDisk e.fatAllocations) (hfirst : fs.FirstFree r) :
    AllocatedBy fs ((fs.linkCluster this e current r).setFatWord r endMarker) this e [r] := by
  have hentries := h.valid.fatEntries_le
  have hlt := hfirst.lt_fatEntries h.valid
  have hword := linkCluster_fatWord this e current h.valid
    (show r < 2 ^ 32 by omega)
  have hnew : r ∉ e.fatAllocations := fun hmem => hchain.not_isFree h.valid hmem hfirst.free
  have hcurrent : current ∈ e.fatAllocations := List.mem_of_getLast? h.last_eq
  have hne : current ≠ r := fun heq => hnew (heq ▸ hcurrent)
  refine hfirst.allocatedBy h.valid (setEntry_entries_self ..)
    (fun p hp => Function.update_of_ne hp ..) ?_ ?_
  · refine FatChain.append hchain h.last_eq ?_ hfirst.two_le hlt hnew ?_ ?_ ?_
    · exact hentries.trans (by decide)
    · rw [hword, Function.update_of_ne hne, Function.update_self]
    · rw [hword, Function.update_self]
    · intro other hlast hother
      rw [hword, Function.update_of_ne hother, Function.update_of_ne hlast]
  · intro c hc
    simp only [List.mem_append, List.mem_singleton, not_or] at hc
    have hlast : c ≠ current := fun heq => hc.1 (heq ▸ hcurrent)
    rw [hword, Function.update_of_ne hc.2, Function.update_of_ne hlast]

/-- The second of two passes in a row finds the cluster of the first one again. -/
theorem FirstFree.linkCluster (hfirst : fs.FirstFree r) (this : EntryPtr) (e : Entry)
    (hvalid : fs.Valid) (hcurrent : ¬ fs.IsFree current) :
    (fs.linkCluster this e current r).FirstFree r := by
  have hentries := hvalid.fatEntries_le
  have hlt := hfirst.lt_fatEntries hvalid
  have hword : (fs.linkCluster this e current r).fatWord =
      Function.update fs.fatWord current r := hvalid.fatWord_setFatWord (by omega)
  have hsame : ∀ c, c ≠ current →
      ((fs.linkCluster this e current r).IsFree c ↔ fs.IsFree c) :=
    fun c hc => isFree_congr (by rw [hword, Function.update_of_ne hc])
  have hne : r ≠ current := fun heq => hcurrent (heq ▸ hfirst.free)
  refine ⟨hfirst.two_le, hfirst.lt_clustersPerFat, (hsame r hne).mpr hfirst.free, ?_⟩
  intro c htwo hc hfree
  by_cases heq : c = current
  · rw [IsFree, heq, hword, Function.update_self] at hfree
    exact checkFatEntryType_cluster _ hfirst.two_le (by omega) hfree
  · exact hfirst.before c htwo hc ((hsame c heq).mp hfree)

/-- A successful extension by two or more clusters adds its first cluster twice. -/
theorem Extending.extendChain_repeats (h : Extending fs this e current buffer)
    (hcurrent : ¬ fs.IsFree current) (hsuccess : fs.extendChain this (n + 2) = some (fs', true)) :
    ∃ r rest, fs'.entries this = some (e.addClusters (r :: r :: rest)) := by
  rcases findFreeCluster_spec h.valid with ⟨hnone, -⟩ | ⟨r, hfound, hfirst⟩
  · rw [h.extendChain_eq (allocateLoop_none hnone) h] at hsuccess
    simp at hsuccess
  · obtain ⟨buffer', hloop, hnext⟩ := h.allocateLoop_some (n := n + 1) hfound hfirst.ne_zero
    have hagain := (hfirst.linkCluster this e h.valid hcurrent).findFreeCluster_eq
      hnext.valid
    obtain ⟨buffer'', hloop', hnext'⟩ :=
      hnext.allocateLoop_some (n := n) hagain hfirst.ne_zero
    obtain ⟨end', bufferEnd, currentEnd, stopped, added, hrest, hend⟩ :=
      hnext'.allocateLoop_total n
    rw [h.extendChain_eq (hloop.trans (hloop'.trans hrest)) hend] at hsuccess
    simp only [Option.some.injEq, Prod.mk.injEq] at hsuccess
    refine ⟨r, added, ?_⟩
    rw [← hsuccess.1, setFatWord_entries, hend.entry_eq, Entry.addClusters_append,
      Entry.addClusters_append]
    rfl

/-- An entry that has received a cluster twice was not extended as intended. -/
theorem not_allocated {added : List Nat} {k : Nat}
    (hentry : (fs'.entries this).map (·.fatAllocations) = some (e.fatAllocations ++ added))
    (hrepeats : ¬ added.Nodup) : ¬ Allocated fs fs' this e k := by
  rintro ⟨added', -, hallocated⟩
  rw [hallocated.entry_eq] at hentry
  simp only [Entry.addClusters, Option.map_some, Option.some.injEq, List.append_cancel_left_eq]
    at hentry
  exact hrepeats (hentry ▸ hallocated.nodup)

/-- Marking the last cluster of a chain again changes nothing. -/
theorem Extending.allocatedBy_nil (h : Extending fs this e current buffer)
    (hchain : fs.OnDisk e.fatAllocations) :
    AllocatedBy fs (fs.setFatWord current endMarker) this e [] := by
  have hword : (fs.setFatWord current endMarker).fatWord = fs.fatWord := by
    rw [h.valid.fatWord_setFatWord (by decide), ← hchain.last_eq current (by simp [h.last_eq]),
      Function.update_eq_self]
  refine {
    entry_eq := by rw [Entry.addClusters_nil]; exact h.entry_eq
    others_eq := fun _ _ => rfl
    nodup := .nil
    free := by simp
    unowned := by simp
    onDisk := ?_
    frame := fun c _ => by rw [hword] }
  rw [List.append_nil, OnDisk, hword]
  exact hchain

/-! ## The first cluster -/

/-- The volume after `initial_cluster` has given the cluster `r` to the entry `e`. -/
def startCluster (fs : FAT32) (this : EntryPtr) (e : Entry) (r : Nat) : FAT32 :=
  (fs.setFatWord r endMarker).setEntry this (e.addClusters [r])

theorem initialCluster_none (hnone : fs.findFreeCluster = some 0) :
    fs.initialCluster this = some (fs, false) := by
  simp [initialCluster, hnone]

theorem initialCluster_some (hvalid : fs.Valid) (hentry : fs.entries this = some e)
    (hfile : e.type = .FILE) (hfirst : fs.FirstFree r) :
    fs.initialCluster this = some (fs.startCluster this e r, true) := by
  obtain ⟨written, hwritten, hwrite⟩ := hvalid.writeFatEntry_eq r endMarker
  have hentry' : (fs.setFatWord r endMarker).entries this = some e := hentry
  have hadded : (fs.startCluster this e r).entries this = some (e.addClusters [r]) :=
    setEntry_entries_self ..
  have hsetup : (fs.startCluster this e r).setupCluster this r = some (fs.startCluster this e r) :=
    setupCluster_file hadded hfile
  simp only [initialCluster, hfirst.findFreeCluster_eq hvalid, Option.bind_eq_bind,
    Option.bind_some, hfirst.ne_zero, if_false, hwritten, hwrite, pushAllocation_eq hentry']
  rw [← startCluster, hsetup]
  rfl

/-- The state after `initial_cluster` is one from which the chain can be extended. -/
theorem extending_startCluster (this : EntryPtr) (r : Nat) (hvalid : fs.Valid)
    (hfile : e.type = .FILE) :
    Extending (fs.startCluster this e r) this (e.addClusters [r]) r
      ((fs.startCluster this e r).di.read ((fs.startCluster this e r).fatEntrySectorOffset r)) :=
  .start ((hvalid.setFatWord r endMarker).setEntry this _) (setEntry_entries_self ..) hfile
    (by simp [Entry.addClusters])

/-- An allocation of the first cluster has the intended effect. -/
theorem allocatedBy_startCluster (this : EntryPtr) (hvalid : fs.Valid)
    (hempty : e.fatAllocations = [])
    (hfirst : fs.FirstFree r) :
    AllocatedBy fs (fs.startCluster this e r) this e [r] := by
  have hword : (fs.startCluster this e r).fatWord = Function.update fs.fatWord r endMarker :=
    hvalid.fatWord_setFatWord (by decide)
  refine hfirst.allocatedBy hvalid (setEntry_entries_self ..)
    (fun p hp => Function.update_of_ne hp ..) ?_ ?_
  · rw [hempty, List.nil_append]
    refine FatChain.singleton hfirst.two_le (hfirst.lt_fatEntries hvalid) ?_
    rw [hword, Function.update_self]
  · intro c hc
    simp only [hempty, List.nil_append, List.mem_singleton] at hc
    rw [hword, Function.update_of_ne hc]

/-! ## The whole call -/

/-- A successful extension of a nonempty chain has the intended effect for one cluster only. -/
theorem Extending.allocated_iff (h : Extending fs this e current buffer)
    (hchain : fs.OnDisk e.fatAllocations)
    (hsuccess : fs.extendChain this (n + 1) = some (fs', true)) :
    Allocated fs fs' this e (n + 1) ↔ n = 0 := by
  cases n with
  | zero =>
      obtain ⟨r, hfirst, rfl⟩ := h.extendChain_one hsuccess
      simp only [iff_true]
      exact ⟨[r], rfl, h.allocatedBy_one hchain hfirst⟩
  | succ n =>
      have hcurrent := hchain.not_isFree h.valid (List.mem_of_getLast? h.last_eq)
      obtain ⟨r, rest, hentry⟩ := h.extendChain_repeats hcurrent hsuccess
      simp only [Nat.add_eq_zero_iff, one_ne_zero, and_false, iff_false]
      exact not_allocated (congrArg (Option.map (·.fatAllocations)) hentry) (by simp)

/-- A successful extension that follows `initial_cluster` has the intended effect, together with
it, for no cluster or for one. -/
theorem allocated_startCluster_iff (hvalid : fs.Valid) (hfile : e.type = .FILE)
    (hempty : e.fatAllocations = []) (hfirst : fs.FirstFree r)
    (hsuccess : (fs.startCluster this e r).extendChain this n = some (fs', true)) :
    Allocated fs fs' this e (n + 1) ↔ n ≤ 1 := by
  have hstart := extending_startCluster this r hvalid hfile
  have hfirstCluster := allocatedBy_startCluster this hvalid hempty hfirst
  match n, hsuccess with
  | 0, hsuccess =>
      rw [hstart.extendChain_zero] at hsuccess
      simp only [Option.some.injEq, Prod.mk.injEq, and_true] at hsuccess
      subst hsuccess
      simp only [zero_add, zero_le, iff_true]
      exact ⟨[r], rfl, hfirstCluster.trans (hstart.allocatedBy_nil hfirstCluster.onDisk) hvalid
        hstart.valid⟩
  | 1, hsuccess =>
      obtain ⟨r', hfirst', rfl⟩ := hstart.extendChain_one hsuccess
      simp only [le_refl, iff_true]
      exact ⟨[r] ++ [r'], rfl, hfirstCluster.trans
        (hstart.allocatedBy_one hfirstCluster.onDisk hfirst') hvalid hstart.valid⟩
  | n + 2, hsuccess =>
      have hmem : r ∈ e.fatAllocations ++ [r] := by simp
      obtain ⟨r', rest, hentry⟩ := hstart.extendChain_repeats
        (hfirstCluster.onDisk.not_isFree hstart.valid hmem) hsuccess
      rw [Entry.addClusters_append] at hentry
      have hlarge : ¬ n + 2 ≤ 1 := by omega
      simp only [hlarge, iff_false]
      exact not_allocated (congrArg (Option.map (·.fatAllocations)) hentry) (by simp)

/-- The extension of a chain always returns. -/
theorem Extending.extendChain_total (h : Extending fs this e current buffer) (n : Nat) :
    ∃ result, fs.extendChain this n = some result := by
  obtain ⟨fs', buffer', current', stopped, added, hloop, hend⟩ := h.allocateLoop_total n
  exact ⟨_, h.extendChain_eq hloop hend⟩

variable {k : Int}

/-- On a nonempty chain the call is an extension of the chain. -/
theorem allocateMoreClusters_extend (hentry : fs.entries this = some e) (hk : 1 ≤ k)
    (hne : e.fatAllocations ≠ []) :
    fs.allocateMoreClusters this k = fs.extendChain this ((k - 1).toNat + 1) := by
  have hpos : ¬ k ≤ 0 := by omega
  have hcount : (k - 1).toNat + 1 = k.toNat := by omega
  rw [hcount]
  simp [allocateMoreClusters, hpos, hentry, hne]

/-- Without clusters, the call takes the first free one and extends the chain from there. -/
theorem allocateMoreClusters_start (hvalid : fs.Valid) (hentry : fs.entries this = some e)
    (hfile : e.type = .FILE) (hk : 1 ≤ k) (hempty : e.fatAllocations = [])
    (hfirst : fs.FirstFree r) :
    fs.allocateMoreClusters this k = (fs.startCluster this e r).extendChain this (k - 1).toNat := by
  have hpos : ¬ k ≤ 0 := by omega
  simp [allocateMoreClusters, hpos, hentry, hempty, initialCluster_some hvalid hentry hfile hfirst]

/-- Without clusters, the call fails when none is free. -/
theorem allocateMoreClusters_full (hentry : fs.entries this = some e) (hk : 1 ≤ k)
    (hempty : e.fatAllocations = []) (hnone : fs.findFreeCluster = some 0) :
    fs.allocateMoreClusters this k = some (fs, false) := by
  have hpos : ¬ k ≤ 0 := by omega
  simp [allocateMoreClusters, hpos, hentry, hempty, initialCluster_none hnone]

/-- For a file `allocate_more_clusters` always returns. -/
theorem allocateMoreClusters_total (hvalid : fs.Valid) (hentry : fs.entries this = some e)
    (hfile : e.type = .FILE) : ∃ result, fs.allocateMoreClusters this k = some result := by
  by_cases hk : 1 ≤ k
  · by_cases hempty : e.fatAllocations = []
    · rcases findFreeCluster_spec hvalid with ⟨hnone, -⟩ | ⟨r, -, hfirst⟩
      · exact ⟨_, allocateMoreClusters_full hentry hk hempty hnone⟩
      · rw [allocateMoreClusters_start hvalid hentry hfile hk hempty hfirst]
        exact (extending_startCluster this r hvalid hfile).extendChain_total _
    · rw [allocateMoreClusters_extend hentry hk hempty]
      exact (Extending.start hvalid hentry hfile
        (List.getLast?_eq_some_getLast hempty)).extendChain_total _
  · refine ⟨(fs, false), ?_⟩
    have hnone : k ≤ 0 := by omega
    simp [allocateMoreClusters, hnone]

/-- A file without clusters. -/
def emptyFile : Entry where
  name := []
  type := .FILE
  fileSizeBytes := 0
  byteOffset := 0
  parentDir := none
  subDirs := []
  fatAllocations := []

/-- A volume with one file, at the address 0, and a table of 1024 free words. -/
def smallVolume : FAT32 where
  di := { bytesPerSector := 512, disk := fun _ => 0 }
  rootDir := 0
  entries p := if p = 0 then some emptyFile else none
  dataRegionStartClusterOffset := 9
  bytesPerFatEntry := 4
  bytesPerDirEntry := 32
  bytesPerCluster := 512
  bytesPerSector := 512
  sectorsPerCluster := 1
  sectorsPerFat := 8
  reservedSectors := 1
  reservedFatEntries := 2
  totalSectors := 1000

theorem smallVolume_valid : smallVolume.Valid := by
  constructor <;> decide

end FAT32

end CrosKernel.Fs
