import CrosKernel.Fs.EmptySlots
import CrosKernel.Fs.VolumeWrites

/-!
# Creating on a separate volume

`create_file` and `create_dir` on a volume whose chains are apart, where the directory has room for
the new slots in its own clusters. `createIn_carries` says that a creation leaves every sector of
every file.
-/

namespace CrosKernel.Fs

open Lib

namespace FAT32

variable {fs fs' : FAT32} {this dir p q : EntryPtr} {e parent : Entry} {c k r : Nat} {d name : Str}
  {type : EntryAttribute} {past : Nat → Nat → Nat → UInt8} {fuel : Nat} {ok : Bool}

/-! ## The table after a creation -/

/-- Words of the table do not depend on what stands behind it. -/
theorem fatWord_withDisk (hvalid : fs.Valid) (hc : c < fs.fatEntries) {disk : Nat → UInt8}
    (hbelow : ∀ x < fs.fatEnd, disk x = fs.di.disk x) :
    (fs.withDisk disk).fatWord c = fs.fatWord c := by
  refine wordAt_congr fun i hi => hbelow _ ?_
  show fs.fatEntryByteOffset c + i < fs.fatEnd
  unfold fatEnd fatEntryByteOffset
  rw [hvalid.bytesPerFatEntry_eq]
  omega

/-- From `fs` to `fs'` the cluster `r` is marked as the end of a chain, and no other word of the table
changes. -/
structure Marks (fs fs' : FAT32) (r : Nat) : Prop where
  config : fs.Rewrites fs'
  word_eq : ∀ c < fs.fatEntries, fs'.fatWord c = if c = r then endMarker else fs.fatWord c

section Allocate

variable {cp : Nat} (hsize : fs.SlotSize) (hentry : fs.entries this = some e)
  (hempty : e.fatAllocations = []) (hfirst : fs.FirstFree r) (hparent : e.parentDir = some dir)
  (hne : dir ≠ this) (hp : fs.entries dir = some parent)
  (hparentHead : parent.fatAllocations.head? = some cp) (hcluster : IsSlot (fs.clusterStart r))
  (hbehind : fs.fatEnd ≤ e.byteOffset) (hclusterBehind : fs.fatEnd ≤ fs.clusterStart r)
  (hroom : e.type = .DIRECTORY → e.byteOffset % 512 + 64 ≤ 512)
include hsize hentry hempty hfirst hparent hne hp hparentHead hcluster hbehind hclusterBehind hroom

omit hentry hfirst in
/-- The setup of the first cluster of a new entry writes behind the table. -/
theorem setupCluster_behind :
    ∃ disk, (fs.startCluster this e r).setupCluster this r =
        some ((fs.startCluster this e r).withDisk disk) ∧
      ∀ x < fs.fatEnd, disk x = (fs.startCluster this e r).di.disk x := by
  have hadded : (fs.startCluster this e r).entries this = some (e.addClusters [r]) :=
    setEntry_entries_self ..
  by_cases htype : e.type = .DIRECTORY
  · have hmarked : (fs.startCluster this e r).SlotSize :=
      ⟨(hsize.toValid.setFatWord r endMarker).setEntry this _, hsize.bytesPerDirEntry_eq⟩
    have hpMarked : (fs.startCluster this e r).entries dir = some parent :=
      (Function.update_of_ne hne ..).trans hp
    have hhead : (e.addClusters [r]).fatAllocations.head? = some r := by
      simp [Entry.addClusters, hempty]
    obtain ⟨disk, hinit, hframe, -⟩ := initDirCluster_spec (fs.fatEntryToClusterOffset r) hmarked
      hadded hhead hparent hpMarked hparentHead hcluster (hroom htype)
    refine ⟨disk, ?_, fun x hx => hframe x (.inl ?_) (.inl (hx.trans_le hbehind))⟩
    · simp only [setupCluster, hadded, Option.bind_eq_bind, Option.bind_some]
      rw [if_pos (show (e.addClusters [r]).type = .DIRECTORY from htype)]
      exact hinit
    · exact hx.trans_le hclusterBehind
  · refine ⟨(fs.startCluster this e r).di.disk, ?_, fun _ _ => rfl⟩
    simp only [setupCluster, hadded, Option.bind_eq_bind, Option.bind_some]
    exact if_neg htype

theorem allocateMoreClusters_marks (hcall : fs.allocateMoreClusters this 1 = some (fs', ok)) :
    fs.Marks fs' r := by
  obtain ⟨disk, hsetup, hbelow⟩ := setupCluster_behind hsize hempty hparent hne hp hparentHead
    hcluster hbehind hclusterBehind hroom
  have hvalid := hsize.toValid
  have hmarked : (fs.startCluster this e r).Valid := (hvalid.setFatWord r endMarker).setEntry this _
  have hlast : (e.addClusters [r]).fatAllocations.getLast? = some r := by
    simp [Entry.addClusters, hempty]
  have hadded : ((fs.startCluster this e r).withDisk disk).entries this = some (e.addClusters [r]) :=
    setEntry_entries_self ..
  rw [allocateMoreClusters_first hvalid hentry hempty hfirst, hsetup, Option.bind_some,
    extendChain_zero (hmarked.withDisk disk) hadded hlast, Option.some.injEq, Prod.mk.injEq] at hcall
  obtain ⟨rfl, -⟩ := hcall
  refine ⟨⟨_, _, rfl⟩, fun c hc => ?_⟩
  rw [(hmarked.withDisk disk).fatWord_setFatWord (by decide), Function.update_apply]
  by_cases heq : c = r
  · rw [if_pos heq, if_pos heq]
  · rw [if_neg heq, if_neg heq, fatWord_withDisk hmarked hc hbelow]
    exact (congrFun (hvalid.fatWord_setFatWord (by decide)) c).trans (Function.update_of_ne heq ..)

end Allocate

section NewDirEntry

variable (hm : fs.Mounted) (hcluster : fs.IsDataCluster c) (hfresh : fs.entries this = none)
  (hp : fs.entries dir = some parent) (hhead : parent.fatAllocations.head? = some c)
include hm hcluster hfresh hp hhead

/-- `new_dir_entry` fails without a trace on the disk, or it finds a place and marks its cluster. -/
theorem newDirEntry_cases (hname : name ≠ [])
    (hcall : (fs.setEntry this blankEntry).newDirEntry fuel this dir name type past =
      some (fs', ok)) :
    (ok = false ∧ ∃ e, fs' = fs.setEntry this e) ∨
      ok = true ∧ ∃ k r, fs.Place name c k r ∧ fs.Marks fs' r ∧
        ∀ fuel', k + (numLongNameEntries name + 1) ≤ fuel' →
          (fs.setEntry this blankEntry).newDirEntry fuel' this dir name type past =
            some (fs', true) := by
  obtain ⟨hstart, hbehind, -⟩ := hm.clusterStart_spec hcluster.1 hcluster.2.2
  have hne : dir ≠ this := by
    rintro rfl
    exact absurd (hfresh.symm.trans hp) (by simp)
  have hsize : ∀ e, (fs.setEntry this e).SlotSize := fun e =>
    ⟨hm.toValid.setEntry this e, hm.bytesPerDirEntry_eq⟩
  have hp' : ∀ e, (fs.setEntry this e).entries dir = some parent := fun e =>
    (Function.update_of_ne hne ..).trans hp
  have hset : ∀ e e', (fs.setEntry this e).setEntry this e' = fs.setEntry this e' := fun e e' => by
    simp [setEntry]
  -- the scan found a run of empty slots
  have hscan := hcall
  simp only [newDirEntry, setEntry_entries_self, Option.bind_eq_bind, Option.bind_some, hset,
    Option.bind_eq_some_iff] at hscan
  obtain ⟨result, hfind, -⟩ := hscan
  obtain ⟨hparent, k, hresult, hrun⟩ := findEmptyEntries_sound (hsize _) (hp' _) hhead hstart
    (Nat.succ_pos _) hfind
  have heq := @newDirEntry_eq fs this dir c k name type past fuel hm hcluster
    (hfind.trans (congrArg some hresult))
  have hfuel : ∀ fuel', k + (numLongNameEntries name + 1) ≤ fuel' →
      (fs.setEntry this blankEntry).newDirEntry fuel' this dir name type past = some (fs', ok) :=
    fun fuel' hle => (newDirEntry_eq hm hcluster (findEmptyEntries_complete (hsize _) (hp' _) hparent
      hhead hstart (Nat.succ_pos _) hrun hle)).trans (heq.symm.trans hcall)
  rw [heq] at hcall
  obtain ⟨pending, hpending⟩ : ∃ pending, pending =
    pendingEntry dir name type (fs.shortSlot c k name) := ⟨_, rfl⟩
  have hempty : pending.fatAllocations = [] := by rw [hpending]; rfl
  have hoffset : pending.byteOffset = fs.shortSlot c k name := by rw [hpending]; rfl
  have hdir : pending.parentDir = some dir := by rw [hpending]; rfl
  rw [← hpending] at hcall
  rcases findFreeCluster_spec (hsize pending).toValid with ⟨hnone, -⟩ | ⟨r, -, hfree⟩
  · rw [allocateMoreClusters_full (setEntry_entries_self ..) (by decide) hempty hnone,
      Option.bind_some, if_pos (by rfl), Option.some.injEq, Prod.mk.injEq] at hcall
    exact .inl ⟨hcall.2.symm, pending, hcall.1.symm⟩
  · have hfree' : fs.FirstFree r := ⟨hfree.1, hfree.2, hfree.3, hfree.4⟩
    obtain ⟨hstart', hbehind', -⟩ := hm.clusterStart_spec hfree'.two_le
      (hfree'.lt_fatEntries hm.toValid)
    have hfirst : fs.fatEnd ≤ fs.clusterStart c + 32 * k := by omega
    have hpendingBehind : (fs.setEntry this pending).fatEnd ≤ pending.byteOffset := by
      show fs.fatEnd ≤ pending.byteOffset
      rw [hoffset, shortSlot]
      omega
    have hslot : IsSlot pending.byteOffset := by
      rw [hoffset]
      unfold IsSlot at hstart ⊢
      unfold shortSlot
      omega
    have hroom : pending.type = .DIRECTORY → pending.byteOffset % 512 + 64 ≤ 512 := by
      intro htype
      by_contra hlast
      rw [allocateMoreClusters_outside (hsize _) (setEntry_entries_self ..) hempty hfree hdir hne
        (hp' _) hhead hstart' hslot htype (Nat.lt_of_not_le hlast)] at hcall
      cases hcall
    obtain ⟨disk, halloc, -⟩ := allocateMoreClusters_spec (hsize pending) (setEntry_entries_self ..)
      hempty hfree hdir hne (hp' _) hhead hstart' hpendingBehind hbehind' hroom
    obtain ⟨-, hwords⟩ := allocateMoreClusters_marks (hsize pending) (setEntry_entries_self ..)
      hempty hfree hdir hne (hp' _) hhead hstart' hpendingBehind hbehind' hroom halloc
    rw [halloc, Option.bind_some, if_neg (by simp)] at hcall
    -- the new slots lie behind the table
    have hsize₁ : (((fs.setEntry this pending).withDisk disk).setEntry this
        (pending.addClusters [r])).SlotSize :=
      ⟨((hsize pending).toValid.withDisk disk).setEntry this _, hm.bytesPerDirEntry_eq⟩
    obtain ⟨disk', hstore, hframe⟩ := storeDirEntry_spec (r := r)
      type past hsize₁ (setEntry_entries_self ..) ((Function.update_of_ne hne ..).trans (hp' _)) hne
      (by simp [Entry.addClusters, hempty]) hname (isSlot_add.2 hstart) (by
        show pending.byteOffset = _
        rw [hoffset, shortSlot])
    rw [hstore, Option.bind_some, Option.some.injEq, Prod.mk.injEq] at hcall
    obtain ⟨rfl, rfl⟩ := hcall
    refine .inr ⟨rfl, k, r, ⟨hrun, hfree'⟩, ⟨⟨_, _, rfl⟩, fun c hc => ?_⟩, hfuel⟩
    refine Eq.trans ?_ (hwords c hc)
    exact fatWord_withDisk hsize₁.toValid hc fun x hx => hframe x (.inl (hx.trans_le hfirst))

end NewDirEntry

/-- The clusters of an entry whose slots are new are one that was free. -/
theorem Chains.linked (h : fs.Chains) (hvalid : fs.Valid) (hlinked : Linked fs fs' this dir parent e)
    (hclusters : e.fatAllocations = [r]) (hfirst : fs.FirstFree r) (hmarks : fs.Marks fs' r) :
    fs'.Chains := by
  have hlt := hfirst.lt_fatEntries hvalid
  have hentries : fs'.fatEntries = fs.fatEntries := by
    obtain ⟨disk, entries, rfl⟩ := hmarks.config
    rfl
  have hcases : ∀ q e', fs'.entries q = some e' → q = this ∧ e' = e ∨
      q ≠ this ∧ ∃ old, fs.entries q = some old ∧ e'.fatAllocations = old.fatAllocations := by
    intro q e' he'
    by_cases hq : q = this
    · subst hq
      exact .inl ⟨rfl, Option.some.inj (he'.symm.trans hlinked.this_eq)⟩
    · refine .inr ⟨hq, ?_⟩
      by_cases hdir : q = dir
      · subst hdir
        obtain rfl := Option.some.inj (hlinked.dir_eq.symm.trans he')
        exact ⟨parent, hlinked.parent, rfl⟩
      · exact ⟨e', (hlinked.others_eq q hq hdir).symm.trans he', rfl⟩
  have hfree : ∀ q old, fs.entries q = some old → r ∉ old.fatAllocations := fun q old hold hmem =>
    (h.chain q old hold).not_isFree hvalid hmem hfirst.free
  constructor
  · intro q e' he'
    unfold OnDisk
    rw [hentries]
    obtain ⟨-, rfl⟩ | ⟨-, old, hold, heq⟩ := hcases q e' he'
    · rw [hclusters]
      exact .singleton hfirst.two_le hlt ((hmarks.word_eq r hlt).trans (if_pos rfl))
    · rw [heq]
      have hchain := h.chain q old hold
      refine FatChain.congr hchain fun c hc => ?_
      rw [hmarks.word_eq c (hchain.lt_clusters c hc), if_neg]
      exact fun hcr => hfree q old hold (hcr ▸ hc)
  · intro p q e₁ e₂ hne h₁ h₂
    obtain ⟨rfl, rfl⟩ | ⟨-, old, hold, heq⟩ := hcases p e₁ h₁
    · obtain ⟨rfl, -⟩ | ⟨-, old, hold, heq⟩ := hcases q e₂ h₂
      · exact absurd rfl hne
      · rw [hclusters, heq]
        simpa using hfree q old hold
    · obtain ⟨rfl, rfl⟩ | ⟨-, old', hold', heq'⟩ := hcases q e₂ h₂
      · rw [hclusters, heq]
        simpa using hfree p old hold
      · rw [heq, heq']
        exact h.disjoint p q old old' hne hold hold'

/-! ## The whole call -/

/-- The directory has the slots for a new name in its own clusters, wherever the search ends. -/
def HasRoom (fs : FAT32) (parent : Entry) (name : Str) : Prop :=
  ∀ c k, parent.fatAllocations.head? = some c →
    IsFirstRun (fs.IsEmptySlot (fs.clusterStart c)) (numLongNameEntries name + 1) k →
      ∀ i ≤ numLongNameEntries name, fs.InClusters parent (fs.clusterStart c + 32 * (k + i))

/-- The bytes behind the table that a creation writes are in clusters of the directory, or in the one
that was free. -/
theorem Separate.isWritten_inCluster (h : fs.Separate) (hplace : fs.Place name c k r)
    (hhead : parent.fatAllocations.head? = some c) (hroom : fs.HasRoom parent name)
    (hsector : type = .DIRECTORY → fs.shortSlot c k name % 512 + 64 ≤ 512) {x : Nat}
    (hx : fs.IsWritten name type c k r x) :
    (∃ c ∈ parent.fatAllocations, fs.InCluster c x) ∨ fs.InCluster r x := by
  have hslots := hroom c k hhead hplace.run
  have hspc := h.sectorsPerCluster_pos
  have hbytes := h.bytesPerCluster_eq_mul
  obtain ⟨hlow, hhigh⟩ | ⟨hdir, ⟨hlow, hhigh⟩ | ⟨hlow, hhigh⟩⟩ := hx
  · rw [shortSlot] at hhigh
    obtain ⟨c', hc', -, hstart, hend⟩ :=
      hslots ((x - fs.clusterStart c - 32 * k) / 32) (by omega)
    exact .inl ⟨c', hc', by omega, by omega⟩
  · exact .inr ⟨hlow, by omega⟩
  · obtain ⟨c', hc', -, hstart, hend⟩ := hslots (numLongNameEntries name) le_rfl
    have hroom := hsector hdir
    -- both slots stand in one sector of the cluster
    have hfirst : fs.clusterStart c' =
        512 * (fs.fatEntryToClusterOffset c' * fs.sectorsPerCluster) := by
      rw [clusterStart, hbytes]
      ring
    rw [shortSlot] at hlow hhigh hroom
    exact .inl ⟨c', hc', by omega, by omega⟩

/-- The new entry of a creation at its place. -/
theorem Separate.isNewEntry (h : fs.Separate) (hp : fs.entries dir = some parent)
    (htype : parent.type = .DIRECTORY) (hfresh : fs.entries this = none)
    (hplace : fs.Place name c k r) (hhead : parent.fatAllocations.head? = some c)
    (hroom : fs.HasRoom parent name) :
    fs.IsNewEntry this (fs.newEntryFor dir name type (fs.shortSlot c k name) r) where
  ne_root := by
    rintro rfl
    obtain ⟨e, he⟩ := h.hasRoot
    exact absurd (hfresh.symm.trans he) (by simp)
  parent := by simp [newEntryFor]
  directory _ := by
    have hlt := hplace.free.lt_clustersPerFat
    have hle := Nat.div_le_self fs.sectorsPerFat fs.sectorsPerCluster
    have hentries := h.fatEntries_le
    rw [fatEntries, h.bytesPerSector_eq, h.bytesPerFatEntry_eq] at hentries
    exact ⟨r, rfl, hplace.free.two_le, by omega, hplace.free.lt_fatEntries h.toValid⟩
  slot _ := by
    obtain ⟨c', hc', -, hlow, hhigh⟩ := hroom c k hhead hplace.run (numLongNameEntries name) le_rfl
    obtain ⟨c₀, hhead₀, htwo, -, hlt⟩ := h.directory dir parent hp (.inl htype)
    obtain rfl := Option.some.inj (hhead₀.symm.trans hhead)
    obtain ⟨hstart, -⟩ := h.clusterStart_spec htwo hlt
    refine ⟨?_, dir, parent, c', hp, by simp [htype], hc', fun j hj => ⟨?_, ?_⟩⟩
    · show IsSlot (fs.shortSlot c₀ k name)
      unfold IsSlot at hstart ⊢
      unfold shortSlot
      omega
    · show fs.clusterStart c' ≤ fs.shortSlot c₀ k name + j
      unfold shortSlot
      omega
    · show fs.shortSlot c₀ k name + j < _
      unfold shortSlot
      omega

/-- A creation in a directory with room leaves the sectors of the files and the paths, and makes the
new path resolve to the new entry. -/
theorem Separate.createIn_carries (h : fs.Separate) (hd : fs.findEntry d = some (some dir))
    (hslash : slash ∉ name) (hname : name ≠ []) (hfresh : fs.entries this = none)
    (hp : fs.entries dir = some parent) (htype : parent.type = .DIRECTORY)
    (hroom : fs.HasRoom parent name)
    (hcall : fs.createIn fuel this dir (childPath d name) type past = some (fs', ok)) :
    Carries fs fs' (fun _ _ => False) ∧ (ok = true →
      fs'.findEntry (childPath d name) = some (some this) ∧ ∃ slot r,
        fs'.entries this = some (fs.newEntryFor dir name type slot r)) := by
  obtain ⟨c, hhead, hcluster⟩ := h.directory dir parent hp (.inl htype)
  simp only [createIn, getLast_childPath hd hslash, Option.bind_eq_bind] at hcall
  rw [Option.bind_eq_some_iff] at hcall
  obtain ⟨found, hfound, hcall⟩ := hcall
  cases found with
  | some x =>
      rw [Option.some.injEq, Prod.mk.injEq] at hcall
      obtain ⟨rfl, rfl⟩ := hcall
      exact ⟨.refl h _, fun hok => absurd hok (by decide)⟩
  | none =>
      rw [Option.bind_some, Option.bind_eq_some_iff] at hcall
      obtain ⟨⟨fs₁, ok₁⟩, hnew, hcall⟩ := hcall
      obtain ⟨rfl, e, rfl⟩ | ⟨rfl, k, r, hplace, hmarks, hfuel⟩ :=
        newDirEntry_cases h.toMounted hcluster hfresh hp hhead hname hnew
      · rw [if_neg (by simp), Option.some.injEq, Prod.mk.injEq] at hcall
        obtain ⟨rfl, rfl⟩ := hcall
        have hsame : (fs.setEntry this e).deleteEntry this = fs := by
          have hentries : Function.update fs.entries this none = fs.entries := by
            rw [← hfresh, Function.update_eq_self]
          unfold deleteEntry setEntry
          dsimp only
          rw [Function.update_idem, hentries]
        rw [hsame]
        exact ⟨.refl h _, fun hok => absurd hok (by decide)⟩
      · rw [if_pos rfl, Option.some.injEq, Prod.mk.injEq] at hcall
        obtain ⟨rfl, rfl⟩ := hcall
        obtain ⟨hparent, k', r', hplace', hsector⟩ :=
          newDirEntry_sound h.toMounted hcluster hfresh hp hhead hnew
        obtain rfl := hplace.run.unique hplace'.run
        obtain ⟨fs₂, hcall₂, hcreated, hat⟩ := createIn_spec hd hslash hfound h.toMounted hfresh hp
          hhead type past hcluster hparent hname hplace le_rfl hsector
        obtain rfl : fs₁ = fs₂ := by
          rw [(createIn_iff hd hslash hfound _).2 (hfuel _ le_rfl)] at hcall₂
          exact congrArg Prod.fst (Option.some.inj hcall₂)
        have hlinked := hcreated.linked
        have hchains := h.toChains.linked h.toValid hlinked rfl hplace.free hmarks
        have hold : ∀ q e, fs.entries q = some e → ∃ e', fs₁.entries q = some e' ∧ e.Grows e' ∧
            e'.fileSizeBytes = e.fileSizeBytes := by
          intro q e he
          have hq : q ≠ this := by
            rintro rfl
            exact absurd (hfresh.symm.trans he) (by simp)
          by_cases hdir : q = dir
          · subst hdir
            obtain rfl := Option.some.inj (hp.symm.trans he)
            exact ⟨_, hlinked.dir_eq, ⟨rfl, rfl, rfl, List.prefix_rfl⟩, rfl⟩
          · exact ⟨e, (hlinked.others_eq q hq hdir).trans he, .refl e, rfl⟩
        have hkeeps : fs.Keeps fs₁ {x | fs.IsWritten name type c k r x} :=
          ⟨hmarks.config, fun q e he => (hold q e he).imp fun _ he' => ⟨he'.1, he'.2.1⟩,
            hcreated.frame⟩
        have hentry : fs.IsNewEntry this (fs.newEntryFor dir name type (fs.shortSlot c k name) r) :=
          h.isNewEntry hp htype hfresh hplace hhead hroom
        refine ⟨⟨hkeeps.separate h hchains fun q e he hnone => ?_, hmarks.config, hat.kept,
          fun p s b _ hb => hkeeps.blockAt_eq h hb fun x hx i hi hwritten => ?_,
          fun q e _ he => (hold q e he).imp fun _ he' => ⟨he'.1, he'.2.2⟩⟩,
          fun _ => ⟨hat.found, _, r, hlinked.this_eq⟩⟩
        · have hq : q = this := by
            by_contra hq
            have hdir : q ≠ dir := by
              rintro rfl
              exact absurd (hnone.symm.trans hp) (by simp)
            rw [hlinked.others_eq q hq hdir, hnone] at he
            cases he
          subst hq
          obtain rfl := Option.some.inj (hlinked.this_eq.symm.trans he)
          exact hentry
        · -- a sector of a file is neither in the directory nor in a free cluster
          obtain ⟨e, c', he, hfile, hc', hin⟩ := h.inCluster_target hx
          obtain ⟨d', hd', hin'⟩ | hin' := h.isWritten_inCluster hplace hhead hroom hsector hwritten
          · obtain ⟨rfl, -⟩ := h.owner_unique hp he hd' hc' hin' (hin i hi)
            obtain rfl := Option.some.inj (hp.symm.trans he)
            rw [htype] at hfile
            cases hfile
          · obtain rfl := h.inCluster_unique
              ⟨hplace.free.two_le, hplace.free.lt_fatEntries h.toValid⟩ (h.cluster_lt he hc') hin'
              (hin i hi)
            exact (h.chain p e he).not_isFree h.toValid hc' hplace.free.free

end FAT32

end CrosKernel.Fs
