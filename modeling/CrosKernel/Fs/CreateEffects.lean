import CrosKernel.Fs.DirEntryCodec
import CrosKernel.Fs.CreateEntry
import CrosKernel.Lib.FirstRun

/-!
# Effects of the steps of a creation

`find_empty_entries` scans the slots from the first cluster of the directory on for the first run of
empty ones. `init_dir_cluster` clears the first two slots of the new cluster, but writes the dot
entries into the slot of the new entry and the slot behind it (`initDirCluster_spec`), which it can
do only inside one sector (`initDirCluster_outside`).
-/

namespace CrosKernel.Fs

open Lib

namespace FAT32

variable {fs fs' : FAT32} {this dir : EntryPtr} {e p : Entry} {a b c r start : Nat}

/-! ## The scan for empty slots -/

/-- The slot `k`, counted from `start`, is empty. -/
def IsEmptySlot (fs : FAT32) (start k : Nat) : Prop :=
  attributeType (fs.di.disk (start + 32 * k + 11)) = .EMPTY

instance (fs : FAT32) (start : Nat) : DecidablePred (fs.IsEmptySlot start) := fun _ =>
  inferInstanceAs (Decidable (_ = _))

/-- The loop finds the first run of empty slots, or it runs out of fuel before one ends. -/
theorem findEmptyLoop_spec (hsize : fs.SlotSize) (he : fs.entries this = some e)
    (hstart : IsSlot start) {m j count : Nat} (emptyStart : Nat)
    (hscan : Scanned (fs.IsEmptySlot start) m j count)
    (hempty : 0 < count → emptyStart = start + 32 * (j - count)) (fuel clusterNum : Nat) :
    (∃ k, findEmptyLoop this m fuel fs (start + 32 * j) (e.byteOffset / fs.bytesPerCluster) count
        emptyStart clusterNum = some (fs, start + 32 * k) ∧ IsFirstRun (fs.IsEmptySlot start) m k) ∨
      findEmptyLoop this m fuel fs (start + 32 * j) (e.byteOffset / fs.bytesPerCluster) count
        emptyStart clusterNum = none ∧
      ∀ k, k + m ≤ j + fuel → ¬ IsRun (fs.IsEmptySlot start) m k := by
  induction fuel generalizing j count emptyStart with
  | zero => exact .inr ⟨rfl, fun k hk => hscan.none_before k hk⟩
  | succ fuel ih =>
      have hslot : IsSlot (start + 32 * j) := isSlot_add.2 hstart
      have hnext : start + 32 * j + fs.bytesPerDirEntry = start + 32 * (j + 1) := by
        rw [hsize.bytesPerDirEntry_eq]
        omega
      have hstep : ∀ k, k + m ≤ j + 1 + fuel ↔ k + m ≤ j + (fuel + 1) := fun k => by omega
      rw [findEmptyLoop, parseAttribute_eq hsize.toValid hslot]
      simp only [Option.bind_eq_bind, Option.bind_some, he, ne_eq, not_true_eq_false, if_false,
        hnext]
      by_cases htype : attributeType (fs.di.disk (start + 32 * j + 11)) = .EMPTY
      · have hj : fs.IsEmptySlot start j := htype
        have hle := hscan.le
        -- the start of the run that ends at the slot `j`
        have hstart' : (if count = 0 then start + 32 * j else emptyStart) =
            start + 32 * (j - count) := by
          split
          next hzero => rw [hzero, Nat.sub_zero]
          next hne => exact hempty (by omega)
        simp only [htype, true_and, if_true, hstart']
        by_cases heq : count + 1 = m
        · rw [if_pos heq]
          exact .inl ⟨j - count, rfl, hscan.hit hj heq⟩
        · rw [if_neg heq]
          have hlt := hscan.lt
          have hgrow := hscan.grow hj (by omega)
          simpa only [hstep] using ih _ hgrow (fun _ => by
            rw [show j + 1 - (count + 1) = j - count by omega])
      · have hj : ¬ fs.IsEmptySlot start j := htype
        simp only [htype, false_and, if_false]
        simpa only [hstep] using ih _ (hscan.reset hj) (fun h => absurd h (by omega))

/-- The first byte of a cluster. -/
def clusterStart (fs : FAT32) (c : Nat) : Nat := fs.fatEntryToClusterOffset c * fs.bytesPerCluster

/-- What `find_empty_entries` returns is the start of the first run of empty slots. -/
theorem findEmptyEntries_sound (hsize : fs.SlotSize) (hp : fs.entries dir = some p)
    (hhead : p.fatAllocations.head? = some c) (hstart : IsSlot (fs.clusterStart c)) {m fuel : Nat}
    (hm : 0 < m) {result : FAT32 × Nat} (h : fs.findEmptyEntries fuel dir m = some result) :
    p.parentDir ≠ none ∧ ∃ k, result = (fs, fs.clusterStart c + 32 * k) ∧
      IsFirstRun (fs.IsEmptySlot (fs.clusterStart c)) m k := by
  simp only [findEmptyEntries, hp, hhead, Option.bind_eq_bind, Option.bind_some,
    Option.bind_eq_some_iff] at h
  obtain ⟨_, hparent, hloop⟩ := h
  refine ⟨by simp [hparent], ?_⟩
  rcases findEmptyLoop_spec hsize hp hstart 0 (.init hm) (by simp) fuel 1 with
    ⟨k, hk, hfirst⟩ | ⟨hnone, -⟩
  · exact ⟨k, (Option.some.inj (hk.symm.trans hloop)).symm, hfirst⟩
  · exact absurd (hnone.symm.trans hloop) (by simp)

/-- With a run of empty slots ahead, `find_empty_entries` returns the first one. -/
theorem findEmptyEntries_complete (hsize : fs.SlotSize) (hp : fs.entries dir = some p)
    (hparent : p.parentDir ≠ none) (hhead : p.fatAllocations.head? = some c)
    (hstart : IsSlot (fs.clusterStart c)) {m k fuel : Nat} (hm : 0 < m)
    (hfirst : IsFirstRun (fs.IsEmptySlot (fs.clusterStart c)) m k) (hfuel : k + m ≤ fuel) :
    fs.findEmptyEntries fuel dir m = some (fs, fs.clusterStart c + 32 * k) := by
  obtain ⟨parent, hparent⟩ := Option.ne_none_iff_exists'.1 hparent
  simp only [findEmptyEntries, hp, hhead, hparent, Option.bind_eq_bind, Option.bind_some]
  rcases findEmptyLoop_spec hsize hp hstart 0 (.init hm) (by simp) fuel 1 with
    ⟨k', hk', hfirst'⟩ | ⟨-, hnone⟩
  · obtain rfl := hfirst.unique hfirst'
    exact hk'
  · exact absurd hfirst.run (hnone k (by omega))

/-! ## The dot entries -/

/-- One dot entry in the buffer of its sector. -/
theorem writeDotEntry_spec (buffer : Buffer) (offset : Nat) (hsize : offset + 32 ≤ buffer.size)
    (hhead : e.fatAllocations.head? = some c) :
    ∃ b', writeDotEntry buffer offset e = some b' ∧
      Buffer.ChangedIn offset (offset + 32) buffer b' ∧
      b'.data offset = 0x2E ∧ b'.data (offset + 11) = 0x10 := by
  obtain ⟨b1, hset1, hc1, hdot⟩ := Buffer.set_spec (b := buffer) offset 0x2E (by omega)
  have hs1 := hc1.size_eq
  obtain ⟨b2, hset2, hc2, hattr⟩ := Buffer.set_spec (b := b1) (11 + offset) 0x10 (by omega)
  have hs2 := hc2.size_eq
  obtain ⟨b3, hset3, hc3, -⟩ := Buffer.natToBytes_spec (b := b2) (c / 2 ^ 16) (20 + offset) 2
    (by omega)
  have hs3 := hc3.size_eq
  obtain ⟨b4, hset4, hc4, -⟩ := Buffer.natToBytes_spec (b := b3) c (26 + offset) 2 (by omega)
  have hs4 := hc4.size_eq
  obtain ⟨b5, hset5, hc5, -⟩ := Buffer.natToBytes_spec (b := b4) (toUnsigned e.fileSizeBytes)
    (28 + offset) 4 (by omega)
  refine ⟨b5, ?_, ((((hc1.mono (by omega) (by omega)).trans (hc2.mono (by omega) (by omega))).trans
    (hc3.mono (by omega) (by omega))).trans (hc4.mono (by omega) (by omega))).trans
    (hc5.mono (by omega) (by omega)), ?_, ?_⟩
  · simp only [writeDotEntry, hhead, Option.bind_eq_bind, Option.bind_some, hset1, hset2]
    rw [Buffer.shortToBytes, hset3, Option.bind_some, Buffer.shortToBytes, hset4, Option.bind_some,
      Buffer.intToBytes, hset5]
  · rw [hc5.data_eq _ (by omega), hc4.data_eq _ (by omega), hc3.data_eq _ (by omega),
      hc2.data_eq _ (by omega), hdot]
  · rw [hc5.data_eq _ (by omega), hc4.data_eq _ (by omega), hc3.data_eq _ (by omega),
      Nat.add_comm, hattr]

/-- Clearing the two first slots of a cluster. -/
theorem clearDots_spec (hsize : fs.SlotSize) (ha : IsSlot a) :
    ∃ fs1 fs2, fs.clearEntry a = some fs1 ∧
      fs1.clearEntry (a + fs1.bytesPerDirEntry) = some fs2 ∧
      fs.WritesIn a (a + 64) fs2 ∧ ∀ j, j < 64 → fs2.di.disk (a + j) = 0 := by
  obtain ⟨fs1, hclear, hwrites, hzero⟩ := clearEntry_spec hsize ha
  have ha' : IsSlot (a + 32) := (isSlot_add (n := 1)).2 ha
  obtain ⟨fs2, hclear', hwrites', hzero'⟩ := clearEntry_spec (hwrites.slotSize hsize) ha'
  rw [← (hwrites.slotSize hsize).bytesPerDirEntry_eq] at hclear'
  refine ⟨fs1, fs2, hclear, hclear', (hwrites.mono (by omega) (by omega)).trans
    (hwrites'.mono (by omega) (by omega)), fun j hj => ?_⟩
  rcases Nat.lt_or_ge j 32 with hlt | hge
  · rw [hwrites'.outside _ (by omega), hzero j hlt]
  · have hsecond := hzero' (j - 32) (by omega)
    rwa [show a + 32 + (j - 32) = a + j by omega] at hsecond

section InitDirCluster

variable (cluster : Nat) {cp : Nat} (hsize : fs.SlotSize) (hentry : fs.entries this = some e)
  (hhead : e.fatAllocations.head? = some c) (hparent : e.parentDir = some dir)
  (hp : fs.entries dir = some p) (hparentHead : p.fatAllocations.head? = some cp)
  (hcluster : IsSlot (cluster * fs.bytesPerCluster))
include hsize hentry hhead hparent hp hparentHead hcluster

/-- `init_dir_cluster` for an entry whose slot is not the last of its sector. -/
theorem initDirCluster_spec (hroom : e.byteOffset % 512 + 64 ≤ 512) :
    ∃ disk, fs.initDirCluster this cluster = some (fs.withDisk disk) ∧
      (∀ x, (x < cluster * fs.bytesPerCluster ∨ cluster * fs.bytesPerCluster + 64 ≤ x) →
        (x < e.byteOffset ∨ e.byteOffset + 64 ≤ x) → disk x = fs.di.disk x) ∧
      (∀ x, cluster * fs.bytesPerCluster ≤ x → x < cluster * fs.bytesPerCluster + 64 →
        (x < e.byteOffset ∨ e.byteOffset + 64 ≤ x) → disk x = 0) ∧
      disk (e.byteOffset + 32) = 0x2E ∧ disk (e.byteOffset + 32 + 11) = 0x10 := by
  obtain ⟨fs1, fs2, hclear, hclear', hwrites, hzero⟩ := clearDots_spec hsize hcluster
  have hsize2 := hwrites.slotSize hsize
  have hsector := hwrites.bytesPerSector
  have hp2 : fs2.entries dir = some p := hwrites.entries ▸ hp
  obtain ⟨hread, -⟩ := read_slot hsize2.toValid e.byteOffset
  have hfits : e.byteOffset % fs2.bytesPerSector + 64 ≤ 512 := by
    rw [hsize2.bytesPerSector_eq]
    exact hroom
  obtain ⟨b1, hdot1, hc1, -⟩ := writeDotEntry_spec
    (fs2.di.read (e.byteOffset / fs2.bytesPerSector)) (e.byteOffset % fs2.bytesPerSector) (by omega)
    hhead
  have hs1 := hc1.size_eq
  obtain ⟨b2, hdot2, hc2, hfirst, hattr⟩ := writeDotEntry_spec b1
    (e.byteOffset % fs2.bytesPerSector + 32) (by omega) hparentHead
  have hchanged : Buffer.ChangedIn (e.byteOffset % fs2.bytesPerSector)
      (e.byteOffset % fs2.bytesPerSector + 64)
      (fs2.di.read (e.byteOffset / fs2.bytesPerSector)) b2 :=
    (hc1.mono (by omega) (by omega)).trans (hc2.mono (by omega) (by omega))
  obtain ⟨hwrites', hdisk⟩ := write_bytes hsize2.toValid hfits hchanged
  refine ⟨(fs2.writeSector (e.byteOffset / fs2.bytesPerSector) b2).di.disk, ?_, ?_, ?_, ?_, ?_⟩
  · have hconfig : fs2.writeSector (e.byteOffset / fs2.bytesPerSector) b2 = fs.withDisk
        (fs2.writeSector (e.byteOffset / fs2.bytesPerSector) b2).di.disk := by
      rw [hwrites'.config, hwrites.config]
      rfl
    rw [← hconfig]
    rw [← hsize2.bytesPerDirEntry_eq] at hdot2
    rw [hsector] at hdot1 hdot2
    simp only [initDirCluster, hentry, hclear, hclear', hparent, hp2, Option.bind_eq_bind,
      Option.bind_some, hdot1, hdot2, hsector, Option.pure_def]
  · intro x hx hx'
    rw [hwrites'.outside x hx', hwrites.outside x hx]
  · intro x hlow hhigh hx
    have hclearedByte := hzero (x - cluster * fs.bytesPerCluster) (by omega)
    rw [Nat.add_sub_cancel' hlow] at hclearedByte
    rw [hwrites'.outside x hx, hclearedByte]
  · rw [hdisk 32 (by omega), hfirst]
  · rw [Nat.add_assoc, hdisk (32 + 11) (by omega), ← Nat.add_assoc, hattr]

/-- For an entry in the last slot of its sector `init_dir_cluster` leaves the buffer. -/
theorem initDirCluster_outside (hslot : IsSlot e.byteOffset)
    (hlast : 512 < e.byteOffset % 512 + 64) :
    fs.initDirCluster this cluster = none := by
  obtain ⟨fs1, fs2, hclear, hclear', hwrites, -⟩ := clearDots_spec hsize hcluster
  have hsize2 := hwrites.slotSize hsize
  have hsector := hwrites.bytesPerSector
  have hp2 : fs2.entries dir = some p := hwrites.entries ▸ hp
  obtain ⟨hread, -⟩ := read_slot hsize2.toValid e.byteOffset
  have hfits := hslot.fits hsize2.toValid
  obtain ⟨b1, hdot1, hc1, -⟩ := writeDotEntry_spec
    (fs2.di.read (e.byteOffset / fs2.bytesPerSector)) (e.byteOffset % fs2.bytesPerSector) (by omega)
    hhead
  have hs1 := hc1.size_eq
  have hset : b1.set (e.byteOffset % fs2.bytesPerSector + fs2.bytesPerDirEntry) 0x2E = none := by
    rw [hsize2.bytesPerDirEntry_eq]
    rw [hsize2.bytesPerSector_eq] at hs1 hread ⊢
    unfold IsSlot at hslot
    exact if_neg (by omega)
  have hdot2 : writeDotEntry b1 (e.byteOffset % fs2.bytesPerSector + fs2.bytesPerDirEntry) p =
      none := by
    simp only [writeDotEntry, hparentHead, hset, Option.bind_eq_bind, Option.bind_some,
      Option.bind_none]
  rw [hsector] at hdot1 hdot2
  simp only [initDirCluster, hentry, hclear, hclear', hparent, hp2, Option.bind_eq_bind,
    Option.bind_some, hdot1, hdot2, Option.bind_none]

end InitDirCluster

/-! ## The first cluster of a new entry -/

/-- The end of the allocation table on disk. -/
def fatEnd (fs : FAT32) : Nat := fs.fatEntryByteOffset fs.fatEntries

/-- Storing an entry of the table changes no byte behind the table. -/
theorem setFatWord_behind (hvalid : fs.Valid) (hr : r < fs.fatEntries) (value : Nat) {x : Nat}
    (hx : fs.fatEnd ≤ x) : (fs.setFatWord r value).di.disk x = fs.di.disk x := by
  refine setWord_outside (.inr ?_)
  unfold fatEnd fatEntryByteOffset at hx
  unfold fatEntryByteOffset
  rw [hvalid.bytesPerFatEntry_eq] at hx ⊢
  omega

/-- Marking the last cluster of an entry once more. -/
theorem extendChain_zero (hvalid : fs.Valid) (hentry : fs.entries this = some e)
    (hlast : e.fatAllocations.getLast? = some r) :
    fs.extendChain this 0 = some (fs.setFatWord r endMarker, true) := by
  obtain ⟨written, hwritten, hwrite⟩ := hvalid.writeFatEntry_eq r endMarker
  simp [extendChain, hentry, hlast, allocateLoop, hwritten, hwrite]

/-- The first cluster of an entry: mark it, set it up for a directory, and mark it again. -/
theorem allocateMoreClusters_first (hvalid : fs.Valid) (hentry : fs.entries this = some e)
    (hempty : e.fatAllocations = []) (hfirst : fs.FirstFree r) :
    fs.allocateMoreClusters this 1 = ((fs.startCluster this e r).setupCluster this r).bind
      fun fs' => fs'.extendChain this 0 := by
  obtain ⟨written, hwritten, hwrite⟩ := hvalid.writeFatEntry_eq r endMarker
  have hentry' : (fs.setFatWord r endMarker).entries this = some e := hentry
  simp only [allocateMoreClusters, initialCluster, hentry, hempty, hfirst.findFreeCluster_eq hvalid,
    Option.bind_eq_bind, Option.bind_some, hfirst.ne_zero, if_false, hwritten, hwrite,
    pushAllocation_eq hentry', List.isEmpty_nil, if_true]
  rw [if_neg (by decide), ← startCluster]
  cases (fs.startCluster this e r).setupCluster this r with
  | none => rfl
  | some fs' => rfl

/-- What the allocation of the first cluster of a new entry does to the disk behind the table. -/
structure FirstCluster (fs : FAT32) (e : Entry) (r : Nat) (disk : Nat → UInt8) : Prop where
  frame : ∀ x, fs.fatEnd ≤ x → (e.type = .DIRECTORY →
    (x < fs.clusterStart r ∨ fs.clusterStart r + 64 ≤ x) ∧
      (x < e.byteOffset ∨ e.byteOffset + 64 ≤ x)) → disk x = fs.di.disk x
  cleared : e.type = .DIRECTORY → ∀ x, fs.clusterStart r ≤ x → x < fs.clusterStart r + 64 →
    (x < e.byteOffset ∨ e.byteOffset + 64 ≤ x) → disk x = 0
  dotDot : e.type = .DIRECTORY →
    disk (e.byteOffset + 32) = 0x2E ∧ disk (e.byteOffset + 32 + 11) = 0x10

section Allocate

variable {cp : Nat} (hsize : fs.SlotSize) (hentry : fs.entries this = some e)
  (hempty : e.fatAllocations = []) (hfirst : fs.FirstFree r) (hparent : e.parentDir = some dir)
  (hne : dir ≠ this) (hp : fs.entries dir = some p) (hparentHead : p.fatAllocations.head? = some cp)
  (hcluster : IsSlot (fs.clusterStart r))
include hsize hentry hempty hfirst hparent hne hp hparentHead hcluster

/-- The first cluster of a new entry, which for a directory must not have the last slot of its
sector. -/
theorem allocateMoreClusters_spec (hbehind : fs.fatEnd ≤ e.byteOffset)
    (hclusterBehind : fs.fatEnd ≤ fs.clusterStart r)
    (hroom : e.type = .DIRECTORY → e.byteOffset % 512 + 64 ≤ 512) :
    ∃ disk, fs.allocateMoreClusters this 1 =
        some ((fs.withDisk disk).setEntry this (e.addClusters [r]), true) ∧
      FirstCluster fs e r disk := by
  have hvalid := hsize.toValid
  have hr := hfirst.lt_fatEntries hvalid
  have hmarked : (fs.startCluster this e r).SlotSize :=
    ⟨(hvalid.setFatWord r endMarker).setEntry this _, hsize.bytesPerDirEntry_eq⟩
  have hadded : (fs.startCluster this e r).entries this = some (e.addClusters [r]) :=
    setEntry_entries_self ..
  have hdisk : ∀ x, fs.fatEnd ≤ x → (fs.startCluster this e r).di.disk x = fs.di.disk x :=
    fun x hx => setFatWord_behind hvalid hr endMarker hx
  have hlast : (e.addClusters [r]).fatAllocations.getLast? = some r := by
    simp [Entry.addClusters, hempty]
  rw [allocateMoreClusters_first hvalid hentry hempty hfirst]
  by_cases htype : e.type = .DIRECTORY
  · have hpMarked : (fs.startCluster this e r).entries dir = some p :=
      (Function.update_of_ne hne ..).trans hp
    obtain ⟨disk, hinit, hframe, hcleared, hdot, hattr⟩ := initDirCluster_spec
      (fs.fatEntryToClusterOffset r) hmarked hadded (c := r) (by simp [Entry.addClusters, hempty])
      hparent hpMarked hparentHead hcluster (hroom htype)
    have hsetup : (fs.startCluster this e r).setupCluster this r =
        some ((fs.startCluster this e r).withDisk disk) := by
      simp only [setupCluster, hadded, Option.bind_eq_bind, Option.bind_some]
      rw [if_pos (show (e.addClusters [r]).type = .DIRECTORY from htype)]
      exact hinit
    have hvalid' := hmarked.toValid.withDisk disk
    rw [hsetup, Option.bind_some, extendChain_zero hvalid' hadded hlast]
    have hbehindWord : ∀ x, fs.fatEnd ≤ x →
        (((fs.startCluster this e r).withDisk disk).setFatWord r endMarker).di.disk x = disk x :=
      fun x hx => setFatWord_behind hvalid' hr endMarker hx
    refine ⟨_, rfl, ⟨fun x hx hout => ?_, fun _ x hlow hhigh hout => ?_, fun _ => ⟨?_, ?_⟩⟩⟩
    · obtain ⟨hout, hout'⟩ := hout htype
      exact (hbehindWord x hx).trans ((hframe x hout hout').trans (hdisk x hx))
    · exact (hbehindWord x (hclusterBehind.trans hlow)).trans (hcleared x hlow hhigh hout)
    · exact (hbehindWord _ (by omega)).trans hdot
    · exact (hbehindWord _ (by omega)).trans hattr
  · have hsetup : (fs.startCluster this e r).setupCluster this r =
        some (fs.startCluster this e r) := by
      simp only [setupCluster, hadded, Option.bind_eq_bind, Option.bind_some]
      exact if_neg htype
    rw [hsetup, Option.bind_some, extendChain_zero hmarked.toValid hadded hlast]
    refine ⟨_, rfl, ⟨fun x hx _ => ?_, fun h => absurd h htype, fun h => absurd h htype⟩⟩
    exact (setFatWord_behind hmarked.toValid hr endMarker hx).trans (hdisk x hx)

/-- A directory whose slot is the last of its sector gets no first cluster. -/
theorem allocateMoreClusters_outside (hslot : IsSlot e.byteOffset) (htype : e.type = .DIRECTORY)
    (hlast : 512 < e.byteOffset % 512 + 64) : fs.allocateMoreClusters this 1 = none := by
  have hvalid := hsize.toValid
  have hmarked : (fs.startCluster this e r).SlotSize :=
    ⟨(hvalid.setFatWord r endMarker).setEntry this _, hsize.bytesPerDirEntry_eq⟩
  have hadded : (fs.startCluster this e r).entries this = some (e.addClusters [r]) :=
    setEntry_entries_self ..
  have hpMarked : (fs.startCluster this e r).entries dir = some p :=
    (Function.update_of_ne hne ..).trans hp
  have hinit := initDirCluster_outside (fs.fatEntryToClusterOffset r) hmarked hadded (c := r)
    (by simp [Entry.addClusters, hempty]) hparent hpMarked hparentHead hcluster hslot hlast
  have hsetup : (fs.startCluster this e r).setupCluster this r = none := by
    simp only [setupCluster, hadded, Option.bind_eq_bind, Option.bind_some]
    rw [if_pos (show (e.addClusters [r]).type = .DIRECTORY from htype)]
    exact hinit
  rw [allocateMoreClusters_first hvalid hentry hempty hfirst, hsetup, Option.bind_none]

end Allocate

end FAT32

end CrosKernel.Fs
