import CrosKernel.Fs.CreateKeeps
import CrosKernel.Fs.FileContextFAT32
import CrosKernel.Fs.VolumeCreates

/-!
# Runs of a volume

Calls of `write_file`, `create_file` and `create_dir` on one volume, in any order. `FileImage` is what
a reader of a path sees of a file, and `replay` what the calls mean for it. `files_replayed` says that
the volume shows each file as the calls for it made it.
-/

namespace CrosKernel.Fs

open Lib

namespace FAT32

/-- `FAT32::write_file`. -/
def writeFile (fs : FAT32) (filePath : Str) (sectorOffset : Nat) (data : Buffer) :
    Option (FAT32 × Bool) := do
  match ← fs.findEntry filePath with
  | none => some (fs, false)
  | some this => fs.writeData this sectorOffset data

/-- The calls that change a volume, where `new Entry()` yields `this`. -/
inductive VolumeCall where
  | writeFile (filePath : Str) (sectorOffset : Nat) (data : Buffer)
  | createFile (filePath : Str) (this : EntryPtr)
  | createDir (dirPath : Str) (this : EntryPtr)

/-- The call leaves the volume `fs'` and reports `ok`. -/
def VolumeCall.Returns (fs fs' : FAT32) (ok : Bool) : VolumeCall → Prop
  | .writeFile filePath sectorOffset data =>
      fs.writeFile filePath sectorOffset data = some (fs', ok)
  | .createFile filePath this => ∃ fuel past, fs.createFile fuel this filePath past = some (fs', ok)
  | .createDir dirPath this => ∃ fuel past, fs.createDir fuel this dirPath past = some (fs', ok)

/-- The path is a name in its directory, and the directory satisfies `room`. -/
def NewPath (fs : FAT32) (this : EntryPtr) (path : Str) (room : Entry → Str → Prop) : Prop :=
  fs.entries this = none ∧ ∀ dir parent, fs.findEntry (snipFilePath path) = some (some dir) →
    fs.entries dir = some parent → ∃ name, path = childPath (snipFilePath path) name ∧
      slash ∉ name ∧ name ≠ [] ∧ room parent name

/-- The calls whose effect stays where it belongs: a file grows by at most one cluster, and a new
entry gets its slots in clusters of its directory. For `create_dir` that has to be a directory. -/
def VolumeCall.Allowed (fs : FAT32) : VolumeCall → Prop
  | .writeFile filePath sectorOffset _ => ∀ p e, fs.findEntry filePath = some (some p) →
      fs.entries p = some e → sectorOffset / fs.sectorsPerCluster ≤ max 1 e.fatAllocations.length
  | .createFile filePath this =>
      fs.NewPath this filePath fun parent name => parent.type = .DIRECTORY → fs.HasRoom parent name
  | .createDir dirPath this =>
      fs.NewPath this dirPath fun parent name => parent.type = .DIRECTORY ∧ fs.HasRoom parent name

/-- A run of such calls with their results. -/
def Runs : FAT32 → List (VolumeCall × Bool) → FAT32 → Prop :=
  Run (Guarded (fun fs e => e.1.Allowed fs) fun fs e fs' => e.1.Returns fs fs' e.2)

/-! ## Files as their readers see them -/

/-- The size of a file, and the sectors that are known. -/
structure FileImage where
  size : Int
  block : Nat → Option Block

/-- A file with another sector. -/
def FileImage.write (f : FileImage) (s : Nat) (data : Buffer) : FileImage where
  size := sizeAfter f.size s data
  block := Function.update f.block s (some data.block)

/-- What a successful call means for the file with the paths `same`. -/
def VolumeCall.apply (same : Str → Prop) [DecidablePred same] (f : Option FileImage) :
    VolumeCall → Option FileImage
  | .writeFile filePath sectorOffset data =>
      if same filePath then f.map (·.write sectorOffset data) else f
  | .createFile filePath _ => if same filePath then some ⟨0, fun _ => none⟩ else f
  | .createDir _ _ => f

/-- What a run means for it. -/
def replay (same : Str → Prop) [DecidablePred same] (es : List (VolumeCall × Bool))
    (f : Option FileImage) : Option FileImage :=
  es.foldl (fun f e => if e.2 then e.1.apply same f else f) f

/-- A reader of the path sees the file. -/
structure Shows (fs : FAT32) (path : Str) (f : FileImage) : Prop where
  size_eq : fs.fileSize path = some (some f.size)
  sector_eq : ∀ s b, f.block s = some b → ∃ buffer, fs.readFile path s = some (some buffer) ∧
    buffer.size = 512 ∧ buffer.block = b

/-- The entry at `p` holds the file. -/
structure HoldsAt (fs : FAT32) (p : EntryPtr) (f : FileImage) : Prop where
  size_eq : ∃ e, fs.entries p = some e ∧ e.fileSizeBytes = f.size
  block_eq : ∀ s b, f.block s = some b → fs.blockAt p s = some b

variable {fs fs' : FAT32} {this p : EntryPtr} {path : Str} {f g : FileImage} {s : Nat} {data : Buffer}
  {ok : Bool} {es : List (VolumeCall × Bool)} {written : EntryPtr → Nat → Prop}

theorem Shows.holdsAt (h : fs.Shows path f) :
    ∃ p, fs.findEntry path = some (some p) ∧ fs.HoldsAt p f := by
  obtain ⟨hsize, hsector⟩ := h
  unfold fileSize at hsize
  simp only [Option.bind_eq_bind, Option.bind_eq_some_iff] at hsize
  obtain ⟨found, hfound, hsize⟩ := hsize
  cases found with
  | none => cases hsize
  | some p =>
      obtain ⟨e, he, hsize⟩ := Option.bind_eq_some_iff.1 hsize
      refine ⟨p, hfound, ⟨e, he, Option.some.inj (Option.some.inj hsize)⟩, fun s b hb => ?_⟩
      obtain ⟨buffer, hread, -, hblock⟩ := hsector s b hb
      simp only [readFile, hfound, Option.bind_eq_bind, Option.bind_some] at hread
      rw [blockAt, hread, Option.join_some, Option.map_some, hblock]

theorem HoldsAt.shows (h : fs.HoldsAt p f) (hvalid : fs.Valid)
    (hpath : fs.findEntry path = some (some p)) : fs.Shows path f := by
  obtain ⟨⟨e, he, hsize⟩, hblock⟩ := h
  refine ⟨?_, fun s b hb => ?_⟩
  · simp only [fileSize, hpath, he, Option.bind_eq_bind, Option.bind_some, Option.pure_def, hsize]
  · have hat := hblock s b hb
    simp only [readFile, hpath, Option.bind_eq_bind, Option.bind_some]
    rw [blockAt, Option.map_eq_some_iff] at hat
    obtain ⟨buffer, hread, rfl⟩ := hat
    rw [Option.join_eq_some_iff] at hread
    refine ⟨buffer, hread, ?_, rfl⟩
    simp only [readData, he, Option.bind_eq_bind, Option.bind_some] at hread
    split at hread
    · cases hread
    · split at hread
      · cases hread
      · cases hread
        exact hvalid.disk_bytesPerSector_eq

/-- A file of which nothing is written stays. -/
theorem Carries.holdsAt (hc : Carries fs fs' written) (h : fs.HoldsAt p f)
    (hnot : ∀ s, ¬ written p s) : fs'.HoldsAt p f where
  size_eq := by
    obtain ⟨e, he, hsize⟩ := h.size_eq
    obtain ⟨e', he', hsize'⟩ := hc.size p e hnot he
    exact ⟨e', he', hsize'.trans hsize⟩
  block_eq s b hb := hc.block p s b (hnot s) (h.block_eq s b hb)

/-! ## The calls -/

/-- `write_file` fails and leaves all files, or it writes a sector of the file that the path names. -/
theorem Separate.writeFile_cases (h : fs.Separate)
    (hallowed : (VolumeCall.writeFile path s data).Allowed fs)
    (hcall : fs.writeFile path s data = some (fs', ok)) :
    ok = false ∧ Carries fs fs' (fun _ _ => False) ∨
      ok = true ∧ ∃ p, fs.findEntry path = some (some p) ∧
        Carries fs fs' (fun q t => q = p ∧ t = s) ∧
          ∀ f, fs.HoldsAt p f → fs'.HoldsAt p (f.write s data) := by
  simp only [writeFile, Option.bind_eq_bind, Option.bind_eq_some_iff] at hcall
  obtain ⟨found, hfound, hcall⟩ := hcall
  cases found with
  | none =>
      rw [Option.some.injEq, Prod.mk.injEq] at hcall
      obtain ⟨rfl, rfl⟩ := hcall
      exact .inl ⟨rfl, .refl h _⟩
  | some p =>
      change fs.writeData p s data = some (fs', ok) at hcall
      obtain ⟨e, he, -⟩ := Option.bind_eq_some_iff.1 hcall
      obtain ⟨hcarries, hstored⟩ := h.writeData_carries he (hallowed p e hfound he) hcall
      cases ok with
      | false => exact .inl ⟨rfl, hcarries.mono fun _ _ hw => absurd hw.1 (by decide)⟩
      | true =>
          obtain ⟨hblock, e', he', hsize⟩ := hstored rfl
          refine .inr ⟨rfl, p, hfound, hcarries.mono fun _ _ hw => hw.2, fun f hf => ⟨?_, ?_⟩⟩
          · obtain ⟨e₀, he₀, hsize₀⟩ := hf.size_eq
            obtain rfl := Option.some.inj (he.symm.trans he₀)
            exact ⟨e', he', by rw [hsize, hsize₀]; rfl⟩
          · intro t b hb
            by_cases ht : t = s
            · rw [ht] at hb ⊢
              change Function.update _ _ _ _ = _ at hb
              rw [Function.update_self] at hb
              rw [hblock, hb]
            · change Function.update _ _ _ _ = _ at hb
              rw [Function.update_of_ne ht] at hb
              exact hcarries.block p t b (fun hw => ht hw.2.2) (hf.block_eq t b hb)

theorem entry_of_findSubDirLoop {name : Str} {list : List EntryPtr}
    (hfound : fs.findSubDirLoop name list = some (some p)) : ∃ e, fs.entries p = some e := by
  induction list with
  | nil => cases hfound
  | cons q rest ih =>
      obtain ⟨e, he, hfound⟩ := Option.bind_eq_some_iff.1 hfound
      split at hfound
      · cases hfound
        exact ⟨e, he⟩
      · exact ih hfound

theorem entry_of_findEntryLoop {names : List Str} {current : EntryPtr}
    (hcurrent : ∃ e, fs.entries current = some e)
    (hfound : fs.findEntryLoop current names = some (some p)) : ∃ e, fs.entries p = some e := by
  induction names generalizing current with
  | nil =>
      cases hfound
      exact hcurrent
  | cons name rest ih =>
      obtain ⟨found, hsub, hfound⟩ := Option.bind_eq_some_iff.1 hfound
      cases found with
      | none => cases hfound
      | some next =>
          obtain ⟨e, -, hsub⟩ := Option.bind_eq_some_iff.1 hsub
          exact ih (entry_of_findSubDirLoop hsub) hfound

/-- Paths resolve to entries of the volume. -/
theorem Separate.entry_of_found (h : fs.Separate) (hfound : fs.findEntry path = some (some p)) :
    ∃ e, fs.entries p = some e := by
  unfold findEntry at hfound
  split at hfound
  · cases hfound
    exact h.hasRoot
  · split at hfound
    · cases hfound
    · exact entry_of_findEntryLoop h.hasRoot hfound

/-- A new entry leaves all files, and its path resolves to it. -/
theorem Separate.createIn_cases (h : fs.Separate) {room : Entry → Str → Prop} {dir : EntryPtr}
    {parent : Entry} {type : EntryAttribute} {fuel : Nat} {past : Nat → Nat → Nat → UInt8}
    (hnew : fs.NewPath this path room) (hdir : fs.findEntry (snipFilePath path) = some (some dir))
    (hp : fs.entries dir = some parent) (htype : parent.type = .DIRECTORY)
    (hroom : ∀ name, room parent name → fs.HasRoom parent name)
    (hcall : fs.createIn fuel this dir path type past = some (fs', ok)) :
    Carries fs fs' (fun _ _ => False) ∧ (ok = true → fs'.findEntry path = some (some this) ∧
      (type = .FILE → fs'.HoldsAt this ⟨0, fun _ => none⟩)) := by
  obtain ⟨hfresh, hname⟩ := hnew
  obtain ⟨name, hpath, hslash, hne, hfits⟩ := hname dir parent hdir hp
  generalize snipFilePath path = d at hdir hpath
  subst hpath
  obtain ⟨hcarries, hentry⟩ :=
    h.createIn_carries hdir hslash hne hfresh hp htype (hroom name hfits) hcall
  refine ⟨hcarries, fun hok => ?_⟩
  obtain ⟨hfound, slot, r, he⟩ := hentry hok
  exact ⟨hfound, fun hfile => ⟨⟨_, he, if_pos hfile⟩, fun s b hb => by cases hb⟩⟩

/-- `create_file` leaves all files, and a success makes the path resolve to an empty one. -/
theorem Separate.createFile_cases (h : fs.Separate)
    (hallowed : (VolumeCall.createFile path this).Allowed fs) {fuel : Nat}
    {past : Nat → Nat → Nat → UInt8} (hcall : fs.createFile fuel this path past = some (fs', ok)) :
    Carries fs fs' (fun _ _ => False) ∧ (ok = true → fs'.findEntry path = some (some this) ∧
      fs'.HoldsAt this ⟨0, fun _ => none⟩) := by
  simp only [createFile, Option.bind_eq_bind, Option.bind_eq_some_iff] at hcall
  obtain ⟨found, hfound, hcall⟩ := hcall
  cases found with
  | none =>
      rw [Option.some.injEq, Prod.mk.injEq] at hcall
      obtain ⟨rfl, rfl⟩ := hcall
      exact ⟨.refl h _, fun hok => absurd hok (by decide)⟩
  | some dir =>
      obtain ⟨parent, hp, hcall⟩ := Option.bind_eq_some_iff.1 hcall
      by_cases htype : parent.type = .DIRECTORY
      · rw [if_neg (not_not_intro htype)] at hcall
        obtain ⟨hcarries, hentry⟩ := h.createIn_cases hallowed hfound hp htype
          (fun name hroom => hroom htype) hcall
        exact ⟨hcarries, fun hok => ⟨(hentry hok).1, (hentry hok).2 rfl⟩⟩
      · rw [if_pos htype, Option.some.injEq, Prod.mk.injEq] at hcall
        obtain ⟨rfl, rfl⟩ := hcall
        exact ⟨.refl h _, fun hok => absurd hok (by decide)⟩

theorem Separate.createDir_cases (h : fs.Separate)
    (hallowed : (VolumeCall.createDir path this).Allowed fs) {fuel : Nat}
    {past : Nat → Nat → Nat → UInt8} (hcall : fs.createDir fuel this path past = some (fs', ok)) :
    Carries fs fs' (fun _ _ => False) := by
  simp only [createDir, Option.bind_eq_bind, Option.bind_eq_some_iff] at hcall
  obtain ⟨found, hfound, hcall⟩ := hcall
  cases found with
  | none =>
      rw [Option.some.injEq, Prod.mk.injEq] at hcall
      obtain ⟨rfl, rfl⟩ := hcall
      exact .refl h _
  | some dir =>
      obtain ⟨parent, hp⟩ := h.entry_of_found hfound
      obtain ⟨name, -, -, -, htype, -⟩ := hallowed.2 dir parent hfound hp
      exact (h.createIn_cases hallowed hfound hp htype (fun name hroom => hroom.2) hcall).1

/-! ## Runs -/

section Resolved

variable {resolve : Str → Option (Option EntryPtr)} {target : Option (Option EntryPtr)}
  {init : Option FileImage}

/-- The entry that `target` stands for, if it is one, holds the file. -/
def HoldsTarget (fs : FAT32) (target : Option (Option EntryPtr)) (init : Option FileImage) : Prop :=
  ∀ f, init = some f → ∃ p, target = some (some p) ∧ fs.HoldsAt p f

theorem Carries.holdsTarget (hc : Carries fs fs' fun _ _ => False) (h : fs.HoldsTarget target init) :
    fs'.HoldsTarget target init := by
  intro f hf
  obtain ⟨p, hp, hholds⟩ := h f hf
  exact ⟨p, hp, hc.holdsAt hholds fun _ hw => hw⟩

/-- What a call means for the file with the paths that resolve to `target`. -/
theorem Separate.call_holdsTarget (h : fs.Separate) {call : VolumeCall} (hallowed : call.Allowed fs)
    (hreturns : call.Returns fs fs' ok)
    (hresolve : ∀ path p, fs'.findEntry path = some (some p) → resolve path = some (some p))
    (hinit : fs.HoldsTarget target init) :
    fs'.HoldsTarget target (if ok then call.apply (resolve · = target) init else init) := by
  cases call with
  | writeFile filePath s data =>
      obtain ⟨rfl, hcarries⟩ | ⟨rfl, q, hq, hcarries, hwritten⟩ := h.writeFile_cases hallowed hreturns
      · exact hcarries.holdsTarget hinit
      · have hq' := hresolve filePath q (hcarries.found filePath q hq)
        rw [if_pos rfl, VolumeCall.apply]
        split
        next hsame =>
          intro f hf
          obtain ⟨g, hg, rfl⟩ := Option.map_eq_some_iff.1 hf
          obtain ⟨p, hp, hholds⟩ := hinit g hg
          obtain rfl : q = p := by simpa using hq'.symm.trans (hsame.trans hp)
          exact ⟨q, hp, hwritten g hholds⟩
        next hother =>
          intro f hf
          obtain ⟨p, hp, hholds⟩ := hinit f hf
          refine ⟨p, hp, hcarries.holdsAt hholds fun t hw => hother ?_⟩
          rw [hq', hp, hw.1]
  | createFile filePath this =>
      obtain ⟨fuel, past, hcall⟩ := hreturns
      obtain ⟨hcarries, hcreated⟩ := h.createFile_cases hallowed hcall
      cases ok with
      | false => exact hcarries.holdsTarget hinit
      | true =>
          obtain ⟨hfound, hempty⟩ := hcreated rfl
          rw [if_pos rfl, VolumeCall.apply]
          split
          next hsame =>
            intro f hf
            cases hf
            exact ⟨this, hsame ▸ hresolve filePath this hfound, hempty⟩
          next => exact hcarries.holdsTarget hinit
  | createDir dirPath this =>
      obtain ⟨fuel, past, hcall⟩ := hreturns
      have hcarries := h.createDir_cases hallowed hcall
      cases ok <;> exact hcarries.holdsTarget hinit

end Resolved

/-- A call writes sectors of the file that its path names, if any. -/
theorem Separate.call_carries (h : fs.Separate) {call : VolumeCall} (hallowed : call.Allowed fs)
    (hreturns : call.Returns fs fs' ok) : ∃ written, Carries fs fs' written ∧
      ∀ p t, written p t → ∃ filePath s data, call = .writeFile filePath s data ∧ ok = true ∧
        fs.findEntry filePath = some (some p) := by
  cases call with
  | writeFile filePath s data =>
      obtain ⟨-, hcarries⟩ | ⟨hok, q, hq, hcarries, -⟩ := h.writeFile_cases hallowed hreturns
      · exact ⟨_, hcarries, fun _ _ hw => hw.elim⟩
      · exact ⟨_, hcarries, fun p t hw => ⟨filePath, s, data, rfl, hok, hw.1 ▸ hq⟩⟩
  | createFile filePath this =>
      obtain ⟨fuel, past, hcall⟩ := hreturns
      exact ⟨_, (h.createFile_cases hallowed hcall).1, fun _ _ hw => hw.elim⟩
  | createDir dirPath this =>
      obtain ⟨fuel, past, hcall⟩ := hreturns
      exact ⟨_, h.createDir_cases hallowed hcall, fun _ _ hw => hw.elim⟩

/-- A run keeps a volume separate and the paths, and the file of a path is what the run means for
it. -/
theorem Separate.run (h : fs.Separate) (hrun : fs.Runs es fs') : fs'.Separate ∧
    (∀ path p, fs.findEntry path = some (some p) → fs'.findEntry path = some (some p)) ∧
      ∀ target init, fs.HoldsTarget target init →
        fs'.HoldsTarget target (replay (fs'.findEntry · = target) es init) := by
  induction hrun with
  | nil fs => exact ⟨h, fun _ _ hp => hp, fun _ _ hinit => hinit⟩
  | cons hstep _ ih =>
      obtain ⟨hallowed, hreturns⟩ := hstep
      obtain ⟨written, hcarries, -⟩ := h.call_carries hallowed hreturns
      obtain ⟨h', hfound, hholds⟩ := ih hcarries.separate
      refine ⟨h', fun path p hp => hfound path p (hcarries.found path p hp),
        fun target init hinit => ?_⟩
      exact hholds target _ (h.call_holdsTarget hallowed hreturns hfound hinit)

theorem Separate.run_shows (h : fs.Separate) (hrun : fs.Runs es fs') {init : Option FileImage}
    (hinit : ∀ f, init = some f → fs.Shows path f)
    (hf : replay (fs'.findEntry · = fs'.findEntry path) es init = some f) :
    fs'.Separate ∧ fs'.Shows path f := by
  obtain ⟨h', hfound, hholds⟩ := h.run hrun
  obtain ⟨p, hp, hat⟩ := hholds _ init (fun g hg => by
    obtain ⟨p, hp, hat⟩ := (hinit g hg).holdsAt
    exact ⟨p, hfound path p hp, hat⟩) f hf
  exact ⟨h', hat.shows h'.toValid hp⟩

theorem treeVolume_onDisk {c : Nat} (htwo : 2 ≤ c) (hlt : c < treeVolume.fatEntries)
    (hword : treeVolume.fatWord c = endMarker) : treeVolume.OnDisk [c] :=
  .singleton htwo hlt hword

theorem treeVolume_separate : treeVolume.Separate where
  toMounted := treeVolume_mounted
  chain p e he := by
    rcases treeVolume_entries he with ⟨-, rfl⟩ | ⟨-, rfl⟩ | ⟨-, rfl⟩
    · exact treeVolume_onDisk (by decide) (by decide) (by decide +kernel)
    · exact treeVolume_onDisk (by decide) (by decide) (by decide +kernel)
    · exact .nil
  disjoint p q e e' hne he he' := by
    rcases treeVolume_entries he with ⟨rfl, rfl⟩ | ⟨rfl, rfl⟩ | ⟨rfl, rfl⟩ <;>
      rcases treeVolume_entries he' with ⟨rfl, rfl⟩ | ⟨rfl, rfl⟩ | ⟨rfl, rfl⟩ <;>
      simp_all [rootEntry, folderEntry, fileEntry]
  hasRoot := ⟨rootEntry, rfl⟩
  slot q e he hfile := by
    rcases treeVolume_entries he with ⟨-, rfl⟩ | ⟨-, rfl⟩ | ⟨-, rfl⟩
    · cases hfile
    · cases hfile
    · refine ⟨by decide, 1, folderEntry, 3, rfl, by decide, by simp [folderEntry], fun j hj => ?_⟩
      have hstart : treeVolume.clusterStart 3 = 10 * 512 := by decide
      have hbytes : treeVolume.bytesPerCluster = 512 := rfl
      have hoffset : fileEntry.byteOffset = 10 * 512 + 64 := rfl
      rw [InCluster, hstart, hbytes, hoffset]
      omega

theorem treeVolume_hasRoom : treeVolume.HasRoom folderEntry [0x6E] := by
  intro c k hhead hrun i hi
  obtain rfl : 3 = c := Option.some.inj hhead
  obtain rfl := treeVolume_place.run.unique hrun
  have hcount : numLongNameEntries [0x6E] = 1 := by decide
  have hstart : treeVolume.clusterStart 3 = 10 * 512 := by decide
  have hbytes : treeVolume.bytesPerCluster = 512 := rfl
  refine ⟨3, by simp [folderEntry], by decide, ?_, ?_⟩
  · omega
  · rw [hstart, hbytes]
    omega

/-- A file is created and its first sector written. -/
def createAndWrite : List (VolumeCall × Bool) :=
  [(.createFile (childPath [slash, 0x64] [0x6E]) 3, true),
    (.writeFile (childPath [slash, 0x64] [0x6E]) 0 ⟨512, fun _ => 0x61⟩, true)]

theorem runs_createAndWrite : ∃ fs', treeVolume.Runs createAndWrite fs' := by
  have hrun : (treeVolume.createFile 2 3 (childPath [slash, 0x64] [0x6E]) fun _ _ _ => 0).bind
      (fun r => (r.1.writeFile (childPath [slash, 0x64] [0x6E]) 0 ⟨512, fun _ => 0x61⟩).map
        fun r' => (r.2, r'.2)) = some (true, true) := by
    decide +kernel
  obtain ⟨⟨fs₁, ok₁⟩, hcreate, hrun⟩ := Option.bind_eq_some_iff.1 hrun
  obtain ⟨⟨fs₂, ok₂⟩, hwrite, hok⟩ := Option.map_eq_some_iff.1 hrun
  obtain ⟨rfl, rfl⟩ := Prod.mk.inj hok
  have hd : treeVolume.findEntry [slash, 0x64] = some (some 1) := rfl
  have hslash : slash ∉ [0x6E] := by decide
  refine ⟨fs₂, .cons ⟨⟨rfl, fun dir parent hdir hp => ?_⟩, 2, _, hcreate⟩
    (.cons ⟨fun p e _ _ => ?_, hwrite⟩ (.nil _))⟩
  · rw [snipFilePath_childPath hd hslash] at hdir ⊢
    obtain rfl : 1 = dir := Option.some.inj (Option.some.inj (hd.symm.trans hdir))
    obtain rfl : folderEntry = parent := Option.some.inj hp
    exact ⟨[0x6E], rfl, hslash, by decide, fun _ => treeVolume_hasRoom⟩
  · rw [Nat.zero_div]
    exact Nat.zero_le _

end FAT32

end CrosKernel.Fs
