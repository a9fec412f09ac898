import CrosKernel.Fs.CreateEntry

/-!
# Looking up paths

`snip_file_path` and `parse_file_path` on a path `d/name`, and what `find_entry` returns after an
entry was appended to a directory: `Linked` describes the two heaps of entries.
-/

namespace CrosKernel.Fs

namespace FAT32

/-! ## Cutting a path -/

theorem lastSlashLoop_of_notMem {s : Str} (h : slash ∉ s) (index last : Nat) :
    lastSlashLoop s index last = last := by
  induction s generalizing index with
  | nil => rfl
  | cons c rest ih =>
      rw [List.mem_cons, not_or] at h
      rw [lastSlashLoop, if_neg (Ne.symm h.1), ih h.2]

theorem lastSlashLoop_append {name : Str} (h : slash ∉ name) (s : Str) (index last : Nat) :
    lastSlashLoop (s ++ slash :: name) index last = index + s.length := by
  induction s generalizing index last with
  | nil => simp [lastSlashLoop, lastSlashLoop_of_notMem h]
  | cons c rest ih =>
      rw [List.cons_append, lastSlashLoop, ih, List.length_cons]
      omega

/-- Cutting the last name off a path yields the path of the directory. -/
theorem snipFilePath_append {d name : Str} (hd : d ≠ []) (h : slash ∉ name) :
    snipFilePath (d ++ slash :: name) = d := by
  cases d with
  | nil => exact absurd rfl hd
  | cons c rest =>
      have hlast : lastSlashLoop (rest ++ slash :: name) 1 0 = (c :: rest).length := by
        rw [lastSlashLoop_append h, List.length_cons, Nat.add_comm]
      simp only [snipFilePath, List.cons_append, List.tail_cons, hlast]
      rw [if_pos (by simp), Str.substr, if_neg (by simp)]
      simp

/-- The path of a name in the root directory is cut to the root. -/
theorem snipFilePath_root {name : Str} (h : slash ∉ name) :
    snipFilePath (slash :: name) = [slash] := by
  simp [snipFilePath, lastSlashLoop_of_notMem h]

theorem parseFilePathLoop_of_notMem {s : Str} (h : slash ∉ s) (part : Str) :
    parseFilePathLoop part s = [part ++ s] := by
  induction s generalizing part with
  | nil => simp [parseFilePathLoop]
  | cons c rest ih =>
      rw [List.mem_cons, not_or] at h
      rw [parseFilePathLoop, if_neg (Ne.symm h.1), ih h.2]
      simp

theorem parseFilePathLoop_append {name : Str} (h : slash ∉ name) (s part : Str) :
    parseFilePathLoop part (s ++ slash :: name) = parseFilePathLoop part s ++ [name] := by
  induction s generalizing part with
  | nil => simp [parseFilePathLoop, parseFilePathLoop_of_notMem h]
  | cons c rest ih =>
      rw [List.cons_append, parseFilePathLoop, parseFilePathLoop]
      by_cases hc : c = slash
      · rw [if_pos hc, if_pos hc, ih, List.cons_append]
      · rw [if_neg hc, if_neg hc, ih]

/-- The names along a path in a directory. -/
theorem parseFilePath_append {d name : Str} (hd : parseFilePath d ≠ []) (h : slash ∉ name) :
    parseFilePath (d ++ slash :: name) = parseFilePath d ++ [name] := by
  cases d with
  | nil => exact absurd rfl hd
  | cons c rest =>
      have hc : ¬ c ≠ slash := fun hne => hd (if_pos hne)
      rw [List.cons_append, parseFilePath, parseFilePath, if_neg hc, if_neg hc,
        parseFilePathLoop_append h]

/-! ## Lookup in directories -/

variable {fs fs' : FAT32} {this dir x : EntryPtr} {p e : Entry} {name : Str}

/-- What `find_entry` does for paths other than that of the root. -/
theorem findEntry_eq {path : Str} (h : path ≠ [slash]) (hne : parseFilePath path ≠ []) :
    fs.findEntry path = fs.findEntryLoop fs.rootDir (parseFilePath path) := by
  rw [findEntry, if_neg h]
  split
  next heq => exact absurd heq hne
  next => rfl

/-- A path that resolves and is not that of the root has names. -/
theorem parseFilePath_ne_nil {path : Str} (h : path ≠ [slash])
    (hfound : fs.findEntry path = some (some x)) : parseFilePath path ≠ [] := by
  intro heq
  rw [findEntry, if_neg h, heq] at hfound
  cases hfound

/-- Looking up names one after the other. -/
theorem findEntryLoop_append (current : EntryPtr) (names : List Str) (name : Str)
    (h : fs.findEntryLoop current names = some (some dir)) :
    fs.findEntryLoop current (names ++ [name]) = fs.findSubDir dir name := by
  induction names generalizing current with
  | nil =>
      obtain rfl : current = dir := by simpa [findEntryLoop] using h
      simp only [List.nil_append, findEntryLoop]
      cases fs.findSubDir current name with
      | none => rfl
      | some found => cases found <;> rfl
  | cons first rest ih =>
      rw [List.cons_append]
      simp only [findEntryLoop] at h ⊢
      cases hfirst : fs.findSubDir current first with
      | none => simp [hfirst] at h
      | some found =>
          cases found with
          | none => simp [hfirst] at h
          | some next =>
              simp only [hfirst, Option.bind_eq_bind, Option.bind_some] at h ⊢
              exact ih next h

/-- From `fs` to `fs'` the entry `e` at the unused address `this` was appended to the directory `p`
at `dir`. -/
structure Linked (fs fs' : FAT32) (this dir : EntryPtr) (p e : Entry) : Prop where
  rootDir_eq : fs'.rootDir = fs.rootDir
  fresh : fs.entries this = none
  parent : fs.entries dir = some p
  this_eq : fs'.entries this = some e
  dir_eq : fs'.entries dir = some { p with subDirs := p.subDirs ++ [this] }
  others_eq : ∀ q, q ≠ this → q ≠ dir → fs'.entries q = fs.entries q

namespace Linked

/-- An old entry keeps its name, and its sub-directories keep their places. -/
theorem entry (h : Linked fs fs' this dir p e) {q : EntryPtr} {old : Entry}
    (hold : fs.entries q = some old) :
    ∃ new more, fs'.entries q = some new ∧ new.name = old.name ∧
      new.subDirs = old.subDirs ++ more := by
  by_cases hdir : q = dir
  · subst hdir
    obtain rfl : p = old := Option.some.inj (h.parent.symm.trans hold)
    exact ⟨_, [this], h.dir_eq, rfl, rfl⟩
  · have hthis : q ≠ this := by
      rintro rfl
      exact absurd (h.fresh.symm.trans hold) (by simp)
    exact ⟨old, [], (h.others_eq q hthis hdir).trans hold, rfl, by simp⟩

/-- Among the old sub-directories the search finds the old entry. -/
theorem findSubDirLoop_found (h : Linked fs fs' this dir p e) {list : List EntryPtr}
    (hfound : fs.findSubDirLoop name list = some (some x)) (more : List EntryPtr) :
    fs'.findSubDirLoop name (list ++ more) = some (some x) := by
  induction list with
  | nil => simp [FAT32.findSubDirLoop] at hfound
  | cons q rest ih =>
      simp only [FAT32.findSubDirLoop, Option.bind_eq_bind, Option.bind_eq_some_iff] at hfound
      obtain ⟨old, hold, hrest⟩ := hfound
      obtain ⟨new, -, hnew, hname, -⟩ := h.entry hold
      simp only [List.cons_append, FAT32.findSubDirLoop, hnew, Option.bind_eq_bind,
        Option.bind_some, hname]
      by_cases heq : old.name = name
      · rw [if_pos heq] at hrest ⊢
        exact hrest
      · rw [if_neg heq] at hrest ⊢
        exact ih hrest

/-- Behind sub-directories of other names the search goes on. -/
theorem findSubDirLoop_none (h : Linked fs fs' this dir p e) {list : List EntryPtr}
    (hnone : fs.findSubDirLoop name list = some none) (more : List EntryPtr) :
    fs'.findSubDirLoop name (list ++ more) = fs'.findSubDirLoop name more := by
  induction list with
  | nil => rfl
  | cons q rest ih =>
      simp only [FAT32.findSubDirLoop, Option.bind_eq_bind, Option.bind_eq_some_iff] at hnone
      obtain ⟨old, hold, hrest⟩ := hnone
      obtain ⟨new, -, hnew, hname, -⟩ := h.entry hold
      simp only [List.cons_append, FAT32.findSubDirLoop, hnew, Option.bind_eq_bind,
        Option.bind_some, hname]
      by_cases heq : old.name = name
      · rw [if_pos heq] at hrest
        cases hrest
      · rw [if_neg heq] at hrest ⊢
        exact ih hrest

theorem findSubDir_found (h : Linked fs fs' this dir p e) {q : EntryPtr}
    (hfound : fs.findSubDir q name = some (some x)) : fs'.findSubDir q name = some (some x) := by
  simp only [FAT32.findSubDir, Option.bind_eq_bind, Option.bind_eq_some_iff] at hfound
  obtain ⟨old, hold, hloop⟩ := hfound
  obtain ⟨new, more, hnew, -, hsub⟩ := h.entry hold
  simp only [FAT32.findSubDir, hnew, Option.bind_eq_bind, Option.bind_some, hsub]
  exact h.findSubDirLoop_found hloop more

/-- Names that led to an entry lead to it still. -/
theorem findEntryLoop_found (h : Linked fs fs' this dir p e) {current : EntryPtr} {names : List Str}
    (hfound : fs.findEntryLoop current names = some (some x)) :
    fs'.findEntryLoop current names = some (some x) := by
  induction names generalizing current with
  | nil => exact hfound
  | cons first rest ih =>
      simp only [FAT32.findEntryLoop] at hfound ⊢
      cases hfirst : fs.findSubDir current first with
      | none => simp [hfirst] at hfound
      | some found =>
          cases found with
          | none => simp [hfirst] at hfound
          | some next =>
              simp only [hfirst, h.findSubDir_found hfirst, Option.bind_eq_bind,
                Option.bind_some] at hfound ⊢
              exact ih hfound

/-- Paths that resolved resolve to the same entries. -/
theorem findEntry_found (h : Linked fs fs' this dir p e) {path : Str}
    (hfound : fs.findEntry path = some (some x)) : fs'.findEntry path = some (some x) := by
  by_cases hroot : path = [slash]
  · subst hroot
    simpa [findEntry, h.rootDir_eq] using hfound
  · have hne := parseFilePath_ne_nil hroot hfound
    rw [findEntry_eq hroot hne] at hfound ⊢
    rw [h.rootDir_eq]
    exact h.findEntryLoop_found hfound

/-- The new name in the directory resolves to the new entry. -/
theorem findEntry_new (h : Linked fs fs' this dir p e) {d : Str} (hd : d ≠ [slash])
    (hdir : fs.findEntry d = some (some dir)) (hname : slash ∉ e.name)
    (hfresh : fs.findEntry (d ++ slash :: e.name) = some none) :
    fs'.findEntry (d ++ slash :: e.name) = some (some this) := by
  have hparse := parseFilePath_ne_nil hd hdir
  have happend := parseFilePath_append hparse hname
  have hpath : d ++ slash :: e.name ≠ [slash] := by
    intro heq
    have hlength := congrArg List.length heq
    simp only [List.length_append, List.length_cons, List.length_nil] at hlength
    have hnil : d = [] := List.length_eq_zero_iff.1 (by omega)
    rw [hnil] at hparse
    exact hparse rfl
  have hne : parseFilePath (d ++ slash :: e.name) ≠ [] := by
    rw [happend]
    simp
  have hold := hdir
  rw [findEntry_eq hd hparse] at hold
  have hnew := h.findEntryLoop_found hold
  rw [findEntry_eq hpath hne, happend, findEntryLoop_append _ _ _ hold] at hfresh
  rw [findEntry_eq hpath hne, happend, h.rootDir_eq, findEntryLoop_append _ _ _ hnew]
  simp only [FAT32.findSubDir, h.parent, Option.bind_eq_bind, Option.bind_some] at hfresh
  simp only [FAT32.findSubDir, h.dir_eq, Option.bind_eq_bind, Option.bind_some]
  rw [h.findSubDirLoop_none hfresh]
  simp [FAT32.findSubDirLoop, h.this_eq]

end Linked

end FAT32

end CrosKernel.Fs
