import CrosKernel.Fs.Create

/-!
# A path and the path of its parent

`parse_file_path` splits a path at its slashes, and `snip_file_path` cuts it at the last of them.
The existence check of `create_file` and `create_dir` follows the names of the whole path, but their
parent directory is looked up by the cut path: `findEntry_parent_iff` says when the two lookups
agree.
-/

namespace CrosKernel.Fs

namespace FAT32

variable {fs : FAT32} {dir x : EntryPtr} {e : Entry} {name rest : Str}

/-! ## Splitting a path -/

theorem parseFilePathLoop_eq (s part : Str) :
    parseFilePathLoop part s = (s.splitOn slash).modifyHead (part ++ ·) := by
  rw [List.splitOn]
  induction s generalizing part with
  | nil => simp [parseFilePathLoop]
  | cons c rest ih =>
      rw [parseFilePathLoop, List.splitOnP_cons_eq_if_modifyHead]
      by_cases hc : c = slash
      · rw [if_pos hc, if_pos (by simpa using hc), ih, List.modifyHead_cons]
        congr 1
        · simp
        · cases List.splitOnP (· == slash) rest <;> simp
      · rw [if_neg hc, if_neg (by simpa using hc), ih, List.modifyHead_modifyHead]
        congr 1
        funext names
        simp

/-- The names of a path are what lies between its slashes. -/
theorem parseFilePath_eq_splitOn (rest : Str) :
    parseFilePath (slash :: rest) = rest.splitOn slash := by
  have hhead : (fun names : Str => [] ++ names) = id := rfl
  rw [parseFilePath, if_neg (not_not_intro rfl), parseFilePathLoop_eq, hhead]
  cases rest.splitOn slash <;> rfl

theorem parseFilePath_slash_ne_nil (rest : Str) : parseFilePath (slash :: rest) ≠ [] := by
  rw [parseFilePath_eq_splitOn]
  exact List.splitOnP_ne_nil _ _

/-- The last slash of a path, and the name behind it. -/
theorem exists_lastSlash (h : slash ∈ rest) :
    ∃ d name, rest = d ++ slash :: name ∧ slash ∉ name := by
  obtain ⟨back, front, heq, hname⟩ := List.eq_append_cons_of_mem (List.mem_reverse.2 h)
  refine ⟨front.reverse, back.reverse, ?_, by simpa using hname⟩
  rw [← List.reverse_reverse rest, heq]
  simp

/-- The names of a path, joined again, are the path; the names of the cut path are those of the path
without the last; a path of one name is cut to the root. -/
theorem parseFilePath_join_snip (rest : Str) :
    slash :: [slash].intercalate (parseFilePath (slash :: rest)) = slash :: rest ∧
    (slash ∈ rest → parseFilePath (snipFilePath (slash :: rest)) =
      (parseFilePath (slash :: rest)).dropLast) ∧
    (slash ∉ rest → snipFilePath (slash :: rest) = [slash]) := by
  refine ⟨?_, fun hmem => ?_, snipFilePath_root⟩
  · rw [parseFilePath_eq_splitOn, List.intercalate_splitOn]
  · obtain ⟨d, name, rfl, hname⟩ := exists_lastSlash hmem
    show parseFilePath (snipFilePath ((slash :: d) ++ slash :: name)) =
      (parseFilePath ((slash :: d) ++ slash :: name)).dropLast
    rw [snipFilePath_append (List.cons_ne_nil _ _) hname,
      parseFilePath_append (parseFilePath_slash_ne_nil d) hname, List.dropLast_concat]

/-! ## Trees of entries -/

/-- The entries are a tree: every sub-directory is an entry, of one parent, and the root is none. -/
structure IsTree (fs : FAT32) : Prop where
  root : ∃ e, fs.entries fs.rootDir = some e
  subDir : ∀ q e, fs.entries q = some e → ∀ x ∈ e.subDirs, ∃ f, fs.entries x = some f
  parent_unique : ∀ q e r f, fs.entries q = some e → fs.entries r = some f →
    ∀ x ∈ e.subDirs, x ∈ f.subDirs → q = r
  root_no_parent : ∀ q e, fs.entries q = some e → fs.rootDir ∉ e.subDirs

/-- The directory lists an entry with this name. -/
def Lists (fs : FAT32) (dir : EntryPtr) (name : Str) : Prop :=
  ∃ e, fs.entries dir = some e ∧ ∃ x ∈ e.subDirs, ∃ f, fs.entries x = some f ∧ f.name = name

/-- The search among entries returns one of them with the name, or null when none has it. -/
theorem findSubDirLoop_spec {list : List EntryPtr}
    (hlist : ∀ x ∈ list, ∃ f, fs.entries x = some f) :
    (∃ x ∈ list, ∃ f, fs.entries x = some f ∧ f.name = name ∧
      fs.findSubDirLoop name list = some (some x)) ∨
    ((∀ x ∈ list, ∀ f, fs.entries x = some f → f.name ≠ name) ∧
      fs.findSubDirLoop name list = some none) := by
  induction list with
  | nil => exact .inr ⟨fun x hx => absurd hx List.not_mem_nil, rfl⟩
  | cons q list ih =>
      obtain ⟨f, hf⟩ := hlist q List.mem_cons_self
      simp only [FAT32.findSubDirLoop, hf, Option.bind_eq_bind, Option.bind_some]
      by_cases hname : f.name = name
      · exact .inl ⟨q, List.mem_cons_self, f, hf, hname, if_pos hname⟩
      · rw [if_neg hname]
        rcases ih (fun x hx => hlist x (List.mem_cons_of_mem q hx)) with
          ⟨x, hx, g, hg, hgname, hloop⟩ | ⟨hnone, hloop⟩
        · exact .inl ⟨x, List.mem_cons_of_mem q hx, g, hg, hgname, hloop⟩
        · refine .inr ⟨fun x hx g hg => ?_, hloop⟩
          rcases List.mem_cons.1 hx with rfl | hx
          · exact (Option.some.inj (hf.symm.trans hg)) ▸ hname
          · exact hnone x hx g hg

namespace IsTree

/-- Looking up a name in a directory of the tree. -/
theorem findSubDir_spec (htree : fs.IsTree) (he : fs.entries dir = some e) (name : Str) :
    (∃ x ∈ e.subDirs, fs.findSubDir dir name = some (some x) ∧ fs.Lists dir name) ∨
    (fs.findSubDir dir name = some none ∧ ¬ fs.Lists dir name) := by
  simp only [FAT32.findSubDir, he, Option.bind_eq_bind, Option.bind_some]
  rcases fs.findSubDirLoop_spec (htree.subDir dir e he) with
    ⟨x, hx, f, hf, hname, hloop⟩ | ⟨hnone, hloop⟩
  · exact .inl ⟨x, hx, hloop, e, he, x, hx, f, hf, hname⟩
  · refine .inr ⟨hloop, ?_⟩
    rintro ⟨e', he', x, hx, f, hf, hname⟩
    obtain rfl := Option.some.inj (he.symm.trans he')
    exact hnone x hx f hf hname

theorem findSubDir_none_iff (htree : fs.IsTree) (he : fs.entries dir = some e) :
    fs.findSubDir dir name = some none ↔ ¬ fs.Lists dir name := by
  rcases htree.findSubDir_spec he name with ⟨x, -, hfound, hlists⟩ | ⟨hfound, hlists⟩
  · simp [hfound, hlists]
  · simp [hfound, hlists]

/-- Following names in the tree ends at an entry or at null. -/
theorem findEntryLoop_isSome (htree : fs.IsTree) (names : List Str) (he : fs.entries dir = some e) :
    ∃ found, fs.findEntryLoop dir names = some found := by
  induction names generalizing dir e with
  | nil => exact ⟨some dir, rfl⟩
  | cons name rest ih =>
      rw [FAT32.findEntryLoop]
      rcases htree.findSubDir_spec he name with ⟨x, hx, hfound, -⟩ | ⟨hfound, -⟩
      · obtain ⟨f, hf⟩ := htree.subDir dir e he x hx
        simp only [hfound, Option.bind_eq_bind, Option.bind_some]
        exact ih hf
      · exact ⟨none, by simp only [hfound, Option.bind_eq_bind, Option.bind_some]⟩

end IsTree

/-! ## Lookups in the parent -/

/-- When the names up to the last lead nowhere, the whole path leads nowhere. -/
theorem findEntryLoop_append_none {names : List Str} (name : Str)
    (h : fs.findEntryLoop dir names = some none) :
    fs.findEntryLoop dir (names ++ [name]) = some none := by
  induction names generalizing dir with
  | nil => simp [FAT32.findEntryLoop] at h
  | cons first rest ih =>
      rw [List.cons_append]
      simp only [FAT32.findEntryLoop] at h ⊢
      cases hfirst : fs.findSubDir dir first with
      | none => simp [hfirst] at h
      | some found =>
          cases found with
          | none => simp only [Option.bind_eq_bind, Option.bind_some]
          | some next =>
              simp only [hfirst, Option.bind_eq_bind, Option.bind_some] at h ⊢
              exact ih h

theorem findEntry_slash_eq (hrest : rest ≠ []) :
    fs.findEntry (slash :: rest) = fs.findEntryLoop fs.rootDir (parseFilePath (slash :: rest)) :=
  findEntry_eq (fun h => hrest (List.cons.inj h).2) (parseFilePath_slash_ne_nil rest)

theorem findEntry_root : fs.findEntry [slash] = some (some fs.rootDir) := if_pos rfl

/-- The path is looked up like its last name in the directory at the cut path. -/
def FindsInParent (fs : FAT32) (path : Str) : Prop :=
  (fs.findEntry (snipFilePath path) = some none ∧ fs.findEntry path = some none) ∨
  ∃ dir name, fs.findEntry (snipFilePath path) = some (some dir) ∧
    (parseFilePath path).getLast? = some name ∧ fs.findEntry path = fs.findSubDir dir name

/-- Below a directory other than the root the two lookups agree. -/
theorem findsInParent_below (htree : fs.IsTree) {d : Str} (hd : d ≠ []) (hname : slash ∉ name) :
    fs.FindsInParent (slash :: (d ++ slash :: name)) := by
  have hsnip : snipFilePath (slash :: (d ++ slash :: name)) = slash :: d :=
    snipFilePath_append (List.cons_ne_nil _ _) hname
  have hparse : parseFilePath (slash :: (d ++ slash :: name)) =
      parseFilePath (slash :: d) ++ [name] :=
    parseFilePath_append (parseFilePath_slash_ne_nil d) hname
  have hpath : fs.findEntry (slash :: (d ++ slash :: name)) =
      fs.findEntryLoop fs.rootDir (parseFilePath (slash :: d) ++ [name]) := by
    rw [findEntry_slash_eq (by simp), hparse]
  have hcut : fs.findEntry (slash :: d) = _ := findEntry_slash_eq hd
  obtain ⟨e, he⟩ := htree.root
  obtain ⟨found, hfound⟩ := htree.findEntryLoop_isSome (parseFilePath (slash :: d)) he
  rw [FindsInParent, hsnip, hparse, hpath, hcut]
  cases found with
  | none => exact .inl ⟨hfound, findEntryLoop_append_none name hfound⟩
  | some dir =>
      exact .inr ⟨dir, name, hfound, by simp, findEntryLoop_append fs.rootDir _ name hfound⟩

/-- In the root the two lookups agree. -/
theorem findsInParent_root (hrest : rest ≠ []) (hslash : slash ∉ rest) :
    fs.FindsInParent (slash :: rest) := by
  have hparse : parseFilePath (slash :: rest) = [] ++ [rest] :=
    parseFilePathLoop_of_notMem hslash []
  rw [FindsInParent, snipFilePath_root hslash, findEntry_slash_eq hrest, hparse]
  exact .inr ⟨fs.rootDir, rest, findEntry_root, by simp,
    findEntryLoop_append fs.rootDir [] rest rfl⟩

/-- Behind two slashes the whole path goes through the entry of the root with the empty name, while
its cut path is the root. -/
theorem findsInParent_doubleSlash (htree : fs.IsTree) (hname : slash ∉ name) :
    fs.FindsInParent (slash :: slash :: name) ↔ ¬ fs.Lists fs.rootDir name ∧
      ∀ q, fs.findSubDir fs.rootDir [] = some (some q) → ¬ fs.Lists q name := by
  have hsnip : snipFilePath (slash :: slash :: name) = [slash] :=
    snipFilePath_append (d := [slash]) (List.cons_ne_nil _ _) hname
  have hparse : parseFilePath (slash :: slash :: name) = [[]] ++ [name] :=
    parseFilePath_append (d := [slash]) (parseFilePath_slash_ne_nil []) hname
  have hiff : fs.FindsInParent (slash :: slash :: name) ↔
      fs.findEntryLoop fs.rootDir ([[]] ++ [name]) = fs.findSubDir fs.rootDir name := by
    rw [FindsInParent, hsnip, findEntry_root, findEntry_slash_eq (List.cons_ne_nil _ _), hparse]
    simp
  rw [hiff]
  obtain ⟨e, he⟩ := htree.root
  rcases htree.findSubDir_spec he [] with ⟨q, hq, hempty, -⟩ | ⟨hempty, -⟩
  · have hloop : fs.findEntryLoop fs.rootDir [[]] = some (some q) := by
      rw [FAT32.findEntryLoop, hempty]
      rfl
    rw [findEntryLoop_append fs.rootDir [[]] name hloop, hempty]
    obtain ⟨f, hf⟩ := htree.subDir _ e he q hq
    rcases htree.findSubDir_spec he name with ⟨x, hx, hroot, hlists⟩ | ⟨hroot, hlists⟩
    · -- an entry found in both would have two parents
      refine iff_of_false (fun heq => ?_) (fun h => h.1 hlists)
      rcases htree.findSubDir_spec hf name with ⟨y, hy, hfound, -⟩ | ⟨hfound, -⟩
      · rw [hfound, hroot, Option.some.injEq, Option.some.injEq] at heq
        subst heq
        have hsame := htree.parent_unique _ _ _ _ hf he y hy hx
        exact htree.root_no_parent _ e he (hsame ▸ hq)
      · rw [hfound, hroot] at heq
        cases heq
    · rw [hroot, htree.findSubDir_none_iff hf]
      exact ⟨fun h => ⟨hlists, fun r hr => by cases hr; exact h⟩, fun h => h.2 q rfl⟩
  · have hloop : fs.findEntryLoop fs.rootDir [[]] = some none := by
      rw [FAT32.findEntryLoop, hempty]
      rfl
    rw [findEntryLoop_append_none name hloop, hempty, eq_comm, htree.findSubDir_none_iff he]
    exact ⟨fun h => ⟨h, fun r hr => by cases hr⟩, fun h => h.1⟩

/-- The existence check and the parent lookup agree on all paths but those of a name behind two
slashes that the root, or its first entry with the empty name, lists. -/
theorem findEntry_parent_iff (htree : fs.IsTree) (hrest : rest ≠ []) :
    fs.FindsInParent (slash :: rest) ↔ ∀ name, rest = slash :: name → slash ∉ name →
      ¬ fs.Lists fs.rootDir name ∧
        ∀ q, fs.findSubDir fs.rootDir [] = some (some q) → ¬ fs.Lists q name := by
  by_cases hmem : slash ∈ rest
  · obtain ⟨d, name, rfl, hname⟩ := exists_lastSlash hmem
    cases d with
    | nil =>
        show fs.FindsInParent (slash :: slash :: name) ↔ _
        rw [findsInParent_doubleSlash htree hname]
        refine ⟨fun h name' heq _ => ?_, fun h => h name rfl hname⟩
        obtain rfl : name = name' := (List.cons.inj heq).2
        exact h
    | cons c d =>
        refine iff_of_true (findsInParent_below htree (List.cons_ne_nil _ _) hname) ?_
        intro name' heq hslash
        refine absurd ?_ hslash
        rw [← (List.cons.inj heq).2]
        exact List.mem_append_right _ List.mem_cons_self
  · refine iff_of_true (findsInParent_root hrest hmem) ?_
    rintro name rfl -
    exact absurd List.mem_cons_self hmem

theorem treeVolume_isTree : treeVolume.IsTree where
  root := ⟨rootEntry, rfl⟩
  subDir q e h x hx := by
    rcases treeVolume_entries h with ⟨-, rfl⟩ | ⟨-, rfl⟩ | ⟨-, rfl⟩
    · obtain rfl := List.mem_singleton.1 hx
      exact ⟨folderEntry, rfl⟩
    · obtain rfl := List.mem_singleton.1 hx
      exact ⟨fileEntry, rfl⟩
    · exact absurd hx List.not_mem_nil
  parent_unique q e r f h h' x hx hx' := by
    rcases treeVolume_entries h with ⟨rfl, rfl⟩ | ⟨rfl, rfl⟩ | ⟨-, rfl⟩ <;>
      rcases treeVolume_entries h' with ⟨rfl, rfl⟩ | ⟨rfl, rfl⟩ | ⟨-, rfl⟩ <;>
      simp_all [rootEntry, folderEntry, fileEntry]
  root_no_parent q e h := by
    rcases treeVolume_entries h with ⟨-, rfl⟩ | ⟨-, rfl⟩ | ⟨-, rfl⟩ <;>
      exact of_decide_eq_false rfl

/-- The path `/d/f` of a file in a directory. -/
theorem findEntry_parent_iff_file :
    treeVolume.FindsInParent [slash, 0x64, slash, 0x66] ↔
      ∀ name, [0x64, slash, 0x66] = slash :: name → slash ∉ name →
        ¬ treeVolume.Lists treeVolume.rootDir name ∧
          ∀ q, treeVolume.findSubDir treeVolume.rootDir [] = some (some q) →
            ¬ treeVolume.Lists q name :=
  findEntry_parent_iff treeVolume_isTree (List.cons_ne_nil _ _)

/-- The path `//d` is found nowhere, but the directory `d` is in the root, the directory at its cut
path. -/
theorem doubleSlash_not_found :
    ¬ ∀ (fs : FAT32) (rest : Str), fs.IsTree → rest ≠ [] → fs.FindsInParent (slash :: rest) := by
  intro hall
  have hboth := hall treeVolume [slash, 0x64] treeVolume_isTree (List.cons_ne_nil _ _)
  rw [findsInParent_doubleSlash treeVolume_isTree (by decide)] at hboth
  exact hboth.1 ⟨rootEntry, rfl, 1, List.mem_singleton_self 1, folderEntry, rfl, rfl⟩

end FAT32

end CrosKernel.Fs
