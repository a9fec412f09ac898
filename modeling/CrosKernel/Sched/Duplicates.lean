import CrosKernel.Sched.Descriptors
import CrosKernel.Sched.FileReferences

/-!
# Copies of a descriptor

What `fddup` does to the descriptors of a process whose counters are exact. `FddupMeets` is what the
call is for; `fddup_cases` takes the call apart into closing the new descriptor and storing the
context of the old one under it.
-/

namespace CrosKernel.Sched.FileTable

open Containers BinarySearchTree Lib

/-- The descriptors in the order of the tree, one for each entry. -/
def descriptors (t : FileTable) : List Int := t.files.pairs.map Prod.fst

/-- When `fddup` succeeds, both descriptors lead to the living context of the old one and all others
lead to where they did. When it reports an error, it has not changed the descriptors. -/
def FddupMeets (t : FileTable) (a : Addresses) (oldfd newfd : Int) : Prop :=
  ∃ t' status, t.syscallFddup a oldfd newfd = some (t', .status status) ∧
    (status = .ENONE →
      (∃ c, t.getFileContext oldfd = some (some c) ∧ t'.getFileContext oldfd = some (some c) ∧
        t'.getFileContext newfd = some (some c) ∧ t'.heap.contexts c ≠ none) ∧
      ∀ fd, fd ≠ newfd → t'.getFileContext fd = t.getFileContext fd) ∧
    (status ≠ .ENONE → t'.files = t.files)

variable {t t' t₁ : FileTable} {M : Multiset ContextAddr} {F : List (Entry Int ContextAddr)}
  {fd oldfd newfd : Int} {c : ContextAddr} {n : Addr} {a : Addresses}

/-! ## Descriptors that occur once -/

/-- Of the entries of a list with one key there is at most one. -/
theorem eq_of_count_le_one {α β : Type*} [DecidableEq α] {L : List (α × β)} {k : α} {x y : β}
    (hcount : (L.map Prod.fst).count k ≤ 1) (hx : (k, x) ∈ L) (hy : (k, y) ∈ L) : x = y := by
  obtain ⟨A, B, rfl⟩ := List.append_of_mem hx
  have hperm : (A ++ (k, x) :: B).Perm ((k, x) :: (A ++ B)) := List.perm_middle
  rw [(hperm.map Prod.fst).count_eq, List.map_cons, List.count_cons_self] at hcount
  have hout : k ∉ (A ++ B).map Prod.fst := List.count_eq_zero.1 (by omega)
  rcases List.mem_cons.1 (hperm.mem_iff.1 hy) with heq | hmem
  · exact (congrArg Prod.snd heq).symm
  · exact absurd (List.mem_map_of_mem hmem) hout

theorem mem_descriptors (hF : Holds t.files F) : fd ∈ t.descriptors ↔ ∃ e ∈ F, e.key = fd := by
  simp [descriptors, hF.pairs_eq, Entry.pair]

theorem getFileContext_of_notMem (hF : Holds t.files F) (hfd : fd ∉ t.descriptors) :
    t.getFileContext fd = some none := by
  rcases getFileContext_spec hF fd with ⟨hget, -⟩ | ⟨e, he, hkey, -⟩
  · exact hget
  · exact absurd ((mem_descriptors hF).2 ⟨e, he, hkey⟩) hfd

/-- A descriptor that occurs once leads to the context it is stored with. -/
theorem getFileContext_of_mem (hF : Holds t.files F) (honce : t.descriptors.count fd ≤ 1)
    (hc : (fd, c) ∈ t.files.pairs) : t.getFileContext fd = some (some c) := by
  have hfd : fd ∈ t.descriptors := List.mem_map_of_mem hc
  rcases getFileContext_spec hF fd with ⟨-, habsent⟩ | ⟨e, he, rfl, hget⟩
  · obtain ⟨e, he, hkey⟩ := (mem_descriptors hF).1 hfd
    exact absurd hkey (habsent e he)
  · have hmem : (e.key, e.value) ∈ t.files.pairs := by
      rw [hF.pairs_eq]
      exact List.mem_map_of_mem (f := Entry.pair) he
    rw [hget, eq_of_count_le_one honce hmem hc]

/-- Where two tables have the same entries of a descriptor that occurs once, it leads to the same
context. -/
theorem getFileContext_congr (h : ∃ F, Holds t.files F) (h' : ∃ F, Holds t'.files F)
    (honce : t.descriptors.count fd ≤ 1) (honce' : t'.descriptors.count fd ≤ 1)
    (hpairs : ∀ c, (fd, c) ∈ t'.files.pairs ↔ (fd, c) ∈ t.files.pairs) :
    t'.getFileContext fd = t.getFileContext fd := by
  obtain ⟨F, hF⟩ := h
  obtain ⟨F', hF'⟩ := h'
  by_cases hfd : fd ∈ t.descriptors
  · obtain ⟨⟨x, c⟩, hc, rfl⟩ := List.mem_map.1 hfd
    rw [getFileContext_of_mem hF honce hc, getFileContext_of_mem hF' honce' ((hpairs c).2 hc)]
  · have hfd' : fd ∉ t'.descriptors := by
      intro hmem
      obtain ⟨⟨x, c⟩, hc, rfl⟩ := List.mem_map.1 hmem
      exact hfd (List.mem_map_of_mem ((hpairs c).1 hc))
    rw [getFileContext_of_notMem hF hfd, getFileContext_of_notMem hF' hfd']

/-! ## The two parts of the call -/

theorem pairs_addFile (hF : Holds t.files F) (ht : t.addFile fd c n = some t') :
    t'.files.pairs.Perm ((fd, c) :: t.files.pairs) := by
  obtain ⟨F', m, hF', ⟨A, B, rfl, rfl, -⟩, -⟩ := addFile_spec hF ht
  rw [hF'.pairs_eq, hF.pairs_eq]
  have hperm : (A ++ ⟨n, fd, c⟩ :: B).Perm (⟨n, fd, c⟩ :: (A ++ B)) := List.perm_middle
  exact hperm.map Entry.pair

/-- Closing an open descriptor takes the entry that `getFileContext` finds out of the tree. -/
theorem pairs_closeFileContext {status : Error} (hF : Holds t.files F)
    (hfd : t.getFileContext fd = some (some c)) (ht : t.closeFileContext fd = some (t', status)) :
    status = .ENONE ∧ t.files.pairs.Perm ((fd, c) :: t'.files.pairs) ∧
      (t.heap.getRefCount c = some 1 → t'.heap.contexts c = none) ∧
      ∀ n, t.files.nodes n = none → t'.files.nodes n = none := by
  rcases closeFileContext_spec hF ht with ⟨-, -, habsent⟩ |
    ⟨A, e, B, F', m, hstatus, rfl, rfl, hF', hpairs, hm, hcounts, hget, hnodes⟩
  · rcases getFileContext_spec hF fd with ⟨hget, -⟩ | ⟨e, he, hkey, -⟩
    · rw [hfd] at hget
      cases hget
    · exact absurd hkey (habsent e he)
  · have hvalue : e.value = c := by
      obtain ⟨b, hb, hfound⟩ := Option.bind_eq_some_iff.1 hfd
      cases b with
      | false => cases hfound
      | true => simpa [hget] using hfound
    subst hvalue
    refine ⟨hstatus, ?_, fun hone => ?_, hnodes⟩
    · rw [hF.pairs_eq, hF'.pairs_eq, hpairs, ← List.map_append]
      have hperm : (A ++ e :: B).Perm (e :: (A ++ B)) := List.perm_middle
      exact hperm.map Entry.pair
    · obtain rfl := Option.some.inj (hone.symm.trans hm)
      have hfreed := congrFun hcounts e.value
      rw [Function.update_self] at hfreed
      exact Option.map_eq_none_iff.1 hfreed

/-- `fddup` of an open descriptor closes the new one, if it is open, and then stores the context
under it, unless it is still there. -/
theorem fddup_cases (newfd : Int) (a : Addresses) (h : References t M)
    (hold : t.getFileContext oldfd = some (some c)) :
    ∃ t₁, (∃ F, Holds t₁.files F) ∧
      (t₁ = t ∧ newfd ∉ t.descriptors ∨
        ∃ c', t.getFileContext newfd = some (some c') ∧
          t.closeFileContext newfd = some (t₁, .ENONE)) ∧
      t.syscallFddup a oldfd newfd =
        if newfd ∈ t₁.descriptors then some (t₁, .status .EUNKNOWN)
        else (t₁.addFile newfd c a.node).map fun t' => (t', .status .ENONE) := by
  have hstore : ∀ {t₁ : FileTable} {F₁ : List (Entry Int ContextAddr)}, Holds t₁.files F₁ →
      t₁.storeFileContextAt c newfd a.node =
        if newfd ∈ t₁.descriptors then some (t₁, .EEXISTS)
        else (t₁.addFile newfd c a.node).map fun t' => (t', .ENONE) := by
    intro t₁ F₁ hF₁
    obtain ⟨b, hb, hiff⟩ := hF₁.contains newfd
    rw [← mem_descriptors hF₁] at hiff
    cases b with
    | true => simp [storeFileContextAt, hb, hiff.1 rfl]
    | false =>
        have hout : newfd ∉ t₁.descriptors := fun hmem => by cases hiff.2 hmem
        simp [storeFileContextAt, hb, hout, Option.map_eq_bind]
  obtain ⟨F, hF⟩ := h.holds
  rcases getFileContext_spec hF newfd with ⟨hnew, habsent⟩ | ⟨e, -, -, hnew⟩
  · have hout : newfd ∉ t.descriptors := fun hmem => by
      obtain ⟨e, he, hkey⟩ := (mem_descriptors hF).1 hmem
      exact habsent e he hkey
    refine ⟨t, ⟨F, hF⟩, .inl ⟨rfl, hout⟩, ?_⟩
    cases hadd : t.addFile newfd c a.node <;>
      simp [syscallFddup, hold, hnew, hstore hF, hout, hadd]
  · obtain ⟨⟨t₁, closed⟩, hclose⟩ := Option.ne_none_iff_exists'.1 (h.closeFileContext_ne_none newfd)
    obtain ⟨rfl, -⟩ := pairs_closeFileContext hF hnew hclose
    obtain ⟨F₁, hF₁⟩ := (h.closeFileContext hclose).holds
    refine ⟨t₁, ⟨F₁, hF₁⟩, .inr ⟨_, hnew, hclose⟩, ?_⟩
    by_cases hmem : newfd ∈ t₁.descriptors
    · simp [syscallFddup, hold, hnew, hclose, hstore hF₁, hmem]
    · cases hadd : t₁.addFile newfd c a.node <;>
        simp [syscallFddup, hold, hnew, hclose, hstore hF₁, hmem, hadd]

/-- No descriptor but `newfd` occurs twice. -/
def OthersOnce (t : FileTable) (newfd : Int) : Prop :=
  ∀ fd, fd ≠ newfd → t.descriptors.count fd ≤ 1

theorem exists_getFileContext (hF : Holds t.files F) (hfd : fd ∈ t.descriptors) :
    ∃ c, t.getFileContext fd = some (some c) := by
  rcases getFileContext_spec hF fd with ⟨-, habsent⟩ | ⟨e, -, -, hget⟩
  · obtain ⟨e, he, hkey⟩ := (mem_descriptors hF).1 hfd
    exact absurd hkey (habsent e he)
  · exact ⟨e.value, hget⟩

/-- A second entry of the new descriptor stays in the tree, so the call reports an error after it
has closed the first one. -/
theorem References.count_le_one_of_fddupMeets (h : References t M)
    (hold : t.getFileContext oldfd = some (some c)) (hmeets : FddupMeets t a oldfd newfd) :
    t.descriptors.count newfd ≤ 1 := by
  obtain ⟨F, hF⟩ := h.holds
  obtain ⟨t', status, ht', -, herror⟩ := hmeets
  obtain ⟨t₁, -, hclose, hcall⟩ := fddup_cases newfd a h hold
  rcases hclose with ⟨-, hout⟩ | ⟨c', hnew, hclose⟩
  · rw [List.count_eq_zero.2 hout]
    exact Nat.zero_le 1
  obtain ⟨-, hperm, -⟩ := pairs_closeFileContext hF hnew hclose
  by_contra htwice
  have hcount := (hperm.map Prod.fst).count_eq newfd
  rw [List.map_cons, List.count_cons_self] at hcount
  have hmem : newfd ∈ t₁.descriptors := List.count_pos_iff.1 (by
    show 0 < (t₁.files.pairs.map Prod.fst).count newfd
    rw [descriptors, hcount] at htwice
    omega)
  rw [hcall, if_pos hmem] at ht'
  cases ht'
  have hlength := hperm.length_eq
  rw [herror (by decide), List.length_cons] at hlength
  omega

theorem addFile_eq_none (hc : t.heap.contexts c = none) : t.addFile fd c n = none := by
  unfold addFile
  split
  case isTrue => rfl
  case isFalse =>
    refine Option.bind_eq_none_iff.2 fun files _ => ?_
    simp [FileHeap.addReference, FileHeap.modify, hc]

/-- Closing the only reference to a context frees it before it is stored again. -/
theorem References.keepsOpen_of_fddupMeets (h : References t M)
    (hmeets : FddupMeets t a oldfd newfd) : t.KeepsOpen (.fddup oldfd newfd) := by
  rintro rfl c hold hone hcount
  obtain ⟨F, hF⟩ := h.holds
  obtain ⟨t', status, ht', -, -⟩ := hmeets
  obtain ⟨t₁, -, hclose, hcall⟩ := fddup_cases oldfd a h hold
  rcases hclose with ⟨-, hout⟩ | ⟨c', hnew, hclose⟩
  · have hzero : t.descriptors.count oldfd = 0 := List.count_eq_zero.2 hout
    rw [descriptors, hcount] at hzero
    cases hzero
  obtain rfl : c' = c := by simpa [hold, eq_comm] using hnew
  obtain ⟨-, hperm, hfreed, -⟩ := pairs_closeFileContext hF hnew hclose
  have hout : oldfd ∉ t₁.descriptors := List.count_eq_zero.1 (by
    have hcount' := (hperm.map Prod.fst).count_eq oldfd
    rw [List.map_cons, List.count_cons_self, hcount] at hcount'
    show (t₁.files.pairs.map Prod.fst).count oldfd = 0
    omega)
  rw [hcall, if_neg hout, addFile_eq_none (hfreed hone)] at ht'
  cases ht'

/-- What the two parts of the call leave of the other descriptors. -/
theorem References.fddup_meets (h : References t M) (ha : Fresh t a) (honce : OthersOnce t newfd)
    (hold : t.getFileContext oldfd = some (some c)) (hcount : t.descriptors.count newfd ≤ 1)
    (hkeeps : t.KeepsOpen (.fddup oldfd newfd)) : FddupMeets t a oldfd newfd := by
  obtain ⟨F, hF⟩ := h.holds
  obtain ⟨⟨t', r⟩, ht'⟩ := Option.ne_none_iff_exists'.1 (h.fddup_ne_none ha hkeeps)
  obtain ⟨t₁, ⟨F₁, hF₁⟩, hclose, hcall⟩ := fddup_cases newfd a h hold
  -- after the first part the new descriptor is closed, and the others have their entries
  obtain ⟨hout, hothers⟩ : newfd ∉ t₁.descriptors ∧
      ∀ fd, fd ≠ newfd → t₁.descriptors.count fd = t.descriptors.count fd ∧
        ∀ c, (fd, c) ∈ t₁.files.pairs ↔ (fd, c) ∈ t.files.pairs := by
    rcases hclose with ⟨rfl, hout⟩ | ⟨c', hnew, hclose⟩
    · exact ⟨hout, fun fd _ => ⟨rfl, fun c => Iff.rfl⟩⟩
    · obtain ⟨-, hperm, -⟩ := pairs_closeFileContext hF hnew hclose
      have hkeys : t.descriptors.Perm (newfd :: t₁.descriptors) := hperm.map Prod.fst
      refine ⟨List.count_eq_zero.1 ?_, fun fd hne => ⟨?_, fun c => ?_⟩⟩
      · rw [hkeys.count_eq, List.count_cons_self] at hcount
        omega
      · rw [hkeys.count_eq, List.count_cons_of_ne hne.symm]
      · rw [hperm.mem_iff]
        simp [hne]
  rw [hcall, if_neg hout] at ht'
  obtain ⟨t₂, hadd, heq⟩ := Option.map_eq_some_iff.1 ht'
  cases heq
  have h' : References t' M := h.fddup (hcall.trans (by rw [if_neg hout, hadd]; rfl))
  obtain ⟨F', hF'⟩ := h'.holds
  have hperm := pairs_addFile hF₁ hadd
  have hkeys : t'.descriptors.Perm (newfd :: t₁.descriptors) := hperm.map Prod.fst
  have hnew : t'.getFileContext newfd = some (some c) := by
    refine getFileContext_of_mem hF' ?_ (hperm.mem_iff.2 List.mem_cons_self)
    rw [hkeys.count_eq, List.count_cons_self, List.count_eq_zero.2 hout]
  have hsame : ∀ fd, fd ≠ newfd → t'.getFileContext fd = t.getFileContext fd := by
    intro fd hne
    refine getFileContext_congr ⟨F, hF⟩ ⟨F', hF'⟩ (honce fd hne) ?_ fun c => ?_
    · rw [hkeys.count_eq, List.count_cons_of_ne hne.symm, (hothers fd hne).1]
      exact honce fd hne
    · rw [hperm.mem_iff, ← (hothers fd hne).2 c]
      simp [hne]
  refine ⟨t', .ENONE, by rw [hcall, if_neg hout, hadd]; rfl,
    fun _ => ⟨⟨c, hold, ?_, hnew, ?_⟩, hsame⟩, fun hne => absurd rfl hne⟩
  · by_cases heq : oldfd = newfd
    · rw [heq, hnew]
    · rw [hsame oldfd heq, hold]
  · exact h'.alive (.inl (List.mem_map_of_mem (f := Prod.snd) (hperm.mem_iff.2 List.mem_cons_self)))

/-- When the other descriptors occur once, `fddup` of an open descriptor does what it is for just if
the new descriptor does not occur twice either, and it is not the old one with the only reference to
its context. -/
theorem References.fddupMeets_iff (h : References t M) (ha : Fresh t a)
    (honce : OthersOnce t newfd) :
    FddupMeets t a oldfd newfd ↔
      (oldfd ∈ t.descriptors → t.descriptors.count newfd ≤ 1 ∧
        t.KeepsOpen (.fddup oldfd newfd)) := by
  obtain ⟨F, hF⟩ := h.holds
  by_cases hopen : oldfd ∈ t.descriptors
  case neg =>
    refine iff_of_true ⟨t, .ENOFILE, ?_, fun hstatus => absurd hstatus (by decide), fun _ => rfl⟩
      fun hmem => absurd hmem hopen
    simp [syscallFddup, getFileContext_of_notMem hF hopen]
  obtain ⟨c, hold⟩ := exists_getFileContext hF hopen
  rw [imp_iff_right hopen]
  constructor
  · intro hmeets
    exact ⟨h.count_le_one_of_fddupMeets hold hmeets, h.keepsOpen_of_fddupMeets hmeets⟩
  · rintro ⟨hcount, hkeeps⟩
    exact h.fddup_meets ha honce hold hcount hkeeps

end CrosKernel.Sched.FileTable
