import CrosKernel.Lib.Run
import CrosKernel.Sched.OpenFiles

/-!
# Descriptors

What the descriptors of a process name over any sequence of `open`, `create_pipe`, `close` and
`fddup`. `History` records which context was stored last under each descriptor that is open, and
which descriptors `storeFileContext(f)` handed out although they were open. The number of open
descriptors is the next one handed out: `descriptors_kept` says that all is well as long as this
number itself is not open.
-/

namespace CrosKernel.Sched

open Containers BinarySearchTree Lib

/-- The contexts stored last under the open descriptors, and the descriptors handed out twice. -/
structure History where
  stored : Int → Option ContextAddr
  reused : List Int

namespace History

/-- `storeFileContext(f)` returned `fd` for the context `c`. -/
def store (h : History) (fd : Int) (c : ContextAddr) : History where
  stored := Function.update h.stored fd (some c)
  reused := if h.stored fd = none then h.reused else fd :: h.reused

/-- The record after a call. -/
def after (h : History) (a : FileTable.Addresses) : FileCall → FileTable.Returned → History
  | .open .., .descriptor fd => h.store fd a.context
  | .createPipe, .pipefd reader writer => (h.store reader a.context).store writer a.context'
  | .close fd, .status .ENONE => { h with stored := Function.update h.stored fd none }
  | .fddup oldfd newfd, .status .ENONE =>
      { h with stored := Function.update h.stored newfd (h.stored oldfd) }
  | _, _ => h

end History

/-- A call, with the record. Allocation returns some addresses that are not in use. -/
def FileStep (s : FileTable × History) (call : FileCall) (s' : FileTable × History) : Prop :=
  ∃ a r, s.1.perform a call = some (s'.1, r) ∧ s'.2 = s.2.after a call r

theorem FileStep.of_perform {t t' : FileTable} {a : FileTable.Addresses} {call : FileCall}
    {r : FileTable.Returned} (h : History) (ht : t.perform a call = some (t', r)) :
    FileStep (t, h) call (t', h.after a call r) :=
  ⟨a, r, ht, rfl⟩

/-- The number of open descriptors, which the next `storeFileContext(f)` takes, is not an open
descriptor. A pipe takes the number after it, too. -/
def NextFree (t : FileTable) : FileCall → Prop
  | .open ramFS path => (∃ isFile, ramFS = some isFile ∧ isFile path = true) →
      t.files.contains t.files.size = some false
  | .createPipe => t.files.contains t.files.size = some false ∧
      t.files.contains (t.files.size + 1) = some false
  | _ => True

/-- Every open descriptor occurs once in the tree, and leads to the context stored last. -/
structure Descriptors (t : FileTable) (stored : Int → Option ContextAddr) : Prop where
  once : ∃ pairs, t.files.traverse t.files.fuel t.files.root = some pairs ∧
    (pairs.map Prod.fst).Nodup ∧ ∀ fd, fd ∈ pairs.map Prod.fst ↔ stored fd ≠ none
  recent : ∀ fd, t.getFileContext fd = some (stored fd)

/-- The entries of the tree are the stored contexts, each descriptor in one entry. -/
def Names (stored : Int → Option ContextAddr) (F : List (Entry Int ContextAddr)) : Prop :=
  (F.map Entry.key).Nodup ∧ ∀ fd c, stored fd = some c ↔ ∃ e ∈ F, e.key = fd ∧ e.value = c

/-- A tree with the stored contexts. -/
def Keeps (t : FileTable) (stored : Int → Option ContextAddr) : Prop :=
  ∃ F, Holds t.files F ∧ Names stored F

variable {t t' : FileTable} {stored : Int → Option ContextAddr} {fd : Int} {c : ContextAddr}
  {F F' : List (Entry Int ContextAddr)} {n : Addr}

theorem Names.ne_none_iff (h : Names stored F) (fd : Int) :
    stored fd ≠ none ↔ ∃ e ∈ F, e.key = fd := by
  rw [Option.ne_none_iff_exists']
  constructor
  · rintro ⟨c, hc⟩
    obtain ⟨e, he, hkey, -⟩ := (h.2 fd c).1 hc
    exact ⟨e, he, hkey⟩
  · rintro ⟨e, he, hkey⟩
    exact ⟨e.value, (h.2 fd e.value).2 ⟨e, he, hkey, rfl⟩⟩

/-- A descriptor without an entry is not open. -/
theorem Names.eq_none (h : Names stored F) (habsent : ∀ e ∈ F, e.key ≠ fd) : stored fd = none := by
  by_contra hne
  obtain ⟨e, he, hkey⟩ := (h.ne_none_iff fd).1 hne
  exact habsent e he hkey

theorem Names.eq_some {e : Entry Int ContextAddr} (h : Names stored F) (he : e ∈ F) :
    stored e.key = some e.value := (h.2 _ _).2 ⟨e, he, rfl, rfl⟩

/-- A context under a descriptor that was not open. -/
theorem Names.insert (h : Names stored F) (hins : Inserts ⟨n, fd, c⟩ F F')
    (hfd : ∀ e ∈ F, e.key ≠ fd) : Names (Function.update stored fd (some c)) F' := by
  obtain ⟨A, B, rfl, rfl, -⟩ := hins
  have hperm : (A ++ ⟨n, fd, c⟩ :: B).Perm (⟨n, fd, c⟩ :: (A ++ B)) := List.perm_middle
  refine ⟨?_, fun x d => ?_⟩
  · refine (hperm.map Entry.key).nodup_iff.2 (List.nodup_cons.2 ⟨fun hmem => ?_, h.1⟩)
    obtain ⟨e, he, heq⟩ := List.mem_map.1 hmem
    exact hfd e he heq
  · simp only [hperm.mem_iff, List.mem_cons, exists_eq_or_imp]
    by_cases hx : x = fd
    · subst hx
      rw [Function.update_self]
      constructor
      · rintro ⟨⟩
        exact .inl ⟨rfl, rfl⟩
      · rintro (⟨-, rfl⟩ | ⟨e, he, hkey, -⟩)
        exacts [rfl, absurd hkey (hfd e he)]
    · rw [Function.update_of_ne hx, h.2 x d]
      constructor
      · exact .inr
      · rintro (⟨heq, -⟩ | hmem)
        exacts [absurd heq.symm hx, hmem]

/-- A descriptor that is closed. -/
theorem Names.remove {A B : List (Entry Int ContextAddr)} {e : Entry Int ContextAddr}
    (h : Names stored (A ++ e :: B))
    (hpairs : F'.map Entry.pair = A.map Entry.pair ++ B.map Entry.pair) :
    Names (Function.update stored e.key none) F' := by
  rw [← List.map_append] at hpairs
  have hkeys : F'.map Entry.key = (A ++ B).map Entry.key := by
    have hfst := congrArg (List.map Prod.fst) hpairs
    simpa only [List.map_map, Function.comp_def, Entry.pair] using hfst
  have hperm : (A ++ e :: B).Perm (e :: (A ++ B)) := List.perm_middle
  obtain ⟨hout, hnodup⟩ := List.nodup_cons.1 ((hperm.map Entry.key).nodup_iff.1 h.1)
  have hmem : ∀ x d, (∃ y ∈ F', y.key = x ∧ y.value = d) ↔
      ∃ y ∈ A ++ B, y.key = x ∧ y.value = d := by
    intro x d
    have hpair : (x, d) ∈ F'.map Entry.pair ↔ (x, d) ∈ (A ++ B).map Entry.pair := by rw [hpairs]
    simpa only [List.mem_map, Entry.pair, Prod.mk.injEq] using hpair
  refine ⟨hkeys ▸ hnodup, fun x d => ?_⟩
  rw [hmem]
  by_cases hx : x = e.key
  · subst hx
    rw [Function.update_self]
    constructor
    · rintro ⟨⟩
    · rintro ⟨y, hy, hkey, -⟩
      exact absurd (hkey ▸ List.mem_map_of_mem hy) hout
  · rw [Function.update_of_ne hx, h.2 x d]
    simp only [hperm.mem_iff, List.mem_cons, exists_eq_or_imp]
    constructor
    · rintro (⟨heq, -⟩ | hmem)
      exacts [absurd heq.symm hx, hmem]
    · exact .inr

theorem Keeps.descriptors (h : Keeps t stored) : Descriptors t stored := by
  obtain ⟨F, hF, hnames⟩ := h
  refine ⟨⟨_, hF.traverse, ?_, fun fd => ?_⟩, fun fd => ?_⟩
  · simpa only [List.map_map, Function.comp_def, Entry.pair] using hnames.1
  · rw [hnames.ne_none_iff]
    simp [Entry.pair]
  · rcases FileTable.getFileContext_spec hF fd with ⟨hget, habsent⟩ | ⟨e, he, rfl, hget⟩
    · rw [hget, hnames.eq_none habsent]
    · rw [hget, hnames.eq_some he]

/-! ## Calls -/

theorem Keeps.addFile (h : Keeps t stored) (hfd : stored fd = none)
    (ht : t.addFile fd c n = some t') : Keeps t' (Function.update stored fd (some c)) := by
  obtain ⟨F, hF, hnames⟩ := h
  obtain ⟨F', m, hF', hins, -⟩ := FileTable.addFile_spec hF ht
  refine ⟨F', hF', hnames.insert hins fun e he hkey => ?_⟩
  exact (hnames.ne_none_iff fd).2 ⟨e, he, hkey⟩ hfd

theorem Keeps.eq_none_of_not_contains (h : Keeps t stored)
    (hfd : t.files.contains fd = some false) : stored fd = none := by
  obtain ⟨F, hF, hnames⟩ := h
  obtain ⟨b, hb, hiff⟩ := hF.contains fd
  obtain rfl := Option.some.inj (hb.symm.trans hfd)
  by_contra hne
  cases hiff.2 ((hnames.ne_none_iff fd).1 hne)

/-- Storing under the next number, when it is free. -/
theorem Keeps.storeFileContext (h : Keeps t stored)
    (hnext : t.files.contains t.files.size = some false)
    (ht : t.storeFileContext c n = some (t', fd)) :
    stored fd = none ∧ Keeps t' (Function.update stored fd (some c)) := by
  obtain ⟨rfl, hadd⟩ := FileTable.storeFileContext_spec ht
  have hnone := h.eq_none_of_not_contains hnext
  exact ⟨hnone, h.addFile hnone hadd⟩

theorem Keeps.closeFileContext {status : Error} (h : Keeps t stored)
    (ht : t.closeFileContext fd = some (t', status)) :
    (status = .ENOFILE ∧ t' = t ∧ stored fd = none) ∨
      (status = .ENONE ∧ Keeps t' (Function.update stored fd none)) := by
  obtain ⟨F, hF, hnames⟩ := h
  rcases FileTable.closeFileContext_spec hF ht with ⟨hstatus, ht', habsent⟩ |
    ⟨A, e, B, F', m, hstatus, rfl, rfl, hF', hpairs, -⟩
  · exact .inl ⟨hstatus, ht', hnames.eq_none habsent⟩
  · exact .inr ⟨hstatus, F', hF', hnames.remove hpairs⟩

theorem Keeps.open {a : FileTable.Addresses} {ramFS : Option (List UInt8 → Bool)}
    {path : List UInt8} {r : FileTable.Returned} {h : History} (hk : Keeps t h.stored)
    (hsafe : NextFree t (.open ramFS path)) (ht : t.syscallOpen a ramFS path = some (t', r)) :
    Keeps t' (h.after a (.open ramFS path) r).stored ∧
      (h.after a (.open ramFS path) r).reused = h.reused := by
  cases ramFS with
  | none =>
      cases ht
      exact ⟨hk, rfl⟩
  | some isFile =>
      by_cases hfile : isFile path = true
      · simp only [FileTable.syscallOpen, hfile, Bool.not_true, Bool.false_eq_true, if_false] at ht
        obtain ⟨heap, hheap, ht⟩ := Option.bind_eq_some_iff.1 ht
        obtain ⟨⟨t₁, fd⟩, hstore, ht⟩ := Option.bind_eq_some_iff.1 ht
        cases ht
        have hk' : Keeps { t with heap := heap } h.stored := hk
        obtain ⟨hnone, hkeeps⟩ := hk'.storeFileContext (hsafe ⟨isFile, rfl, hfile⟩) hstore
        exact ⟨hkeeps, by simp [History.after, History.store, hnone]⟩
      · simp only [FileTable.syscallOpen, hfile, Bool.not_false, if_true] at ht
        cases ht
        exact ⟨hk, rfl⟩

theorem Keeps.createPipe {a : FileTable.Addresses} {r : FileTable.Returned} {h : History}
    (hk : Keeps t h.stored) (hsafe : NextFree t .createPipe)
    (ht : t.syscallCreatePipe a = some (t', r)) :
    Keeps t' (h.after a .createPipe r).stored ∧ (h.after a .createPipe r).reused = h.reused := by
  obtain ⟨heap₀, -, ht⟩ := Option.bind_eq_some_iff.1 ht
  obtain ⟨heap₁, -, ht⟩ := Option.bind_eq_some_iff.1 ht
  obtain ⟨heap, -, ht⟩ := Option.bind_eq_some_iff.1 ht
  obtain ⟨⟨t₁, reader⟩, hreader, ht⟩ := Option.bind_eq_some_iff.1 ht
  obtain ⟨⟨t₂, writer⟩, hwriter, ht⟩ := Option.bind_eq_some_iff.1 ht
  cases ht
  have hk' : Keeps { t with heap := heap } h.stored := hk
  obtain ⟨hfree, hfree'⟩ := hsafe
  obtain ⟨hnone, hkeeps⟩ := hk'.storeFileContext hfree hreader
  obtain ⟨rfl, hadd⟩ := FileTable.storeFileContext_spec hreader
  obtain ⟨rfl, hadd'⟩ := FileTable.storeFileContext_spec hwriter
  -- the second descriptor is the number after the first
  have hsize : t₁.files.size = t.files.size + 1 := by
    obtain ⟨F, hF, -⟩ := hk'
    obtain ⟨F', m, hF', ⟨A, B, rfl, rfl, -⟩, -⟩ := FileTable.addFile_spec hF hadd
    rw [hF'.size_eq, show t.files.size = _ from hF.size_eq]
    simp only [List.length_append, List.length_cons]
    omega
  have hnone' : h.stored (t.files.size + 1) = none := hk.eq_none_of_not_contains hfree'
  have hopen : Function.update h.stored t.files.size (some a.context) t₁.files.size = none := by
    rw [hsize, Function.update_of_ne (by omega), hnone']
  refine ⟨hkeeps.addFile hopen hadd', ?_⟩
  simp only [History.after, History.store, hopen, if_true]
  exact if_pos hnone

theorem Keeps.fddup {a : FileTable.Addresses} {oldfd newfd : Int} {r : FileTable.Returned}
    {h : History} (hk : Keeps t h.stored) (ht : t.syscallFddup a oldfd newfd = some (t', r)) :
    Keeps t' (h.after a (.fddup oldfd newfd) r).stored ∧
      (h.after a (.fddup oldfd newfd) r).reused = h.reused := by
  have hold := hk.descriptors.recent oldfd
  have hnew := hk.descriptors.recent newfd
  cases hstored : h.stored oldfd with
  | none =>
      simp only [FileTable.syscallFddup, hold, hstored, Option.bind_eq_bind, Option.bind_some] at ht
      cases ht
      exact ⟨hk, rfl⟩
  | some fc =>
      simp only [FileTable.syscallFddup, hold, hstored, hnew, Option.bind_eq_bind,
        Option.bind_some] at ht
      obtain ⟨⟨t₁, closed⟩, hclose, ht⟩ := Option.bind_eq_some_iff.1 ht
      -- after the first part the new descriptor is not open
      obtain ⟨rfl, hk₁⟩ : closed = .ENONE ∧ Keeps t₁ (Function.update h.stored newfd none) := by
        split at hclose
        case isTrue hnone =>
          cases hclose
          exact ⟨rfl, by rwa [← hnone, Function.update_eq_self]⟩
        case isFalse hsome =>
          rcases hk.closeFileContext hclose with ⟨-, -, hnone⟩ | hkeeps
          exacts [absurd hnone hsome, hkeeps]
      rw [if_neg (by simp)] at ht
      obtain ⟨⟨t₂, status⟩, hstore, ht⟩ := Option.bind_eq_some_iff.1 ht
      have hnone : Function.update h.stored newfd none newfd = none := Function.update_self ..
      obtain ⟨F, hF, hnames⟩ := id hk₁
      rcases FileTable.storeFileContextAt_spec hF hstore with ⟨-, -, hopen⟩ | ⟨rfl, hadd, -⟩
      · exact absurd hnone ((hnames.ne_none_iff newfd).2 hopen)
      · have hkeeps := hk₁.addFile hnone hadd
        rw [Function.update_idem] at hkeeps
        cases ht
        exact ⟨by rw [History.after, hstored]; exact hkeeps, rfl⟩

/-- Every call for whose new descriptors the next numbers are free keeps the descriptors. -/
theorem Keeps.step {call : FileCall} {h : History} {s' : FileTable × History}
    (hk : Keeps t h.stored) (hsafe : NextFree t call) (hstep : FileStep (t, h) call s') :
    Keeps s'.1 s'.2.stored ∧ s'.2.reused = h.reused := by
  obtain ⟨a, r, hperform, hafter⟩ := hstep
  rw [hafter]
  cases call with
  | «open» ramFS path => exact hk.open hsafe hperform
  | close fd =>
      obtain ⟨⟨t₁, status⟩, hclose, hr⟩ := Option.bind_eq_some_iff.1 hperform
      cases hr
      rcases hk.closeFileContext hclose with ⟨rfl, ht, -⟩ | ⟨rfl, hkeeps⟩
      · exact ⟨ht ▸ hk, rfl⟩
      · exact ⟨hkeeps, rfl⟩
  | fddup oldfd newfd => exact hk.fddup hperform
  | createPipe => exact hk.createPipe hsafe hperform

/-- In every run of calls that find the next numbers free, `storeFileContext(f)` never hands out an
open descriptor, every open descriptor occurs once, and it leads to the context stored last. -/
theorem descriptors_kept {s s' : FileTable × History} {calls : List FileCall}
    (hinit : Keeps s.1 s.2.stored) (hreused : s.2.reused = [])
    (h : Run (Guarded (fun s call => NextFree s.1 call) FileStep) s calls s') :
    Descriptors s'.1 s'.2.stored ∧ s'.2.reused = [] := by
  have hstep : ∀ (s : FileTable × History) (call : FileCall) (s' : FileTable × History),
      Keeps s.1 s.2.stored ∧ s.2.reused = [] →
      Guarded (fun s call => NextFree s.1 call) FileStep s call s' →
      Keeps s'.1 s'.2.stored ∧ s'.2.reused = [] := by
    rintro ⟨t, h⟩ call s' ⟨hk, hreused⟩ ⟨hsafe, hstep⟩
    obtain ⟨hk', hreused'⟩ := hk.step hsafe hstep
    exact ⟨hk', hreused'.trans hreused⟩
  obtain ⟨hk, hreused⟩ := h.invariant ⟨hinit, hreused⟩ hstep
  exact ⟨hk.descriptors, hreused⟩

/-- A process without descriptors. -/
private def newTable : FileTable × History := (⟨.empty, .empty⟩, ⟨fun _ => none, []⟩)

private theorem newTable_keeps : Keeps newTable.1 newTable.2.stored :=
  ⟨[], .empty, List.nodup_nil, fun fd c => by simp [newTable]⟩

/-- Addresses for the call number `i`. -/
private def addresses (i : Nat) : FileTable.Addresses := ⟨i, 2 * i, 2 * i + 1, 2 * i, 2 * i + 1⟩

/-- Open the one file there is. -/
private def openFile : FileCall := .open (some fun _ => true) [47]

theorem descriptors_kept_pipe :
    ∃ s', Run (Guarded (fun s call => NextFree s.1 call) FileStep) newTable
      [openFile, .createPipe, .close 0] s' ∧ Descriptors s'.1 s'.2.stored ∧ s'.2.reused = [] := by
  have hrun : Run (Guarded (fun s call => NextFree s.1 call) FileStep) newTable
      [openFile, .createPipe, .close 0] _ :=
    .cons ⟨fun _ => rfl, .of_perform (a := addresses 0) _ rfl⟩
      (.cons ⟨⟨rfl, rfl⟩, .of_perform (a := addresses 1) _ rfl⟩
        (.cons ⟨trivial, .of_perform (a := addresses 2) _ rfl⟩ (.nil _)))
  exact ⟨_, hrun, descriptors_kept newTable_keeps rfl hrun⟩

/-- With the descriptor 0 closed, opening a file hands out the descriptor 1, which is open. -/
theorem open_reuses_descriptor :
    ¬ ∀ calls s', Run FileStep newTable calls s' →
      Descriptors s'.1 s'.2.stored ∧ s'.2.reused = [] := by
  intro hall
  have hrun : Run FileStep newTable [openFile, openFile, .close 0, openFile] _ :=
    .cons (.of_perform (a := addresses 0) _ rfl) (.cons (.of_perform (a := addresses 1) _ rfl)
      (.cons (.of_perform (a := addresses 2) _ rfl)
        (.cons (.of_perform (a := addresses 3) _ rfl) (.nil _))))
  have hreused := (hall _ _ hrun).2
  exact absurd hreused (by decide)

end CrosKernel.Sched
