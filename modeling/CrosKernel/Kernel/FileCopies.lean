import CrosKernel.Kernel.FileKernel
import CrosKernel.Sched.Duplicates

/-!
# Copies of descriptors in the kernel

What `fddup` does in every state that the kernel reaches when no descriptor is handed out twice:
processes are added and cloned, with their descriptors, and call `open`, `close`, `fddup` and
`create_pipe` in any order. The temporary process that `Process::clone` leaves on the heap keeps its
references, so the counters count the descriptors of the table and a multiset of such references.
-/

namespace CrosKernel

open Containers BinarySearchTree Sched Lib FileTable

/-- A table in which every descriptor occurs once, with exact counters for the references `M` from
elsewhere. -/
def Kept (t : FileTable) (M : Multiset ContextAddr) : Prop :=
  t.References M ∧ ∃ stored, Keeps t stored

namespace Kept

variable {t t' : FileTable} {M : Multiset ContextAddr} {fd : Int} {c : ContextAddr} {n : Addr}

/-- A process without descriptors. -/
theorem empty {heap : FileHeap} {L : Finset ContextAddr} (hcounts : Counts heap.getRefCount M)
    (hP : heap.PipesCounted L) : Kept ⟨.empty, heap⟩ M := by
  have hnamed : (⟨.empty, heap⟩ : FileTable).named = [] := by
    rw [named, Holds.empty.pairs_eq]
    rfl
  refine ⟨⟨⟨[], .empty⟩, ?_, L, hP⟩, fun _ => none, [], .empty, List.nodup_nil, by simp⟩
  rw [hnamed, Multiset.coe_nil, zero_add]
  exact hcounts

theorem count_le_one (h : Kept t M) (fd : Int) : t.descriptors.count fd ≤ 1 := by
  obtain ⟨-, stored, F, hF, hnames⟩ := h
  refine List.nodup_iff_count_le_one.1 ?_ fd
  have hkeys : t.descriptors = F.map Entry.key := by
    simp [descriptors, hF.pairs_eq, Entry.pair, Function.comp_def]
  rw [hkeys]
  exact hnames.1

/-- `storeFileContext(f, fd)` of a living context. -/
theorem storeFileContextAt {status : Error} (h : Kept t M)
    (ht : t.storeFileContextAt c fd n = some (t', status)) : Kept t' M := by
  obtain ⟨href, stored, F, hF, hnames⟩ := h
  rcases storeFileContextAt_spec hF ht with ⟨-, rfl, -⟩ | ⟨-, hadd, habsent⟩
  · exact ⟨href, stored, F, hF, hnames⟩
  · have hkeeps : Keeps t stored := ⟨F, hF, hnames⟩
    exact ⟨href.addFile hadd, _, hkeeps.addFile (hnames.eq_none habsent) hadd⟩

/-- `storeFileContext(f, fd)` of a new context, under a descriptor that is not open. -/
theorem storeNew {heap : FileHeap} {kind : ContextKind} {status : Error} (h : Kept t M)
    (hheap : t.heap.newContext c kind = some heap) (halive : t.heap.PipeAlive kind)
    (hfd : fd ∉ t.descriptors)
    (ht : FileTable.storeFileContextAt { t with heap := heap } c fd n = some (t', status)) :
    Kept t' M ∧ t'.descriptors.Perm (fd :: t.descriptors) := by
  obtain ⟨href, stored, F, hF, hnames⟩ := h
  rcases storeFileContextAt_spec (t := { t with heap := heap }) hF ht with
    ⟨-, -, hopen⟩ | ⟨-, hadd, habsent⟩
  · exact absurd ((mem_descriptors hF).2 hopen) hfd
  · have hkeeps : Keeps { t with heap := heap } stored := ⟨F, hF, hnames⟩
    exact ⟨⟨href.addNew hheap halive hadd, _, hkeeps.addFile (hnames.eq_none habsent) hadd⟩,
      (pairs_addFile (t := { t with heap := heap }) hF hadd).map Prod.fst⟩

/-- The loop of the copy constructor. -/
theorem copyFiles {nodes : List Addr} (h : Kept t M)
    (ht : FileKernel.copyFiles t.files t.heap nodes = some t') : Kept t' (t.named + M) := by
  obtain ⟨F, hF⟩ := h.1.holds
  obtain ⟨L, hP⟩ := h.1.pipes
  rw [FileKernel.copyFiles, hF.forKeys] at ht
  obtain ⟨⟨t₁, rest⟩, hloop, heq⟩ := Option.bind_eq_some_iff.1 ht
  cases heq
  refine foldlM_invariant (motive := fun _ s => Kept s.1 (t.named + M)) hloop
    (empty h.1.counts hP) ?_
  rintro e _ ⟨s, _ | ⟨n, nodes⟩⟩ s' hs hbody
  · cases hbody
  · obtain ⟨c, -, hbody⟩ := Option.bind_eq_some_iff.1 hbody
    obtain ⟨⟨s₁, status⟩, hstore, heq⟩ := Option.bind_eq_some_iff.1 hbody
    cases heq
    exact hs.storeFileContextAt hstore

/-- The loop of `Process::clone`. -/
theorem cloneFiles {new : List (ContextAddr × Addr)} (h : Kept t M)
    (ht : FileKernel.cloneFiles t.files t.heap new = some t') : Kept t' (t.named + M) := by
  obtain ⟨href, stored, F, hF, hnames⟩ := h
  obtain ⟨L, hP⟩ := href.pipes
  rw [FileKernel.cloneFiles, hF.forKeys] at ht
  obtain ⟨⟨t₁, rest⟩, hloop, heq⟩ := Option.bind_eq_some_iff.1 ht
  cases heq
  -- the keys that are left are distinct, and not yet open in the clone
  refine (foldlM_invariant (motive := fun B s => Kept s.1 (t.named + M) ∧
    (B.map Entry.key).Nodup ∧ ∀ e ∈ B, e.key ∉ s.1.descriptors) hloop ?_ ?_).1
  · have hnone : (⟨.empty, t.heap⟩ : FileTable).descriptors = [] := by
      rw [descriptors, Holds.empty.pairs_eq]
      rfl
    exact ⟨empty href.counts hP, hnames.1, fun e _ => by simp [hnone]⟩
  rintro e B ⟨s, _ | ⟨⟨c', n⟩, new⟩⟩ s' ⟨hs, hnodup, hleft⟩ hbody
  · cases hbody
  · obtain ⟨c, -, hbody⟩ := Option.bind_eq_some_iff.1 hbody
    obtain ⟨heap, hcopy, hbody⟩ := Option.bind_eq_some_iff.1 hbody
    obtain ⟨⟨s₁, status⟩, hstore, heq⟩ := Option.bind_eq_some_iff.1 hbody
    cases heq
    obtain ⟨x, hx, hnew⟩ := Option.bind_eq_some_iff.1 hcopy
    obtain ⟨L, hP⟩ := hs.1.pipes
    obtain ⟨hs₁, hkeys⟩ := hs.storeNew hnew (hP.alive c x hx) (hleft e List.mem_cons_self) hstore
    rw [List.map_cons, List.nodup_cons] at hnodup
    refine ⟨hs₁, hnodup.2, fun e' he' hmem => ?_⟩
    rcases List.mem_cons.1 (hkeys.mem_iff.1 hmem) with hkey | hmem
    · exact hnodup.1 (hkey ▸ List.mem_map_of_mem he')
    · exact hleft e' (List.mem_cons_of_mem e he') hmem

/-- The calls of the process itself. -/
theorem perform {a : Addresses} {call : FileCall} {r : Returned} (h : Kept t M)
    (hnext : NextFree t call) (ht : t.perform a call = some (t', r)) : Kept t' M := by
  obtain ⟨href, stored, hkeeps⟩ := h
  obtain ⟨hkeeps', -⟩ :=
    Keeps.step (h := ⟨stored, []⟩) hkeeps hnext (FileStep.of_perform ⟨stored, []⟩ ht)
  exact ⟨href.perform ht, _, hkeeps'⟩

end Kept

namespace FileKernel

variable {k k' : FileKernel} {E : List (Entry Pid ProcessFiles)} {H : Multiset ContextAddr}

/-- The counters count the descriptors of all processes and the references `H` of the temporary
ones, and every descriptor of a process occurs once. -/
structure Shared (k : FileKernel) (E : List (Entry Pid ProcessFiles)) (H : Multiset ContextAddr) :
    Prop where
  table : Holds k.processTable E
  files : ∀ e ∈ E, ∃ stored, Keeps ⟨e.value.files, k.heap⟩ stored
  counts : Counts k.heap.getRefCount (namedBy E + H)
  pipes : ∃ L, k.heap.PipesCounted L

theorem init_shared : Shared init [] 0 where
  table := .empty
  files _ h := nomatch h
  counts := .empty
  pipes := ⟨∅, FileHeap.empty_pipesCounted⟩

/-- The descriptors of one process, the other references being counted as well. -/
theorem Shared.kept {p : Addr} {t : FileTable} (h : Shared k E H) (ht : k.fileTable p = some t) :
    ∃ A e B, E = A ++ e :: B ∧ e.id = p ∧ e.value.named = t.named ∧
      Kept t (namedBy (A ++ B) + H) := by
  obtain ⟨n, hn, rfl⟩ := Option.map_eq_some_iff.1 ht
  obtain ⟨A, B, rfl⟩ := List.append_of_mem (h.table.mem_of_nodes hn)
  obtain ⟨stored, F, hF, hnames⟩ := h.files ⟨p, n.key, n.value⟩ (by simp)
  have hcounts := h.counts
  rw [namedBy_append_cons, add_assoc] at hcounts
  exact ⟨A, _, B, rfl, rfl, rfl, ⟨⟨F, hF⟩, hcounts, h.pipes⟩, stored, F, hF, hnames⟩

/-- Other descriptors of one process. -/
theorem Shared.setFileTable {t : FileTable} {A B : List (Entry Pid ProcessFiles)}
    {e : Entry Pid ProcessFiles} (h : Shared k (A ++ e :: B) H)
    (ht : Kept t (namedBy (A ++ B) + H)) (hk : k.setFileTable e.id t = some k') :
    ∃ E', Shared k' E' H := by
  obtain ⟨e', htable, hfiles, hheap⟩ := setFileTable_spec h.table hk
  refine ⟨_, htable, ?_, ?_, hheap ▸ ht.1.pipes⟩
  · refine forall_files_of_eq (P := fun files => ∃ stored, Keeps ⟨files, k'.heap⟩ stored) h.files ?_
    rw [hfiles]
    exact ht.2
  · have hnamed : e'.value.named = t.named := by
      rw [ProcessFiles.named, FileTable.named, hfiles]
    rw [namedBy_append_cons, hnamed, hheap, add_assoc]
    exact ht.1.counts

/-- A process is added, and the object it is copied from keeps its references. -/
theorem exists_shared_addProcess {b : Addr} {nodes : List Addr} {p : ProcessFiles}
    (htable : Holds k.processTable E)
    (hfiles : ∀ e ∈ E, ∃ stored, Keeps ⟨e.value.files, k.heap⟩ stored)
    (hp : Kept ⟨p.files, k.heap⟩ (namedBy E + H)) (hk : k.addProcess b nodes p = some k') :
    ∃ E' H', Shared k' E' H' := by
  unfold FileKernel.addProcess at hk
  split at hk
  case isTrue => cases hk
  case isFalse hfresh =>
    obtain ⟨copy, hcopy, hk⟩ := Option.bind_eq_some_iff.1 hk
    obtain ⟨table, hinsert, heq⟩ := Option.bind_eq_some_iff.1 hk
    cases heq
    obtain ⟨hcounted, hcopied⟩ := hp.copyFiles (t := ⟨p.files, k.heap⟩) hcopy
    obtain ⟨table', E', hinsert', hE', A, B, rfl, rfl, -⟩ :=
      htable.insert ⟨b, p.pid, { p with files := copy.files }⟩ (by simpa using hfresh)
    obtain rfl := Option.some.inj (hinsert'.symm.trans hinsert)
    refine ⟨_, FileTable.named ⟨p.files, k.heap⟩ + H, hE', fun e he => ?_, ?_, hcounted.pipes⟩
    · rcases List.mem_append.1 he with he | he
      · exact hfiles e (by simp [he])
      · rcases List.mem_cons.1 he with rfl | he
        · exact hcopied
        · exact hfiles e (by simp [he])
    · rw [namedBy_append_cons, add_assoc, add_left_comm (namedBy (A ++ B))]
      exact hcounted.counts

/-- No call is handed out a descriptor that is open. -/
def HandsOutFree (k : FileKernel) (e : FileEvent) : Prop :=
  match e with
  | .call p call => ∀ t, k.fileTable p = some t → NextFree t call
  | _ => True

/-- Every event in which no open descriptor is handed out keeps the account. -/
theorem Shared.step {e : FileEvent} (h : Shared k E H) (hfree : HandsOutFree k e)
    (hstep : Step k e k') : ∃ E' H', Shared k' E' H' := by
  cases e with
  | addProcess pid =>
      obtain ⟨b, nodes, hk⟩ := hstep
      obtain ⟨L, hP⟩ := h.pipes
      exact exists_shared_addProcess h.table h.files (.empty h.counts hP) hk
  | clone p =>
      obtain ⟨b, new, nodes, hk⟩ := hstep
      obtain ⟨t, newProcess, ht, hclone, hk⟩ := syscallClone_cases hk
      obtain ⟨A, e, B, rfl, -, hnamed, hkept⟩ := h.kept ht
      have hcloned := hkept.cloneFiles hclone
      rw [← add_assoc, ← hnamed, ← namedBy_append_cons] at hcloned
      exact exists_shared_addProcess (k := { k with
        currPid := (k.currPid + 1) % 2 ^ 32, heap := newProcess.heap }) h.table h.files hcloned hk
  | call p call =>
      obtain ⟨a, r, hk⟩ := hstep
      obtain ⟨t, t', ht, hperform, hset⟩ := syscall_cases hk
      obtain ⟨A, e, B, rfl, rfl, -, hkept⟩ := h.kept ht
      obtain ⟨E', hE'⟩ := h.setFileTable (hkept.perform (hfree t ht) hperform) hset
      exact ⟨E', H, hE'⟩

/-- In every run in which no open descriptor is handed out, `fddup` of any two descriptors of any
process does what it is for, unless it copies a descriptor with the only reference to its context
onto itself. -/
theorem fddup_meets_iff {es : List FileEvent} {p : Addr} {t : FileTable} {a : Addresses}
    (h : Run (Guarded HandsOutFree Step) init es k) (ht : k.fileTable p = some t)
    (ha : t.Fresh a) (oldfd newfd : Int) :
    t.FddupMeets a oldfd newfd ↔
      ¬ (oldfd = newfd ∧ ∃ c, t.getFileContext oldfd = some (some c) ∧
        t.heap.getRefCount c = some 1) := by
  have hstep : ∀ k e k', (∃ E H, Shared k E H) → Guarded HandsOutFree Step k e k' →
      ∃ E H, Shared k' E H := by
    rintro k e k' ⟨E, H, hE⟩ ⟨hfree, hstep⟩
    exact hE.step hfree hstep
  obtain ⟨E, H, hE⟩ := h.invariant ⟨[], 0, init_shared⟩ hstep
  obtain ⟨A, e, B, -, -, -, hkept⟩ := hE.kept ht
  rw [hkept.1.fddupMeets_iff ha fun fd _ => hkept.count_le_one fd]
  constructor
  · rintro hmeets ⟨rfl, c, hc, hone⟩
    obtain ⟨F, hF⟩ := hkept.1.holds
    have hopen : oldfd ∈ t.descriptors := by
      by_contra hout
      rw [getFileContext_of_notMem hF hout] at hc
      cases hc
    have hpos : 0 < t.descriptors.count oldfd := List.count_pos_iff.2 hopen
    exact (hmeets hopen).2 rfl c hc hone (Nat.le_antisymm (hkept.count_le_one oldfd) hpos)
  · intro hshared _
    refine ⟨hkept.count_le_one newfd, ?_⟩
    rintro rfl c hc hone
    exact absurd ⟨rfl, c, hc, hone⟩ hshared

/-- Addresses for the call number `i`. -/
private def callAddresses (i : Nat) : Addresses := ⟨i, 2 * i, 2 * i + 1, 2 * i, 2 * i + 1⟩

/-- A process that opened the one file there is. -/
private def opened : List FileEvent :=
  [.addProcess 0, .call 0 (.open (some fun _ => true) [47])]

/-- The descriptor is copied to another one by a process that was cloned before. -/
theorem fddup_meets_iff_clone :
    ∃ k t, Run (Guarded HandsOutFree Step) init (opened ++ [.clone 0]) k ∧
      k.fileTable 0 = some t ∧ t.FddupMeets (callAddresses 1) 0 1 := by
  have hrun : Run (Guarded HandsOutFree Step) init (opened ++ [.clone 0]) _ :=
    .cons ⟨trivial, 0, [], rfl⟩ (.cons ⟨fun t ht _ => by cases ht; rfl, callAddresses 0, _, rfl⟩
      (.cons ⟨trivial, 1, [(1, 0)], [0], rfl⟩ (.nil _)))
  refine ⟨_, _, hrun, rfl,
    (fddup_meets_iff (p := 0) hrun rfl ?_ 0 1).2 fun h => absurd h.1 (by decide)⟩
  exact ⟨rfl, rfl, rfl, by decide, rfl, rfl, by decide⟩

/-- A descriptor that is copied onto itself is closed first, and its context freed. -/
theorem fddup_stores_freed :
    ¬ ∀ es k p t a oldfd newfd, Run Step init es k → k.fileTable p = some t → t.Fresh a →
      t.FddupMeets a oldfd newfd := by
  intro hall
  have hrun : Run Step init opened _ :=
    .cons ⟨0, [], rfl⟩ (.cons ⟨callAddresses 0, _, rfl⟩ (.nil _))
  obtain ⟨t', status, hcall, -⟩ := hall _ _ 0 _ (callAddresses 1) 0 0 hrun rfl
    ⟨rfl, rfl, rfl, by decide, rfl, rfl, by decide⟩
  cases hcall

end FileKernel

end CrosKernel
