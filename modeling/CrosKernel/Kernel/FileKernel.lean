import CrosKernel.Lib.Run
import CrosKernel.Sched.FileReferences
import CrosKernel.Sched.Process

/-!
# Descriptors in the kernel

The process table as far as descriptors go: `addProcess` and the system calls `clone`, `open`,
`close`, `fddup` and `create_pipe`, called by any process. The table stores processes by value, so
inserting a process copies it, and `Process::clone` builds the new process in a temporary object
that is never freed. `references_counted` says when the counter of every file context is the number
of descriptors that name it.
-/

namespace CrosKernel

open Containers BinarySearchTree Sched Lib FileTable

/-- A process as far as its descriptors go. -/
structure ProcessFiles where
  pid : Pid
  files : BinarySearchTree Int ContextAddr

/-- The contexts that the descriptors of a process name. -/
def ProcessFiles.named (p : ProcessFiles) : List ContextAddr := p.files.pairs.map Prod.snd

/-- The kernel as far as descriptors go. -/
structure FileKernel where
  processTable : BinarySearchTree Pid ProcessFiles
  heap : FileHeap
  currPid : Pid

namespace FileKernel

/-- No process and no file context. -/
def init : FileKernel where
  processTable := .empty
  heap := .empty
  currPid := 1

/-- The descriptors of the process at `p`. -/
def fileTable (k : FileKernel) (p : Addr) : Option FileTable :=
  (k.processTable.nodes p).map fun n => ⟨n.value.files, k.heap⟩

/-- Assign the descriptors of the process at `p`. -/
def setFileTable (k : FileKernel) (p : Addr) (t : FileTable) : Option FileKernel := do
  let table ← k.processTable.modify p fun n =>
    { n with value := { n.value with files := t.files } }
  pure { k with processTable := table, heap := t.heap }

/-- The loop of `Process::Process(Process &)` that copies the descriptors. `nodes` are the addresses
of the new nodes. -/
def copyFiles (files : BinarySearchTree Int ContextAddr) (heap : FileHeap) (nodes : List Addr) :
    Option FileTable := do
  let (t, _) ← files.forKeys (fun fd (t, nodes) =>
    match nodes with
    | [] => none
    | n :: nodes => do
        let c ← files.get fd
        let (t, _) ← t.storeFileContextAt c fd n
        pure (t, nodes)) ((⟨.empty, heap⟩ : FileTable), nodes)
  pure t

/-- The loop of `Process::clone` that copies the contexts. `new` are the addresses of the new
contexts and nodes. -/
def cloneFiles (files : BinarySearchTree Int ContextAddr) (heap : FileHeap)
    (new : List (ContextAddr × Addr)) : Option FileTable := do
  let (t, _) ← files.forKeys (fun fd (t, new) =>
    match new with
    | [] => none
    | (c', n) :: new => do
        let c ← files.get fd
        let heap ← t.heap.copy c c'
        let (t, _) ← FileTable.storeFileContextAt { t with heap := heap } c' fd n
        pure (t, new)) ((⟨.empty, heap⟩ : FileTable), new)
  pure t

/-- `Kernel::addProcess`. The new node of the table, at `b`, holds a copy of the process. -/
def addProcess (k : FileKernel) (b : Addr) (nodes : List Addr) (p : ProcessFiles) :
    Option FileKernel :=
  if (k.processTable.nodes b).isSome then none
  else do
    let copy ← copyFiles p.files k.heap nodes
    let table ← k.processTable.insert p.pid { p with files := copy.files } b
    pure { k with processTable := table, heap := copy.heap }

/-- `syscall_clone`, called by the process at `p`. The object that `Process::clone` returns stays on
the heap. -/
def syscallClone (k : FileKernel) (p b : Addr) (new : List (ContextAddr × Addr))
    (nodes : List Addr) : Option FileKernel := do
  let pid := k.currPid
  let t ← k.fileTable p
  let newProcess ← cloneFiles t.files t.heap new
  addProcess { k with currPid := (k.currPid + 1) % 2 ^ 32, heap := newProcess.heap } b nodes
    ⟨pid, newProcess.files⟩

/-- A system call on descriptors, called by the process at `p`, with what it returns. -/
def syscall (k : FileKernel) (p : Addr) (a : Addresses) (call : FileCall) :
    Option (FileKernel × Returned) := do
  let t ← k.fileTable p
  let (t, r) ← t.perform a call
  let k ← k.setFileTable p t
  pure (k, r)

/-- What can happen to the descriptors. A process that is added was constructed, so it has none. -/
inductive FileEvent where
  | addProcess (pid : Pid)
  | clone (p : Addr)
  | call (p : Addr) (call : FileCall)

/-- An event takes the kernel from one state to the next. -/
def Step (k : FileKernel) (e : FileEvent) (k' : FileKernel) : Prop :=
  match e with
  | .addProcess pid => ∃ b nodes, k.addProcess b nodes ⟨pid, .empty⟩ = some k'
  | .clone p => ∃ b new nodes, k.syscallClone p b new nodes = some k'
  | .call p call => ∃ a r, k.syscall p a call = some (k', r)

/-- The contexts that the descriptors of all processes name, one for each descriptor. -/
def slots (k : FileKernel) : List ContextAddr :=
  k.processTable.pairs.flatMap fun x => x.2.named

/-- Only processes without descriptors call `clone`, and `fddup` of a descriptor onto itself is not
called on the only reference to a context. -/
def SharesSafely (k : FileKernel) (e : FileEvent) : Prop :=
  match e with
  | .addProcess _ => True
  | .clone p => ∀ t, k.fileTable p = some t → t.files.root = none
  | .call p call => ∀ t, k.fileTable p = some t → t.KeepsOpen call

/-- The contexts that the descriptors of the processes of a table name. -/
def namedBy (E : List (Entry Pid ProcessFiles)) : Multiset ContextAddr :=
  (E.flatMap fun e => e.value.named : List ContextAddr)

theorem namedBy_append_cons (A B : List (Entry Pid ProcessFiles)) (e : Entry Pid ProcessFiles) :
    namedBy (A ++ e :: B) = e.value.named + namedBy (A ++ B) := by
  have hperm : (A ++ e :: B).Perm (e :: (A ++ B)) := List.perm_middle
  have hflat := hperm.flatMap_right fun e => e.value.named
  rw [namedBy, Multiset.coe_eq_coe.2 hflat, List.flatMap_cons, ← Multiset.coe_add]
  rfl

/-- The counter of every context is the number of descriptors that name it, every context is named,
and every descriptor names a living context. -/
structure Accounted (k : FileKernel) (E : List (Entry Pid ProcessFiles)) : Prop where
  table : Holds k.processTable E
  files : ∀ e ∈ E, ∃ F, Holds e.value.files F
  counts : Counts k.heap.getRefCount (namedBy E)
  pipes : ∃ L, k.heap.PipesCounted L

variable {k k' : FileKernel} {E : List (Entry Pid ProcessFiles)} {p : Addr}

theorem Accounted.slots_eq (h : Accounted k E) : (k.slots : Multiset ContextAddr) = namedBy E := by
  rw [slots, h.table.pairs_eq, List.flatMap_map]
  rfl

theorem init_accounted : Accounted init [] where
  table := .empty
  files _ h := nomatch h
  counts := .empty
  pipes := ⟨∅, FileHeap.empty_pipesCounted⟩

/-- The descriptors of one process, the others being counted as well. -/
theorem Accounted.references {t : FileTable} (h : Accounted k E) (ht : k.fileTable p = some t) :
    ∃ A e B, E = A ++ e :: B ∧ e.id = p ∧ t.References (namedBy (A ++ B)) := by
  obtain ⟨n, hn, rfl⟩ := Option.map_eq_some_iff.1 ht
  obtain ⟨A, B, rfl⟩ := List.append_of_mem (h.table.mem_of_nodes hn)
  refine ⟨A, _, B, rfl, rfl, h.files ⟨p, n.key, n.value⟩ (by simp), ?_, h.pipes⟩
  have hcounts := h.counts
  rw [namedBy_append_cons] at hcounts
  exact hcounts

/-- Assigning the descriptors of one process changes its entry of the table only. -/
theorem setFileTable_spec {t : FileTable} {A B : List (Entry Pid ProcessFiles)}
    {e : Entry Pid ProcessFiles} (h : Holds k.processTable (A ++ e :: B))
    (hk : k.setFileTable e.id t = some k') :
    ∃ e', Holds k'.processTable (A ++ e' :: B) ∧ e'.value.files = t.files ∧ k'.heap = t.heap := by
  obtain ⟨n, hn, -, hvalue⟩ := h.exists_node (e := e) (by simp)
  rw [FileKernel.setFileTable, modify_eq hn] at hk
  cases hk
  have hid : ∀ x ∈ A ++ B, x.id ≠ e.id := by
    have hperm : (A ++ e :: B).Perm (e :: (A ++ B)) := List.perm_middle
    have hnodup := (hperm.map Entry.id).nodup_iff.1 h.nodup
    intro x hx heq
    exact (List.nodup_cons.1 hnodup).1 (heq ▸ List.mem_map_of_mem hx)
  have hkeep : ∀ L : List (Entry Pid ProcessFiles), (∀ x ∈ L, x.id ≠ e.id) →
      L.map (setValue e.id { n.value with files := t.files }) = L := by
    intro L hL
    refine (List.map_congr_left fun x hx => ?_).trans (List.map_id L)
    simp [setValue, hL x hx]
  have htable := h.set_value { n.value with files := t.files } hn
  rw [List.map_append, List.map_cons, hkeep A fun x hx => hid x (by simp [hx]),
    hkeep B fun x hx => hid x (by simp [hx])] at htable
  exact ⟨_, htable, by simp [setValue], rfl⟩

/-- What holds of the processes of a table holds of them after one of them got other descriptors. -/
theorem forall_files_of_eq {P : BinarySearchTree Int ContextAddr → Prop}
    {A B : List (Entry Pid ProcessFiles)} {e e' : Entry Pid ProcessFiles}
    (h : ∀ x ∈ A ++ e :: B, P x.value.files) (he' : P e'.value.files) :
    ∀ x ∈ A ++ e' :: B, P x.value.files := by
  intro x hx
  rcases List.mem_append.1 hx with hx | hx
  · exact h x (by simp [hx])
  · rcases List.mem_cons.1 hx with rfl | hx
    · exact he'
    · exact h x (by simp [hx])

/-- Other descriptors of one process. -/
theorem Accounted.setFileTable {t : FileTable} {A B : List (Entry Pid ProcessFiles)}
    {e : Entry Pid ProcessFiles} (h : Accounted k (A ++ e :: B))
    (ht : t.References (namedBy (A ++ B))) (hk : k.setFileTable e.id t = some k') :
    ∃ E', Accounted k' E' := by
  obtain ⟨e', htable, hfiles, hheap⟩ := setFileTable_spec h.table hk
  refine ⟨_, htable, ?_, ?_, hheap ▸ ht.pipes⟩
  · refine forall_files_of_eq (P := fun files => ∃ F, Holds files F) h.files ?_
    rw [hfiles]
    exact ht.holds
  · have hnamed : e'.value.named = t.named := by
      rw [ProcessFiles.named, FileTable.named, hfiles]
    rw [namedBy_append_cons, hnamed, hheap]
    exact ht.counts

theorem copyFiles_of_root_eq_none {files : BinarySearchTree Int ContextAddr}
    (hroot : files.root = none) (heap : FileHeap) (nodes : List Addr) :
    copyFiles files heap nodes = some ⟨.empty, heap⟩ := by
  simp [copyFiles, forKeys_of_root_eq_none hroot]

theorem cloneFiles_of_root_eq_none {files : BinarySearchTree Int ContextAddr}
    (hroot : files.root = none) (heap : FileHeap) (new : List (ContextAddr × Addr)) :
    cloneFiles files heap new = some ⟨.empty, heap⟩ := by
  simp [cloneFiles, forKeys_of_root_eq_none hroot]

/-- A process without descriptors is added. -/
theorem Accounted.addProcess {b : Addr} {nodes : List Addr} {p : ProcessFiles} (h : Accounted k E)
    (hroot : p.files.root = none) (hk : k.addProcess b nodes p = some k') :
    ∃ E', Accounted k' E' := by
  unfold FileKernel.addProcess at hk
  split at hk
  case isTrue => cases hk
  case isFalse hfresh =>
    obtain ⟨copy, hcopy, hk⟩ := Option.bind_eq_some_iff.1 hk
    obtain ⟨table, htable, heq⟩ := Option.bind_eq_some_iff.1 hk
    rw [copyFiles_of_root_eq_none hroot] at hcopy
    cases hcopy
    cases heq
    obtain ⟨table', E', htable', hE', A, B, rfl, rfl, -⟩ :=
      h.table.insert ⟨b, p.pid, { p with files := .empty }⟩ (by simpa using hfresh)
    obtain rfl := Option.some.inj (htable'.symm.trans htable)
    refine ⟨_, hE', fun e he => ?_, ?_, h.pipes⟩
    · rcases List.mem_append.1 he with he | he
      · exact h.files e (by simp [he])
      · rcases List.mem_cons.1 he with rfl | he
        · exact ⟨[], .empty⟩
        · exact h.files e (by simp [he])
    · rw [namedBy_append_cons]
      have hnamed : ProcessFiles.named { p with files := .empty } = [] := by
        rw [ProcessFiles.named, Holds.empty.pairs_eq]
        rfl
      rw [hnamed, Multiset.coe_nil, zero_add]
      exact h.counts

/-- The parts of a system call that returns. -/
theorem syscall_cases {a : Addresses} {call : FileCall} {r : Returned}
    (hk : k.syscall p a call = some (k', r)) :
    ∃ t t', k.fileTable p = some t ∧ t.perform a call = some (t', r) ∧
      k.setFileTable p t' = some k' := by
  obtain ⟨t, ht, hk⟩ := Option.bind_eq_some_iff.1 hk
  obtain ⟨⟨t', r'⟩, hperform, hk⟩ := Option.bind_eq_some_iff.1 hk
  obtain ⟨k₁, hset, heq⟩ := Option.bind_eq_some_iff.1 hk
  cases heq
  exact ⟨t, t', ht, hperform, hset⟩

theorem syscallClone_cases {b : Addr} {new : List (ContextAddr × Addr)} {nodes : List Addr}
    (hk : k.syscallClone p b new nodes = some k') :
    ∃ t newProcess, k.fileTable p = some t ∧ cloneFiles t.files t.heap new = some newProcess ∧
      addProcess { k with currPid := (k.currPid + 1) % 2 ^ 32, heap := newProcess.heap } b nodes
        ⟨k.currPid, newProcess.files⟩ = some k' := by
  obtain ⟨t, ht, hk⟩ := Option.bind_eq_some_iff.1 hk
  obtain ⟨newProcess, hclone, hk⟩ := Option.bind_eq_some_iff.1 hk
  exact ⟨t, newProcess, ht, hclone, hk⟩

/-- Every event that shares contexts safely keeps the account. -/
theorem Accounted.step {e : FileEvent} (h : Accounted k E) (hsafe : SharesSafely k e)
    (hstep : Step k e k') : ∃ E', Accounted k' E' := by
  cases e with
  | addProcess pid =>
      obtain ⟨b, nodes, hk⟩ := hstep
      exact h.addProcess rfl hk
  | clone p =>
      obtain ⟨b, new, nodes, hk⟩ := hstep
      obtain ⟨t, newProcess, ht, hclone, hk⟩ := syscallClone_cases hk
      rw [cloneFiles_of_root_eq_none (hsafe t ht)] at hclone
      cases hclone
      obtain ⟨n, -, rfl⟩ := Option.map_eq_some_iff.1 ht
      have h' : Accounted { k with currPid := (k.currPid + 1) % 2 ^ 32 } E :=
        ⟨h.table, h.files, h.counts, h.pipes⟩
      exact h'.addProcess rfl hk
  | call p call =>
      obtain ⟨a, r, hk⟩ := hstep
      obtain ⟨t, t', ht, hperform, hset⟩ := syscall_cases hk
      obtain ⟨A, e, B, rfl, rfl, href⟩ := h.references ht
      exact h.setFileTable (href.perform hperform) hset

/-- In every run in which contexts are shared safely, the counter of every file context is the
number of descriptors that name it, so that it is freed with the last one, every descriptor names a
living context, and no system call follows the pointer of a freed one. -/
theorem references_counted {es : List FileEvent} (h : Run (Guarded SharesSafely Step) init es k) :
    Counts k.heap.getRefCount k.slots ∧
      ∀ p call t a, k.fileTable p = some t → t.Fresh a → SharesSafely k (.call p call) →
        k.syscall p a call ≠ none := by
  have hstep : ∀ k e k', (∃ E, Accounted k E) → Guarded SharesSafely Step k e k' →
      ∃ E, Accounted k' E := by
    rintro k e k' ⟨E, hE⟩ ⟨hsafe, hstep⟩
    exact hE.step hsafe hstep
  obtain ⟨E, hE⟩ := h.invariant ⟨[], init_accounted⟩ hstep
  refine ⟨hE.slots_eq ▸ hE.counts, fun p call t a ht ha hsafe => ?_⟩
  obtain ⟨A, e, B, -, -, href⟩ := hE.references ht
  obtain ⟨⟨t', r⟩, ht'⟩ := Option.ne_none_iff_exists'.1 (href.perform_ne_none ha (hsafe t ht))
  obtain ⟨n, hn, -⟩ := Option.map_eq_some_iff.1 ht
  simp [syscall, ht, ht', setFileTable, modify_eq hn]

/-- Addresses for the call number `i`. -/
private def newAddresses (i : Nat) : Addresses := ⟨i, 2 * i, 2 * i + 1, 2 * i, 2 * i + 1⟩

/-- The process at 0 opens the one file there is. -/
private def openedBy (p : Addr) : FileEvent := .call p (.open (some fun _ => true) [47])

theorem references_counted_dup :
    ∃ k, Run (Guarded SharesSafely Step) init
      [.addProcess 0, openedBy 0, .call 0 (.fddup 0 1), .call 0 (.close 0)] k ∧
      Counts k.heap.getRefCount k.slots := by
  have hrun : Run (Guarded SharesSafely Step) init
      [.addProcess 0, openedBy 0, .call 0 (.fddup 0 1), .call 0 (.close 0)] _ :=
    .cons ⟨trivial, 0, [], rfl⟩ (.cons ⟨fun _ _ => trivial, newAddresses 0, _, rfl⟩
      (.cons ⟨fun _ _ h => absurd h (by decide), newAddresses 1, _, rfl⟩
        (.cons ⟨fun _ _ => trivial, newAddresses 2, _, rfl⟩ (.nil _))))
  exact ⟨_, hrun, (references_counted hrun).1⟩

/-- A process with one descriptor calls `clone`: the context of the clone has two references, one of
them from the temporary process, but one descriptor. -/
theorem clone_counts_twice :
    ¬ ∀ es k, Run Step init es k → Counts k.heap.getRefCount k.slots := by
  intro hall
  have hrun : Run Step init [.addProcess 0, openedBy 0, .clone 0] _ :=
    .cons ⟨0, [], rfl⟩ (.cons ⟨newAddresses 0, _, rfl⟩ (.cons ⟨1, [(1, 0)], [0], rfl⟩ (.nil _)))
  have hcount := (hall _ _ hrun).count_eq 1 2 rfl
  exact absurd hcount (by decide)

end FileKernel

end CrosKernel
