import CrosKernel.Fs.Fat32
import CrosKernel.Fs.PipeReader
import CrosKernel.Kernel.FileCopies
import CrosKernel.Sched.PipesUsed

/-!
# Reading and writing through descriptors

`syscall_read` and `syscall_write` of `src/kernel.cpp` beside the system calls on descriptors, called
by any process in any order, with the bytes of all pipes. `Sound` is what holds in every state that
is reached: a pipe holds what was accepted and not yet delivered, and its counters count the
descriptors of the processes and the references of the objects that `Process::clone` left behind.
-/

namespace CrosKernel

open Containers BinarySearchTree Sched Lib FileTable Fs

/-- The kernel as far as descriptors and pipes go. `temporaries` are the contexts that the objects
returned by `Process::clone` refer to; these objects stay on the heap. The bytes of the pipe at an
address are in `sessions`, with their history, and its counters in the heap of `files`. -/
structure PipeKernel where
  files : FileKernel
  temporaries : List ContextAddr
  sessions : PipeAddr → Session

namespace PipeKernel

/-- No process, no file context and no pipe. -/
def init (sessions : PipeAddr → Session) : PipeKernel where
  files := .init
  temporaries := []
  sessions := sessions

/-- A pipe with these counters. -/
def withEnds (session : Session) (e : PipeEnds) : Session :=
  { session with pipe := { session.pipe with
      readerCount := e.readerCount
      writerCount := e.writerCount } }

/-- The pipe at `q`, if there is one. -/
def session (s : PipeKernel) (q : PipeAddr) : Option Session := do
  let e ← s.files.heap.pipes q
  pure (withEnds (s.sessions q) e)

/-- Assign to the pipe at `q`. -/
def setSession (s : PipeKernel) (q : PipeAddr) (session : Session) : PipeKernel :=
  { s with sessions := Function.update s.sessions q session }

/-- The parameter `n` of `read` and `write`, which is an `int`: no byte is transferred when it is
negative. -/
def transferSize (size : Nat) : Nat := (toSigned size).toNat

/-- `syscall_read`, called by the process at `p`, with the bytes that are written to the buffer and
the value that is returned. A read of a file gives `file`. -/
def syscallRead (s : PipeKernel) (p : Addr) (fd : Int) (size : Nat) (file : List UInt8 × Int) :
    Option (PipeKernel × List UInt8 × Int) := do
  let t ← s.files.fileTable p
  match ← t.getFileContext fd with
  | none => pure (s, [], Error.ENOFILE.code)
  | some fc => do
      match ← t.heap.kindOf fc with
      | .FileContextFAT32 .. => pure (s, file)
      | .PipeReader q => do
          let session ← s.session q
          let (_, bytes, result) := session.pipe.readerRead (transferSize size)
          pure (s.setSession q (session.call (.read (transferSize size))), bytes, result)
      | .PipeWriter _ => pure (s, [], Error.EIO.code)

/-- `syscall_write`, called by the process at `p` with the bytes at `data`, and the value that is
returned. -/
def syscallWrite (s : PipeKernel) (p : Addr) (fd : Int) (size : Nat) (data : Nat → UInt8) :
    Option (PipeKernel × Int) := do
  let t ← s.files.fileTable p
  match ← t.getFileContext fd with
  | none => pure (s, Error.ENOFILE.code)
  | some fc => do
      match ← t.heap.kindOf fc with
      | .FileContextFAT32 .. => pure (s, Error.EIO.code)
      | .PipeReader _ => pure (s, Error.EIO.code)
      | .PipeWriter q => do
          let session ← s.session q
          let bytes := (List.range (transferSize size)).map data
          pure (s.setSession q (session.call (.put bytes)), (session.pipe.put bytes).2)

/-- `new Pipe` in `create_pipe`. The array is not initialized. -/
def newSessions (a : Addresses) (buffer : Nat → UInt8) (sessions : PipeAddr → Session) :
    FileCall → PipeAddr → Session
  | .createPipe => Function.update sessions a.pipe (.init buffer)
  | _ => sessions

/-- What can happen to the kernel. -/
inductive PipeEvent where
  | files (e : FileKernel.FileEvent)
  | read (p : Addr) (fd : Int) (size : Nat) (file : List UInt8 × Int)
  | write (p : Addr) (fd : Int) (size : Nat) (data : Nat → UInt8)

/-- An event takes the kernel from one state to the next. -/
def Step (s : PipeKernel) (e : PipeEvent) (s' : PipeKernel) : Prop :=
  match e with
  | .files (.addProcess pid) => ∃ b nodes k, s.files.addProcess b nodes ⟨pid, .empty⟩ = some k ∧
      s' = { s with files := k }
  | .files (.clone p) => ∃ b new nodes t newProcess k, s.files.fileTable p = some t ∧
      FileKernel.cloneFiles t.files t.heap new = some newProcess ∧
      s.files.syscallClone p b new nodes = some k ∧
      s' = { s with files := k, temporaries := newProcess.named ++ s.temporaries }
  | .files (.call p call) => ∃ a r k buffer, s.files.syscall p a call = some (k, r) ∧
      s' = { s with files := k, sessions := newSessions a buffer s.sessions call }
  | .read p fd size file => ∃ out, s.syscallRead p fd size file = some (s', out)
  | .write p fd size data => ∃ r, s.syscallWrite p fd size data = some (s', r)

/-- No call is handed out a descriptor that is open. -/
def HandsOutFree (s : PipeKernel) (e : PipeEvent) : Prop :=
  match e with
  | .files e => s.files.HandsOutFree e
  | _ => True

/-- A descriptor of a process, or an object that `Process::clone` left, refers to such a context. -/
def Refers (s : PipeKernel) (kind : ContextKind) : Prop :=
  ∃ c ∈ s.files.slots ++ s.temporaries, s.files.heap.kindOf c = some kind

/-- The descriptor of the process at `p` leads to such a context. -/
def Leads (s : PipeKernel) (p : Addr) (fd : Int) (kind : ContextKind) : Prop :=
  ∃ t c, s.files.fileTable p = some t ∧ t.getFileContext fd = some (some c) ∧
    t.heap.kindOf c = some kind

/-- References are counted, every pipe has an end, and holds the bytes that it has accepted and not
yet delivered. -/
structure Sound (s : PipeKernel) (E : List (Entry Pid ProcessFiles)) : Prop where
  shared : s.files.Shared E s.temporaries
  used : s.files.heap.Used
  pending : ∀ q, s.files.heap.pipes q ≠ none → ∃ queue, (s.sessions q).Pending queue

variable {s s' : PipeKernel} {E : List (Entry Pid ProcessFiles)} {p : Addr} {fd : Int} {q : PipeAddr}
  {kind : ContextKind} {session : Session} {queue : List UInt8}

theorem init_sound (sessions : PipeAddr → Session) : (init sessions).Sound [] where
  shared := FileKernel.init_shared
  used _ _ h := nomatch h
  pending _ h := absurd rfl h

/-! ## The parts of the kernel -/

theorem session_eq {e : PipeEnds} (he : s.files.heap.pipes q = some e) :
    s.session q = some (withEnds (s.sessions q) e) := by
  rw [session, he]
  rfl

theorem Sound.session_pending (h : s.Sound E) (hq : s.session q = some session) :
    ∃ queue, session.Pending queue := by
  obtain ⟨e, he, heq⟩ := Option.bind_eq_some_iff.1 hq
  cases heq
  exact h.pending q (by simp [he])

/-- Calls of `put` and `read` on one pipe. -/
theorem Sound.setSession (h : s.Sound E) (hq : s.session q = some session) (op : PipeOp) :
    (s.setSession q (session.call op)).Sound E where
  shared := h.shared
  used := h.used
  pending q' hq' := by
    by_cases heq : q' = q
    · obtain ⟨queue, hpending⟩ := h.session_pending hq
      simpa [PipeKernel.setSession, heq] using hpending.call op
    · simpa [PipeKernel.setSession, heq] using h.pending q' hq'

theorem syscallRead_cases {size : Nat} {file out : List UInt8 × Int}
    (hs : s.syscallRead p fd size file = some (s', out)) :
    s' = s ∨ ∃ q session op, s.session q = some session ∧ s' = s.setSession q (session.call op) := by
  obtain ⟨t, -, hs⟩ := Option.bind_eq_some_iff.1 hs
  obtain ⟨fc, -, hs⟩ := Option.bind_eq_some_iff.1 hs
  cases fc with
  | none =>
      cases hs
      exact .inl rfl
  | some fc =>
      obtain ⟨kind, -, hs⟩ := Option.bind_eq_some_iff.1 hs
      cases kind with
      | FileContextFAT32 | PipeWriter =>
          cases hs
          exact .inl rfl
      | PipeReader q =>
          obtain ⟨session, hq, hs⟩ := Option.bind_eq_some_iff.1 hs
          cases hs
          exact .inr ⟨q, session, _, hq, rfl⟩

theorem syscallWrite_cases {size : Nat} {data : Nat → UInt8} {r : Int}
    (hs : s.syscallWrite p fd size data = some (s', r)) :
    s' = s ∨ ∃ q session op, s.session q = some session ∧ s' = s.setSession q (session.call op) := by
  obtain ⟨t, -, hs⟩ := Option.bind_eq_some_iff.1 hs
  obtain ⟨fc, -, hs⟩ := Option.bind_eq_some_iff.1 hs
  cases fc with
  | none =>
      cases hs
      exact .inl rfl
  | some fc =>
      obtain ⟨kind, -, hs⟩ := Option.bind_eq_some_iff.1 hs
      cases kind with
      | FileContextFAT32 | PipeReader =>
          cases hs
          exact .inl rfl
      | PipeWriter q =>
          obtain ⟨session, hq, hs⟩ := Option.bind_eq_some_iff.1 hs
          cases hs
          exact .inr ⟨q, session, _, hq, rfl⟩

end PipeKernel

/-! ## Copies of descriptors -/

namespace FileKernel

variable {k k' : FileKernel} {t t' : FileTable} {E : List (Entry Pid ProcessFiles)}
  {M H : Multiset ContextAddr}

/-- The loop of the copy constructor stores contexts that exist. -/
theorem copyFiles_heap {nodes : List Addr} (h : ∃ F, Holds t.files F)
    (ht : copyFiles t.files t.heap nodes = some t') :
    t'.heap.pipes = t.heap.pipes ∧ t'.heap.kindOf = t.heap.kindOf := by
  obtain ⟨F, hF⟩ := h
  rw [copyFiles, hF.forKeys] at ht
  obtain ⟨⟨t₁, rest⟩, hloop, heq⟩ := Option.bind_eq_some_iff.1 ht
  cases heq
  refine foldlM_invariant (motive := fun _ s => s.1.heap.pipes = t.heap.pipes ∧
    s.1.heap.kindOf = t.heap.kindOf) hloop ⟨rfl, rfl⟩ ?_
  rintro e _ ⟨s, _ | ⟨n, nodes⟩⟩ s' ⟨hpipes, hkinds⟩ hbody
  · cases hbody
  · obtain ⟨c, -, hbody⟩ := Option.bind_eq_some_iff.1 hbody
    obtain ⟨⟨s₁, status⟩, hstore, heq⟩ := Option.bind_eq_some_iff.1 hbody
    cases heq
    exact ⟨(storeFileContextAt_pipes hstore).trans hpipes,
      (storeFileContextAt_kindOf hstore).trans hkinds⟩

/-- What storing a copy of a context under a new descriptor adds. -/
theorem storeCopy_heap {heap : FileHeap} {c c' : ContextAddr} {fd : Int} {n : Addr} {status : Error}
    (h : Kept t M) (hcopy : t.heap.copy c c' = some heap) (hfd : fd ∉ t.descriptors)
    (ht : FileTable.storeFileContextAt { t with heap := heap } c' fd n = some (t', status)) :
    t.heap.PipesKept t'.heap ∧ t.heap.Grows t'.heap ∧
      (t'.named : Multiset ContextAddr) = c' ::ₘ (t.named : Multiset ContextAddr) ∧
      t'.heap.kindOf c' = t.heap.kindOf c := by
  obtain ⟨x, hx, hnew⟩ := Option.bind_eq_some_iff.1 hcopy
  obtain ⟨L, hP⟩ := h.1.pipes
  obtain ⟨F, hF⟩ := h.1.holds
  have hpipes : t'.heap.pipes = heap.pipes := storeFileContextAt_pipes ht
  have hkinds : t'.heap.kindOf = heap.kindOf := storeFileContextAt_kindOf ht
  obtain ⟨hgrows, hkind⟩ := FileHeap.newContext_kindOf hnew
  refine ⟨(FileHeap.newContext_kept hP hnew (hP.alive c x hx)).trans (.of_eq hpipes),
    hgrows.trans (.of_eq hkinds), ?_, ?_⟩
  · rcases storeFileContextAt_spec (t := { t with heap := heap }) hF ht with
      ⟨-, -, hopen⟩ | ⟨-, hadd, -⟩
    · exact absurd ((mem_descriptors hF).2 hopen) hfd
    · exact named_addFile (t := { t with heap := heap }) hF hadd
  · rw [hkinds, hkind, FileHeap.kindOf, hx, Option.map_some]

/-- The loop of `Process::clone` constructs a context for every descriptor. -/
theorem cloneFiles_heap {new : List (ContextAddr × Addr)} (h : Kept t M)
    (ht : cloneFiles t.files t.heap new = some t') :
    t.heap.PipesKept t'.heap ∧ t.heap.Grows t'.heap ∧
      ∀ fd c kind, t.getFileContext fd = some (some c) → t.heap.kindOf c = some kind →
        ∃ c' ∈ t'.named, t'.heap.kindOf c' = some kind := by
  obtain ⟨href, stored, F, hF, hnames⟩ := h
  obtain ⟨L, hP⟩ := href.pipes
  rw [cloneFiles, hF.forKeys] at ht
  obtain ⟨⟨t₁, rest⟩, hloop, heq⟩ := Option.bind_eq_some_iff.1 ht
  cases heq
  -- a descriptor is still to come, or its context was copied
  have hend := foldlM_invariant (motive := fun B s => (Kept s.1 (t.named + M) ∧
      (B.map Entry.key).Nodup ∧ ∀ e ∈ B, e.key ∉ s.1.descriptors) ∧
    t.heap.PipesKept s.1.heap ∧ t.heap.Grows s.1.heap ∧
    ∀ fd c kind, t.getFileContext fd = some (some c) → t.heap.kindOf c = some kind →
      fd ∈ B.map Entry.key ∨ ∃ c' ∈ s.1.named, s.1.heap.kindOf c' = some kind) hloop ?_ ?_
  · refine ⟨hend.2.1, hend.2.2.1, fun fd c kind hc hkind => ?_⟩
    exact (hend.2.2.2 fd c kind hc hkind).resolve_left (by simp)
  · have hnone : (⟨.empty, t.heap⟩ : FileTable).descriptors = [] := by
      rw [descriptors, Holds.empty.pairs_eq]
      rfl
    refine ⟨⟨.empty href.counts hP, hnames.1, fun e _ => by simp [hnone]⟩, .refl _, .of_eq rfl,
      fun fd c kind hc _ => .inl ?_⟩
    obtain ⟨e, he, rfl, -⟩ | ⟨hget, -⟩ := (getFileContext_spec hF fd).symm
    · exact List.mem_map_of_mem he
    · rw [hget] at hc
      cases hc
  · rintro e B ⟨s, _ | ⟨⟨c', n⟩, new⟩⟩ s' ⟨⟨hs, hnodup, hleft⟩, hpipes, hgrows, hcopied⟩ hbody
    · cases hbody
    · obtain ⟨c, hget, hbody⟩ := Option.bind_eq_some_iff.1 hbody
      obtain ⟨heap, hcopy, hbody⟩ := Option.bind_eq_some_iff.1 hbody
      obtain ⟨⟨s₁, status⟩, hstore, heq⟩ := Option.bind_eq_some_iff.1 hbody
      cases heq
      have hfd := hleft e List.mem_cons_self
      obtain ⟨x, hx, hnew⟩ := Option.bind_eq_some_iff.1 hcopy
      obtain ⟨L, hP⟩ := hs.1.pipes
      obtain ⟨hs₁, hkeys⟩ := hs.storeNew hnew (hP.alive c x hx) hfd hstore
      obtain ⟨hpipes₁, hgrows₁, hnamed, hkind₁⟩ := storeCopy_heap hs hcopy hfd hstore
      have hmem : ∀ b, b ∈ s₁.named ↔ b = c' ∨ b ∈ s.named := by
        intro b
        rw [← Multiset.mem_coe, hnamed, Multiset.mem_cons, Multiset.mem_coe]
      rw [List.map_cons, List.nodup_cons] at hnodup
      refine ⟨⟨hs₁, hnodup.2, fun e' he' hmem => ?_⟩, hpipes.trans hpipes₁,
        hgrows.trans hgrows₁, fun fd d kind hd hkind => ?_⟩
      · rcases List.mem_cons.1 (hkeys.mem_iff.1 hmem) with hkey | hmem
        · exact hnodup.1 (hkey ▸ List.mem_map_of_mem he')
        · exact hleft e' (List.mem_cons_of_mem e he') hmem
      · rcases hcopied fd d kind hd hkind with hfd | ⟨b, hb, hbkind⟩
        · rw [List.map_cons, List.mem_cons] at hfd
          refine hfd.symm.imp_right fun heq => ⟨c', (hmem c').2 (.inl rfl), ?_⟩
          -- this is the descriptor whose context was just copied
          subst heq
          obtain ⟨b, -, hfound⟩ := Option.bind_eq_some_iff.1 hd
          have hdc : d = c := by
            cases b with
            | false => cases hfound
            | true => simpa [hget, eq_comm] using hfound
          rw [hkind₁, ← hdc]
          exact hgrows d kind hkind
        · exact .inr ⟨b, (hmem b).2 (.inr hb), hgrows₁ b kind hbkind⟩

end FileKernel

end CrosKernel
