import CrosKernel.Containers.TreeSession
import CrosKernel.Lib.RefCount
import CrosKernel.Types.Status
import Mathlib.Data.Int.Order.Basic

/-!
# Open files

The file contexts of `src/fs` as far as they are created, shared and freed, the tree `files` of a
process with `storeFileContext`, `getFileContext` and `closeFileContext` of `src/sched/process.cpp`,
and the system calls of `src/kernel.cpp` that open, close, copy and connect descriptors. Following
the pointer of a freed context yields `none`. Allocations succeed, at the addresses that are
arguments; an address that is in use then yields `none`.
-/

namespace CrosKernel.Sched

open Containers Lib

/-- The address of a file context. -/
abbrev ContextAddr := Nat

/-- The address of a pipe. -/
abbrev PipeAddr := Nat

/-- The classes of file contexts, with the members that `copy` and the destructors use. A path is a
list of bytes. -/
inductive ContextKind where
  | FileContextFAT32 (path : List UInt8) (pos : Nat)
  | PipeReader (pipe : PipeAddr)
  | PipeWriter (pipe : PipeAddr)
  deriving DecidableEq, Repr

/-- `FileContext`. -/
structure FileContext where
  refcount : Int
  kind : ContextKind

/-- The counters of a `Pipe`. -/
structure PipeEnds where
  readerCount : Int
  writerCount : Int

/-- The file contexts and the pipes on the heap. -/
structure FileHeap where
  contexts : ContextAddr → Option FileContext
  pipes : PipeAddr → Option PipeEnds

namespace FileHeap

/-- No file context and no pipe. -/
def empty : FileHeap := ⟨fun _ => none, fun _ => none⟩

/-- The context at `c` is written or freed. -/
def setContext (h : FileHeap) (c : ContextAddr) (x : Option FileContext) : FileHeap :=
  { h with contexts := Function.update h.contexts c x }

/-- The pipe at `p` is written or freed. -/
def setPipe (h : FileHeap) (p : PipeAddr) (e : Option PipeEnds) : FileHeap :=
  { h with pipes := Function.update h.pipes p e }

@[simp]
theorem contexts_setContext (h : FileHeap) (c : ContextAddr) (x : Option FileContext) :
    (h.setContext c x).contexts = Function.update h.contexts c x := rfl

@[simp]
theorem pipes_setContext (h : FileHeap) (c : ContextAddr) (x : Option FileContext) :
    (h.setContext c x).pipes = h.pipes := rfl

@[simp]
theorem contexts_setPipe (h : FileHeap) (p : PipeAddr) (e : Option PipeEnds) :
    (h.setPipe p e).contexts = h.contexts := rfl

@[simp]
theorem pipes_setPipe (h : FileHeap) (p : PipeAddr) (e : Option PipeEnds) :
    (h.setPipe p e).pipes = Function.update h.pipes p e := rfl

/-- Assign to the context at `c`. -/
def modify (h : FileHeap) (c : ContextAddr) (f : FileContext → FileContext) : Option FileHeap := do
  let x ← h.contexts c
  pure (h.setContext c (some (f x)))

/-- Assign to the pipe at `p`. -/
def modifyPipe (h : FileHeap) (p : PipeAddr) (f : PipeEnds → PipeEnds) : Option FileHeap := do
  let e ← h.pipes p
  pure (h.setPipe p (some (f e)))

/-- `Pipe::addReader` and `Pipe::addWriter`, called by the constructors of the contexts. -/
def construct (h : FileHeap) : ContextKind → Option FileHeap
  | .FileContextFAT32 .. => some h
  | .PipeReader p => h.modifyPipe p fun e => { e with readerCount := e.readerCount + 1 }
  | .PipeWriter p => h.modifyPipe p fun e => { e with writerCount := e.writerCount + 1 }

/-- Free the pipe at `p` when it has no ends left. -/
def deletePipe (h : FileHeap) (p : PipeAddr) : Option FileHeap := do
  let e ← h.pipes p
  pure (if e.readerCount = 0 ∧ e.writerCount = 0 then h.setPipe p none else h)

/-- The destructors of the contexts. -/
def destruct (h : FileHeap) : ContextKind → Option FileHeap
  | .FileContextFAT32 .. => some h
  | .PipeReader p => do
      let h ← h.modifyPipe p fun e => { e with readerCount := e.readerCount - 1 }
      h.deletePipe p
  | .PipeWriter p => do
      let h ← h.modifyPipe p fun e => { e with writerCount := e.writerCount - 1 }
      h.deletePipe p

/-- `new` of a context, at the address `c`. -/
def newContext (h : FileHeap) (c : ContextAddr) (kind : ContextKind) : Option FileHeap :=
  if (h.contexts c).isSome then none
  else do
    let h ← h.construct kind
    pure (h.setContext c (some ⟨0, kind⟩))

/-- `new Pipe`, at the address `p`. -/
def newPipe (h : FileHeap) (p : PipeAddr) : Option FileHeap :=
  if (h.pipes p).isSome then none
  else some (h.setPipe p (some ⟨0, 0⟩))

/-- `delete` of a context. -/
def deleteContext (h : FileHeap) (c : ContextAddr) : Option FileHeap := do
  let x ← h.contexts c
  let h ← h.destruct x.kind
  pure (h.setContext c none)

/-- `FileContext::copy`, with the new context at `c'`. -/
def copy (h : FileHeap) (c c' : ContextAddr) : Option FileHeap := do
  let x ← h.contexts c
  h.newContext c' x.kind

/-- `HasRefcount::addReference`. -/
def addReference (h : FileHeap) (c : ContextAddr) : Option FileHeap :=
  h.modify c fun x => { x with refcount := x.refcount + 1 }

/-- `HasRefcount::removeReference`. -/
def removeReference (h : FileHeap) (c : ContextAddr) : Option FileHeap :=
  h.modify c fun x => { x with refcount := x.refcount - 1 }

/-- `HasRefcount::getRefCount`. -/
def getRefCount (h : FileHeap) (c : ContextAddr) : Option Int := (h.contexts c).map (·.refcount)

end FileHeap

/-- The tree `files` of a process, with the heap. -/
structure FileTable where
  files : BinarySearchTree Int ContextAddr
  heap : FileHeap

namespace FileTable

/-- `Process::getFileContext`. The null pointer is `none`. -/
def getFileContext (t : FileTable) (fd : Int) : Option (Option ContextAddr) := do
  let contained ← t.files.contains fd
  if contained then do
    let c ← t.files.get fd
    pure (some c)
  else pure none

/-- Insert a context under a descriptor and count the reference. `n` is the address of the new node
of the tree. -/
def addFile (t : FileTable) (fd : Int) (c : ContextAddr) (n : Addr) : Option FileTable :=
  if (t.files.nodes n).isSome then none
  else do
    let files ← t.files.insert fd c n
    let heap ← t.heap.addReference c
    pure ⟨files, heap⟩

/-- `Process::storeFileContext(f)`, with the descriptor it returns. -/
def storeFileContext (t : FileTable) (c : ContextAddr) (n : Addr) : Option (FileTable × Int) := do
  let fd := t.files.size
  let t ← t.addFile fd c n
  pure (t, fd)

/-- `Process::storeFileContext(f, fd)`, with its status. -/
def storeFileContextAt (t : FileTable) (c : ContextAddr) (fd : Int) (n : Addr) :
    Option (FileTable × Error) := do
  let contained ← t.files.contains fd
  if contained then pure (t, .EEXISTS)
  else do
    let t ← t.addFile fd c n
    pure (t, .ENONE)

/-- `Process::closeFileContext`, with its status. -/
def closeFileContext (t : FileTable) (fd : Int) : Option (FileTable × Error) := do
  let contained ← t.files.contains fd
  if !contained then pure (t, .ENOFILE)
  else do
    let c ← t.files.get fd
    let files ← t.files.remove fd
    let heap ← t.heap.removeReference c
    let count ← heap.getRefCount c
    let heap ← (if count ≤ 0 then heap.deleteContext c else some heap)
    pure (⟨files, heap⟩, .ENONE)

/-! ## System calls -/

/-- The addresses of what a call allocates: a pipe, two contexts and two nodes of the tree. -/
structure Addresses where
  pipe : PipeAddr
  context : ContextAddr
  context' : ContextAddr
  node : Addr
  node' : Addr

/-- What a call gives back to the process. -/
inductive Returned where
  | descriptor (fd : Int)
  | pipefd (reader writer : Int)
  | status (e : Error)
  deriving DecidableEq, Repr

/-- `syscall_open`. `ramFS` is null or tells which paths name a file. -/
def syscallOpen (t : FileTable) (a : Addresses) (ramFS : Option (List UInt8 → Bool))
    (path : List UInt8) : Option (FileTable × Returned) :=
  match ramFS with
  | none => some (t, .status Error.EIO)
  | some isFile =>
      if !isFile path then some (t, .status .ENOFILE)
      else do
        let heap ← t.heap.newContext a.context (.FileContextFAT32 path 0)
        let (t, fd) ← storeFileContext { t with heap := heap } a.context a.node
        pure (t, .descriptor fd)

/-- `syscall_close`. -/
def syscallClose (t : FileTable) (fd : Int) : Option (FileTable × Returned) := do
  let (t, status) ← t.closeFileContext fd
  pure (t, .status status)

/-- `syscall_fddup`. -/
def syscallFddup (t : FileTable) (a : Addresses) (oldfd newfd : Int) :
    Option (FileTable × Returned) := do
  match ← t.getFileContext oldfd with
  | none => pure (t, .status .ENOFILE)
  | some fc => do
      let occupied ← t.getFileContext newfd
      let (t, closed) ← (if occupied = none then some (t, .ENONE) else t.closeFileContext newfd)
      if closed ≠ .ENONE then pure (t, .status .EUNKNOWN)
      else do
        let (t, stored) ← t.storeFileContextAt fc newfd a.node
        if stored ≠ .ENONE then pure (t, .status .EUNKNOWN) else pure (t, .status .ENONE)

/-- `syscall_create_pipe`. -/
def syscallCreatePipe (t : FileTable) (a : Addresses) : Option (FileTable × Returned) := do
  let heap ← t.heap.newPipe a.pipe
  let heap ← heap.newContext a.context (.PipeReader a.pipe)
  let heap ← heap.newContext a.context' (.PipeWriter a.pipe)
  let (t, reader) ← storeFileContext { t with heap := heap } a.context a.node
  let (t, writer) ← t.storeFileContext a.context' a.node'
  pure (t, .pipefd reader writer)

end FileTable

/-- The system calls that change the descriptors of a process. -/
inductive FileCall where
  | open (ramFS : Option (List UInt8 → Bool)) (path : List UInt8)
  | close (fd : Int)
  | fddup (oldfd newfd : Int)
  | createPipe

/-- A system call, with what it returns. -/
def FileTable.perform (t : FileTable) (a : Addresses) : FileCall → Option (FileTable × Returned)
  | .open ramFS path => t.syscallOpen a ramFS path
  | .close fd => t.syscallClose fd
  | .fddup oldfd newfd => t.syscallFddup a oldfd newfd
  | .createPipe => t.syscallCreatePipe a

/-! ## What the parts of a call do -/

namespace FileHeap

variable {h h' : FileHeap} {c : ContextAddr}

theorem getRefCount_setContext (h : FileHeap) (c : ContextAddr) (x : Option FileContext) :
    (h.setContext c x).getRefCount =
      Function.update h.getRefCount c (x.map (·.refcount)) := by
  funext b
  by_cases hb : b = c
  · simp [getRefCount, hb]
  · simp [getRefCount, hb]

theorem addReference_counts (hh : h.addReference c = some h') :
    ∃ n, h.getRefCount c = some n ∧
      h'.getRefCount = Function.update h.getRefCount c (some (n + 1)) := by
  obtain ⟨x, hx, heq⟩ := Option.bind_eq_some_iff.1 hh
  cases heq
  exact ⟨x.refcount, by simp [getRefCount, hx], getRefCount_setContext h c _⟩

theorem modifyPipe_counts {p : PipeAddr} {f : PipeEnds → PipeEnds}
    (hh : h.modifyPipe p f = some h') : h'.contexts = h.contexts := by
  obtain ⟨x, hx, heq⟩ := Option.bind_eq_some_iff.1 hh
  cases heq
  rfl

theorem deletePipe_contexts {p : PipeAddr} (hh : h.deletePipe p = some h') :
    h'.contexts = h.contexts := by
  obtain ⟨e, he, heq⟩ := Option.bind_eq_some_iff.1 hh
  cases heq
  split <;> rfl

theorem construct_contexts {kind : ContextKind} (hh : h.construct kind = some h') :
    h'.contexts = h.contexts := by
  cases kind with
  | FileContextFAT32 => cases hh; rfl
  | PipeReader p => exact modifyPipe_counts hh
  | PipeWriter p => exact modifyPipe_counts hh

theorem destruct_contexts {kind : ContextKind} (hh : h.destruct kind = some h') :
    h'.contexts = h.contexts := by
  cases kind with
  | FileContextFAT32 => cases hh; rfl
  | PipeReader p | PipeWriter p =>
      obtain ⟨h₁, h₁_eq, hdelete⟩ := Option.bind_eq_some_iff.1 hh
      exact (deletePipe_contexts hdelete).trans (modifyPipe_counts h₁_eq)

theorem newContext_counts {kind : ContextKind} (hh : h.newContext c kind = some h') :
    h.getRefCount c = none ∧ h'.getRefCount = Function.update h.getRefCount c (some 0) := by
  unfold newContext at hh
  split at hh
  case isTrue => cases hh
  case isFalse hfresh =>
    obtain ⟨h₁, h₁_eq, heq⟩ := Option.bind_eq_some_iff.1 hh
    cases heq
    have hcontexts : h₁.getRefCount = h.getRefCount := by
      funext b
      simp [getRefCount, construct_contexts h₁_eq]
    refine ⟨by simpa [getRefCount] using hfresh, ?_⟩
    rw [getRefCount_setContext, hcontexts]
    rfl

theorem deleteContext_counts (hh : h.deleteContext c = some h') :
    h'.getRefCount = Function.update h.getRefCount c none := by
  obtain ⟨x, hx, hh⟩ := Option.bind_eq_some_iff.1 hh
  obtain ⟨h₁, h₁_eq, heq⟩ := Option.bind_eq_some_iff.1 hh
  cases heq
  have hcontexts : h₁.getRefCount = h.getRefCount := by
    funext b
    simp [getRefCount, destruct_contexts h₁_eq]
  rw [getRefCount_setContext, hcontexts]
  rfl

end FileHeap

namespace FileTable

variable {t t' : FileTable} {F : List (Entry Int ContextAddr)} {fd : Int} {c : ContextAddr}
  {n : Addr} {status : Error}

/-- An entry more and a reference more. -/
theorem addFile_spec (h : BinarySearchTree.Holds t.files F) (ht : t.addFile fd c n = some t') :
    ∃ F' m, BinarySearchTree.Holds t'.files F' ∧ BinarySearchTree.Inserts ⟨n, fd, c⟩ F F' ∧
      t.heap.getRefCount c = some m ∧
      t'.heap.getRefCount = Function.update t.heap.getRefCount c (some (m + 1)) := by
  unfold addFile at ht
  split at ht
  case isTrue => cases ht
  case isFalse hfresh =>
    obtain ⟨files, hfiles, ht⟩ := Option.bind_eq_some_iff.1 ht
    obtain ⟨heap, hheap, ht⟩ := Option.bind_eq_some_iff.1 ht
    cases ht
    obtain ⟨files', F', hfiles', hF', hins⟩ := h.insert ⟨n, fd, c⟩ (by simpa using hfresh)
    obtain rfl := Option.some.inj (hfiles'.symm.trans hfiles)
    obtain ⟨m, hm, hcounts⟩ := FileHeap.addReference_counts hheap
    exact ⟨F', m, hF', hins, hm, hcounts⟩

theorem storeFileContext_spec (ht : t.storeFileContext c n = some (t', fd)) :
    fd = t.files.size ∧ t.addFile fd c n = some t' := by
  obtain ⟨t₁, ht₁, heq⟩ := Option.bind_eq_some_iff.1 ht
  cases heq
  exact ⟨rfl, ht₁⟩

/-- Storing under a descriptor that is open changes nothing. -/
theorem storeFileContextAt_spec (h : BinarySearchTree.Holds t.files F)
    (ht : t.storeFileContextAt c fd n = some (t', status)) :
    (status = .EEXISTS ∧ t' = t ∧ ∃ e ∈ F, e.key = fd) ∨
      (status = .ENONE ∧ t.addFile fd c n = some t' ∧ ∀ e ∈ F, e.key ≠ fd) := by
  obtain ⟨b, hb, hiff⟩ := h.contains fd
  simp only [storeFileContextAt, hb, Option.bind_eq_bind, Option.bind_some] at ht
  cases b with
  | true =>
      cases ht
      exact .inl ⟨rfl, rfl, hiff.1 rfl⟩
  | false =>
      obtain ⟨t₁, ht₁, heq⟩ := Option.bind_eq_some_iff.1 ht
      cases heq
      refine .inr ⟨rfl, ht₁, fun e he hkey => ?_⟩
      cases hiff.2 ⟨e, he, hkey⟩

/-- Closing takes the entry that `get` finds out of the tree and drops its reference. -/
theorem closeFileContext_spec (h : BinarySearchTree.Holds t.files F)
    (ht : t.closeFileContext fd = some (t', status)) :
    (status = .ENOFILE ∧ t' = t ∧ ∀ e ∈ F, e.key ≠ fd) ∨
      ∃ A e B F' m, status = .ENONE ∧ F = A ++ e :: B ∧ e.key = fd ∧
        BinarySearchTree.Holds t'.files F' ∧
        F'.map Entry.pair = A.map Entry.pair ++ B.map Entry.pair ∧
        t.heap.getRefCount e.value = some m ∧
        t'.heap.getRefCount = Function.update t.heap.getRefCount e.value (release m) ∧
        t.files.get fd = some e.value ∧
        ∀ n, t.files.nodes n = none → t'.files.nodes n = none := by
  obtain ⟨b, hb, hiff⟩ := h.contains fd
  simp only [closeFileContext, hb, Option.bind_eq_bind, Option.bind_some] at ht
  cases b with
  | false =>
      cases ht
      refine .inl ⟨rfl, rfl, fun e he hkey => ?_⟩
      cases hiff.2 ⟨e, he, hkey⟩
  | true =>
      obtain ⟨A, e, B, files', F', hF, hkey, hget, hremove, hF', hpairs, hnodes⟩ :=
        h.remove_found (hiff.1 rfl)
      simp only [hget, hremove, Bool.not_true, Bool.false_eq_true, if_false,
        Option.bind_some] at ht
      obtain ⟨h₁, hremoved, ht⟩ := Option.bind_eq_some_iff.1 ht
      obtain ⟨count, hcount, ht⟩ := Option.bind_eq_some_iff.1 ht
      obtain ⟨h₂, hdelete, ht⟩ := Option.bind_eq_some_iff.1 ht
      cases ht
      obtain ⟨x, hx, heq⟩ := Option.bind_eq_some_iff.1 hremoved
      cases heq
      have hcounts := FileHeap.getRefCount_setContext t.heap e.value
        (some { x with refcount := x.refcount - 1 })
      rw [hcounts, Function.update_self] at hcount
      obtain rfl : x.refcount - 1 = count := Option.some.inj hcount
      refine .inr ⟨A, e, B, F', x.refcount, rfl, hF, hkey, hF', hpairs,
        by simp [FileHeap.getRefCount, hx], ?_, hget, hnodes⟩
      split at hdelete
      · rw [FileHeap.deleteContext_counts hdelete, hcounts, Function.update_idem, release,
          if_pos ‹_›]
      · cases hdelete
        rw [hcounts, release, if_neg ‹_›]
        rfl

/-- `getFileContext` finds an entry of the descriptor. -/
theorem getFileContext_spec (h : BinarySearchTree.Holds t.files F) (fd : Int) :
    (t.getFileContext fd = some none ∧ ∀ e ∈ F, e.key ≠ fd) ∨
      ∃ e ∈ F, e.key = fd ∧ t.getFileContext fd = some (some e.value) := by
  obtain ⟨b, hb, hiff⟩ := h.contains fd
  cases b with
  | false =>
      refine .inl ⟨by simp [getFileContext, hb], fun e he hkey => ?_⟩
      cases hiff.2 ⟨e, he, hkey⟩
  | true =>
      obtain ⟨A, e, B, -, -, rfl, hkey, hget, -⟩ := h.remove_found (hiff.1 rfl)
      exact .inr ⟨e, by simp, hkey, by simp [getFileContext, hb, hget]⟩

end FileTable

end CrosKernel.Sched
