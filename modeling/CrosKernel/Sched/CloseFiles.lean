import CrosKernel.Containers.TreeIterator
import CrosKernel.Sched.OpenFiles

/-!
# Closing all files of a process

`Process::~Process` and `Process::operator=` close the files of a process in a loop over the tree
`files`, and the body of the loop removes from this tree the key at which the iterator is. Either
the iterator is left at a node that was deleted, and `++` reads it, or the node holds another key,
which the loop then passes: `closes_all_iff` says that the loop does its work when there is none.
-/

namespace CrosKernel.Sched.FileTable

open Containers BinarySearchTree Lib

/-- The loop `for (int fd : files) closeFileContext(fd)` from an iterator on, with the descriptors
that it closes. A node that was deleted cannot be read. -/
def closeFrom : Nat → Option Addr → FileTable → Option (FileTable × List Int)
  | _, none, t => some (t, [])
  | 0, some _, _ => none
  | fuel + 1, some p, t => do
      let n ← t.files.nodes p
      let (t, _) ← t.closeFileContext n.key
      let next ← t.files.increment p
      let (t', closed) ← closeFrom fuel next t
      pure (t', n.key :: closed)

/-- The loop in `Process::~Process` and in `Process::operator=`. -/
def closeFiles (fuel : Nat) (t : FileTable) : Option (FileTable × List Int) := do
  let p ← t.files.begin
  closeFrom fuel p t

/-- Every descriptor that was open is closed once, no other one is, and none is left open. -/
structure ClosesAll (t : FileTable) (closed : List Int) (t' : FileTable) : Prop where
  once : ∀ fd, closed.count fd = if t.files.contains fd = some true then 1 else 0
  none_open : ∀ fd, t'.files.contains fd = some false

variable {t t' : FileTable} {F : List (Entry Int ContextAddr)} {p : Addr} {closed : List Int}
  {fuel : Nat}

theorem closeFileContext_holds {fd : Int} {status : Error} (h : Holds t.files F)
    (ht : t.closeFileContext fd = some (t', status)) : ∃ F', Holds t'.files F' := by
  obtain ⟨-, rfl, -⟩ | ⟨A, e, B, F', m, -, -, -, hF', -⟩ := closeFileContext_spec h ht
  · exact ⟨F, h⟩
  · exact ⟨F', hF'⟩

/-- Only the node that the iterator leaves last tells it that the loop is over, so this node is
still in the tree. -/
theorem exists_node_of_closeFrom (h : Holds t.files F)
    (hrun : closeFrom fuel (some p) t = some (t', closed)) :
    (∃ F', Holds t'.files F') ∧ ∃ a n, t'.files.nodes a = some n := by
  induction fuel generalizing t F p closed with
  | zero => cases hrun
  | succ fuel ih =>
      obtain ⟨n, hn, hrun⟩ := Option.bind_eq_some_iff.1 hrun
      obtain ⟨⟨t₁, status⟩, hclose, hrun⟩ := Option.bind_eq_some_iff.1 hrun
      obtain ⟨next, hnext, hrun⟩ := Option.bind_eq_some_iff.1 hrun
      obtain ⟨⟨t₂, rest⟩, hrest, hrun⟩ := Option.bind_eq_some_iff.1 hrun
      cases hrun
      obtain ⟨F₁, h₁⟩ := closeFileContext_holds h hclose
      cases next with
      | none =>
          have heq : some (t₁, []) = some (t', rest) := by
            cases fuel <;> exact hrest
          cases heq
          obtain ⟨m, hm, -⟩ := Option.bind_eq_some_iff.1 hnext
          exact ⟨⟨F₁, h₁⟩, p, m, hm⟩
      | some q => exact ih h₁ hrest

/-- A descriptor at a node is open. -/
theorem contains_of_node {a : Addr} {n : Node Int ContextAddr} (h : Holds t.files F)
    (hn : t.files.nodes a = some n) : t.files.contains n.key = some true := by
  obtain ⟨b, hb, hiff⟩ := h.contains n.key
  have htrue : b = true := hiff.2 ⟨_, h.mem_of_nodes hn, rfl⟩
  rw [hb, htrue]

/-- For every tree of descriptors, the loop closes them all if and only if there are none. -/
theorem closes_all_iff {ops : List (Operation Int ContextAddr)}
    (hrun : Run Step (.empty : BinarySearchTree Int ContextAddr) ops t.files) :
    (∃ fuel t' closed, t.closeFiles fuel = some (t', closed) ∧ ClosesAll t closed t') ↔
      ∀ fd, t.files.contains fd = some false := by
  obtain ⟨M, -, F, h, -⟩ := run_stores hrun
  have hbegin : t.files.begin = some (firstNode F) := by
    obtain ⟨T, hrep, -, hsize, rfl⟩ := h
    exact begin_spec hrep (by omega)
  constructor
  · intro hcloses
    obtain ⟨fuel, t', closed, hclose, hall⟩ := hcloses
    rw [closeFiles, hbegin, Option.bind_eq_bind, Option.bind_some] at hclose
    cases F with
    | nil =>
        intro fd
        obtain ⟨b, hb, hiff⟩ := h.contains fd
        cases b with
        | false => exact hb
        | true =>
            obtain ⟨e, he, -⟩ := hiff.1 rfl
            cases he
    | cons e F =>
        -- the node at which the loop ends is open
        obtain ⟨⟨F', h'⟩, a, n, hn⟩ := exists_node_of_closeFrom h hclose
        have hopen := contains_of_node h' hn
        rw [hall.none_open] at hopen
        cases hopen
  · intro hnone
    have hF : F = [] := by
      cases F with
      | nil => rfl
      | cons e F =>
          obtain ⟨n, hn, -⟩ := h.exists_node (List.mem_cons_self (a := e))
          have hopen := contains_of_node h hn
          rw [hnone] at hopen
          cases hopen
    refine ⟨0, t, [], ?_, fun fd => ?_, hnone⟩
    · rw [closeFiles, hbegin, hF]
      rfl
    · simp [hnone fd]

/-- A process without descriptors. -/
theorem closes_all_iff_empty : ∃ fuel t' closed,
    closeFiles fuel ⟨.empty, .empty⟩ = some (t', closed) ∧ ClosesAll ⟨.empty, .empty⟩ closed t' :=
  (closes_all_iff (t := ⟨.empty, .empty⟩) (.nil _)).2 fun _ => rfl

/-- The descriptor 0 is open, for the context at 0. -/
private def oneFile : FileTable where
  files := (BinarySearchTree.empty.insert 0 0 0).getD .empty
  heap := FileHeap.empty.setContext 0 (some ⟨1, .FileContextFAT32 [] 0⟩)

/-- The only node is deleted, and `++` reads it. -/
theorem closing_reads_deleted_node :
    ¬ ∀ ops (t : FileTable), Run Step (.empty : BinarySearchTree Int ContextAddr) ops t.files →
      ∃ fuel t' closed, t.closeFiles fuel = some (t', closed) ∧ ClosesAll t closed t' := by
  intro hall
  have hrun : Run Step (.empty : BinarySearchTree Int ContextAddr) [.insert 0 0] oneFile.files :=
    .single (.insert (a := 0) rfl rfl)
  obtain ⟨fuel, t', closed, hclose, -⟩ := hall _ oneFile hrun
  cases fuel with
  | zero => cases hclose
  | succ fuel =>
      have hstuck : oneFile.closeFiles (fuel + 1) = none := rfl
      rw [hstuck] at hclose
      cases hclose

end CrosKernel.Sched.FileTable
