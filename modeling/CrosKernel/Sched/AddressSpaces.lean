import CrosKernel.Lib.PointerCount
import CrosKernel.Lib.Run
import CrosKernel.Sched.Process

/-!
# Address spaces of processes

The member `addressSpace` of `Process` in `src/sched/process.cpp`, with the reference counts that
constructors, the destructor, `operator=` and `exec` keep in the address spaces. `SpacesCounted`
says that the counts are right. `operator=` between two processes of one address space counts a
reference too many, and `exec` into the address space of its only process frees it first:
`step_counts_iff` says that with the destruction of a process that has no address space these are
the only steps that go wrong, and `spaces_counted` carries the counts over every run without them.
-/

namespace CrosKernel.Sched

open Lib

/-- The address of a `Process` object. -/
abbrev ProcessAddr := Nat

/-- The address of an `AddressSpace` object. -/
abbrev SpaceAddr := Nat

/-- The members of `Process` that decide about its address space. -/
structure SpaceUser where
  state : State
  addressSpace : Option SpaceAddr

/-- The processes, and the reference counts of the address spaces. -/
structure SpaceHeap where
  processes : ProcessAddr → Option SpaceUser
  spaces : SpaceAddr → Option Int

namespace SpaceHeap

/-- No process and no address space. -/
def empty : SpaceHeap := ⟨fun _ => none, fun _ => none⟩

/-- The field `addressSpace` of the process at `p`. -/
def space (h : SpaceHeap) (p : ProcessAddr) : Option SpaceAddr :=
  (h.processes p).bind (·.addressSpace)

/-- The process at `p` is written or freed. -/
def setProcess (h : SpaceHeap) (p : ProcessAddr) (x : Option SpaceUser) : SpaceHeap :=
  { h with processes := Function.update h.processes p x }

/-- The address space at `s` is written or freed. -/
def setSpace (h : SpaceHeap) (s : SpaceAddr) (n : Option Int) : SpaceHeap :=
  { h with spaces := Function.update h.spaces s n }

/-- `addReference` of an address space. -/
def addReference (h : SpaceHeap) (s : SpaceAddr) : Option SpaceHeap := do
  let n ← h.spaces s
  pure (h.setSpace s (some (n + 1)))

/-- `addReference` unless the pointer is null. -/
def addReferenceNonNull (h : SpaceHeap) : Option SpaceAddr → Option SpaceHeap
  | none => some h
  | some s => h.addReference s

/-- `removeReference` of an address space. -/
def removeReference (h : SpaceHeap) (s : SpaceAddr) : Option SpaceHeap := do
  let n ← h.spaces s
  pure (h.setSpace s (some (n - 1)))

/-- The lines that the destructor, `exec` and `operator=` share: drop a reference and delete the
address space if its count has come to zero. -/
def leave (h : SpaceHeap) (s : SpaceAddr) : Option SpaceHeap := do
  let h ← h.removeReference s
  let count ← h.spaces s
  pure (if count ≤ 0 then h.setSpace s none else h)

/-- `new AddressSpace`, at the address `s`, in `createAddressSpace`. -/
def createAddressSpace (h : SpaceHeap) (s : SpaceAddr) : Option SpaceHeap :=
  if (h.spaces s).isSome then none else some (h.setSpace s (some 0))

/-- A constructor of `Process` at the address `p`. -/
def newProcess (h : SpaceHeap) (p : ProcessAddr) (x : SpaceUser) : Option SpaceHeap :=
  if (h.processes p).isSome then none
  else (h.setProcess p (some x)).addReferenceNonNull x.addressSpace

/-- `Process::Process()`. -/
def processDefault (h : SpaceHeap) (p : ProcessAddr) : Option SpaceHeap :=
  h.newProcess p ⟨.ACTIVE, none⟩

/-- `Process::Process(pid, parent, entry, stack, kernelStack, addressSpace)`, which `clone` calls
with the address space of the process. -/
def processIn (h : SpaceHeap) (p : ProcessAddr) (s : SpaceAddr) : Option SpaceHeap :=
  h.newProcess p ⟨.ACTIVE, some s⟩

/-- `Process::Process(other)`. -/
def processCopy (h : SpaceHeap) (p other : ProcessAddr) : Option SpaceHeap := do
  let y ← h.processes other
  h.newProcess p y

/-- `Process::~Process`, which follows the pointer to the address space without a test. -/
def destroy (h : SpaceHeap) (p : ProcessAddr) : Option SpaceHeap := do
  let x ← h.processes p
  let s ← x.addressSpace
  let h ← h.leave s
  pure (h.setProcess p none)

/-- `Process::exec`, with its status. -/
def exec (h : SpaceHeap) (p : ProcessAddr) (s : SpaceAddr) : Option (SpaceHeap × Int) := do
  let x ← h.processes p
  if x.state ≠ .ACTIVE then some (h, -1)
  else do
    let h ← match x.addressSpace with
      | none => some h
      | some old => h.leave old
    let h := h.setProcess p (some { x with addressSpace := some s })
    let h ← h.addReference s
    pure (h, 0)

/-- `Process::operator=`. -/
def assign (h : SpaceHeap) (p other : ProcessAddr) : Option SpaceHeap := do
  let x ← h.processes p
  let y ← h.processes other
  let h ← match x.addressSpace with
    | none => some h
    | some s => if y.addressSpace ≠ some s then h.leave s else some h
  (h.setProcess p (some y)).addReferenceNonNull y.addressSpace

/-- `Process::setState`. -/
def setState (h : SpaceHeap) (p : ProcessAddr) (state : State) : Option SpaceHeap := do
  let x ← h.processes p
  pure (h.setProcess p (some { x with state := state }))

end SpaceHeap

/-- What happens to processes and address spaces. -/
inductive SpaceOp where
  | createAddressSpace (s : SpaceAddr)
  | processDefault (p : ProcessAddr)
  | processIn (p : ProcessAddr) (s : SpaceAddr)
  | processCopy (p other : ProcessAddr)
  | assign (p other : ProcessAddr)
  | exec (p : ProcessAddr) (s : SpaceAddr)
  | destroy (p : ProcessAddr)
  | setState (p : ProcessAddr) (state : State)

namespace SpaceOp

/-- The operations that can be asked for: on processes and address spaces that exist, and with
addresses for new ones that are not in use. -/
def Allowed (h : SpaceHeap) : SpaceOp → Prop
  | .createAddressSpace s => h.spaces s = none
  | .processDefault p => h.processes p = none
  | .processIn p s => h.processes p = none ∧ h.spaces s ≠ none
  | .processCopy p other => h.processes p = none ∧ h.processes other ≠ none
  | .assign p other => h.processes p ≠ none ∧ h.processes other ≠ none
  | .exec p s => h.processes p ≠ none ∧ h.spaces s ≠ none
  | .destroy p => h.processes p ≠ none
  | .setState p _ => h.processes p ≠ none

/-- One operation. -/
def perform (h : SpaceHeap) : SpaceOp → Option SpaceHeap
  | .createAddressSpace s => h.createAddressSpace s
  | .processDefault p => h.processDefault p
  | .processIn p s => h.processIn p s
  | .processCopy p other => h.processCopy p other
  | .assign p other => h.assign p other
  | .exec p s => (h.exec p s).map Prod.fst
  | .destroy p => h.destroy p
  | .setState p state => h.setState p state

/-- The transition relation of the operations. -/
def Step (h : SpaceHeap) (op : SpaceOp) (h' : SpaceHeap) : Prop :=
  op.Allowed h ∧ op.perform h = some h'

/-- No assignment is between processes of one address space, no process goes into the address space
of which it is the only process, and no process is destroyed that has none. -/
def Sound (h : SpaceHeap) : SpaceOp → Prop
  | .assign p other => ∀ s, h.space p = some s → h.space other ≠ some s
  | .exec p s => (∀ x, h.processes p = some x → x.state ≠ .ACTIVE) ∨ h.space p ≠ some s ∨
      h.spaces s ≠ some 1
  | .destroy p => h.space p ≠ none
  | _ => True

end SpaceOp

namespace SpaceHeap

variable {h h' : SpaceHeap} {p : ProcessAddr} {s : SpaceAddr} {n : Int} {x y : SpaceUser}
  {op : SpaceOp}

/-- The reference count of every address space is the number of processes whose field refers to
it, and no field refers to a deleted one. -/
def SpacesCounted (h : SpaceHeap) : Prop := Tracks h.spaces h.space

/-- Exactly the address spaces are deleted that lose their last process. -/
def DeletedWithLast (h h' : SpaceHeap) : Prop := Frees h.spaces h.space h'.spaces h'.space

theorem empty_spacesCounted : SpacesCounted empty where
  finite a := by
    rw [show pointers empty.space a = ∅ from Set.eq_empty_of_forall_notMem fun p hp => nomatch hp]
    exact Set.finite_empty
  count_eq _ _ h := nomatch h
  alive _ _ h := nomatch h

@[simp]
theorem space_setProcess (h : SpaceHeap) (p : ProcessAddr) (x : Option SpaceUser) :
    (h.setProcess p x).space = Function.update h.space p (x.bind (·.addressSpace)) := by
  funext q
  by_cases hq : q = p
  · simp [space, setProcess, hq]
  · simp [space, setProcess, hq]

@[simp]
theorem space_setSpace (h : SpaceHeap) (s : SpaceAddr) (n : Option Int) :
    (h.setSpace s n).space = h.space := rfl

@[simp]
theorem spaces_setProcess (h : SpaceHeap) (p : ProcessAddr) (x : Option SpaceUser) :
    (h.setProcess p x).spaces = h.spaces := rfl

@[simp]
theorem spaces_setSpace (h : SpaceHeap) (s : SpaceAddr) (n : Option Int) :
    (h.setSpace s n).spaces = Function.update h.spaces s n := rfl

/-- What the shared lines do, when the process at `p` is the one that gives up its pointer. -/
theorem SpacesCounted.leave (hC : h.SpacesCounted) (hp : h.space p = some s)
    (hs : h.spaces s = some n) :
    h.leave s = some (h.setSpace s (release n)) ∧
      Tracks (h.setSpace s (release n)).spaces (Function.update h.space p none) ∧
      Frees h.spaces h.space (h.setSpace s (release n)).spaces
        (Function.update h.space p none) := by
  refine ⟨?_, Tracks.clear hC hp hs⟩
  unfold release
  split
  case isTrue hzero => simp [SpaceHeap.leave, removeReference, hs, hzero, setSpace]
  case isFalse hpos => simp [SpaceHeap.leave, removeReference, hs, hpos, setSpace]

/-- A process with the pointer of `x` is put where no pointer is counted. -/
theorem enter {r : SpaceAddr → Option Int} {f : ProcessAddr → Option SpaceAddr}
    (hT : Tracks h.spaces (Function.update h.space p none))
    (hF : Frees r f h.spaces (Function.update h.space p none))
    (halive : ∀ s, x.addressSpace = some s → h.spaces s ≠ none) :
    ∃ h', (h.setProcess p (some x)).addReferenceNonNull x.addressSpace = some h' ∧
      h'.SpacesCounted ∧ Frees r f h'.spaces h'.space := by
  cases hx : x.addressSpace with
  | none =>
      refine ⟨h.setProcess p (some x), rfl, ?_, ?_⟩
      · simpa [SpacesCounted, hx] using hT
      · simpa [hx] using hF
  | some s =>
      obtain ⟨n, hn⟩ := Option.ne_none_iff_exists'.1 (halive s hx)
      have hset := hT.set (Function.update_self p none h.space) hn
      have hfrees := hF.set (Function.update_self p none h.space) hn
      rw [Function.update_idem] at hset hfrees
      refine ⟨(h.setProcess p (some x)).setSpace s (some (n + 1)), ?_, ?_, ?_⟩
      · simp [addReferenceNonNull, addReference, hn]
      · simpa [SpacesCounted, hx] using hset
      · simpa [hx] using hfrees

/-- An operation goes through with the counts right, deleting what lost its last process. -/
def StepCounts (h : SpaceHeap) (op : SpaceOp) : Prop :=
  ∃ h', op.perform h = some h' ∧ h'.SpacesCounted ∧ h.DeletedWithLast h'

/-- Constructors count the new process. -/
theorem SpacesCounted.newProcess (hC : h.SpacesCounted) (hp : h.processes p = none)
    (halive : ∀ s, x.addressSpace = some s → h.spaces s ≠ none) :
    ∃ h', h.newProcess p x = some h' ∧ h'.SpacesCounted ∧ h.DeletedWithLast h' := by
  have hnone : h.space p = none := by simp [space, hp]
  have hupdate : Function.update h.space p none = h.space := by
    rw [← hnone, Function.update_eq_self]
  obtain ⟨h', hh', hcounted, hfrees⟩ := enter (h := h) (p := p) (x := x) (by rwa [hupdate])
    (by rw [hupdate]; exact Frees.refl h.spaces h.space) halive
  exact ⟨h', by simp [SpaceHeap.newProcess, hp, hh'], hcounted, hfrees⟩

theorem SpacesCounted.addressSpace_alive (hC : h.SpacesCounted) (hx : h.processes p = some x)
    (s : SpaceAddr) (hs : x.addressSpace = some s) : h.spaces s ≠ none :=
  hC.alive p s (by simp [space, hx, hs])

/-- Moving to another address space drops the old one and counts the new one. -/
theorem SpacesCounted.move (hC : h.SpacesCounted) (hx : h.processes p = some x)
    (hs : x.addressSpace = some s) (hn : h.spaces s = some n)
    (hy : ∀ b, y.addressSpace = some b → h.spaces b ≠ none ∧ (b = s → n ≠ 1)) :
    ∃ h', ((h.setSpace s (release n)).setProcess p (some y)).addReferenceNonNull y.addressSpace =
        some h' ∧ h'.SpacesCounted ∧ h.DeletedWithLast h' := by
  have hp : h.space p = some s := by simp [space, hx, hs]
  obtain ⟨-, hT, hF⟩ := hC.leave hp hn
  refine enter (h := h.setSpace s (release n)) hT hF fun b hb => ?_
  obtain ⟨halive, hown⟩ := hy b hb
  by_cases hbs : b = s
  · -- the process is not the only one of its address space
    have hcount := hC.count_eq s n hn
    have hpos : 0 < (pointers h.space s).ncard :=
      (Set.ncard_pos (hC.finite s)).2 ⟨p, hp⟩
    have hne := hown hbs
    simp only [spaces_setSpace, hbs, Function.update_self, release]
    rw [if_neg (by omega)]
    exact Option.some_ne_none _
  · simpa [hbs] using halive

/-- Rewriting a process with its own address space changes no count. -/
theorem SpacesCounted.setProcess_self (hC : h.SpacesCounted) (hx : h.processes p = some x)
    (hy : y.addressSpace = x.addressSpace) :
    (h.setProcess p (some y)).SpacesCounted ∧ h.DeletedWithLast (h.setProcess p (some y)) := by
  have hspace : (h.setProcess p (some y)).space = h.space := by
    rw [space_setProcess]
    refine Function.update_eq_self_iff.2 ?_
    simp [space, hx, hy]
  refine ⟨?_, ?_⟩
  · rw [SpacesCounted, hspace]
    exact hC
  · rw [DeletedWithLast, hspace]
    exact Frees.refl h.spaces h.space

theorem SpacesCounted.create (hC : h.SpacesCounted) (hs : h.spaces s = none) :
    h.StepCounts (.createAddressSpace s) := by
  refine ⟨h.setSpace s (some 0), by simp [SpaceOp.perform, createAddressSpace, hs],
    Tracks.create hC hs, fun b hb => ?_⟩
  have hbs : b ≠ s := fun heq => hb (heq ▸ hs)
  simpa [hbs] using Frees.refl h.spaces h.space b hb

/-- A process with no address space takes the one of `y`. -/
theorem SpacesCounted.enterFirst (hC : h.SpacesCounted) (hp : h.space p = none)
    (halive : ∀ s, y.addressSpace = some s → h.spaces s ≠ none) :
    ∃ h', (h.setProcess p (some y)).addReferenceNonNull y.addressSpace = some h' ∧
      h'.SpacesCounted ∧ h.DeletedWithLast h' := by
  have hupdate : Function.update h.space p none = h.space := by
    rw [← hp, Function.update_eq_self]
  exact enter (by rwa [hupdate]) (by rw [hupdate]; exact Frees.refl h.spaces h.space) halive

theorem assign_counts_iff {other : ProcessAddr} (hC : h.SpacesCounted)
    (hx : h.processes p = some x) (hy : h.processes other = some y) :
    h.StepCounts (.assign p other) ↔ SpaceOp.Sound h (.assign p other) := by
  have hspace : h.space p = x.addressSpace := by simp [space, hx]
  have hspace' : h.space other = y.addressSpace := by simp [space, hy]
  have halive := hC.addressSpace_alive hy
  simp only [StepCounts, SpaceOp.perform, SpaceOp.Sound, assign, hx, hy, hspace, hspace',
    Option.bind_eq_bind, Option.bind_some]
  cases hs : x.addressSpace with
  | none =>
      refine iff_of_true ?_ fun s hnone => nomatch hnone
      exact hC.enterFirst (hspace.trans hs) halive
  | some s =>
      obtain ⟨n, hn⟩ := Option.ne_none_iff_exists'.1 (hC.addressSpace_alive hx s hs)
      by_cases hsame : y.addressSpace = some s
      · -- the process keeps its pointer, which is counted a second time
        refine iff_of_false ?_ fun hsound => hsound s rfl hsame
        intro ⟨h', hh', hcounted, _⟩
        simp only [hsame, ne_eq, not_true_eq_false, if_false, Option.bind_some,
          addReferenceNonNull, addReference, spaces_setProcess, hn, Option.pure_def,
          Option.bind_eq_bind, Option.some.injEq] at hh'
        subst hh'
        have hcount := hcounted.count_eq s (n + 1) (by simp)
        have hfield : Function.update h.space p (some s) = h.space :=
          Function.update_eq_self_iff.2 (hspace.trans hs).symm
        rw [space_setSpace, space_setProcess, Option.bind_some, hsame, hfield,
          ← hC.count_eq s n hn] at hcount
        omega
      · refine iff_of_true ?_ fun b hb => ?_
        · simp only [ne_eq, hsame, not_false_eq_true, if_true,
            (hC.leave (hspace.trans hs) hn).1, Option.bind_some]
          exact hC.move hx hs hn fun b hb => ⟨halive b hb, fun hbs => absurd (hbs ▸ hb) hsame⟩
        · obtain rfl := Option.some.inj hb
          exact hsame

theorem exec_counts_iff (hC : h.SpacesCounted) (hx : h.processes p = some x)
    (halive : h.spaces s ≠ none) :
    h.StepCounts (.exec p s) ↔ SpaceOp.Sound h (.exec p s) := by
  have hspace : h.space p = x.addressSpace := by simp [space, hx]
  simp only [StepCounts, SpaceOp.perform, SpaceOp.Sound, exec, hx, hspace, Option.bind_eq_bind,
    Option.bind_some]
  by_cases hstate : x.state = .ACTIVE
  case neg =>
    refine iff_of_true ⟨h, by simp [hstate], hC, Frees.refl h.spaces h.space⟩ (.inl ?_)
    intro y hy
    obtain rfl := Option.some.inj hy
    exact hstate
  case pos =>
    have hinactive : ¬ ∀ y, some x = some y → y.state ≠ .ACTIVE := fun hall => hall x rfl hstate
    have hgo : ¬ x.state ≠ .ACTIVE := not_not_intro hstate
    simp only [if_neg hgo, hinactive, false_or]
    cases hs : x.addressSpace with
    | none =>
        refine iff_of_true ?_ (.inl nofun)
        obtain ⟨h', hh', hrest⟩ := hC.enterFirst (y := { x with addressSpace := some s })
          (hspace.trans hs) fun b hb => Option.some.inj hb ▸ halive
        refine ⟨h', ?_, hrest⟩
        have hadd : (h.setProcess p (some { x with addressSpace := some s })).addReference s =
            some h' := hh'
        simp [hadd]
    | some old =>
        obtain ⟨n, hn⟩ := Option.ne_none_iff_exists'.1 (hC.addressSpace_alive hx old hs)
        simp only [(hC.leave (hspace.trans hs) hn).1, Option.bind_some]
        by_cases hlast : old = s ∧ n = 1
        · -- the address space is deleted before it is referred to again
          obtain ⟨rfl, rfl⟩ := hlast
          refine iff_of_false ?_ (by simp [hn])
          intro ⟨h', hh', _⟩
          simp [addReference, release] at hh'
        · refine iff_of_true ?_ ?_
          · obtain ⟨h', hh', hrest⟩ := hC.move (y := { x with addressSpace := some s }) hx hs hn
              fun b hb => by
                obtain rfl := Option.some.inj hb
                exact ⟨halive, fun hbs hone => hlast ⟨hbs.symm, hone⟩⟩
            refine ⟨h', ?_, hrest⟩
            have hadd : ((h.setSpace old (release n)).setProcess p
                (some { x with addressSpace := some s })).addReference s = some h' := hh'
            simp [hadd]
          · by_cases hold : old = s
            · refine .inr fun hone => hlast ⟨hold, ?_⟩
              rw [← hold, hn] at hone
              exact Option.some.inj hone
            · exact .inl fun heq => hold (Option.some.inj heq)

theorem destroy_counts_iff (hC : h.SpacesCounted) (hx : h.processes p = some x) :
    h.StepCounts (.destroy p) ↔ SpaceOp.Sound h (.destroy p) := by
  have hspace : h.space p = x.addressSpace := by simp [space, hx]
  simp only [StepCounts, SpaceOp.perform, SpaceOp.Sound, destroy, hx, hspace, Option.bind_eq_bind,
    Option.bind_some]
  cases hs : x.addressSpace with
  | none => simp
  | some s =>
      obtain ⟨n, hn⟩ := Option.ne_none_iff_exists'.1 (hC.addressSpace_alive hx s hs)
      obtain ⟨hleave, hT, hF⟩ := hC.leave (hspace.trans hs) hn
      refine iff_of_true ⟨(h.setSpace s (release n)).setProcess p none, by simp [hleave], ?_, ?_⟩
        (Option.some_ne_none s)
      · simpa [SpacesCounted] using hT
      · simpa [DeletedWithLast] using hF

/-- An allowed operation keeps the counts right exactly if it is sound. -/
theorem SpacesCounted.step_counts_iff (hC : h.SpacesCounted) (hop : op.Allowed h) :
    h.StepCounts op ↔ op.Sound h := by
  cases op with
  | createAddressSpace s => exact iff_of_true (hC.create hop) trivial
  | processDefault p => exact iff_of_true (hC.newProcess hop nofun) trivial
  | processIn p s =>
      refine iff_of_true (hC.newProcess hop.1 fun b hb => ?_) trivial
      exact Option.some.inj hb ▸ hop.2
  | processCopy p other =>
      obtain ⟨y, hy⟩ := Option.ne_none_iff_exists'.1 hop.2
      obtain ⟨h', hh', hrest⟩ := hC.newProcess hop.1 (hC.addressSpace_alive hy)
      exact iff_of_true ⟨h', by simp [SpaceOp.perform, processCopy, hy, hh'], hrest⟩ trivial
  | assign p other =>
      obtain ⟨x, hx⟩ := Option.ne_none_iff_exists'.1 hop.1
      obtain ⟨y, hy⟩ := Option.ne_none_iff_exists'.1 hop.2
      exact assign_counts_iff hC hx hy
  | exec p s =>
      obtain ⟨x, hx⟩ := Option.ne_none_iff_exists'.1 hop.1
      exact exec_counts_iff hC hx hop.2
  | destroy p =>
      obtain ⟨x, hx⟩ := Option.ne_none_iff_exists'.1 hop
      exact destroy_counts_iff hC hx
  | setState p state =>
      obtain ⟨x, hx⟩ := Option.ne_none_iff_exists'.1 hop
      refine iff_of_true ⟨_, ?_, hC.setProcess_self (y := { x with state := state }) hx rfl⟩ trivial
      simp [SpaceOp.perform, SpaceHeap.setState, hx]

/-- In every run of sound operations the reference counts are right in each state reached, and the
next operation goes through, keeps them right and deletes exactly the address spaces that lose
their last process, if and only if it is sound. -/
theorem spaces_counted {ops : List SpaceOp}
    (hrun : Run (Guarded (fun h op => op.Sound h) SpaceOp.Step) empty ops h) :
    h.SpacesCounted ∧ ∀ op : SpaceOp, op.Allowed h → (h.StepCounts op ↔ op.Sound h) := by
  have hstep : ∀ h op h', SpacesCounted h → Guarded (fun h op => op.Sound h) SpaceOp.Step h op h' →
      h'.SpacesCounted := by
    intro h op h' hC hguarded
    obtain ⟨hsound, hallowed, hperform⟩ := hguarded
    obtain ⟨h'', hh'', hC', -⟩ := (hC.step_counts_iff hallowed).2 hsound
    obtain rfl := Option.some.inj (hh''.symm.trans hperform)
    exact hC'
  have hC : h.SpacesCounted := hrun.invariant empty_spacesCounted hstep
  exact ⟨hC, fun op hop => hC.step_counts_iff hop⟩

/-- A process is cloned, and the clone goes to an address space of its own. -/
theorem spaces_counted_clone :
    ∃ h, Run (Guarded (fun h op => op.Sound h) SpaceOp.Step) empty
        [.createAddressSpace 0, .processIn 0 0, .processIn 1 0, .createAddressSpace 1,
          .exec 1 1] h ∧
      h.SpacesCounted ∧ ∀ op : SpaceOp, op.Allowed h → (h.StepCounts op ↔ op.Sound h) := by
  have hrun : Run (Guarded (fun h op => op.Sound h) SpaceOp.Step) empty
      [.createAddressSpace 0, .processIn 0 0, .processIn 1 0, .createAddressSpace 1, .exec 1 1] _ :=
    .cons ⟨trivial, rfl, rfl⟩ <| .cons ⟨trivial, ⟨rfl, Option.some_ne_none _⟩, rfl⟩ <|
    .cons ⟨trivial, ⟨rfl, Option.some_ne_none _⟩, rfl⟩ <| .cons ⟨trivial, rfl, rfl⟩ <|
    .single ⟨.inr (.inl (by decide)), ⟨Option.some_ne_none _, Option.some_ne_none _⟩, rfl⟩
  exact ⟨_, hrun, spaces_counted hrun⟩

/-- A process is copied and then assigned its copy. Two processes refer to the address space, whose
reference count is 3. -/
theorem assign_counts_twice :
    ¬ ∀ (ops : List SpaceOp) (h : SpaceHeap), Run SpaceOp.Step empty ops h → h.SpacesCounted := by
  intro hall
  have hrun : Run SpaceOp.Step empty
      [.createAddressSpace 0, .processIn 0 0, .processCopy 1 0, .assign 0 1] _ :=
    .cons ⟨rfl, rfl⟩ <| .cons ⟨⟨rfl, Option.some_ne_none _⟩, rfl⟩ <|
    .cons ⟨⟨rfl, Option.some_ne_none _⟩, rfl⟩ <|
    .single ⟨⟨Option.some_ne_none _, Option.some_ne_none _⟩, rfl⟩
  have hcount := (hall _ _ hrun).count_eq 0 3 rfl
  have hempty : pointers empty.space 0 = ∅ :=
    Set.eq_empty_of_forall_notMem fun p hp => nomatch hp
  simp only [space_setSpace, space_setProcess, Option.bind_some, pointers_update_self, hempty]
    at hcount
  have htwo : (insert 0 (insert 1 (insert 0 ∅)) : Set ProcessAddr) = {0, 1} := by
    rw [Set.insert_comm, insert_empty_eq, Set.pair_eq_singleton, Set.pair_comm]
  rw [htwo, Set.ncard_pair (by decide)] at hcount
  cases hcount

end SpaceHeap

end CrosKernel.Sched
