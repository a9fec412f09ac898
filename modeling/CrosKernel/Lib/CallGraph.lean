import Mathlib.Data.Fintype.EquivFin
import Mathlib.Data.Set.Finite.Lattice
import Mathlib.Logic.Relation
import Mathlib.Order.WellFounded

/-!
# Recursion over a graph of calls

A recursion that runs on fuel, described by the calls that each argument makes. With enough fuel it
returns exactly when no infinite sequence of calls starts at its argument, and when the calls stay
in a finite set that means that no argument is reached from itself.
-/

namespace CrosKernel.Lib

open Relation

variable {α : Type*} {returns ready : Nat → α → Prop} {calls : α → α → Prop} {x y : α} {m n : Nat}

/-- No argument that is reached from `x` is reached from itself. -/
def AcyclicFrom (calls : α → α → Prop) (x : α) : Prop :=
  ∀ y, ReflTransGen calls x y → ¬ TransGen calls y y

/-- `returns n x` says of a recursion that it returns for `x` on the fuel `n`: it takes what
`ready n x` says, and all calls that `x` makes return on the fuel that is left. -/
structure IsRecursion (returns ready : Nat → α → Prop) (calls : α → α → Prop) : Prop where
  zero : ∀ x, ¬ returns 0 x
  succ : ∀ n x, returns (n + 1) x ↔ ready n x ∧ ∀ y, calls x y → returns n y
  mono : ∀ n x, ready n x → ready (n + 1) x
  finite : ∀ x, {y | calls x y}.Finite

namespace IsRecursion

theorem ready_of_le (h : IsRecursion returns ready calls) (hready : ready m x) (hle : m ≤ n) :
    ready n x := by
  induction n, hle using Nat.le_induction with
  | base => exact hready
  | succ n _ ih => exact h.mono n x ih

/-- More fuel does not hurt. -/
theorem returns_of_le (h : IsRecursion returns ready calls) (hreturns : returns m x) (hle : m ≤ n) :
    returns n x := by
  induction m generalizing n x with
  | zero => exact absurd hreturns (h.zero x)
  | succ m ih =>
      obtain ⟨k, rfl⟩ : ∃ k, n = k + 1 := ⟨n - 1, by omega⟩
      obtain ⟨hready, hcalls⟩ := (h.succ m x).1 hreturns
      have hmk : m ≤ k := Nat.le_of_succ_le_succ hle
      exact (h.succ k x).2 ⟨h.ready_of_le hready hmk, fun y hy => ih (hcalls y hy) hmk⟩

/-- One fuel is enough for finitely many calls. -/
theorem exists_returns_of_calls (h : IsRecursion returns ready calls)
    (hcalls : ∀ y, calls x y → ∃ n, returns n y) : ∃ n, ∀ y, calls x y → returns n y := by
  choose fuel hfuel using hcalls
  have hbounded : (Set.range fun y : {y | calls x y} => fuel y y.2).Finite := by
    have hfinite : Finite {y | calls x y} := h.finite x
    exact Set.finite_range _
  obtain ⟨n, hn⟩ := hbounded.bddAbove
  exact ⟨n, fun y hy => h.returns_of_le (hfuel y hy) (hn ⟨⟨y, hy⟩, rfl⟩)⟩

/-- A recursion returns on some fuel exactly when no infinite sequence of calls starts at its
argument and every argument on the way is ready. -/
theorem exists_returns_iff (h : IsRecursion returns ready calls) :
    (∃ n, returns n x) ↔
      Acc (flip calls) x ∧ ∀ y, ReflTransGen calls x y → ∃ n, ready n y := by
  constructor
  · rintro ⟨n, hn⟩
    induction n generalizing x with
    | zero => exact absurd hn (h.zero x)
    | succ n ih =>
        obtain ⟨hready, hcalls⟩ := (h.succ n x).1 hn
        refine ⟨⟨x, fun y hy => (ih (hcalls y hy)).1⟩, fun y hxy => ?_⟩
        rcases hxy.cases_head with rfl | ⟨z, hxz, hzy⟩
        · exact ⟨n, hready⟩
        · exact (ih (hcalls z hxz)).2 y hzy
  · rintro ⟨hacc, hready⟩
    induction hacc with
    | intro x _ ih =>
        have hcalls : ∀ y, calls x y → ∃ n, returns n y := fun y hy =>
          ih y hy fun z hz => hready z (.head hy hz)
        obtain ⟨m, hm⟩ := hready x .refl
        obtain ⟨n, hn⟩ := h.exists_returns_of_calls hcalls
        refine ⟨max m n + 1, (h.succ _ x).2 ⟨h.ready_of_le hm (le_max_left m n), fun y hy => ?_⟩⟩
        exact h.returns_of_le (hn y hy) (le_max_right m n)

end IsRecursion

/-- Later elements of a sequence of calls are reached from the earlier ones. -/
theorem transGen_of_lt {f : Nat → α} (hf : ∀ n, calls (f n) (f (n + 1))) (hlt : m < n) :
    TransGen calls (f m) (f n) := by
  induction n, hlt using Nat.le_induction with
  | base => exact .single (hf m)
  | succ n _ ih => exact ih.tail (hf n)

/-- When the calls stay in a finite set, an infinite sequence of calls visits an argument twice. -/
theorem acc_iff_acyclicFrom {s : Set α} (hs : s.Finite) (hcalls : ∀ x y, calls x y → y ∈ s) :
    Acc (flip calls) x ↔ AcyclicFrom calls x := by
  constructor
  · intro hacc
    induction hacc with
    | intro x _ ih =>
        intro y hxy hyy
        rcases hxy.cases_head with rfl | ⟨z, hxz, hzy⟩
        · -- the first call on the way around is itself reached from itself
          obtain ⟨z, hxz, hzx⟩ := TransGen.head'_iff.1 hyy
          exact ih z hxz z .refl (TransGen.tail' hzx hxz)
        · exact ih z hxz y hzy hyy
  · intro hacyclic
    by_contra hacc
    obtain ⟨f, rfl, hstep⟩ := not_acc_iff_exists_descending_chain.1 hacc
    have hmem : ∀ n, f (n + 1) ∈ s := fun n => hcalls (f n) (f (n + 1)) (hstep n)
    obtain ⟨m, n, hne, heq⟩ : ∃ m n, m ≠ n ∧ f (m + 1) = f (n + 1) := by
      by_contra hinj
      refine Set.infinite_of_injective_forall_mem (f := fun n => f (n + 1)) ?_ hmem hs
      intro m n heq
      by_contra hne
      exact hinj ⟨m, n, hne, heq⟩
    have hreach : ReflTransGen calls (f 0) (f (m + 1)) :=
      (transGen_of_lt hstep m.succ_pos).to_reflTransGen
    rcases Nat.lt_or_gt_of_ne hne with hlt | hgt
    · have hloop := transGen_of_lt hstep (Nat.succ_lt_succ hlt)
      exact hacyclic _ hreach (heq ▸ hloop)
    · have hloop := transGen_of_lt hstep (Nat.succ_lt_succ hgt)
      exact hacyclic _ hreach (heq ▸ hloop)

end CrosKernel.Lib
