import Mathlib.Data.Multiset.Count
import Mathlib.Logic.Function.Basic

/-!
# Reference counts

Objects with a counter of the references to them, freed when the counter drops to zero.
`Counts r M` says that the references are the multiset `M`: every object that is alive is referred
to, its counter is the number of references, and no reference is one to a freed object. The lemmas
follow the three things that can happen to a reference.
-/

namespace CrosKernel.Lib

variable {α : Type*} [DecidableEq α]

/-- The counters `r` of the objects that are alive count the references `M`. -/
structure Counts (r : α → Option Int) (M : Multiset α) : Prop where
  count_eq : ∀ a n, r a = some n → n = M.count a
  mem_of_alive : ∀ a n, r a = some n → a ∈ M
  alive : ∀ a ∈ M, ∃ n, r a = some n

/-- The counter after a reference to `a` is dropped: an object that nothing refers to is freed. -/
def release (n : Int) : Option Int := if n - 1 ≤ 0 then none else some (n - 1)

namespace Counts

variable {r : α → Option Int} {M : Multiset α} {a : α} {n : Int}

omit [DecidableEq α] in
/-- No object is alive and none is referred to. -/
theorem empty [DecidableEq α] : Counts (fun _ : α => none) 0 where
  count_eq _ _ h := nomatch h
  mem_of_alive _ _ h := nomatch h
  alive _ h := absurd h (Multiset.notMem_zero _)

theorem not_mem (h : Counts r M) (ha : r a = none) : a ∉ M := by
  intro hmem
  obtain ⟨n, hn⟩ := h.alive a hmem
  rw [ha] at hn
  cases hn

/-- One more reference to an object, with a counter that counts it. -/
theorem add (h : Counts r M) (hn : n = M.count a + 1) :
    Counts (Function.update r a (some n)) (a ::ₘ M) where
  count_eq b m hb := by
    by_cases hab : b = a
    · subst hab
      rw [Function.update_self, Option.some.injEq] at hb
      rw [← hb, hn, Multiset.count_cons_self]
      push_cast
      rfl
    · rw [Function.update_of_ne hab] at hb
      rw [Multiset.count_cons_of_ne hab]
      exact h.count_eq b m hb
  mem_of_alive b m hb := by
    by_cases hab : b = a
    · exact hab ▸ Multiset.mem_cons_self a M
    · rw [Function.update_of_ne hab] at hb
      exact Multiset.mem_cons_of_mem (h.mem_of_alive b m hb)
  alive b hb := by
    by_cases hab : b = a
    · exact ⟨n, by rw [hab, Function.update_self]⟩
    · rw [Function.update_of_ne hab]
      exact h.alive b ((Multiset.mem_cons.1 hb).resolve_left hab)

/-- The first reference to a new object. -/
theorem create (h : Counts r M) (ha : r a = none) :
    Counts (Function.update r a (some 1)) (a ::ₘ M) :=
  h.add (by simp [Multiset.count_eq_zero.2 (h.not_mem ha)])

/-- A further reference to an object that is alive. -/
theorem acquire (h : Counts r M) (ha : r a = some n) :
    Counts (Function.update r a (some (n + 1))) (a ::ₘ M) :=
  h.add (by rw [h.count_eq a n ha])

/-- Dropping a reference. The object is freed with its last reference only. -/
theorem drop (h : Counts r (a ::ₘ M)) (ha : r a = some n) :
    Counts (Function.update r a (release n)) M := by
  have hn : n = M.count a + 1 := by
    have hcount := h.count_eq a n ha
    rw [Multiset.count_cons_self] at hcount
    exact_mod_cast hcount
  have hrelease : release n = if a ∈ M then some (M.count a : Int) else none := by
    by_cases hmem : a ∈ M
    · have hpos : 0 < M.count a := Multiset.count_pos.2 hmem
      rw [release, if_neg (by omega), if_pos hmem]
      simp [hn]
    · have hzero : M.count a = 0 := Multiset.count_eq_zero.2 hmem
      rw [release, if_pos (by omega), if_neg hmem]
  refine ⟨fun b m hb => ?_, fun b m hb => ?_, fun b hb => ?_⟩
  · by_cases hab : b = a
    · subst hab
      rw [Function.update_self, hrelease] at hb
      split at hb
      · exact (Option.some.inj hb).symm
      · cases hb
    · rw [Function.update_of_ne hab] at hb
      rw [h.count_eq b m hb, Multiset.count_cons_of_ne hab]
  · by_cases hab : b = a
    · subst hab
      rw [Function.update_self, hrelease] at hb
      split at hb
      · assumption
      · cases hb
    · rw [Function.update_of_ne hab] at hb
      exact (Multiset.mem_cons.1 (h.mem_of_alive b m hb)).resolve_left hab
  · by_cases hab : b = a
    · subst hab
      exact ⟨_, by rw [Function.update_self, hrelease, if_pos hb]⟩
    · rw [Function.update_of_ne hab]
      exact h.alive b (Multiset.mem_cons_of_mem hb)

end Counts

end CrosKernel.Lib
