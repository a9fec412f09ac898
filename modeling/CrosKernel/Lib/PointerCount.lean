import Mathlib.Data.Set.Card
import Mathlib.Logic.Function.Basic
import CrosKernel.Lib.RefCount

/-!
# Counted pointers

Objects of type `α` with a counter each, and holders of type `ι` that have one pointer, maybe null,
to such an object. `Tracks r f` says that the counters `r` of the objects that are alive are the
numbers of holders that point to them by `f`, and that no pointer dangles. Unlike for `Counts`, an
object may be alive before the first pointer to it is taken. A pointer changes by `Tracks.clear` and
`Tracks.set`; `Frees` says of such a change that it frees the objects that lose their last pointer.
-/

namespace CrosKernel.Lib

variable {ι α : Type*} {r r' : α → Option Int} {f f' : ι → Option α} {p : ι} {a b : α} {n : Int}

/-- The holders that point to `a`. -/
def pointers (f : ι → Option α) (a : α) : Set ι := {p | f p = some a}

@[simp]
theorem mem_pointers : p ∈ pointers f a ↔ f p = some a := Iff.rfl

/-- The counters `r` of the objects that are alive count the pointers `f`, and no pointer dangles.
-/
structure Tracks (r : α → Option Int) (f : ι → Option α) : Prop where
  finite : ∀ a, (pointers f a).Finite
  count_eq : ∀ a n, r a = some n → n = (pointers f a).ncard
  alive : ∀ p a, f p = some a → r a ≠ none

/-- Between the two states exactly the objects were freed that lost their last pointer. -/
def Frees (r : α → Option Int) (f : ι → Option α) (r' : α → Option Int) (f' : ι → Option α) :
    Prop :=
  ∀ a, r a ≠ none → (r' a = none ↔ (pointers f a).Nonempty ∧ pointers f' a = ∅)

theorem Frees.refl (r : α → Option Int) (f : ι → Option α) : Frees r f r f := by
  intro a ha
  refine iff_of_false ha fun h => ?_
  exact h.1.ne_empty h.2

section Update

variable [DecidableEq ι]

theorem pointers_update_none (p : ι) (a : α) :
    pointers (Function.update f p none) a = pointers f a \ {p} := by
  ext q
  by_cases hq : q = p
  · simp [hq]
  · simp [hq]

theorem pointers_update_self (p : ι) (a : α) :
    pointers (Function.update f p (some a)) a = insert p (pointers f a) := by
  ext q
  by_cases hq : q = p
  · simp [hq]
  · simp [hq]

theorem pointers_update_of_ne (hp : f p = none) (hab : a ≠ b) :
    pointers (Function.update f p (some b)) a = pointers f a := by
  ext q
  by_cases hq : q = p
  · simp [hq, hp, hab.symm]
  · simp [hq]

end Update

namespace Tracks

variable [DecidableEq α]

/-- A new object. -/
theorem create (h : Tracks r f) (ha : r a = none) : Tracks (Function.update r a (some 0)) f where
  finite := h.finite
  count_eq b m hb := by
    by_cases hab : b = a
    · subst hab
      rw [Function.update_self, Option.some.injEq] at hb
      have hempty : pointers f b = ∅ :=
        Set.eq_empty_of_forall_notMem fun p hp => h.alive p b hp ha
      simp [← hb, hempty]
    · rw [Function.update_of_ne hab] at hb
      exact h.count_eq b m hb
  alive p b hb := by
    by_cases hab : b = a
    · simp [hab]
    · rw [Function.update_of_ne hab]
      exact h.alive p b hb

variable [DecidableEq ι]

/-- A holder without a pointer takes one to a living object. -/
theorem set (h : Tracks r f) (hp : f p = none) (ha : r a = some n) :
    Tracks (Function.update r a (some (n + 1))) (Function.update f p (some a)) where
  finite b := by
    by_cases hab : b = a
    · rw [hab, pointers_update_self]
      exact (h.finite a).insert p
    · rw [pointers_update_of_ne hp hab]
      exact h.finite b
  count_eq b m hb := by
    by_cases hab : b = a
    · subst hab
      rw [Function.update_self, Option.some.injEq] at hb
      have hnot : p ∉ pointers f b := by simp [hp]
      rw [pointers_update_self, Set.ncard_insert_of_notMem hnot (h.finite b), ← hb,
        h.count_eq b n ha]
      push_cast
      rfl
    · rw [Function.update_of_ne hab] at hb
      rw [pointers_update_of_ne hp hab]
      exact h.count_eq b m hb
  alive q b hq := by
    by_cases hab : b = a
    · simp [hab]
    · rw [Function.update_of_ne hab]
      by_cases hqp : q = p
      · simp [hqp, Ne.symm hab] at hq
      · exact h.alive q b (by simpa [hqp] using hq)

/-- A holder gives up its pointer. The object is freed with its last pointer only. -/
theorem clear (h : Tracks r f) (hp : f p = some a) (ha : r a = some n) :
    Tracks (Function.update r a (release n)) (Function.update f p none) ∧
      Frees r f (Function.update r a (release n)) (Function.update f p none) := by
  have hn : n = (pointers f a \ {p}).ncard + 1 := by
    rw [h.count_eq a n ha, ← Set.ncard_sdiff_singleton_add_one (mem_pointers.2 hp) (h.finite a)]
    push_cast
    rfl
  have hfree : release n = none ↔ pointers f a \ {p} = ∅ := by
    rw [← Set.ncard_eq_zero ((h.finite a).sdiff), release]
    split <;> simp <;> omega
  have hother : ∀ {b}, b ≠ a → pointers f b \ {p} = pointers f b := by
    intro b hab
    refine Set.sdiff_singleton_eq_self fun hmem => hab ?_
    exact Option.some.inj (hmem.symm.trans hp)
  refine ⟨⟨fun b => ?_, fun b m hb => ?_, fun q b hq => ?_⟩, fun b hb => ?_⟩
  · rw [pointers_update_none]
    exact (h.finite b).sdiff
  · rw [pointers_update_none]
    by_cases hab : b = a
    · subst hab
      rw [Function.update_self, release] at hb
      split at hb
      · cases hb
      · cases hb
        omega
    · rw [Function.update_of_ne hab] at hb
      rw [hother hab]
      exact h.count_eq b m hb
  · have hqp : q ≠ p := fun heq => by simp [heq] at hq
    rw [Function.update_of_ne hqp] at hq
    by_cases hab : b = a
    · subst hab
      rw [Function.update_self, Ne, hfree]
      exact Set.Nonempty.ne_empty ⟨q, hq, hqp⟩
    · rw [Function.update_of_ne hab]
      exact h.alive q b hq
  · rw [pointers_update_none]
    by_cases hab : b = a
    · subst hab
      rw [Function.update_self, hfree]
      exact ⟨fun hempty => ⟨⟨p, hp⟩, hempty⟩, And.right⟩
    · rw [Function.update_of_ne hab, hother hab]
      exact Frees.refl r f b hb

end Tracks

/-- Taking a further pointer frees nothing. -/
theorem Frees.set [DecidableEq α] [DecidableEq ι] (h : Frees r f r' f')
    (hp : f' p = none) (ha : r' a = some n) :
    Frees r f (Function.update r' a (some (n + 1))) (Function.update f' p (some a)) := by
  intro b hb
  by_cases hab : b = a
  · subst hab
    rw [pointers_update_self]
    exact iff_of_false (by simp) fun hlast => (Set.insert_nonempty p _).ne_empty hlast.2
  · rw [Function.update_of_ne hab, pointers_update_of_ne hp hab]
    exact h b hb

end CrosKernel.Lib
