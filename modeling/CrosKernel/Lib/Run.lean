import Mathlib.Data.List.Basic
import Mathlib.Order.Basic

/-!
# Runs of a labelled transition relation

`Run step s as s'` is a finite execution: performing the actions `as` in order leads from `s`
to `s'`. `Run.invariant` is the induction that every safety result uses, and `Guarded` is the
sub-relation of the steps that satisfy a side condition on the state before the step.
-/

namespace CrosKernel.Lib

variable {σ α : Type*}

/-- `Run step s as s'` says the actions `as` performed in order can lead from `s` to `s'`. -/
inductive Run (step : σ → α → σ → Prop) : σ → List α → σ → Prop where
  | nil (s) : Run step s [] s
  | cons {s s' s'' : σ} {a : α} {as : List α} :
      step s a s' → Run step s' as s'' → Run step s (a :: as) s''

/-- The steps whose action is admissible, by `ok`, in the state they start from. -/
def Guarded (ok : σ → α → Prop) (step : σ → α → σ → Prop) : σ → α → σ → Prop :=
  fun s a s' => ok s a ∧ step s a s'

namespace Run

variable {step : σ → α → σ → Prop} {s s' s'' : σ} {a : α} {as bs : List α}

/-- A single step is a run of one action. -/
theorem single (h : step s a s') : Run step s [a] s' :=
  .cons h (.nil _)

/-- Runs compose. -/
theorem append (h : Run step s as s') (h' : Run step s' bs s'') : Run step s (as ++ bs) s'' := by
  induction h with
  | nil => exact h'
  | cons hstep _ ih => exact .cons hstep (ih h')

/-- A run is a run of every larger relation. -/
theorem mono {step' : σ → α → σ → Prop} (h : Run step s as s')
    (hstep : ∀ s a s', step s a s' → step' s a s') : Run step' s as s' := by
  induction h with
  | nil => exact .nil _
  | cons h _ ih => exact .cons (hstep _ _ _ h) ih

/-- A property that holds at the start and is kept by every step holds at the end of a run. -/
theorem invariant {inv : σ → Prop} (h : Run step s as s') (hinit : inv s)
    (hstep : ∀ s a s', inv s → step s a s' → inv s') : inv s' := by
  induction h with
  | nil => exact hinit
  | cons h _ ih => exact ih (hstep _ _ _ hinit h)

/-- Simulation along a run: when every step of the first relation is matched by a step of the
second one under the same action, every run is matched by a run. -/
theorem simulation {τ : Type*} {step' : τ → α → τ → Prop} {rel : σ → τ → Prop} {t : τ}
    (h : Run step s as s') (hinit : rel s t)
    (hstep : ∀ s a s' t, rel s t → step s a s' → ∃ t', step' t a t' ∧ rel s' t') :
    ∃ t', Run step' t as t' ∧ rel s' t' := by
  induction h generalizing t with
  | nil => exact ⟨t, .nil _, hinit⟩
  | cons h _ ih =>
      obtain ⟨u, hu, hrel⟩ := hstep _ _ _ _ hinit h
      obtain ⟨t', ht', hrel'⟩ := ih hrel
      exact ⟨t', .cons hu ht', hrel'⟩

end Run

/-- A loop over a list that can fail. The invariant speaks of the elements that are left. -/
theorem foldlM_invariant {f : σ → α → Option σ} {motive : List α → σ → Prop}
    {as : List α} {s s' : σ}
    (h : as.foldlM f s = some s') (hinit : motive as s)
    (hstep : ∀ a as s s', motive (a :: as) s → f s a = some s' → motive as s') : motive [] s' := by
  induction as generalizing s with
  | nil =>
      cases h
      exact hinit
  | cons a as ih =>
      rw [List.foldlM_cons] at h
      obtain ⟨u, hu, h⟩ := Option.bind_eq_some_iff.1 h
      exact ih h (hstep _ _ _ _ hinit hu)

end CrosKernel.Lib
