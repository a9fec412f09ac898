import Mathlib.Data.Set.Basic
import Mathlib.Logic.Function.Basic

/-!
# Trees of tables in memory

A memory holds tables, and an entry of a table leads to another table, to a page or to nothing.
`Placed` says that a forest of nodes stands in the memory, each node in a frame of its own. Writing
one entry adds a node without children or takes one away, and writes to other frames keep all nodes.
-/

namespace CrosKernel.Lib

variable {N E T : Type*}

/-- An entry of a node leads to one child at most, and a node is the child of one entry at most. -/
structure IsForest (edge : N → ℕ → N → Prop) : Prop where
  unique : ∀ {n x c c'}, edge n x c → edge n x c' → c = c'
  source_unique : ∀ {n n' x x' c}, edge n x c → edge n' x' c → n = n' ∧ x = x'
  ne : ∀ {n x c}, edge n x c → n ≠ c

/-- The nodes with a target in `place` stand in the frames of their targets, and the entries of their
tables lead to their children. -/
structure Placed (edge : N → ℕ → N → Prop) (frame : T → ℕ) (leads : N → E → Option T → Prop)
    (memory : ℕ → ℕ → E) (place : N → Option T) : Prop where
  injective : ∀ {n n' t t'}, place n = some t → place n' = some t' → frame t = frame t' → n = n'
  parent : ∀ {n x c t}, edge n x c → place c = some t → ∃ t', place n = some t'
  leads : ∀ {n x c t}, edge n x c → place n = some t → leads c (memory (frame t) x) (place c)

/-- The memory with another entry in a table. -/
def writeEntry (memory : ℕ → ℕ → E) (f x : ℕ) (e : E) : ℕ → ℕ → E :=
  Function.update memory f (Function.update (memory f) x e)

theorem writeEntry_apply (memory : ℕ → ℕ → E) (f x : ℕ) (e : E) (g y : ℕ) :
    writeEntry memory f x e g y = if g = f ∧ y = x then e else memory g y := by
  by_cases hg : g = f
  · subst hg
    by_cases hy : y = x
    · subst hy
      simp [writeEntry]
    · simp [writeEntry, hy]
  · simp [writeEntry, hg]

namespace Placed

variable {edge : N → ℕ → N → Prop} {frame : T → ℕ} {leads : N → E → Option T → Prop}
  {memory memory' : ℕ → ℕ → E} {place : N → Option T} {n c r : N} {x : ℕ} {t t' : T} {e : E}

/-- Only the entries for children in the tables of nodes matter. -/
theorem congr (h : Placed edge frame leads memory place)
    (hsame : ∀ {n x c t}, edge n x c → place n = some t →
      memory' (frame t) x = memory (frame t) x) :
    Placed edge frame leads memory' place where
  injective := h.injective
  parent := h.parent
  leads := fun hedge hn => hsame hedge hn ▸ h.leads hedge hn

/-- A node that is not placed has no children that are. -/
theorem eq_none_of_parent (h : Placed edge frame leads memory place) (hedge : edge n x c)
    (hn : place n = none) : place c = none := by
  cases hc : place c with
  | none => rfl
  | some t =>
      obtain ⟨t', ht'⟩ := h.parent hedge hc
      rw [hn] at ht'
      cases ht'

variable [DecidableEq N]

/-- An entry is written so that it leads to a child in a frame that no other node stands in. The child
has no children. -/
theorem assign (hforest : IsForest edge) (h : Placed edge frame leads memory place)
    (hedge : edge n x c) (hn : place n = some t)
    (hfresh : ∀ {n' t''}, n' ≠ c → place n' = some t'' → frame t'' ≠ frame t')
    (hleaf : ∀ {y d}, edge c y d → place d = none) (he : leads c e (some t'))
    (hempty : ∀ {y d}, edge c y d → leads d (memory (frame t') y) none) :
    Placed edge frame leads (writeEntry memory (frame t) x e)
      (Function.update place c (some t')) := by
  have hne : n ≠ c := hforest.ne hedge
  constructor
  · intro m m' u u' hm hm' heq
    by_cases hmc : m = c <;> by_cases hmc' : m' = c
    · rw [hmc, hmc']
    · subst hmc
      rw [Function.update_self] at hm
      rw [Function.update_of_ne hmc'] at hm'
      cases hm
      exact absurd heq.symm (hfresh hmc' hm')
    · subst hmc'
      rw [Function.update_self] at hm'
      rw [Function.update_of_ne hmc] at hm
      cases hm'
      exact absurd heq (hfresh hmc hm)
    · rw [Function.update_of_ne hmc] at hm
      rw [Function.update_of_ne hmc'] at hm'
      exact h.injective hm hm' heq
  · intro m y d u hedge' hd
    by_cases hmc : m = c
    · subst hmc
      exact ⟨t', Function.update_self ..⟩
    · rw [Function.update_of_ne hmc]
      by_cases hdc : d = c
      · subst hdc
        obtain ⟨rfl, -⟩ := hforest.source_unique hedge hedge'
        exact ⟨t, hn⟩
      · rw [Function.update_of_ne hdc] at hd
        exact h.parent hedge' hd
  · intro m y d u hedge' hm
    rw [writeEntry_apply]
    by_cases hmc : m = c
    · -- the table of the child
      subst hmc
      rw [Function.update_self] at hm
      cases hm
      rw [if_neg fun hand => hfresh hne hn hand.1.symm,
        Function.update_of_ne (hforest.ne hedge').symm, hleaf hedge']
      exact hempty hedge'
    · rw [Function.update_of_ne hmc] at hm
      by_cases heq : frame u = frame t ∧ y = x
      · obtain ⟨hframe, rfl⟩ := heq
        obtain rfl := h.injective hm hn hframe
        obtain rfl := hforest.unique hedge hedge'
        rw [if_pos ⟨hframe, rfl⟩, Function.update_self]
        exact he
      · have hdc : d ≠ c := by
          rintro rfl
          obtain ⟨rfl, rfl⟩ := hforest.source_unique hedge hedge'
          rw [hn] at hm
          cases hm
          exact heq ⟨rfl, rfl⟩
        rw [if_neg heq, Function.update_of_ne hdc]
        exact h.leads hedge' hm

/-- An entry is written so that it leads nowhere. What it led to had no children. -/
theorem unassign (hforest : IsForest edge) (h : Placed edge frame leads memory place)
    (hedge : edge n x c) (hn : place n = some t) (hleaf : ∀ {y d}, edge c y d → place d = none)
    (he : leads c e none) :
    Placed edge frame leads (writeEntry memory (frame t) x e) (Function.update place c none) := by
  have hold : ∀ {m u}, Function.update place c none m = some u → m ≠ c ∧ place m = some u := by
    intro m u hm
    have hmc : m ≠ c := by
      rintro rfl
      rw [Function.update_self] at hm
      cases hm
    exact ⟨hmc, by rwa [Function.update_of_ne hmc] at hm⟩
  constructor
  · intro m m' u u' hm hm'
    exact h.injective (hold hm).2 (hold hm').2
  · intro m y d u hedge' hd
    have hd' := (hold hd).2
    have hmc : m ≠ c := by
      rintro rfl
      rw [hleaf hedge'] at hd'
      cases hd'
    rw [Function.update_of_ne hmc]
    exact h.parent hedge' hd'
  · intro m y d u hedge' hmu
    have hm := (hold hmu).2
    rw [writeEntry_apply]
    by_cases heq : frame u = frame t ∧ y = x
    · obtain ⟨hframe, rfl⟩ := heq
      obtain rfl := h.injective hm hn hframe
      obtain rfl := hforest.unique hedge hedge'
      rw [if_pos ⟨hframe, rfl⟩, Function.update_self]
      exact he
    · have hdc : d ≠ c := by
        rintro rfl
        obtain ⟨rfl, rfl⟩ := hforest.source_unique hedge hedge'
        rw [hn] at hm
        cases hm
        exact heq ⟨rfl, rfl⟩
      rw [if_neg heq, Function.update_of_ne hdc]
      exact h.leads hedge' hm

/-- A new root in a frame whose entries lead nowhere. -/
theorem add_root (h : Placed edge frame leads memory place)
    (hroot : ∀ n x, ¬ edge n x r) (hr : place r = none)
    (hfresh : ∀ {n t'}, place n = some t' → frame t' ≠ frame t)
    (hempty : ∀ {y d}, edge r y d → leads d (memory (frame t) y) none) :
    Placed edge frame leads memory (Function.update place r (some t)) where
  injective := by
    intro m m' u u' hm hm' heq
    by_cases hmr : m = r <;> by_cases hmr' : m' = r
    · rw [hmr, hmr']
    · subst hmr
      rw [Function.update_self] at hm
      rw [Function.update_of_ne hmr'] at hm'
      cases hm
      exact absurd heq.symm (hfresh hm')
    · subst hmr'
      rw [Function.update_self] at hm'
      rw [Function.update_of_ne hmr] at hm
      cases hm'
      exact absurd heq (hfresh hm)
    · rw [Function.update_of_ne hmr] at hm
      rw [Function.update_of_ne hmr'] at hm'
      exact h.injective hm hm' heq
  parent := by
    intro m y d u hedge hd
    have hdr : d ≠ r := by
      rintro rfl
      exact hroot m y hedge
    rw [Function.update_of_ne hdr] at hd
    by_cases hmr : m = r
    · subst hmr
      exact ⟨t, Function.update_self ..⟩
    · rw [Function.update_of_ne hmr]
      exact h.parent hedge hd
  leads := by
    intro m y d u hedge hm
    have hdr : d ≠ r := by
      rintro rfl
      exact hroot m y hedge
    rw [Function.update_of_ne hdr]
    by_cases hmr : m = r
    · subst hmr
      rw [Function.update_self] at hm
      cases hm
      rw [h.eq_none_of_parent hedge hr]
      exact hempty hedge
    · rw [Function.update_of_ne hmr] at hm
      exact h.leads hedge hm

end Placed

end CrosKernel.Lib
