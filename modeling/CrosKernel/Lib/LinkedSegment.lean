import Mathlib.Data.List.Nodup
import Mathlib.Logic.Function.Basic

/-!
# Segments of singly linked lists

`Segment next nodes p l q` says that the nodes from the pointer `p` on, followed by `next` until
the pointer `q`, are those at the addresses of `l` with the contents of `l`. `Segment.congr` is
the frame rule, and `segment_append` joins and splits segments.
-/

namespace CrosKernel.Lib

variable {ι ν : Type*} {next : ν → Option ι} {nodes nodes' : ι → Option ν} {p q : Option ι}

/-- The nodes from `p` to `q` are those of the list. -/
def Segment (next : ν → Option ι) (nodes : ι → Option ν) (p : Option ι) :
    List (ι × ν) → Option ι → Prop
  | [], q => p = q
  | (a, n) :: l, q => p = some a ∧ nodes a = some n ∧ Segment next nodes (next n) l q

@[simp]
theorem segment_nil : Segment next nodes p [] q ↔ p = q := Iff.rfl

@[simp]
theorem segment_cons {a : ι} {n : ν} {l : List (ι × ν)} :
    Segment next nodes p ((a, n) :: l) q ↔
      p = some a ∧ nodes a = some n ∧ Segment next nodes (next n) l q := Iff.rfl

/-- Segments that meet join, and a joined segment splits. -/
theorem segment_append {l l' : List (ι × ν)} :
    Segment next nodes p (l ++ l') q ↔
      ∃ r, Segment next nodes p l r ∧ Segment next nodes r l' q := by
  induction l generalizing p with
  | nil => simp
  | cons x l ih =>
      obtain ⟨a, n⟩ := x
      simp only [List.cons_append, segment_cons, ih]
      tauto

/-- A segment depends only on its own nodes. -/
theorem Segment.congr {l : List (ι × ν)} (h : Segment next nodes p l q)
    (hnodes : ∀ a ∈ l.map Prod.fst, nodes' a = nodes a) : Segment next nodes' p l q := by
  induction l generalizing p with
  | nil => exact h
  | cons x l ih =>
      obtain ⟨a, n⟩ := x
      simp only [List.map_cons, List.mem_cons, forall_eq_or_imp] at hnodes
      exact ⟨h.1, hnodes.1.trans h.2.1, ih h.2.2 hnodes.2⟩

/-- No pointer of a segment dangles. -/
theorem Segment.nodes_eq {l : List (ι × ν)} {a : ι} {n : ν} (h : Segment next nodes p l q)
    (hmem : (a, n) ∈ l) : nodes a = some n := by
  induction l generalizing p with
  | nil => cases hmem
  | cons x l ih =>
      obtain ⟨b, m⟩ := x
      rcases List.mem_cons.1 hmem with heq | hmem
      · cases heq
        exact h.2.1
      · exact ih h.2.2 hmem

end CrosKernel.Lib
