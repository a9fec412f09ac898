import Mathlib.Data.List.Chain
import Mathlib.Logic.Function.Basic

/-!
# Null-terminated lists

`NullList next null l` says that each node of `l` points to the one behind it and the last one to
`null`. With another node in the place of `null` it describes the part of a list in front of that
node, so that `split` cuts a list at a node. `insert` and `replace` are the two changes of a list.
-/

namespace CrosKernel.Lib

variable {ι : Type*} {next next' : ι → ι} {null a b x y : ι} {l r : List ι}

/-- Each node points to the one behind it, and the last one to `null`. -/
def NullList (next : ι → ι) (null : ι) (l : List ι) : Prop :=
  (l ++ [null]).IsChain fun x y => next x = y

namespace NullList

theorem nil (next : ι → ι) (null : ι) : NullList next null [] := .singleton null

theorem cons : NullList next null (x :: l) ↔ next x = l.headD null ∧ NullList next null l := by
  cases l with
  | nil => exact List.isChain_cons_cons
  | cons y l => exact List.isChain_cons_cons

theorem split : NullList next null (l ++ x :: r) ↔
    NullList next x l ∧ NullList next null (x :: r) := by
  show List.IsChain _ (l ++ x :: r ++ [null]) ↔ _
  rw [List.append_assoc, List.cons_append, List.isChain_split]
  rfl

/-- A list depends only on the pointers of its nodes. -/
theorem congr (h : NullList next null l) (hnext : ∀ x ∈ l, next' x = next x) :
    NullList next' null l := by
  induction l with
  | nil => exact nil next' null
  | cons x l ih =>
      obtain ⟨hx, htail⟩ := cons.1 h
      refine cons.2 ⟨(hnext x List.mem_cons_self).trans hx, ih htail fun y hy => ?_⟩
      exact hnext y (List.mem_cons_of_mem x hy)

/-- What a node points to. -/
theorem next_eq (h : NullList next null (l ++ x :: r)) : next x = r.headD null :=
  (cons.1 (split.1 h).2).1

/-- A node points to null or to a node that is not the first one. -/
theorem next_mem_tail (h : NullList next null (a :: l)) (hx : x ∈ a :: l) :
    next x = null ∨ next x ∈ l := by
  induction l generalizing a with
  | nil =>
      obtain rfl := List.mem_singleton.1 hx
      exact .inl (cons.1 h).1
  | cons b l ih =>
      obtain ⟨hnext, htail⟩ := cons.1 h
      obtain rfl | hx := List.mem_cons.1 hx
      · exact .inr (List.mem_cons.2 (.inl hnext))
      · exact (ih htail hx).imp_right (List.mem_cons_of_mem b)

theorem next_mem (h : NullList next null l) (hx : x ∈ l) : next x = null ∨ next x ∈ l := by
  cases l with
  | nil => cases hx
  | cons a l => exact (h.next_mem_tail hx).imp_right (List.mem_cons_of_mem a)

/-- Only one node points to a node. -/
theorem next_inj (h : NullList next null l) (hnodup : l.Nodup) (hx : x ∈ l) (hy : y ∈ l)
    (hnext : next x = next y) (hne : next x ≠ null) : x = y := by
  induction l with
  | nil => cases hx
  | cons a l ih =>
      obtain ⟨ha, htail⟩ := cons.1 h
      obtain ⟨-, hnodup⟩ := List.nodup_cons.1 hnodup
      -- what the first node points to is the first of the others, and no other node points to it
      have hfirst : ∀ z ∈ l, next z = next a → next z = null := by
        intro z hz heq
        cases l with
        | nil => cases hz
        | cons b l =>
            have hb : next z = b := heq.trans ha
            refine (htail.next_mem_tail hz).resolve_right fun hmem => ?_
            exact (List.nodup_cons.1 hnodup).1 (hb ▸ hmem)
      obtain hx | hx := List.mem_cons.1 hx <;> obtain hy | hy := List.mem_cons.1 hy
      · exact hx.trans hy.symm
      · exact absurd (hnext.trans (hfirst y hy (hnext.symm.trans (congrArg next hx)))) hne
      · exact absurd (hfirst x hx (hnext.trans (congrArg next hy))) hne
      · exact ih htail hnodup hx hy

/-- The node `b` is put behind the node `a`. -/
theorem insert (h : NullList next null (l ++ a :: r)) (hb : next' b = next a) (ha : next' a = b)
    (hother : ∀ x ∈ l ++ r, next' x = next x) : NullList next' null (l ++ a :: b :: r) := by
  obtain ⟨hleft, hright⟩ := split.1 h
  obtain ⟨hnext, htail⟩ := cons.1 hright
  refine split.2 ⟨hleft.congr fun x hx => hother x (List.mem_append_left r hx), ?_⟩
  refine cons.2 ⟨ha, cons.2 ⟨hb.trans hnext, htail.congr fun x hx => ?_⟩⟩
  exact hother x (List.mem_append_right l hx)

/-- The node `b` takes the place of the first node. -/
theorem replace_head (h : NullList next null (a :: r)) (hb : next' b = next a)
    (hother : ∀ x ∈ r, next' x = next x) : NullList next' null (b :: r) := by
  obtain ⟨hnext, htail⟩ := cons.1 h
  exact cons.2 ⟨hb.trans hnext, htail.congr hother⟩

/-- The node `b` takes the place of the node behind `x`. -/
theorem replace (h : NullList next null (l ++ x :: a :: r)) (hb : next' b = next a)
    (hx : next' x = b) (hother : ∀ y ∈ l ++ r, next' y = next y) :
    NullList next' null (l ++ x :: b :: r) := by
  obtain ⟨hleft, hright⟩ := split.1 h
  refine split.2 ⟨hleft.congr fun y hy => hother y (List.mem_append_left r hy), ?_⟩
  refine cons.2 ⟨hx, (cons.1 hright).2.replace_head hb fun y hy => ?_⟩
  exact hother y (List.mem_append_right l hy)

end NullList

end CrosKernel.Lib
