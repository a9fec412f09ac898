import Mathlib.Data.List.Chain
import Mathlib.Data.List.Nodup
import Mathlib.Logic.Function.Basic
import Mathlib.Tactic.Tauto

/-!
# Rings of nodes linked both ways

`Links next prev l` says that each node of `l` and the one behind it point to each other, and
`Ring next prev head l` that the nodes of `l` form a circular list through `head`. `Ring.congr` is
the frame rule; `Ring.unlink` and `Ring.link` are the two changes of a ring.
-/

namespace CrosKernel.Lib

variable {ι : Type*} {next prev next' prev' : ι → ι} {head x y : ι} {l r : List ι}

/-- Each node and the one behind it point to each other. -/
def Links (next prev : ι → ι) (l : List ι) : Prop := l.IsChain fun x y => next x = y ∧ prev y = x

theorem links_cons_cons : Links next prev (x :: y :: l) ↔
    (next x = y ∧ prev y = x) ∧ Links next prev (y :: l) := List.isChain_cons_cons

/-- Linked lists that share a node join, and a joined one splits. -/
theorem links_append : Links next prev (l ++ x :: r) ↔
    Links next prev (l ++ [x]) ∧ Links next prev (x :: r) := List.isChain_split

/-- The links depend on the forward pointers of all nodes but the last, and on the backward pointers
of all but the first. -/
theorem Links.congr (h : Links next prev l) (hnext : ∀ x ∈ l.dropLast, next' x = next x)
    (hprev : ∀ x ∈ l.tail, prev' x = prev x) : Links next' prev' l := by
  induction l with
  | nil => exact .nil
  | cons x l ih =>
      cases l with
      | nil => exact .singleton x
      | cons y l =>
          rw [links_cons_cons] at h ⊢
          simp only [List.dropLast_cons_cons, List.mem_cons, forall_eq_or_imp, List.tail_cons]
            at hnext hprev
          refine ⟨⟨hnext.1.trans h.1.1, hprev.1.trans h.1.2⟩, ih h.2 hnext.2 ?_⟩
          simpa only [List.tail_cons] using hprev.2

/-- The nodes of `l`, in this order, are the circular list of `head`. -/
structure Ring (next prev : ι → ι) (head : ι) (l : List ι) : Prop where
  links : Links next prev (head :: (l ++ [head]))
  nodup : (head :: l).Nodup

namespace Ring

/-- A ring does not depend on the pointers of other nodes. -/
theorem congr (h : Ring next prev head l) (hnext : ∀ x ∈ head :: l, next' x = next x)
    (hprev : ∀ x ∈ head :: l, prev' x = prev x) : Ring next' prev' head l where
  links := by
    refine h.links.congr (fun x hx => hnext x ?_) (fun x hx => hprev x ?_)
    · rw [show head :: (l ++ [head]) = (head :: l) ++ [head] from rfl,
        List.dropLast_concat] at hx
      exact hx
    · rw [List.tail_cons, List.mem_append, List.mem_singleton] at hx
      exact List.mem_cons.2 hx.symm
  nodup := h.nodup

/-- The ring without nodes: the head points to itself. -/
theorem nil_iff : Ring next prev head [] ↔ next head = head ∧ prev head = head := by
  constructor
  · intro h
    exact (links_cons_cons.1 h.links).1
  · intro h
    exact ⟨links_cons_cons.2 ⟨h, .singleton head⟩, List.nodup_singleton head⟩

/-- The head of a ring points forward to its first node. -/
theorem next_head (h : Ring next prev head (x :: l)) : next head = x ∧ prev x = head :=
  (links_cons_cons.1 h.links).1

/-- The head of a ring points back to its last node. -/
theorem prev_head (h : Ring next prev head (l ++ [x])) : next x = head ∧ prev head = x := by
  have hlinks := h.links
  rw [List.append_assoc, ← List.cons_append, List.singleton_append, links_append] at hlinks
  exact (links_cons_cons.1 hlinks.2).1

/-- The forward pointers lead to nodes of the ring. -/
theorem next_head_mem (h : Ring next prev head l) : next head ∈ head :: l := by
  cases l with
  | nil => exact List.mem_cons.2 (.inl (nil_iff.1 h).1)
  | cons x l => simp [h.next_head.1]

theorem next_head_eq_iff (h : Ring next prev head l) : next head = head ↔ l = [] := by
  constructor
  · intro heq
    cases l with
    | nil => rfl
    | cons x l =>
        have hnot := (List.nodup_cons.1 h.nodup).1
        rw [h.next_head.1] at heq
        exact absurd heq fun heq => hnot (by simp [heq])
  · rintro rfl
    exact (nil_iff.1 h).1

/-- A node of a ring lies between two others, which may both be the head. -/
theorem around (h : Ring next prev head (l ++ x :: r)) :
    ∃ before after, head :: l = before ++ [prev x] ∧ r ++ [head] = next x :: after ∧
      Links next prev (before ++ [prev x]) ∧ Links next prev (next x :: after) ∧
      next (prev x) = x ∧ prev (next x) = x := by
  have hlinks := h.links
  obtain ⟨before, p, hbefore⟩ : ∃ before p, head :: l = before ++ [p] :=
    ⟨_, _, (List.dropLast_append_getLast (List.cons_ne_nil head l)).symm⟩
  obtain ⟨q, after, hafter⟩ : ∃ q after, r ++ [head] = q :: after :=
    List.exists_cons_of_ne_nil (by simp)
  have hsplit : head :: (l ++ x :: r ++ [head]) = before ++ p :: x :: q :: after := by
    rw [List.append_assoc, List.cons_append, hafter, ← List.cons_append, hbefore]
    simp
  rw [hsplit, links_append, links_cons_cons, links_cons_cons] at hlinks
  obtain ⟨hleft, ⟨hnext, rfl⟩, ⟨rfl, hprev⟩, hright⟩ := hlinks
  exact ⟨before, after, hbefore, hafter, hleft, hright, hnext, hprev⟩

/-- The neighbours of a node belong to the ring. -/
theorem neighbours_mem (h : Ring next prev head (l ++ x :: r)) :
    prev x ∈ head :: l ∧ next x ∈ r ++ [head] := by
  obtain ⟨before, after, hbefore, hafter, -⟩ := h.around
  rw [hbefore, hafter]
  simp

/-- The neighbours of a node are other pointers of the ring. -/
theorem mem_neighbours (h : Ring next prev head l) (hx : x ∈ l) :
    (prev x ∈ head :: l ∧ prev x ≠ x) ∧ (next x ∈ head :: l ∧ next x ≠ x) := by
  obtain ⟨l, r, rfl⟩ := List.append_of_mem hx
  obtain ⟨hbehind, hbefore⟩ := h.neighbours_mem
  have hnodup : (head :: l ++ x :: r).Nodup := h.nodup
  obtain ⟨-, hright, hdisj⟩ := List.nodup_append.1 hnodup
  refine ⟨⟨?_, hdisj _ hbehind _ List.mem_cons_self⟩, ?_, fun heq => ?_⟩
  · rw [← List.cons_append]
    exact List.mem_append_left _ hbehind
  · simp only [List.mem_cons, List.mem_append, List.not_mem_nil, or_false] at hbefore ⊢
    tauto
  · rw [heq] at hbefore
    rcases List.mem_append.1 hbefore with hr | hhead
    · exact (List.nodup_cons.1 hright).1 hr
    · exact hdisj head List.mem_cons_self x List.mem_cons_self (List.mem_singleton.1 hhead).symm

section

variable [DecidableEq ι]

/-- A node leaves a ring when its neighbours are made to point to each other. -/
theorem unlink (h : Ring next prev head (l ++ x :: r)) :
    Ring (Function.update next (prev x) (next x)) (Function.update prev (next x) (prev x)) head
      (l ++ r) := by
  have hnodup : (head :: l ++ x :: r).Nodup := h.nodup
  obtain ⟨before, after, hbefore, hafter, hleft, hright, -, -⟩ := h.around
  obtain ⟨hp, hq⟩ := h.neighbours_mem
  have hbeforeNodup : (before ++ [prev x]).Nodup := by
    rw [← hbefore]
    exact (List.nodup_append.1 hnodup).1
  have hafterNodup : (next x :: after).Nodup := by
    rw [← hafter, List.nodup_append_comm, List.singleton_append]
    exact hnodup.sublist (by simp)
  have hpr : prev x ∉ r := fun hr =>
    (List.nodup_append.1 hnodup).2.2 _ hp _ (List.mem_cons_of_mem x hr) rfl
  have hql : next x ∉ l := by
    intro hl
    rcases List.mem_append.1 hq with hr | hhead
    · exact (List.nodup_append.1 hnodup).2.2 _ (List.mem_cons_of_mem head hl) _
        (List.mem_cons_of_mem x hr) rfl
    · rw [List.mem_singleton.1 hhead] at hl
      exact (List.nodup_cons.1 hnodup).1 (List.mem_append_left _ hl)
  refine ⟨?_, hnodup.sublist (by simp)⟩
  have hsplit : head :: (l ++ r ++ [head]) = before ++ prev x :: next x :: after := by
    rw [List.append_assoc, hafter, ← List.cons_append, hbefore]
    simp
  rw [hsplit, links_append, links_cons_cons]
  refine ⟨hleft.congr (fun y hy => ?_) (fun y hy => ?_),
    ⟨Function.update_self .., Function.update_self ..⟩,
    hright.congr (fun y hy => ?_) (fun y hy => ?_)⟩
  · rw [List.dropLast_concat] at hy
    refine Function.update_of_ne ?_ ..
    rintro rfl
    exact (List.nodup_append.1 hbeforeNodup).2.2 _ hy _ (by simp) rfl
  · rw [← hbefore, List.tail_cons] at hy
    exact Function.update_of_ne (ne_of_mem_of_not_mem hy hql) ..
  · rw [← hafter, List.dropLast_concat] at hy
    exact Function.update_of_ne (ne_of_mem_of_not_mem hy hpr) ..
  · exact Function.update_of_ne (ne_of_mem_of_not_mem hy (List.nodup_cons.1 hafterNodup).1) ..

/-- A new node enters a ring behind the head. -/
theorem link (h : Ring next prev head l) (hx : x ∉ head :: l) :
    Ring (Function.update (Function.update next x (next head)) head x)
      (Function.update (Function.update prev x head) (next head) x) head (x :: l) := by
  have hne : x ≠ head := fun heq => hx (heq ▸ List.mem_cons_self)
  have hnext : x ≠ next head := fun heq => hx (heq ▸ h.next_head_mem)
  obtain ⟨hhead, hnodup⟩ := List.nodup_cons.1 h.nodup
  refine ⟨?_, ?_⟩
  · obtain ⟨q, after, hafter⟩ : ∃ q after, l ++ [head] = q :: after :=
      List.exists_cons_of_ne_nil (by simp)
    have hlinks := h.links
    rw [hafter, links_cons_cons] at hlinks
    obtain ⟨⟨rfl, -⟩, hrest⟩ := hlinks
    have hafterNodup : (next head :: after).Nodup := by
      rw [← hafter, List.nodup_append_comm, List.singleton_append]
      exact h.nodup
    rw [List.cons_append, hafter, links_cons_cons, links_cons_cons]
    refine ⟨⟨Function.update_self .., ?_⟩, ⟨?_, Function.update_self ..⟩,
      hrest.congr (fun y hy => ?_) (fun y hy => ?_)⟩
    · rw [Function.update_of_ne hnext, Function.update_self]
    · rw [Function.update_of_ne hne, Function.update_self]
    · rw [← hafter, List.dropLast_concat] at hy
      rw [Function.update_of_ne (ne_of_mem_of_not_mem hy hhead),
        Function.update_of_ne (ne_of_mem_of_not_mem (List.mem_cons_of_mem head hy) hx)]
    · have hmem : y ∈ head :: l := by
        have hbehind : y ∈ l ++ [head] := hafter ▸ List.mem_cons_of_mem _ hy
        rcases List.mem_append.1 hbehind with hl | hl
        · exact List.mem_cons_of_mem head hl
        · exact List.mem_cons.2 (.inl (List.mem_singleton.1 hl))
      rw [Function.update_of_ne (ne_of_mem_of_not_mem hy (List.nodup_cons.1 hafterNodup).1),
        Function.update_of_ne (ne_of_mem_of_not_mem hmem hx)]
  · simp only [List.mem_cons, not_or] at hx
    exact List.nodup_cons.2 ⟨by simp [hne.symm, hhead], List.nodup_cons.2 ⟨hx.2, hnodup⟩⟩

end

/-- The pointers determine the nodes. -/
theorem unique {l' : List ι} (h : Ring next prev head l) (h' : Ring next prev head l') :
    l = l' := by
  have hgen : ∀ x : ι, ∀ l l' : List ι, Links next prev (x :: (l ++ [head])) →
      Links next prev (x :: (l' ++ [head])) → head ∉ l → head ∉ l' → l = l' := by
    intro x l
    induction l generalizing x with
    | nil =>
        intro l' hl hl' _ hnot
        cases l' with
        | nil => rfl
        | cons y l' =>
            have hx := (links_cons_cons.1 hl).1.1
            have hy := (links_cons_cons.1 hl').1.1
            exact absurd (hx.symm.trans hy) fun heq => hnot (by simp [heq])
    | cons z l ih =>
        intro l' hl hl' hnot hnot'
        have hz := (links_cons_cons.1 hl).1.1
        cases l' with
        | nil =>
            have hx := (links_cons_cons.1 hl').1.1
            exact absurd (hx.symm.trans hz) fun heq => hnot (by simp [heq])
        | cons y l' =>
            obtain rfl : z = y := hz.symm.trans (links_cons_cons.1 hl').1.1
            rw [ih z l' (links_cons_cons.1 hl).2 (links_cons_cons.1 hl').2
              (fun hmem => hnot (List.mem_cons_of_mem z hmem))
              (fun hmem => hnot' (List.mem_cons_of_mem z hmem))]
  exact hgen head l l' h.links h'.links (List.nodup_cons.1 h.nodup).1
    (List.nodup_cons.1 h'.nodup).1

end Ring

end CrosKernel.Lib
