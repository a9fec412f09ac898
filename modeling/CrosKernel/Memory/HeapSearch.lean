import CrosKernel.Memory.HeapRuns

/-!
# The search for a block

`find_fit` goes once round the list: from `search_current` to the end, and then from the start of
the list back to where it began. `OnList.findFit` says that it returns for every size when it begins
at a node of the list, and that it returns null only when no node fits.
-/

namespace CrosKernel.Memory

open Lib

namespace Heap

variable {h h' : Heap} {tiles : List Tile} {chain c c₁ d e : List Nat} {x size fuel : Nat}

/-- A free block of `words` words ends the search for `size` bytes. -/
def Fits (size words : Nat) : Prop :=
  words * 8 % 2 ^ 64 = (size + OVERHEAD) % 2 ^ 64 ∨
    align ((size + (OVERHEAD + 1) * 8 * 2) % 2 ^ 64) < words * 8 % 2 ^ 64

instance (size words : Nat) : Decidable (Fits size words) :=
  inferInstanceAs (Decidable (_ ∨ _))

/-- The list that the search goes round. -/
structure OnList (h : Heap) (chain : List Nat) : Prop where
  links : NullList (fun p => h.mem (p + 8)) 0 chain
  head : chain.head? = some h.linkedListStart
  nodup : chain.Nodup
  bounds : ∀ a ∈ chain, 0 < a ∧ a < h.heapEnd

theorem Listed.onList (hlist : Listed h tiles chain) (hl : Laid h tiles) : OnList h chain := by
  refine ⟨hlist.links, hlist.head, hlist.nodup hl, fun a ha => ?_⟩
  obtain ⟨t, ht, -, rfl⟩ := hlist.tile ha
  have hpos := hl.heap_pos
  have hbounds := hl.bounds ht
  omega

/-- The search ends at a block that fits, and not with null. -/
theorem findFitLoop_fits (hfits : Fits size (h.word h.searchCurrent 0)) (fuel : Nat) :
    ∃ h' ptr, findFitLoop size (fuel + 1) h = some (h', ptr) ∧ ptr ≠ 0 := by
  rw [findFitLoop_succ]
  by_cases hexact : h.word h.searchCurrent 0 * 8 % 2 ^ 64 = (size + OVERHEAD) % 2 ^ 64
  · rw [if_pos hexact]
    exact ⟨_, _, rfl, Nat.succ_ne_zero _⟩
  · rw [if_neg hexact, if_pos (hfits.resolve_left hexact)]
    exact ⟨_, _, rfl, Nat.succ_ne_zero _⟩

/-- The search goes on from a block that does not fit, unless it comes to where it began. -/
theorem findFitLoop_move (hfits : ¬Fits size (h.word h.searchCurrent 0)) (fuel : Nat) :
    findFitLoop size (fuel + 1) h =
      if h.searchCurrent ≠ 0 ∧ h.searchStart ≠ h.nextSearch ∧ h.nextSearch < h.heapEnd then
        findFitLoop size fuel h.advance
      else some (h.advance, 0) := by
  rw [Fits, not_or] at hfits
  rw [findFitLoop_succ, if_neg hfits.1, if_neg hfits.2]

/-- The node behind the one at `search_current`, and the first one behind the last. -/
theorem OnList.nextSearch_eq (hlist : OnList h (c ++ x :: e)) (hcurrent : h.searchCurrent = x) :
    h.nextSearch = e.headD h.linkedListStart := by
  have hlink : h.word h.searchCurrent 1 = e.headD 0 := by
    rw [hcurrent]
    exact hlist.links.next_eq
  rw [nextSearch, hlink]
  cases e with
  | nil => rfl
  | cons y e =>
      have hpos := (hlist.bounds y (by simp)).1
      exact if_pos hpos.ne'

theorem OnList.advance (hlist : OnList h chain) : OnList h.advance chain :=
  ⟨hlist.links, hlist.head, hlist.nodup, hlist.bounds⟩

/-- The search reaches the node where it began from one in front of it. -/
theorem OnList.search_front {start : Nat} (hlist : OnList h (d ++ x :: (e ++ start :: c)))
    (hstart : h.searchStart = start) (hcurrent : h.searchCurrent = x) (hfuel : e.length < fuel) :
    ∃ h' ptr, findFitLoop size fuel h = some (h', ptr) ∧
      (ptr = 0 ↔ ∀ y ∈ x :: e, ¬Fits size (h.word y 0)) := by
  obtain ⟨fuel, rfl⟩ := Nat.exists_eq_succ_of_ne_zero (Nat.ne_of_gt (Nat.zero_lt_of_lt hfuel))
  induction e generalizing h d x fuel with
  | nil =>
      by_cases hfits : Fits size (h.word h.searchCurrent 0)
      · obtain ⟨h', ptr, hrun, hptr⟩ := findFitLoop_fits hfits fuel
        exact ⟨h', ptr, hrun, iff_of_false hptr fun hnone => hnone x (by simp) (hcurrent ▸ hfits)⟩
      · have hnext : h.nextSearch = start := hlist.nextSearch_eq hcurrent
        rw [findFitLoop_move hfits, if_neg fun hall => hall.2.1 (hstart.trans hnext.symm)]
        refine ⟨_, _, rfl, iff_of_true rfl fun y hy => ?_⟩
        rw [List.mem_singleton.1 hy, ← hcurrent]
        exact hfits
  | cons y e ih =>
      by_cases hfits : Fits size (h.word h.searchCurrent 0)
      · obtain ⟨h', ptr, hrun, hptr⟩ := findFitLoop_fits hfits fuel
        exact ⟨h', ptr, hrun, iff_of_false hptr fun hnone => hnone x (by simp) (hcurrent ▸ hfits)⟩
      · have hnext : h.nextSearch = y := hlist.nextSearch_eq hcurrent
        have hx := hlist.bounds x (by simp)
        have hy := hlist.bounds y (by simp)
        have hne : start ≠ y := by
          have hnodup := hlist.nodup
          simp [List.nodup_append] at hnodup
          tauto
        rw [findFitLoop_move hfits, if_pos ⟨by omega, by rwa [hnext, hstart], by omega⟩]
        rw [List.length_cons] at hfuel
        obtain ⟨fuel, rfl⟩ := Nat.exists_eq_succ_of_ne_zero (show fuel ≠ 0 by omega)
        rw [List.append_cons] at hlist
        obtain ⟨h', ptr, hrun, hnone⟩ := ih hlist.advance hstart hnext fuel
          (Nat.lt_of_succ_lt_succ hfuel)
        rw [hcurrent] at hfits
        refine ⟨h', ptr, hrun, hnone.trans ⟨fun hrest z hz => ?_, fun hall z hz => ?_⟩⟩
        · obtain rfl | hz := List.mem_cons.1 hz
          · exact hfits
          · exact hrest z hz
        · exact hall z (List.mem_cons_of_mem _ hz)

/-- The search goes from the node where it began, or one behind it, to the end of the list, and then
on from the first node. -/
theorem OnList.search_back {start : Nat} (hlist : OnList h (c₁ ++ start :: d))
    (hsplit : start :: d = c ++ x :: e) (hstart : h.searchStart = start)
    (hcurrent : h.searchCurrent = x) (hfuel : e.length + c₁.length < fuel) :
    ∃ h' ptr, findFitLoop size fuel h = some (h', ptr) ∧
      (ptr = 0 ↔ ∀ y ∈ c₁ ++ x :: e, ¬Fits size (h.word y 0)) := by
  obtain ⟨fuel, rfl⟩ := Nat.exists_eq_succ_of_ne_zero (Nat.ne_of_gt (Nat.zero_lt_of_lt hfuel))
  induction e generalizing h c x fuel with
  | nil =>
      by_cases hfits : Fits size (h.word h.searchCurrent 0)
      · obtain ⟨h', ptr, hrun, hptr⟩ := findFitLoop_fits hfits fuel
        exact ⟨h', ptr, hrun, iff_of_false hptr fun hnone => hnone x (by simp) (hcurrent ▸ hfits)⟩
      · have hsplit' : OnList h ((c₁ ++ c) ++ x :: []) := by
          rw [List.append_assoc, ← hsplit]
          exact hlist
        have hnext : h.nextSearch = h.linkedListStart := hsplit'.nextSearch_eq hcurrent
        have hx := hsplit'.bounds x (by simp)
        cases c₁ with
        | nil =>
            have hhead : start = h.linkedListStart := Option.some_inj.1 hlist.head
            rw [findFitLoop_move hfits, if_neg fun hall => hall.2.1 (by rw [hstart, hhead, hnext])]
            refine ⟨_, _, rfl, iff_of_true rfl fun y hy => ?_⟩
            rw [List.mem_singleton.1 hy, ← hcurrent]
            exact hfits
        | cons y c₁ =>
            have hhead : y = h.linkedListStart := Option.some_inj.1 hlist.head
            have hy := hlist.bounds y (by simp)
            have hne : start ≠ y := by
              have hnodup := hlist.nodup
              simp [List.nodup_append] at hnodup
              tauto
            rw [findFitLoop_move hfits,
              if_pos ⟨by omega, by rwa [hnext, hstart, ← hhead], by omega⟩]
            rw [List.length_cons, List.length_nil] at hfuel
            have hfront : OnList h.advance ([] ++ y :: (c₁ ++ start :: d)) := hlist.advance
            obtain ⟨h', ptr, hrun, hnone⟩ := hfront.search_front hstart
              (hnext.trans hhead.symm) (show c₁.length < fuel by omega)
            rw [hcurrent] at hfits
            refine ⟨h', ptr, hrun, hnone.trans ⟨fun hrest z hz => ?_, fun hall z hz => ?_⟩⟩
            · obtain hz | hz := List.mem_append.1 hz
              · exact hrest z hz
              · rw [List.mem_singleton.1 hz]
                exact hfits
            · exact hall z (List.mem_append_left _ hz)
  | cons y e ih =>
      by_cases hfits : Fits size (h.word h.searchCurrent 0)
      · obtain ⟨h', ptr, hrun, hptr⟩ := findFitLoop_fits hfits fuel
        exact ⟨h', ptr, hrun, iff_of_false hptr fun hnone => hnone x (by simp) (hcurrent ▸ hfits)⟩
      · have hsplit' : OnList h ((c₁ ++ c) ++ x :: (y :: e)) := by
          rw [List.append_assoc, ← hsplit]
          exact hlist
        have hnext : h.nextSearch = y := hsplit'.nextSearch_eq hcurrent
        have hx := hsplit'.bounds x (by simp)
        have hy := hsplit'.bounds y (by simp)
        have hmem : y ∈ d := by
          cases c with
          | nil =>
              obtain ⟨-, rfl⟩ := List.cons_eq_cons.1 hsplit
              exact List.mem_cons_self
          | cons z c =>
              obtain ⟨-, rfl⟩ := List.cons_eq_cons.1 hsplit
              simp
        have hne : start ≠ y := by
          rintro rfl
          exact (List.nodup_cons.1 (List.nodup_append.1 hlist.nodup).2.1).1 hmem
        rw [findFitLoop_move hfits, if_pos ⟨by omega, by rwa [hnext, hstart], by omega⟩]
        rw [List.length_cons] at hfuel
        obtain ⟨fuel, rfl⟩ := Nat.exists_eq_succ_of_ne_zero (show fuel ≠ 0 by omega)
        obtain ⟨h', ptr, hrun, hnone⟩ := ih hlist.advance (hsplit.trans (List.append_cons c x _))
          hstart hnext fuel (by omega)
        rw [hcurrent] at hfits
        refine ⟨h', ptr, hrun, hnone.trans ⟨fun hrest z hz => ?_, fun hall z hz => ?_⟩⟩
        · simp only [List.mem_append, List.mem_cons] at hz hrest
          obtain hz | rfl | hz := hz
          · exact hrest z (.inl hz)
          · exact hfits
          · exact hrest z (.inr hz)
        · refine hall z ?_
          simp only [List.mem_append, List.mem_cons] at hz ⊢
          tauto

/-- From a node of the list, `find_fit` returns for every size, with null if and only if no node
fits. -/
theorem OnList.findFit (hlist : OnList h chain) (hcurrent : h.searchCurrent ∈ chain) (size : Nat)
    (hfuel : chain.length < fuel + 1) :
    ∃ h' ptr, Heap.findFit fuel h size = some (h', ptr) ∧
      (ptr = 0 ↔ ∀ y ∈ chain, ¬Fits size (h.word y 0)) := by
  obtain ⟨c₁, d, rfl⟩ := List.append_of_mem hcurrent
  have hlist' : OnList { h with searchStart := h.searchCurrent } (c₁ ++ h.searchCurrent :: d) :=
    ⟨hlist.links, hlist.head, hlist.nodup, hlist.bounds⟩
  rw [List.length_append, List.length_cons] at hfuel
  exact hlist'.search_back (c := []) rfl rfl rfl (by omega)

/-- More passes do not change what the search returns. -/
theorem findFitLoop_mono {fuel' : Nat} {result : Heap × Nat} (hle : fuel ≤ fuel')
    (hrun : findFitLoop size fuel h = some result) : findFitLoop size fuel' h = some result := by
  induction fuel generalizing h fuel' with
  | zero => cases hrun
  | succ fuel ih =>
      obtain ⟨fuel', rfl⟩ := Nat.exists_eq_succ_of_ne_zero (show fuel' ≠ 0 by omega)
      rw [findFitLoop_succ] at hrun ⊢
      split_ifs at hrun ⊢ with hexact hsplit hmove
      · exact hrun
      · exact hrun
      · exact ih (Nat.le_of_succ_le_succ hle) hrun
      · exact hrun

/-- When `find_fit` returns, it returns null if and only if no node fits. -/
theorem OnList.findFit_null_iff {ptr : Nat} (hlist : OnList h chain)
    (hcurrent : h.searchCurrent ∈ chain) (hrun : Heap.findFit fuel h size = some (h', ptr)) :
    ptr = 0 ↔ ∀ y ∈ chain, ¬Fits size (h.word y 0) := by
  obtain ⟨h₁, ptr₁, hrun₁, hnull⟩ :=
    hlist.findFit hcurrent size (show chain.length < fuel + chain.length + 1 by omega)
  have hsame := findFitLoop_mono (Nat.le_add_right fuel chain.length) hrun
  obtain ⟨-, rfl⟩ := Prod.mk.inj (Option.some_inj.1 (hsame.symm.trans hrun₁))
  exact hnull

end Heap

end CrosKernel.Memory
