import CrosKernel.Lib.Run
import CrosKernel.Memory.MemoryMapLoop

/-!
# Placing regions

The loop of `place` carries the new region, piece by piece, through a map without overlaps.
`Settling` is the invariant of the loop: either a piece has still to be compared with its
neighbours, or the map is free of overlaps again. The loop misses an overlap in one situation
only, `SkipsOverlap`, in which `trim` removes an empty piece and still advances by two places.
`place_run_correct` says that runs of `place` without it build the map that the regions describe.
-/

namespace CrosKernel.Memory

open Lib MemoryRegion

namespace MemoryMap

variable {A B L map map' : MemoryMap} {l r p x N : MemoryRegion}

/-! ## Insertion into a map without overlaps -/

theorem insertLoop_separated (h : layering.Separated (x :: L)) :
    layering.Separated (insertLoop x L) := by
  induction L generalizing x with
  | nil => exact h
  | cons y L ih =>
      obtain ⟨hx, hyL⟩ := List.pairwise_cons.mp h
      obtain ⟨hy, hL⟩ := List.pairwise_cons.mp hyL
      have hxy : x.stop ≤ y.location := hx y (by simp)
      rw [insertLoop]
      split
      · refine List.pairwise_cons.mpr ⟨?_, ih hyL⟩
        intro z hz
        exact hx z ((insertLoop_perm y L).mem_iff.mp hz)
      next hnotlt =>
        rw [lt_iff] at hnotlt
        refine List.pairwise_cons.mpr ⟨?_, ih (List.pairwise_cons.mpr
          ⟨fun z hz => hx z (by simp [hz]), hL⟩)⟩
        intro z hz
        rcases List.mem_cons.mp ((insertLoop_perm x L).mem_iff.mp hz) with rfl | hz
        · show y.stop ≤ z.location
          simp only [stop] at *
          omega
        · exact hy z hz

/-- A region is inserted behind regions that do not come after it and before regions that do not
come before it. -/
theorem insertLoop_split (h : layering.Separated L) (x : MemoryRegion) :
    ∃ A B, insertLoop x L = A ++ x :: B ∧ (A ++ B).Perm L ∧ layering.Separated (A ++ B) ∧
      (∀ y ∈ A, y.location ≤ x.location ∧ (y.location = x.location → y.stop ≤ x.stop)) ∧
      ∀ y ∈ B, x.location ≤ y.location ∧ (x.location = y.location → x.stop ≤ y.stop) := by
  induction L with
  | nil => exact ⟨[], [], rfl, .refl _, .nil, by simp, by simp⟩
  | cons y L ih =>
      obtain ⟨hy, hL⟩ := List.pairwise_cons.mp h
      rw [insertLoop]
      split
      next hlt =>
        have hperm := insertLoop_perm y L
        refine ⟨[], insertLoop y L, rfl, hperm, insertLoop_separated h, by simp, ?_⟩
        intro z hz
        rw [lt_iff] at hlt
        rcases List.mem_cons.mp (hperm.mem_iff.mp hz) with rfl | hz
        · simp only [stop]
          omega
        · have hyz : y.stop ≤ z.location := hy z hz
          simp only [stop] at *
          omega
      next hnotlt =>
        obtain ⟨A, B, hinsert, hperm, hsep, hA, hB⟩ := ih hL
        refine ⟨y :: A, B, by rw [hinsert]; rfl, hperm.cons y, ?_, ?_, hB⟩
        · exact List.pairwise_cons.mpr ⟨fun z hz => hy z (hperm.mem_iff.mp hz), hsep⟩
        · intro z hz
          rcases List.mem_cons.mp hz with rfl | hz
          · rw [lt_iff] at hnotlt
            simp only [stop]
            omega
          · exact hA z hz

/-- Inserting a region that overlaps nothing keeps a map free of overlaps. -/
theorem insertLoop_separated_of_apart (h : layering.Separated L)
    (hapart : ∀ y ∈ L, x.stop ≤ y.location ∨ y.stop ≤ x.location) :
    layering.Separated (insertLoop x L) := by
  obtain ⟨A, B, hinsert, hperm, hsep, hA, hB⟩ := insertLoop_split h x
  obtain ⟨hsepA, hsepB, hcross⟩ := List.pairwise_append.mp hsep
  have hxle := x.location_le_stop
  rw [hinsert]
  refine List.pairwise_append.mpr ⟨hsepA, List.pairwise_cons.mpr ⟨?_, hsepB⟩, ?_⟩
  · intro y hy
    have hyapart := hapart y (hperm.mem_iff.mp (by simp [hy]))
    have hyle := y.location_le_stop
    have hyB := hB y hy
    show x.stop ≤ y.location
    omega
  · intro y hy z hz
    have hyapart := hapart y (hperm.mem_iff.mp (by simp [hy]))
    have hyle := y.location_le_stop
    have hyA := hA y hy
    rcases List.mem_cons.mp hz with rfl | hz
    · show y.stop ≤ z.location
      omega
    · exact hcross y hy z hz

theorem separated_append_cons : layering.Separated (A ++ x :: B) ↔
    layering.Separated (A ++ B) ∧ (∀ y ∈ A, y.stop ≤ x.location) ∧ ∀ y ∈ B, x.stop ≤ y.location :=
  Layering.separated_append_cons

theorem separated_append_singleton : layering.Separated ((A ++ [x]) ++ B) ↔
    layering.Separated (A ++ B) ∧ (∀ y ∈ A, y.stop ≤ x.location) ∧
      ∀ y ∈ B, x.stop ≤ y.location := by
  rw [List.append_assoc, List.singleton_append]
  exact separated_append_cons

/-- A region that ends before its right neighbour begins. -/
theorem separated_between (h : layering.Separated (A ++ r :: B))
    (hA : ∀ y ∈ A, y.stop ≤ x.location) (hx : x.stop ≤ r.location) :
    layering.Separated (A ++ x :: r :: B) := by
  obtain ⟨-, -, hB⟩ := separated_append_cons.mp h
  refine separated_append_cons.mpr ⟨h, hA, ?_⟩
  refine List.forall_mem_cons.mpr ⟨hx, fun y hy => ?_⟩
  exact Nat.le_trans hx (Nat.le_trans r.location_le_stop (hB y hy))

/-- A region whose right neighbour is cut where it ends. -/
theorem separated_cutAfter (h : layering.Separated (A ++ r :: B))
    (hA : ∀ y ∈ A, y.stop ≤ l.location) (hstop : l.stop ≤ r.stop) :
    layering.Separated (A ++ l :: r.cutAfter l :: B) := by
  obtain ⟨hAB, -, hB⟩ := separated_append_cons.mp h
  refine separated_between (separated_append_cons.mpr ⟨hAB, ?_, ?_⟩) hA (Nat.le_refl _)
  · exact fun y hy => Nat.le_trans (hA y hy) l.location_le_stop
  · rw [cutAfter_stop hstop]
    exact hB

/-- At two regions without an overlap `trim` keeps a map free of overlaps. -/
theorem Trimmed.separated {next : Nat} (h : Trimmed A l r B map' next)
    (hsep : layering.Separated (A ++ l :: r :: B)) :
    layering.Separated map' ∧
      (map' = A ++ l :: r :: B ∧ next = A.length + 1 ∨
        map' = A ++ l.merge r :: B ∧ next = A.length ∧ l.type = r.type) := by
  obtain ⟨hrest, hA, hrB⟩ := separated_append_cons.mp hsep
  obtain ⟨hAB, hAr, hB⟩ := separated_append_cons.mp hrest
  have hlr : l.stop ≤ r.location := hrB r (by simp)
  have hrle := r.location_le_stop
  cases h with
  | merge hmeet htype =>
      refine ⟨separated_append_cons.mpr ⟨hAB, hA, ?_⟩, Or.inr ⟨rfl, rfl, htype⟩⟩
      intro y hy
      have hy' := hB y hy
      rw [merge_stop]
      omega
  | skip => exact ⟨hsep, Or.inl ⟨rfl, rfl⟩⟩
  | dropLeft hover | cutLeft hover | split hover | splitFront hover | dropRight hover
  | cutRight hover => omega

/-! ## The invariant of the loop -/

/-- Where a piece of the new region `N` can start: at its location, or behind a region of higher
type that it meets. -/
def Start (map : MemoryMap) (N : MemoryRegion) (y : Nat) : Prop :=
  y = N.location ∨
    ∃ D ∈ map, N.type.value < D.type.value ∧ N.location ≤ D.stop ∧ y = D.stop

/-- The situation in which `place` leaves an overlap: a piece of `N` starts inside a region `E` of
higher type, a second region `R` of higher type follows `E` without a gap, and `N` reaches beyond
`R` into a further region `G`. -/
def SkipsOverlap (map : MemoryMap) (N : MemoryRegion) : Prop :=
  ∃ E ∈ map, ∃ R ∈ map, ∃ G ∈ map,
    N.type.value < E.type.value ∧ N.type.value < R.type.value ∧
    (∃ y, Start map N y ∧ E.location ≤ y ∧ y < E.stop) ∧
    E.stop = R.location ∧ R.stop < N.stop ∧ G.location < N.stop ∧ R.stop < G.stop

/-- The piece `p` of `N` stands between the regions `A` and `B` of a map that was free of overlaps,
`map`, before `N` was inserted. -/
structure Piece (map : MemoryMap) (N : MemoryRegion) (A : MemoryMap) (p : MemoryRegion)
    (B : MemoryMap) : Prop where
  type_eq : p.type = N.type
  separated : layering.Separated (A ++ B)
  location_le : ∀ r ∈ B, p.location ≤ r.location
  new_location_le : ∀ r ∈ B, N.location ≤ r.location
  stop_eq : ∀ r ∈ B, r.location < p.stop → p.stop = N.stop
  mem_of_right : ∀ r ∈ B, r ∈ map
  mem_of_left : ∀ r ∈ A, N.type.value < r.type.value →
    ∃ o ∈ map, o.type = r.type ∧ o.stop = r.stop ∧ o.location ≤ p.location

/-- The order of insertion: a region behind the piece that starts with it is not shorter. -/
def InOrder (p : MemoryRegion) (B : MemoryMap) : Prop :=
  ∀ r ∈ B, p.location = r.location → p.stop ≤ r.stop

/-- The piece has been moved to the end of a region of higher type in which it started. -/
def Shifted (map : MemoryMap) (N p : MemoryRegion) : Prop :=
  ∃ E ∈ map, N.type.value < E.type.value ∧ E.stop = p.location ∧
    ∃ y, Start map N y ∧ E.location ≤ y ∧ y < E.stop

/-- The states of the loop of `place`: a piece behind the current index, a piece at the current
index, or no overlap left. -/
inductive Settling (map₀ : MemoryMap) (N : MemoryRegion) : MemoryMap → Nat → Prop where
  | before {A p B index} : Piece map₀ N A p B → index < A.length →
      (∀ r ∈ A, r.location ≤ p.location) → Start map₀ N p.location → InOrder p B →
      Settling map₀ N (A ++ p :: B) index
  | here {A p B index} : Piece map₀ N A p B → index = A.length →
      (∀ r ∈ A, r.stop ≤ p.location) → InOrder p B ∨ Shifted map₀ N p →
      Settling map₀ N (A ++ p :: B) index
  | done {map index} : layering.Separated map → Settling map₀ N map index

/-- A region between two parts of a map, with another region inserted into the second part. -/
theorem separated_insertLoop (h : layering.Separated (A ++ B))
    (hA : ∀ y ∈ A, y.stop ≤ r.location) (hB : ∀ y ∈ B, r.stop ≤ y.location)
    (hx : r.stop ≤ x.location) (hapart : ∀ y ∈ B, x.stop ≤ y.location ∨ y.stop ≤ x.location) :
    layering.Separated (A ++ r :: insertLoop x B) := by
  obtain ⟨hsepA, hsepB, hcross⟩ := List.pairwise_append.mp h
  have hrle := r.location_le_stop
  refine separated_append_cons.mpr ⟨List.pairwise_append.mpr
    ⟨hsepA, insertLoop_separated_of_apart hsepB hapart, ?_⟩, hA, forall_mem_insertLoop hx hB⟩
  intro y hy
  exact forall_mem_insertLoop (Nat.le_trans (hA y hy) (Nat.le_trans hrle hx)) (hcross y hy)

/-- A region that a second one splits. -/
theorem separated_split (h : layering.Separated (A ++ l :: B)) (hle : l.location ≤ r.location)
    (hB : ∀ y ∈ B, r.location ≤ y.location) (hstop : r.stop ≤ l.stop) :
    layering.Separated (A ++ l.cutBefore r :: r :: insertLoop (l.cutAfter r) B) := by
  obtain ⟨hAB, hA, hlB⟩ := separated_append_cons.mp h
  have hcut := cutBefore_stop hle
  have hmap : A ++ l.cutBefore r :: r :: insertLoop (l.cutAfter r) B =
      (A ++ [l.cutBefore r]) ++ r :: insertLoop (l.cutAfter r) B := by simp
  rw [hmap]
  refine separated_insertLoop ?_ ?_ ?_ (Nat.le_refl _) ?_
  · exact separated_append_singleton.mpr ⟨hAB, hA, fun y hy => hcut ▸ hB y hy⟩
  · refine List.forall_mem_append.mpr ⟨fun y hy => ?_, List.forall_mem_singleton.mpr ?_⟩
    · exact Nat.le_trans (hA y hy) hle
    · exact Nat.le_of_eq hcut
  · exact fun y hy => Nat.le_trans hstop (hlB y hy)
  · intro y hy
    rw [cutAfter_stop hstop]
    exact Or.inl (hlB y hy)

variable {map₀ : MemoryMap} {next index : Nat}

/-- The part of a shifted piece behind a region that it starts with overlaps nothing, unless an
overlap is skipped. -/
theorem Shifted.apart (h : Shifted map₀ N p) (hsafe : ¬ SkipsOverlap map₀ N) (hr : r ∈ map₀)
    (htype : N.type.value < r.type.value) (hloc : p.location = r.location)
    (hstop : r.stop < p.stop) (hp : p.stop = N.stop) (hB : ∀ y ∈ B, y ∈ map₀) :
    ∀ y ∈ B, (p.cutAfter r).stop ≤ y.location ∨ y.stop ≤ (p.cutAfter r).location := by
  obtain ⟨E, hE, hEtype, hEstop, hstart⟩ := h
  intro G hG
  rw [cutAfter_stop (Nat.le_of_lt hstop), cutAfter_location]
  by_contra hnot
  refine hsafe ⟨E, hE, r, hr, G, hB G hG, hEtype, htype, hstart, hEstop.trans hloc, ?_, ?_, ?_⟩ <;>
    omega

/-! ## The piece meets the region before it -/

/-- What the piece's left neighbour `l` gives to the piece that replaces or follows it. -/
theorem Piece.of_left (h : Piece map₀ N (A ++ [l]) p B) :
    layering.Separated (A ++ B) ∧ (∀ y ∈ A, y.stop ≤ l.location) ∧
      ∀ y ∈ B, l.stop ≤ y.location :=
  separated_append_singleton.mp h.separated

/-- Comparing the piece with its left neighbour. -/
theorem Piece.trimmed_left (h : Piece map₀ N (A ++ [l]) p B) (hle : l.location ≤ p.location)
    (hstart : Start map₀ N p.location) (horder : InOrder p B)
    (htrim : Trimmed A l p B map' next) : Settling map₀ N map' next := by
  obtain ⟨hAB, hA, hB⟩ := h.of_left
  have hsep : layering.Separated (A ++ l :: B) := separated_append_cons.mpr ⟨hAB, hA, hB⟩
  have hlle := l.location_le_stop
  have hleft : ∀ r ∈ A, N.type.value < r.type.value →
      ∃ o ∈ map₀, o.type = r.type ∧ o.stop = r.stop ∧ o.location ≤ l.location := by
    intro r hr hvalue
    obtain ⟨o, ho, htype, hstop, -⟩ := h.mem_of_left r (by simp [hr]) hvalue
    have hole := o.location_le_stop
    have hrstop := hA r hr
    exact ⟨o, ho, htype, hstop, by omega⟩
  cases htrim with
  | merge hmeet htype =>
      refine .here ⟨htype.trans h.type_eq, hAB, ?_, h.new_location_le, ?_, h.mem_of_right, hleft⟩
        rfl hA (Or.inl ?_)
      · exact fun r hr => Nat.le_trans hlle (hB r hr)
      · intro r hr hlt
        have hlr := hB r hr
        rw [merge_stop] at hlt ⊢
        rw [← h.stop_eq r hr (by omega)]
        omega
      · intro r hr heq
        have hlr := hB r hr
        have hrle := r.location_le_stop
        rw [merge_location] at heq
        rw [merge_stop]
        have hstop := horder r hr (by omega)
        omega
  | dropLeft hover htype hloc hstop =>
      refine .here ⟨h.type_eq, hAB, h.location_le, h.new_location_le, h.stop_eq, h.mem_of_right,
        ?_⟩ rfl (fun r hr => hloc ▸ hA r hr) (Or.inl horder)
      exact fun r hr => h.mem_of_left r (by simp [hr])
  | cutLeft hover htype hloc hstop =>
      have hcut := cutBefore_stop (Nat.le_of_lt hloc)
      have hmap : A ++ l.cutBefore p :: p :: B = (A ++ [l.cutBefore p]) ++ p :: B := by simp
      rw [hmap]
      refine .here ⟨h.type_eq, ?_, h.location_le, h.new_location_le, h.stop_eq, h.mem_of_right,
        ?_⟩ (by simp) ?_ (Or.inl horder)
      · exact separated_append_singleton.mpr ⟨hAB, hA, fun y hy => hcut ▸ h.location_le y hy⟩
      · refine List.forall_mem_append.mpr ⟨fun r hr hvalue => ?_,
          List.forall_mem_singleton.mpr fun hvalue => ?_⟩
        · exact h.mem_of_left r (by simp [hr]) hvalue
        · rw [h.type_eq] at htype
          rw [cutBefore_type] at hvalue
          omega
      · refine List.forall_mem_append.mpr ⟨fun r hr => ?_, List.forall_mem_singleton.mpr ?_⟩
        · exact Nat.le_trans (hA r hr) hle
        · exact Nat.le_of_eq hcut
  | split hover htype hloc hstop =>
      exact .done (separated_split hsep hle h.location_le (Nat.le_of_lt hstop))
  | splitFront hover htype hloc hstop =>
      refine .done (separated_insertLoop hAB (fun y hy => hloc ▸ hA y hy) ?_ (Nat.le_refl _) ?_)
      · exact fun y hy => Nat.le_trans (Nat.le_of_lt hstop) (hB y hy)
      · intro y hy
        rw [cutAfter_stop (Nat.le_of_lt hstop)]
        exact Or.inl (hB y hy)
  | dropRight => exact .done hsep
  | cutRight hover htype hstop =>
      have hcut := cutAfter_stop (Nat.le_of_lt hstop)
      have hmap : A ++ l :: p.cutAfter l :: B = (A ++ [l]) ++ p.cutAfter l :: B := by simp
      have hvalue : N.type.value < l.type.value := h.type_eq ▸ htype
      obtain ⟨E, hE, hEtype, hEstop, hElocation⟩ := h.mem_of_left l (by simp) hvalue
      rw [hmap]
      refine .here ⟨h.type_eq, h.separated, hB, h.new_location_le, ?_, h.mem_of_right, ?_⟩
        (by simp) ?_ (Or.inr ⟨E, hE, hEtype ▸ hvalue, hEstop, p.location, hstart, hElocation,
          hEstop ▸ hover⟩)
      · intro r hr hlt
        rw [hcut] at hlt ⊢
        exact h.stop_eq r hr hlt
      · intro r hr hrvalue
        obtain ⟨o, ho, hotype, hostop, holocation⟩ := h.mem_of_left r hr hrvalue
        exact ⟨o, ho, hotype, hostop, Nat.le_trans holocation (Nat.le_of_lt hover)⟩
      · refine List.forall_mem_append.mpr ⟨fun r hr => ?_, List.forall_mem_singleton.mpr ?_⟩
        · exact Nat.le_trans (hA r hr) hlle
        · exact Nat.le_refl _
  | skip hstop =>
      have hmap : A ++ l :: p :: B = (A ++ [l]) ++ p :: B := by simp
      rw [hmap]
      refine .here h (by simp) ?_ (Or.inl horder)
      refine List.forall_mem_append.mpr ⟨fun r hr => ?_, List.forall_mem_singleton.mpr hstop⟩
      exact Nat.le_trans (hA r hr) (Nat.le_trans hlle hstop)

/-! ## The piece meets the region behind it -/

/-- What is behind the piece's right neighbour. -/
theorem Piece.of_right (h : Piece map₀ N A p (r :: B)) :
    layering.Separated (A ++ B) ∧ (∀ y ∈ A, y.stop ≤ r.location) ∧
      ∀ y ∈ B, r.stop ≤ y.location :=
  separated_append_cons.mp h.separated

/-- The piece when its right neighbour has gone. -/
theorem Piece.tail (h : Piece map₀ N A p (r :: B)) : Piece map₀ N A p B where
  type_eq := h.type_eq
  separated := h.of_right.1
  location_le y hy := h.location_le y (by simp [hy])
  new_location_le y hy := h.new_location_le y (by simp [hy])
  stop_eq y hy := h.stop_eq y (by simp [hy])
  mem_of_right y hy := h.mem_of_right y (by simp [hy])
  mem_of_left := h.mem_of_left

/-- The piece behind a region of higher type in which the old piece reaches beyond it. -/
theorem Piece.rest (h : Piece map₀ N A p (r :: B)) (hA : ∀ y ∈ A, y.stop ≤ p.location)
    (hover : r.location < p.stop) (htype : p.type.value < r.type.value)
    (hloc : p.location < r.location) (hstop : r.stop < p.stop) :
    Settling map₀ N (A ++ p.cutBefore r :: r :: insertLoop (p.cutAfter r) B) (A.length + 2) := by
  obtain ⟨hAB, hAr, hrB⟩ := h.of_right
  have hcutBefore := cutBefore_stop (Nat.le_of_lt hloc)
  have hcutAfter := cutAfter_stop (Nat.le_of_lt hstop)
  have hrle := r.location_le_stop
  have hrmap : r ∈ map₀ := h.mem_of_right r (by simp)
  have hsepB : layering.Separated B := (List.pairwise_append.mp hAB).2.1
  obtain ⟨A', B', hinsert, hperm, hsep, hA', hB'⟩ := insertLoop_split hsepB (p.cutAfter r)
  have hmemB : ∀ y, y ∈ A' ∨ y ∈ B' → y ∈ B := fun y hy =>
    hperm.mem_iff.mp (List.mem_append.mpr hy)
  have hmap : A ++ p.cutBefore r :: r :: insertLoop (p.cutAfter r) B =
      (A ++ p.cutBefore r :: r :: A') ++ p.cutAfter r :: B' := by
    rw [hinsert]
    simp
  have hvalue : N.type.value < r.type.value := h.type_eq ▸ htype
  have hpiece : Piece map₀ N (A ++ p.cutBefore r :: r :: A') (p.cutAfter r) B' := by
    refine ⟨h.type_eq, ?_, fun y hy => (hB' y hy).1,
      fun y hy => h.tail.new_location_le y (hmemB y (Or.inr hy)), ?_,
      fun y hy => h.tail.mem_of_right y (hmemB y (Or.inr hy)), ?_⟩
    · have hcross : layering.Separated (A ++ (A' ++ B')) := by
        obtain ⟨hsepA, -, hcross⟩ := List.pairwise_append.mp hAB
        exact List.pairwise_append.mpr ⟨hsepA, hsep, fun y hy z hz =>
          hcross y hy z (hperm.mem_iff.mp hz)⟩
      have hall : (A ++ p.cutBefore r :: r :: A') ++ B' =
          A ++ p.cutBefore r :: r :: (A' ++ B') := by simp
      rw [hall]
      refine separated_between (separated_append_cons.mpr ⟨hcross, hAr, ?_⟩) hA
        (Nat.le_of_eq hcutBefore)
      exact fun y hy => hrB y (hperm.mem_iff.mp hy)
    · intro y hy hlt
      rw [hcutAfter] at hlt ⊢
      exact h.tail.stop_eq y (hmemB y (Or.inr hy)) hlt
    · intro y hy hyvalue
      simp only [List.mem_append, List.mem_cons] at hy
      rcases hy with hy | rfl | rfl | hy
      · obtain ⟨o, ho, hotype, hostop, holocation⟩ := h.mem_of_left y hy hyvalue
        refine ⟨o, ho, hotype, hostop, ?_⟩
        rw [cutAfter_location]
        omega
      · rw [cutBefore_type, h.type_eq] at hyvalue
        exact absurd hyvalue (Nat.lt_irrefl _)
      · exact ⟨y, hrmap, rfl, rfl, hrle⟩
      · exact ⟨y, h.tail.mem_of_right y (hmemB y (Or.inl hy)), rfl, rfl, (hA' y hy).1⟩
  rw [hmap]
  cases A' with
  | nil =>
      refine .here hpiece (by simp) ?_ (Or.inl fun y hy => (hB' y hy).2)
      intro y hy
      simp only [List.mem_append, List.mem_cons, List.not_mem_nil, or_false] at hy
      rw [cutAfter_location]
      rcases hy with hy | rfl | rfl
      · exact Nat.le_trans (hAr y hy) hrle
      · exact hcutBefore ▸ hrle
      · exact Nat.le_refl _
  | cons z A' =>
      refine .before hpiece (by simp) ?_ (Or.inr ⟨r, hrmap, hvalue, ?_, rfl⟩)
        fun y hy => (hB' y hy).2
      · intro y hy
        have hyle := y.location_le_stop
        simp only [List.mem_append, List.mem_cons] at hy
        rw [cutAfter_location]
        rcases hy with hy | rfl | rfl | hy
        · have hyr := hAr y hy
          omega
        · rw [cutBefore_location]
          omega
        · exact hrle
        · exact (hA' y (List.mem_cons.mpr hy)).1
      · have hnew := h.new_location_le r (by simp)
        omega

/-- Comparing the piece with its right neighbour. -/
theorem Piece.trimmed_right (h : Piece map₀ N A p (r :: B)) (hA : ∀ y ∈ A, y.stop ≤ p.location)
    (horder : InOrder p (r :: B) ∨ Shifted map₀ N p) (hsafe : ¬ SkipsOverlap map₀ N)
    (htrim : Trimmed A p r B map' next) : Settling map₀ N map' next := by
  obtain ⟨hAB, hAr, hrB⟩ := h.of_right
  have hpr : p.location ≤ r.location := h.location_le r (by simp)
  have hsep := h.separated
  cases htrim with
  | merge hmeet htype =>
      refine .here ⟨h.type_eq, hAB, h.tail.location_le, h.tail.new_location_le, ?_,
        h.tail.mem_of_right, h.mem_of_left⟩ rfl hA (horder.imp ?_ id)
      · intro y hy hlt
        have hry := hrB y hy
        rw [merge_stop] at hlt ⊢
        rw [← h.tail.stop_eq y hy (by omega)]
        omega
      · intro horder y hy heq
        have hry := hrB y hy
        have hyle := y.location_le_stop
        have hstop := horder y (by simp [hy]) heq
        rw [merge_stop]
        omega
  | dropLeft => exact .done hsep
  | cutLeft hover htype hloc hstop =>
      exact .done (separated_between hsep hA (Nat.le_of_eq (cutBefore_stop hpr)))
  | split hover htype hloc hstop => exact h.rest hA hover htype hloc hstop
  | splitFront hover htype hloc hstop =>
      rcases horder with horder | hshift
      · have hnot := horder r (by simp) hloc
        omega
      · exact .done (separated_insertLoop hAB hAr hrB (Nat.le_refl _)
          (hshift.apart hsafe (h.mem_of_right r (by simp)) (h.type_eq ▸ htype) hloc hstop
            (h.stop_eq r (by simp) hover) h.tail.mem_of_right))
  | dropRight hover htype hstop =>
      exact .here h.tail rfl hA (horder.imp (fun horder y hy => horder y (by simp [hy])) id)
  | cutRight hover htype hstop =>
      exact .done (separated_cutAfter hsep hA (Nat.le_of_lt hstop))
  | skip hstop => exact .done (separated_between hsep hA hstop)

/-! ## The loop -/

/-- Comparing two regions before the piece. -/
theorem Piece.trimmed_inner {C : MemoryMap} (h : Piece map₀ N (A ++ l :: r :: C) p B)
    (hle : ∀ y ∈ A ++ l :: r :: C, y.location ≤ p.location) (hstart : Start map₀ N p.location)
    (horder : InOrder p B) (htrim : Trimmed A l r (C ++ p :: B) map' next) :
    Settling map₀ N map' next := by
  have hsep : layering.Separated (A ++ l :: r :: (C ++ B)) := by simpa using h.separated
  have hlr : l.stop ≤ r.location := (separated_append_cons.mp hsep).2.2 r (by simp)
  have hrle := r.location_le_stop
  cases htrim with
  | merge hmeet htype =>
      have hmap : A ++ l.merge r :: (C ++ p :: B) = (A ++ l.merge r :: C) ++ p :: B := by simp
      have hsep' := (Trimmed.merge (B := C ++ B) hmeet htype).separated hsep
      rw [hmap]
      refine .before ⟨h.type_eq, by simpa using hsep'.1, h.location_le, h.new_location_le,
        h.stop_eq, h.mem_of_right, ?_⟩ (by simp) ?_ hstart horder
      · intro y hy hvalue
        simp only [List.mem_append, List.mem_cons] at hy
        rcases hy with hy | rfl | hy
        · exact h.mem_of_left y (by simp [hy]) hvalue
        · rw [merge_type, htype] at hvalue
          obtain ⟨o, ho, hotype, hostop, holocation⟩ := h.mem_of_left r (by simp) hvalue
          refine ⟨o, ho, by rw [hotype, merge_type, htype], ?_, holocation⟩
          rw [hostop, merge_stop]
          omega
        · exact h.mem_of_left y (by simp [hy]) hvalue
      · intro y hy
        simp only [List.mem_append, List.mem_cons] at hy
        rcases hy with hy | rfl | hy
        · exact hle y (by simp [hy])
        · exact hle l (by simp)
        · exact hle y (by simp [hy])
  | skip =>
      have hmap : A ++ l :: r :: (C ++ p :: B) = (A ++ l :: r :: C) ++ p :: B := by simp
      rw [hmap]
      exact .before h (by simp) hle hstart horder
  | dropLeft hover | cutLeft hover | split hover | splitFront hover | dropRight hover
  | cutRight hover => omega

/-- Two neighbours of a map in a state of the loop are in order, behind regions that end before
them, and comparing them leads to a state of the loop again. -/
theorem Settling.pair (h : Settling map₀ N map index) (hindex : index + 1 < map.length) :
    ∃ A l r B, map = A ++ l :: r :: B ∧ index = A.length ∧ l.location ≤ r.location ∧
      (∀ y ∈ A, y.stop ≤ l.location) ∧
      (¬ SkipsOverlap map₀ N → ∀ map' next, Trimmed A l r B map' next →
        Settling map₀ N map' next) := by
  cases h with
  | @before A p B _ hpiece hlt hle hstart horder =>
      by_cases hinner : index + 1 < A.length
      · obtain ⟨A, l, r, C, rfl, rfl⟩ := exists_pair hinner
        obtain ⟨-, hA, hlr⟩ := separated_append_cons.mp
          (show layering.Separated (A ++ l :: r :: (C ++ B)) by simpa using hpiece.separated)
        refine ⟨A, l, r, C ++ p :: B, by simp, rfl, ?_, hA, fun _ _ _ htrim =>
          hpiece.trimmed_inner hle hstart horder htrim⟩
        exact Nat.le_trans l.location_le_stop (hlr r (by simp))
      · obtain ⟨A, l, rfl⟩ : ∃ A' l, A = A' ++ [l] :=
          ⟨A.dropLast, A.getLast (List.ne_nil_of_length_pos (Nat.zero_lt_of_lt hlt)),
            (List.dropLast_append_getLast _).symm⟩
        rw [List.length_append, List.length_singleton] at hlt hinner
        refine ⟨A, l, p, B, by simp, by omega, hle l (by simp), hpiece.of_left.2.1,
          fun _ _ _ htrim => hpiece.trimmed_left (hle l (by simp)) hstart horder htrim⟩
  | @here A p B _ hpiece hlength hA horder =>
      cases B with
      | nil =>
          simp only [List.length_append, List.length_singleton, hlength] at hindex
          omega
      | cons r B =>
          exact ⟨A, p, r, B, rfl, hlength, hpiece.location_le r (by simp), hA,
            fun hsafe _ _ htrim => hpiece.trimmed_right hA horder hsafe htrim⟩
  | done hsep =>
      obtain ⟨A, l, r, B, rfl, rfl⟩ := exists_pair hindex
      obtain ⟨-, hA, hlr⟩ := separated_append_cons.mp hsep
      exact ⟨A, l, r, B, rfl, rfl, Nat.le_trans l.location_le_stop (hlr r (by simp)), hA,
        fun _ _ _ htrim => .done (htrim.separated hsep).1⟩

/-- At the last region no overlap is left. -/
theorem Settling.separated (h : Settling map₀ N map index) (hindex : map.length ≤ index + 1) :
    layering.Separated map := by
  cases h with
  | before hpiece hlt =>
      simp only [List.length_append, List.length_cons] at hindex
      omega
  | @here A p B _ hpiece hlength hA =>
      simp only [List.length_append, List.length_cons, hlength] at hindex
      obtain rfl : B = [] := List.eq_nil_of_length_eq_zero (by omega)
      exact separated_append_cons.mpr ⟨hpiece.separated, hA, by simp⟩
  | done hsep => exact hsep

/-- The loop of `place` ends in a map without overlaps and keeps the levels. -/
theorem Settling.trimLoop {fuel : Nat} (h : Settling map₀ N map index) (hfit : AllFit map)
    (hsafe : ¬ SkipsOverlap map₀ N) (hloop : trimLoop fuel map index = some map') :
    layering.Separated map' ∧ AllFit map' ∧
      ∀ a, layering.level map' a = layering.level map a := by
  induction fuel generalizing map index with
  | zero => simp [MemoryMap.trimLoop] at hloop
  | succ fuel ih =>
      rw [MemoryMap.trimLoop] at hloop
      by_cases hindex : map.length ≤ index + 1
      · simp only [trim_end hindex, Option.bind_eq_bind, Option.bind_some] at hloop
        obtain rfl : map = map' := Option.some.inj hloop
        exact ⟨h.separated hindex, hfit, fun _ => rfl⟩
      · obtain ⟨A, l, r, B, rfl, rfl, hle, hA, hnext⟩ := h.pair (Nat.lt_of_not_le hindex)
        cases htrim : trim (A ++ l :: r :: B) A.length with
        | none => simp [htrim] at hloop
        | some result =>
            obtain ⟨map₁, next⟩ := result
            obtain ⟨index, rfl, hcase⟩ :=
              trim_cases (hfit l (by simp)) (hfit r (by simp)) hle hA htrim
            simp only [htrim, Option.bind_eq_bind, Option.bind_some] at hloop
            obtain ⟨hsep, hfit', hlevel⟩ :=
              ih (hnext hsafe _ _ hcase) (hcase.allFit hle hfit) hloop
            exact ⟨hsep, hfit', fun a => (hlevel a).trans (hcase.level_eq hle a)⟩

/-- After the insertion of a region the loop starts in one of its states. -/
theorem settling_insertLoop (hsep : layering.Separated map₀) (N : MemoryRegion) :
    Settling map₀ N (insertLoop N map₀) 0 := by
  obtain ⟨A, B, hinsert, hperm, hsep', hA, hB⟩ := insertLoop_split hsep N
  have hmem : ∀ y, y ∈ A ∨ y ∈ B → y ∈ map₀ := fun y hy =>
    hperm.mem_iff.mp (List.mem_append.mpr hy)
  have hpiece : Piece map₀ N A N B := {
    type_eq := rfl
    separated := hsep'
    location_le := fun y hy => (hB y hy).1
    new_location_le := fun y hy => (hB y hy).1
    stop_eq := fun _ _ _ => rfl
    mem_of_right := fun y hy => hmem y (Or.inr hy)
    mem_of_left := fun y hy _ => ⟨y, hmem y (Or.inl hy), rfl, rfl, (hA y hy).1⟩ }
  rw [hinsert]
  cases A with
  | nil => exact .here hpiece rfl (by simp) (Or.inl fun y hy => (hB y hy).2)
  | cons y A =>
      exact .before hpiece (by simp) (fun y hy => (hA y hy).1) (Or.inl rfl)
        fun y hy => (hB y hy).2

/-- A successful call of `place` inserts the region and goes through the array. -/
theorem place_trimLoop {type : MemoryType} {location size : Nat}
    (h : place map type location size = some (map', 0)) :
    ∃ fuel, trimLoop fuel (insertLoop ⟨type, location, size⟩ map) 0 = some map' := by
  unfold place at h
  split at h
  next =>
    obtain ⟨map₁, hinsert, h⟩ := Option.bind_eq_some_iff.mp h
    obtain ⟨map₂, hloop, hresult⟩ := Option.bind_eq_some_iff.mp h
    obtain ⟨rfl, -⟩ := Prod.mk.inj (Option.some.inj hresult)
    rw [insert] at hinsert
    split at hinsert
    · obtain rfl := Option.some.inj hinsert
      exact ⟨_, hloop⟩
    · cases hinsert
  next => simp at h

/-- A successful call of `place` keeps a map free of overlaps, unless it skips one, and raises the
levels of the addresses in the new region to its type. -/
theorem place_separated {type : MemoryType} {location size : Nat}
    (hsep : layering.Separated map) (hfit : AllFit map) (hnew : location + size < 2 ^ 64)
    (hsafe : ¬ SkipsOverlap map ⟨type, location, size⟩)
    (hplace : place map type location size = some (map', 0)) :
    layering.Separated map' ∧ AllFit map' ∧
      ∀ a, layering.level map' a =
        max (layering.share ⟨type, location, size⟩ a) (layering.level map a) := by
  obtain ⟨fuel, hloop⟩ := place_trimLoop hplace
  have hinsert : AllFit (insertLoop ⟨type, location, size⟩ map) := forall_mem_insertLoop hnew hfit
  obtain ⟨hsep', hfit', hlevel⟩ := (settling_insertLoop hsep _).trimLoop hinsert hsafe hloop
  exact ⟨hsep', hfit', fun a => (hlevel a).trans (level_insertLoop _ _ a)⟩

/-! ## Termination -/

/-- The loop ends when the passes left cover the rest of the array and every pass finds room. -/
theorem trimLoop_total {fuel : Nat} (hfuel : map.length ≤ index + fuel) (hpos : 0 < fuel)
    (hroom : 2 * map.length ≤ capacity + index + 1) :
    ∃ map', trimLoop fuel map index = some map' := by
  induction fuel generalizing map index with
  | zero => omega
  | succ fuel ih =>
      rw [trimLoop]
      by_cases hindex : index + 1 < map.length
      · obtain ⟨hsome, hprogress⟩ := trim_progress hindex
        obtain ⟨⟨map₁, next⟩, htrim⟩ := hsome (by omega)
        obtain ⟨j, rfl, hlength, hgrow⟩ := hprogress _ _ htrim
        simp only [htrim, Option.bind_eq_bind, Option.bind_some]
        exact ih (by omega) (by omega) (by omega)
      · simp only [trim_end (Nat.le_of_not_lt hindex), Option.bind_eq_bind, Option.bind_some]
        exact ⟨map, rfl⟩

/-- In a map that is at most half full `place` succeeds. -/
theorem place_total {type : MemoryType} {location size : Nat}
    (h : 2 * map.length + 1 ≤ capacity) :
    ∃ map', place map type location size = some (map', 0) := by
  have hlength := (insertLoop_perm ⟨type, location, size⟩ map).length_eq
  rw [List.length_cons] at hlength
  obtain ⟨map', hloop⟩ : ∃ map', trimLoop (map.length + 1)
      (insertLoop ⟨type, location, size⟩ map) 0 = some map' :=
    trimLoop_total (by omega) (by omega) (by omega)
  have hguard : map.length ≤ capacity - 2 := by omega
  have hinsert : map.length < capacity := by omega
  refine ⟨map', ?_⟩
  simp [place, hguard, insert, hinsert, hlength, hloop]

/-! ## Runs -/

/-- A successful call of `place` with a region whose end does not wrap. -/
def Placed (map : MemoryMap) (N : MemoryRegion) (map' : MemoryMap) : Prop :=
  N.location + N.size < 2 ^ 64 ∧ place map N.type N.location N.size = some (map', 0)

/-- The address `a` lies in the region `r`. -/
def InRegion (r : MemoryRegion) (a : Nat) : Prop := layering.Covers r a

/-- The map is the layout that the placed regions describe: sorted, without overlaps, with the
highest of the placed types at every address, and with nothing where nothing was placed. -/
structure Describes (map : MemoryMap) (placed : List MemoryRegion) : Prop where
  sorted : map.Pairwise fun r s => r.location ≤ s.location
  apart : map.Pairwise fun r s => ¬ r.overlaps s
  type_placed : ∀ r ∈ map, ∀ a, InRegion r a → ∃ N ∈ placed, InRegion N a ∧ N.type = r.type
  type_highest : ∀ r ∈ map, ∀ a, InRegion r a → ∀ N ∈ placed, InRegion N a →
    N.type.value ≤ r.type.value
  covered_iff : ∀ a, (∃ r ∈ map, InRegion r a) ↔ ∃ N ∈ placed, InRegion N a

/-- Along a run of calls that skip no overlap the levels are those of the regions placed. -/
theorem run_levels {placed : List MemoryRegion}
    (h : Run (Guarded (fun map N => ¬ SkipsOverlap map N) Placed) map placed map')
    (hsep : layering.Separated map) (hfit : AllFit map) :
    layering.Separated map' ∧ AllFit map' ∧
      ∀ a, layering.level map' a = max (layering.level placed a) (layering.level map a) := by
  induction h with
  | nil map => exact ⟨hsep, hfit, fun a => by simp⟩
  | cons hstep _ ih =>
      obtain ⟨hsafe, hnew, hplace⟩ := hstep
      obtain ⟨hsep', hfit', hlevel⟩ := place_separated hsep hfit hnew hsafe hplace
      obtain ⟨hsep'', hfit'', hlevel'⟩ := ih hsep' hfit'
      refine ⟨hsep'', hfit'', fun a => ?_⟩
      rw [hlevel' a, hlevel a, Layering.level_cons, Nat.max_left_comm, Nat.max_assoc]

/-- A map without overlaps whose levels are those of the placed regions is their layout. -/
theorem describes_of_levels {placed : List MemoryRegion} (hsep : layering.Separated map)
    (hfit : AllFit map) (hlevel : ∀ a, layering.level map a = layering.level placed a) :
    Describes map placed where
  sorted := hsep.imp fun hstop => Nat.le_trans (location_le_stop _) hstop
  apart := by
    refine hsep.imp_of_mem fun {r s} hr _ hstop => ?_
    rw [overlaps_iff (hfit r hr) (Nat.le_trans r.location_le_stop hstop)]
    exact Nat.not_lt_of_le hstop
  type_placed := by
    intro r hr a hcovers
    have hrank := hsep.level_eq hr hcovers
    have hpos : 0 < layering.level placed a := by
      rw [← hlevel a, hrank]
      exact r.type.value_pos
    obtain ⟨N, hN, hNcovers, hNrank⟩ := Layering.exists_of_level_pos hpos
    refine ⟨N, hN, hNcovers, MemoryType.value_inj.mp ?_⟩
    rw [← hlevel a, hrank] at hNrank
    exact hNrank
  type_highest := by
    intro r hr a hcovers N hN hNcovers
    have hle := Layering.rank_le_level hN hNcovers
    rw [← hlevel a, hsep.level_eq hr hcovers] at hle
    exact hle
  covered_iff := by
    have hpos : ∀ (map : MemoryMap) (a : Nat), (∃ r ∈ map, InRegion r a) ↔
        0 < layering.level map a := by
      intro map a
      constructor
      · rintro ⟨r, hr, hcovers⟩
        exact Nat.lt_of_lt_of_le r.type.value_pos (Layering.rank_le_level hr hcovers)
      · intro hpos
        obtain ⟨r, hr, hcovers, -⟩ := Layering.exists_of_level_pos hpos
        exact ⟨r, hr, hcovers⟩
    intro a
    rw [hpos map, hlevel a, ← hpos placed]

/-- Calls of `place` that skip no overlap build the layout that the placed regions describe. -/
theorem place_run_describes {placed : List MemoryRegion}
    (h : Run (Guarded (fun map N => ¬ SkipsOverlap map N) Placed) [] placed map) :
    Describes map placed := by
  obtain ⟨hsep, hfit, hlevel⟩ := run_levels h List.Pairwise.nil (fun r hr => by simp at hr)
  exact describes_of_levels hsep hfit fun a => by simpa using hlevel a

/-- A region of low type around one of high type. -/
theorem place_run_describes_two :
    Describes [⟨.AVAILABLE, 0, 4⟩, ⟨.DEFECTIVE, 4, 4⟩, ⟨.AVAILABLE, 8, 2⟩]
      [⟨.DEFECTIVE, 4, 4⟩, ⟨.AVAILABLE, 0, 10⟩] := by
  refine place_run_describes (.cons ⟨?_, by decide, rfl⟩ (.cons ⟨?_, by decide, rfl⟩ (.nil _)))
  · rintro ⟨E, hE, -⟩
    simp at hE
  · rintro ⟨E, hE, R, hR, G, hG, -, -, -, hgap, -⟩
    simp only [insertLoop, List.mem_singleton] at hE hR
    subst hE hR
    simp [stop] at hgap

/-- Three regions in a row and a fourth one of lower type below them: the part of the fourth one
behind the second overlaps the third. -/
theorem place_skips_overlap :
    ∃ placed map, Run Placed [] placed map ∧ ¬ map.Pairwise fun r s => ¬ r.overlaps s := by
  refine ⟨[⟨.UNAVAILABLE, 10, 10⟩, ⟨.DEFECTIVE, 20, 10⟩, ⟨.UNAVAILABLE, 40, 10⟩,
    ⟨.AVAILABLE, 15, 45⟩],
    [⟨.UNAVAILABLE, 10, 10⟩, ⟨.DEFECTIVE, 20, 10⟩, ⟨.AVAILABLE, 30, 30⟩, ⟨.UNAVAILABLE, 40, 10⟩],
    .cons ⟨by decide, rfl⟩ (.cons ⟨by decide, rfl⟩ (.cons ⟨by decide, rfl⟩ (.cons
      ⟨by decide, rfl⟩ (.nil _)))), by decide⟩

end MemoryMap

end CrosKernel.Memory
