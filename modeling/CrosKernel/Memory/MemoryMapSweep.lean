import CrosKernel.Memory.MemoryMapPlace
import Mathlib.Data.List.Chain

/-!
# How a new region goes through a map

In a map as `place` is meant to leave it the loop of `place` passes the regions one by one. `Sweep`
is its invariant: which regions of the old map are passed, where the piece of the new region stands
that is still to be compared, and how many places the regions before it take. `places` counts these:
a region that is `Swallowed` takes none, and one that cuts the new region in two takes two.
-/

namespace CrosKernel.Memory

open Lib MemoryRegion

namespace MemoryMap

variable {A B C L map map' map₀ : MemoryMap} {l r p s x N : MemoryRegion} {next index : Nat}

/-- The first region ends where the second one of the same type begins. -/
def Touches (r s : MemoryRegion) : Prop := r.stop = s.location ∧ r.type = s.type

instance (r s : MemoryRegion) : Decidable (Touches r s) := inferInstanceAs (Decidable (_ ∧ _))

/-- A map as the documentation of `place` and `trim` describes it: sorted regions without overlaps,
none of them empty, with adjacent regions of the same type merged. -/
structure Neat (map : MemoryMap) : Prop where
  separated : layering.Separated map
  allFit : AllFit map
  size_pos : ∀ r ∈ map, 0 < r.size
  merged : map.IsChain fun r s => ¬ Touches r s

theorem neat_nil : Neat [] where
  separated := .nil
  allFit := fun r hr => by simp at hr
  size_pos := fun r hr => by simp at hr
  merged := .nil

theorem location_lt_stop (h : 0 < r.size) : r.location < r.stop := Nat.lt_add_of_pos_right h

/-- Two regions of a neat map that touch are neighbours. -/
theorem Neat.not_touches (h : Neat map) (hr : r ∈ map) (hs : s ∈ map) : ¬ Touches r s := by
  rintro ⟨hstop, htype⟩
  obtain ⟨A, B, rfl⟩ := List.append_of_mem hr
  have hrlt := location_lt_stop (h.size_pos r hr)
  have hslt := location_lt_stop (h.size_pos s hs)
  obtain ⟨-, hA, hB⟩ := Layering.separated_append_cons.mp h.separated
  rcases List.mem_append.mp hs with hs | hs
  · have hle : s.stop ≤ r.location := hA s hs
    omega
  · rcases List.mem_cons.mp hs with rfl | hs
    · omega
    · cases B with
      | nil => simp at hs
      | cons t B =>
          have hchain := (List.isChain_append.mp h.merged).2.1
          rw [List.isChain_cons_cons] at hchain
          rcases List.mem_cons.mp hs with rfl | hs
          · exact hchain.1 ⟨hstop, htype⟩
          · -- a region between the two would be empty
            have hrt : r.stop ≤ t.location := hB t (by simp)
            have hts : t.stop ≤ s.location :=
              (List.pairwise_cons.mp (List.pairwise_cons.mp
                (List.pairwise_append.mp h.separated).2.1).2).1 s hs
            have htlt := location_lt_stop (h.size_pos t (by simp))
            omega

/-! ## Insertion into a map without empty regions -/

/-- A region that comes before all others is inserted in front of them. -/
theorem insertLoop_front (h : layering.Separated (x :: L)) (hx : 0 < x.size)
    (hL : ∀ y ∈ L, 0 < y.size) : insertLoop x L = x :: L := by
  induction L generalizing x with
  | nil => rfl
  | cons y L ih =>
      obtain ⟨hxy, hyL⟩ := List.pairwise_cons.mp h
      have hlt : x.lt y := by
        have hle : x.stop ≤ y.location := hxy y (by simp)
        have hxlt := location_lt_stop hx
        rw [lt_iff]
        omega
      rw [insertLoop, if_pos hlt, ih hyL (hL y (by simp)) fun z hz => hL z (by simp [hz])]

/-- Where a region is inserted, when no region of the map is empty. -/
theorem insertLoop_between (h : layering.Separated L) (hpos : ∀ y ∈ L, 0 < y.size)
    (x : MemoryRegion) : ∃ A B, insertLoop x L = A ++ x :: B ∧ L = A ++ B ∧
      (∀ y ∈ A, y.location ≤ x.location ∧ (y.location = x.location → y.stop ≤ x.stop)) ∧
      ∀ y ∈ B, x.location ≤ y.location ∧ (x.location = y.location → x.stop ≤ y.stop) := by
  induction L with
  | nil => exact ⟨[], [], rfl, rfl, by simp, by simp⟩
  | cons y L ih =>
      obtain ⟨hy, hL⟩ := List.pairwise_cons.mp h
      have hposL : ∀ z ∈ L, 0 < z.size := fun z hz => hpos z (by simp [hz])
      rw [insertLoop]
      split
      next hlt =>
        rw [lt_iff] at hlt
        refine ⟨[], y :: L, ?_, rfl, by simp, ?_⟩
        · rw [insertLoop_front h (hpos y (by simp)) hposL]
          rfl
        · intro z hz
          rcases List.mem_cons.mp hz with rfl | hz
          · simp only [stop]
            omega
          · have hyz : y.stop ≤ z.location := hy z hz
            have hylt := location_lt_stop (hpos y (by simp))
            omega
      next hnotlt =>
        rw [lt_iff] at hnotlt
        obtain ⟨A, B, hinsert, rfl, hA, hB⟩ := ih hL hposL
        refine ⟨y :: A, B, by rw [hinsert]; rfl, rfl, ?_, hB⟩
        intro z hz
        rcases List.mem_cons.mp hz with rfl | hz
        · simp only [stop]
          omega
        · exact hA z hz

/-! ## Places in the array -/

/-- The region `r` of the map cuts a piece of the new region `N` in two: it has a higher type and
lies inside `N`, and the piece does not start with it. -/
def IsCut (map : MemoryMap) (N r : MemoryRegion) : Prop :=
  N.type.value < r.type.value ∧ N.location < r.location ∧ r.stop < N.stop ∧
    ∀ E ∈ map, N.type.value < E.type.value → E.stop ≠ r.location

instance (map : MemoryMap) (N r : MemoryRegion) : Decidable (IsCut map N r) :=
  inferInstanceAs (Decidable (_ ∧ _))

/-- The region `s` of the map goes into the new region `N`: it has no higher type and lies inside
`N`, or it has the same type and reaches up to `N`. -/
def Swallowed (map : MemoryMap) (N s : MemoryRegion) : Prop :=
  s.type.value ≤ N.type.value ∧ N.location ≤ s.location ∧ s.stop ≤ N.stop ∨
    s.type = N.type ∧ s.location < N.location ∧ (N.location < s.stop ∨
      s.stop = N.location ∧ ∀ t ∈ map, t.location = N.location → N.stop < t.stop)

instance (map : MemoryMap) (N s : MemoryRegion) : Decidable (Swallowed map N s) :=
  inferInstanceAs (Decidable (_ ∨ _))

/-- The places that the regions `C` of the map and the pieces of `N` between them take. -/
def places (map : MemoryMap) (N : MemoryRegion) (C : MemoryMap) : Nat :=
  C.countP (fun s => ¬ Swallowed map N s) + C.countP fun s => IsCut map N s

theorem places_le_append (map : MemoryMap) (N : MemoryRegion) (C B : MemoryMap) :
    places map N C ≤ places map N (C ++ B) := by
  simp only [places, List.countP_append]
  omega

/-- A region that is not swallowed takes a place. -/
theorem places_kept (h : ¬ Swallowed map N s) :
    places map N C + 1 ≤ places map N (C ++ [s]) := by
  simp only [places, List.countP_append, List.countP_singleton, h]
  simp
  omega

/-- A region that cuts takes two. -/
theorem places_cut (h : IsCut map N s) : places map N C + 2 ≤ places map N (C ++ [s]) := by
  have hkept : ¬ Swallowed map N s := by
    obtain ⟨hvalue, -⟩ := h
    rintro (⟨hle, -⟩ | ⟨htype, -⟩)
    · omega
    · rw [htype] at hvalue
      omega
  simp only [places, List.countP_append, List.countP_singleton, h, hkept]
  simp
  omega

/-- Regions that are all kept take a place each. -/
theorem length_le_places (h : ∀ s ∈ C, ¬ Swallowed map N s) : C.length ≤ places map N C := by
  have hcount : C.countP (fun s => ¬ Swallowed map N s) = C.length :=
    List.countP_eq_length.mpr fun s hs => by simpa using h s hs
  rw [places, hcount]
  omega

/-! ## The states of the loop -/

/-- A map of the old map's regions `C`, which are passed, and `B`, which are not. In the array the
regions `A` stand for `C`, and the region `l` is compared with the piece `p` behind it. -/
structure Facing (map₀ : MemoryMap) (N : MemoryRegion) (C A : MemoryMap) (l p : MemoryRegion)
    (B : MemoryMap) : Prop where
  map_eq : map₀ = C ++ l :: B
  type_eq : p.type = N.type
  stop_eq : p.stop = N.stop
  separated : layering.Separated (A ++ l :: B)
  location_le : l.location ≤ p.location
  tie : l.location = p.location → l.stop ≤ p.stop
  order : ∀ r ∈ B, p.location ≤ r.location ∧ (p.location = r.location → p.stop ≤ r.stop)
  new_order : ∀ r ∈ B, N.location ≤ r.location ∧ (N.location = r.location → N.stop ≤ r.stop)
  original : ∀ r ∈ A, N.type.value < r.type.value → r ∈ map₀
  length_le : A.length ≤ places map₀ N C
  source : p = N ∧ A = C ∨ p.location = l.location ∧ ∃ A' r, A = A' ++ [r] ∧ r ∈ map₀ ∧
    N.type.value < r.type.value ∧ r.stop = p.location ∧ N.location ≤ r.stop

/-- The same when the piece `p` is to be compared with the first region of `B`. -/
structure Leading (map₀ : MemoryMap) (N : MemoryRegion) (C A : MemoryMap) (p : MemoryRegion)
    (B : MemoryMap) : Prop where
  map_eq : map₀ = C ++ B
  type_eq : p.type = N.type
  separated : layering.Separated (A ++ B)
  stop_le : ∀ r ∈ A, r.stop ≤ p.location
  location_le : ∀ r ∈ B, p.location ≤ r.location
  stop_eq : ∀ r ∈ B, r.location < p.stop → p.stop = N.stop
  new_order : ∀ r ∈ B, N.location ≤ r.location ∧ (N.location = r.location → N.stop ≤ r.stop)
  higher : ∀ E ∈ C, N.type.value < E.type.value → E.stop ≤ p.location
  original : ∀ r ∈ A, N.type.value < r.type.value → r ∈ map₀
  length_le : A.length ≤ places map₀ N C
  order : InOrder p B ∨ Shifted map₀ N p

/-- The states of the loop of `place`, from a neat map. -/
inductive Sweep (map₀ : MemoryMap) (N : MemoryRegion) : MemoryMap → Nat → Prop where
  | before {C B : MemoryMap} {l : MemoryRegion} {index : Nat} : Facing map₀ N C C l N B →
      index < C.length →
      Sweep map₀ N (C ++ l :: N :: B) index
  | facing {C A B : MemoryMap} {l p : MemoryRegion} : Facing map₀ N C A l p B →
      Sweep map₀ N (A ++ l :: p :: B) A.length
  | leading {C A B : MemoryMap} {p : MemoryRegion} : Leading map₀ N C A p B →
      Sweep map₀ N (A ++ p :: B) A.length
  | done {map : MemoryMap} {index : Nat} : layering.Separated map → Sweep map₀ N map index

/-- Where the piece starts, in terms of the map before. -/
theorem Facing.start (h : Facing map₀ N C A l p B) : Start map₀ N p.location := by
  rcases h.source with ⟨rfl, -⟩ | ⟨-, A', r, -, hr, hvalue, hstop, hle⟩
  · exact .inl rfl
  · exact .inr ⟨r, hr, hvalue, hle, hstop.symm⟩

theorem Facing.parts (h : Facing map₀ N C A l p B) : layering.Separated (A ++ B) ∧
    (∀ y ∈ A, y.stop ≤ l.location) ∧ ∀ y ∈ B, l.stop ≤ y.location :=
  separated_append_cons.mp h.separated

/-- The regions of higher type that are passed end before the left neighbour. -/
theorem Facing.higher (h : Facing map₀ N C A l p B) (hneat : Neat map₀) :
    ∀ E ∈ C, E.stop ≤ l.location := by
  have hsep := hneat.separated
  rw [h.map_eq] at hsep
  exact (separated_append_cons.mp hsep).2.1

/-- The piece takes the place of its left neighbour, or comes after it. -/
theorem Facing.leading (h : Facing map₀ N C A l p B) (hneat : Neat map₀) {A' : MemoryMap}
    {p' : MemoryRegion} (htype : p'.type = N.type) (hA' : A' = A ∨ ∃ x, A' = A ++ [x] ∧
      ¬ Swallowed map₀ N l ∧ l.location ≤ x.location ∧ x.stop ≤ l.stop ∧ x.stop ≤ p'.location ∧
      (N.type.value < x.type.value → x = l))
    (hle : l.location ≤ p'.location) (hlocation : ∀ r ∈ B, p'.location ≤ r.location)
    (hstop : ∀ r ∈ B, r.location < p'.stop → p'.stop = N.stop)
    (hhigher : N.type.value < l.type.value → l.stop ≤ p'.location)
    (horder : InOrder p' B ∨ Shifted map₀ N p') : Leading map₀ N (C ++ [l]) A' p' B := by
  obtain ⟨hAB, hA, hB⟩ := h.parts
  have hl : l ∈ map₀ := by simp [h.map_eq]
  have hpassed : ∀ E ∈ C ++ [l], N.type.value < E.type.value → E.stop ≤ p'.location := by
    refine List.forall_mem_append.mpr ⟨fun E hE _ => ?_, List.forall_mem_singleton.mpr hhigher⟩
    exact Nat.le_trans (h.higher hneat E hE) hle
  have hmap : map₀ = (C ++ [l]) ++ B := by simp [h.map_eq]
  rcases hA' with rfl | ⟨x, rfl, hkept, hxle, hxstop, hxp, hxl⟩
  · exact ⟨hmap, htype, hAB, fun r hr => Nat.le_trans (hA r hr) hle, hlocation, hstop,
      h.new_order, hpassed, h.original,
      Nat.le_trans h.length_le (places_le_append _ _ _ _), horder⟩
  · refine ⟨hmap, htype, ?_, ?_, hlocation, hstop, h.new_order, hpassed, ?_, ?_, horder⟩
    · refine separated_append_singleton.mpr ⟨hAB, ?_, ?_⟩
      · exact fun y hy => Nat.le_trans (hA y hy) hxle
      · exact fun y hy => Nat.le_trans hxstop (hB y hy)
    · refine List.forall_mem_append.mpr ⟨fun y hy => ?_, List.forall_mem_singleton.mpr hxp⟩
      exact Nat.le_trans (hA y hy) hle
    · refine List.forall_mem_append.mpr ⟨h.original, List.forall_mem_singleton.mpr fun hvalue => ?_⟩
      rw [hxl hvalue]
      exact hl
    · have hlength := h.length_le
      have hplaces := places_kept (C := C) hkept
      rw [List.length_append, List.length_singleton]
      omega

/-- Comparing the piece with its left neighbour. -/
theorem Facing.step (h : Facing map₀ N C A l p B) (hneat : Neat map₀)
    (htrim : Trimmed A l p B map' next) : Sweep map₀ N map' next := by
  obtain ⟨hAB, hA, hB⟩ := h.parts
  have hl : l ∈ map₀ := by simp [h.map_eq]
  have hlt := location_lt_stop (hneat.size_pos l hl)
  have hstops : ∀ r ∈ B, r.location < p.stop → p.stop = N.stop := fun _ _ _ => h.stop_eq
  have hinOrder : InOrder p B := fun r hr => (h.order r hr).2
  have hlocation : ∀ r ∈ B, p.location ≤ r.location := fun r hr => (h.order r hr).1
  cases htrim with
  | merge hmeet htype =>
      refine .leading (h.leading hneat (htype.trans h.type_eq) (.inl rfl) le_rfl ?_ ?_ ?_ (.inl ?_))
      · exact fun r hr => Nat.le_trans (Nat.le_of_lt hlt) (hB r hr)
      · intro r hr hover
        have hlr := hB r hr
        rw [merge_stop] at hover ⊢
        rw [← h.stop_eq]
        omega
      · intro hvalue
        rw [htype, h.type_eq] at hvalue
        omega
      · intro r hr heq
        have hlr := hB r hr
        rw [merge_location] at heq
        omega
  | dropLeft hover htype hloc hstop =>
      refine .leading (h.leading hneat h.type_eq (.inl rfl) h.location_le hlocation hstops ?_
        (.inl hinOrder))
      intro hvalue
      rw [h.type_eq] at htype
      omega
  | cutLeft hover htype hloc hstop =>
      have hcut := cutBefore_stop (Nat.le_of_lt hloc)
      have hmap : A ++ l.cutBefore p :: p :: B = (A ++ [l.cutBefore p]) ++ p :: B := by simp
      have hlength : A.length + 1 = (A ++ [l.cutBefore p]).length := by simp
      rw [h.type_eq] at htype
      rw [hmap, hlength]
      refine .leading (h.leading hneat h.type_eq (.inr ⟨_, rfl, ?_, le_rfl, ?_, ?_, ?_⟩)
        h.location_le hlocation hstops (fun hvalue => by omega) (.inl hinOrder))
      · -- the region begins before the new one and has another type
        rcases h.source with ⟨rfl, -⟩ | ⟨heq, -⟩
        · rintro (⟨-, hle, -⟩ | ⟨heq, -⟩)
          · omega
          · rw [heq] at htype
            omega
        · omega
      · omega
      · omega
      · intro hvalue
        rw [cutBefore_type] at hvalue
        omega
  | split hover htype hloc hstop =>
      exact .done (separated_split h.separated h.location_le hlocation (Nat.le_of_lt hstop))
  | splitFront hover htype hloc hstop =>
      have htie := h.tie hloc
      omega
  | dropRight => exact .done h.separated
  | cutRight hover htype hstop =>
      have hcut := cutAfter_stop (Nat.le_of_lt hstop)
      have hmap : A ++ l :: p.cutAfter l :: B = (A ++ [l]) ++ p.cutAfter l :: B := by simp
      have hlength : A.length + 1 = (A ++ [l]).length := by simp
      rw [h.type_eq] at htype
      rw [hmap, hlength]
      refine .leading (h.leading hneat h.type_eq (.inr ⟨l, rfl, ?_, le_rfl, le_rfl, le_rfl,
        fun _ => rfl⟩) (Nat.le_of_lt hlt) hB ?_ (fun _ => le_rfl) (.inr ⟨l, hl, htype, rfl,
          p.location, h.start, h.location_le, hover⟩))
      · rintro (⟨hle, -⟩ | ⟨heq, -⟩)
        · omega
        · rw [heq] at htype
          omega
      · intro r hr hlt
        rw [hcut]
        exact h.stop_eq
  | skip hstop hne =>
      have hmap : A ++ l :: p :: B = (A ++ [l]) ++ p :: B := by simp
      have hlength : A.length + 1 = (A ++ [l]).length := by simp
      rw [hmap, hlength]
      refine .leading (h.leading hneat h.type_eq (.inr ⟨l, rfl, ?_, le_rfl, le_rfl, hstop,
        fun _ => rfl⟩) h.location_le hlocation hstops (fun _ => hstop) (.inl hinOrder))
      rcases h.source with ⟨rfl, -⟩ | ⟨heq, -⟩
      · rintro (⟨-, hle, -⟩ | ⟨heq, hloc, hreach | ⟨htouch, -⟩⟩)
        · omega
        · omega
        · exact hne htouch heq
      · omega

theorem Leading.parts (h : Leading map₀ N C A p (r :: B)) : layering.Separated (A ++ B) ∧
    (∀ y ∈ A, y.stop ≤ r.location) ∧ ∀ y ∈ B, r.stop ≤ y.location :=
  separated_append_cons.mp h.separated

theorem Leading.mem (h : Leading map₀ N C A p (r :: B)) : r ∈ map₀ ∧ ∀ y ∈ B, y ∈ map₀ := by
  rw [h.map_eq]
  exact ⟨by simp, fun y hy => by simp [hy]⟩

/-- The region behind the piece has gone into it. -/
theorem Leading.absorb (h : Leading map₀ N C A p (r :: B)) {p' : MemoryRegion}
    (htype : p'.type = N.type) (hloc : p'.location = p.location)
    (hstop : ∀ y ∈ B, y.location < p'.stop → p'.stop = N.stop)
    (hvalue : r.type.value ≤ N.type.value) (horder : InOrder p' B) :
    Leading map₀ N (C ++ [r]) A p' B := by
  obtain ⟨hAB, -, -⟩ := h.parts
  refine ⟨by simp [h.map_eq], htype, hAB, fun y hy => hloc ▸ h.stop_le y hy,
    fun y hy => hloc ▸ h.location_le y (by simp [hy]), hstop,
    fun y hy => h.new_order y (by simp [hy]), ?_, h.original,
    Nat.le_trans h.length_le (places_le_append _ _ _ _), .inl horder⟩
  rw [hloc]
  refine List.forall_mem_append.mpr ⟨h.higher, List.forall_mem_singleton.mpr fun hEvalue => ?_⟩
  omega

/-- A region of higher type inside the piece, which starts before it, cuts the new region. -/
theorem Leading.isCut (h : Leading map₀ N C A p (r :: B)) (hneat : Neat map₀)
    (hover : r.location < p.stop) (htype : p.type.value < r.type.value)
    (hloc : p.location < r.location) (hstop : r.stop < p.stop) : IsCut map₀ N r := by
  obtain ⟨-, -, hB⟩ := h.parts
  obtain ⟨hr, hmem⟩ := h.mem
  have hrlt := location_lt_stop (hneat.size_pos r hr)
  have hpstop := h.stop_eq r (by simp) hover
  obtain ⟨hle, htie⟩ := h.new_order r (by simp)
  refine ⟨h.type_eq ▸ htype, ?_, by omega, ?_⟩
  · by_contra hnot
    have htie := htie (by omega)
    omega
  · intro E hE hvalue heq
    rw [h.map_eq] at hE
    rcases List.mem_append.mp hE with hE | hE
    · have hpassed := h.higher E hE hvalue
      omega
    · rcases List.mem_cons.mp hE with rfl | hE
      · omega
      · have hElt := location_lt_stop (hneat.size_pos E (hmem E hE))
        have hrE := hB E hE
        omega

/-- The piece behind a region that cuts it. -/
theorem Leading.rest (h : Leading map₀ N C A p (r :: B)) (hneat : Neat map₀)
    (hover : r.location < p.stop) (htype : p.type.value < r.type.value)
    (hloc : p.location < r.location) (hstop : r.stop < p.stop) :
    Sweep map₀ N (A ++ p.cutBefore r :: r :: insertLoop (p.cutAfter r) B) (A.length + 2) := by
  obtain ⟨hAB, hAr, hrB⟩ := h.parts
  obtain ⟨hr, hmem⟩ := h.mem
  have hcut := h.isCut hneat hover htype hloc hstop
  have hcutBefore := cutBefore_stop (Nat.le_of_lt hloc)
  have hcutAfter := cutAfter_stop (Nat.le_of_lt hstop)
  have hpstop := h.stop_eq r (by simp) hover
  have hrle := r.location_le_stop
  have hplaces := places_cut (C := C) hcut
  have hsepB : layering.Separated B := (List.pairwise_append.mp hAB).2.1
  have hlengthA : A.length + 2 = (A ++ [p.cutBefore r, r]).length := by simp
  have hlength : (A ++ [p.cutBefore r, r]).length ≤ places map₀ N (C ++ [r]) := by
    have hle := h.length_le
    rw [← hlengthA]
    omega
  have hsep : layering.Separated ((A ++ [p.cutBefore r, r]) ++ B) := by
    have hall : (A ++ [p.cutBefore r, r]) ++ B = A ++ p.cutBefore r :: r :: B := by simp
    rw [hall]
    exact separated_between h.separated h.stop_le (Nat.le_of_eq hcutBefore)
  have horiginal : ∀ y ∈ A ++ [p.cutBefore r, r], N.type.value < y.type.value → y ∈ map₀ := by
    intro y hy hvalue
    simp only [List.mem_append, List.mem_cons, List.not_mem_nil, or_false] at hy
    rcases hy with hy | rfl | rfl
    · exact h.original y hy hvalue
    · rw [cutBefore_type, h.type_eq] at hvalue
      omega
    · exact hr
  have hstopLe : ∀ y ∈ A ++ [p.cutBefore r, r], y.stop ≤ r.stop := by
    intro y hy
    simp only [List.mem_append, List.mem_cons, List.not_mem_nil, or_false] at hy
    rcases hy with hy | rfl | rfl
    · exact Nat.le_trans (hAr y hy) hrle
    · exact hcutBefore ▸ hrle
    · exact Nat.le_refl _
  obtain ⟨A', B', hinsert, rfl, hA', hB'⟩ :=
    insertLoop_between hsepB (fun y hy => hneat.size_pos y (hmem y hy)) (p.cutAfter r)
  have hmap : A ++ p.cutBefore r :: r :: insertLoop (p.cutAfter r) (A' ++ B') =
      (A ++ [p.cutBefore r, r]) ++ (A' ++ p.cutAfter r :: B') := by
    rw [hinsert]
    simp
  have hnewOrder : ∀ y ∈ B', N.location ≤ y.location ∧
      (N.location = y.location → N.stop ≤ y.stop) := fun y hy => h.new_order y (by simp [hy])
  rw [hmap, hlengthA]
  cases A' with
  | nil =>
      refine .leading ⟨by simp [h.map_eq], h.type_eq, hsep, hstopLe, fun y hy => (hB' y hy).1, ?_,
        hnewOrder, ?_, horiginal, hlength, .inl fun y hy => (hB' y hy).2⟩
      · exact fun y hy hlt => hcutAfter.trans hpstop
      · rw [cutAfter_location]
        refine List.forall_mem_append.mpr ⟨fun E hE hvalue => ?_,
          List.forall_mem_singleton.mpr fun _ => Nat.le_refl _⟩
        have hpassed := h.higher E hE hvalue
        omega
  | cons s A' =>
      -- only one region can begin where the piece does
      have hs : s.location = r.stop := Nat.le_antisymm (hA' s (by simp)).1 (hrB s (by simp))
      have hslt := location_lt_stop (hneat.size_pos s (hmem s (by simp)))
      obtain rfl : A' = [] := by
        cases A' with
        | nil => rfl
        | cons t A' =>
            have hst : s.stop ≤ t.location := (List.pairwise_cons.mp hsepB).1 t (by simp)
            have ht : t.location ≤ r.stop := (hA' t (by simp)).1
            omega
      refine .facing ⟨by simp [h.map_eq], h.type_eq, hcutAfter.trans hpstop, by simpa using hsep,
        Nat.le_of_eq hs, fun heq => (hA' s (by simp)).2 heq, fun y hy => hB' y hy, hnewOrder,
        horiginal, hlength, .inr ⟨hs.symm, A ++ [p.cutBefore r], r, by simp, hr,
          h.type_eq ▸ htype, rfl, ?_⟩⟩
      have hle := (h.new_order r (by simp)).1
      omega

/-- Comparing the piece with its right neighbour. -/
theorem Leading.step (h : Leading map₀ N C A p (r :: B)) (hneat : Neat map₀)
    (hsafe : ¬ SkipsOverlap map₀ N) (htrim : Trimmed A p r B map' next) :
    Sweep map₀ N map' next := by
  obtain ⟨hAB, hAr, hrB⟩ := h.parts
  obtain ⟨hr, hmem⟩ := h.mem
  have hpr : p.location ≤ r.location := h.location_le r (by simp)
  have hrlt := location_lt_stop (hneat.size_pos r hr)
  have hstops : ∀ y ∈ B, y.location < p.stop → p.stop = N.stop := fun y hy =>
    h.stop_eq y (by simp [hy])
  have hinOrder : InOrder p B := fun y hy heq => by
    have hry := hrB y hy
    omega
  cases htrim with
  | merge hmeet htype =>
      refine .leading (h.absorb h.type_eq rfl ?_ ?_ ?_)
      · intro y hy hover
        have hry := hrB y hy
        rw [merge_stop] at hover ⊢
        rw [← hstops y hy (by omega)]
        omega
      · rw [← htype, h.type_eq]
      · intro y hy heq
        have hry := hrB y hy
        rw [merge_location] at heq
        omega
  | dropLeft => exact .done h.separated
  | cutLeft hover htype hloc hstop =>
      exact .done (separated_between h.separated h.stop_le (Nat.le_of_eq (cutBefore_stop hpr)))
  | split hover htype hloc hstop => exact h.rest hneat hover htype hloc hstop
  | splitFront hover htype hloc hstop =>
      rcases h.order with horder | hshift
      · have hnot := horder r (by simp) hloc
        omega
      · exact .done (separated_insertLoop hAB hAr hrB (Nat.le_refl _)
          (hshift.apart hsafe hr (h.type_eq ▸ htype) hloc hstop (h.stop_eq r (by simp) hover) hmem))
  | dropRight hover htype hstop =>
      exact .leading (h.absorb h.type_eq rfl hstops (h.type_eq ▸ Nat.le_of_lt htype) hinOrder)
  | cutRight hover htype hstop =>
      exact .done (separated_cutAfter h.separated h.stop_le (Nat.le_of_lt hstop))
  | skip hstop => exact .done (separated_between h.separated h.stop_le hstop)

/-! ## The loop -/

/-- The loop starts in one of its states. -/
theorem sweep_insertLoop (hneat : Neat map₀) (N : MemoryRegion) :
    Sweep map₀ N (insertLoop N map₀) 0 := by
  obtain ⟨A, B, hinsert, hmap, hA, hB⟩ := insertLoop_between hneat.separated hneat.size_pos N
  rw [hinsert]
  rcases List.eq_nil_or_concat A with rfl | ⟨C, l, rfl⟩
  · exact .leading ⟨hmap, rfl, hmap ▸ hneat.separated, by simp, fun y hy => (hB y hy).1,
      fun _ _ _ => rfl, hB, by simp, by simp, Nat.zero_le _, .inl fun y hy => (hB y hy).2⟩
  · rw [List.concat_eq_append] at hmap hA ⊢
    obtain ⟨hle, htie⟩ := hA l (by simp)
    have hmap' : map₀ = C ++ l :: B := by simpa using hmap
    have hsep := hneat.separated
    rw [hmap'] at hsep
    have hC : ∀ y ∈ C, y.stop ≤ l.location := (separated_append_cons.mp hsep).2.1
    have hkept : ∀ y ∈ C, ¬ Swallowed map₀ N y := by
      intro y hy
      have hyl := hC y hy
      have hylt := location_lt_stop (hneat.size_pos y (by simp [hmap', hy]))
      rintro (⟨-, hle', -⟩ | ⟨-, -, hreach | ⟨htouch, hlonger⟩⟩)
      · omega
      · omega
      · -- then the last region before the new one starts with it
        have hstart : l.location = N.location := by omega
        have hlong := hlonger l (by simp [hmap']) hstart
        have hshort := htie hstart
        omega
    have hfacing : Facing map₀ N C C l N B := ⟨hmap', rfl, rfl, hsep, hle, htie, hB, hB,
      fun y hy _ => by simp [hmap', hy], length_le_places hkept, .inl ⟨rfl, rfl⟩⟩
    have hlist : (C ++ [l]) ++ N :: B = C ++ l :: N :: B := by simp
    rw [hlist]
    cases C with
    | nil => exact .facing hfacing
    | cons y C => exact .before hfacing (by simp)

/-- Two neighbours that do not overlap: `trim` merges them or goes on. -/
theorem Trimmed.apart (h : Trimmed A l r B map' next) (hle : l.stop ≤ r.location) :
    map' = A ++ l :: r :: B ∧ next = A.length + 1 ∧ ¬ Touches l r ∨
      map' = A ++ l.merge r :: B ∧ next = A.length ∧ Touches l r := by
  cases h with
  | merge hmeet htype => exact .inr ⟨rfl, rfl, Nat.le_antisymm hle hmeet, htype⟩
  | skip _ hne => exact .inl ⟨rfl, rfl, fun htouch => hne htouch.1 htouch.2⟩
  | dropLeft hover | cutLeft hover | split hover | splitFront hover | dropRight hover
  | cutRight hover => omega

/-- What is compared in a state of the loop: two regions that do not overlap, the piece and its left
neighbour, or the piece and its right neighbour. -/
inductive Meets (map₀ : MemoryMap) (N : MemoryRegion) (A : MemoryMap) (l r : MemoryRegion)
    (B : MemoryMap) : Prop where
  | apart : l.stop ≤ r.location →
      (∀ map' next, Trimmed A l r B map' next → Sweep map₀ N map' next) → Meets map₀ N A l r B
  | left {C : MemoryMap} : Facing map₀ N C A l r B → Meets map₀ N A l r B
  | right {C : MemoryMap} : Leading map₀ N C A l (r :: B) → Meets map₀ N A l r B

/-- Every state of the loop before the last region compares two neighbours in order. -/
theorem Sweep.pair (h : Sweep map₀ N map index) (hneat : Neat map₀)
    (hindex : index + 1 < map.length) : ∃ A l r B, map = A ++ l :: r :: B ∧ index = A.length ∧
      l.location ≤ r.location ∧ (∀ y ∈ A, y.stop ≤ l.location) ∧ Meets map₀ N A l r B := by
  cases h with
  | @before C B l _ hfacing hlt =>
      have hlength : index + 1 < (C ++ [l]).length := by simpa using hlt
      obtain ⟨A, a, b, D, hpair, rfl⟩ := exists_pair hlength
      have hmap : C ++ l :: N :: B = A ++ a :: b :: (D ++ N :: B) := by
        have hlist : C ++ l :: N :: B = (C ++ [l]) ++ N :: B := by simp
        rw [hlist, hpair]
        simp
      have hmem : ∀ y ∈ C ++ [l], y ∈ map₀ := fun y hy => by
        rw [hfacing.map_eq, ← List.singleton_append, ← List.append_assoc]
        exact List.mem_append.mpr (.inl hy)
      have hsep : layering.Separated (A ++ a :: b :: D) := by
        have hmap₀ := hneat.separated
        rw [hfacing.map_eq, ← List.singleton_append, ← List.append_assoc, hpair] at hmap₀
        exact (List.pairwise_append.mp hmap₀).1
      obtain ⟨-, hA, hab⟩ := separated_append_cons.mp hsep
      have hstop : a.stop ≤ b.location := hab b (by simp)
      refine ⟨A, a, b, D ++ N :: B, hmap, rfl, Nat.le_trans a.location_le_stop hstop, hA,
        .apart hstop fun map' next htrim => ?_⟩
      rcases htrim.apart hstop with ⟨rfl, rfl, -⟩ | ⟨-, -, htouch⟩
      · rw [← hmap]
        by_cases hlast : A.length + 1 < C.length
        · exact .before hfacing hlast
        · obtain heq : A.length + 1 = C.length := by omega
          rw [heq]
          exact .facing hfacing
      · exact absurd htouch
          (hneat.not_touches (hmem a (by simp [hpair])) (hmem b (by simp [hpair])))
  | @facing C A B l p hfacing =>
      exact ⟨A, l, p, B, rfl, rfl, hfacing.location_le, hfacing.parts.2.1, .left hfacing⟩
  | @leading C A B p hleading =>
      cases B with
      | nil =>
          rw [List.length_append, List.length_singleton] at hindex
          omega
      | cons r B =>
          exact ⟨A, p, r, B, rfl, rfl, hleading.location_le r (by simp), hleading.stop_le,
            .right hleading⟩
  | done hsep =>
      obtain ⟨A, l, r, B, rfl, rfl⟩ := exists_pair hindex
      obtain ⟨-, hA, hlr⟩ := separated_append_cons.mp hsep
      have hstop : l.stop ≤ r.location := hlr r (by simp)
      exact ⟨A, l, r, B, rfl, rfl, Nat.le_trans l.location_le_stop hstop, hA,
        .apart hstop fun _ _ htrim => .done (htrim.separated hsep).1⟩

/-- A call of `trim` leads from one state of the loop to another. -/
theorem Meets.step (h : Meets map₀ N A l r B) (hneat : Neat map₀) (hsafe : ¬ SkipsOverlap map₀ N)
    (htrim : Trimmed A l r B map' next) : Sweep map₀ N map' next := by
  cases h with
  | apart _ hstep => exact hstep map' next htrim
  | left hfacing => exact hfacing.step hneat htrim
  | right hleading => exact hleading.step hneat hsafe htrim

end MemoryMap

end CrosKernel.Memory
