import CrosKernel.Memory.MemoryMapSweep

/-!
# Merging adjacent regions

`trim` merges two regions of the same type that touch when it compares them, but it never goes back.
Where it removes the region at the index, the one before and the one behind become neighbours and
are not compared. `place_run_merged` says that this is harmless but for the calls in
`LeavesTouching`.
-/

namespace CrosKernel.Memory

open Lib MemoryRegion

namespace MemoryMap

variable {A B C map map' map₀ : MemoryMap} {l r s x N : MemoryRegion} {index next fuel : Nat}

/-- The calls after which two regions of the type of `N` touch: one that ends where `N` begins, when
a region of lower type at the same place is removed; or one that begins where `N` ends, when the
piece of `N` before it comes behind two adjacent regions of higher type, in the first of which a
piece of `N` starts. -/
def LeavesTouching (map : MemoryMap) (N : MemoryRegion) : Prop :=
  (∃ x ∈ map, ∃ l ∈ map, Touches x N ∧ l.location = N.location ∧ l.type.value < N.type.value ∧
    l.stop ≤ N.stop) ∨
  ∃ E ∈ map, ∃ R ∈ map, ∃ G ∈ map, N.type.value < E.type.value ∧ N.type.value < R.type.value ∧
    (∃ y, Start map N y ∧ E.location ≤ y ∧ y < E.stop) ∧ E.stop = R.location ∧ R.stop < N.stop ∧
    Touches N G

/-- The regions up to the index do not touch their neighbours of the same type. -/
def MergedUpTo (map : MemoryMap) (index : Nat) : Prop :=
  (map.take (index + 1)).IsChain fun r s => ¬ Touches r s

theorem mergedUpTo_left : MergedUpTo (A ++ l :: B) A.length ↔
    A.IsChain (fun r s => ¬ Touches r s) ∧ ∀ y ∈ A.getLast?, ¬ Touches y l := by
  have htake : (A ++ l :: B).take (A.length + 1) = A ++ [l] := by
    rw [List.take_length_add_append]
    rfl
  rw [MergedUpTo, htake, List.isChain_append]
  simp

theorem not_touches_of_type (h : r.type ≠ s.type) : ¬ Touches r s := fun htouch => h htouch.2

theorem type_ne_of_lt (h : r.type.value < s.type.value) : r.type ≠ s.type := fun heq => by
  rw [heq] at h
  exact Nat.lt_irrefl _ h

/-- With the next region the part of the map that is merged gets longer. -/
theorem mergedUpTo_right : MergedUpTo (A ++ l :: r :: B) (A.length + 1) ↔
    MergedUpTo (A ++ l :: r :: B) A.length ∧ ¬ Touches l r := by
  have hmap : A ++ l :: r :: B = (A ++ [l]) ++ r :: B := by simp
  have hlength : A.length + 1 = (A ++ [l]).length := by simp
  rw [mergedUpTo_left, hmap, hlength, mergedUpTo_left, List.isChain_append]
  simp

theorem mergedUpTo_right_right : MergedUpTo (A ++ x :: l :: r :: B) (A.length + 2) ↔
    MergedUpTo (A ++ x :: l :: r :: B) (A.length + 1) ∧ ¬ Touches l r := by
  have hmap : A ++ x :: l :: r :: B = (A ++ [x]) ++ l :: r :: B := by simp
  have hlength : A.length + 1 = (A ++ [x]).length := by simp
  rw [hmap, hlength, ← mergedUpTo_right, ← hlength]

/-- The merged part depends on the location and the type of its last region. -/
theorem MergedUpTo.congr {B' : MemoryMap} (h : MergedUpTo (A ++ l :: B) A.length)
    (hloc : x.location = l.location) (htype : x.type = l.type) :
    MergedUpTo (A ++ x :: B') A.length := by
  rw [mergedUpTo_left] at h ⊢
  refine ⟨h.1, fun y hy htouch => h.2 y hy ⟨?_, ?_⟩⟩
  · exact htouch.1.trans hloc
  · exact htouch.2.trans htype

/-- At the last region the whole map is merged. -/
theorem mergedUpTo_end (h : map.length ≤ index + 1) :
    MergedUpTo map index ↔ map.IsChain fun r s => ¬ Touches r s := by
  rw [MergedUpTo, List.take_of_length_le h]

/-! ## One call of trim -/

/-- The first region behind a part of `r` or of its neighbour is that part or was there before. -/
theorem exists_insertLoop_cons (x : MemoryRegion) (B : MemoryMap) :
    ∃ y B', insertLoop x B = y :: B' ∧ (y = x ∨ y ∈ B) := by
  cases hinsert : insertLoop x B with
  | nil =>
      have hlength := length_insertLoop x B
      rw [hinsert] at hlength
      cases hlength
  | cons y B' =>
      have hmem := (insertLoop_perm x B).mem_iff.mp (hinsert ▸ List.mem_cons_self)
      exact ⟨y, B', rfl, List.mem_cons.mp hmem⟩

/-- The region before the left neighbour of the piece does not touch the piece. -/
theorem Facing.not_touches (h : Facing map₀ N C A l r B) (hguard : ¬ LeavesTouching map₀ N)
    (htype : l.type.value < r.type.value) (hloc : l.location = r.location)
    (hstop : l.stop ≤ r.stop) : ∀ y ∈ A.getLast?, ¬ Touches y r := by
  intro y hy htouch
  rcases h.source with ⟨rfl, rfl⟩ | ⟨-, A', E, rfl, -, hvalue, -⟩
  · have hmem : y ∈ map₀ := by
      rw [h.map_eq]
      exact List.mem_append.mpr (.inl (List.mem_of_mem_getLast? hy))
    exact hguard (.inl ⟨y, hmem, l, by simp [h.map_eq], htouch, hloc, htype, hstop⟩)
  · obtain rfl : E = y := by simpa using hy
    rw [htouch.2, h.type_eq] at hvalue
    exact Nat.lt_irrefl _ hvalue

/-- The region before the piece does not touch a region of higher type behind it. -/
theorem Leading.not_touches (h : Leading map₀ N C A l (r :: B)) (hneat : Neat map₀)
    (htype : l.type.value < r.type.value) : ∀ y ∈ A.getLast?, ¬ Touches y r := by
  intro y hy htouch
  rw [h.type_eq] at htype
  refine hneat.not_touches (h.original y (List.mem_of_mem_getLast? hy) ?_) h.mem.1 htouch
  rwa [htouch.2]

/-- A region that the piece starts with leaves the part of the piece behind it apart from the next
region. -/
theorem Leading.merged_splitFront (h : Leading map₀ N C A l (r :: B)) (hneat : Neat map₀)
    (hsafe : ¬ SkipsOverlap map₀ N) (hguard : ¬ LeavesTouching map₀ N) (hover : r.location < l.stop)
    (htype : l.type.value < r.type.value) (hloc : l.location = r.location) (hstop : r.stop < l.stop)
    (hmerged : A.IsChain fun r s => ¬ Touches r s) :
    MergedUpTo (A ++ r :: insertLoop (l.cutAfter r) B) (A.length + 2) := by
  obtain ⟨E, hE, hEvalue, hEstop, hy⟩ := h.order.resolve_left fun horder => by
    have hnot := horder r (by simp) hloc
    omega
  have hvalue := h.type_eq ▸ htype
  have hpstop := h.stop_eq r (by simp) hover
  obtain ⟨hr, hmem⟩ := h.mem
  obtain ⟨hAB, -, hrB⟩ := h.parts
  -- nothing behind the two regions begins before the end of the new one
  have hfar : ∀ G ∈ B, N.stop ≤ G.location := by
    intro G hG
    by_contra hnear
    have hGlt := location_lt_stop (hneat.size_pos G (hmem G hG))
    have hrG := hrB G hG
    exact hsafe ⟨E, hE, r, hr, G, hmem G hG, hEvalue, hvalue, hy, hEstop.trans hloc,
      by omega, by omega, by omega⟩
  have hinsert : insertLoop (l.cutAfter r) B = l.cutAfter r :: B := by
    refine insertLoop_front (List.pairwise_cons.mpr ⟨fun G hG => ?_, ?_⟩) ?_ ?_
    · show (l.cutAfter r).stop ≤ G.location
      rw [cutAfter_stop (Nat.le_of_lt hstop), hpstop]
      exact hfar G hG
    · exact (List.pairwise_append.mp hAB).2.1
    · exact Nat.sub_pos_of_lt hstop
    · exact fun G hG => hneat.size_pos G (hmem G hG)
  have hfront : MergedUpTo (A ++ r :: l.cutAfter r :: B) (A.length + 1) := by
    refine mergedUpTo_right.mpr ⟨mergedUpTo_left.mpr ⟨hmerged, h.not_touches hneat htype⟩, ?_⟩
    exact not_touches_of_type (type_ne_of_lt htype).symm
  rw [hinsert]
  cases B with
  | nil => refine (mergedUpTo_end ?_).mpr ((mergedUpTo_end ?_).mp hfront) <;> simp
  | cons G B =>
      rw [mergedUpTo_right_right]
      refine ⟨hfront, ?_⟩
      rintro ⟨hGstop, hGtype⟩
      rw [cutAfter_stop (Nat.le_of_lt hstop), hpstop] at hGstop
      rw [cutAfter_type, h.type_eq] at hGtype
      exact hguard (.inr ⟨E, hE, r, hr, G, hmem G (by simp), hEvalue, hvalue, hy,
        hEstop.trans hloc, by omega, hGstop, hGtype⟩)

/-- A call of `trim` keeps the part of the map before the index merged. -/
theorem Meets.merged (h : Meets map₀ N A l r B) (hneat : Neat map₀)
    (hsafe : ¬ SkipsOverlap map₀ N) (hguard : ¬ LeavesTouching map₀ N)
    (htrim : Trimmed A l r B map' next) (hmerged : MergedUpTo (A ++ l :: r :: B) A.length) :
    MergedUpTo map' next := by
  cases htrim with
  | merge => exact hmerged.congr rfl rfl
  | dropLeft hover htype hloc hstop =>
      refine mergedUpTo_left.mpr ⟨(mergedUpTo_left.mp hmerged).1, ?_⟩
      cases h with
      | apart hle => omega
      | left hfacing => exact hfacing.not_touches hguard htype hloc hstop
      | right hleading => exact hleading.not_touches hneat htype
  | cutLeft hover htype hloc hstop =>
      exact mergedUpTo_right.mpr ⟨hmerged.congr rfl rfl,
        not_touches_of_type (type_ne_of_lt htype)⟩
  | split hover htype hloc hstop =>
      obtain ⟨y, B', hinsert, hy⟩ := exists_insertLoop_cons (l.cutAfter r) B
      rw [hinsert, mergedUpTo_right_right, mergedUpTo_right]
      refine ⟨⟨hmerged.congr rfl rfl, not_touches_of_type (type_ne_of_lt htype)⟩, ?_⟩
      rcases hy with rfl | hy
      · exact not_touches_of_type (type_ne_of_lt htype).symm
      · cases h with
        | apart hle => omega
        | left hfacing =>
            have hly := hfacing.parts.2.2 y hy
            rintro ⟨heq, -⟩
            omega
        | right hleading =>
            exact hneat.not_touches hleading.mem.1 (hleading.mem.2 y hy)
  | splitFront hover htype hloc hstop =>
      cases h with
      | apart hle => omega
      | left hfacing =>
          have htie := hfacing.tie hloc
          omega
      | right hleading =>
          exact hleading.merged_splitFront hneat hsafe hguard hover htype hloc hstop
            (mergedUpTo_left.mp hmerged).1
  | dropRight => exact hmerged.congr rfl rfl
  | cutRight hover htype hstop =>
      exact mergedUpTo_right.mpr ⟨hmerged.congr rfl rfl,
        not_touches_of_type (type_ne_of_lt htype).symm⟩
  | skip hstop hne =>
      exact mergedUpTo_right.mpr ⟨hmerged, fun htouch => hne htouch.1 htouch.2⟩

/-- No call of `trim` leaves an empty region. -/
theorem Trimmed.size_pos (h : Trimmed A l r B map' next)
    (hpos : ∀ y ∈ A ++ l :: r :: B, 0 < y.size) : ∀ y ∈ map', 0 < y.size := by
  have hl : 0 < l.size := hpos l (by simp)
  refine h.forall_mem hpos ?_ Nat.sub_pos_of_lt fun _ _ _ => Nat.sub_pos_of_lt
  simp only [MemoryRegion.merge, stop]
  omega

/-! ## The loop -/

/-- The loop of `place` leaves a merged map without empty regions. -/
theorem Sweep.trimLoop_merged (h : Sweep map₀ N map index) (hneat : Neat map₀)
    (hsafe : ¬ SkipsOverlap map₀ N) (hguard : ¬ LeavesTouching map₀ N) (hfit : AllFit map)
    (hpos : ∀ y ∈ map, 0 < y.size) (hmerged : MergedUpTo map index)
    (hloop : trimLoop fuel map index = some map') :
    (∀ y ∈ map', 0 < y.size) ∧ map'.IsChain fun r s => ¬ Touches r s := by
  induction fuel generalizing map index with
  | zero => cases hloop
  | succ fuel ih =>
      rw [MemoryMap.trimLoop] at hloop
      by_cases hindex : map.length ≤ index + 1
      · simp only [trim_end hindex, Option.bind_eq_bind, Option.bind_some] at hloop
        obtain rfl : map = map' := Option.some.inj hloop
        exact ⟨hpos, (mergedUpTo_end hindex).mp hmerged⟩
      · obtain ⟨A, l, r, B, rfl, rfl, hle, hA, hmeets⟩ := h.pair hneat (Nat.lt_of_not_le hindex)
        obtain ⟨⟨map₁, next⟩, htrim, hloop⟩ := Option.bind_eq_some_iff.mp hloop
        obtain ⟨index, rfl, hcase⟩ :=
          trim_cases (hfit l (by simp)) (hfit r (by simp)) hle hA htrim
        exact ih (hmeets.step hneat hsafe hcase) (hcase.allFit hle hfit) (hcase.size_pos hpos)
          (hmeets.merged hneat hsafe hguard hcase hmerged) hloop

/-- A successful call of `place` keeps a map neat. -/
theorem place_neat (hneat : Neat map) (hpos : 0 < N.size) (hfit : N.Fits)
    (hsafe : ¬ SkipsOverlap map N) (hguard : ¬ LeavesTouching map N)
    (hplace : place map N.type N.location N.size = some (map', 0)) : Neat map' := by
  obtain ⟨hsep, hfit', -⟩ := place_separated hneat.separated hneat.allFit hfit hsafe hplace
  obtain ⟨fuel, hloop⟩ := place_trimLoop hplace
  have hfirst : MergedUpTo (insertLoop N map) 0 := by
    obtain ⟨y, B, hinsert, -⟩ := exists_insertLoop_cons N map
    rw [MergedUpTo, hinsert]
    exact List.isChain_singleton _
  obtain ⟨hsize, hchain⟩ := (sweep_insertLoop hneat N).trimLoop_merged hneat hsafe hguard
    (forall_mem_insertLoop hfit hneat.allFit) (forall_mem_insertLoop hpos hneat.size_pos) hfirst
    hloop
  exact ⟨hsep, hfit', hsize, hchain⟩

/-! ## Runs -/

/-- No two consecutive regions of the same type touch. -/
def Canonical (map : MemoryMap) : Prop :=
  map.IsChain fun r s => ¬ (r.finish = s.location ∧ r.type = s.type)

/-- A successful call of `place` with a region that is not empty and does not wrap. -/
def PlacedRegion (map : MemoryMap) (N : MemoryRegion) (map' : MemoryMap) : Prop :=
  0 < N.size ∧ Placed map N map'

theorem Neat.canonical (h : Neat map) : Canonical map :=
  h.merged.imp_of_mem_imp fun r _ hr _ hne htouch =>
    hne ⟨(h.allFit r hr).finish_eq ▸ htouch.1, htouch.2⟩

/-- Calls of `place` that skip no overlap and leave no regions touching keep the map canonical. -/
theorem place_run_merged {placed : List MemoryRegion} (h : Run (Guarded
      (fun map N => ¬ SkipsOverlap map N ∧ ¬ LeavesTouching map N) PlacedRegion) [] placed map) :
    Canonical map := by
  refine Neat.canonical (h.invariant neat_nil ?_)
  intro map N map' hneat ⟨⟨hsafe, hguard⟩, hpos, hfit, hplace⟩
  exact place_neat hneat hpos hfit hsafe hguard hplace

/-- What a caller can check: no two regions of higher type are adjacent, and none begins with the
new one behind one of its type. -/
theorem safe_of_gaps (hgap : ∀ E ∈ map, ∀ R ∈ map, N.type.value < E.type.value →
      N.type.value < R.type.value → E.stop ≠ R.location)
    (hfront : ∀ x ∈ map, ∀ l ∈ map, Touches x N → l.location ≠ N.location) :
    ¬ SkipsOverlap map N ∧ ¬ LeavesTouching map N := by
  constructor
  · rintro ⟨E, hE, R, hR, -, -, hEvalue, hRvalue, -, hadjacent, -⟩
    exact hgap E hE R hR hEvalue hRvalue hadjacent
  · rintro (⟨x, hx, l, hl, htouch, hloc, -⟩ |
      ⟨E, hE, R, hR, -, -, hEvalue, hRvalue, -, hadjacent, -⟩)
    · exact hfront x hx l hl htouch hloc
    · exact hgap E hE R hR hEvalue hRvalue hadjacent

/-- A region that reaches up to another one of its type and around one of higher type. -/
theorem place_run_merged_three :
    Canonical [⟨.AVAILABLE, 0, 8⟩, ⟨.DEFECTIVE, 8, 4⟩, ⟨.AVAILABLE, 12, 2⟩] :=
  @place_run_merged _ [⟨.AVAILABLE, 0, 4⟩, ⟨.DEFECTIVE, 8, 4⟩, ⟨.AVAILABLE, 4, 10⟩]
    (.cons ⟨safe_of_gaps (by decide) (by decide), by decide, by decide, rfl⟩
      (.cons ⟨safe_of_gaps (by decide) (by decide), by decide, by decide, rfl⟩
        (.cons ⟨safe_of_gaps (by decide) (by decide), by decide, by decide, rfl⟩ (.nil _))))

/-- A region of lower type between the two is removed, after the first one was compared with it. -/
theorem place_leaves_touching : ¬ ∀ (placed : List MemoryRegion) (map : MemoryMap),
    Run PlacedRegion [] placed map → Canonical map := by
  intro h
  have hcanonical := h [⟨.UNAVAILABLE, 0, 10⟩, ⟨.AVAILABLE, 10, 5⟩, ⟨.UNAVAILABLE, 10, 10⟩]
    [⟨.UNAVAILABLE, 0, 10⟩, ⟨.UNAVAILABLE, 10, 10⟩]
    (.cons ⟨by decide, by decide, rfl⟩ (.cons ⟨by decide, by decide, rfl⟩
      (.cons ⟨by decide, by decide, rfl⟩ (.nil _))))
  rw [Canonical, List.isChain_pair] at hcanonical
  exact hcanonical ⟨rfl, rfl⟩

end MemoryMap

end CrosKernel.Memory
