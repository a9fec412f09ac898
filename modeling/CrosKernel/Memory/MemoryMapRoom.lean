import CrosKernel.Memory.MemoryMapSweep

/-!
# Room in the array of a memory map

`place` looks for room once, before it inserts the new region, but every region of higher type that
cuts the new one takes another place. `HasRoom` says that the array is large enough at each cut, and
`place_run_in_bounds` that calls which find it so never write behind its end.
-/

namespace CrosKernel.Memory

open Lib MemoryRegion

namespace MemoryMap

variable {A B C map map' map₀ : MemoryMap} {l r N : MemoryRegion} {index fuel : Nat}

/-- At every region that cuts the new one there is a place left for the part behind it. -/
def HasRoom (map : MemoryMap) (N : MemoryRegion) : Prop :=
  ∀ C r B, map = C ++ r :: B → IsCut map N r → places map N C + B.length + 3 ≤ capacity

/-! ## One call of trim -/

/-- A call of `trim` finds room, unless it splits a region and the array is full. -/
theorem trim_total (hl : l.Fits) (hr : r.Fits) (hle : l.location ≤ r.location)
    (hlength : (A ++ l :: r :: B).length ≤ capacity)
    (hroom : r.location < l.stop → l.type.value < r.type.value → l.location < r.location →
      r.stop < l.stop → (A ++ l :: r :: B).length < capacity) :
    ∃ result, trim (A ++ l :: r :: B) A.length = some result := by
  have hrle := r.location_le_stop
  have hrfit : r.stop < 2 ^ 64 := hr
  unfold trim
  simp only [getElem?_left, getElem?_right, overlaps_iff hl hle, contains_iff hl hr,
    contains_iff hr hl, hl.finish_eq, hr.finish_eq, set_left, set_right, remove_left, remove_right,
    insert]
  by_cases hloc : l.location < r.location
  · -- the part before is not empty, so the part behind takes another place
    have hsize : ¬ sub64 r.location l.location = 0 := by
      rw [sub64_eq hle (by omega)]
      omega
    simp only [gt_iff_lt, hloc, if_true, hsize, if_false]
    split_ifs with _ _ hcontains hlong hsplit hfull <;> try exact ⟨_, rfl⟩
    refine absurd ?_ hfull
    have hlt := hroom hsplit.1 hsplit.2 hloc (by omega)
    simpa using hlt
  · have hempty : ¬ r.location > l.location := hloc
    simp only [hempty, if_false, if_true]
    split_ifs with _ _ hcontains hlong hsplit hfull <;> try exact ⟨_, rfl⟩
    refine absurd ?_ hfull
    simp only [List.length_append, List.length_cons] at hlength ⊢
    omega

/-- The array never gets longer than its capacity. -/
theorem trim_length {next : Option Nat} (h : trim map index = some (map', next))
    (hlength : map.length ≤ capacity) : map'.length ≤ capacity := by
  by_cases hindex : index + 1 < map.length
  · obtain ⟨A, l, r, B, rfl, rfl⟩ := exists_pair hindex
    unfold trim at h
    simp only [getElem?_left, getElem?_right, set_left, set_right, remove_left, remove_right,
      insert] at h
    simp only [List.length_append, List.length_cons] at hlength
    split_ifs at h with _ _ _ _ _ hroom hroom <;> cases h <;>
      simp only [length_insertLoop, List.length_append, List.length_cons] at * <;> omega
  · rw [trim_end (Nat.le_of_not_lt hindex)] at h
    obtain ⟨rfl, -⟩ := Prod.mk.inj (Option.some.inj h)
    exact hlength

/-- Where the piece is split there is room. -/
theorem Meets.room (h : Meets map₀ N A l r B) (hneat : Neat map₀)
    (hlength : map₀.length + 2 ≤ capacity) (hroom : HasRoom map₀ N) (hover : r.location < l.stop)
    (htype : l.type.value < r.type.value) (hloc : l.location < r.location)
    (hstop : r.stop < l.stop) : (A ++ l :: r :: B).length < capacity := by
  rw [List.length_append, List.length_cons, List.length_cons]
  cases h with
  | apart hle => omega
  | left hfacing =>
      -- the new region is inside another one and has not been cut before
      rcases hfacing.source with ⟨rfl, rfl⟩ | ⟨heq, -⟩
      · rw [hfacing.map_eq, List.length_append, List.length_cons] at hlength
        omega
      · omega
  | @right C hleading =>
      have hcut := hleading.isCut hneat hover htype hloc hstop
      have hplaces := hroom C r B hleading.map_eq hcut
      have hle := hleading.length_le
      omega

/-! ## The loop -/

/-- The loop of `place` ends without a write behind the end of the array. -/
theorem Sweep.trimLoop_total (h : Sweep map₀ N map index) (hneat : Neat map₀)
    (hsafe : ¬ SkipsOverlap map₀ N) (hlength₀ : map₀.length + 2 ≤ capacity)
    (hroom : HasRoom map₀ N) (hfit : AllFit map) (hlength : map.length ≤ capacity)
    (hfuel : map.length ≤ index + fuel) (hpos : 0 < fuel) :
    ∃ map', trimLoop fuel map index = some map' := by
  induction fuel generalizing map index with
  | zero => omega
  | succ fuel ih =>
      rw [trimLoop]
      by_cases hindex : index + 1 < map.length
      · obtain ⟨A, l, r, B, rfl, rfl, hle, hA, hmeets⟩ := h.pair hneat hindex
        obtain ⟨⟨map₁, next⟩, htrim⟩ := trim_total (hfit l (by simp)) (hfit r (by simp)) hle hlength
          (hmeets.room hneat hlength₀ hroom)
        obtain ⟨j, rfl, hcloser, -⟩ := (trim_progress hindex).2 _ _ htrim
        obtain ⟨j', hj, hcase⟩ :=
          trim_cases (hfit l (by simp)) (hfit r (by simp)) hle hA htrim
        obtain rfl := Option.some.inj hj
        simp only [htrim, Option.bind_eq_bind, Option.bind_some]
        exact ih (hmeets.step hneat hsafe hcase) (hcase.allFit hle hfit)
          (trim_length htrim hlength) (by omega) (by omega)
      · simp only [trim_end (Nat.le_of_not_lt hindex), Option.bind_eq_bind, Option.bind_some]
        exact ⟨map, rfl⟩

/-- Into a neat map with room at every cut `place` puts a region. -/
theorem place_roomy (hneat : Neat map) (hfit : N.Fits) (hsafe : ¬ SkipsOverlap map N)
    (hlength : map.length + 2 ≤ capacity) (hroom : HasRoom map N) :
    ∃ map', place map N.type N.location N.size = some (map', 0) := by
  have hfits : AllFit (insertLoop N map) := forall_mem_insertLoop hfit hneat.allFit
  have hinserted := length_insertLoop N map
  obtain ⟨map', hloop⟩ : ∃ map', trimLoop (map.length + 1) (insertLoop N map) 0 = some map' :=
    (sweep_insertLoop hneat N).trimLoop_total hneat hsafe hlength hroom hfits (by omega) (by omega)
      (by omega)
  have hguard : map.length ≤ capacity - 2 := by omega
  have hinsert : map.length < capacity := by omega
  refine ⟨map', ?_⟩
  have hN : (⟨N.type, N.location, N.size⟩ : MemoryRegion) = N := rfl
  simp [place, hguard, insert, hinsert, hN, hinserted, hloop]

/-! ## Runs -/

/-- The arrays that the loop of `place` goes through, from the array `start`. -/
inductive Passes (start : MemoryMap) : MemoryMap → Nat → Prop where
  | start : Passes start start 0
  | trim {map map' : MemoryMap} {index next : Nat} : Passes start map index →
      trim map index = some (map', some next) → Passes start map' next

theorem Passes.length_le {start : MemoryMap} (h : Passes start map index)
    (hlength : start.length ≤ capacity) : map.length ≤ capacity := by
  induction h with
  | start => exact hlength
  | trim _ htrim ih => exact trim_length htrim ih

/-- The loop ends with the last of them. -/
theorem Passes.trimLoop {start : MemoryMap} (h : Passes start map index)
    (hloop : trimLoop fuel map index = some map') : ∃ last, Passes start map' last := by
  induction fuel generalizing map index with
  | zero => cases hloop
  | succ fuel ih =>
      rw [MemoryMap.trimLoop] at hloop
      obtain ⟨⟨map₁, next⟩, htrim, hloop⟩ := Option.bind_eq_some_iff.mp hloop
      cases next with
      | none =>
          obtain rfl := Option.some.inj hloop
          by_cases hindex : index + 1 < map.length
          · obtain ⟨j, hj, -⟩ := (trim_progress hindex).2 _ _ htrim
            cases hj
          · rw [trim_end (Nat.le_of_not_lt hindex)] at htrim
            cases htrim
            exact ⟨index, h⟩
      | some next => exact ih (h.trim htrim) hloop

/-- The map that a successful call of `place` leaves is one of them. -/
theorem exists_passes (hplace : place map N.type N.location N.size = some (map', 0)) :
    ∃ last, Passes (insertLoop N map) map' last := by
  obtain ⟨fuel, hloop⟩ := place_trimLoop hplace
  exact Passes.start.trimLoop hloop

/-- A call of `place` reports that there is no room and changes nothing, or it completes, and no
array on the way is longer than the capacity. -/
def StaysInBounds (map : MemoryMap) (N : MemoryRegion) : Prop :=
  place map N.type N.location N.size = some (map, -1) ∨
    (∃ map', place map N.type N.location N.size = some (map', 0)) ∧
      ∀ map' index, Passes (insertLoop N map) map' index → map'.length ≤ capacity

/-- The call finds too little room at once, or the array is at most half full, or the map is neat
and has room at every cut. -/
def Roomy (map : MemoryMap) (N : MemoryRegion) : Prop :=
  capacity < map.length + 2 ∨ 2 * map.length + 1 ≤ capacity ∨
    Neat map ∧ N.Fits ∧ ¬ SkipsOverlap map N ∧ HasRoom map N

theorem Roomy.staysInBounds (h : Roomy map N) : StaysInBounds map N := by
  have hcapacity : capacity = 16 := rfl
  by_cases hguard : map.length + 2 ≤ capacity
  · refine .inr ⟨?_, fun map' index hpasses => hpasses.length_le ?_⟩
    · rcases h with hfull | hhalf | ⟨hneat, hfit, hsafe, hroom⟩
      · omega
      · exact place_total hhalf
      · exact place_roomy hneat hfit hsafe hguard hroom
    · rw [length_insertLoop]
      omega
  · have hfull : ¬ map.length ≤ capacity - 2 := by omega
    exact .inl (if_neg hfull)

/-- A call of `place` that returns. -/
def Called (map : MemoryMap) (N : MemoryRegion) (map' : MemoryMap) : Prop :=
  ∃ status, place map N.type N.location N.size = some (map', status)

/-- Along calls of `place` that find the map roomy, no call writes behind the end of the array. -/
theorem place_run_in_bounds {calls : List MemoryRegion}
    (h : Run (Guarded Roomy Called) [] calls map) :
    map.length ≤ capacity ∧ ∀ N, Roomy map N → StaysInBounds map N := by
  refine ⟨?_, fun N hroomy => hroomy.staysInBounds⟩
  refine @Run.invariant _ _ _ _ _ _ (fun map => map.length ≤ capacity) h (Nat.zero_le _) ?_
  intro map N map' hlength ⟨hroomy, status, hplace⟩
  rcases hroomy.staysInBounds with hsame | ⟨⟨map'', hdone⟩, hpasses⟩
  · rw [hsame] at hplace
    obtain ⟨rfl, -⟩ := Prod.mk.inj (Option.some.inj hplace)
    exact hlength
  · rw [hdone] at hplace
    obtain ⟨rfl, -⟩ := Prod.mk.inj (Option.some.inj hplace)
    obtain ⟨last, hlast⟩ := exists_passes hdone
    exact hpasses _ last hlast

theorem place_run_in_bounds_two :
    StaysInBounds [⟨.AVAILABLE, 0, 4⟩, ⟨.DEFECTIVE, 4, 2⟩, ⟨.AVAILABLE, 6, 4⟩]
      ⟨.UNAVAILABLE, 1, 2⟩ :=
  (@place_run_in_bounds _ [⟨.AVAILABLE, 0, 10⟩, ⟨.DEFECTIVE, 4, 2⟩]
    (.cons ⟨.inr (.inl (by decide)), 0, rfl⟩ (.cons ⟨.inr (.inl (by decide)), 0, rfl⟩
      (.nil _)))).2 _ (.inr (.inl (by decide)))

/-- The map after the calls in order. -/
def placeAll : MemoryMap → List MemoryRegion → Option MemoryMap
  | map, [] => some map
  | map, N :: calls => do
      let (map, _) ← place map N.type N.location N.size
      placeAll map calls

theorem run_of_placeAll {calls : List MemoryRegion} (h : placeAll map calls = some map') :
    Run Called map calls map' := by
  induction calls generalizing map with
  | nil =>
      obtain rfl := Option.some.inj h
      exact .nil _
  | cons N calls ih =>
      obtain ⟨⟨map₁, status⟩, hplace, h⟩ := Option.bind_eq_some_iff.mp h
      exact .cons ⟨status, hplace⟩ (ih h)

/-- Fourteen regions apart from each other. -/
def apartRegions : List MemoryRegion :=
  (List.range 14).map fun i => ⟨.UNAVAILABLE, 10 * i + 10, 5⟩

/-- A region of lower type around them is cut fourteen times. -/
theorem place_overflows : ¬ ∀ (calls : List MemoryRegion) (map : MemoryMap) (N : MemoryRegion),
    Run Called [] calls map → StaysInBounds map N := by
  intro h
  have hplaced : placeAll [] apartRegions = some apartRegions := by decide +kernel
  have hnone : place apartRegions .AVAILABLE 0 200 = none := by decide +kernel
  obtain hfull | ⟨⟨map', hdone⟩, -⟩ := h _ _ ⟨.AVAILABLE, 0, 200⟩ (run_of_placeAll hplaced)
  · rw [hnone] at hfull
    cases hfull
  · rw [hnone] at hdone
    cases hdone

end MemoryMap

end CrosKernel.Memory
