import CrosKernel.Memory.MemoryMapTrim

/-!
# The passes of the loop of place

Whatever the array holds, a call of `trim` either removes a region and stays at its index, or goes
on by more places than it inserts regions. So the loop of `place` comes to the end of the array:
`trimLoopUnbounded_terminates` says so for an array without a capacity, in which every region can be
stored. `trimWith` is `trim` with the way in which it stores a region as a parameter.
-/

namespace CrosKernel.Memory

open MemoryRegion

namespace MemoryMap

variable {A B map map' : MemoryMap} {l r : MemoryRegion} {index : Nat} {next : Option Nat}
  {store : MemoryMap → MemoryType → Nat → Nat → Option MemoryMap}

/-- The array around two neighbours. -/
theorem exists_pair (h : index + 1 < map.length) :
    ∃ A l r B, map = A ++ l :: r :: B ∧ index = A.length := by
  refine ⟨map.take index, map[index], map[index + 1], map.drop (index + 2), ?_, ?_⟩
  · rw [List.getElem_cons_drop, List.getElem_cons_drop, List.take_append_drop]
  · rw [List.length_take]
    omega

theorem length_insertLoop (x : MemoryRegion) (map : MemoryMap) :
    (insertLoop x map).length = map.length + 1 := (insertLoop_perm x map).length_eq

/-! ## The function `trim` -/

/-- `MemoryMap::trim`, with `store` in the place of `insert`. -/
def trimWith (store : MemoryMap → MemoryType → Nat → Nat → Option MemoryMap) (map : MemoryMap)
    (index : Nat) : Option (MemoryMap × Option Nat) := do
  match map[index]?, map[index + 1]? with
  | some left, some right =>
      if left.overlaps right ∧ left.type = right.type then
        let finish := if right.finish > left.finish then right.finish else left.finish
        let map := map.set index { left with size := sub64 finish left.location }
        some (remove map (index + 1), some index)
      else if left.overlaps right ∧ left.type.value < right.type.value ∧ right.contains left then
        some (remove map index, some index)
      else if left.overlaps right ∧ left.type.value < right.type.value ∧
          left.finish ≤ right.finish then
        let size := if right.location > left.location then sub64 right.location left.location else 0
        some (map.set index { left with size := size }, some (index + 1))
      else if left.overlaps right ∧ left.type.value < right.type.value then
        let size := if right.location > left.location then sub64 right.location left.location else 0
        let trimmed := map.set index { left with size := size }
        let trimmed := if size = 0 then remove trimmed index else trimmed
        let map ← store trimmed left.type right.finish (sub64 left.finish right.finish)
        some (map, some (index + 2))
      else if left.overlaps right ∧ left.contains right then
        some (remove map (index + 1), some index)
      else if left.overlaps right then
        let right :=
          { right with location := left.finish, size := sub64 right.finish left.finish }
        some (map.set (index + 1) right, some (index + 1))
      else if left.finish = right.location ∧ left.type = right.type then
        let map := map.set index { left with size := sub64 right.finish left.location }
        some (remove map (index + 1), some index)
      else some (map, some (index + 1))
  | _, _ => some (map, none)

theorem trim_eq : trim = trimWith insert := rfl

/-- `MemoryMap::insert` into an array without a capacity. -/
def insertUnbounded (map : MemoryMap) (type : MemoryType) (location size : Nat) :
    Option MemoryMap :=
  some (insertLoop ⟨type, location, size⟩ map)

/-- `MemoryMap::trim` on such an array. -/
def trimUnbounded : MemoryMap → Nat → Option (MemoryMap × Option Nat) := trimWith insertUnbounded

/-- The part of a region behind the one that splits it takes a place more in the array, unless the
part before is empty and dropped. -/
theorem trim_split_length {size : Nat} {trimmed : MemoryMap}
    (h : trimmed = if size = 0 then A ++ r :: B else A ++ { l with size := size } :: r :: B) :
    (A ++ l :: r :: B).length ≤ trimmed.length + 1 ∧
      trimmed.length ≤ (A ++ l :: r :: B).length := by
  rw [h]
  split
  · simp [Nat.add_assoc]
  · simp

/-- At the last region the loop is at its end. -/
theorem trimWith_end (store : MemoryMap → MemoryType → Nat → Nat → Option MemoryMap)
    (h : map.length ≤ index + 1) : trimWith store map index = some (map, none) := by
  have hnone : map[index + 1]? = none := List.getElem?_eq_none h
  unfold trimWith
  rw [hnone]
  cases map[index]? <;> rfl

/-- A call before the last region stores at most one region, and then in an array that is not longer
than before. -/
theorem trimWith_total (hindex : index + 1 < map.length)
    (hstore : ∀ trimmed type location size, trimmed.length ≤ map.length →
      ∃ map', store trimmed type location size = some map') :
    ∃ result, trimWith store map index = some result := by
  obtain ⟨A, l, r, B, rfl, rfl⟩ := exists_pair hindex
  unfold trimWith
  simp only [getElem?_left, getElem?_right, set_left, set_right, remove_left, remove_right]
  generalize hpart : (if r.location > l.location then sub64 r.location l.location else 0) = size
  generalize htrimmed : (if size = 0 then A ++ r :: B
    else A ++ { l with size := size } :: r :: B) = trimmed
  obtain ⟨map', hmap'⟩ := hstore trimmed l.type r.finish (sub64 l.finish r.finish)
    (trim_split_length htrimmed.symm).2
  rw [hmap']
  split_ifs <;> exact ⟨_, rfl⟩

/-- A call before the last region brings the loop closer to the end of the array. -/
theorem trimWith_progress (hindex : index + 1 < map.length)
    (hstore : ∀ trimmed type location size map', store trimmed type location size = some map' →
      map'.length = trimmed.length + 1)
    (h : trimWith store map index = some (map', next)) :
    ∃ j, next = some j ∧ map'.length + index + 1 ≤ map.length + j ∧
      map'.length ≤ map.length + 1 := by
  obtain ⟨A, l, r, B, rfl, rfl⟩ := exists_pair hindex
  unfold trimWith at h
  simp only [getElem?_left, getElem?_right, set_left, set_right, remove_left, remove_right] at h
  generalize hpart : (if r.location > l.location then sub64 r.location l.location else 0) = size
    at h
  generalize htrimmed : (if size = 0 then A ++ r :: B
    else A ++ { l with size := size } :: r :: B) = trimmed at h
  obtain ⟨hdrop, hkeep⟩ := trim_split_length htrimmed.symm
  cases hinsert : store trimmed l.type r.finish (sub64 l.finish r.finish) with
  | none =>
      rw [hinsert] at h
      split_ifs at h <;> cases h <;> refine ⟨_, rfl, ?_⟩ <;>
        simp only [List.length_append, List.length_cons] <;> omega
  | some stored =>
      have hlength := hstore _ _ _ _ _ hinsert
      rw [hinsert] at h
      simp only [List.length_append, List.length_cons] at hdrop hkeep
      split_ifs at h <;> cases h <;> refine ⟨_, rfl, ?_⟩ <;>
        simp only [hlength, List.length_append, List.length_cons] <;> omega

/-- A call does the same with another way to store that succeeds where the first one does. -/
theorem trimWith_mono
    {store' : MemoryMap → MemoryType → Nat → Nat → Option MemoryMap}
    {result : MemoryMap × Option Nat}
    (hstore : ∀ trimmed type location size map', store trimmed type location size = some map' →
      store' trimmed type location size = some map')
    (h : trimWith store map index = some result) : trimWith store' map index = some result := by
  by_cases hindex : index + 1 < map.length
  · obtain ⟨A, l, r, B, rfl, rfl⟩ := exists_pair hindex
    unfold trimWith at h ⊢
    simp only [getElem?_left, getElem?_right, set_left, set_right, remove_left, remove_right] at h ⊢
    generalize hpart : (if r.location > l.location then sub64 r.location l.location else 0) = size
      at h ⊢
    generalize htrimmed : (if size = 0 then A ++ r :: B
      else A ++ { l with size := size } :: r :: B) = trimmed at h ⊢
    cases hinsert : store trimmed l.type r.finish (sub64 l.finish r.finish) with
    | none =>
        rw [hinsert] at h
        split_ifs at h ⊢ <;> first | exact h | cases h
    | some stored =>
        rw [hinsert] at h
        rw [hstore _ _ _ _ _ hinsert]
        exact h
  · rw [trimWith_end _ (Nat.le_of_not_lt hindex)] at h ⊢
    exact h

/-! ## The loop -/

/-- The loop of `place` on an array without a capacity. -/
def trimLoopUnbounded : Nat → MemoryMap → Nat → Option MemoryMap
  | 0, _, _ => none
  | fuel + 1, map, index => do
      match ← trimUnbounded map index with
      | (map, none) => some map
      | (map, some next) => trimLoopUnbounded fuel map next

theorem length_insertUnbounded {type : MemoryType} {location size : Nat}
    (h : insertUnbounded map type location size = some map') : map'.length = map.length + 1 := by
  obtain rfl := Option.some.inj h
  exact length_insertLoop _ map

/-- The loop ends when the passes left cover the rest of the array. -/
theorem trimLoopUnbounded_ends {fuel : Nat} (hfuel : map.length ≤ index + fuel) (hpos : 0 < fuel) :
    ∃ map', trimLoopUnbounded fuel map index = some map' := by
  induction fuel generalizing map index with
  | zero => omega
  | succ fuel ih =>
      rw [trimLoopUnbounded, trimUnbounded]
      by_cases hindex : index + 1 < map.length
      · obtain ⟨⟨map', next⟩, htrim⟩ := @trimWith_total map index insertUnbounded hindex
          fun _ _ _ _ _ => ⟨_, rfl⟩
        obtain ⟨j, rfl, hcloser, -⟩ :=
          trimWith_progress hindex (fun _ _ _ _ _ => length_insertUnbounded) htrim
        simp only [htrim, Option.bind_eq_bind, Option.bind_some]
        exact ih (by omega) (by omega)
      · simp only [trimWith_end _ (Nat.le_of_not_lt hindex), Option.bind_eq_bind, Option.bind_some]
        exact ⟨map, rfl⟩

/-- Whatever the array holds and wherever it starts, the loop of `place` ends after at most one pass
more than there are regions. -/
theorem trimLoopUnbounded_terminates (map : MemoryMap) (index : Nat) :
    ∃ map', trimLoopUnbounded (map.length + 1) map index = some map' :=
  trimLoopUnbounded_ends (by omega) (Nat.succ_pos _)

/-! ## The array with its capacity -/

/-- Where a call of `trim` finds room it does what it does without a capacity. -/
theorem trimUnbounded_of_trim {result : MemoryMap × Option Nat} (h : trim map index = some result) :
    trimUnbounded map index = some result := by
  refine trimWith_mono (fun trimmed type location size map' hinsert => ?_) h
  rw [insert] at hinsert
  split at hinsert
  · exact hinsert
  · cases hinsert

/-- A call of `trim` before the last region brings the loop closer to the end of the array, and
only a split needs room in the array. -/
theorem trim_progress (hindex : index + 1 < map.length) :
    (map.length < capacity → ∃ result, trim map index = some result) ∧
      ∀ map' next, trim map index = some (map', next) → ∃ j, next = some j ∧
        map'.length + index + 1 ≤ map.length + j ∧ map'.length ≤ map.length + 1 := by
  refine ⟨fun hroom => trimWith_total hindex fun trimmed _ _ _ hle => ?_, fun map' next h => ?_⟩
  · exact ⟨_, if_pos (Nat.lt_of_le_of_lt hle hroom)⟩
  · exact trimWith_progress hindex (fun _ _ _ _ _ => length_insertUnbounded)
      (trimUnbounded_of_trim h)

end MemoryMap

end CrosKernel.Memory
