import CrosKernel.Memory.MemoryMap
import Mathlib.Tactic.SplitIfs

/-!
# One call of trim

`Trimmed` lists what one call of `trim` can do to two neighbouring regions whose ends do not wrap,
and `trim_cases` says that it does one of these things. The levels of the map, which record the
highest type at every address, stay as they are in all of them.
-/

namespace CrosKernel.Memory

open Lib

namespace MemoryRegion

/-- The address after the region, where it does not wrap. -/
def stop (r : MemoryRegion) : Nat := r.location + r.size

/-- The region ends inside the address space. -/
def Fits (r : MemoryRegion) : Prop := r.stop < 2 ^ 64

theorem location_le_stop (r : MemoryRegion) : r.location ≤ r.stop := Nat.le_add_right _ _

theorem Fits.finish_eq {r : MemoryRegion} (h : r.Fits) : r.finish = r.stop :=
  Nat.mod_eq_of_lt h

/-- The region from the location of `l` to the later one of the two ends. -/
def merge (l r : MemoryRegion) : MemoryRegion :=
  { l with size := max l.stop r.stop - l.location }

/-- The part of `l` before the region `r`. -/
def cutBefore (l r : MemoryRegion) : MemoryRegion :=
  { l with size := r.location - l.location }

/-- The part of `l` behind the region `r`. -/
def cutAfter (l r : MemoryRegion) : MemoryRegion :=
  ⟨l.type, r.stop, l.stop - r.stop⟩

@[simp] theorem merge_location (l r : MemoryRegion) : (l.merge r).location = l.location := rfl

@[simp] theorem merge_type (l r : MemoryRegion) : (l.merge r).type = l.type := rfl

@[simp] theorem merge_stop (l r : MemoryRegion) : (l.merge r).stop = max l.stop r.stop := by
  simp only [merge, stop]
  omega

@[simp] theorem cutBefore_location (l r : MemoryRegion) :
    (l.cutBefore r).location = l.location := rfl

@[simp] theorem cutBefore_type (l r : MemoryRegion) : (l.cutBefore r).type = l.type := rfl

theorem cutBefore_stop {l r : MemoryRegion} (h : l.location ≤ r.location) :
    (l.cutBefore r).stop = r.location := by
  simp only [cutBefore, stop]
  omega

@[simp] theorem cutAfter_location (l r : MemoryRegion) : (l.cutAfter r).location = r.stop := rfl

@[simp] theorem cutAfter_type (l r : MemoryRegion) : (l.cutAfter r).type = l.type := rfl

theorem cutAfter_stop {l r : MemoryRegion} (h : r.stop ≤ l.stop) :
    (l.cutAfter r).stop = l.stop := by
  simp only [cutAfter, stop] at *
  omega

/-- The order of regions: by location, then by size. -/
theorem lt_iff {r rhs : MemoryRegion} :
    r.lt rhs ↔ r.location < rhs.location ∨ r.location = rhs.location ∧ r.size < rhs.size := by
  rw [lt]
  split <;> omega

/-- For regions in order, overlapping is reaching behind the next location. -/
theorem overlaps_iff {l r : MemoryRegion} (hl : l.Fits) (hle : l.location ≤ r.location) :
    l.overlaps r ↔ r.location < l.stop := by
  rw [overlaps, if_neg (Nat.not_lt_of_le hle), hl.finish_eq]

theorem contains_iff {l r : MemoryRegion} (hl : l.Fits) (hr : r.Fits) :
    l.contains r ↔ l.location ≤ r.location ∧ r.stop ≤ l.stop := by
  rw [contains, hl.finish_eq, hr.finish_eq]

end MemoryRegion

/-- Regions as intervals ranked by the value of their type. -/
def layering : Layering MemoryRegion where
  lo := MemoryRegion.location
  hi := MemoryRegion.stop
  rank r := r.type.value

namespace MemoryMap

open MemoryRegion

/-- Every region of the map ends inside the address space. -/
def AllFit (map : MemoryMap) : Prop := ∀ r ∈ map, r.Fits

/-! ## The list operations at a pair of neighbours -/

variable {A B map map' : MemoryMap} {l r x : MemoryRegion} {next : Nat}

theorem getElem?_left : (A ++ l :: r :: B)[A.length]? = some l := by simp

theorem getElem?_right : (A ++ l :: r :: B)[A.length + 1]? = some r := by simp

theorem set_left : (A ++ l :: r :: B).set A.length x = A ++ x :: r :: B := by simp

theorem set_right : (A ++ l :: r :: B).set (A.length + 1) x = A ++ l :: x :: B := by simp

theorem remove_left : remove (A ++ l :: r :: B) A.length = A ++ r :: B := by
  simp [remove, List.eraseIdx_append_of_length_le]

theorem remove_right : remove (A ++ l :: r :: B) (A.length + 1) = A ++ l :: B := by
  simp [remove, List.eraseIdx_append_of_length_le]

/-- A region that comes before nothing in a prefix is inserted behind it. -/
theorem insertLoop_append (h : ∀ y ∈ A, ¬ x.lt y) :
    insertLoop x (A ++ B) = A ++ insertLoop x B := by
  induction A with
  | nil => rfl
  | cons y A ih =>
      have hy : ¬ x.lt y := h y (by simp)
      rw [List.cons_append, insertLoop, if_neg hy, ih fun z hz => h z (by simp [hz])]
      rfl

theorem insertLoop_perm (x : MemoryRegion) (map : MemoryMap) :
    (insertLoop x map).Perm (x :: map) := by
  induction map generalizing x with
  | nil => exact .refl _
  | cons y map ih =>
      rw [insertLoop]
      split
      · exact (ih y).cons x
      · exact ((ih x).cons y).trans (.swap x y map)

theorem forall_mem_insertLoop {P : MemoryRegion → Prop} (hx : P x) (h : ∀ y ∈ map, P y) :
    ∀ y ∈ insertLoop x map, P y := by
  intro y hy
  exact List.forall_mem_cons.mpr ⟨hx, h⟩ y ((insertLoop_perm x map).mem_iff.mp hy)

/-- `Trimmed A l r B map next`: the call of `trim` at the region `l`, between the regions `A` and
its neighbour `r` with the regions `B` behind it, makes the array `map` and continues at `next`. -/
inductive Trimmed (A : MemoryMap) (l r : MemoryRegion) (B : MemoryMap) :
    MemoryMap → Nat → Prop where
  | merge : r.location ≤ l.stop → l.type = r.type →
      Trimmed A l r B (A ++ l.merge r :: B) A.length
  | dropLeft : r.location < l.stop → l.type.value < r.type.value → l.location = r.location →
      l.stop ≤ r.stop → Trimmed A l r B (A ++ r :: B) A.length
  | cutLeft : r.location < l.stop → l.type.value < r.type.value → l.location < r.location →
      l.stop ≤ r.stop → Trimmed A l r B (A ++ l.cutBefore r :: r :: B) (A.length + 1)
  | split : r.location < l.stop → l.type.value < r.type.value → l.location < r.location →
      r.stop < l.stop →
      Trimmed A l r B (A ++ l.cutBefore r :: r :: insertLoop (l.cutAfter r) B) (A.length + 2)
  | splitFront : r.location < l.stop → l.type.value < r.type.value → l.location = r.location →
      r.stop < l.stop →
      Trimmed A l r B (A ++ r :: insertLoop (l.cutAfter r) B) (A.length + 2)
  | dropRight : r.location < l.stop → r.type.value < l.type.value → r.stop ≤ l.stop →
      Trimmed A l r B (A ++ l :: B) A.length
  | cutRight : r.location < l.stop → r.type.value < l.type.value → l.stop < r.stop →
      Trimmed A l r B (A ++ l :: r.cutAfter l :: B) (A.length + 1)
  | skip : l.stop ≤ r.location → (l.stop = r.location → l.type ≠ r.type) →
      Trimmed A l r B (A ++ l :: r :: B) (A.length + 1)

/-- At the last region `trim` reports the end of the array. -/
theorem trim_end {index : Nat} (h : map.length ≤ index + 1) :
    trim map index = some (map, none) := by
  have hnone : map[index + 1]? = none := List.getElem?_eq_none h
  unfold trim
  rw [hnone]
  cases map[index]? <;> rfl

/-- The region behind a split is inserted behind the two regions it came from. -/
theorem insert_cutAfter (l : MemoryRegion) (hA : ∀ x ∈ A, x.stop ≤ r.location) :
    insertLoop (l.cutAfter r) (A ++ r :: B) = A ++ r :: insertLoop (l.cutAfter r) B := by
  have hnotlt : ∀ x ∈ A ++ [r], ¬ (l.cutAfter r).lt x := by
    intro x hx
    have hx' : x.stop ≤ r.stop ∧ (x.location = r.stop → x.size = 0) := by
      rcases List.mem_append.mp hx with hx | hx
      · have hxstop := hA x hx
        simp only [stop] at *
        omega
      · obtain rfl := List.mem_singleton.mp hx
        simp only [stop]
        omega
    have hxle := x.location_le_stop
    rw [lt_iff, cutAfter_location]
    omega
  have hprefix := insertLoop_append (B := B) hnotlt
  simpa using hprefix

/-- A call of `trim` at two regions in order does one of the eight things. -/
theorem trim_cases (hl : l.Fits) (hr : r.Fits) (hle : l.location ≤ r.location)
    (hA : ∀ x ∈ A, x.stop ≤ l.location) {next : Option Nat}
    (h : trim (A ++ l :: r :: B) A.length = some (map', next)) :
    ∃ index, next = some index ∧ Trimmed A l r B map' index := by
  have hrle := r.location_le_stop
  have hlfit : l.stop < 2 ^ 64 := hl
  have hrfit : r.stop < 2 ^ 64 := hr
  have hmerge : ∀ stop, stop = max l.stop r.stop →
      { l with size := sub64 stop l.location } = l.merge r := by
    rintro stop rfl
    rw [sub64_eq (by omega) (by omega), MemoryRegion.merge]
  unfold trim at h
  simp only [getElem?_left, getElem?_right, overlaps_iff hl hle, contains_iff hl hr,
    contains_iff hr hl, hl.finish_eq, hr.finish_eq, set_left, set_right, remove_left, remove_right]
    at h
  split at h
  next hmeet =>
    obtain ⟨rfl, rfl⟩ := Prod.mk.inj (Option.some.inj h)
    rw [hmerge _ (by split <;> omega)]
    exact ⟨_, rfl, .merge (Nat.le_of_lt hmeet.1) hmeet.2⟩
  next hdiffer =>
  have hvalue : r.location < l.stop → l.type.value ≠ r.type.value :=
    fun hover heq => hdiffer ⟨hover, MemoryType.value_inj.mp heq⟩
  split at h
  next hdrop =>
    obtain ⟨rfl, rfl⟩ := Prod.mk.inj (Option.some.inj h)
    exact ⟨_, rfl, .dropLeft hdrop.1 hdrop.2.1 (Nat.le_antisymm hle hdrop.2.2.1) hdrop.2.2.2⟩
  next hkeep =>
  split at h
  next hcut =>
    obtain ⟨rfl, rfl⟩ := Prod.mk.inj (Option.some.inj h)
    have hlt : l.location < r.location := by omega
    rw [if_pos hlt, sub64_eq hle (by omega)]
    exact ⟨_, rfl, .cutLeft hcut.1 hcut.2.1 hlt hcut.2.2⟩
  next hlong =>
  split at h
  next hsplit =>
    have hstop : r.stop < l.stop := by omega
    have hpart : (⟨l.type, r.stop, sub64 l.stop r.stop⟩ : MemoryRegion) = l.cutAfter r := by
      rw [sub64_eq (Nat.le_of_lt hstop) hlfit, cutAfter]
    simp only [insert, hpart] at h
    rcases Nat.eq_or_lt_of_le hle with heq | hlt
    · have hempty : ¬ r.location > l.location := by omega
      simp only [hempty, if_false, if_true] at h
      split at h
      · rw [insert_cutAfter l fun x hx => Nat.le_trans (hA x hx) hle] at h
        obtain ⟨rfl, rfl⟩ := Prod.mk.inj (Option.some.inj h)
        exact ⟨_, rfl, .splitFront hsplit.1 hsplit.2 heq hstop⟩
      · simp at h
    · have hsize : ¬ r.location - l.location = 0 := by omega
      have hcut : ∀ x ∈ A ++ [l.cutBefore r], x.stop ≤ r.location := by
        intro x hx
        rcases List.mem_append.mp hx with hx | hx
        · exact Nat.le_trans (hA x hx) hle
        · obtain rfl := List.mem_singleton.mp hx
          exact Nat.le_of_eq (cutBefore_stop hle)
      simp only [gt_iff_lt, hlt, if_true, sub64_eq hle (show r.location < 2 ^ 64 by omega), hsize,
        if_false] at h
      split at h
      · have hinsert : insertLoop (l.cutAfter r) (A ++ l.cutBefore r :: r :: B) =
            A ++ l.cutBefore r :: r :: insertLoop (l.cutAfter r) B := by
          simpa using insert_cutAfter (B := B) l hcut
        rw [← cutBefore, hinsert] at h
        obtain ⟨rfl, rfl⟩ := Prod.mk.inj (Option.some.inj h)
        exact ⟨_, rfl, .split hsplit.1 hsplit.2 hlt hstop⟩
      · simp at h
  next hlower =>
  split at h
  next hdrop =>
    obtain ⟨rfl, rfl⟩ := Prod.mk.inj (Option.some.inj h)
    have hne := hvalue hdrop.1
    exact ⟨_, rfl, .dropRight hdrop.1 (by omega) hdrop.2.2⟩
  next hkeep' =>
  split at h
  next hover =>
    obtain ⟨rfl, rfl⟩ := Prod.mk.inj (Option.some.inj h)
    have hne := hvalue hover
    have hstop : l.stop < r.stop := by omega
    have hpart : (⟨r.type, l.stop, sub64 r.stop l.stop⟩ : MemoryRegion) = r.cutAfter l := by
      rw [sub64_eq (Nat.le_of_lt hstop) hrfit, cutAfter]
    rw [hpart]
    exact ⟨_, rfl, .cutRight hover (by omega) hstop⟩
  next hapart =>
  split at h
  next hjoin =>
    obtain ⟨rfl, rfl⟩ := Prod.mk.inj (Option.some.inj h)
    rw [hmerge _ (by omega)]
    exact ⟨_, rfl, .merge (Nat.le_of_eq hjoin.1.symm) hjoin.2⟩
  next hnojoin =>
    obtain ⟨rfl, rfl⟩ := Prod.mk.inj (Option.some.inj h)
    exact ⟨_, rfl, .skip (by omega) fun hstop htype => hnojoin ⟨hstop, htype⟩⟩

/-! ## Levels -/

theorem level_insertLoop (x : MemoryRegion) (map : MemoryMap) (a : Nat) :
    layering.level (insertLoop x map) a = max (layering.share x a) (layering.level map a) := by
  rw [Layering.level_perm (insertLoop_perm x map), Layering.level_cons]

theorem share_eq (r : MemoryRegion) (a : Nat) : layering.share r a =
    if r.location ≤ a ∧ a < r.stop then r.type.value else 0 := rfl

/-- A region inside another one that has no lower type adds nothing to the levels. -/
theorem share_le (hloc : l.location ≤ x.location) (hstop : x.stop ≤ l.stop)
    (htype : x.type.value ≤ l.type.value) (a : Nat) : layering.share x a ≤ layering.share l a := by
  simp only [share_eq]
  split_ifs <;> omega

/-- What a region of higher type takes from `l` and the parts that it leaves cover `l`. -/
theorem share_le_cut (hle : l.location ≤ r.location) (hstop : r.stop ≤ l.stop)
    (htype : l.type.value ≤ r.type.value) (a : Nat) :
    layering.share l a ≤ max (max (layering.share (l.cutBefore r) a) (layering.share r a))
      (layering.share (l.cutAfter r) a) := by
  simp only [share_eq, cutBefore_location, cutBefore_stop hle, cutBefore_type, cutAfter_location,
    cutAfter_stop hstop, cutAfter_type]
  rcases Nat.lt_or_ge a r.location with hbefore | hbefore
  · simp only [hbefore, and_true]
    split_ifs <;> omega
  · rcases Nat.lt_or_ge a r.stop with hinside | hinside
    · simp only [hbefore, hinside, and_self, if_true]
      split_ifs <;> omega
    · simp only [hinside, true_and]
      split_ifs <;> omega

/-- No call of `trim` changes the level of an address. -/
theorem Trimmed.level_eq (h : Trimmed A l r B map' next) (hle : l.location ≤ r.location) (a : Nat) :
    layering.level map' a = layering.level (A ++ l :: r :: B) a := by
  have hrle := r.location_le_stop
  cases h with
  | merge hmeet htype =>
      have hshare : layering.share (l.merge r) a =
          max (layering.share l a) (layering.share r a) := by
        simp only [share_eq, merge_location, merge_stop, merge_type, htype]
        split_ifs <;> omega
      simp only [Layering.level_append, Layering.level_cons, hshare, Nat.max_assoc]
  | dropLeft hover htype hloc hstop =>
      have hshare := share_le (Nat.le_of_eq hloc.symm) hstop (Nat.le_of_lt htype) a
      simp only [Layering.level_append, Layering.level_cons]
      omega
  | cutLeft hover htype hloc hstop =>
      have hshare : max (layering.share (l.cutBefore r) a) (layering.share r a) =
          max (layering.share l a) (layering.share r a) := by
        simp only [share_eq, cutBefore_location, cutBefore_stop hle, cutBefore_type]
        split_ifs <;> omega
      simp only [Layering.level_append, Layering.level_cons]
      omega
  | split hover htype hloc hstop =>
      have hbefore : layering.share (l.cutBefore r) a ≤ layering.share l a :=
        share_le (cutBefore_location l r).ge ((cutBefore_stop hle).trans_le (Nat.le_of_lt hover))
          le_rfl a
      have hafter : layering.share (l.cutAfter r) a ≤ layering.share l a :=
        share_le (Nat.le_trans hle hrle) (cutAfter_stop (Nat.le_of_lt hstop)).le le_rfl a
      have hcut := share_le_cut hle (Nat.le_of_lt hstop) (Nat.le_of_lt htype) a
      simp only [Layering.level_append, Layering.level_cons, level_insertLoop]
      omega
  | splitFront hover htype hloc hstop =>
      have hshare : max (layering.share r a) (layering.share (l.cutAfter r) a) =
          max (layering.share l a) (layering.share r a) := by
        simp only [share_eq, cutAfter_location, cutAfter_stop (Nat.le_of_lt hstop), cutAfter_type]
        split_ifs <;> omega
      simp only [Layering.level_append, Layering.level_cons, level_insertLoop]
      omega
  | dropRight hover htype hstop =>
      have hshare := share_le hle hstop (Nat.le_of_lt htype) a
      simp only [Layering.level_append, Layering.level_cons]
      omega
  | cutRight hover htype hstop =>
      have hshare : max (layering.share l a) (layering.share (r.cutAfter l) a) =
          max (layering.share l a) (layering.share r a) := by
        simp only [share_eq, cutAfter_location, cutAfter_stop (Nat.le_of_lt hstop), cutAfter_type]
        split_ifs <;> omega
      simp only [Layering.level_append, Layering.level_cons]
      omega
  | skip => rfl

/-- What holds of the regions before a call of `trim`, of their union and of the parts that a region
leaves of another one holds of the regions after it. -/
theorem Trimmed.forall_mem {P : MemoryRegion → Prop} (h : Trimmed A l r B map' next)
    (hP : ∀ x ∈ A ++ l :: r :: B, P x) (hmerge : P (l.merge r))
    (hbefore : l.location < r.location → P (l.cutBefore r))
    (hafter : ∀ x y : MemoryRegion, P x → y.stop < x.stop → P (x.cutAfter y)) :
    ∀ x ∈ map', P x := by
  have hl : P l := hP l (by simp)
  have hr : P r := hP r (by simp)
  intro x hx
  cases h with
  | merge | dropLeft | cutLeft | dropRight | skip =>
      simp only [List.mem_append, List.mem_cons] at hx hP
      grind
  | split hover htype hloc hstop =>
      have hnew := hafter l r hl hstop
      simp only [List.mem_append, List.mem_cons, (insertLoop_perm _ _).mem_iff] at hx hP
      grind
  | splitFront hover htype hloc hstop =>
      have hnew := hafter l r hl hstop
      simp only [List.mem_append, List.mem_cons, (insertLoop_perm _ _).mem_iff] at hx hP
      grind
  | cutRight hover htype hstop =>
      have hnew := hafter r l hr hstop
      simp only [List.mem_append, List.mem_cons] at hx hP
      grind

/-- No call of `trim` makes a region whose end wraps. -/
theorem Trimmed.allFit (h : Trimmed A l r B map' next) (hle : l.location ≤ r.location)
    (hfit : AllFit (A ++ l :: r :: B)) : AllFit map' := by
  have hl : l.Fits := hfit l (by simp)
  have hr : r.Fits := hfit r (by simp)
  refine h.forall_mem hfit ?_ (fun _ => ?_) fun x y hx hlt => ?_
  · rw [Fits, merge_stop]
    exact Nat.max_lt.mpr ⟨hl, hr⟩
  · rw [Fits, cutBefore_stop hle]
    exact Nat.lt_of_le_of_lt r.location_le_stop hr
  · rwa [Fits, cutAfter_stop (Nat.le_of_lt hlt)]

end MemoryMap

end CrosKernel.Memory
