import CrosKernel.Fs.DirEntry

/-!
# Short names

The loop of `long_to_short_name` is bounded by the length of the short name and not by that of the
long one. `readShortName` is the function where it reads no character behind the terminator, and
`readShortName_iff` says when that is: the long name may be at most one character shorter.
-/

namespace CrosKernel.Fs

open Lib FAT32

variable {longName shortName : Str} {past : Nat → UInt8} {c : UInt8} {index count : Nat} {len : Int}

/-- `string::operator[]` up to and including the terminator. -/
def Str.read (s : Str) (index : Nat) : Option UInt8 := (s ++ [0])[index]?

/-- The first loop of `long_to_short_name`, with `none` for a read behind the terminator. -/
def shortNameReads (longName : Str) (index : Nat) : Nat → Str → Option Str
  | 0, shortName => some shortName
  | count + 1, shortName => do
      let c ← longName.read index
      let shortName :=
        if 0x41 ≤ c ∧ c ≤ 0x5A then shortName.push c
        else if 0x61 ≤ c ∧ c ≤ 0x7A then shortName.push (c - 0x20)
        else if c ∈ shortNameChars then shortName.push c
        else shortName
      shortNameReads longName (index + 1) count shortName

/-- `Entry::long_to_short_name`, with `none` for a read behind the terminator. -/
def readShortName (longName : Str) (len : Int) : Option Str := do
  let shortName ← shortNameReads longName 0 len.toNat []
  pure (shortName ++ List.replicate (len.toNat - shortName.length) 0x20)

/-! ## Reads -/

theorem Str.read_eq_some (h : index ≤ longName.length) :
    longName.read index = some (longName.charAt past index) := by
  rw [Str.read, Str.charAt]
  split
  next hlt =>
    rw [List.getElem?_append_left hlt, List.getD_eq_getElem?_getD, List.getElem?_eq_getElem hlt]
    rfl
  next hge =>
    obtain rfl : index = longName.length := by omega
    rw [if_pos rfl, List.getElem?_concat_length]

theorem Str.read_eq_none (h : longName.length < index) : longName.read index = none :=
  List.getElem?_eq_none (by rw [List.length_append]; exact h)

/-- Where no read is behind the terminator, what lies there does not matter. -/
theorem longToShortName_of_read (h : readShortName longName len = some shortName)
    (past : Nat → UInt8) : longToShortName longName past len.toNat = shortName := by
  have hloop : ∀ (count index : Nat) (s s' : Str), shortNameReads longName index count s = some s' →
      shortNameLoop longName past index count s = s' := by
    intro count
    induction count with
    | zero => exact fun index s s' hs => Option.some.inj hs
    | succ count ih =>
        intro index s s' hs
        rw [shortNameReads] at hs
        by_cases hle : index ≤ longName.length
        · rw [Str.read_eq_some hle] at hs
          exact ih _ _ _ hs
        · rw [Str.read_eq_none (Nat.lt_of_not_le hle)] at hs
          cases hs
  obtain ⟨s, hs, h⟩ := Option.bind_eq_some_iff.1 h
  rw [longToShortName, hloop _ _ _ _ hs]
  exact Option.some.inj h

/-! ## The characters that are kept -/

/-- What the loop adds to the short name for a character. -/
def shortChar (c : UInt8) : Option UInt8 :=
  if 0x41 ≤ c ∧ c ≤ 0x5A then some c
  else if 0x61 ≤ c ∧ c ≤ 0x7A then some (c - 0x20)
  else if c ∈ shortNameChars then some c
  else none

/-- A character of a short name, without the padding. -/
def IsShortChar (c : UInt8) : Prop := 0x41 ≤ c ∧ c ≤ 0x5A ∨ c ∈ shortNameChars

instance (c : UInt8) : Decidable (IsShortChar c) := inferInstanceAs (Decidable (_ ∨ _))

theorem IsShortChar.of_lower (h : 0x61 ≤ c ∧ c ≤ 0x7A) : IsShortChar (c - 0x20) :=
  .inl (by grind)

theorem IsShortChar.of_shortChar {d : UInt8} (h : shortChar c = some d) : IsShortChar d := by
  rw [shortChar] at h
  split at h
  next hupper =>
    obtain rfl := Option.some.inj h
    exact .inl hupper
  next =>
    split at h
    next hlower =>
      obtain rfl := Option.some.inj h
      exact .of_lower hlower
    next =>
      split at h
      next hmem =>
        obtain rfl := Option.some.inj h
        exact .inr hmem
      next => cases h

theorem IsShortChar.ne_space (h : IsShortChar c) : c ≠ 0x20 := by
  rintro rfl
  revert h
  decide

theorem IsShortChar.ne_zero (h : IsShortChar c) : c ≠ 0 := by
  rintro rfl
  revert h
  decide

theorem keep_shortChar (shortName : Str) (c : UInt8) :
    (if 0x41 ≤ c ∧ c ≤ 0x5A then shortName.push c
      else if 0x61 ≤ c ∧ c ≤ 0x7A then shortName.push (c - 0x20)
      else if c ∈ shortNameChars then shortName.push c
      else shortName) = shortName ++ (shortChar c).toList := by
  have hpush : ∀ {d : UInt8}, IsShortChar d → shortName.push d = shortName ++ [d] :=
    fun hd => if_neg hd.ne_zero
  rw [shortChar]
  by_cases hupper : 0x41 ≤ c ∧ c ≤ 0x5A
  · rw [if_pos hupper, if_pos hupper, hpush (.inl hupper)]
    rfl
  rw [if_neg hupper, if_neg hupper]
  by_cases hlower : 0x61 ≤ c ∧ c ≤ 0x7A
  · rw [if_pos hlower, if_pos hlower, hpush (.of_lower hlower)]
    rfl
  rw [if_neg hlower, if_neg hlower]
  by_cases hmem : c ∈ shortNameChars
  · rw [if_pos hmem, if_pos hmem, hpush (.inr hmem)]
    rfl
  · rw [if_neg hmem, if_neg hmem]
    exact (List.append_nil shortName).symm

/-- The loop reads the characters from the index on, up to the terminator. -/
theorem shortNameReads_eq (h : index + count ≤ longName.length + 1) (shortName : Str) :
    shortNameReads longName index count shortName =
      some (shortName ++ (((longName ++ [0]).drop index).take count).filterMap shortChar) := by
  induction count generalizing index shortName with
  | zero => simp [shortNameReads]
  | succ count ih =>
      have hlt : index < (longName ++ [0]).length := by
        rw [List.length_append, List.length_singleton]
        omega
      rw [shortNameReads, Str.read, List.getElem?_eq_getElem hlt, Option.bind_eq_bind,
        Option.bind_some, List.drop_eq_getElem_cons hlt, List.take_succ_cons]
      dsimp only
      rw [keep_shortChar, ih (by omega), List.append_assoc, List.filterMap_cons]
      cases shortChar (longName ++ [0])[index] <;> rfl

/-- A pass behind the terminator reads what is not in the string. -/
theorem shortNameReads_eq_none (hcount : count ≠ 0) (h : longName.length + 1 < index + count)
    (shortName : Str) : shortNameReads longName index count shortName = none := by
  induction count generalizing index shortName with
  | zero => exact absurd rfl hcount
  | succ count ih =>
      rw [shortNameReads]
      by_cases hle : index ≤ longName.length
      · rw [@Str.read_eq_some longName (fun _ => 0) index hle]
        exact ih (by omega) (by omega) _
      · rw [Str.read_eq_none (Nat.lt_of_not_le hle)]
        rfl

/-! ## The short name -/

/-- The short name of the wanted length for a long one: the characters that are kept, in their order
and in upper case, and spaces. -/
structure IsShortName (longName : Str) (len : Int) (shortName : Str) : Prop where
  length_eq : (shortName.length : Int) = len
  chars : ∀ c ∈ shortName, IsShortChar c ∨ c = 0x20
  kept : shortName.filter (fun c => c ≠ 0x20) = (longName.take len.toNat).filterMap shortChar

theorem filterMap_terminated (longName : Str) (n : Nat) :
    ((longName ++ [0]).take n).filterMap shortChar = (longName.take n).filterMap shortChar := by
  rw [List.take_append, List.filterMap_append]
  cases n - longName.length with
  | zero => exact List.append_nil _
  | succ k =>
      rw [List.take_succ_cons, List.take_nil]
      exact List.append_nil _

theorem isShortName_padded {n : Nat} {kept : Str}
    (hkept : kept = (longName.take n).filterMap shortChar) :
    IsShortName longName n (kept ++ List.replicate (n - kept.length) 0x20) := by
  have hchars : ∀ c ∈ kept, IsShortChar c := by
    rw [hkept]
    intro c hc
    obtain ⟨d, -, hd⟩ := List.mem_filterMap.1 hc
    exact .of_shortChar hd
  have hlength : kept.length ≤ n := by
    rw [hkept]
    exact (List.length_filterMap_le ..).trans (List.length_take_le ..)
  refine ⟨?_, ?_, ?_⟩
  · rw [List.length_append, List.length_replicate, Nat.add_sub_cancel' hlength]
  · refine List.forall_mem_append.2 ⟨fun c hc => .inl (hchars c hc), fun c hc => .inr ?_⟩
    exact List.eq_of_mem_replicate hc
  · have hall : kept.filter (fun c => c ≠ 0x20) = kept :=
      List.filter_eq_self.2 fun c hc => by simpa using (hchars c hc).ne_space
    rw [List.filter_append, hall, List.filter_replicate_of_neg (by decide), List.append_nil, hkept]
    rfl

/-- `long_to_short_name` reads only characters of the string and returns the short name of the
wanted length if and only if that is not negative and at most one more than the length of the long
name. -/
theorem readShortName_iff (longName : Str) (len : Int) :
    (∃ shortName, readShortName longName len = some shortName ∧
      IsShortName longName len shortName) ↔ 0 ≤ len ∧ len ≤ longName.length + 1 := by
  constructor
  · rintro ⟨shortName, hread, hshort⟩
    have hlength := hshort.length_eq
    refine ⟨by omega, ?_⟩
    by_contra hlong
    rw [readShortName, shortNameReads_eq_none (by omega) (by omega)] at hread
    cases hread
  · rintro ⟨hpos, hle⟩
    obtain ⟨n, rfl⟩ := Int.eq_ofNat_of_zero_le hpos
    refine ⟨_, ?_, isShortName_padded (filterMap_terminated longName n)⟩
    rw [readShortName, Int.toNat_natCast, shortNameReads_eq (by omega), List.drop_zero,
      List.nil_append]
    rfl

/-- The short name of a name with one character: the loop goes on behind the terminator. -/
theorem readShortName_behind : ¬ ∀ (longName : Str) (len : Int), ∃ shortName,
    readShortName longName len = some shortName ∧ IsShortName longName len shortName := by
  intro h
  obtain ⟨shortName, hread, -⟩ := h [0x41] 8
  have hnone : readShortName [0x41] 8 = none := by decide
  rw [hnone] at hread
  cases hread

end CrosKernel.Fs
