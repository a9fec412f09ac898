import CrosKernel.Util.Log
import Mathlib.Data.Nat.Digits.Lemmas

/-!
# The digit strings of `itoa`

`itoa` fills its buffer from the end, one digit of the number in each pass, until there are as many
characters as wanted and nothing is left of the number. `itoaBuffer` is the function with its static
buffer; it refines `itoa`, which keeps only the characters behind the pointer.
`itoa_number_string` says what the string is.
-/

namespace CrosKernel.Util

/-! ## The buffer -/

/-- The loop of `itoa` on its buffer. The pointer `s` is an index into it. -/
def fillLoop (base width : Nat) : Nat → Nat → Nat → List UInt8 → Option (Nat × List UInt8)
  | 0, _, _, _ => none
  | s + 1, n, count, buffer => do
      let digit ← digits[n % base]?
      let buffer := buffer.set s digit
      let n := n / base
      let count := count + 1
      if count < width ∨ n ≠ 0 then fillLoop base width s n count buffer
      else some (s, buffer)

/-- `itoa` on its buffer: the index of the string, and the buffer. The inner `none` is the null
pointer. -/
def itoaBuffer (buffer : List UInt8) (n base width : Nat) : Option (Option (Nat × List UInt8)) :=
  if base < 2 ∨ 16 < base then some none
  else do
    let r ← fillLoop base width 64 n 0 (buffer.set 64 0)
    pure (some r)

variable {base width s n count : Nat} {buffer tail str : List UInt8}

theorem drop_set {c : UInt8} (h : s < buffer.length) :
    (buffer.set s c).drop s = c :: buffer.drop (s + 1) := by
  have hlt : s < (buffer.set s c).length := by rwa [List.length_set]
  rw [List.drop_eq_getElem_cons hlt, List.getElem_set_self,
    List.drop_set_of_lt (Nat.lt_succ_self s)]

/-- The characters that `itoa` has produced are those of its buffer from the pointer on. -/
theorem fillLoop_refines (hlen : s < buffer.length) (hdrop : buffer.drop s = tail ++ [0])
    (h : itoaLoop base width s n count tail = some str) :
    ∃ s' buffer', fillLoop base width s n count buffer = some (s', buffer') ∧
      buffer'.length = buffer.length ∧ buffer'.drop s' = str ++ [0] := by
  induction s generalizing n count buffer tail with
  | zero => cases h
  | succ s ih =>
      rw [itoaLoop] at h
      obtain ⟨digit, hdigit, h⟩ := Option.bind_eq_some_iff.1 h
      have hset : (buffer.set s digit).drop s = digit :: tail ++ [0] := by
        rw [drop_set (by omega), hdrop]
        rfl
      rw [fillLoop, hdigit, Option.bind_eq_bind, Option.bind_some]
      dsimp only at h ⊢
      split at h
      next hmore =>
        rw [if_pos hmore]
        obtain ⟨s', buffer', hfill, hlength, hstring⟩ := ih (by rw [List.length_set]; omega) hset h
        exact ⟨s', buffer', hfill, hlength.trans (List.length_set ..), hstring⟩
      next hdone =>
        rw [if_neg hdone]
        obtain rfl := Option.some.inj h
        exact ⟨s, _, rfl, List.length_set .., hset⟩

/-! ## The digits -/

/-- The character for the value of a digit. -/
def digitChar (d : Nat) : UInt8 := digits.getD d 0

theorem digits_getElem? {d : Nat} (h : d < 16) : digits[d]? = some (digitChar d) := by
  have hlen : d < digits.length := h
  rw [digitChar, List.getD_eq_getElem?_getD, List.getElem?_eq_getElem hlen]
  rfl

theorem digitChar_ne_zero : ∀ d < 16, digitChar d ≠ 0 := by decide

/-- The digits of the number come before those already there, with zeros in front of them. -/
theorem itoaLoop_digits (hbase : 2 ≤ base) (hbase' : base ≤ 16) (hpos : 0 < s)
    (hwidth : width ≤ s + count) (hfit : (Nat.digits base n).length ≤ s) :
    ∃ zeros, zeros + (Nat.digits base n).length =
        max (width - count) (max (Nat.digits base n).length 1) ∧
      itoaLoop base width s n count tail =
        some ((List.replicate zeros 0 ++ (Nat.digits base n).reverse).map digitChar ++ tail) := by
  induction s generalizing n count tail with
  | zero => cases hpos
  | succ s ih =>
      have hdigit : n % base < 16 := (Nat.mod_lt n (by omega)).trans_le hbase'
      rw [itoaLoop, digits_getElem? hdigit, Option.bind_eq_bind, Option.bind_some]
      dsimp only
      obtain rfl | hn := Nat.eq_zero_or_pos n
      · -- nothing is left of the number, and the new character is one of the zeros
        rw [Nat.zero_mod, Nat.zero_div, Nat.digits_zero]
        split
        next hmore =>
          obtain ⟨zeros, hlength, hloop⟩ := @ih 0 (count + 1) (digitChar 0 :: tail) (by omega)
            (by omega) (by rw [Nat.digits_zero]; exact Nat.zero_le s)
          rw [Nat.digits_zero, List.length_nil] at hlength
          refine ⟨zeros + 1, by rw [List.length_nil]; omega, ?_⟩
          rw [hloop, Nat.digits_zero, List.replicate_succ']
          simp
        next hdone => exact ⟨1, by rw [List.length_nil]; omega, rfl⟩
      · have hdigits := Nat.digits_def' hbase hn
        rw [hdigits, List.length_cons] at hfit
        rw [hdigits, List.length_cons, List.reverse_cons]
        split
        next hmore =>
          have hrest : n / base ≠ 0 → 0 < (Nat.digits base (n / base)).length := fun hne =>
            List.length_pos_of_ne_nil (Nat.digits_ne_nil_iff_ne_zero.2 hne)
          obtain ⟨zeros, hlength, hloop⟩ :=
            @ih (n / base) (count + 1) (digitChar (n % base) :: tail) (by omega) (by omega) (by omega)
          refine ⟨zeros, by omega, ?_⟩
          rw [hloop]
          simp
        next hdone =>
          obtain ⟨hcount, hzero⟩ := not_or.1 hdone
          rw [not_not.1 hzero, Nat.digits_zero]
          exact ⟨0, by rw [List.length_nil]; omega, rfl⟩

/-! ## What the string says -/

/-- The number that a string of digits denotes. -/
def Denotes (base : Nat) (str : List UInt8) (n : Nat) : Prop :=
  ∃ values : List Nat, (∀ d ∈ values, d < base) ∧ str = values.map digitChar ∧
    values.foldl (fun n d => n * base + d) 0 = n

/-- The string of digits of a number, with zeros in front up to the width. -/
structure NumberString (base width n : Nat) (str : List UInt8) : Prop where
  length_eq : str.length = max width (max (Nat.digits base n).length 1)
  denotes : Denotes base str n
  padded : ∀ c ∈ str.take (str.length - (Nat.digits base n).length), c = '0'.toUInt8
  noNul : 0 ∉ str

theorem foldl_digits (base : Nat) (values : List Nat) :
    values.foldl (fun n d => n * base + d) 0 = Nat.ofDigits base values.reverse := by
  rw [Nat.ofDigits_eq_foldr, List.foldr_reverse]
  simp only [Nat.cast_id, Nat.add_comm, Nat.mul_comm]

theorem numberString_padded {zeros : Nat} (hbase : 2 ≤ base) (hbase' : base ≤ 16)
    (hlength : zeros + (Nat.digits base n).length =
      max width (max (Nat.digits base n).length 1)) :
    NumberString base width n
      ((List.replicate zeros 0 ++ (Nat.digits base n).reverse).map digitChar) := by
  have hlt : ∀ d ∈ List.replicate zeros 0 ++ (Nat.digits base n).reverse, d < base := by
    refine List.forall_mem_append.2 ⟨fun d hd => ?_, fun d hd => ?_⟩
    · rw [List.eq_of_mem_replicate hd]
      omega
    · exact Nat.digits_lt_base hbase (List.mem_reverse.1 hd)
  refine ⟨?_, ⟨_, hlt, rfl, ?_⟩, ?_, ?_⟩
  · simpa using hlength
  · rw [foldl_digits, List.reverse_append, List.reverse_reverse, List.reverse_replicate,
      Nat.ofDigits_append_replicate_zero, Nat.ofDigits_digits]
  · intro c hc
    simp only [List.length_map, List.length_append, List.length_replicate, List.length_reverse,
      Nat.add_sub_cancel, List.map_append, List.map_replicate] at hc
    rw [List.take_left' (List.length_replicate ..)] at hc
    exact List.eq_of_mem_replicate hc
  · intro hmem
    obtain ⟨d, hd, hzero⟩ := List.mem_map.1 hmem
    exact digitChar_ne_zero d ((hlt d hd).trans_le hbase') hzero

/-- For every number of 64 bits, base up to 16 and width up to 64 `itoa` stays inside of its buffer,
and behind the pointer that it returns stands the string of the digits. -/
theorem itoa_number_string (hbuffer : buffer.length = 65) (hn : n < 2 ^ 64) (hbase : 2 ≤ base)
    (hbase' : base ≤ 16) (hwidth : width ≤ 64) :
    ∃ s buffer' str, itoaBuffer buffer n base width = some (some (s, buffer')) ∧
      itoa n base width = some (some str) ∧ buffer'.length = 65 ∧
      buffer'.drop s = str ++ [0] ∧ NumberString base width n str := by
  have hfit : (Nat.digits base n).length ≤ 64 := by
    rw [Nat.digits_length_le_iff hbase]
    exact hn.trans_le (Nat.pow_le_pow_left hbase 64)
  obtain ⟨zeros, hlength, hloop⟩ := @itoaLoop_digits base width 64 n 0 [] hbase hbase' (by decide)
    hwidth hfit
  rw [List.append_nil] at hloop
  have hdrop : (buffer.set 64 0).drop 64 = [] ++ [0] := by
    rw [drop_set (by omega), List.drop_eq_nil_of_le hbuffer.le]
    rfl
  obtain ⟨s, buffer', hfill, hlength', hstring⟩ :=
    fillLoop_refines (by rw [List.length_set]; omega) hdrop hloop
  have hvalid : ¬ (base < 2 ∨ 16 < base) := by omega
  refine ⟨s, buffer', _, ?_, ?_, ?_, hstring, numberString_padded hbase hbase' hlength⟩
  · rw [itoaBuffer, if_neg hvalid, hfill]
    rfl
  · rw [itoa, if_neg hvalid, hloop]
    rfl
  · rw [hlength', List.length_set, hbuffer]

/-- A hexadecimal number with leading zeros. -/
theorem itoa_number_string_hex : ∃ s buffer' str,
    itoaBuffer (List.replicate 65 0) 0x1F4 16 8 = some (some (s, buffer')) ∧
      itoa 0x1F4 16 8 = some (some str) ∧ buffer'.length = 65 ∧ buffer'.drop s = str ++ [0] ∧
      NumberString 16 8 0x1F4 str :=
  itoa_number_string (List.length_replicate ..) (by decide) (by decide) (by decide) (by decide)

end CrosKernel.Util
