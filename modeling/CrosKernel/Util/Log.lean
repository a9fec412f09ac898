import Mathlib.Algebra.Order.Ring.Nat
import Mathlib.Data.List.Basic

/-!
# Formatted output on the kernel log

`itoa`, `vprintf` and `printf` of `src/util/log.cpp`, and `syscall_printk`, which passes a string of
the caller as the format. Characters are bytes, and a string in memory is a list of bytes with its
terminator. A function yields `none` where the code would read beyond the list, write outside
of the buffer of `itoa` or follow a null pointer. `printk_iff` says which strings are printed as
they are whatever lies in the argument registers and on the stack.
-/

namespace CrosKernel.Util

/-! ## Characters -/

/-- The character `%`. -/
def percent : UInt8 := '%'.toUInt8

/-- The character `\n`. -/
def newline : UInt8 := '\n'.toUInt8

/-- The character `\r`. -/
def carriageReturn : UInt8 := '\r'.toUInt8

/-- The values of `format_flags_t` that `vprintf` uses. -/
def FORMAT_PADDING : UInt8 := '0'.toUInt8
def FORMAT_SIGNED_DECIMAL : UInt8 := 'i'.toUInt8
def FORMAT_UNSIGNED_DECIMAL : UInt8 := 'u'.toUInt8
def FORMAT_UNSIGNED_OCTAL : UInt8 := 'o'.toUInt8
def FORMAT_UNSIGNED_HEX : UInt8 := 'x'.toUInt8
def FORMAT_STRING : UInt8 := 's'.toUInt8
def FORMAT_CHARACTER : UInt8 := 'c'.toUInt8
def FORMAT_PERCENT : UInt8 := percent

/-! ## `itoa` -/

/-- `digits` in `itoa`. -/
def digits : List UInt8 :=
  ['0', '1', '2', '3', '4', '5', '6', '7', '8', '9', 'a', 'b', 'c', 'd', 'e', 'f'].map Char.toUInt8

/-- The loop of `itoa`. The pointer `s` is an index into `buffer`, of which `tail` are the
characters from `s` on to the terminator. -/
def itoaLoop (base width : Nat) : Nat → Nat → Nat → List UInt8 → Option (List UInt8)
  | 0, _, _, _ => none
  | s + 1, n, count, tail => do
      let digit ← digits[n % base]?
      let n := n / base
      let count := count + 1
      if count < width ∨ n ≠ 0 then itoaLoop base width s n count (digit :: tail)
      else some (digit :: tail)

/-- `itoa`. The inner `none` is the null pointer. -/
def itoa (n base width : Nat) : Option (Option (List UInt8)) :=
  if base < 2 ∨ 16 < base then some none
  else do
    let s ← itoaLoop base width 64 n 0 []
    pure (some s)

/-! ## `vprintf` -/

/-- What the variable arguments of a call lead to: the words that `va_arg` finds one after the
other, and the strings at addresses. -/
structure Arguments where
  word : Nat → Nat
  string : Nat → Option (List UInt8)

/-- The switch of `vprintf` that skips a padding flag. -/
def skipPadding : List UInt8 → Option (List UInt8)
  | [] => none
  | c :: format => some (if c = FORMAT_PADDING then format else c :: format)

/-- The loop of `vprintf` that reads a width. -/
def widthLoop : List UInt8 → Nat → Option (Nat × List UInt8)
  | [], _ => none
  | c :: format, width =>
      if '0'.toUInt8 ≤ c ∧ c ≤ '9'.toUInt8 then
        widthLoop format ((width * 10 + (c.toNat - '0'.toNat)) % 2 ^ 64)
      else some (width, c :: format)

/-- Print a number. The width is passed as an `unsigned int`. -/
def printNumber (n base width : Nat) : Option (List UInt8) := do
  let s ← itoa n base (width % 2 ^ 32)
  s

/-- The switch of `vprintf` over the conversion: the characters printed, and the index of the next
argument. -/
def convert (args : Arguments) (c : UInt8) (width i : Nat) : Option (List UInt8 × Nat) :=
  if c = FORMAT_SIGNED_DECIMAL then do
    let n := args.word i % 2 ^ 32
    if 2 ^ 31 ≤ n then do
      let s ← printNumber (2 ^ 32 - n) 10 width
      pure ('-'.toUInt8 :: s, i + 1)
    else do
      let s ← printNumber n 10 width
      pure (s, i + 1)
  else if c = FORMAT_UNSIGNED_DECIMAL then do
    let s ← printNumber (args.word i) 10 width
    pure (s, i + 1)
  else if c = FORMAT_UNSIGNED_OCTAL then do
    let s ← printNumber (args.word i) 8 width
    pure (s, i + 1)
  else if c = FORMAT_UNSIGNED_HEX then do
    let s ← printNumber (args.word i) 16 width
    pure (s, i + 1)
  else if c = FORMAT_STRING then do
    let s ← args.string (args.word i)
    pure (s, i + 1)
  else if c = FORMAT_CHARACTER then some ([(args.word i).toUInt8], i + 1)
  else if c = FORMAT_PERCENT then some ([percent], i)
  else some ([], i)

/-- The loop of `vprintf` from the characters `format` on. A pass reads at least one of them. -/
def vprintfLoop (args : Arguments) : Nat → List UInt8 → Nat → Option (List UInt8)
  | 0, _, _ => none
  | fuel + 1, format, i => do
      let c ← format.head?
      if c = 0 then some []
      else if c = percent then do
        let format ← skipPadding format.tail
        let (width, format) ← widthLoop format 0
        let c ← format.head?
        let (s, i) ← convert args c width i
        let rest ← vprintfLoop args fuel format.tail i
        pure (s ++ rest)
      else do
        let rest ← vprintfLoop args fuel format.tail i
        pure (c :: (if c = newline then carriageReturn :: rest else rest))

/-- `vprintf`, where `stream` says whether the stream of the log is set. -/
def vprintf (stream : Bool) (format : List UInt8) (args : Arguments) : Option (List UInt8) :=
  if stream then vprintfLoop args (format.length + 1) format 0 else some []

/-- `printf`. -/
def printf (stream : Bool) (format : List UInt8) (args : Arguments) : Option (List UInt8) :=
  if stream then vprintf stream format args else some []

/-- `syscall_printk` of a string in the memory of the caller. Nothing is passed to `printf` but the
string, so the arguments are what happens to lie where `va_arg` looks for them. -/
def syscallPrintk (stream : Bool) (str : List UInt8) (args : Arguments) : Option (List UInt8) :=
  printf stream (str ++ [0]) args

/-! ## Strings without conversions -/

variable {args : Arguments} {fuel i : Nat} {str out : List UInt8}

/-- The characters of a string, with a carriage return behind each newline. -/
def echo (str : List UInt8) : List UInt8 :=
  str.flatMap fun c => if c = newline then [c, carriageReturn] else [c]

theorem echo_cons (c : UInt8) (str : List UInt8) :
    echo (c :: str) =
      c :: (if c = newline then carriageReturn :: echo str else echo str) := by
  by_cases hc : c = newline <;> simp [echo, hc]

/-- Without conversions the loop prints the string and stops at its terminator. -/
theorem vprintfLoop_plain (hzero : 0 ∉ str) (hpercent : percent ∉ str)
    (hfuel : str.length < fuel) : vprintfLoop args fuel (str ++ [0]) i = some (echo str) := by
  induction str generalizing fuel with
  | nil =>
      cases fuel with
      | zero => simp at hfuel
      | succ fuel => simp [vprintfLoop, echo]
  | cons c str ih =>
      cases fuel with
      | zero => simp at hfuel
      | succ fuel =>
          simp only [List.mem_cons, not_or] at hzero hpercent
          have hrest := ih hzero.2 hpercent.2 (by simpa using hfuel)
          simp [vprintfLoop, Ne.symm hzero.1, Ne.symm hpercent.1, hrest, echo_cons]

/-! ## Percent signs -/

theorem percent_not_mem_digits : percent ∉ digits := by decide

/-- A number has no percent sign. -/
theorem itoaLoop_percent {base width s n count : Nat} {tail : List UInt8}
    (h : itoaLoop base width s n count tail = some out) (htail : percent ∉ tail) :
    percent ∉ out := by
  induction s generalizing n count tail with
  | zero => cases h
  | succ s ih =>
      obtain ⟨digit, hdigit, h⟩ := Option.bind_eq_some_iff.1 h
      have hmore : percent ∉ digit :: tail := by
        rw [List.mem_cons, not_or]
        refine ⟨fun heq => ?_, htail⟩
        exact percent_not_mem_digits (heq ▸ List.mem_of_getElem? hdigit)
      dsimp only at h
      split at h
      · exact ih h hmore
      · obtain rfl := Option.some.inj h
        exact hmore

theorem printNumber_percent {n base width : Nat} (h : printNumber n base width = some out) :
    percent ∉ out := by
  obtain ⟨s, hs, rfl⟩ := Option.bind_eq_some_iff.1 h
  unfold itoa at hs
  split at hs
  · cases hs
  · obtain ⟨s, hloop, hs⟩ := Option.bind_eq_some_iff.1 hs
    cases hs
    exact itoaLoop_percent hloop (by simp)

/-- Arguments that are all zero, with no string at the null pointer. -/
def noArguments : Arguments := ⟨fun _ => 0, fun _ => none⟩

/-- Without arguments only the conversion of a percent sign prints one. -/
theorem convert_percent {c : UInt8} {width j : Nat}
    (h : convert noArguments c width i = some (out, j)) :
    percent ∉ out ∨ c = percent ∧ out = [percent] := by
  have hnumber : ∀ (first : List UInt8) {n base : Nat}, percent ∉ first →
      ((printNumber n base width).bind fun s => some (first ++ s, i + 1)) = some (out, j) →
      percent ∉ out := by
    intro first n base hfirst h
    obtain ⟨s, hs, h⟩ := Option.bind_eq_some_iff.1 h
    cases h
    rw [List.mem_append, not_or]
    exact ⟨hfirst, printNumber_percent hs⟩
  unfold convert at h
  split at h
  · refine .inl ?_
    dsimp only at h
    split at h
    · exact hnumber ['-'.toUInt8] (by decide) h
    · exact hnumber [] (by simp) h
  split at h
  · exact .inl (hnumber [] (by simp) h)
  split at h
  · exact .inl (hnumber [] (by simp) h)
  split at h
  · exact .inl (hnumber [] (by simp) h)
  split at h
  · cases h
  split at h
  · cases h
    exact .inl (show percent ∉ [Nat.toUInt8 0] by decide)
  split at h
  next hc =>
    cases h
    exact .inr ⟨hc, rfl⟩
  · cases h
    exact .inl (by simp)

theorem skipPadding_suffix {format format' : List UInt8} (h : skipPadding format = some format') :
    format' <:+ format := by
  cases format with
  | nil => cases h
  | cons c format =>
      obtain rfl := Option.some.inj h
      split
      · exact List.suffix_cons c format
      · exact List.suffix_rfl

theorem widthLoop_suffix {format format' : List UInt8} {width width' : Nat}
    (h : widthLoop format width = some (width', format')) : format' <:+ format := by
  induction format generalizing width with
  | nil => cases h
  | cons c format ih =>
      unfold widthLoop at h
      split at h
      · exact (ih h).trans (List.suffix_cons c format)
      · cases h
        exact List.suffix_rfl

/-- Without arguments a conversion takes two percent signs for each one that it prints. -/
theorem vprintfLoop_percent {format : List UInt8}
    (h : vprintfLoop noArguments fuel format i = some out) :
    2 * out.count percent ≤ format.count percent := by
  induction fuel generalizing format i out with
  | zero => cases h
  | succ fuel ih =>
      cases format with
      | nil => cases h
      | cons c format =>
          simp only [vprintfLoop, List.head?_cons, List.tail_cons, Option.bind_eq_bind,
            Option.bind_some] at h
          split at h
          · cases h
            simp
          split at h
          next hc =>
            subst hc
            simp only [Option.bind_eq_some_iff, Option.pure_def, Option.some.injEq,
              Prod.exists] at h
            obtain ⟨format₁, hskip, width, format₂, hwidth, c, hc, s, j, hconvert, rest, hrest,
              rfl⟩ := h
            have hle : format₂.count percent ≤ format.count percent :=
              ((widthLoop_suffix hwidth).trans (skipPadding_suffix hskip)).sublist.count_le _
            have hloop := ih hrest
            cases format₂ with
            | nil => cases hc
            | cons d format₂ =>
                obtain rfl := Option.some.inj hc
                rw [List.count_append, List.count_cons_self]
                rw [List.tail_cons] at hloop
                rcases convert_percent hconvert with hnone | ⟨rfl, rfl⟩
                · have hcons := List.count_le_count_cons (a := percent) (b := d) (l := format₂)
                  rw [List.count_eq_zero_of_not_mem hnone]
                  omega
                · rw [List.count_cons_self] at hle
                  rw [List.count_singleton_self]
                  omega
          next hc =>
            obtain ⟨rest, hrest, h⟩ := Option.bind_eq_some_iff.1 h
            obtain rfl := Option.some.inj h
            have hloop := ih hrest
            have hcr : carriageReturn ≠ percent := by decide
            rw [List.count_cons_of_ne hc, List.count_cons_of_ne hc]
            split
            · rwa [List.count_cons_of_ne hcr]
            · exact hloop

theorem count_echo (str : List UInt8) : (echo str).count percent = str.count percent := by
  have hcr : carriageReturn ≠ percent := by decide
  induction str with
  | nil => rfl
  | cons c str ih =>
      rw [echo_cons, List.count_cons, List.count_cons]
      split
      · rw [List.count_cons_of_ne hcr, ih]
      · rw [ih]

/-! ## `syscall_printk` -/

/-- The string is printed as it is, whatever the arguments are: nothing else is printed, nothing
behind the terminator is read and nothing is written outside of the buffer of `itoa`. -/
def PrintsAsIs (stream : Bool) (str : List UInt8) : Prop :=
  ∀ args, syscallPrintk stream str args = some (echo str)

/-- A string is printed as it is if and only if there is nothing to print, or the stream of the log
is set and the string has no percent sign. -/
theorem printk_iff (stream : Bool) (hzero : 0 ∉ str) :
    PrintsAsIs stream str ↔ str = [] ∨ stream = true ∧ percent ∉ str := by
  cases stream with
  | false =>
      constructor
      · intro h
        have hecho : [] = echo str := Option.some.inj (h noArguments)
        cases str with
        | nil => exact .inl rfl
        | cons c str =>
            rw [echo_cons] at hecho
            cases hecho
      · rintro (rfl | ⟨hstream, -⟩)
        · exact fun _ => rfl
        · cases hstream
  | true =>
      constructor
      · intro h
        refine .inr ⟨rfl, fun hmem => ?_⟩
        have hpos := List.count_pos_iff.2 hmem
        have hle := vprintfLoop_percent (h noArguments)
        have hzero : (0 : UInt8) ≠ percent := by decide
        rw [count_echo, List.count_append, List.count_singleton] at hle
        simp only [beq_iff_eq, hzero, if_false] at hle
        omega
      · intro h args
        have hpercent : percent ∉ str := h.elim (fun hnil => by simp [hnil]) And.right
        have hfuel : str.length < (str ++ [0]).length + 1 := by
          rw [List.length_append]
          omega
        exact vprintfLoop_plain hzero hpercent hfuel

theorem printk_iff_newline :
    (0 : UInt8) ∉ ['a'.toUInt8, newline] ∧
      (PrintsAsIs true ['a'.toUInt8, newline] ↔
        ['a'.toUInt8, newline] = [] ∨ true = true ∧ percent ∉ ['a'.toUInt8, newline]) :=
  ⟨by decide, printk_iff true (by decide)⟩

/-- Behind a percent sign at its end the string is read on. -/
theorem printk_percent_at_end :
    ¬ ∀ (str : List UInt8) (args : Arguments), 0 ∉ str →
      syscallPrintk true str args = some (echo str) := by
  intro h
  have hprint := h [percent] noArguments (by decide)
  have hnone : syscallPrintk true [percent] noArguments = none := by decide
  rw [hnone] at hprint
  cases hprint

end CrosKernel.Util
