import CrosKernel.Lib.LittleEndian
import CrosKernel.Sched.Process
import Mathlib.Data.List.Forall2

/-!
# The arguments of a new program

`Process::storeProgramArgs` and the functions of `Context` that push onto the stack of a process.
The strings are copied down the stack in reverse order, below them lie the array of pointers to the
arguments and the array of pointers to the environment: `storeProgramArgs_stores`. Only the second
array gets a null pointer of its own, and `args_terminated_iff` says when a null pointer follows the
first one all the same.
-/

namespace CrosKernel.Sched

open Lib

/-- The memory of a process, one byte for each address. -/
abbrev UserMemory := Nat → UInt8

/-- A string: its bytes before the terminator. -/
structure CString where
  bytes : List UInt8
  noNul : 0 ∉ bytes

/-- The copy loop of `strcpy`. -/
def copyBytes (memory : UserMemory) (dest : Nat) : List UInt8 → UserMemory
  | [] => Function.update memory dest 0
  | c :: src => copyBytes (Function.update memory dest c) (dest + 1) src

/-- `strcpy` to an address. -/
def strcpy (memory : UserMemory) (dest : Nat) (src : CString) : UserMemory :=
  if dest = 0 then memory else copyBytes memory dest src.bytes

/-- The context of a process and its memory. -/
structure ProgramState where
  ctx : Context
  memory : UserMemory

namespace ProgramState

/-- `Context::getStackPointer`. -/
def stackPointer (s : ProgramState) : UInt64 := s.ctx.stackPointer

/-- `Context::pushLong`. -/
def pushLong (s : ProgramState) (v : UInt64) : ProgramState :=
  let sp := s.stackPointer - 8
  { ctx := { s.ctx with stackPointer := sp }
    memory := setWord s.memory sp.toNat v.toNat 8 }

/-- `Context::pushString`. The lengths that an `int` counts are those of the strings that fit. -/
def pushString (s : ProgramState) (str : CString) : ProgramState :=
  let len := str.bytes.length + 1
  let len := len + 15
  let len := len - len % 16
  let sp := s.stackPointer - UInt64.ofNat len
  { ctx := { s.ctx with stackPointer := sp }
    memory := strcpy s.memory sp.toNat str }

/-- The loops of `storeProgramArgs` that push strings, the last one first, and fill an array with
the addresses of the copies. -/
def pushStrings (s : ProgramState) : List CString → ProgramState × List UInt64
  | [] => (s, [])
  | str :: strs =>
      let (s, array) := s.pushStrings strs
      let s := s.pushString str
      (s, s.stackPointer :: array)

/-- The loops of `storeProgramArgs` that push an array, the last word first. -/
def pushLongs (s : ProgramState) : List UInt64 → ProgramState
  | [] => s
  | v :: array => (s.pushLongs array).pushLong v

/-- The word that `storeProgramArgs` pushes before an array of odd length. -/
def pushPadding (s : ProgramState) (length : Nat) : ProgramState :=
  if length % 2 = 1 then s.pushLong 0 else s

/-- `Context::setProcessArgs`. -/
def setProcessArgs (s : ProgramState) (argc : Nat) (argv envp : UInt64) : ProgramState :=
  { s with ctx := s.ctx.setProcessArgs argc argv envp }

/-- `Process::storeProgramArgs`. -/
def storeProgramArgs (s : ProgramState) (argv envp : List CString) : ProgramState :=
  let argc := argv.length
  let envc := envp.length
  let (s, argArray) := s.pushStrings argv
  let (s, envArray) := s.pushStrings envp
  let envArray := envArray ++ [0]
  let s := s.pushPadding argc
  let s := s.pushLongs argArray
  let argPtr := s.stackPointer
  let s := s.pushPadding (envc + 1)
  let s := s.pushLongs envArray
  let envPtr := s.stackPointer
  s.setProcessArgs argc argPtr envPtr

/-! ## Pushing words -/

variable {s : ProgramState} {v : UInt64} {b : Nat}

theorem toNat_sub_ofNat {sp : UInt64} {n : Nat} (h : n ≤ sp.toNat) :
    (sp - UInt64.ofNat n).toNat = sp.toNat - n := by
  have hn : (UInt64.ofNat n).toNat = n :=
    UInt64.toNat_ofNat_of_lt' (lt_of_le_of_lt h sp.toNat_lt)
  rw [UInt64.toNat_sub_of_le _ _ (UInt64.le_iff_toNat_le.2 (hn.trans_le h)), hn]

theorem pushLong_stackPointer (hfit : 8 ≤ s.stackPointer.toNat) :
    (s.pushLong v).stackPointer.toNat = s.stackPointer.toNat - 8 :=
  toNat_sub_ofNat hfit

/-- A push changes the eight bytes below the stack pointer. -/
theorem pushLong_outside (h : b < (s.pushLong v).stackPointer.toNat ∨
    (s.pushLong v).stackPointer.toNat + 8 ≤ b) : (s.pushLong v).memory b = s.memory b :=
  setWord_outside h

theorem wordAt_pushLong (s : ProgramState) (v : UInt64) :
    wordAt (s.pushLong v).memory (s.pushLong v).stackPointer.toNat 8 = v.toNat :=
  (wordAt_setWord_same ..).trans (Nat.mod_eq_of_lt v.toNat_lt)

/-- The state `s'` has the stack pointer `size` bytes lower, and differs from `s` in memory only in
these bytes. -/
structure Pushed (s s' : ProgramState) (size : Nat) : Prop where
  stackPointer : s'.stackPointer.toNat + size = s.stackPointer.toNat
  outside : ∀ b, b < s'.stackPointer.toNat ∨ s.stackPointer.toNat ≤ b →
    s'.memory b = s.memory b

namespace Pushed

variable {s' s'' : ProgramState} {size size' : Nat}

theorem refl (s : ProgramState) : Pushed s s 0 := ⟨rfl, fun _ _ => rfl⟩

theorem trans (h : Pushed s s' size) (h' : Pushed s' s'' size') :
    Pushed s s'' (size + size') where
  stackPointer := by
    have hsp := h.stackPointer
    have hsp' := h'.stackPointer
    omega
  outside b hb := by
    have hsp := h.stackPointer
    have hsp' := h'.stackPointer
    rw [h'.outside b (by omega), h.outside b (by omega)]

/-- What lies above the stack pointer stays. -/
theorem wordAt_eq (h : Pushed s s' size) {address n : Nat}
    (hle : s.stackPointer.toNat ≤ address) :
    wordAt s'.memory address n = wordAt s.memory address n :=
  wordAt_congr fun i _ => h.outside _ (.inr (by omega))

end Pushed

theorem pushed_pushLong (hfit : 8 ≤ s.stackPointer.toNat) : Pushed s (s.pushLong v) 8 := by
  have hsp := pushLong_stackPointer (v := v) hfit
  exact ⟨by omega, fun b hb => pushLong_outside (by omega)⟩

theorem pushed_pushPadding {n : Nat} (hfit : 8 * (n % 2) ≤ s.stackPointer.toNat) :
    Pushed s (s.pushPadding n) (8 * (n % 2)) := by
  unfold pushPadding
  split
  next hodd =>
    rw [hodd] at hfit ⊢
    exact pushed_pushLong hfit
  next heven =>
    have hzero : n % 2 = 0 := by omega
    rw [hzero]
    exact .refl s

/-- An array of words is pushed. -/
theorem pushLongs_spec {array : List UInt64} (hfit : 8 * array.length ≤ s.stackPointer.toNat) :
    Pushed s (s.pushLongs array) (8 * array.length) ∧ ∀ i v, array[i]? = some v →
      wordAt (s.pushLongs array).memory ((s.pushLongs array).stackPointer.toNat + 8 * i) 8 =
        v.toNat := by
  induction array with
  | nil => exact ⟨.refl s, by simp⟩
  | cons v array ih =>
      rw [List.length_cons] at hfit
      obtain ⟨hpushed, hwords⟩ := ih (by omega)
      have hsp := hpushed.stackPointer
      have hlong : Pushed (s.pushLongs array) (s.pushLongs (v :: array)) 8 :=
        pushed_pushLong (v := v) (by omega)
      have hsp' := hlong.stackPointer
      refine ⟨hpushed.trans hlong, fun i w hi => ?_⟩
      cases i with
      | zero =>
          obtain rfl := Option.some.inj hi
          exact wordAt_pushLong ..
      | succ i =>
          have hshift : (s.pushLongs (v :: array)).stackPointer.toNat + 8 * (i + 1) =
              (s.pushLongs array).stackPointer.toNat + 8 * i := by omega
          rw [hshift, hlong.wordAt_eq (by omega)]
          exact hwords i w hi

/-! ## Pushing strings -/

/-- The bytes that `pushString` takes for a string. -/
def paddedSize (str : CString) : Nat := (str.bytes.length + 16) / 16 * 16

/-- The bytes that the strings of a list take. -/
def stringsSize (strs : List CString) : Nat := (strs.map paddedSize).sum

/-- The string and its terminator lie at an address. -/
def HoldsString (memory : UserMemory) (address : Nat) (str : CString) : Prop :=
  ∀ i c, (str.bytes ++ [0])[i]? = some c → memory (address + i) = c

theorem length_lt_paddedSize (str : CString) : str.bytes.length < paddedSize str := by
  unfold paddedSize
  omega

theorem HoldsString.congr {memory memory' : UserMemory} {address : Nat} {str : CString}
    (h : HoldsString memory address str)
    (hsame : ∀ i, i < str.bytes.length + 1 → memory' (address + i) = memory (address + i)) :
    HoldsString memory' address str := by
  intro i c hi
  obtain ⟨hlt, -⟩ := List.getElem?_eq_some_iff.1 hi
  rw [hsame i (by simpa using hlt)]
  exact h i c hi

theorem copyBytes_outside {memory : UserMemory} {dest : Nat} {bytes : List UInt8}
    (h : b < dest ∨ dest + bytes.length < b) : copyBytes memory dest bytes b = memory b := by
  induction bytes generalizing memory dest with
  | nil =>
      have hne : b ≠ dest := by
        rw [List.length_nil] at h
        omega
      exact Function.update_of_ne hne ..
  | cons c bytes ih =>
      rw [List.length_cons] at h
      have hne : b ≠ dest := by omega
      rw [copyBytes, ih (by omega), Function.update_of_ne hne]

theorem copyBytes_inside {memory : UserMemory} {dest i : Nat} {bytes : List UInt8} {c : UInt8}
    (h : (bytes ++ [0])[i]? = some c) : copyBytes memory dest bytes (dest + i) = c := by
  induction bytes generalizing memory dest i with
  | nil =>
      cases i with
      | zero =>
          obtain rfl := Option.some.inj h
          exact Function.update_self ..
      | succ i => simp at h
  | cons d bytes ih =>
      cases i with
      | zero =>
          obtain rfl := Option.some.inj h
          rw [Nat.add_zero, copyBytes, copyBytes_outside (.inl (Nat.lt_succ_self dest)),
            Function.update_self]
      | succ i =>
          rw [copyBytes, ← Nat.add_assoc, Nat.add_right_comm]
          exact ih h

theorem pushString_eq (s : ProgramState) (str : CString) :
    s.pushString str =
      { ctx := { s.ctx with stackPointer := s.stackPointer - UInt64.ofNat (paddedSize str) }
        memory := strcpy s.memory
          (s.stackPointer - UInt64.ofNat (paddedSize str)).toNat str } := by
  have hlen : str.bytes.length + 1 + 15 - (str.bytes.length + 1 + 15) % 16 = paddedSize str := by
    unfold paddedSize
    omega
  rw [← hlen]
  rfl

/-- A string is pushed. The bytes between its terminator and the old stack pointer stay as they
were. -/
theorem pushString_spec {str : CString} (hfit : paddedSize str < s.stackPointer.toNat) :
    Pushed s (s.pushString str) (paddedSize str) ∧
      HoldsString (s.pushString str).memory (s.pushString str).stackPointer.toNat str ∧
      ∀ i, str.bytes.length < i →
        (s.pushString str).memory ((s.pushString str).stackPointer.toNat + i) =
          s.memory ((s.pushString str).stackPointer.toNat + i) := by
  have hsp := toNat_sub_ofNat hfit.le
  have hlt := length_lt_paddedSize str
  rw [pushString_eq]
  generalize s.stackPointer - UInt64.ofNat (paddedSize str) = sp at hsp
  have hne : sp.toNat ≠ 0 := by omega
  simp only [strcpy, hne, if_false]
  refine ⟨⟨?_, fun b hb => copyBytes_outside ?_⟩, fun i c hi => copyBytes_inside hi, fun i hi => ?_⟩
  · show sp.toNat + paddedSize str = s.stackPointer.toNat
    omega
  · change b < sp.toNat ∨ _ at hb
    omega
  · exact copyBytes_outside (.inr (by show sp.toNat + _ < sp.toNat + i; omega))

/-- The copies of strings at addresses, with their sizes. -/
def copies (array : List Nat) (strs : List CString) : List (Nat × Nat) :=
  List.zipWith (fun p str => (p, str.bytes.length + 1)) array strs

/-- The blocks lie one after the other, each of them in the given range. -/
def Stacked (blocks : List (Nat × Nat)) (bottom top : Nat) : Prop :=
  blocks.Pairwise (fun b b' => b.1 + b.2 ≤ b'.1) ∧ ∀ b ∈ blocks, bottom ≤ b.1 ∧ b.1 + b.2 ≤ top

theorem Stacked.cons {blocks : List (Nat × Nat)} {bottom top address size : Nat}
    (h : Stacked blocks (address + size) top) (hbottom : bottom ≤ address)
    (htop : address + size ≤ top) : Stacked ((address, size) :: blocks) bottom top := by
  refine ⟨List.pairwise_cons.2 ⟨fun b hb => (h.2 b hb).1, h.1⟩, ?_⟩
  rintro b (_ | ⟨_, hb⟩)
  · exact ⟨hbottom, htop⟩
  · have hb' := h.2 b hb
    exact ⟨by omega, hb'.2⟩

theorem Stacked.mono {blocks : List (Nat × Nat)} {bottom bottom' top : Nat}
    (h : Stacked blocks bottom top) (hle : bottom' ≤ bottom) : Stacked blocks bottom' top :=
  ⟨h.1, fun b hb => ⟨hle.trans (h.2 b hb).1, (h.2 b hb).2⟩⟩

/-- What the loops that push strings do. -/
structure StringsPushed (s : ProgramState) (strs : List CString) (s' : ProgramState)
    (array : List UInt64) : Prop where
  pushed : Pushed s s' (stringsSize strs)
  copied : List.Forall₂ (fun p str => s'.stackPointer.toNat ≤ p.toNat ∧
    HoldsString s'.memory p.toNat str) array strs
  stacked : Stacked (copies (array.map UInt64.toNat) strs) s'.stackPointer.toNat
    s.stackPointer.toNat

theorem stringsSize_cons (str : CString) (strs : List CString) :
    stringsSize (str :: strs) = paddedSize str + stringsSize strs := by
  simp [stringsSize]

theorem pushStrings_spec {strs : List CString} (hfit : stringsSize strs < s.stackPointer.toNat) :
    StringsPushed s strs (s.pushStrings strs).1 (s.pushStrings strs).2 := by
  induction strs with
  | nil => exact ⟨.refl s, .nil, .nil, by simp [copies, pushStrings]⟩
  | cons str strs ih =>
      rw [stringsSize_cons] at hfit
      obtain ⟨hpushed, hcopied, hstacked⟩ := ih (by omega)
      have hsp := hpushed.stackPointer
      obtain ⟨hstr, hholds, -⟩ := @pushString_spec (s.pushStrings strs).1 str (by omega)
      have hsp' := hstr.stackPointer
      have hlt := length_lt_paddedSize str
      refine ⟨?_, .cons ⟨le_rfl, hholds⟩ ?_, ?_⟩
      · rw [stringsSize_cons, Nat.add_comm]
        exact hpushed.trans hstr
      · -- the older copies lie above the new one
        refine hcopied.imp fun p str' hstr' => ⟨?_, hstr'.2.congr fun i _ => ?_⟩
        · exact le_trans (by show (pushString _ str).stackPointer.toNat ≤ _; omega) hstr'.1
        · exact hstr.outside _ (.inr (by omega))
      · refine Stacked.cons (hstacked.mono ?_) le_rfl ?_
        · show (pushString _ str).stackPointer.toNat + _ ≤ _
          omega
        · show (pushString _ str).stackPointer.toNat + _ ≤ _
          omega

/-- Two loops that push strings do what one does. -/
theorem pushStrings_append (s : ProgramState) (strs strs' : List CString) :
    s.pushStrings (strs ++ strs') =
      (((s.pushStrings strs').1.pushStrings strs).1,
        ((s.pushStrings strs').1.pushStrings strs).2 ++ (s.pushStrings strs').2) := by
  induction strs with
  | nil => rfl
  | cons str strs ih => simp only [List.cons_append, pushStrings, ih]

/-- The first bytes above the stack pointer are those of the string that was pushed last, and then
what lay there before. -/
theorem pushStrings_lowest {strs : List CString} {str : CString} {i : Nat}
    (hfit : stringsSize (str :: strs) < s.stackPointer.toNat) (hi : str.bytes.length < i)
    (hlt : i < paddedSize str) :
    (s.pushStrings (str :: strs)).1.memory
        ((s.pushStrings (str :: strs)).1.stackPointer.toNat + i) =
      s.memory ((s.pushStrings (str :: strs)).1.stackPointer.toNat + i) := by
  rw [stringsSize_cons] at hfit
  have hpushed := (@pushStrings_spec s strs (by omega)).pushed
  have hsp := hpushed.stackPointer
  obtain ⟨hstr, -, hrest⟩ := @pushString_spec (s.pushStrings strs).1 str (by omega)
  have hsp' := hstr.stackPointer
  refine (hrest i hi).trans (hpushed.outside _ (.inl ?_))
  omega

/-! ## The stages of `storeProgramArgs` -/

/-- The bytes that `storeProgramArgs` takes from the stack. -/
def frameSize (argv envp : List CString) : Nat :=
  stringsSize (envp ++ argv) + (8 * (argv.length % 2) + 8 * argv.length) +
    (8 * ((envp.length + 1) % 2) + 8 * (envp.length + 1))

/-- The strings and the arrays fit on the stack, whose size an `int` can count. -/
def Fits (s : ProgramState) (argv envp : List CString) : Prop :=
  frameSize argv envp ≤ s.stackPointer.toNat ∧ frameSize argv envp < 2 ^ 31

/-- The states after the strings (`u`), the array of the arguments (`w`) and that of the environment
(`t`) are pushed. -/
structure Stages (s : ProgramState) (argv envp : List CString) (u w t : ProgramState)
    (argArray envArray : List UInt64) : Prop where
  strings : StringsPushed s (envp ++ argv) u (envArray ++ argArray)
  args : Pushed u w (8 * (argv.length % 2) + 8 * argv.length)
  argWords : ∀ i v, argArray[i]? = some v →
    wordAt w.memory (w.stackPointer.toNat + 8 * i) 8 = v.toNat
  argEnd : wordAt w.memory (w.stackPointer.toNat + 8 * argv.length) 8 =
    if argv.length % 2 = 1 then 0 else wordAt u.memory u.stackPointer.toNat 8
  envs : Pushed w t (8 * ((envp.length + 1) % 2) + 8 * (envp.length + 1))
  envWords : ∀ i v, (envArray ++ [0])[i]? = some v →
    wordAt t.memory (t.stackPointer.toNat + 8 * i) 8 = v.toNat
  argLength : argArray.length = argv.length
  envLength : envArray.length = envp.length

/-- An array is pushed after the word that makes its length even. -/
theorem pushArray_spec {array : List UInt64}
    (hfit : 8 * (array.length % 2) + 8 * array.length ≤ s.stackPointer.toNat) :
    Pushed s ((s.pushPadding array.length).pushLongs array)
        (8 * (array.length % 2) + 8 * array.length) ∧
      (∀ i v, array[i]? = some v →
        wordAt ((s.pushPadding array.length).pushLongs array).memory
          (((s.pushPadding array.length).pushLongs array).stackPointer.toNat + 8 * i) 8 =
            v.toNat) ∧
      wordAt ((s.pushPadding array.length).pushLongs array).memory
          (((s.pushPadding array.length).pushLongs array).stackPointer.toNat +
            8 * array.length) 8 =
        if array.length % 2 = 1 then 0 else wordAt s.memory s.stackPointer.toNat 8 := by
  have hpadding := pushed_pushPadding (s := s) (n := array.length) (by omega)
  have hsp := hpadding.stackPointer
  obtain ⟨hpushed, hwords⟩ := @pushLongs_spec (s.pushPadding array.length) array (by omega)
  have hsp' := hpushed.stackPointer
  refine ⟨hpadding.trans hpushed, hwords, ?_⟩
  rw [hsp', hpushed.wordAt_eq le_rfl, pushPadding]
  split
  · exact wordAt_pushLong ..
  · rfl

theorem exists_stages {argv envp : List CString} (hfits : Fits s argv envp) :
    ∃ u w t argArray envArray, Stages s argv envp u w t argArray envArray ∧
      u = (s.pushStrings (envp ++ argv)).1 ∧ s.storeProgramArgs argv envp =
        t.setProcessArgs argv.length w.stackPointer t.stackPointer := by
  obtain ⟨hfit, -⟩ := hfits
  unfold frameSize at hfit
  have hstrings := @pushStrings_spec s (envp ++ argv) (by omega)
  have hargs := @pushStrings_spec s argv (by
    simp only [stringsSize, List.map_append, List.sum_append] at hfit ⊢
    omega)
  have hargLength := hargs.copied.length_eq
  have hlength := hstrings.copied.length_eq
  have hsp := hstrings.pushed.stackPointer
  rw [pushStrings_append] at hstrings hsp hlength ⊢
  dsimp only at hstrings hsp hlength
  rw [List.length_append, List.length_append] at hlength
  obtain ⟨hargArray, hargWords, hargEnd⟩ := @pushArray_spec
    ((s.pushStrings argv).1.pushStrings envp).1 (s.pushStrings argv).2
    (by rw [hargLength]; omega)
  have hsp' := hargArray.stackPointer
  rw [hargLength] at hargArray hargWords hargEnd hsp'
  have henvLength : (((s.pushStrings argv).1.pushStrings envp).2 ++ [0]).length =
      envp.length + 1 := by
    rw [List.length_append, List.length_singleton]
    omega
  obtain ⟨henvArray, henvWords, -⟩ := @pushArray_spec
    ((((s.pushStrings argv).1.pushStrings envp).1.pushPadding argv.length).pushLongs
      (s.pushStrings argv).2)
    (((s.pushStrings argv).1.pushStrings envp).2 ++ [0])
    (by rw [henvLength]; omega)
  rw [henvLength] at henvArray henvWords
  exact ⟨_, _, _, _, _, ⟨hstrings, hargArray, hargWords, hargEnd, henvArray, henvWords,
    hargLength, by omega⟩, rfl, rfl⟩

/-! ## What the new program finds -/

/-- The pointer at `x1 + 8 * i`. -/
def argAt (s : ProgramState) (i : Nat) : Nat :=
  wordAt s.memory (s.ctx.argv.toNat + 8 * i) 8

/-- The pointer at `x2 + 8 * i`. -/
def envAt (s : ProgramState) (i : Nat) : Nat :=
  wordAt s.memory (s.ctx.envp.toNat + 8 * i) 8

/-- The two arrays and the copies of the strings, with their sizes, from low to high addresses. -/
def blocks (s : ProgramState) (argv envp : List CString) : List (Nat × Nat) :=
  (s.ctx.envp.toNat, 8 * (envp.length + 1)) :: (s.ctx.argv.toNat, 8 * argv.length) ::
    (copies ((List.range envp.length).map s.envAt) envp ++
      copies ((List.range argv.length).map s.argAt) argv)

/-- The arguments are on the stack as the new program expects them. -/
structure StoresArgs (s s' : ProgramState) (argv envp : List CString) : Prop where
  count : s'.ctx.argc.toNat = argv.length
  args : ∀ i str, argv[i]? = some str → HoldsString s'.memory (s'.argAt i) str
  envs : ∀ i str, envp[i]? = some str → HoldsString s'.memory (s'.envAt i) str
  envNull : s'.envAt envp.length = 0
  stacked : Stacked (blocks s' argv envp) s'.stackPointer.toNat s.stackPointer.toNat
  aligned : 16 ∣ s'.stackPointer.toNat

section SetProcessArgs

variable (s : ProgramState) (argc i : Nat) (argv envp : UInt64)

theorem setProcessArgs_argc :
    (s.setProcessArgs argc argv envp).ctx.argc = UInt64.ofNat argc := rfl

@[simp]
theorem setProcessArgs_argv : (s.setProcessArgs argc argv envp).ctx.argv = argv := rfl

@[simp]
theorem setProcessArgs_envp : (s.setProcessArgs argc argv envp).ctx.envp = envp := rfl

@[simp]
theorem setProcessArgs_stackPointer :
    (s.setProcessArgs argc argv envp).stackPointer = s.stackPointer := rfl

@[simp]
theorem setProcessArgs_memory : (s.setProcessArgs argc argv envp).memory = s.memory := rfl

end SetProcessArgs

namespace Stages

variable {argv envp : List CString} {u w t : ProgramState} {argArray envArray : List UInt64}

theorem argAt_eq (h : Stages s argv envp u w t argArray envArray) {n : Nat} {p : UInt64}
    {envPtr : UInt64} {i : Nat} (hi : argArray[i]? = some p) :
    (t.setProcessArgs n w.stackPointer envPtr).argAt i = p.toNat :=
  (h.envs.wordAt_eq (Nat.le_add_right ..)).trans (h.argWords i p hi)

theorem envAt_eq (h : Stages s argv envp u w t argArray envArray) {n : Nat} {p : UInt64}
    {argPtr : UInt64} {i : Nat} (hi : (envArray ++ [0])[i]? = some p) :
    (t.setProcessArgs n argPtr t.stackPointer).envAt i = p.toNat :=
  h.envWords i p hi

/-- The word behind the pointers to the arguments is the one that fills up an odd array, and
otherwise the lowest word of the strings. -/
theorem argAt_length (h : Stages s argv envp u w t argArray envArray) {n : Nat} {envPtr : UInt64} :
    (t.setProcessArgs n w.stackPointer envPtr).argAt argv.length =
      if argv.length % 2 = 1 then 0 else wordAt u.memory u.stackPointer.toNat 8 :=
  (h.envs.wordAt_eq (Nat.le_add_right ..)).trans h.argEnd

/-- The pointers to the arguments, as a list. -/
theorem map_argAt (h : Stages s argv envp u w t argArray envArray) {n : Nat} {envPtr : UInt64} :
    (List.range argv.length).map (t.setProcessArgs n w.stackPointer envPtr).argAt =
      argArray.map UInt64.toNat := by
  refine List.ext_getElem (by simp [h.argLength]) fun i hi hi' => ?_
  simp only [List.getElem_map, List.getElem_range]
  exact h.argAt_eq (List.getElem?_eq_getElem (by simpa using hi'))

/-- The pointers to the environment, as a list. -/
theorem map_envAt (h : Stages s argv envp u w t argArray envArray) {n : Nat} {argPtr : UInt64} :
    (List.range envp.length).map (t.setProcessArgs n argPtr t.stackPointer).envAt =
      envArray.map UInt64.toNat := by
  refine List.ext_getElem (by simp [h.envLength]) fun i hi hi' => ?_
  simp only [List.getElem_map, List.getElem_range]
  refine h.envAt_eq ?_
  rw [List.getElem?_append_left (by simpa using hi')]
  exact List.getElem?_eq_getElem (by simpa using hi')

/-- The copies of the strings are still there at the end. -/
theorem copied (h : Stages s argv envp u w t argArray envArray) :
    List.Forall₂ (fun p str => HoldsString t.memory p.toNat str) envArray envp ∧
      List.Forall₂ (fun p str => HoldsString t.memory p.toNat str) argArray argv := by
  have hpushed := h.args.trans h.envs
  have hcopied : List.Forall₂ (fun p str => HoldsString t.memory p.toNat str)
      (envArray ++ argArray) (envp ++ argv) :=
    h.strings.copied.imp fun p str hstr =>
      hstr.2.congr fun i _ => hpushed.outside _ (.inr (by have hle := hstr.1; omega))
  have htake := List.forall₂_take envp.length hcopied
  have hdrop := List.forall₂_drop envp.length hcopied
  rw [← h.envLength, List.take_left, h.envLength, List.take_left] at htake
  rw [← h.envLength, List.drop_left, h.envLength, List.drop_left] at hdrop
  exact ⟨htake, hdrop⟩

theorem stacked (h : Stages s argv envp u w t argArray envArray) {n : Nat} :
    Stacked (blocks (t.setProcessArgs n w.stackPointer t.stackPointer) argv envp)
      t.stackPointer.toNat s.stackPointer.toNat := by
  have hu := h.strings.pushed.stackPointer
  have hw := h.args.stackPointer
  have ht := h.envs.stackPointer
  have hcopies : copies (envArray.map UInt64.toNat) envp ++
      copies (argArray.map UInt64.toNat) argv =
      copies ((envArray ++ argArray).map UInt64.toNat) (envp ++ argv) := by
    rw [List.map_append, copies, copies, copies,
      List.zipWith_append (by rw [List.length_map, h.envLength])]
  unfold blocks
  rw [h.map_argAt, h.map_envAt, hcopies, setProcessArgs_argv, setProcessArgs_envp]
  exact .cons (.cons (h.strings.stacked.mono (by omega)) (by omega) (by omega)) le_rfl (by omega)

end Stages

theorem sixteen_dvd_stringsSize (strs : List CString) : 16 ∣ stringsSize strs := by
  induction strs with
  | nil => exact Nat.dvd_zero 16
  | cons str strs ih =>
      rw [stringsSize_cons]
      exact Nat.dvd_add (Nat.dvd_mul_left ..) ih

/-- `storeProgramArgs` leaves the number of the arguments, the copies of all strings and the two
arrays for the new program, one below the other on the stack. -/
theorem storeProgramArgs_stores {argv envp : List CString} (hfits : Fits s argv envp)
    (haligned : 16 ∣ s.stackPointer.toNat) :
    StoresArgs s (s.storeProgramArgs argv envp) argv envp := by
  obtain ⟨u, w, t, argArray, envArray, h, -, heq⟩ := exists_stages hfits
  obtain ⟨henvs, hargs⟩ := h.copied
  obtain ⟨hfit, hint⟩ := hfits
  unfold frameSize at hfit hint
  rw [heq]
  refine ⟨?_, fun i str hi => ?_, fun i str hi => ?_, ?_, h.stacked, ?_⟩
  · rw [setProcessArgs_argc]
    exact UInt64.toNat_ofNat_of_lt' (by show argv.length < 2 ^ 64; omega)
  · obtain ⟨hlt, rfl⟩ := List.getElem?_eq_some_iff.1 hi
    have hlt' : i < argArray.length := by rw [h.argLength]; exact hlt
    rw [h.argAt_eq (List.getElem?_eq_getElem hlt')]
    exact hargs.get hlt' hlt
  · obtain ⟨hlt, rfl⟩ := List.getElem?_eq_some_iff.1 hi
    have hlt' : i < envArray.length := by rw [h.envLength]; exact hlt
    rw [h.envAt_eq (by
      rw [List.getElem?_append_left hlt']
      exact List.getElem?_eq_getElem hlt')]
    exact henvs.get hlt' hlt
  · refine h.envAt_eq (p := 0) ?_
    rw [← h.envLength, List.getElem?_concat_length]
  · have hu := h.strings.pushed.stackPointer
    have hw := h.args.stackPointer
    have ht := h.envs.stackPointer
    have hdvd := sixteen_dvd_stringsSize (envp ++ argv)
    rw [setProcessArgs_stackPointer]
    omega

/-- A process with a stack of 4096 bytes that were not written to. -/
private def freshStack : ProgramState := ⟨Context.new 0 4096 0, fun _ => 0⟩

private def ls : CString := ⟨['l'.toUInt8, 's'.toUInt8], by decide⟩

private theorem freshStack_fits : Fits freshStack [ls, ls] [ls] := by
  constructor <;> decide

theorem storeProgramArgs_stores_three :
    StoresArgs freshStack (freshStack.storeProgramArgs [ls, ls] [ls]) [ls, ls] [ls] :=
  storeProgramArgs_stores freshStack_fits (by decide)

/-! ## The end of the arguments -/

/-- What the stack has to hold for a null pointer behind the pointers to the arguments: their number
is odd, or the string pushed last is empty and the seven bytes behind the place of its terminator
are zero, or there is no string and the word at the stack pointer is zero. -/
def Terminates (s : ProgramState) (argv envp : List CString) : Prop :=
  argv.length % 2 = 1 ∨
    match envp ++ argv with
    | [] => ∀ i, i < 8 → s.memory (s.stackPointer.toNat + i) = 0
    | str :: strs => str.bytes = [] ∧ ∀ i, 1 ≤ i → i < 8 →
        s.memory (s.stackPointer.toNat - stringsSize (str :: strs) + i) = 0

/-- The lowest word of the strings. -/
theorem wordAt_pushStrings {strs : List CString} {str : CString}
    (hfit : stringsSize (str :: strs) < s.stackPointer.toNat) :
    wordAt (s.pushStrings (str :: strs)).1.memory
        (s.pushStrings (str :: strs)).1.stackPointer.toNat 8 = 0 ↔
      str.bytes = [] ∧ ∀ i, 1 ≤ i → i < 8 →
        s.memory (s.stackPointer.toNat - stringsSize (str :: strs) + i) = 0 := by
  have hpushed := pushStrings_spec hfit
  have hsp := hpushed.pushed.stackPointer
  have hbottom : s.stackPointer.toNat - stringsSize (str :: strs) =
      (s.pushStrings (str :: strs)).1.stackPointer.toNat := by omega
  have hholds : HoldsString (s.pushStrings (str :: strs)).1.memory
      (s.pushStrings (str :: strs)).1.stackPointer.toNat str := by
    have hcopied := hpushed.copied
    rw [pushStrings, List.forall₂_cons] at hcopied
    exact hcopied.1.2
  have hlowest : ∀ i, str.bytes.length < i → i < 8 →
      (s.pushStrings (str :: strs)).1.memory
          ((s.pushStrings (str :: strs)).1.stackPointer.toNat + i) =
        s.memory ((s.pushStrings (str :: strs)).1.stackPointer.toNat + i) := by
    intro i hi hlt
    refine pushStrings_lowest hfit hi ?_
    unfold paddedSize
    omega
  rw [wordAt_eq_zero_iff, hbottom]
  constructor
  · intro hzero
    -- the first byte of a string that is not empty is not zero
    have hnil : str.bytes = [] := by
      by_contra hne
      obtain ⟨c, bytes, hbytes⟩ := List.exists_cons_of_ne_nil hne
      have hfirst := hholds 0 c (by rw [hbytes]; rfl)
      rw [hzero 0 (by omega)] at hfirst
      exact str.noNul (by simp [hbytes, hfirst])
    refine ⟨hnil, fun i hi hlt => ?_⟩
    rw [← hlowest i (by rw [hnil]; exact hi) hlt]
    exact hzero i hlt
  · rintro ⟨hnil, hrest⟩ i hi
    cases i with
    | zero => exact hholds 0 0 (by rw [hnil]; rfl)
    | succ i =>
        rw [hlowest (i + 1) (by rw [hnil]; exact Nat.succ_pos i) hi]
        exact hrest (i + 1) (by omega) hi

/-- The pointers to the arguments are followed by a null pointer if and only if the word that
happens to lie there is one. -/
theorem args_terminated_iff {argv envp : List CString} (hfits : Fits s argv envp) :
    (s.storeProgramArgs argv envp).argAt argv.length = 0 ↔ Terminates s argv envp := by
  obtain ⟨u, w, t, argArray, envArray, h, hu, heq⟩ := exists_stages hfits
  rw [heq, h.argAt_length, Terminates]
  split
  next hodd => exact iff_of_true rfl (.inl hodd)
  next heven =>
    rw [or_iff_right heven, hu]
    have hfit := hfits.1
    unfold frameSize at hfit
    cases hstrs : envp ++ argv with
    | nil => exact wordAt_eq_zero_iff
    | cons str strs =>
        rw [hstrs] at hfit
        exact wordAt_pushStrings (by omega)

theorem args_terminated_iff_three :
    (freshStack.storeProgramArgs [ls, ls] [ls]).argAt 2 = 0 ↔ Terminates freshStack [ls, ls] [ls] :=
  args_terminated_iff freshStack_fits

set_option maxRecDepth 4000 in
/-- Behind two pointers to arguments lie the bytes of the first argument. -/
theorem args_not_terminated_two :
    ¬ ∀ (s : ProgramState) (argv envp : List CString), Fits s argv envp →
      (s.storeProgramArgs argv envp).argAt argv.length = 0 := by
  intro h
  have hword : (freshStack.storeProgramArgs [ls, ls] []).argAt 2 = 29548 := by decide
  have hzero := h freshStack [ls, ls] [] (by constructor <;> decide)
  exact absurd (hword.symm.trans hzero) (by decide)

end ProgramState

end CrosKernel.Sched
