import CrosKernel.Fs.Fat32
import CrosKernel.Lib.Run
import CrosKernel.Types.Status
import Mathlib.Data.Nat.Basic

/-!
# Reading an open file

`FileContextFAT32::read` of `src/fs/fat32/filecontextfat32.cpp`. The loop copies one piece of a
sector at a time, but bounds a piece by the whole request and not by what is left of it, so a
request whose last piece is short is overrun. `read_delivers_iff` says for which positions and
lengths a call delivers the bytes asked for, and that such calls deliver a file in order.
-/

namespace CrosKernel.Fs

open Lib

/-- The members of `FileContextFAT32` that `read` uses. -/
structure FileContextFAT32 where
  path : Str
  sectorBuffer : Option Buffer
  pos : Nat
  lastSector : Int

/-- The `size_t` that represents an `int`. -/
def toSize (n : Int) : Nat := (n % 2 ^ 64).toNat

theorem toUnsigned_natCast {n : Nat} (h : n < 2 ^ 32) : toUnsigned n = n := by
  unfold toUnsigned
  omega

theorem toSize_natCast {n : Nat} (h : n < 2 ^ 64) : toSize n = n := by
  unfold toSize
  omega

theorem toSigned_natCast {n : Nat} (h : n < 2 ^ 31) : toSigned n = n := by
  unfold toSigned
  omega

/-- `memcpy(memory + index, source + offset, c)`. It fails outside the source. -/
def memcpy (memory : Nat → UInt8) (index : Nat) (source : Option Buffer) (offset c : Nat) :
    Option (Nat → UInt8) := do
  let b ← source
  if offset + c ≤ b.size then
    some fun i => if index ≤ i ∧ i < index + c then b.data (offset + (i - index)) else memory i
  else none

namespace FileContextFAT32

/-- `FileContextFAT32::FileContextFAT32`. -/
def new (path : Str) : FileContextFAT32 where
  path := path
  sectorBuffer := none
  pos := 0
  lastSector := -1

/-- Bring a sector into `sectorBuffer`. The flag is false when the volume reports an error. -/
def fetchSector (fs : FAT32) (f : FileContextFAT32) (sector : Nat) :
    Option (FileContextFAT32 × Bool) :=
  if toSigned sector ≠ f.lastSector then do
    let b ← fs.readFile f.path sector
    some ({ f with sectorBuffer := b }, b.isSome)
  else some (f, true)

/-- The loop of `read`, with the bytes at `buffer` in `memory`. -/
def readLoop (fs : FAT32) (n : Int) : Nat → FileContextFAT32 → (Nat → UInt8) → Nat →
    Option (FileContextFAT32 × (Nat → UInt8) × Nat)
  | 0, _, _, _ => none
  | fuel + 1, f, memory, count =>
      if count < toUnsigned n then do
        let sector := f.pos / fs.getSectorSize
        let offset := f.pos % fs.getSectorSize
        let bytesLeft : Int := fs.getSectorSize - offset
        let (f, ok) ← fetchSector fs f sector
        if !ok then some (f, memory, count)
        else
          let c := if n > bytesLeft then bytesLeft else n
          let memory ← memcpy memory count f.sectorBuffer offset (toSize c)
          let f := { f with pos := (f.pos + toUnsigned c) % 2 ^ 32 }
          readLoop fs n fuel f memory ((count + toUnsigned c) % 2 ^ 32)
      else some (f, memory, count)

/-- `FileContextFAT32::read`: the context and the bytes at `buffer` afterwards, and the result. -/
def read (fs : FAT32) (f : FileContextFAT32) (memory : Nat → UInt8) (n : Int) :
    Option (FileContextFAT32 × (Nat → UInt8) × Int) := do
  match ← fs.fileSize f.path with
  | none => some (f, memory, Error.EIO.code)
  | some filesize =>
      if f.pos ≥ toUnsigned filesize then some (f, memory, Error.EEOF.code)
      else
        let n := if (f.pos + toUnsigned n) % 2 ^ 32 > toUnsigned filesize then
            toSigned (toUnsigned filesize + 2 ^ 32 - f.pos)
          else n
        let (f, memory, count) ← readLoop fs n (toUnsigned n + 1) f memory 0
        some (f, memory, toSigned count)

/-! ## The intended effect -/

/-- The path names a file of the volume that has the contents `file` and can be read. -/
structure HoldsFile (fs : FAT32) (path : Str) (file : List UInt8) : Prop where
  sectorSize_pos : 0 < fs.bytesPerSector
  sectorSize_lt : fs.bytesPerSector < 2 ^ 16
  size_eq : fs.fileSize path = some (some (file.length : Int))
  size_lt : file.length < 2 ^ 31
  sector_eq : ∀ i, i < file.length → ∃ b, fs.readFile path (i / fs.bytesPerSector) = some (some b) ∧
    b.size = fs.bytesPerSector ∧ file[i]? = some (b.data (i % fs.bytesPerSector))

/-- A context that the constructor made and `read` has left: `lastSector` keeps its first value. -/
structure Ready (f : FileContextFAT32) (path : Str) : Prop where
  path_eq : f.path = path
  lastSector_eq : f.lastSector = -1
  pos_lt : f.pos < 2 ^ 32

/-- The number of bytes that a request for `n` bytes at `pos` should deliver. -/
def available (file : List UInt8) (pos n : Nat) : Nat := min n (file.length - pos)

/-- The intended effect of a request for `n` bytes: past the end the context and the memory stay
as they are; before it, the available bytes are copied and the position moves behind them. -/
structure Delivers (file : List UInt8) (f : FileContextFAT32) (memory : Nat → UInt8) (n : Nat)
    (f' : FileContextFAT32) (memory' : Nat → UInt8) (result : Int) : Prop where
  at_end : file.length ≤ f.pos → result = Error.EEOF.code ∧ f' = f ∧ memory' = memory
  result_eq : f.pos < file.length → result = available file f.pos n
  pos_eq : f.pos < file.length → f'.pos = f.pos + available file f.pos n
  bytes_eq : f.pos < file.length →
    ∀ i, i < available file f.pos n → file[f.pos + i]? = some (memory' i)
  outside : f.pos < file.length → ∀ i, available file f.pos n ≤ i → memory' i = memory i

/-- A request of `k` bytes at `pos` whose pieces end where the request ends: it stays in one
sector, or it ends at the end of a sector. -/
def InStep (sectorSize pos k : Nat) : Prop :=
  k ≤ sectorSize - pos % sectorSize ∨ (pos + k) % sectorSize = 0

/-- A request that the loop does not overrun. -/
def Exact (fs : FAT32) (file : List UInt8) (pos n : Nat) : Prop :=
  file.length ≤ pos ∨ InStep fs.bytesPerSector pos (available file pos n)

/-! ## Sizes of pieces -/

section Pieces

variable {sectorSize pos k count : Nat}

/-- The size of the piece that the loop copies when it has copied `count` bytes. -/
def pieceSize (sectorSize pos k count : Nat) : Nat :=
  min k (sectorSize - (pos + count) % sectorSize)

/-- The counts that the loop can reach: none, up to the end of a sector, or the whole request. -/
def Reached (sectorSize pos k count : Nat) : Prop :=
  count = 0 ∨ (pos + count) % sectorSize = 0 ∨ k ≤ count

theorem pieceSize_pos (pos count : Nat) (hsize : 0 < sectorSize) (hk : 0 < k) :
    0 < pieceSize sectorSize pos k count := by
  have hlt := Nat.mod_lt (pos + count) hsize
  unfold pieceSize
  omega

theorem mod_add_pieceSize_le (pos k count : Nat) (hsize : 0 < sectorSize) :
    (pos + count) % sectorSize + pieceSize sectorSize pos k count ≤ sectorSize := by
  have hlt := Nat.mod_lt (pos + count) hsize
  unfold pieceSize
  omega

/-- The end of a sector. -/
theorem add_sub_mod (hsize : 0 < sectorSize) :
    (pos + (sectorSize - pos % sectorSize)) % sectorSize = 0 := by
  have hlt := Nat.mod_lt pos hsize
  have hdiv := Nat.mod_add_div pos sectorSize
  have hend : pos + (sectorSize - pos % sectorSize) =
      sectorSize * (pos / sectorSize + 1) := by
    rw [Nat.mul_add, Nat.mul_one]
    omega
  rw [hend, Nat.mul_mod_right]

/-- After a piece the count is one that the loop can reach. -/
theorem reached_next (hsize : 0 < sectorSize) :
    Reached sectorSize pos k (count + pieceSize sectorSize pos k count) := by
  rcases Nat.le_total k (sectorSize - (pos + count) % sectorSize) with hle | hle
  · right; right
    rw [pieceSize, Nat.min_eq_left hle]
    omega
  · right; left
    rw [pieceSize, Nat.min_eq_right hle, ← Nat.add_assoc]
    exact add_sub_mod hsize

/-- A piece of a request in step does not go beyond the request. -/
theorem InStep.next_le (h : InStep sectorSize pos k) (hsize : 0 < sectorSize)
    (hreached : Reached sectorSize pos k count) (hcount : count < k) :
    count + pieceSize sectorSize pos k count ≤ k := by
  unfold pieceSize
  rcases hreached with rfl | haligned | hdone
  · omega
  · rw [haligned]
    rcases h with hfits | hends
    · have hlt : pos % sectorSize + count < sectorSize := by
        have := Nat.mod_lt pos hsize
        omega
      rw [Nat.add_mod, Nat.mod_eq_of_lt (show count < sectorSize by omega),
        Nat.mod_eq_of_lt hlt] at haligned
      omega
    · have hdvd : sectorSize ∣ (pos + k) - (pos + count) :=
        Nat.dvd_sub (Nat.dvd_of_mod_eq_zero hends) (Nat.dvd_of_mod_eq_zero haligned)
      have hle := Nat.le_of_dvd (by omega) hdvd
      omega
  · omega

/-- A request whose last piece ends where it should is in step. -/
theorem inStep_of_next_eq (hcount : count + pieceSize sectorSize pos k count = k)
    (hsize : 0 < sectorSize) : InStep sectorSize pos k := by
  rcases Nat.le_total k (sectorSize - (pos + count) % sectorSize) with hle | hle
  · rw [pieceSize, Nat.min_eq_left hle] at hcount
    obtain rfl : count = 0 := by omega
    exact Or.inl hle
  · rw [pieceSize, Nat.min_eq_right hle] at hcount
    right
    rw [← hcount, ← Nat.add_assoc]
    exact add_sub_mod hsize

end Pieces

/-! ## The loop -/

variable {fs : FAT32} {path : Str} {file : List UInt8} {f : FileContextFAT32}
  {memory : Nat → UInt8} {pos k count fuel : Nat}

/-- The state of the loop when it has copied `count` bytes of a request that began at `pos`. -/
structure Copied (f : FileContextFAT32) (path : Str) (pos count : Nat) : Prop where
  path_eq : f.path = path
  lastSector_eq : f.lastSector = -1
  pos_eq : f.pos = pos + count

/-- Between the counts `count` and `count'` the memory has received bytes of the file, and
elsewhere it is as before. -/
structure CopiedTo (file : List UInt8) (pos count count' : Nat) (memory memory' : Nat → UInt8) :
    Prop where
  le : count ≤ count'
  bytes_eq : ∀ i, count ≤ i → i < count' → pos + i < file.length →
    file[pos + i]? = some (memory' i)
  outside : ∀ i, i < count ∨ count' ≤ i → memory' i = memory i

theorem CopiedTo.refl (file : List UInt8) (pos count : Nat) (memory : Nat → UInt8) :
    CopiedTo file pos count count memory memory :=
  ⟨le_rfl, fun i hle hlt => by omega, fun _ _ => rfl⟩

theorem CopiedTo.trans {count' count'' : Nat} {memory' memory'' : Nat → UInt8}
    (h : CopiedTo file pos count count' memory memory')
    (h' : CopiedTo file pos count' count'' memory' memory'') :
    CopiedTo file pos count count'' memory memory'' := by
  have hle := h.le
  have hle' := h'.le
  refine ⟨hle.trans hle', ?_, ?_⟩
  · intro i hi hlt hfile
    by_cases hin : i < count'
    · rw [h'.outside i (Or.inl hin)]
      exact h.bytes_eq i hi hin hfile
    · exact h'.bytes_eq i (by omega) hlt hfile
  · intro i hi
    rw [h'.outside i (by omega), h.outside i (by omega)]

/-- The sector number of a byte of the file is a nonnegative `int`. -/
theorem HoldsFile.toSigned_sector (h : HoldsFile fs path file) (hpos : pos < file.length) :
    toSigned (pos / fs.bytesPerSector) = ((pos / fs.bytesPerSector : Nat) : Int) := by
  have hle := Nat.div_le_self pos fs.bytesPerSector
  have hlt := h.size_lt
  exact toSigned_natCast (by omega)

/-- The sector of a byte of the file is fetched on every pass, whatever was fetched before. -/
theorem HoldsFile.fetchSector (h : HoldsFile fs path file) (hf : Copied f path pos count)
    (hpos : f.pos < file.length) :
    ∃ b, fetchSector fs f (f.pos / fs.bytesPerSector) =
        some ({ f with sectorBuffer := some b }, true) ∧
      b.size = fs.bytesPerSector ∧
      ∀ i, i < file.length → i / fs.bytesPerSector = f.pos / fs.bytesPerSector →
        file[i]? = some (b.data (i % fs.bytesPerSector)) := by
  obtain ⟨b, hread, hsize, -⟩ := h.sector_eq f.pos hpos
  refine ⟨b, ?_, hsize, ?_⟩
  · have hsector : toSigned (f.pos / fs.bytesPerSector) ≠ f.lastSector := by
      rw [h.toSigned_sector hpos, hf.lastSector_eq]
      exact (Int.lt_of_lt_of_le (by decide) (Int.natCast_nonneg _)).ne'
    rw [FileContextFAT32.fetchSector, if_pos hsector, hf.path_eq, hread]
    rfl
  · intro i hi hsame
    obtain ⟨b', hread', -, hbyte⟩ := h.sector_eq i hi
    rw [hsame, hread] at hread'
    obtain rfl : b = b' := by simpa using hread'
    exact hbyte

/-- One pass of the loop copies one piece. -/
theorem HoldsFile.readLoop_step (h : HoldsFile fs path file) (hf : Copied f path pos count)
    (hrequest : pos + k ≤ file.length) (hcount : count < k) (fuel : Nat) (memory : Nat → UInt8) :
    ∃ f' memory', readLoop fs k (fuel + 1) f memory count =
        readLoop fs k fuel f' memory' (count + pieceSize fs.bytesPerSector pos k count) ∧
      Copied f' path pos (count + pieceSize fs.bytesPerSector pos k count) ∧
      CopiedTo file pos count (count + pieceSize fs.bytesPerSector pos k count) memory memory' := by
  have hposEq := hf.pos_eq
  have hsize := h.size_lt
  have hsector := h.sectorSize_lt
  have hpiece := mod_add_pieceSize_le pos k count h.sectorSize_pos
  have hmod := Nat.mod_lt (pos + count) h.sectorSize_pos
  have hpieceLe : pieceSize fs.bytesPerSector pos k count ≤ k := Nat.min_le_left ..
  obtain ⟨b, hfetch, hbsize, hbytes⟩ := h.fetchSector hf (by omega)
  have hc : (if (k : Int) > (fs.bytesPerSector : Int) - ((pos + count) % fs.bytesPerSector : Nat)
      then (fs.bytesPerSector : Int) - ((pos + count) % fs.bytesPerSector : Nat) else k) =
      (pieceSize fs.bytesPerSector pos k count : Int) := by
    unfold pieceSize
    split <;> omega
  rw [hposEq] at hfetch hbytes
  refine ⟨{ f with
      sectorBuffer := some b
      pos := pos + (count + pieceSize fs.bytesPerSector pos k count) },
    fun i => if count ≤ i ∧ i < count + pieceSize fs.bytesPerSector pos k count then
      b.data ((pos + count) % fs.bytesPerSector + (i - count)) else memory i,
    ?_, ⟨hf.path_eq, hf.lastSector_eq, rfl⟩, ⟨by omega, ?_, ?_⟩⟩
  · rw [readLoop, toUnsigned_natCast (by omega), if_pos hcount]
    simp only [FAT32.getSectorSize, hposEq, hfetch, Option.bind_eq_bind, Option.bind_some,
      Bool.not_true, Bool.false_eq_true, if_false, hc, toUnsigned_natCast (n := pieceSize
        fs.bytesPerSector pos k count) (by omega), toSize_natCast (n := pieceSize
        fs.bytesPerSector pos k count) (by omega), memcpy, hbsize, if_pos hpiece]
    rw [Nat.mod_eq_of_lt (show pos + count + pieceSize fs.bytesPerSector pos k count < 2 ^ 32 by
        omega), Nat.mod_eq_of_lt (show count + pieceSize fs.bytesPerSector pos k count < 2 ^ 32 by
        omega), Nat.add_assoc]
  · intro i hle hlt hfile
    have hdiv := Nat.mod_add_div (pos + count) fs.bytesPerSector
    have hi : pos + i = (pos + count) % fs.bytesPerSector + (i - count) +
        fs.bytesPerSector * ((pos + count) / fs.bytesPerSector) := by omega
    have hlow : (pos + count) % fs.bytesPerSector + (i - count) < fs.bytesPerSector := by omega
    have hbyte := hbytes (pos + i) hfile (by
      rw [hi, Nat.add_mul_div_left _ _ h.sectorSize_pos, Nat.div_eq_of_lt hlow, Nat.zero_add])
    rw [hbyte, hi, Nat.add_mul_mod_self_left, Nat.mod_eq_of_lt hlow, if_pos ⟨hle, hlt⟩]
  · intro i hi
    exact if_neg (by omega)

/-- The loop stops once it has copied as many bytes as were asked for. -/
theorem readLoop_done (fs : FAT32) (fuel : Nat) (f : FileContextFAT32) (memory : Nat → UInt8)
    (hk : k < 2 ^ 31)
    (hcount : k ≤ count) :
    readLoop fs k (fuel + 1) f memory count = some (f, memory, count) := by
  rw [readLoop, toUnsigned_natCast (by omega), if_neg (by omega)]

/-- The loop ends not far behind the end of the request, and at its end only for one in step. -/
theorem HoldsFile.readLoop_spec (h : HoldsFile fs path file) (memory : Nat → UInt8)
    (hf : Copied f path pos count) (hrequest : pos + k ≤ file.length)
    (hreached : Reached fs.bytesPerSector pos k count)
    (hcount : count < k) (hfuel : k ≤ count + fuel) :
    ∃ f' memory' count', readLoop fs k (fuel + 1) f memory count = some (f', memory', count') ∧
      Copied f' path pos count' ∧ CopiedTo file pos count count' memory memory' ∧
      (count' = k ↔ InStep fs.bytesPerSector pos k) ∧ count' ≤ k + fs.bytesPerSector := by
  induction fuel generalizing f memory count with
  | zero => omega
  | succ fuel ih =>
      obtain ⟨f', memory', hloop, hf', hcopied⟩ := h.readLoop_step hf hrequest hcount
        (fuel + 1) memory
      have hpos := pieceSize_pos pos count h.sectorSize_pos (Nat.zero_lt_of_lt hcount)
      by_cases hdone : k ≤ count + pieceSize fs.bytesPerSector pos k count
      · have hend := readLoop_done fs fuel f' memory' (Nat.lt_of_le_of_lt (by omega) h.size_lt)
          hdone
        have hpiece := mod_add_pieceSize_le pos k count h.sectorSize_pos
        refine ⟨f', memory', _, hloop.trans hend, hf', hcopied, ?_, by omega⟩
        constructor
        · intro heq
          exact inStep_of_next_eq heq h.sectorSize_pos
        · intro hstep
          exact Nat.le_antisymm (hstep.next_le h.sectorSize_pos hreached hcount) hdone
      · obtain ⟨f'', memory'', count'', hrest, hf'', hcopied', hiff, hle⟩ :=
          ih memory' hf' (reached_next h.sectorSize_pos) (by omega) (by omega)
        exact ⟨f'', memory'', count'', hloop.trans hrest, hf'', hcopied.trans hcopied', hiff, hle⟩

/-! ## One call -/

variable {n : Nat}

/-- At the end of the file `read` reports it and changes nothing. -/
theorem HoldsFile.read_end (h : HoldsFile fs path file) (hf : f.Ready path)
    (hpos : file.length ≤ f.pos) : read fs f memory n = some (f, memory, Error.EEOF.code) := by
  have hlt := h.size_lt
  have hge : f.pos ≥ toUnsigned (file.length : Int) := by
    rwa [toUnsigned_natCast (by omega)]
  simp [read, hf.path_eq, h.size_eq, hge]

/-- Before the end of the file `read` is its loop, run for the available bytes. -/
theorem HoldsFile.read_before_end (h : HoldsFile fs path file) (hf : f.Ready path)
    (hn : n < 2 ^ 31) (hpos : f.pos < file.length) :
    read fs f memory n =
      (readLoop fs (available file f.pos n) (available file f.pos n + 1) f memory 0).map
        fun r => (r.1, r.2.1, toSigned r.2.2) := by
  have hlt := h.size_lt
  have hsize : toUnsigned (file.length : Int) = file.length := toUnsigned_natCast (by omega)
  have hwrap : (f.pos + n) % 2 ^ 32 = f.pos + n := Nat.mod_eq_of_lt (by omega)
  have hge : ¬ f.pos ≥ file.length := by omega
  have hclamp : (if f.pos + n > file.length then
      toSigned (file.length + 2 ^ 32 - f.pos) else (n : Int)) = (available file f.pos n : Int) := by
    unfold available toSigned
    split <;> omega
  have havailable : toUnsigned (available file f.pos n : Int) = available file f.pos n := by
    refine toUnsigned_natCast ?_
    unfold available
    omega
  simp only [read, hf.path_eq, h.size_eq, Option.bind_eq_bind, Option.bind_some, hsize, hge,
    if_false, toUnsigned_natCast (show n < 2 ^ 32 by omega), hwrap, hclamp, havailable]
  cases readLoop fs (available file f.pos n) (available file f.pos n + 1) f memory 0 <;> rfl

/-- Before the end of the file a call copies bytes of the file, to the end of the available ones
only for a request in step. -/
theorem HoldsFile.read_spec (h : HoldsFile fs path file) (hf : f.Ready path) (hn : n < 2 ^ 31)
    (hpos : f.pos < file.length) (memory : Nat → UInt8) :
    ∃ f' memory' count, read fs f memory n = some (f', memory', toSigned count) ∧
      Copied f' path f.pos count ∧ CopiedTo file f.pos 0 count memory memory' ∧
      f.pos + count < 2 ^ 32 ∧ (count = available file f.pos n ↔
        InStep fs.bytesPerSector f.pos (available file f.pos n)) := by
  have hlt := h.size_lt
  have hsector := h.sectorSize_lt
  have hrequest : f.pos + available file f.pos n ≤ file.length := by
    unfold available
    omega
  have hstart : Copied f path f.pos 0 := ⟨hf.path_eq, hf.lastSector_eq, rfl⟩
  rw [h.read_before_end hf hn hpos]
  rcases Nat.eq_zero_or_pos (available file f.pos n) with hzero | hsome
  · rw [hzero, readLoop_done _ _ _ _ (by decide) le_rfl]
    exact ⟨f, memory, 0, rfl, hstart, .refl .., by omega,
      iff_of_true rfl (Or.inl (Nat.zero_le _))⟩
  · obtain ⟨f', memory', count, hloop, hf', hcopied, hiff, hle⟩ :=
      h.readLoop_spec memory hstart hrequest (Or.inl rfl) hsome (Nat.zero_add _).ge
    exact ⟨f', memory', count, by rw [hloop, Option.map_some], hf', hcopied, by omega, hiff⟩

/-- A call has the intended effect exactly for a request that the loop does not overrun. -/
theorem HoldsFile.delivers_iff (h : HoldsFile fs path file) (hf : f.Ready path)
    (hn : n < 2 ^ 31) (memory : Nat → UInt8) :
    (∃ f' memory' result, read fs f memory n = some (f', memory', result) ∧
      Delivers file f memory n f' memory' result) ↔ Exact fs file f.pos n := by
  rcases Nat.lt_or_ge f.pos file.length with hpos | hend
  · have hlt := h.size_lt
    obtain ⟨f', memory', count, hread, hf', hcopied, -, hiff⟩ := h.read_spec hf hn hpos memory
    simp only [hread, Exact, Nat.not_le_of_lt hpos, false_or, ← hiff]
    constructor
    · rintro ⟨f'', memory'', result, hresult, hdelivers⟩
      simp only [Option.some.injEq, Prod.mk.injEq] at hresult
      have hposition := hdelivers.pos_eq hpos
      rw [← hresult.1, hf'.pos_eq] at hposition
      omega
    · rintro rfl
      have hrequest : available file f.pos n ≤ file.length - f.pos := Nat.min_le_right ..
      refine ⟨f', memory', _, rfl, {
        at_end := fun hend => absurd hpos (Nat.not_lt_of_le hend)
        result_eq := fun _ => toSigned_natCast (by omega)
        pos_eq := fun _ => hf'.pos_eq
        bytes_eq := fun _ i hi => hcopied.bytes_eq i (Nat.zero_le i) hi (by omega)
        outside := fun _ i hi => hcopied.outside i (Or.inr hi) }⟩
  · refine iff_of_true ⟨_, _, _, h.read_end hf hend, ?_⟩ (Or.inl hend)
    have hnot : ¬ f.pos < file.length := Nat.not_lt_of_le hend
    exact ⟨fun _ => ⟨rfl, rfl, rfl⟩, fun h => absurd h hnot, fun h => absurd h hnot,
      fun h => absurd h hnot, fun h => absurd h hnot⟩

/-- `read` keeps a context ready. -/
theorem HoldsFile.read_ready (h : HoldsFile fs path file) (hf : f.Ready path) (hn : n < 2 ^ 31)
    {f' : FileContextFAT32} {memory' : Nat → UInt8} {result : Int}
    (hread : read fs f memory n = some (f', memory', result)) : f'.Ready path := by
  by_cases hpos : file.length ≤ f.pos
  · rw [h.read_end hf hpos] at hread
    simp only [Option.some.injEq, Prod.mk.injEq] at hread
    rwa [← hread.1]
  · obtain ⟨g, memory₁, count, hread', hg, -, hlt, -⟩ :=
      h.read_spec hf hn (Nat.lt_of_not_le hpos) memory
    rw [hread'] at hread
    simp only [Option.some.injEq, Prod.mk.injEq] at hread
    rw [← hread.1]
    exact ⟨hg.path_eq, hg.lastSector_eq, by rwa [hg.pos_eq]⟩

/-! ## Sequences of calls -/

/-- A context with the bytes its calls have delivered. -/
structure Reading where
  context : FileContextFAT32
  delivered : List UInt8

/-- A request: the bytes at the destination before the call, and the length. -/
structure Request where
  memory : Nat → UInt8
  n : Nat

/-- One call; it delivers as many bytes as it reports, none on an error. -/
def Step (fs : FAT32) (s : Reading) (request : Request) (s' : Reading) : Prop :=
  ∃ memory' result,
    read fs s.context request.memory request.n = some (s'.context, memory', result) ∧
      s'.delivered = s.delivered ++ (List.range result.toNat).map memory'

/-- A request that fits an `int` and is not overrun. -/
def Admissible (fs : FAT32) (file : List UInt8) (s : Reading) (request : Request) : Prop :=
  request.n < 2 ^ 31 ∧ Exact fs file s.context.pos request.n

/-- The file up to the position of the context has been delivered. -/
structure InOrder (path : Str) (file : List UInt8) (s : Reading) : Prop where
  ready : s.context.Ready path
  delivered_eq : s.delivered = file.take s.context.pos
  pos_le : s.context.pos ≤ file.length

/-- The next bytes of a list, read one by one. -/
theorem map_range_eq {memory' : Nat → UInt8}
    (h : ∀ i, i < available file pos n → file[pos + i]? = some (memory' i)) :
    (List.range (available file pos n)).map memory' =
      (file.drop pos).take (available file pos n) := by
  refine List.ext_getElem? fun i => ?_
  by_cases hi : i < available file pos n
  · simp [hi, h i hi, List.getElem?_drop]
  · simp [hi]

/-- A request that is not overrun delivers the next bytes of the file. -/
theorem InOrder.step (h : HoldsFile fs path file) {s s' : Reading} {request : Request}
    (hs : InOrder path file s) (hok : Admissible fs file s request)
    (hstep : Step fs s request s') : InOrder path file s' := by
  obtain ⟨memory', result, hread, hdelivered⟩ := hstep
  obtain ⟨g, memory₁, result₁, hread', hdelivers⟩ :=
    (h.delivers_iff hs.ready hok.1 request.memory).mpr hok.2
  rw [hread] at hread'
  simp only [Option.some.injEq, Prod.mk.injEq] at hread'
  obtain ⟨rfl, rfl, rfl⟩ := hread'
  have hready := h.read_ready hs.ready hok.1 hread
  have hpos := hs.pos_le
  rcases Nat.lt_or_ge s.context.pos file.length with hbefore | hend
  · refine ⟨hready, ?_, ?_⟩
    · rw [hdelivered, hs.delivered_eq, hdelivers.pos_eq hbefore, List.take_add,
        hdelivers.result_eq hbefore, Int.toNat_natCast, map_range_eq (hdelivers.bytes_eq hbefore)]
    · have hposition := hdelivers.pos_eq hbefore
      have hrequest : available file s.context.pos request.n ≤ file.length - s.context.pos :=
        Nat.min_le_right ..
      omega
  · obtain ⟨hresult, hsame, -⟩ := hdelivers.at_end hend
    refine ⟨hready, ?_, hsame ▸ hpos⟩
    rw [hdelivered, hresult, hsame, hs.delivered_eq]
    simp [Error.code]

/-- For a readable file, a call has the intended effect exactly when the request is not overrun,
and calls that are not overrun deliver the file in order from its beginning. -/
theorem read_delivers_iff (h : HoldsFile fs path file) :
    (∀ (f : FileContextFAT32) (n : Nat) (memory : Nat → UInt8), f.Ready path → n < 2 ^ 31 →
      ((∃ f' memory' result, read fs f memory n = some (f', memory', result) ∧
        Delivers file f memory n f' memory' result) ↔ Exact fs file f.pos n)) ∧
    ∀ (requests : List Request) (s : Reading),
      Run (Guarded (Admissible fs file) (Step fs)) ⟨new path, []⟩ requests s →
        s.delivered = file.take s.context.pos := by
  refine ⟨fun f n memory hf hn => h.delivers_iff hf hn memory, ?_⟩
  intro requests s hrun
  have hinit : InOrder path file ⟨new path, []⟩ :=
    ⟨⟨rfl, rfl, Nat.two_pow_pos 32⟩, by simp [new], Nat.zero_le _⟩
  exact (hrun.invariant hinit fun s request s' hs hstep => hs.step h hstep.1 hstep.2).delivered_eq

/-! ## A small file -/

/-- The file of a small volume: 1000 bytes in the clusters 2 and 3. -/
def zeroFile : Entry where
  name := [0x66]
  type := .FILE
  fileSizeBytes := 1000
  byteOffset := 0
  parentDir := none
  subDirs := []
  fatAllocations := [2, 3]

/-- A volume whose root, at the address 0, contains the file at the address 1. -/
def zeroVolume : FAT32 where
  di := { bytesPerSector := 512, disk := fun _ => 0 }
  rootDir := 0
  entries p :=
    if p = 0 then some { zeroFile with name := [], type := .DIRECTORY, subDirs := [1] }
    else if p = 1 then some zeroFile
    else none
  dataRegionStartClusterOffset := 9
  bytesPerFatEntry := 4
  bytesPerDirEntry := 32
  bytesPerCluster := 512
  bytesPerSector := 512
  sectorsPerCluster := 1
  sectorsPerFat := 8
  reservedSectors := 1
  reservedFatEntries := 2
  totalSectors := 1000

/-- The contents of the file. -/
def zeroBytes : List UInt8 := List.replicate 1000 0

theorem zeroBytes_length : zeroBytes.length = 1000 := List.length_replicate

/-- The path of the file, opened. -/
def zeroContext : FileContextFAT32 := new [FAT32.slash, 0x66]

theorem ready_zeroContext : zeroContext.Ready [FAT32.slash, 0x66] :=
  ⟨rfl, rfl, by decide⟩

theorem holdsFile_zeroVolume : HoldsFile zeroVolume [FAT32.slash, 0x66] zeroBytes where
  sectorSize_pos := by decide
  sectorSize_lt := by decide
  size_eq := by
    rw [zeroBytes_length]
    rfl
  size_lt := by
    rw [zeroBytes_length]
    decide
  sector_eq i hi := by
    rw [zeroBytes_length] at hi
    have hsector : i / 512 = 0 ∨ i / 512 = 1 := by omega
    refine ⟨zeroVolume.di.read (9 + i / 512), ?_, rfl, ?_⟩
    · show zeroVolume.readFile _ (i / 512) = _
      rcases hsector with hsector | hsector <;> rw [hsector] <;> rfl
    · rw [zeroBytes, List.getElem?_replicate, if_pos hi]
      rfl

/-- Both parts of the result hold for the small file; its first sector is delivered as intended. -/
theorem read_delivers_iff_sector :
    (∃ f' memory' result,
      read zeroVolume zeroContext (fun _ => 1) (512 : Nat) = some (f', memory', result) ∧
        Delivers zeroBytes zeroContext (fun _ => 1) 512 f' memory' result) ∧
    ∃ s, Step zeroVolume ⟨zeroContext, []⟩ ⟨fun _ => 1, 512⟩ s ∧
      s.delivered = zeroBytes.take s.context.pos := by
  have hexact : Exact zeroVolume zeroBytes zeroContext.pos 512 := by
    unfold Exact InStep available
    rw [zeroBytes_length]
    decide
  have hlength : 512 < 2 ^ 31 := by decide
  obtain ⟨f', memory', result, hread, hdelivers⟩ :=
    ((read_delivers_iff holdsFile_zeroVolume).1 zeroContext 512 (fun _ => 1) ready_zeroContext
      hlength).mpr hexact
  have hadmissible : Admissible zeroVolume zeroBytes ⟨zeroContext, []⟩ ⟨fun _ => 1, 512⟩ :=
    ⟨hlength, hexact⟩
  have hstep : Step zeroVolume ⟨zeroContext, []⟩ ⟨fun _ => 1, 512⟩
      ⟨f', [] ++ (List.range result.toNat).map memory'⟩ := ⟨memory', result, hread, rfl⟩
  have hguarded : Guarded (Admissible zeroVolume zeroBytes) (Step zeroVolume) ⟨zeroContext, []⟩
      ⟨fun _ => 1, 512⟩ ⟨f', [] ++ (List.range result.toNat).map memory'⟩ := ⟨hadmissible, hstep⟩
  have hdelivered := (read_delivers_iff holdsFile_zeroVolume).2 _ _ (.single hguarded)
  exact ⟨⟨f', memory', result, hread, hdelivers⟩, _, hstep, hdelivered⟩

/-- A request for 600 bytes at the beginning delivers 1024 bytes. -/
theorem read_overruns :
    HoldsFile zeroVolume [FAT32.slash, 0x66] zeroBytes ∧
      zeroContext.Ready [FAT32.slash, 0x66] ∧
      (∃ f' memory', read zeroVolume zeroContext (fun _ => 1) (600 : Nat) =
        some (f', memory', 1024)) ∧
      ¬ ∃ f' memory' result,
        read zeroVolume zeroContext (fun _ => 1) (600 : Nat) = some (f', memory', result) ∧
          Delivers zeroBytes zeroContext (fun _ => 1) 600 f' memory' result := by
  have hrun : (read zeroVolume zeroContext (fun _ => 1) (600 : Nat)).map (·.2.2) =
      some 1024 := by
    decide +kernel
  have hlength : 600 < 2 ^ 31 := by decide
  obtain ⟨⟨f', memory', result⟩, hread, hresult⟩ := Option.map_eq_some_iff.mp hrun
  obtain rfl : result = 1024 := hresult
  refine ⟨holdsFile_zeroVolume, ready_zeroContext, ⟨f', memory', hread⟩, ?_⟩
  intro h
  have hexact := (holdsFile_zeroVolume.delivers_iff ready_zeroContext hlength _).mp h
  unfold Exact InStep available at hexact
  rw [zeroBytes_length] at hexact
  revert hexact
  decide

end FileContextFAT32

end CrosKernel.Fs
