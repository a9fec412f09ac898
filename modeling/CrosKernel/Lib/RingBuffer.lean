import Mathlib.Data.List.Basic
import Mathlib.Data.Nat.ModEq
import Mathlib.Logic.Function.Basic
import Mathlib.Order.Basic

/-!
# Ring buffers with one empty slot

A ring buffer of `size` cells holds at most `size - 1` elements: the queued elements start at
the read position and end just before the write position, both taken modulo `size`. Full and
empty are told apart by the positions alone. `Holds` relates the cells and the two positions
to the list of queued elements; `holds_push` and `holds_pop` are the two moves of a position.

A ring that is only written to overwrites its oldest elements. `Logs` relates its cells to the
whole history of the elements written.
-/

namespace CrosKernel.Lib.RingBuffer

variable {α : Type*} {size write read : Nat} {cells : Nat → α} {queue : List α}

/-- The position after `index`, wrapping at the end of the buffer. -/
def advance (size index : Nat) : Nat :=
  if index + 1 ≥ size then 0 else index + 1

/-- The cell `offset` places after `start`, for `start < size` and `offset ≤ size`. -/
def slot (size start offset : Nat) : Nat :=
  if start + offset < size then start + offset else start + offset - size

/-- The cells between the read and the write position hold `queue`, oldest element first. -/
structure Holds (size : Nat) (cells : Nat → α) (write read : Nat) (queue : List α) : Prop where
  read_lt : read < size
  length_lt : queue.length < size
  write_eq : write = slot size read queue.length
  cells_eq : ∀ i, i < queue.length → queue[i]? = some (cells (slot size read i))

theorem slot_lt {start offset : Nat} (h : start < size) (ho : offset ≤ size) :
    slot size start offset < size := by
  unfold slot
  split <;> omega

theorem slot_zero {start : Nat} (h : start < size) : slot size start 0 = start := by
  simp [slot, h]

/-- Distinct offsets below the size name distinct cells. -/
theorem slot_ne {start i j : Nat} (hi : i < j) (hj : j < size) :
    slot size start i ≠ slot size start j := by
  unfold slot
  split <;> split <;> omega

theorem advance_slot {start offset : Nat} (h : start < size) (ho : offset < size) :
    advance size (slot size start offset) = slot size start (offset + 1) := by
  unfold advance slot
  split <;> split <;> split <;> omega

theorem slot_advance {start offset : Nat} (h : start < size) (ho : offset + 1 < size) :
    slot size (advance size start) offset = slot size start (offset + 1) := by
  unfold advance slot
  split <;> split <;> split <;> omega

namespace Holds

theorem write_lt (h : Holds size cells write read queue) : write < size :=
  h.write_eq ▸ slot_lt h.read_lt (Nat.le_of_lt h.length_lt)

/-- An empty buffer has equal positions. -/
theorem read_eq_write_iff (h : Holds size cells write read queue) :
    read = write ↔ queue = [] := by
  have hr := h.read_lt
  have hl := h.length_lt
  rw [h.write_eq, ← List.length_eq_zero_iff]
  unfold slot
  split <;> omega

/-- A full buffer has its write position just before the read position, across the end of the
buffer or not. -/
theorem full_iff (h : Holds size cells write read queue) :
    (write = size - 1 ∧ read = 0) ∨ write + 1 = read ↔ queue.length = size - 1 := by
  have hl := h.length_lt
  rw [h.write_eq]
  unfold slot
  split <;> omega

/-- Storing at the write position and advancing it appends an element. -/
theorem push (h : Holds size cells write read queue)
    (hroom : queue.length + 1 < size) (x : α) :
    Holds size (Function.update cells write x) (advance size write) read (queue ++ [x]) where
  read_lt := h.read_lt
  length_lt := by simpa using hroom
  write_eq := by
    rw [h.write_eq, advance_slot h.read_lt h.length_lt]
    simp
  cells_eq i hi := by
    rw [h.write_eq]
    by_cases hlast : i < queue.length
    · rw [Function.update_of_ne (slot_ne hlast h.length_lt), ← h.cells_eq i hlast,
        List.getElem?_append_left hlast]
    · obtain rfl : i = queue.length := by
        simp only [List.length_append, List.length_singleton] at hi
        omega
      simp

/-- The read position names the oldest element, and advancing it removes that element. -/
theorem pop {x : α} (h : Holds size cells write read (x :: queue)) :
    cells read = x ∧ Holds size cells write (advance size read) queue := by
  have hl := h.length_lt
  simp only [List.length_cons] at hl
  refine ⟨?_, ?_, ?_, ?_, ?_⟩
  · simpa [slot_zero h.read_lt] using (h.cells_eq 0 (by simp)).symm
  · unfold advance
    split <;> have := h.read_lt <;> omega
  · omega
  · rw [h.write_eq, slot_advance h.read_lt hl, List.length_cons]
  · intro i hi
    rw [slot_advance h.read_lt (by omega)]
    simpa using h.cells_eq (i + 1) (by simpa using hi)

end Holds

/-- Equal positions hold the empty queue. -/
theorem holds_nil (h : read < size) : Holds size cells read read ([] : List α) where
  read_lt := h
  length_lt := by simpa using Nat.zero_lt_of_lt h
  write_eq := (slot_zero h).symm
  cells_eq := by simp

/-- The cells hold the last `size` elements of `history`, element `i` in cell `i % size`. -/
structure Logs (size : Nat) (cells : Nat → α) (write : Nat) (history : List α) : Prop where
  write_eq : write = history.length % size
  cells_eq : ∀ i, i < history.length → history.length ≤ i + size →
    history[i]? = some (cells (i % size))

/-- Positions advance as counts do modulo the size. -/
theorem advance_mod (h : 0 < size) (i : Nat) : advance size (i % size) = (i + 1) % size := by
  have hlt := Nat.mod_lt i h
  unfold advance
  rw [← Nat.mod_add_mod i size 1]
  split
  case isTrue hge => rw [show i % size + 1 = size by omega, Nat.mod_self]
  case isFalse hge => rw [Nat.mod_eq_of_lt (by omega : i % size + 1 < size)]

/-- Nothing was written. -/
theorem logs_nil : Logs size cells 0 ([] : List α) where
  write_eq := by simp
  cells_eq := by simp

/-- Two counts that differ by less than the size have different positions. -/
theorem mod_ne {i j : Nat} (hij : i < j) (hj : j < i + size) : i % size ≠ j % size := by
  intro heq
  have hdvd : size ∣ j - i := (Nat.modEq_iff_dvd' (Nat.le_of_lt hij)).1 heq
  have hle := Nat.le_of_dvd (by omega) hdvd
  omega

/-- Writing an element loses the one written `size` elements before. -/
theorem Logs.push {history : List α} (hsize : 0 < size)
    (h : Logs size cells write history) (x : α) :
    Logs size (Function.update cells write x) (advance size write) (history ++ [x]) where
  write_eq := by
    rw [h.write_eq, advance_mod hsize, List.length_append, List.length_singleton]
  cells_eq i hi hrecent := by
    rw [List.length_append, List.length_singleton] at hi hrecent
    by_cases hlast : i < history.length
    · have hne : i % size ≠ write := h.write_eq ▸ mod_ne hlast (by omega)
      rw [Function.update_of_ne hne, List.getElem?_append_left hlast]
      exact h.cells_eq i hlast (by omega)
    · obtain rfl : i = history.length := by omega
      simp [h.write_eq]

end CrosKernel.Lib.RingBuffer
