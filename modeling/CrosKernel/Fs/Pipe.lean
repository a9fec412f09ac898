import CrosKernel.Lib.RingBuffer
import CrosKernel.Lib.Run
import CrosKernel.Types.Status

/-!
# Pipes

`Pipe::put` and `Pipe::read` of `src/fs/pipe.cpp`, together with the reader and writer counts.
The abstract pipe is a FIFO list of at most `PIPE_SIZE - 1` bytes; `put_refines` and
`read_refines` say each call of the code is the same call of the FIFO, and
`session_refines` carries this over every interleaving of calls.
-/

namespace CrosKernel.Fs

open Lib

/-- `Pipe::PIPE_SIZE`. -/
def PIPE_SIZE : Nat := 4096

/-- The data members of `Pipe`. The array `buffer` is a total map; the positions that index it
are shown to stay below `PIPE_SIZE`. -/
structure Pipe where
  buffer : Nat → UInt8
  writePos : Nat
  readPos : Nat
  readerCount : Int
  writerCount : Int

namespace Pipe

/-- A pipe as `Pipe::Pipe` builds it. The array starts uninitialized. -/
def init (buffer : Nat → UInt8) : Pipe where
  buffer := buffer
  writePos := 0
  readPos := 0
  readerCount := 0
  writerCount := 0

/-- The guard that ends the loop of `put`: the write position is just before the read position,
across the end of the array or not. -/
def full (p : Pipe) : Prop :=
  (p.writePos = PIPE_SIZE - 1 ∧ p.readPos = 0) ∨ p.writePos + 1 = p.readPos

instance (p : Pipe) : Decidable p.full :=
  inferInstanceAs (Decidable (_ ∨ _))

/-- The body of the loop of `put`: store one byte and move the write position. -/
def store (p : Pipe) (byte : UInt8) : Pipe :=
  { p with
    buffer := Function.update p.buffer p.writePos byte
    writePos := if p.writePos + 1 ≥ PIPE_SIZE then 0 else p.writePos + 1 }

/-- The loop of `put` over the bytes not yet stored, returning the number stored. -/
def putLoop (p : Pipe) : List UInt8 → Pipe × Nat
  | [] => (p, 0)
  | byte :: rest =>
      if p.full then (p, 0)
      else
        let (p', c) := putLoop (p.store byte) rest
        (p', c + 1)

/-- `Pipe::put(data, n)`, where `data` lists the `n` bytes at the pointer. -/
def put (p : Pipe) (data : List UInt8) : Pipe × Int :=
  if p.readerCount = 0 then (p, Error.EPIPE.code)
  else
    let (p', c) := putLoop p data
    (p', if data.length > 0 ∧ c = 0 then Error.EFULL.code else c)

/-- `Pipe::read(data, n)`, returning the bytes written to `data`; their number is the result of
the call. -/
def read (p : Pipe) : Nat → Pipe × List UInt8
  | 0 => (p, [])
  | n + 1 =>
      if p.readPos = p.writePos then (p, [])
      else
        let next := if p.readPos + 1 ≥ PIPE_SIZE then 0 else p.readPos + 1
        let (p', bytes) := read { p with readPos := next } n
        (p', p.buffer p.readPos :: bytes)

/-- `Pipe::addReader`. -/
def addReader (p : Pipe) : Pipe := { p with readerCount := p.readerCount + 1 }

/-- `Pipe::removeReader`. -/
def removeReader (p : Pipe) : Pipe := { p with readerCount := p.readerCount - 1 }

/-- `Pipe::addWriter`. -/
def addWriter (p : Pipe) : Pipe := { p with writerCount := p.writerCount + 1 }

/-- `Pipe::removeWriter`. -/
def removeWriter (p : Pipe) : Pipe := { p with writerCount := p.writerCount - 1 }

/-- The bytes queued in the pipe, oldest first. -/
def Holds (p : Pipe) (queue : List UInt8) : Prop :=
  RingBuffer.Holds PIPE_SIZE p.buffer p.writePos p.readPos queue

variable {p : Pipe} {queue : List UInt8}

theorem Holds.length_le (h : p.Holds queue) : queue.length ≤ PIPE_SIZE - 1 :=
  Nat.le_sub_one_of_lt h.length_lt

/-- The loop guard of `put` holds exactly for a full queue. -/
theorem Holds.full_iff (h : p.Holds queue) : p.full ↔ queue.length = PIPE_SIZE - 1 :=
  RingBuffer.Holds.full_iff h

theorem Holds.store (h : p.Holds queue) (hfull : ¬ p.full) (byte : UInt8) :
    (p.store byte).Holds (queue ++ [byte]) := by
  have hle := h.length_le
  rw [h.full_iff] at hfull
  exact RingBuffer.Holds.push h (by simp only [PIPE_SIZE] at *; omega) byte

end Pipe

/-! ## The abstract pipe -/

namespace Fifo

/-- Storing `data` in a queue of the given capacity: the first bytes that fit are appended. The
result is their number, or `EFULL` when no byte of a nonempty request fits. -/
def put (capacity : Nat) (queue data : List UInt8) : List UInt8 × Int :=
  let c := min data.length (capacity - queue.length)
  (queue ++ data.take c,
    if data.length > 0 ∧ capacity - queue.length = 0 then Error.EFULL.code else c)

/-- Taking up to `n` bytes from a queue: what is left, and the oldest bytes. -/
def read (queue : List UInt8) (n : Nat) : List UInt8 × List UInt8 :=
  (queue.drop n, queue.take n)

end Fifo

namespace Pipe

variable {p : Pipe} {queue : List UInt8}

/-- The loop of `put` appends the longest prefix of its input that fits. -/
theorem putLoop_holds (h : p.Holds queue) (data : List UInt8) :
    (p.putLoop data).2 = min data.length (PIPE_SIZE - 1 - queue.length) ∧
      (p.putLoop data).1.Holds (queue ++ data.take (p.putLoop data).2) := by
  induction data generalizing p queue with
  | nil => simpa [putLoop] using h
  | cons byte rest ih =>
      by_cases hfull : p.full
      · have hlength := h.full_iff.mp hfull
        simpa [putLoop, hfull, hlength] using h
      · have hlength := mt h.full_iff.mpr hfull
        have hle := h.length_le
        obtain ⟨hcount, hholds⟩ := ih (h.store hfull byte)
        simp only [putLoop, hfull, if_false, List.take_succ_cons]
        refine ⟨?_, by simpa using hholds⟩
        simp only [hcount, List.length_append, List.length_cons, List.length_nil]
        omega

/-- With a reader, `put` is the FIFO's `put`. -/
theorem put_refines (h : p.Holds queue) (hreader : p.readerCount ≠ 0) (data : List UInt8) :
    (p.put data).2 = (Fifo.put (PIPE_SIZE - 1) queue data).2 ∧
      (p.put data).1.Holds (Fifo.put (PIPE_SIZE - 1) queue data).1 := by
  obtain ⟨hcount, hholds⟩ := putLoop_holds h data
  simp only [put, hreader, if_false, Fifo.put]
  rw [hcount] at hholds ⊢
  refine ⟨?_, hholds⟩
  by_cases hdata : data.length > 0
  · have hzero : min data.length (PIPE_SIZE - 1 - queue.length) = 0 ↔
        PIPE_SIZE - 1 - queue.length = 0 := by omega
    simp only [hdata, hzero, true_and]
  · simp only [hdata, false_and, if_false]

/-- Without a reader, `put` reports `EPIPE` and changes nothing. -/
theorem put_no_reader (hreader : p.readerCount = 0) (data : List UInt8) :
    p.put data = (p, Error.EPIPE.code) := by
  simp [put, hreader]

/-- `read` is the FIFO's `read`. -/
theorem read_refines (h : p.Holds queue) (n : Nat) :
    (p.read n).2 = (Fifo.read queue n).2 ∧ (p.read n).1.Holds (Fifo.read queue n).1 := by
  induction n generalizing p queue with
  | zero => simpa [read, Fifo.read] using h
  | succ n ih =>
      cases queue with
      | nil =>
          have hempty := h.read_eq_write_iff.mpr rfl
          simpa [read, hempty, Fifo.read] using h
      | cons byte rest =>
          have hne : p.readPos ≠ p.writePos := mt h.read_eq_write_iff.mp (by simp)
          obtain ⟨hbyte, hrest⟩ := RingBuffer.Holds.pop h
          obtain ⟨hbytes, hholds⟩ :=
            ih (p := { p with readPos := RingBuffer.advance PIPE_SIZE p.readPos }) hrest
          simp only [read, hne, if_false, Fifo.read, List.take_succ_cons, List.drop_succ_cons]
          exact ⟨by rw [← hbyte]; exact congrArg _ hbytes, hholds⟩

end Pipe

/-! ## Interleaved calls -/

/-- The calls on a pipe. The lifetimes of its ends reach it only as changes of the counts. -/
inductive PipeOp where
  | put (data : List UInt8)
  | read (n : Nat)
  | addReader
  | removeReader
  | addWriter
  | removeWriter

/-- A pipe with the history of the bytes its calls have accepted and delivered. -/
structure Session where
  pipe : Pipe
  accepted : List UInt8
  delivered : List UInt8

namespace Session

/-- A new pipe, before any call. -/
def init (buffer : Nat → UInt8) : Session where
  pipe := Pipe.init buffer
  accepted := []
  delivered := []

/-- One call. A call of `put` has accepted as many bytes as it returns, none on an error. -/
def call (s : Session) : PipeOp → Session
  | .put data =>
      { s with
        pipe := (s.pipe.put data).1
        accepted := s.accepted ++ data.take (s.pipe.put data).2.toNat }
  | .read n =>
      { s with
        pipe := (s.pipe.read n).1
        delivered := s.delivered ++ (s.pipe.read n).2 }
  | .addReader => { s with pipe := s.pipe.addReader }
  | .removeReader => { s with pipe := s.pipe.removeReader }
  | .addWriter => { s with pipe := s.pipe.addWriter }
  | .removeWriter => { s with pipe := s.pipe.removeWriter }

/-- The transition relation of a session. -/
def Step (s : Session) (op : PipeOp) (s' : Session) : Prop :=
  s' = s.call op

/-- The pipe holds exactly the accepted bytes that have not been delivered. -/
def Pending (s : Session) (queue : List UInt8) : Prop :=
  s.pipe.Holds queue ∧ s.accepted = s.delivered ++ queue

theorem pending_init (buffer : Nat → UInt8) : (init buffer).Pending [] :=
  ⟨RingBuffer.holds_nil (show 0 < 4096 by decide), rfl⟩

/-- Every call keeps the delivered bytes followed by the queued ones equal to the accepted
ones. -/
theorem Pending.call {s : Session} {queue : List UInt8} (h : s.Pending queue) (op : PipeOp) :
    ∃ queue', (s.call op).Pending queue' := by
  obtain ⟨hholds, haccepted⟩ := h
  cases op with
  | put data =>
      by_cases hreader : s.pipe.readerCount = 0
      · refine ⟨queue, ?_⟩
        simpa [Session.call, Pending, Pipe.put_no_reader hreader, Error.code] using
          And.intro hholds haccepted
      · obtain ⟨hcount, hholds'⟩ := Pipe.put_refines hholds hreader data
        refine ⟨_, hholds', ?_⟩
        simp only [Session.call, hcount, Fifo.put]
        rw [haccepted, List.append_assoc]
        split
        next h => simp [Error.code, h.2]
        next => rw [Int.toNat_natCast]
  | read n =>
      obtain ⟨hbytes, hholds'⟩ := Pipe.read_refines hholds n
      refine ⟨_, hholds', ?_⟩
      simp only [Session.call, hbytes, Fifo.read]
      rw [haccepted, List.append_assoc, List.take_append_drop]
  | addReader => exact ⟨queue, hholds, haccepted⟩
  | removeReader => exact ⟨queue, hholds, haccepted⟩
  | addWriter => exact ⟨queue, hholds, haccepted⟩
  | removeWriter => exact ⟨queue, hholds, haccepted⟩

/-- What a session shares with the FIFO that holds `queue`: indices in the array, the history,
and the effect and result of the next call of `put` or `read`. -/
structure Refines (s : Session) (queue : List UInt8) : Prop where
  writePos_lt : s.pipe.writePos < PIPE_SIZE
  readPos_lt : s.pipe.readPos < PIPE_SIZE
  length_le : queue.length ≤ PIPE_SIZE - 1
  accepted_eq : s.accepted = s.delivered ++ queue
  put_eq : s.pipe.readerCount > 0 → ∀ data,
    (s.pipe.put data).2 = (Fifo.put (PIPE_SIZE - 1) queue data).2 ∧
      (s.pipe.put data).1.Holds (Fifo.put (PIPE_SIZE - 1) queue data).1
  put_no_reader : s.pipe.readerCount = 0 → ∀ data, s.pipe.put data = (s.pipe, Error.EPIPE.code)
  read_eq : ∀ n, (s.pipe.read n).2 = (Fifo.read queue n).2 ∧
    (s.pipe.read n).1.Holds (Fifo.read queue n).1

/-- In every interleaving of calls a pipe is a FIFO of capacity `PIPE_SIZE - 1`. -/
theorem session_refines {buffer : Nat → UInt8} {ops : List PipeOp} {s : Session}
    (h : Run Step (init buffer) ops s) : ∃ queue, s.pipe.Holds queue ∧ s.Refines queue := by
  have hstep : ∀ s op s', (∃ queue, s.Pending queue) → Step s op s' → ∃ queue, s'.Pending queue :=
    fun s op s' ⟨queue, hpending⟩ hstep => hstep ▸ hpending.call op
  obtain ⟨queue, hholds, haccepted⟩ := h.invariant ⟨[], pending_init buffer⟩ hstep
  refine ⟨queue, hholds, ?_⟩
  exact {
    writePos_lt := hholds.write_lt
    readPos_lt := hholds.read_lt
    length_le := hholds.length_le
    accepted_eq := haccepted
    put_eq := fun hreader data => Pipe.put_refines hholds (by omega) data
    put_no_reader := fun hreader data => Pipe.put_no_reader hreader data
    read_eq := fun n => Pipe.read_refines hholds n }

/-- Three bytes are accepted and two of them delivered. -/
theorem session_refines_put_read :
    ∃ queue, ((((init fun _ => 0).call .addReader).call (.put [1, 2, 3])).call
        (.read 2)).pipe.Holds queue ∧
      ((((init fun _ => 0).call .addReader).call (.put [1, 2, 3])).call (.read 2)).Refines queue :=
  session_refines (.cons rfl (.cons rfl (.cons rfl (.nil _))))

end Session

end CrosKernel.Fs
