import CrosKernel.Fs.Pipe

/-!
# The end of file of a pipe

`PipeReader::read` of `src/fs/pipe.cpp`, which takes a transfer of no bytes for the end of the data
when no writer remains. A read of length 0 transfers no bytes either: `eof_iff` says when the report
is right.
-/

namespace CrosKernel.Fs

open Lib

namespace Pipe

variable {p : Pipe}

/-- `PipeReader::read(buffer, n)`, with the bytes written to `buffer` and the result of the call. -/
def readerRead (p : Pipe) (n : Nat) : Pipe × List UInt8 × Int :=
  let (p', bytes) := p.read n
  (p', bytes,
    if bytes.length = 0 ∧ p'.writerCount = 0 then Error.EEOF.code else bytes.length)

theorem putLoop_writerCount (p : Pipe) (data : List UInt8) :
    (p.putLoop data).1.writerCount = p.writerCount := by
  induction data generalizing p with
  | nil => rfl
  | cons byte rest ih =>
      rw [putLoop]
      split
      · rfl
      · exact ih (p.store byte)

/-- Calls of `put` do not change the number of writers. -/
theorem put_writerCount (p : Pipe) (data : List UInt8) :
    (p.put data).1.writerCount = p.writerCount := by
  rw [put]
  split
  · rfl
  · exact putLoop_writerCount p data

/-- Calls of `read` do not change the number of writers. -/
theorem read_writerCount (p : Pipe) (n : Nat) : (p.read n).1.writerCount = p.writerCount := by
  induction n generalizing p with
  | zero => rfl
  | succ n ih =>
      rw [read]
      split
      · rfl
      · exact ih { p with readPos := if p.readPos + 1 ≥ PIPE_SIZE then 0 else p.readPos + 1 }

/-- The end of file is reported for a transfer of no bytes without a writer. -/
theorem readerRead_eof_iff (p : Pipe) (n : Nat) :
    (p.readerRead n).2.2 = Error.EEOF.code ↔ (p.read n).2 = [] ∧ p.writerCount = 0 := by
  show (if (p.read n).2.length = 0 ∧ (p.read n).1.writerCount = 0 then Error.EEOF.code
    else ((p.read n).2.length : Int)) = Error.EEOF.code ↔ _
  have hnil : (p.read n).2 = [] ↔ (p.read n).2.length = 0 := List.length_eq_zero_iff.symm
  rw [read_writerCount, hnil]
  split
  next heof => exact iff_of_true rfl heof
  next hcount =>
    refine iff_of_false (fun h => ?_) hcount
    simp only [Error.code] at h
    omega

end Pipe

/-- The writers that remain after a history: those created less those destroyed. -/
def writersLeft : List PipeOp → Int
  | [] => 0
  | .addWriter :: ops => writersLeft ops + 1
  | .removeWriter :: ops => writersLeft ops - 1
  | .put _ :: ops => writersLeft ops
  | .read _ :: ops => writersLeft ops
  | .addReader :: ops => writersLeft ops
  | .removeReader :: ops => writersLeft ops

namespace Session

/-- The counter of the pipe follows the history of the writers. -/
theorem writerCount_eq {s s' : Session} {ops : List PipeOp} (hrun : Run Step s ops s') :
    s'.pipe.writerCount = s.pipe.writerCount + writersLeft ops := by
  induction hrun with
  | nil => simp [writersLeft]
  | @cons s s' s'' op ops hstep _ ih =>
      obtain rfl : s' = s.call op := hstep
      rw [ih]
      cases op with
      | put data =>
          show (s.pipe.put data).1.writerCount + _ = _
          rw [Pipe.put_writerCount, writersLeft]
      | read n =>
          show (s.pipe.read n).1.writerCount + _ = _
          rw [Pipe.read_writerCount, writersLeft]
      | addReader => rfl
      | removeReader => rfl
      | addWriter =>
          show s.pipe.writerCount + 1 + _ = _
          rw [writersLeft]
          omega
      | removeWriter =>
          show s.pipe.writerCount - 1 + _ = _
          rw [writersLeft]
          omega

/-- After every history of a pipe, `PipeReader::read` reports the end of file only with all accepted
bytes delivered and no writer left, if and only if the call is not one of length 0 that leaves bytes
in the pipe without a writer. -/
theorem eof_iff {buffer : Nat → UInt8} {ops : List PipeOp} {s : Session}
    (hrun : Run Step (init buffer) ops s) (n : Nat) :
    ((s.pipe.readerRead n).2.2 = Error.EEOF.code →
        (s.call (.read n)).delivered = s.accepted ∧ writersLeft ops = 0) ↔
      (n = 0 → writersLeft ops = 0 → s.pipe.readPos = s.pipe.writePos) := by
  have hstep : ∀ s op s', (∃ queue, s.Pending queue) → Step s op s' →
      ∃ queue, s'.Pending queue := by
    rintro s op s' ⟨queue, hpending⟩ hstep
    exact hstep ▸ hpending.call op
  obtain ⟨queue, hholds, haccepted⟩ := hrun.invariant ⟨[], pending_init buffer⟩ hstep
  have hbytes : (s.pipe.read n).2 = queue.take n := (Pipe.read_refines hholds n).1
  have hwriters : s.pipe.writerCount = writersLeft ops :=
    (writerCount_eq hrun).trans (Int.zero_add _)
  have hdelivered : (s.call (.read n)).delivered = s.accepted ↔ queue.drop n = [] := by
    show s.delivered ++ (s.pipe.read n).2 = _ ↔ _
    rw [hbytes, haccepted, List.append_cancel_left_eq]
    conv_lhs => rhs; rw [← List.take_append_drop n queue]
    rw [List.self_eq_append_right]
  rw [Pipe.readerRead_eof_iff, hdelivered, hbytes, hwriters, hholds.read_eq_write_iff]
  constructor
  · rintro heof rfl hnone
    exact (heof ⟨rfl, hnone⟩).1
  · rintro hzero ⟨htake, hnone⟩
    refine ⟨?_, hnone⟩
    rcases List.take_eq_nil_iff.1 htake with hn | hempty
    · rw [hzero hn hnone, List.drop_nil]
    · rw [hempty, List.drop_nil]

/-- A byte is put and the writer destroyed. -/
private def lastByte : Session :=
  ((((init fun _ => 0).call .addReader).call .addWriter).call (.put [7])).call .removeWriter

private theorem lastByte_run :
    Run Step (init fun _ => 0) [.addReader, .addWriter, .put [7], .removeWriter] lastByte :=
  .cons rfl (.cons rfl (.cons rfl (.cons rfl (.nil _))))

/-- After the byte was read, the end of file is reported. -/
theorem eof_iff_last :
    ((lastByte.call (.read 1)).pipe.readerRead 2).2.2 = Error.EEOF.code ∧
      ((lastByte.call (.read 1)).call (.read 2)).delivered = (lastByte.call (.read 1)).accepted ∧
      writersLeft [.addReader, .addWriter, .put [7], .removeWriter, .read 1] = 0 := by
  have hrun : Run Step (init fun _ => 0) _ (lastByte.call (.read 1)) :=
    lastByte_run.append (.single rfl)
  have heof : ((lastByte.call (.read 1)).pipe.readerRead 2).2.2 = Error.EEOF.code := rfl
  exact ⟨heof, (eof_iff hrun 2).2 (fun hzero => absurd hzero (by decide)) heof⟩

/-- A read of length 0 before that reports the end of file, too, although the byte is still in the
pipe. -/
theorem eof_too_early :
    ¬ ∀ (buffer : Nat → UInt8) (ops : List PipeOp) (s : Session), Run Step (init buffer) ops s →
      ∀ n, (s.pipe.readerRead n).2.2 = Error.EEOF.code →
        (s.call (.read n)).delivered = s.accepted ∧ writersLeft ops = 0 := by
  intro hall
  have heof := (hall (fun _ => 0) _ lastByte lastByte_run 0 rfl).1
  exact absurd heof (by decide)

end Session

end CrosKernel.Fs
