import CrosKernel.Lib.Run
import CrosKernel.Sched.PipeEnds

/-!
# The life of a pipe

A pipe from `new Pipe` on, through every order in which ends of it are created, copied and
destroyed. The destructors of `PipeReader` and `PipeWriter` decide by the two counters whether to
delete the pipe; `pipe_life` says that they do so in the step that destroys the last living end and
in no other one. It does not depend on how many ends exist before the first one is destroyed.
-/

namespace CrosKernel.Sched

open Lib

namespace FileHeap

/-- `Pipe::createReader`, with the new context at `c`. -/
def createReader (h : FileHeap) (p : PipeAddr) (c : ContextAddr) : Option FileHeap :=
  h.newContext c (.PipeReader p)

/-- `Pipe::createWriter`, with the new context at `c`. -/
def createWriter (h : FileHeap) (p : PipeAddr) (c : ContextAddr) : Option FileHeap :=
  h.newContext c (.PipeWriter p)

end FileHeap

/-- What happens to the ends of a pipe. -/
inductive EndOp where
  | createReader (c : ContextAddr)
  | createWriter (c : ContextAddr)
  | copy (c c' : ContextAddr)
  | destroy (c : ContextAddr)

namespace EndOp

/-- The operations that can be asked for: ends are created on the pipe while it exists, copied and
destroyed while they live, and a new context gets an address that is not in use. -/
def Allowed (h : FileHeap) (p : PipeAddr) : EndOp → Prop
  | .createReader c => h.pipes p ≠ none ∧ h.contexts c = none
  | .createWriter c => h.pipes p ≠ none ∧ h.contexts c = none
  | .copy c c' => h.contexts c ≠ none ∧ h.contexts c' = none
  | .destroy c => h.contexts c ≠ none

/-- One operation on the ends of the pipe at `p`. -/
def perform (h : FileHeap) (p : PipeAddr) : EndOp → Option FileHeap
  | .createReader c => h.createReader p c
  | .createWriter c => h.createWriter p c
  | .copy c c' => h.copy c c'
  | .destroy c => h.deleteContext c

/-- The transition relation of the operations. -/
def Step (p : PipeAddr) (h : FileHeap) (op : EndOp) (h' : FileHeap) : Prop :=
  op.Allowed h p ∧ op.perform h p = some h'

end EndOp

namespace FileHeap

variable {h h' : FileHeap} {L : Finset ContextAddr} {p : PipeAddr} {c : ContextAddr}
  {x : FileContext} {op : EndOp}

/-- The context at `c` is a living end of the pipe at `p`. -/
def IsEnd (h : FileHeap) (p : PipeAddr) (c : ContextAddr) : Prop :=
  ∃ x, h.contexts c = some x ∧ (x.kind = .PipeReader p ∨ x.kind = .PipeWriter p)

/-- Nothing is an end of a freed pipe. -/
theorem PipesCounted.not_isEnd (hP : PipesCounted h L) (hp : h.pipes p = none) (c : ContextAddr) :
    ¬ h.IsEnd p c := by
  intro ⟨x, hx, hkind⟩
  have halive := hP.alive c x hx
  rcases hkind with hkind | hkind <;> simp [PipeAlive, hkind, hp] at halive

/-- The counters of a pipe with a living end are not both zero. -/
theorem PipesCounted.counters_ne_zero {e : PipeEnds} (hP : PipesCounted h L)
    (hp : h.pipes p = some e) (hc : h.IsEnd p c) : ¬ (e.readerCount = 0 ∧ e.writerCount = 0) := by
  obtain ⟨x, hx, hkind⟩ := hc
  have hpos := ends_pos ((hP.live c).1 (by simp [hx])) hx
  obtain ⟨hr, hw⟩ := hP.counts p e hp
  rcases hkind with hkind | hkind <;> rw [hkind] at hpos <;> omega

/-- A counter that is not zero counts a living end. -/
theorem PipesCounted.exists_isEnd {e : PipeEnds} (hP : PipesCounted h L) (hp : h.pipes p = some e)
    (hne : ¬ (e.readerCount = 0 ∧ e.writerCount = 0)) : ∃ c, h.IsEnd p c := by
  obtain ⟨hr, hw⟩ := hP.counts p e hp
  have hone : ∃ kind, (kind = .PipeReader p ∨ kind = .PipeWriter p) ∧ h.ends L kind ≠ 0 := by
    by_cases hreader : h.ends L (.PipeReader p) = 0
    · exact ⟨_, .inr rfl, by omega⟩
    · exact ⟨_, .inl rfl, hreader⟩
  obtain ⟨kind, hkind, hends⟩ := hone
  rw [ends, Ne, Int.natCast_eq_zero, Finset.card_eq_zero] at hends
  obtain ⟨c, hc⟩ := Finset.nonempty_iff_ne_empty.2 hends
  obtain ⟨x, hx, rfl⟩ := Option.map_eq_some_iff.1 (Finset.mem_filter.1 hc).2
  exact ⟨c, x, hx, hkind⟩

/-- Deleting a pipe leaves the other pipes alone, and this one only with an end. -/
theorem deletePipe_pipes {q : PipeAddr} (hh : h.deletePipe q = some h') :
    (p ≠ q → h'.pipes p = h.pipes p) ∧
      ∀ e, h'.pipes q = some e → ¬ (e.readerCount = 0 ∧ e.writerCount = 0) := by
  obtain ⟨e, he, heq⟩ := Option.bind_eq_some_iff.1 hh
  cases heq
  split
  case isTrue hzero => exact ⟨fun hpq => by simp [hpq], fun f hf => by simp at hf⟩
  case isFalse hne => exact ⟨fun _ => rfl, fun f hf => Option.some.inj (he.symm.trans hf) ▸ hne⟩

/-- Destroying a context that is no end of a pipe does not concern the pipe. An end of the pipe
leaves it with another end or freed. -/
theorem deleteContext_pipes (hP : PipesCounted h L) (hx : h.contexts c = some x)
    (hh : h.deleteContext c = some h') :
    (¬ h.IsEnd p c → h'.pipes p = h.pipes p) ∧
      (h.IsEnd p c → ∀ e, h'.pipes p = some e → ¬ (e.readerCount = 0 ∧ e.writerCount = 0)) := by
  obtain ⟨y, hy, hh⟩ := Option.bind_eq_some_iff.1 hh
  obtain rfl := Option.some.inj (hx.symm.trans hy)
  obtain ⟨h₁, h₁_eq, heq⟩ := Option.bind_eq_some_iff.1 hh
  cases heq
  show (_ → h₁.pipes p = h.pipes p) ∧ (_ → ∀ e, h₁.pipes p = some e → _)
  rcases destruct_spec (hP.alive c x hx) with ⟨path, pos, hkind, hdestruct⟩ |
    ⟨q, e, e', -, hkind, hdestruct, -, -⟩
  · obtain rfl := Option.some.inj (hdestruct.symm.trans h₁_eq)
    refine ⟨fun _ => rfl, fun hend => ?_⟩
    obtain ⟨y, hy, hkind'⟩ := hend
    obtain rfl := Option.some.inj (hx.symm.trans hy)
    simp [hkind] at hkind'
  · obtain ⟨hother, hlast⟩ := deletePipe_pipes (p := p) (hdestruct.symm.trans h₁_eq)
    by_cases hpq : p = q
    · subst hpq
      exact ⟨fun hnot => absurd ⟨x, hx, hkind⟩ hnot, fun _ => hlast⟩
    · refine ⟨fun _ => by simpa [hpq] using hother hpq, fun hend => ?_⟩
      obtain ⟨y, hy, hkind'⟩ := hend
      obtain rfl := Option.some.inj (hx.symm.trans hy)
      rcases hkind with hkind | hkind <;> rw [hkind] at hkind' <;> simp [Ne.symm hpq] at hkind'

/-- A freed pipe is not brought back by constructing a context. -/
theorem newContext_pipes_none {kind : ContextKind} (hh : h.newContext c kind = some h')
    (hp : h.pipes p = none) : h'.pipes p = none := by
  unfold newContext at hh
  split at hh
  case isTrue => cases hh
  case isFalse =>
    obtain ⟨h₁, h₁_eq, heq⟩ := Option.bind_eq_some_iff.1 hh
    cases heq
    show h₁.pipes p = none
    cases kind with
    | FileContextFAT32 => exact Option.some.inj h₁_eq ▸ hp
    | PipeReader q | PipeWriter q =>
        obtain ⟨e, he, heq⟩ := Option.bind_eq_some_iff.1 h₁_eq
        cases heq
        have hpq : p ≠ q := fun heq => by simp [← heq, hp] at he
        simpa [hpq] using hp

/-- What a step does to the pipe: a freed pipe stays freed, and the pipe is freed in the one case
that its last living end is destroyed. -/
structure PipeStep (h : FileHeap) (p : PipeAddr) (op : EndOp) (h' : FileHeap) : Prop where
  freed_once : h.pipes p = none → h'.pipes p = none
  freed_iff : h.pipes p ≠ none →
    (h'.pipes p = none ↔ ∃ c, op = .destroy c ∧ h.IsEnd p c ∧ ∀ b, ¬ h'.IsEnd p b)

/-- Constructing a context is no step that frees the pipe. -/
theorem PipesCounted.construct_step {kind : ContextKind} (hP : PipesCounted h L)
    (hc : h.contexts c = none) (halive : h.PipeAlive kind) (hop : ∀ b, op ≠ .destroy b) :
    ∃ h' L', h.newContext c kind = some h' ∧ PipesCounted h' L' ∧ h.PipeStep p op h' := by
  obtain ⟨h', hh', hP', -, hpipes⟩ := newContext_spec hP hc halive
  refine ⟨h', _, hh', hP', newContext_pipes_none hh', fun hp => ⟨fun hp' => ?_, fun hlast => ?_⟩⟩
  · exact absurd hp' (hpipes p hp)
  · obtain ⟨b, hb, -⟩ := hlast
    exact absurd hb (hop b)

/-- Destroying a context frees the pipe with its last end. -/
theorem PipesCounted.destruct_step (hP : PipesCounted h L) (hx : h.contexts c = some x) :
    ∃ h' L', h.deleteContext c = some h' ∧ PipesCounted h' L' ∧ h.PipeStep p (.destroy c) h' := by
  obtain ⟨h', hh', hP'⟩ := deleteContext_spec hP hx
  obtain ⟨hother, hend⟩ := deleteContext_pipes (p := p) hP hx hh'
  refine ⟨h', _, hh', hP', fun hp => ?_, fun hp => ⟨fun hp' => ?_, fun hlast => ?_⟩⟩
  · rw [hother (hP.not_isEnd hp c), hp]
  · have hisEnd : h.IsEnd p c := by
      by_contra hnot
      exact hp (hother hnot ▸ hp')
    exact ⟨c, rfl, hisEnd, hP'.not_isEnd hp'⟩
  · obtain ⟨b, hb, hisEnd, hnone⟩ := hlast
    cases hb
    by_contra hsome
    obtain ⟨e, he⟩ := Option.ne_none_iff_exists'.1 hsome
    obtain ⟨b, hb⟩ := hP'.exists_isEnd he (hend hisEnd e he)
    exact hnone b hb

/-- Every allowed operation goes through and keeps the counters exact. -/
theorem PipesCounted.endOp (hP : PipesCounted h L) (hop : op.Allowed h p) :
    ∃ h' L', op.perform h p = some h' ∧ PipesCounted h' L' ∧ h.PipeStep p op h' := by
  cases op with
  | createReader c => exact hP.construct_step hop.2 hop.1 (fun _ => nofun)
  | createWriter c => exact hP.construct_step hop.2 hop.1 (fun _ => nofun)
  | copy c c' =>
      obtain ⟨x, hx⟩ := Option.ne_none_iff_exists'.1 hop.1
      obtain ⟨h', L', hh', hP', hstep⟩ : ∃ h' L', h.newContext c' x.kind = some h' ∧
          PipesCounted h' L' ∧ h.PipeStep p (.copy c c') h' :=
        hP.construct_step hop.2 (hP.alive c x hx) (fun _ => nofun)
      exact ⟨h', L', by simp [EndOp.perform, copy, hx, hh'], hP', hstep⟩
  | destroy c =>
      obtain ⟨x, hx⟩ := Option.ne_none_iff_exists'.1 hop
      exact hP.destruct_step hx

/-- The state of a pipe among living contexts: both counters are exact, and nothing is an end of
the pipe once it is freed. -/
structure PipeState (h : FileHeap) (p : PipeAddr) (L : Finset ContextAddr) : Prop where
  living : ∀ c, c ∈ L ↔ h.contexts c ≠ none
  counts : ∀ e, h.pipes p = some e →
    e.readerCount = h.ends L (.PipeReader p) ∧ e.writerCount = h.ends L (.PipeWriter p)
  not_isEnd : h.pipes p = none → ∀ c, ¬ h.IsEnd p c

/-- After `new Pipe`, in every order of creations, copies and destructions of ends: the counters
are the numbers of living ends, no living end is one of a freed pipe, and whatever is allowed next
goes through, freeing the pipe exactly when it destroys the last living end. -/
theorem pipe_life {h₀ h₁ : FileHeap} {L₀ : Finset ContextAddr} {ops : List EndOp}
    (hP : PipesCounted h₀ L₀) (hnew : h₀.newPipe p = some h₁) (hrun : Run (EndOp.Step p) h₁ ops h) :
    (∃ L, h.PipeState p L) ∧
      ∀ op : EndOp, op.Allowed h p → ∃ h', op.perform h p = some h' ∧ h.PipeStep p op h' := by
  obtain ⟨hP₁, -, -⟩ := hP.newPipe hnew
  have hstep : ∀ h op h', (∃ L, PipesCounted h L) → EndOp.Step p h op h' →
      ∃ L, PipesCounted h' L := by
    intro h op h' ⟨L, hP⟩ ⟨hop, hperform⟩
    obtain ⟨h'', L', hh'', hP', -⟩ := hP.endOp hop
    obtain rfl := Option.some.inj (hh''.symm.trans hperform)
    exact ⟨L', hP'⟩
  obtain ⟨L, hP⟩ := hrun.invariant ⟨L₀, hP₁⟩ hstep
  refine ⟨⟨L, fun c => (hP.live c).symm, hP.counts p, hP.not_isEnd⟩, fun op hop => ?_⟩
  obtain ⟨h', -, hh', -, hstep⟩ := hP.endOp hop
  exact ⟨h', hh', hstep⟩

/-- A reader and a writer are created, and the reader is copied and destroyed. -/
theorem pipe_life_copy :
    ∃ h, Run (EndOp.Step 0) (empty.setPipe 0 (some ⟨0, 0⟩))
        [.createReader 1, .createWriter 2, .copy 1 3, .destroy 1] h ∧
      (∃ L, h.PipeState 0 L) ∧
      ∀ op : EndOp, op.Allowed h 0 → ∃ h', op.perform h 0 = some h' ∧ h.PipeStep 0 op h' := by
  have hrun : Run (EndOp.Step 0) (empty.setPipe 0 (some ⟨0, 0⟩))
      [.createReader 1, .createWriter 2, .copy 1 3, .destroy 1] _ :=
    .cons ⟨⟨Option.some_ne_none _, rfl⟩, rfl⟩ <| .cons ⟨⟨Option.some_ne_none _, rfl⟩, rfl⟩ <|
    .cons ⟨⟨Option.some_ne_none _, rfl⟩, rfl⟩ <| .single ⟨Option.some_ne_none _, rfl⟩
  exact ⟨_, hrun, pipe_life empty_pipesCounted rfl hrun⟩

end FileHeap

end CrosKernel.Sched
