import CrosKernel.Sched.OpenFiles
import Mathlib.Data.Finset.Card

/-!
# The ends of pipes

Constructing and destroying file contexts moves the counters of the pipe they are ends of, and the
last destructor frees the pipe. `PipesCounted h L` says that the counters are exact for the living
contexts `L`, so that no living context is the end of a freed pipe. With it no operation on
contexts follows the pointer of a freed object: `newContext_spec` and `deleteContext_spec`.
-/

namespace CrosKernel.Sched

open Containers BinarySearchTree Lib

namespace FileHeap

/-- The number of contexts in `L` that are `kind`. -/
def ends (h : FileHeap) (L : Finset ContextAddr) (kind : ContextKind) : Int :=
  (L.filter fun c => (h.contexts c).map (·.kind) = some kind).card

/-- The pipe that a context of this kind is an end of is alive. -/
def PipeAlive (h : FileHeap) : ContextKind → Prop
  | .FileContextFAT32 .. => True
  | .PipeReader p => h.pipes p ≠ none
  | .PipeWriter p => h.pipes p ≠ none

/-- The living contexts are `L`, and the counters of the pipes count the ones that are their
ends. -/
structure PipesCounted (h : FileHeap) (L : Finset ContextAddr) : Prop where
  live : ∀ c, h.contexts c ≠ none ↔ c ∈ L
  counts : ∀ p e, h.pipes p = some e →
    e.readerCount = h.ends L (.PipeReader p) ∧ e.writerCount = h.ends L (.PipeWriter p)
  alive : ∀ c x, h.contexts c = some x → h.PipeAlive x.kind

variable {h h' : FileHeap} {L : Finset ContextAddr} {c : ContextAddr} {x : FileContext}
  {kind : ContextKind}

theorem empty_pipesCounted : PipesCounted empty ∅ where
  live c := by simp [empty]
  counts _ _ h := nomatch h
  alive _ _ h := nomatch h

@[simp]
theorem ends_setPipe (h : FileHeap) (p : PipeAddr) (e : Option PipeEnds) :
    (h.setPipe p e).ends = h.ends := rfl

theorem pipeAlive_setPipe {p : PipeAddr} {e : PipeEnds} (halive : h.PipeAlive kind) :
    (h.setPipe p (some e)).PipeAlive kind := by
  cases kind with
  | FileContextFAT32 => trivial
  | PipeReader q | PipeWriter q =>
      by_cases hqp : q = p
      · simp [PipeAlive, hqp]
      · simpa [PipeAlive, hqp] using halive

/-- The ends of a kind after one context is constructed. -/
theorem ends_insert (hc : c ∉ L) (x : FileContext) (kind : ContextKind) :
    (h.setContext c (some x)).ends (insert c L) kind =
      h.ends L kind + if x.kind = kind then 1 else 0 := by
  have hfilter : (L.filter fun b => ((h.setContext c (some x)).contexts b).map (·.kind) =
      some kind) = L.filter fun b => (h.contexts b).map (·.kind) = some kind := by
    refine Finset.filter_congr fun b hb => ?_
    have hne : b ≠ c := fun heq => hc (heq ▸ hb)
    simp [hne]
  rw [ends, ends, Finset.filter_insert, hfilter]
  by_cases hkind : x.kind = kind
  · rw [if_pos (by simp [hkind]), if_pos hkind, Finset.card_insert_of_notMem]
    · push_cast
      rfl
    · simp [hc]
  · rw [if_neg (by simp [hkind]), if_neg hkind, Int.add_zero]

/-- The ends of a kind after one context is destroyed. -/
theorem ends_erase (hc : c ∈ L) (hx : h.contexts c = some x) (kind : ContextKind) :
    (h.setContext c none).ends (L.erase c) kind =
      h.ends L kind - if x.kind = kind then 1 else 0 := by
  have hback : (h.setContext c none).setContext c (some x) = h := by
    rw [setContext, setContext, Function.update_idem, ← hx, Function.update_eq_self]
  have hinsert := ends_insert (h := h.setContext c none) (L.notMem_erase c) x kind
  rw [hback, Finset.insert_erase hc] at hinsert
  rw [hinsert]
  omega

theorem ends_congr (hkinds : ∀ c, (h'.contexts c).map (·.kind) = (h.contexts c).map (·.kind)) :
    h'.ends L = h.ends L := by
  funext kind
  simp only [ends, hkinds]

/-- A living context is counted. -/
theorem ends_pos (hL : c ∈ L) (hx : h.contexts c = some x) : 0 < h.ends L x.kind := by
  have hmem : c ∈ L.filter fun b => (h.contexts b).map (·.kind) = some x.kind := by
    simp [hL, hx]
  exact Int.natCast_pos.2 (Finset.card_pos.2 ⟨c, hmem⟩)

/-- A pipe with the right counters is written. -/
theorem PipesCounted.setPipe {p : PipeAddr} {e : PipeEnds}
    (hlive : ∀ c, h.contexts c ≠ none ↔ c ∈ L)
    (hcounts : ∀ q f, q ≠ p → h.pipes q = some f →
      f.readerCount = h.ends L (.PipeReader q) ∧ f.writerCount = h.ends L (.PipeWriter q))
    (hreader : e.readerCount = h.ends L (.PipeReader p))
    (hwriter : e.writerCount = h.ends L (.PipeWriter p))
    (halive : ∀ c x, h.contexts c = some x → h.PipeAlive x.kind) :
    PipesCounted (h.setPipe p (some e)) L where
  live := hlive
  counts q f hq := by
    by_cases hqp : q = p
    · subst hqp
      obtain rfl : e = f := by simpa using hq
      exact ⟨hreader, hwriter⟩
    · exact hcounts q f hqp (by simpa [hqp] using hq)
  alive c x hx := pipeAlive_setPipe (halive c x hx)

/-- A pipe without ends is freed. -/
theorem PipesCounted.freePipe {p : PipeAddr} {e : PipeEnds} (hP : PipesCounted h L)
    (hp : h.pipes p = some e) (hreader : e.readerCount = 0) (hwriter : e.writerCount = 0) :
    PipesCounted (h.setPipe p none) L where
  live := hP.live
  counts q f hq := by
    by_cases hqp : q = p
    · simp [hqp] at hq
    · exact hP.counts q f (by simpa [hqp] using hq)
  alive b x hx := by
    obtain ⟨hr, hw⟩ := hP.counts p e hp
    have halive := hP.alive b x hx
    have hpos : 0 < h.ends L x.kind :=
      ends_pos ((hP.live b).1 (by simp [show h.contexts b = some x from hx])) hx
    cases hkind : x.kind with
    | FileContextFAT32 => trivial
    | PipeReader q | PipeWriter q =>
        rw [hkind] at halive hpos
        have hqp : q ≠ p := by
          rintro rfl
          omega
        simpa [PipeAlive, hqp] using halive

theorem PipesCounted.newPipe {p : PipeAddr} (hP : PipesCounted h L) (hh : h.newPipe p = some h') :
    PipesCounted h' L ∧ h'.contexts = h.contexts ∧ h'.pipes p ≠ none := by
  unfold FileHeap.newPipe at hh
  split at hh
  case isTrue => cases hh
  case isFalse hfresh =>
    cases hh
    have hnone : h.pipes p = none := by simpa using hfresh
    -- no living context is an end of a pipe at this address
    have hzero : ∀ kind, (kind = .PipeReader p ∨ kind = .PipeWriter p) → h.ends L kind = 0 := by
      intro kind hkind
      rw [ends, Int.natCast_eq_zero, Finset.card_eq_zero, Finset.filter_eq_empty_iff]
      intro b hb hmap
      obtain ⟨x, hx, rfl⟩ := Option.map_eq_some_iff.1 hmap
      have halive := hP.alive b x hx
      rcases hkind with hkind | hkind <;> simp [PipeAlive, hkind, hnone] at halive
    refine ⟨.setPipe hP.live (fun q f _ hq => hP.counts q f hq) ?_ ?_ hP.alive, rfl, by simp⟩
    · exact (hzero _ (.inl rfl)).symm
    · exact (hzero _ (.inr rfl)).symm

/-- Constructing a context counts it as an end of its pipe. -/
theorem construct_spec (halive : h.PipeAlive kind) :
    (∃ path pos, kind = .FileContextFAT32 path pos ∧ h.construct kind = some h) ∨
      ∃ p e e', h.pipes p = some e ∧ (kind = .PipeReader p ∨ kind = .PipeWriter p) ∧
        h.construct kind = some (h.setPipe p (some e')) ∧
        e'.readerCount = e.readerCount + (if kind = .PipeReader p then 1 else 0) ∧
        e'.writerCount = e.writerCount + (if kind = .PipeWriter p then 1 else 0) := by
  cases kind with
  | FileContextFAT32 path pos => exact .inl ⟨path, pos, rfl, rfl⟩
  | PipeReader p =>
      obtain ⟨e, he⟩ := Option.ne_none_iff_exists'.1 halive
      exact .inr ⟨p, e, { e with readerCount := e.readerCount + 1 }, he, by simp,
        by simp [construct, modifyPipe, he], by simp, by simp⟩
  | PipeWriter p =>
      obtain ⟨e, he⟩ := Option.ne_none_iff_exists'.1 halive
      exact .inr ⟨p, e, { e with writerCount := e.writerCount + 1 }, he, by simp,
        by simp [construct, modifyPipe, he], by simp, by simp⟩

/-- Destroying a context takes it off the count, and the last end frees the pipe. -/
theorem destruct_spec (halive : h.PipeAlive kind) :
    (∃ path pos, kind = .FileContextFAT32 path pos ∧ h.destruct kind = some h) ∨
      ∃ p e e', h.pipes p = some e ∧ (kind = .PipeReader p ∨ kind = .PipeWriter p) ∧
        h.destruct kind = (h.setPipe p (some e')).deletePipe p ∧
        e'.readerCount = e.readerCount - (if kind = .PipeReader p then 1 else 0) ∧
        e'.writerCount = e.writerCount - (if kind = .PipeWriter p then 1 else 0) := by
  cases kind with
  | FileContextFAT32 path pos => exact .inl ⟨path, pos, rfl, rfl⟩
  | PipeReader p =>
      obtain ⟨e, he⟩ := Option.ne_none_iff_exists'.1 halive
      exact .inr ⟨p, e, { e with readerCount := e.readerCount - 1 }, he, by simp,
        by simp [destruct, modifyPipe, he], by simp, by simp⟩
  | PipeWriter p =>
      obtain ⟨e, he⟩ := Option.ne_none_iff_exists'.1 halive
      exact .inr ⟨p, e, { e with writerCount := e.writerCount - 1 }, he, by simp,
        by simp [destruct, modifyPipe, he], by simp, by simp⟩

/-- A context is constructed at an address that is not in use. -/
theorem newContext_spec (hP : PipesCounted h L) (hc : h.contexts c = none)
    (halive : h.PipeAlive kind) :
    ∃ h', h.newContext c kind = some h' ∧ PipesCounted h' (insert c L) ∧
      h'.contexts = Function.update h.contexts c (some ⟨0, kind⟩) ∧
      ∀ p, h.pipes p ≠ none → h'.pipes p ≠ none := by
  have hcL : c ∉ L := fun hmem => (hP.live c).2 hmem hc
  have hends := ends_insert (h := h) hcL ⟨0, kind⟩
  have hlive : ∀ b, (h.setContext c (some ⟨0, kind⟩)).contexts b ≠ none ↔ b ∈ insert c L := by
    intro b
    by_cases hb : b = c
    · simp [hb]
    · simp [hb, ← hP.live b]
  have hkinds : ∀ b x, (h.setContext c (some ⟨0, kind⟩)).contexts b = some x →
      h.PipeAlive x.kind := by
    intro b x hx
    by_cases hb : b = c
    · subst hb
      obtain rfl : (⟨0, kind⟩ : FileContext) = x := by simpa using hx
      exact halive
    · exact hP.alive b x (by simpa [hb] using hx)
  rcases construct_spec halive with ⟨path, pos, rfl, hconstruct⟩ |
    ⟨p, e, e', hp, hkind, hconstruct, hreader, hwriter⟩
  · refine ⟨h.setContext c (some ⟨0, .FileContextFAT32 path pos⟩),
      by simp [newContext, hc, hconstruct], ⟨hlive, fun q f hq => ?_, hkinds⟩, rfl, fun _ h => h⟩
    obtain ⟨hr, hw⟩ := hP.counts q f hq
    simp [hends, hr, hw]
  · obtain ⟨hr, hw⟩ := hP.counts p e hp
    refine ⟨(h.setContext c (some ⟨0, kind⟩)).setPipe p (some e'),
      by simp [newContext, hc, hconstruct, setContext, FileHeap.setPipe],
      .setPipe hlive (fun q f hqp hq => ?_) ?_ ?_ hkinds, rfl, fun q hq => ?_⟩
    · obtain ⟨hr, hw⟩ := hP.counts q f hq
      rcases hkind with rfl | rfl <;> simp [hends, hr, hw, hqp.symm]
    · rw [hends, hreader, hr]
    · rw [hends, hwriter, hw]
    · by_cases hqp : q = p
      · simp [hqp]
      · simpa [hqp] using hq

theorem newContext_pipes (hP : PipesCounted h L) (hh : h.newContext c kind = some h')
    (halive : h.PipeAlive kind) :
    PipesCounted h' (insert c L) ∧ ∀ p, h.pipes p ≠ none → h'.pipes p ≠ none := by
  have hc : h.contexts c = none := by simpa [getRefCount] using (newContext_counts hh).1
  obtain ⟨h₁, h₁_eq, hP₁, -, hpipes⟩ := newContext_spec hP hc halive
  obtain rfl := Option.some.inj (h₁_eq.symm.trans hh)
  exact ⟨hP₁, hpipes⟩

/-- A living context is destroyed. -/
theorem deleteContext_spec (hP : PipesCounted h L) (hx : h.contexts c = some x) :
    ∃ h', h.deleteContext c = some h' ∧ PipesCounted h' (L.erase c) := by
  have hcL : c ∈ L := (hP.live c).1 (by simp [hx])
  have hends := ends_erase hcL hx
  have hlive : ∀ b, (h.setContext c none).contexts b ≠ none ↔ b ∈ L.erase c := by
    intro b
    by_cases hb : b = c
    · simp [hb]
    · simp [hb, ← hP.live b]
  have hkinds : ∀ b y, (h.setContext c none).contexts b = some y → h.PipeAlive y.kind := by
    intro b y hy
    by_cases hb : b = c
    · simp [hb] at hy
    · exact hP.alive b y (by simpa [hb] using hy)
  rcases destruct_spec (hP.alive c x hx) with ⟨path, pos, hkind, hdestruct⟩ |
    ⟨p, e, e', hp, hkind, hdestruct, hreader, hwriter⟩
  · refine ⟨h.setContext c none, by simp [deleteContext, hx, hdestruct],
      ⟨hlive, fun q f hq => ?_, hkinds⟩⟩
    obtain ⟨hr, hw⟩ := hP.counts q f hq
    simp [hends, hr, hw, hkind]
  · obtain ⟨hr, hw⟩ := hP.counts p e hp
    have hcounted : PipesCounted ((h.setContext c none).setPipe p (some e')) (L.erase c) := by
      refine .setPipe hlive (fun q f hqp hq => ?_) ?_ ?_ hkinds
      · obtain ⟨hr, hw⟩ := hP.counts q f hq
        rcases hkind with hkind | hkind <;> simp [hends, hr, hw, hkind, hqp.symm]
      · rw [hends, hreader, hr]
      · rw [hends, hwriter, hw]
    by_cases hzero : e'.readerCount = 0 ∧ e'.writerCount = 0
    · refine ⟨((h.setContext c none).setPipe p (some e')).setPipe p none, ?_,
        hcounted.freePipe (by simp) hzero.1 hzero.2⟩
      simp [deleteContext, hx, hdestruct, deletePipe, hzero, setContext, FileHeap.setPipe]
    · refine ⟨(h.setContext c none).setPipe p (some e'), ?_, hcounted⟩
      simp [deleteContext, hx, hdestruct, deletePipe, hzero, setContext, FileHeap.setPipe]

/-- The counter of references does not matter to the pipes. -/
theorem PipesCounted.modify {f : FileContext → FileContext} (hP : PipesCounted h L)
    (hh : h.modify c f = some h') (hf : ∀ x, (f x).kind = x.kind) : PipesCounted h' L := by
  obtain ⟨x, hx, heq⟩ := Option.bind_eq_some_iff.1 hh
  cases heq
  have hkinds : ∀ b, ((h.setContext c (some (f x))).contexts b).map (·.kind) =
      (h.contexts b).map (·.kind) := by
    intro b
    by_cases hb : b = c
    · simp [hb, hx, hf]
    · simp [hb]
  refine ⟨fun b => ?_, fun q e hq => ?_, fun b y hy => ?_⟩
  · rw [← hP.live b]
    by_cases hb : b = c
    · simp [hb, hx]
    · simp [hb]
  · rw [ends_congr hkinds]
    exact hP.counts q e hq
  · have hmap := hkinds b
    rw [hy] at hmap
    obtain ⟨z, hz, hkind⟩ := Option.map_eq_some_iff.1 hmap.symm
    have halive := hP.alive b z hz
    rw [show z.kind = y.kind from hkind] at halive
    exact halive

end FileHeap

end CrosKernel.Sched
