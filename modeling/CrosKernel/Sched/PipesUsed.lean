import CrosKernel.Sched.FileReferences
import CrosKernel.Sched.PipeLife

/-!
# Pipes that are used

A pipe on the heap has an end, except between `new Pipe` and the constructors of its first ends. The
system calls on descriptors keep it so, and only `create_pipe` constructs a pipe. A context stays
what it is as long as it lives.
-/

namespace CrosKernel.Sched

open Containers BinarySearchTree Lib

namespace FileHeap

/-- Every pipe has an end. -/
def Used (h : FileHeap) : Prop :=
  ∀ q e, h.pipes q = some e → ¬ (e.readerCount = 0 ∧ e.writerCount = 0)

/-- Between the two states no pipe was constructed, and none was left without an end. -/
structure PipesKept (h h' : FileHeap) : Prop where
  pipes_none : ∀ q, h.pipes q = none → h'.pipes q = none
  used : h.Used → h'.Used

variable {h h' h'' : FileHeap} {L : Finset ContextAddr} {c : ContextAddr} {q : PipeAddr}
  {kind : ContextKind}

theorem PipesKept.of_eq (heq : h'.pipes = h.pipes) : h.PipesKept h' where
  pipes_none q hq := by rw [heq, hq]
  used hused q e he := hused q e (heq ▸ he)

theorem PipesKept.refl (h : FileHeap) : h.PipesKept h := .of_eq rfl

theorem PipesKept.trans (hk : h.PipesKept h') (hk' : h'.PipesKept h'') : h.PipesKept h'' where
  pipes_none q hq := hk'.pipes_none q (hk.pipes_none q hq)
  used hused := hk'.used (hk.used hused)

theorem modify_pipes {f : FileContext → FileContext} (hh : h.modify c f = some h') :
    h'.pipes = h.pipes := by
  obtain ⟨x, -, heq⟩ := Option.bind_eq_some_iff.1 hh
  cases heq
  rfl

/-- Constructing a context concerns the pipe that it is an end of only. -/
theorem newContext_pipes_eq (hh : h.newContext c kind = some h')
    (hkind : kind ≠ .PipeReader q ∧ kind ≠ .PipeWriter q) : h'.pipes q = h.pipes q := by
  unfold newContext at hh
  split at hh
  case isTrue => cases hh
  case isFalse =>
    obtain ⟨h₁, h₁_eq, heq⟩ := Option.bind_eq_some_iff.1 hh
    cases heq
    show h₁.pipes q = h.pipes q
    cases kind with
    | FileContextFAT32 => rw [← Option.some.inj h₁_eq]
    | PipeReader p | PipeWriter p =>
        obtain ⟨e, -, heq⟩ := Option.bind_eq_some_iff.1 h₁_eq
        cases heq
        have hqp : q ≠ p := by
          rintro rfl
          simp at hkind
        simp [hqp]

/-- After a context is constructed, a pipe has an end if it had one, or is the one of the context. -/
theorem newContext_used (hP : PipesCounted h L) (hh : h.newContext c kind = some h')
    (halive : h.PipeAlive kind) {e : PipeEnds} (he : h'.pipes q = some e)
    (hq : (kind = .PipeReader q ∨ kind = .PipeWriter q) ∨
      ∀ e, h.pipes q = some e → ¬ (e.readerCount = 0 ∧ e.writerCount = 0)) :
    ¬ (e.readerCount = 0 ∧ e.writerCount = 0) := by
  by_cases hkind : kind = .PipeReader q ∨ kind = .PipeWriter q
  · obtain ⟨hP', -⟩ := newContext_pipes hP hh halive
    have hc : h.contexts c = none := by simpa [getRefCount] using (newContext_counts hh).1
    obtain ⟨h₁, h₁_eq, -, hcontexts, -⟩ := newContext_spec hP hc halive
    obtain rfl := Option.some.inj (h₁_eq.symm.trans hh)
    have hend : h₁.IsEnd q c := ⟨⟨0, kind⟩, by simp [hcontexts], hkind⟩
    exact hP'.counters_ne_zero he hend
  · rw [newContext_pipes_eq hh (not_or.1 hkind)] at he
    exact hq.resolve_left hkind e he

theorem newContext_kept (hP : PipesCounted h L) (hh : h.newContext c kind = some h')
    (halive : h.PipeAlive kind) : h.PipesKept h' where
  pipes_none _ := newContext_pipes_none hh
  used hused q _ he := newContext_used hP hh halive he (.inr (hused q))

theorem deleteContext_kept (hP : PipesCounted h L) (hh : h.deleteContext c = some h') :
    h.PipesKept h' := by
  obtain ⟨x, hx, -⟩ := Option.bind_eq_some_iff.1 hh
  refine ⟨fun q hq => ?_, fun hused q e he => ?_⟩
  · rw [(deleteContext_pipes hP hx hh).1 (hP.not_isEnd hq c), hq]
  · obtain ⟨hother, hend⟩ := deleteContext_pipes (p := q) hP hx hh
    by_cases hisEnd : h.IsEnd q c
    · exact hend hisEnd e he
    · exact hused q e (hother hisEnd ▸ he)

/-- What the context at `c` is, if it lives. -/
def kindOf (h : FileHeap) (c : ContextAddr) : Option ContextKind := (h.contexts c).map (·.kind)

/-- The contexts that live stay what they are. -/
def Grows (h h' : FileHeap) : Prop := ∀ c kind, h.kindOf c = some kind → h'.kindOf c = some kind

theorem Grows.of_eq (heq : h'.kindOf = h.kindOf) : h.Grows h' := fun c kind hc => by rw [heq, hc]

theorem Grows.trans (hg : h.Grows h') (hg' : h'.Grows h'') : h.Grows h'' :=
  fun c kind hc => hg' c kind (hg c kind hc)

theorem modify_kindOf {f : FileContext → FileContext} (hh : h.modify c f = some h')
    (hf : ∀ x, (f x).kind = x.kind) : h'.kindOf = h.kindOf := by
  obtain ⟨x, hx, heq⟩ := Option.bind_eq_some_iff.1 hh
  cases heq
  funext b
  by_cases hb : b = c
  · simp [kindOf, hb, hx, hf]
  · simp [kindOf, hb]

theorem newContext_kindOf (hh : h.newContext c kind = some h') :
    h.Grows h' ∧ h'.kindOf c = some kind := by
  unfold newContext at hh
  split at hh
  case isTrue => cases hh
  case isFalse hfresh =>
    obtain ⟨h₁, h₁_eq, heq⟩ := Option.bind_eq_some_iff.1 hh
    cases heq
    have hnone : h.contexts c = none := by simpa using hfresh
    refine ⟨fun b k hb => ?_, by simp [kindOf]⟩
    have hbc : b ≠ c := by
      rintro rfl
      simp [kindOf, hnone] at hb
    simpa [kindOf, hbc, construct_contexts h₁_eq] using hb

theorem deleteContext_grows (hh : h.deleteContext c = some h') : h'.Grows h := by
  obtain ⟨x, -, hh⟩ := Option.bind_eq_some_iff.1 hh
  obtain ⟨h₁, h₁_eq, heq⟩ := Option.bind_eq_some_iff.1 hh
  cases heq
  intro b k hb
  have hbc : b ≠ c := by
    rintro rfl
    simp [kindOf] at hb
  simpa [kindOf, hbc, destruct_contexts h₁_eq] using hb

end FileHeap

namespace FileTable

open FileHeap

variable {t t' : FileTable} {M : Multiset ContextAddr} {L : Finset ContextAddr} {fd : Int}
  {c : ContextAddr} {n : Addr} {a : Addresses} {r : Returned}

theorem addFile_pipes_eq (ht : t.addFile fd c n = some t') : t'.heap.pipes = t.heap.pipes := by
  unfold addFile at ht
  split at ht
  case isTrue => cases ht
  case isFalse =>
    obtain ⟨files, -, ht⟩ := Option.bind_eq_some_iff.1 ht
    obtain ⟨heap, hheap, ht⟩ := Option.bind_eq_some_iff.1 ht
    cases ht
    exact modify_pipes hheap

theorem storeFileContextAt_pipes {status : Error}
    (ht : t.storeFileContextAt c fd n = some (t', status)) : t'.heap.pipes = t.heap.pipes := by
  obtain ⟨contained, -, ht⟩ := Option.bind_eq_some_iff.1 ht
  cases contained with
  | true =>
      cases ht
      rfl
  | false =>
      obtain ⟨t₁, hadd, heq⟩ := Option.bind_eq_some_iff.1 ht
      cases heq
      exact addFile_pipes_eq hadd

theorem closeFileContext_kept {status : Error} (hP : t.heap.PipesCounted L)
    (ht : t.closeFileContext fd = some (t', status)) : t.heap.PipesKept t'.heap := by
  obtain ⟨b, -, ht⟩ := Option.bind_eq_some_iff.1 ht
  cases b with
  | false =>
      cases ht
      exact .refl _
  | true =>
      obtain ⟨c, -, ht⟩ := Option.bind_eq_some_iff.1 ht
      obtain ⟨files, -, ht⟩ := Option.bind_eq_some_iff.1 ht
      obtain ⟨h₁, hremove, ht⟩ := Option.bind_eq_some_iff.1 ht
      obtain ⟨count, -, ht⟩ := Option.bind_eq_some_iff.1 ht
      obtain ⟨h₂, hdelete, ht⟩ := Option.bind_eq_some_iff.1 ht
      cases ht
      have hremoved : t.heap.PipesKept h₁ := .of_eq (modify_pipes hremove)
      split at hdelete
      · exact hremoved.trans
          (deleteContext_kept (PipesCounted.modify hP hremove fun _ => rfl) hdelete)
      · cases hdelete
        exact hremoved

theorem syscallOpen_kept {ramFS : Option (List UInt8 → Bool)} {path : List UInt8}
    (hP : t.heap.PipesCounted L) (ht : t.syscallOpen a ramFS path = some (t', r)) :
    t.heap.PipesKept t'.heap := by
  cases ramFS with
  | none =>
      cases ht
      exact .refl _
  | some isFile =>
      rw [syscallOpen] at ht
      split at ht
      next =>
        cases ht
        exact .refl _
      next =>
        obtain ⟨heap, hheap, ht⟩ := Option.bind_eq_some_iff.1 ht
        obtain ⟨⟨t₁, fd⟩, hstore, ht⟩ := Option.bind_eq_some_iff.1 ht
        cases ht
        obtain ⟨-, hadd⟩ := storeFileContext_spec hstore
        exact (newContext_kept hP hheap trivial).trans (.of_eq (addFile_pipes_eq hadd))

theorem syscallFddup_kept {oldfd newfd : Int} (hP : t.heap.PipesCounted L)
    (ht : t.syscallFddup a oldfd newfd = some (t', r)) : t.heap.PipesKept t'.heap := by
  obtain ⟨old, -, ht⟩ := Option.bind_eq_some_iff.1 ht
  cases old with
  | none =>
      cases ht
      exact .refl _
  | some fc =>
      obtain ⟨occupied, -, ht⟩ := Option.bind_eq_some_iff.1 ht
      obtain ⟨⟨t₁, closed⟩, hclose, ht⟩ := Option.bind_eq_some_iff.1 ht
      have hclosed : t.heap.PipesKept t₁.heap := by
        split at hclose
        · cases hclose
          exact .refl _
        · exact closeFileContext_kept hP hclose
      dsimp only at ht
      split at ht
      next =>
        cases ht
        exact hclosed
      next =>
        obtain ⟨⟨t₂, stored⟩, hstore, ht⟩ := Option.bind_eq_some_iff.1 ht
        have hstored := hclosed.trans (.of_eq (storeFileContextAt_pipes hstore))
        dsimp only at ht
        split at ht <;>
        · cases ht
          exact hstored

/-- The calls other than `create_pipe`. -/
theorem perform_kept {call : FileCall} (hcall : call ≠ .createPipe) (hP : t.heap.PipesCounted L)
    (ht : t.perform a call = some (t', r)) : t.heap.PipesKept t'.heap := by
  cases call with
  | «open» ramFS path => exact syscallOpen_kept hP ht
  | close fd =>
      obtain ⟨⟨t₁, status⟩, hclose, hr⟩ := Option.bind_eq_some_iff.1 ht
      cases hr
      exact closeFileContext_kept hP hclose
  | fddup oldfd newfd => exact syscallFddup_kept hP ht
  | createPipe => exact absurd rfl hcall

/-- `create_pipe` constructs one pipe, with its ends. -/
theorem syscallCreatePipe_used (hP : t.heap.PipesCounted L)
    (ht : t.syscallCreatePipe a = some (t', r)) :
    (∀ q, q ≠ a.pipe → t.heap.pipes q = none → t'.heap.pipes q = none) ∧
      (t.heap.Used → t'.heap.Used) := by
  obtain ⟨heap₀, hheap₀, ht⟩ := Option.bind_eq_some_iff.1 ht
  obtain ⟨heap₁, hheap₁, ht⟩ := Option.bind_eq_some_iff.1 ht
  obtain ⟨heap₂, hheap₂, ht⟩ := Option.bind_eq_some_iff.1 ht
  obtain ⟨⟨t₁, reader⟩, hreader, ht⟩ := Option.bind_eq_some_iff.1 ht
  obtain ⟨⟨t₂, writer⟩, hwriter, ht⟩ := Option.bind_eq_some_iff.1 ht
  cases ht
  obtain ⟨hP₀, -, halive⟩ := hP.newPipe hheap₀
  obtain ⟨hP₁, halive₁⟩ := newContext_pipes hP₀ hheap₁ halive
  have hkept := newContext_kept hP₁ hheap₂ (halive₁ _ halive)
  obtain ⟨-, hadd₁⟩ := storeFileContext_spec hreader
  obtain ⟨-, hadd₂⟩ := storeFileContext_spec hwriter
  have hstored : t'.heap.pipes = heap₂.pipes :=
    (addFile_pipes_eq hadd₂).trans (addFile_pipes_eq (t := { t with heap := heap₂ }) hadd₁)
  have hother : ∀ q, q ≠ a.pipe → heap₀.pipes q = t.heap.pipes q := by
    intro q hq
    unfold newPipe at hheap₀
    split at hheap₀
    · cases hheap₀
    · cases hheap₀
      simp [hq]
  constructor
  · intro q hq hnone
    rw [hstored]
    refine hkept.pipes_none q (newContext_pipes_none hheap₁ ?_)
    rw [hother q hq, hnone]
  · intro hused q e he
    rw [hstored] at he
    refine hkept.used (fun q e he => newContext_used hP₀ hheap₁ halive he ?_) q e he
    by_cases hq : q = a.pipe
    · exact .inl (.inl (hq ▸ rfl))
    · exact .inr fun e he => hused q e (hother q hq ▸ he)

/-! ## What the contexts are -/

theorem addFile_kindOf (ht : t.addFile fd c n = some t') : t'.heap.kindOf = t.heap.kindOf := by
  unfold addFile at ht
  split at ht
  case isTrue => cases ht
  case isFalse =>
    obtain ⟨files, -, ht⟩ := Option.bind_eq_some_iff.1 ht
    obtain ⟨heap, hheap, ht⟩ := Option.bind_eq_some_iff.1 ht
    cases ht
    exact modify_kindOf hheap fun _ => rfl

theorem storeFileContextAt_kindOf {status : Error}
    (ht : t.storeFileContextAt c fd n = some (t', status)) : t'.heap.kindOf = t.heap.kindOf := by
  obtain ⟨contained, -, ht⟩ := Option.bind_eq_some_iff.1 ht
  cases contained with
  | true =>
      cases ht
      rfl
  | false =>
      obtain ⟨t₁, hadd, heq⟩ := Option.bind_eq_some_iff.1 ht
      cases heq
      exact addFile_kindOf hadd

theorem closeFileContext_grows {status : Error}
    (ht : t.closeFileContext fd = some (t', status)) : t'.heap.Grows t.heap := by
  obtain ⟨b, -, ht⟩ := Option.bind_eq_some_iff.1 ht
  cases b with
  | false =>
      cases ht
      exact .of_eq rfl
  | true =>
      obtain ⟨c, -, ht⟩ := Option.bind_eq_some_iff.1 ht
      obtain ⟨files, -, ht⟩ := Option.bind_eq_some_iff.1 ht
      obtain ⟨h₁, hremove, ht⟩ := Option.bind_eq_some_iff.1 ht
      obtain ⟨count, -, ht⟩ := Option.bind_eq_some_iff.1 ht
      obtain ⟨h₂, hdelete, ht⟩ := Option.bind_eq_some_iff.1 ht
      cases ht
      have hremoved : h₁.Grows t.heap := .of_eq (modify_kindOf hremove fun _ => rfl).symm
      split at hdelete
      · exact (deleteContext_grows hdelete).trans hremoved
      · cases hdelete
        exact hremoved

theorem syscallOpen_grows {ramFS : Option (List UInt8 → Bool)} {path : List UInt8}
    (ht : t.syscallOpen a ramFS path = some (t', r)) : t.heap.Grows t'.heap := by
  cases ramFS with
  | none =>
      cases ht
      exact .of_eq rfl
  | some isFile =>
      rw [syscallOpen] at ht
      split at ht
      next =>
        cases ht
        exact .of_eq rfl
      next =>
        obtain ⟨heap, hheap, ht⟩ := Option.bind_eq_some_iff.1 ht
        obtain ⟨⟨t₁, fd⟩, hstore, ht⟩ := Option.bind_eq_some_iff.1 ht
        cases ht
        obtain ⟨-, hadd⟩ := storeFileContext_spec hstore
        exact (newContext_kindOf hheap).1.trans (.of_eq (addFile_kindOf hadd))

theorem syscallCreatePipe_grows (ht : t.syscallCreatePipe a = some (t', r)) :
    t.heap.Grows t'.heap := by
  obtain ⟨heap₀, hheap₀, ht⟩ := Option.bind_eq_some_iff.1 ht
  obtain ⟨heap₁, hheap₁, ht⟩ := Option.bind_eq_some_iff.1 ht
  obtain ⟨heap₂, hheap₂, ht⟩ := Option.bind_eq_some_iff.1 ht
  obtain ⟨⟨t₁, reader⟩, hreader, ht⟩ := Option.bind_eq_some_iff.1 ht
  obtain ⟨⟨t₂, writer⟩, hwriter, ht⟩ := Option.bind_eq_some_iff.1 ht
  cases ht
  have hnew : heap₀.kindOf = t.heap.kindOf := by
    unfold newPipe at hheap₀
    split at hheap₀ <;> cases hheap₀
    rfl
  obtain ⟨-, hadd₁⟩ := storeFileContext_spec hreader
  obtain ⟨-, hadd₂⟩ := storeFileContext_spec hwriter
  have hstored : t'.heap.kindOf = heap₂.kindOf :=
    (addFile_kindOf hadd₂).trans (addFile_kindOf (t := { t with heap := heap₂ }) hadd₁)
  exact (Grows.of_eq hnew).trans ((newContext_kindOf hheap₁).1.trans
    ((newContext_kindOf hheap₂).1.trans (.of_eq hstored)))

theorem syscallFddup_grows {oldfd newfd : Int}
    (ht : t.syscallFddup a oldfd newfd = some (t', r)) : t'.heap.Grows t.heap := by
  obtain ⟨old, -, ht⟩ := Option.bind_eq_some_iff.1 ht
  cases old with
  | none =>
      cases ht
      exact .of_eq rfl
  | some fc =>
      obtain ⟨occupied, -, ht⟩ := Option.bind_eq_some_iff.1 ht
      obtain ⟨⟨t₁, closed⟩, hclose, ht⟩ := Option.bind_eq_some_iff.1 ht
      have hclosed : t₁.heap.Grows t.heap := by
        split at hclose
        · cases hclose
          exact .of_eq rfl
        · exact closeFileContext_grows hclose
      dsimp only at ht
      split at ht
      next =>
        cases ht
        exact hclosed
      next =>
        obtain ⟨⟨t₂, stored⟩, hstore, ht⟩ := Option.bind_eq_some_iff.1 ht
        have hstored : t₂.heap.Grows t₁.heap := .of_eq (storeFileContextAt_kindOf hstore).symm
        dsimp only at ht
        split at ht <;>
        · cases ht
          exact hstored.trans hclosed

/-- Some calls construct contexts and the others free them. -/
theorem perform_grows {call : FileCall} (ht : t.perform a call = some (t', r)) :
    t.heap.Grows t'.heap ∨ t'.heap.Grows t.heap := by
  cases call with
  | «open» ramFS path => exact .inl (syscallOpen_grows ht)
  | close fd =>
      obtain ⟨⟨t₁, status⟩, hclose, hr⟩ := Option.bind_eq_some_iff.1 ht
      cases hr
      exact .inr (closeFileContext_grows hclose)
  | fddup oldfd newfd => exact .inr (syscallFddup_grows ht)
  | createPipe => exact .inl (syscallCreatePipe_grows ht)

end FileTable

end CrosKernel.Sched
