import CrosKernel.Containers.TreeIterator
import CrosKernel.Sched.PipeEnds
import Mathlib.Algebra.Order.Group.Multiset

/-!
# References to file contexts

`References t M` says that the counters of the file contexts are exact when the descriptors of one
process are those of `t` and all other descriptors name the contexts `M`. The system calls on the
descriptors of one process keep this, and they follow no pointer of a freed context, with one
exception: `fddup` of a descriptor onto itself closes it first.
-/

namespace CrosKernel.Sched

open Containers BinarySearchTree Lib

namespace FileTable

/-- The contexts that the descriptors name, one for each descriptor. -/
def named (t : FileTable) : List ContextAddr := t.files.pairs.map Prod.snd

/-- The counters are exact for the descriptors of `t` and the references `M`. -/
structure References (t : FileTable) (M : Multiset ContextAddr) : Prop where
  holds : ∃ F, Holds t.files F
  counts : Counts t.heap.getRefCount (t.named + M)
  pipes : ∃ L, t.heap.PipesCounted L

variable {t t' : FileTable} {M : Multiset ContextAddr} {F : List (Entry Int ContextAddr)}
  {fd : Int} {c : ContextAddr} {n : Addr}

theorem named_eq (h : Holds t.files F) : t.named = F.map Entry.value := by
  rw [named, h.pairs_eq, List.map_map]
  rfl

theorem named_addFile (h : Holds t.files F) (ht : t.addFile fd c n = some t') :
    (t'.named : Multiset ContextAddr) = c ::ₘ (t.named : Multiset ContextAddr) := by
  obtain ⟨F', m, hF', ⟨A, B, rfl, rfl, -⟩, -⟩ := addFile_spec h ht
  rw [named_eq hF', named_eq h, List.map_append, List.map_append, List.map_cons]
  exact Multiset.coe_eq_coe.2 List.perm_middle

theorem addFile_pipes {L : Finset ContextAddr} (hP : t.heap.PipesCounted L)
    (ht : t.addFile fd c n = some t') : t'.heap.PipesCounted L := by
  unfold addFile at ht
  split at ht
  case isTrue => cases ht
  case isFalse =>
    obtain ⟨files, -, ht⟩ := Option.bind_eq_some_iff.1 ht
    obtain ⟨heap, hheap, ht⟩ := Option.bind_eq_some_iff.1 ht
    cases ht
    exact FileHeap.PipesCounted.modify hP hheap fun _ => rfl

/-- A further descriptor for a context. -/
theorem References.addFile (h : References t M) (ht : t.addFile fd c n = some t') :
    References t' M := by
  obtain ⟨F, hF⟩ := h.holds
  obtain ⟨L, hP⟩ := h.pipes
  obtain ⟨F', m, hF', hins, hm, hcounts⟩ := addFile_spec hF ht
  refine ⟨⟨F', hF'⟩, ?_, ⟨L, addFile_pipes hP ht⟩⟩
  rw [hcounts, named_addFile hF ht, Multiset.cons_add]
  exact h.counts.acquire hm

theorem closeFileContext_pipes {L : Finset ContextAddr} {status : Error}
    (hP : t.heap.PipesCounted L) (ht : t.closeFileContext fd = some (t', status)) :
    ∃ L', t'.heap.PipesCounted L' := by
  obtain ⟨b, -, ht⟩ := Option.bind_eq_some_iff.1 ht
  cases b with
  | false =>
      cases ht
      exact ⟨L, hP⟩
  | true =>
      obtain ⟨c, -, ht⟩ := Option.bind_eq_some_iff.1 ht
      obtain ⟨files, -, ht⟩ := Option.bind_eq_some_iff.1 ht
      obtain ⟨h₁, hremove, ht⟩ := Option.bind_eq_some_iff.1 ht
      obtain ⟨count, -, ht⟩ := Option.bind_eq_some_iff.1 ht
      obtain ⟨h₂, hdelete, ht⟩ := Option.bind_eq_some_iff.1 ht
      cases ht
      have hP₁ := FileHeap.PipesCounted.modify hP hremove fun _ => rfl
      split at hdelete
      · obtain ⟨x, hx, -⟩ := Option.bind_eq_some_iff.1 hdelete
        obtain ⟨h₃, h₃_eq, hP₃⟩ := FileHeap.deleteContext_spec hP₁ hx
        obtain rfl := Option.some.inj (h₃_eq.symm.trans hdelete)
        exact ⟨_, hP₃⟩
      · cases hdelete
        exact ⟨L, hP₁⟩

/-- A descriptor less. -/
theorem References.closeFileContext {status : Error} (h : References t M)
    (ht : t.closeFileContext fd = some (t', status)) : References t' M := by
  obtain ⟨F, hF⟩ := h.holds
  obtain ⟨L, hP⟩ := h.pipes
  rcases closeFileContext_spec hF ht with ⟨-, rfl, -⟩ |
    ⟨A, e, B, F', m, -, rfl, -, hF', hpairs, hm, hcounts, -⟩
  · exact h
  · have hnamed : (t.named : Multiset ContextAddr) =
        e.value ::ₘ (t'.named : Multiset ContextAddr) := by
      have hvalues := congrArg (List.map Prod.snd) hpairs
      rw [← List.map_append, List.map_map, List.map_map] at hvalues
      rw [named_eq hF, named_eq hF',
        show F'.map Entry.value = (A ++ B).map Entry.value from hvalues,
        List.map_append, List.map_append, List.map_cons]
      exact Multiset.coe_eq_coe.2 List.perm_middle
    refine ⟨⟨F', hF'⟩, ?_, closeFileContext_pipes hP ht⟩
    rw [hcounts]
    have hold := h.counts
    rw [hnamed, Multiset.cons_add] at hold
    exact hold.drop hm

/-- A new context under a further descriptor. -/
theorem References.addNew {heap : FileHeap} {kind : ContextKind} (h : References t M)
    (hheap : t.heap.newContext c kind = some heap) (halive : t.heap.PipeAlive kind)
    (ht : FileTable.addFile { t with heap := heap } fd c n = some t') : References t' M := by
  obtain ⟨F, hF⟩ := h.holds
  obtain ⟨L, hP⟩ := h.pipes
  obtain ⟨hnone, hnew⟩ := FileHeap.newContext_counts hheap
  obtain ⟨F', m, hF', -, hm, hcounts⟩ := addFile_spec (t := { t with heap := heap }) hF ht
  obtain rfl : m = 0 := by simpa [hnew] using hm.symm
  have hnamed := named_addFile (t := { t with heap := heap }) hF ht
  have hP' := FileHeap.newContext_pipes hP hheap halive
  refine ⟨⟨F', hF'⟩, ?_, _, addFile_pipes hP'.1 ht⟩
  rw [hcounts, hnew, Function.update_idem, hnamed, Multiset.cons_add]
  exact h.counts.create hnone

theorem References.open {a : Addresses} {ramFS : Option (List UInt8 → Bool)} {path : List UInt8}
    {r : Returned} (h : References t M) (ht : t.syscallOpen a ramFS path = some (t', r)) :
    References t' M := by
  cases ramFS with
  | none =>
      cases ht
      exact h
  | some isFile =>
      by_cases hfile : isFile path = true
      · simp only [syscallOpen, hfile, Bool.not_true, Bool.false_eq_true, if_false] at ht
        obtain ⟨heap, hheap, ht⟩ := Option.bind_eq_some_iff.1 ht
        obtain ⟨⟨t₁, fd⟩, hstore, ht⟩ := Option.bind_eq_some_iff.1 ht
        cases ht
        obtain ⟨-, hadd⟩ := storeFileContext_spec hstore
        exact h.addNew hheap trivial hadd
      · simp only [syscallOpen, hfile, Bool.not_false, if_true] at ht
        cases ht
        exact h

theorem References.createPipe {a : Addresses} {r : Returned} (h : References t M)
    (ht : t.syscallCreatePipe a = some (t', r)) : References t' M := by
  obtain ⟨heap₀, hheap₀, ht⟩ := Option.bind_eq_some_iff.1 ht
  obtain ⟨heap₁, hheap₁, ht⟩ := Option.bind_eq_some_iff.1 ht
  obtain ⟨heap₂, hheap₂, ht⟩ := Option.bind_eq_some_iff.1 ht
  obtain ⟨⟨t₁, reader⟩, hreader, ht⟩ := Option.bind_eq_some_iff.1 ht
  obtain ⟨⟨t₂, writer⟩, hwriter, ht⟩ := Option.bind_eq_some_iff.1 ht
  cases ht
  obtain ⟨F, hF⟩ := h.holds
  obtain ⟨L, hP⟩ := h.pipes
  -- the pipe with its two ends, which nothing refers to yet
  obtain ⟨hP₀, hcontexts₀, halive⟩ := hP.newPipe hheap₀
  obtain ⟨hP₁, halive₁⟩ := FileHeap.newContext_pipes hP₀ hheap₁ halive
  obtain ⟨hP₂, -⟩ := FileHeap.newContext_pipes hP₁ hheap₂ (halive₁ _ halive)
  have hcounts₀ : heap₀.getRefCount = t.heap.getRefCount := by
    funext b
    simp [FileHeap.getRefCount, hcontexts₀]
  obtain ⟨hnone₁, hnew₁⟩ := FileHeap.newContext_counts hheap₁
  obtain ⟨hnone₂, hnew₂⟩ := FileHeap.newContext_counts hheap₂
  rw [hcounts₀] at hnone₁ hnew₁
  have hne : a.context' ≠ a.context := by
    rintro heq
    simp [hnew₁, heq] at hnone₂
  rw [hnew₁, Function.update_of_ne hne] at hnone₂
  -- the two descriptors
  obtain ⟨-, hadd₁⟩ := storeFileContext_spec hreader
  obtain ⟨-, hadd₂⟩ := storeFileContext_spec hwriter
  obtain ⟨F₁, m₁, hF₁, -, hm₁, hcounts₁⟩ := addFile_spec (t := { t with heap := heap₂ }) hF hadd₁
  obtain ⟨F₂, m₂, hF₂, -, hm₂, hcounts₂⟩ := addFile_spec hF₁ hadd₂
  obtain rfl : m₁ = 0 := by simpa [hnew₁, hnew₂, hne.symm] using hm₁.symm
  obtain rfl : m₂ = 0 := by simpa [hcounts₁, hnew₂, hne] using hm₂.symm
  have hnamed₁ := named_addFile (t := { t with heap := heap₂ }) hF hadd₁
  have hnamed₂ := named_addFile hF₁ hadd₂
  refine ⟨⟨F₂, hF₂⟩, ?_, _,
    addFile_pipes (addFile_pipes (t := { t with heap := heap₂ }) hP₂ hadd₁) hadd₂⟩
  have hcounts : t'.heap.getRefCount = Function.update (Function.update t.heap.getRefCount
      a.context (some 1)) a.context' (some 1) := by
    rw [hcounts₂, hcounts₁]
    show Function.update (Function.update heap₂.getRefCount _ _) _ _ = _
    rw [hnew₂, hnew₁, Function.update_comm hne, Function.update_idem, Function.update_idem]
    rfl
  rw [hcounts, hnamed₂, hnamed₁, Multiset.cons_add, Multiset.cons_add]
  exact (h.counts.create hnone₁).create (by rwa [Function.update_of_ne hne])

theorem References.fddup {a : Addresses} {oldfd newfd : Int} {r : Returned} (h : References t M)
    (ht : t.syscallFddup a oldfd newfd = some (t', r)) : References t' M := by
  obtain ⟨old, -, ht⟩ := Option.bind_eq_some_iff.1 ht
  cases old with
  | none =>
      cases ht
      exact h
  | some fc =>
      obtain ⟨occupied, -, ht⟩ := Option.bind_eq_some_iff.1 ht
      obtain ⟨⟨t₁, closed⟩, hclose, ht⟩ := Option.bind_eq_some_iff.1 ht
      have h₁ : References t₁ M := by
        split at hclose
        · cases hclose
          exact h
        · exact h.closeFileContext hclose
      dsimp only at ht
      by_cases hclosed : closed = .ENONE
      · rw [if_neg (not_not.2 hclosed)] at ht
        obtain ⟨⟨t₂, status⟩, hstore, ht⟩ := Option.bind_eq_some_iff.1 ht
        obtain ⟨F, hF⟩ := h₁.holds
        have h₂ : References t₂ M := by
          rcases storeFileContextAt_spec hF hstore with ⟨-, rfl, -⟩ | ⟨-, hadd, -⟩
          exacts [h₁, h₁.addFile hadd]
        dsimp only at ht
        by_cases hstatus : status = .ENONE
        · rw [if_neg (not_not.2 hstatus)] at ht
          cases ht
          exact h₂
        · rw [if_pos hstatus] at ht
          cases ht
          exact h₂
      · rw [if_pos hclosed] at ht
        cases ht
        exact h₁

/-- The system calls on descriptors keep the counters exact. -/
theorem References.perform {a : Addresses} {call : FileCall} {r : Returned} (h : References t M)
    (ht : t.perform a call = some (t', r)) : References t' M := by
  cases call with
  | «open» ramFS path => exact h.open ht
  | close fd =>
      obtain ⟨⟨t₁, status⟩, hclose, hr⟩ := Option.bind_eq_some_iff.1 ht
      cases hr
      exact h.closeFileContext hclose
  | fddup oldfd newfd => exact h.fddup ht
  | createPipe => exact h.createPipe ht

/-! ## No call follows the pointer of a freed context -/

/-- None of the addresses is in use. -/
structure Fresh (t : FileTable) (a : Addresses) : Prop where
  pipe : t.heap.pipes a.pipe = none
  context : t.heap.contexts a.context = none
  context' : t.heap.contexts a.context' = none
  context_ne : a.context ≠ a.context'
  node : t.files.nodes a.node = none
  node' : t.files.nodes a.node' = none
  node_ne : a.node ≠ a.node'

/-- `fddup` of a descriptor onto itself is not called on the only reference to a context. (The
second entry of a descriptor that was handed out twice would stay open.) -/
def KeepsOpen (t : FileTable) : FileCall → Prop
  | .fddup oldfd newfd => oldfd = newfd → ∀ c, t.getFileContext oldfd = some (some c) →
      t.heap.getRefCount c = some 1 → (t.files.pairs.map Prod.fst).count oldfd ≠ 1
  | _ => True

theorem References.alive (h : References t M) (hc : c ∈ t.named ∨ c ∈ M) :
    t.heap.contexts c ≠ none := by
  obtain ⟨n, hn⟩ := h.counts.alive c (by simpa using hc)
  intro hnone
  simp [FileHeap.getRefCount, hnone] at hn

theorem References.mem_named {e : Entry Int ContextAddr} (hF : Holds t.files F) (he : e ∈ F) :
    e.value ∈ t.named := by
  rw [named_eq hF]
  exact List.mem_map_of_mem he

theorem addFile_ne_none (hF : Holds t.files F) (fd : Int) (hn : t.files.nodes n = none)
    (hc : t.heap.contexts c ≠ none) : t.addFile fd c n ≠ none := by
  obtain ⟨files, F', hfiles, -⟩ := hF.insert ⟨n, fd, c⟩ hn
  obtain ⟨x, hx⟩ := Option.ne_none_iff_exists'.1 hc
  simp [addFile, hn, show t.files.insert fd c n = some files from hfiles, FileHeap.addReference,
    FileHeap.modify, hx]

theorem storeFileContextAt_ne_none (hF : Holds t.files F) (hn : t.files.nodes n = none)
    (hc : (∀ e ∈ F, e.key ≠ fd) → t.heap.contexts c ≠ none) :
    t.storeFileContextAt c fd n ≠ none := by
  obtain ⟨b, hb, hiff⟩ := hF.contains fd
  cases b with
  | true => simp [storeFileContextAt, hb]
  | false =>
      have habsent : ∀ e ∈ F, e.key ≠ fd := fun e he hkey => by cases hiff.2 ⟨e, he, hkey⟩
      obtain ⟨t', ht'⟩ := Option.ne_none_iff_exists'.1 (addFile_ne_none hF fd hn (hc habsent))
      simp [storeFileContextAt, hb, ht']

theorem References.closeFileContext_ne_none (h : References t M) (fd : Int) :
    t.closeFileContext fd ≠ none := by
  obtain ⟨F, hF⟩ := h.holds
  obtain ⟨L, hP⟩ := h.pipes
  obtain ⟨b, hb, hiff⟩ := hF.contains fd
  cases b with
  | false => simp [FileTable.closeFileContext, hb]
  | true =>
      obtain ⟨A, e, B, files, F', rfl, -, hget, hremove, -⟩ := hF.remove_found (hiff.1 rfl)
      obtain ⟨x, hx⟩ := Option.ne_none_iff_exists'.1
        (h.alive (.inl (mem_named hF (e := e) (by simp))))
      have hremoved : t.heap.removeReference e.value = some (t.heap.setContext e.value
          (some { x with refcount := x.refcount - 1 })) := by
        simp [FileHeap.removeReference, FileHeap.modify, hx]
      have hP₁ := FileHeap.PipesCounted.modify hP hremoved fun _ => rfl
      obtain ⟨heap, hdelete, -⟩ := FileHeap.deleteContext_spec hP₁ (c := e.value) (by simp; rfl)
      have hcount := congrFun (FileHeap.getRefCount_setContext t.heap e.value
        (some { x with refcount := x.refcount - 1 })) e.value
      rw [Function.update_self] at hcount
      by_cases hzero : x.refcount - 1 ≤ 0
      · simp [FileTable.closeFileContext, hb, hget, hremove, hremoved, hcount, hzero, hdelete]
      · simp [FileTable.closeFileContext, hb, hget, hremove, hremoved, hcount, hzero]

/-- Closing `newfd` leaves the context of an open descriptor alive, unless it was the only reference
and `newfd` the descriptor itself. -/
theorem References.alive_after_close {newfd : Int} {e : Entry Int ContextAddr} (h : References t M)
    (hF : Holds t.files F) (he : e ∈ F) (hget : t.getFileContext e.key = some (some e.value))
    (hsafe : KeepsOpen t (.fddup e.key newfd)) (ht : t.closeFileContext newfd = some (t', .ENONE))
    (habsent : newfd ∉ t'.files.pairs.map Prod.fst) : t'.heap.contexts e.value ≠ none := by
  have h' := h.closeFileContext ht
  rcases closeFileContext_spec hF ht with ⟨hstatus, -⟩ |
    ⟨A, e', B, F', m, -, rfl, hkey', hF', hpairs, hm, -, hget', -⟩
  · cases hstatus
  have hnamed : t'.named = A.map Entry.value ++ B.map Entry.value := by
    rw [named, hF'.pairs_eq, hpairs]
    simp [Entry.pair, Function.comp_def]
  by_cases hkey : e.key = newfd
  · -- the context was closed, so it has another reference
    obtain ⟨b, hb, hfound⟩ := Option.bind_eq_some_iff.1 hget
    have hvalue : e.value = e'.value := by
      cases b with
      | false => cases hfound
      | true => simpa [hkey, hget', eq_comm] using hfound
    have hone : ((A ++ e' :: B).map Entry.key).count newfd = 1 := by
      have hout : newfd ∉ (A ++ B).map Entry.key := by
        rw [hF'.pairs_eq, hpairs] at habsent
        simpa [Entry.pair, Function.comp_def] using habsent
      have hperm : (A ++ e' :: B).Perm (e' :: (A ++ B)) := List.perm_middle
      rw [(hperm.map Entry.key).count_eq, List.map_cons, hkey', List.count_cons_self,
        List.count_eq_zero.2 hout]
    have hne : m ≠ 1 := by
      rintro rfl
      refine hsafe hkey e.value hget (hvalue ▸ hm) ?_
      rw [hF.pairs_eq, List.map_map, hkey]
      exact hone
    have hcount := h.counts.count_eq _ _ hm
    have hperm : (t.named : Multiset ContextAddr) =
        e'.value ::ₘ (t'.named : Multiset ContextAddr) := by
      rw [named_eq hF, hnamed, List.map_append, List.map_cons]
      exact Multiset.coe_eq_coe.2 List.perm_middle
    rw [hperm, Multiset.cons_add, Multiset.count_cons_self] at hcount
    have hmem : e.value ∈ (t'.named : Multiset ContextAddr) + M := by
      rw [hvalue, ← Multiset.count_pos]
      omega
    exact h'.alive (by simpa using hmem)
  · -- another descriptor was closed
    refine h'.alive (.inl ?_)
    have hne : e ≠ e' := fun heq => hkey (heq ▸ hkey')
    rw [hnamed, ← List.map_append]
    simp only [List.mem_append, List.mem_cons] at he
    exact List.mem_map_of_mem (List.mem_append.2 (by tauto))

theorem References.fddup_ne_none {a : Addresses} {oldfd newfd : Int} (h : References t M)
    (ha : Fresh t a) (hsafe : KeepsOpen t (.fddup oldfd newfd)) :
    t.syscallFddup a oldfd newfd ≠ none := by
  obtain ⟨F, hF⟩ := h.holds
  rcases getFileContext_spec hF oldfd with ⟨hold, -⟩ | ⟨e, he, rfl, hold⟩
  · simp [syscallFddup, hold]
  have hstore : ∀ {t₁ : FileTable}, (∃ F₁, Holds t₁.files F₁) → t₁.files.nodes a.node = none →
      (newfd ∉ t₁.files.pairs.map Prod.fst → t₁.heap.contexts e.value ≠ none) →
      ∃ t₂ status, t₁.storeFileContextAt e.value newfd a.node = some (t₂, status) := by
    rintro t₁ ⟨F₁, hF₁⟩ hnode halive
    obtain ⟨⟨t₂, status⟩, ht₂⟩ := Option.ne_none_iff_exists'.1
      (storeFileContextAt_ne_none hF₁ hnode fun habsent => halive (by
        rw [hF₁.pairs_eq]
        simpa [Entry.pair, Function.comp_def] using habsent))
    exact ⟨t₂, status, ht₂⟩
  rcases getFileContext_spec hF newfd with ⟨hnew, -⟩ | ⟨e', -, -, hnew⟩
  · obtain ⟨t₂, status, ht₂⟩ := hstore h.holds ha.node fun _ => h.alive (.inl (mem_named hF he))
    by_cases hstatus : status = .ENONE <;> simp [syscallFddup, hold, hnew, ht₂, hstatus]
  · obtain ⟨⟨t₁, closed⟩, ht₁⟩ := Option.ne_none_iff_exists'.1 (h.closeFileContext_ne_none newfd)
    by_cases hclosed : closed = .ENONE
    · subst hclosed
      have hnode : t₁.files.nodes a.node = none := by
        rcases closeFileContext_spec hF ht₁ with ⟨hstatus, -⟩ |
          ⟨A, e', B, F', m, -, -, -, -, -, -, -, -, hnodes⟩
        · cases hstatus
        · exact hnodes _ ha.node
      obtain ⟨t₂, status, ht₂⟩ := hstore (h.closeFileContext ht₁).holds hnode
        (h.alive_after_close hF he hold hsafe ht₁)
      by_cases hstatus : status = .ENONE <;>
        simp [syscallFddup, hold, hnew, ht₁, ht₂, hstatus]
    · simp [syscallFddup, hold, hnew, ht₁, hclosed]

theorem References.open_ne_none {a : Addresses} (h : References t M) (ha : Fresh t a)
    (ramFS : Option (List UInt8 → Bool)) (path : List UInt8) :
    t.syscallOpen a ramFS path ≠ none := by
  cases ramFS with
  | none => simp [syscallOpen]
  | some isFile =>
      by_cases hfile : isFile path = true
      · obtain ⟨F, hF⟩ := h.holds
        obtain ⟨L, hP⟩ := h.pipes
        have halive : t.heap.PipeAlive (.FileContextFAT32 path 0) := trivial
        obtain ⟨heap, hheap, -, hcontexts, -⟩ := FileHeap.newContext_spec hP ha.context halive
        obtain ⟨t₁, ht₁⟩ := Option.ne_none_iff_exists'.1
          (addFile_ne_none (t := { t with heap := heap }) hF t.files.size ha.node
            (c := a.context) (by simp [hcontexts]))
        simp [syscallOpen, hfile, hheap, storeFileContext, ht₁]
      · simp [syscallOpen, hfile]

/-- An address that is not in use stays so when another one is taken. -/
theorem nodes_addFile {n' : Addr} (hF : Holds t.files F) (ht : t.addFile fd c n = some t')
    (hn' : t.files.nodes n' = none) (hne : n ≠ n') : t'.files.nodes n' = none := by
  obtain ⟨F', m, hF', ⟨A, B, rfl, rfl, -⟩, -⟩ := addFile_spec hF ht
  cases hx : t'.files.nodes n' with
  | none => rfl
  | some x =>
      have hmem : (⟨n', x.key, x.value⟩ : Entry Int ContextAddr) = ⟨n, fd, c⟩ ∨
          ⟨n', x.key, x.value⟩ ∈ A ++ B := by
        have hmem := hF'.mem_of_nodes hx
        simp only [List.mem_append, List.mem_cons] at hmem ⊢
        tauto
      rcases hmem with heq | hmem
      · exact absurd (congrArg Entry.id heq).symm hne
      · obtain ⟨y, hy, -⟩ := hF.exists_node hmem
        rw [show Entry.id _ = n' from rfl, hn'] at hy
        cases hy

theorem References.createPipe_ne_none {a : Addresses} (h : References t M) (ha : Fresh t a) :
    t.syscallCreatePipe a ≠ none := by
  obtain ⟨F, hF⟩ := h.holds
  obtain ⟨L, hP⟩ := h.pipes
  have hpipe : t.heap.newPipe a.pipe = some (t.heap.setPipe a.pipe (some ⟨0, 0⟩)) := by
    simp [FileHeap.newPipe, ha.pipe]
  obtain ⟨hP₀, hcontexts₀, halive⟩ := hP.newPipe hpipe
  have hreader : (t.heap.setPipe a.pipe (some ⟨0, 0⟩)).PipeAlive (.PipeReader a.pipe) := halive
  obtain ⟨heap₁, hheap₁, hP₁, hcontexts₁, hpipes₁⟩ :=
    FileHeap.newContext_spec hP₀ (c := a.context) (by simp [ha.context]) hreader
  have hwriter : heap₁.PipeAlive (.PipeWriter a.pipe) := hpipes₁ _ halive
  obtain ⟨heap₂, hheap₂, -, hcontexts₂, -⟩ := FileHeap.newContext_spec hP₁ (c := a.context')
    (by simp [hcontexts₁, ha.context_ne.symm, ha.context']) hwriter
  obtain ⟨t₁, ht₁⟩ := Option.ne_none_iff_exists'.1
    (addFile_ne_none (t := { t with heap := heap₂ }) hF t.files.size ha.node (c := a.context)
      (by simp [hcontexts₂, hcontexts₁, ha.context_ne]))
  obtain ⟨F₁, m, hF₁, -, -, hcounts₁⟩ := addFile_spec (t := { t with heap := heap₂ }) hF ht₁
  have halive₁ : t₁.heap.contexts a.context' ≠ none := by
    have hcount := congrFun hcounts₁ a.context'
    rw [Function.update_of_ne ha.context_ne.symm] at hcount
    intro hnone
    simp [FileHeap.getRefCount, hnone, hcontexts₂] at hcount
  obtain ⟨t₂, ht₂⟩ := Option.ne_none_iff_exists'.1 (addFile_ne_none hF₁ t₁.files.size
    (nodes_addFile (t := { t with heap := heap₂ }) hF ht₁ ha.node' ha.node_ne) halive₁)
  simp [syscallCreatePipe, hpipe, hheap₁, hheap₂, storeFileContext, ht₁, ht₂]

/-- No system call on descriptors follows the pointer of a freed context. -/
theorem References.perform_ne_none {a : Addresses} {call : FileCall} (h : References t M)
    (ha : Fresh t a) (hsafe : KeepsOpen t call) : t.perform a call ≠ none := by
  cases call with
  | «open» ramFS path => exact h.open_ne_none ha ramFS path
  | close fd =>
      obtain ⟨⟨t₁, status⟩, ht₁⟩ := Option.ne_none_iff_exists'.1 (h.closeFileContext_ne_none fd)
      simp [FileTable.perform, syscallClose, ht₁]
  | fddup oldfd newfd => exact h.fddup_ne_none ha hsafe
  | createPipe => exact h.createPipe_ne_none ha

end FileTable

end CrosKernel.Sched
