import CrosKernel.Containers.TreeSession
import CrosKernel.Kernel.Schedule

/-!
# What the parts of a system call do

`View` is the kernel without its heaps: the entries of the process table, the process pointers in
the queue and the running one. `Views k v` connects it to the state of the code. One lemma for each
part of a system call says how it changes the view, and `step_effect` puts them together: every
event of the kernel makes one of the moves of `Effect` on the schedule of the view.
-/

namespace CrosKernel

open Containers Sched Lib BinarySearchTree

/-- The kernel without its heaps. -/
structure View where
  entries : List (Entry Pid Process)
  queue : List ProcessRef
  cur : Option ProcessRef

/-- The process of an entry, as the scheduler sees it. -/
def slot (e : Entry Pid Process) : Slot := ⟨e.id, e.key, e.value.state⟩

/-- The schedule of a view. -/
def View.schedule (v : View) : Schedule := ⟨v.entries.map slot, v.queue, v.cur⟩

/-- The state `k` has the view `v`. Processes are stored under their pids, and no signal kills
one. -/
structure Views (k : Kernel) (v : View) : Prop where
  table : Holds k.processTable v.entries
  queue : k.scheduler.Lists v.queue
  cur : k.scheduler.cur_Process = v.cur
  key_eq : ∀ e ∈ v.entries, e.value.pid = e.key
  noKill : ∀ e ∈ v.entries, e.value.NoKill

theorem Views.scheduled_eq {k : Kernel} {v : View} (h : Views k v) :
    k.scheduler.scheduled = v.schedule.scheduled := by
  rw [h.queue.scheduled_eq, h.cur]
  rfl

/-- A pointer into the process table points to the process of an entry. -/
theorem Views.exists_entry {k : Kernel} {v : View} {p : Addr} {x : Process} (h : Views k v)
    (hp : k.process p = some x) : ∃ e ∈ v.entries, e.id = p ∧ e.value = x := by
  obtain ⟨n, hn, rfl⟩ := Option.map_eq_some_iff.1 hp
  exact ⟨_, h.table.mem_of_nodes hn, rfl, rfl⟩

theorem Views.process_eq {k : Kernel} {v : View} {e : Entry Pid Process} (h : Views k v)
    (he : e ∈ v.entries) : k.process e.id = some e.value := by
  obtain ⟨n, hn, -, hvalue⟩ := h.table.exists_node he
  simp [Kernel.process, hn, hvalue]

namespace View

/-- Another process in the entry at `p`. -/
def setProcess (v : View) (p : Addr) (x : Process) : View :=
  { v with entries := v.entries.map (setValue p x) }

/-- A process pointer more at the end of the queue. -/
def enqueue (v : View) (r : ProcessRef) : View := { v with queue := v.queue ++ [r] }

/-- No running process. -/
def sleep (v : View) : View := { v with cur := none }

theorem schedule_setProcess (v : View) (p : Addr) (x : Process) :
    (v.setProcess p x).schedule = v.schedule.setState p x.state := by
  simp only [schedule, setProcess, Schedule.setState, List.map_map, Schedule.mk.injEq, and_true]
  refine List.map_congr_left fun e _ => ?_
  by_cases hid : e.id = p <;> simp [slot, setValue, hid]

/-- Assignments that keep the state of a process do not show in the schedule. -/
theorem schedule_setProcess_self {v : View} {e : Entry Pid Process} {x : Process}
    (hnodup : (v.entries.map Entry.id).Nodup) (he : e ∈ v.entries) (hx : x.state = e.value.state) :
    (v.setProcess e.id x).schedule = v.schedule := by
  simp only [schedule, setProcess, List.map_map, Schedule.mk.injEq, and_true]
  refine List.map_congr_left fun y hy => ?_
  by_cases hid : y.id = e.id
  · obtain rfl := List.inj_on_of_nodup_map hnodup hy he hid
    simp [slot, setValue, hx]
  · simp [slot, setValue, hid]

theorem mem_slots {v : View} {e : Entry Pid Process} (he : e ∈ v.entries) :
    slot e ∈ v.schedule.slots := List.mem_map_of_mem he

end View

namespace Kernel

variable {k k' : Kernel} {v : View} {a : NodeAddr} {b : Addr}

theorem init_views : Views init ⟨[], [], none⟩ where
  table := .empty
  queue := Queue.init_lists
  cur := rfl
  key_eq _ h := nomatch h
  noKill _ h := nomatch h

/-- Two states whose process tables have the same shape. -/
abbrev SameTable (k k' : Kernel) : Prop := SameShape k.processTable k'.processTable

theorem setProcess_views {e : Entry Pid Process} {x : Process} (h : Views k v)
    (he : e ∈ v.entries) (hpid : x.pid = e.value.pid) (hkill : x.NoKill) :
    ∃ k', k.setProcess e.id x = some k' ∧ Views k' (v.setProcess e.id x) ∧ SameTable k k' ∧
      k'.scheduler = k.scheduler ∧ k'.currPid = k.currPid := by
  obtain ⟨n, hn, hkey, hvalue⟩ := h.table.exists_node he
  refine ⟨{ k with processTable := { k.processTable with
      nodes := Function.update k.processTable.nodes e.id (some { n with value := x }) } },
    by simp [setProcess, modify_eq hn], ⟨h.table.set_value x hn, h.queue, h.cur, ?_, ?_⟩,
    sameShape_set_value x hn, rfl, rfl⟩
  all_goals
    intro y hy
    obtain ⟨z, hz, rfl⟩ := List.mem_map.1 hy
    by_cases hid : z.id = e.id
    · obtain rfl := List.inj_on_of_nodup_map h.table.nodup hz he hid
      simp [setValue, hpid, hkill, h.key_eq z hz]
    · simp [setValue, hid, h.key_eq z hz, h.noKill z hz]

/-- Assigning to the active process. -/
theorem updateActive_views {f : Process → Option Process} (h : Views k v)
    (hf : ∀ p p', f p = some p' → p'.pid = p.pid ∧ (p.NoKill → p'.NoKill))
    (hk : k.updateActive f = some k') :
    ∃ r e p', v.cur = some r ∧ e ∈ v.entries ∧ e.id = r.node ∧ f e.value = some p' ∧
      Views k' (v.setProcess r.node p') ∧ SameTable k k' ∧ k'.scheduler = k.scheduler ∧
      k'.currPid = k.currPid := by
  obtain ⟨r, hr, hk₁⟩ := Option.bind_eq_some_iff.1 hk
  obtain ⟨p, hp, hk₂⟩ := Option.bind_eq_some_iff.1 hk₁
  obtain ⟨p', hp', hk₃⟩ := Option.bind_eq_some_iff.1 hk₂
  obtain ⟨e, he, hid, rfl⟩ := h.exists_entry hp
  obtain ⟨hpid, hkill⟩ := hf _ _ hp'
  obtain ⟨k'', hk'', hviews, hshape, hsched, hcurr⟩ :=
    setProcess_views h he hpid (hkill (h.noKill e he))
  rw [hid] at hk'' hviews
  obtain rfl := Option.some.inj (hk''.symm.trans hk₃)
  exact ⟨r, e, p', h.cur ▸ hr, he, hid, hp', hviews, hshape, hsched, hcurr⟩

/-- `sched_next` takes the first process when the running one is at the end of the queue. -/
theorem schedNext_views {q : Queue ProcessRef} (h : Views k v)
    (hfresh : v.cur ≠ none → k.scheduler.nodes a = none) (hq : k.scheduler.schedNext a = some q) :
    (v.queue ++ v.cur.toList = [] ∧ q.cur_Process = none) ∨
      ∃ r L, v.queue ++ v.cur.toList = r :: L ∧ q.Lists L ∧ q.cur_Process = some r := by
  obtain ⟨q', hq', hlists⟩ := Queue.schedNext_lists h.queue (h.cur ▸ hfresh)
  obtain rfl := Option.some.inj (hq'.symm.trans hq)
  rw [h.cur] at hlists
  cases hL : v.queue ++ v.cur.toList with
  | nil =>
      rw [hL] at hlists
      exact .inl ⟨rfl, hlists.2⟩
  | cons r L =>
      rw [hL] at hlists
      exact .inr ⟨r, L, rfl, hlists⟩

/-- A switch puts the running process at the end of the queue and takes the first one. -/
theorem switchTask_views (h : Views k v) (hfresh : v.cur ≠ none → k.scheduler.nodes a = none)
    (hk : k.switchTask a = some k') :
    ∃ r L, v.queue ++ v.cur.toList = r :: L ∧ Views k' { v with queue := L, cur := some r } ∧
      k'.processTable = k.processTable := by
  obtain ⟨q, hq, hk⟩ := Option.bind_eq_some_iff.1 hk
  obtain ⟨r, hr, hk⟩ := Option.bind_eq_some_iff.1 hk
  obtain ⟨p, hp, hk⟩ := Option.bind_eq_some_iff.1 hk
  cases hk
  obtain ⟨-, hcur⟩ | ⟨r', L, hqueue, hlists, hcur⟩ := schedNext_views h hfresh hq
  · rw [getActiveProcess, hcur] at hr
    cases hr
  · exact ⟨r', L, hqueue, ⟨h.table, hlists, hcur, h.key_eq, h.noKill⟩, rfl⟩

theorem sleepActiveProcess_views (h : Views k v) : Views k.sleepActiveProcess v.sleep where
  table := h.table
  queue := by
    obtain ⟨l, hl⟩ := h.queue
    exact ⟨l, hl⟩
  cur := rfl
  key_eq := h.key_eq
  noKill := h.noKill

/-- Enqueueing a pid that is in the table enqueues a pointer to a process with it. -/
theorem enqueuePid_views (pid : Pid) (h : Views k v) (hfresh : k.scheduler.nodes a = none)
    (hpid : ∃ e ∈ v.entries, e.key = pid) :
    ∃ k' e, k.enqueuePid a pid = some k' ∧ e ∈ v.entries ∧ e.key = pid ∧
      k.processTable.find pid = some e.id ∧ Views k' (v.enqueue ⟨e.id, pid⟩) ∧
      k'.processTable = k.processTable ∧ k'.currPid = k.currPid := by
  obtain ⟨e, he, hkey, hfind⟩ := h.table.find hpid
  obtain ⟨q', hq', hlists, hcur⟩ := Queue.enqueue_lists ⟨e.id, pid⟩ h.queue hfresh
  exact ⟨{ k with scheduler := q' }, e, by simp [enqueuePid, hfind, hq'], he, hkey, hfind,
    ⟨h.table, hlists, hcur.trans h.cur, h.key_eq, h.noKill⟩, rfl, rfl⟩

/-- A constructed process is inserted and a pointer to a process with its pid is enqueued. -/
theorem addProcess_views {p : Process} (h : Views k v) (hq : k.scheduler.nodes a = none)
    (hb : k.processTable.nodes b = none) (hp : Constructed p)
    (hk : k.addProcess a b p = some k') :
    ∃ v', v.schedule.Spawned p.pid v'.schedule ∧ Views k' v' ∧
      v'.entries.Perm (⟨b, p.pid, p⟩ :: v.entries) := by
  obtain ⟨table, E, htable, hE, hins⟩ := h.table.insert ⟨b, p.pid, p⟩ hb
  have hmem : ∀ e ∈ E, e = ⟨b, p.pid, p⟩ ∨ e ∈ v.entries := by
    obtain ⟨A, B, hL, rfl, -⟩ := hins
    rw [hL]
    simp only [List.mem_append, List.mem_cons]
    tauto
  have hviews : Views { k with processTable := table } { v with entries := E } := by
    refine ⟨hE, h.queue, h.cur, fun e he => ?_, fun e he => ?_⟩
    · rcases hmem e he with rfl | he
      exacts [rfl, h.key_eq e he]
    · rcases hmem e he with rfl | he
      exacts [hp.noKill, h.noKill e he]
  have hnew : ∃ e ∈ E, e.key = p.pid := by
    obtain ⟨A, B, -, rfl, -⟩ := hins
    exact ⟨⟨b, p.pid, p⟩, by simp, rfl⟩
  obtain ⟨k'', e, hk'', he, hkey, -, hviews', -⟩ := enqueuePid_views p.pid hviews hq hnew
  have heq : k.addProcess a b p = some k'' := by
    simp [addProcess, htable, hp.state_eq, hk'']
  obtain rfl := Option.some.inj (heq.symm.trans hk)
  obtain ⟨A, B, hL, rfl, -⟩ := hins
  refine ⟨_, ?_, hviews', hL ▸ List.perm_middle⟩
  have hfresh : ∀ d ∈ v.schedule.slots, d.node ≠ b := by
    intro d hd heq
    obtain ⟨y, hy, rfl⟩ := List.mem_map.1 hd
    obtain ⟨n, hn, -⟩ := h.table.exists_node hy
    rw [show y.id = b from heq, hb] at hn
    cases hn
  have hslots : v.schedule.slots = A.map slot ++ B.map slot := by
    simp [View.schedule, hL]
  have hc : slot e ∈ A.map slot ++ ⟨b, p.pid, .ACTIVE⟩ :: B.map slot := by
    have hmap := List.mem_map_of_mem (f := slot) he
    rwa [List.map_append, List.map_cons, slot, hp.state_eq] at hmap
  have hspawned := Schedule.Spawned.spawn hslots hfresh hc hkey
  simpa [View.schedule, View.enqueue, slot, hp.state_eq] using hspawned

/-- The entry of a pid that `raise_signal` looks up. -/
def target (k : Kernel) (pid : Pid) : Option Addr := do
  let contained ← k.processTable.contains pid
  if contained then k.processTable.find pid else none

theorem target_eq_some {pid : Pid} {x : Addr} (h : Views k v) (hx : k.target pid = some x) :
    ∃ e ∈ v.entries, e.id = x ∧ e.key = pid := by
  obtain ⟨c, hc, hx⟩ := Option.bind_eq_some_iff.1 hx
  obtain ⟨c', hc', hiff⟩ := h.table.contains pid
  obtain rfl := Option.some.inj (hc'.symm.trans hc)
  cases c' with
  | false => cases hx
  | true =>
      obtain ⟨e, he, hkey, hfind⟩ := h.table.find (hiff.1 rfl)
      exact ⟨e, he, Option.some.inj (hfind.symm.trans hx), hkey⟩

/-- The status of `raise_signal` and the entries after it: a signal is refused in a handler, and
otherwise only the process that was found changes. -/
inductive SignalledEntries (k : Kernel) (L : List (Entry Pid Process)) (pid : Pid) (signal : Int) :
    Int → List (Entry Pid Process) → Prop
  | refused : (∀ e ∈ L, k.target pid = some e.id → e.value.state = .SIGNAL) →
      SignalledEntries k L pid signal (-1) L
  | raised {e : Entry Pid Process} : e ∈ L → k.target pid = some e.id → e.value.state ≠ .SIGNAL →
      SignalledEntries k L pid signal 0 (L.map (setValue e.id (e.value.signalTrigger signal).1))

/-- The effect of `raise_signal`. Its status is never positive. -/
theorem raiseSignal_views {pid : Pid} {signal status : Int} (h : Views k v)
    (hfresh : k.scheduler.nodes a = none)
    (hk : k.raiseSignal a pid signal = some (k', status)) :
    ∃ v', v.schedule.Raised (k.target pid) pid v'.schedule ∧ Views k' v' ∧ SameTable k k' ∧
      status ≤ 0 ∧ SignalledEntries k v.entries pid signal status v'.entries := by
  obtain ⟨c, hc, hiff⟩ := h.table.contains pid
  rw [raiseSignal, hc] at hk
  cases c with
  | false =>
      cases hk
      have hnone : k.target pid = none := by simp [target, hc]
      refine ⟨v, .ignored (by simp [hnone]), h, .refl _, by decide, .refused fun e _ hsome => ?_⟩
      rw [hnone] at hsome
      cases hsome
  | true =>
      obtain ⟨e, he, hkey, hfind⟩ := h.table.find (hiff.1 rfl)
      have htarget : k.target pid = some e.id := by simp [target, hc, hfind]
      obtain ⟨p', status', hsignal⟩ : ∃ p' status', e.value.signalTrigger signal = (p', status') :=
        ⟨_, _, rfl⟩
      obtain ⟨hpid, hkill, -, -, hzero⟩ := Process.signalTrigger_cases (h.noKill e he) hsignal
      obtain ⟨k₁, hk₁, h₁, hshape, hsched, -⟩ := setProcess_views h he hpid hkill
      simp only [hfind, h.process_eq he, hsignal, hk₁, Option.bind_eq_bind, Option.bind_some,
        Bool.not_true, Bool.false_eq_true, if_false] at hk
      cases hstate : e.value.state with
      | SIGNAL =>
          simp only [hstate, ne_eq, reduceCtorEq, not_false_eq_true, and_self, if_true] at hk
          cases hk
          refine ⟨v, .ignored fun x hx => ⟨_, View.mem_slots he, ?_, hstate⟩, h, .refl _, by decide,
            .refused fun d hd hdtarget => ?_⟩
          · exact Option.some.inj (htarget.symm.trans hx)
          · have hid : d.id = e.id := Option.some.inj (hdtarget.symm.trans htarget)
            obtain rfl := List.inj_on_of_nodup_map h.table.nodup hd he hid
            exact hstate
      | ACTIVE =>
          obtain rfl := hzero (by simp [hstate])
          simp only [hstate, ne_eq, reduceCtorEq, not_true_eq_false, not_false_eq_true, false_and,
            and_false, if_false, Int.lt_irrefl, gt_iff_lt] at hk
          cases hk
          have hentries : SignalledEntries k v.entries pid signal 0
              (v.entries.map (setValue e.id (e.value.signalTrigger signal).1)) :=
            .raised he htarget (by simp [hstate])
          rw [hsignal] at hentries
          refine ⟨_, ?_, h₁, hshape, Int.le_refl _, hentries⟩
          rw [View.schedule_setProcess]
          exact .handled (View.mem_slots he) hkey htarget hstate
      | SIGWAIT =>
          obtain rfl := hzero (by simp [hstate])
          obtain ⟨k₂, e₂, hk₂, he₂, hkey₂, hfind₂, h₂, htable₂, -⟩ :=
            enqueuePid_views pid h₁ (by rw [hsched]; exact hfresh)
              ⟨_, List.mem_map_of_mem he, by simp [hkey]⟩
          rw [find_congr hshape, hfind, Option.some.injEq] at hfind₂
          simp only [hstate, ne_eq, reduceCtorEq, not_true_eq_false, not_false_eq_true, and_false,
            and_true, if_false, if_true, Int.lt_irrefl, gt_iff_lt, hk₂, Option.bind_some] at hk
          cases hk
          rw [← hfind₂] at h₂
          have hentries : SignalledEntries k v.entries pid signal 0
              (v.entries.map (setValue e.id (e.value.signalTrigger signal).1)) :=
            .raised he htarget (by simp [hstate])
          rw [hsignal] at hentries
          refine ⟨_, ?_, h₂, ?_, Int.le_refl _, hentries⟩
          · show v.schedule.Raised _ _ ((v.setProcess e.id p').schedule.enqueue ⟨e.id, pid⟩)
            rw [View.schedule_setProcess]
            exact .woken (View.mem_slots he) hkey htarget hstate
          · rw [SameTable, htable₂]
            exact hshape

/-- The pid of the active process. -/
def activePid (k : Kernel) : Option Pid := do
  let cur ← k.getActiveProcess
  let p ← k.process cur.node
  pure p.pid

/-- The parent of the active process. -/
def activeParent (k : Kernel) : Option Pid := do
  let cur ← k.getActiveProcess
  let p ← k.process cur.node
  pure p.parent

/-- The nodes that deleting the active process changes: the one that the search for its pid finds
and the chain of successors from there. -/
def removedChain (k : Kernel) : List Addr :=
  match k.activePid.bind k.processTable.searchRec with
  | some (some x) => k.processTable.successorChain (k.processTable.fuel + 1) x
  | _ => []

theorem activePid_eq (h : Views k v) : k.activePid =
    v.cur.bind fun r => (k.processTable.nodes r.node).map Node.key := by
  rw [activePid, getActiveProcess, h.cur]
  cases v.cur with
  | none => rfl
  | some r =>
      cases hn : k.processTable.nodes r.node with
      | none => simp [process, hn]
      | some n => simpa [process, hn] using h.key_eq _ (h.table.mem_of_nodes hn)

theorem activePid_congr {v' : View} (h : Views k v) (h' : Views k' v') (hcur : v'.cur = v.cur)
    (hshape : SameTable k k') : k'.activePid = k.activePid := by
  rw [activePid_eq h, activePid_eq h', hcur]
  simp only [hshape.key_eq]

theorem removedChain_congr {v' : View} (h : Views k v) (h' : Views k' v') (hcur : v'.cur = v.cur)
    (hshape : SameTable k k') : k'.removedChain = k.removedChain := by
  have hpid := activePid_congr h h' hcur hshape
  have hsearch : k'.processTable.searchRec = k.processTable.searchRec :=
    funext fun key => searchRec_congr hshape key
  have hchain : k'.processTable.successorChain = k.processTable.successorChain :=
    funext fun n => funext fun x => successorChain_congr hshape.sameChildren n x
  rw [removedChain, removedChain, hpid, hsearch, hchain, fuel, fuel, hshape.size]

theorem target_congr (hshape : SameTable k k') (pid : Pid) : k'.target pid = k.target pid := by
  rw [target, target, contains_congr hshape, find_congr hshape]

/-- Deleting the active process. -/
theorem deleteActiveProcess_views (h : Views k v) (hk : k.deleteActiveProcess = some k') :
    ∃ v' s, v.schedule.Removed k.removedChain s ∧ v'.schedule = s.sleep ∧ Views k' v' ∧
      ∀ e ∈ v.entries, ∀ y, movedAlong k.removedChain e.id = some y →
        { e with id := y } ∈ v'.entries := by
  obtain ⟨r, hr, hk₁⟩ := Option.bind_eq_some_iff.1 hk
  obtain ⟨p, hp, hk₂⟩ := Option.bind_eq_some_iff.1 hk₁
  obtain ⟨table, htable, hk₃⟩ := Option.bind_eq_some_iff.1 hk₂
  cases hk₃
  obtain ⟨table', E, htable', hE, hrem⟩ := h.table.remove p.pid
  obtain rfl := Option.some.inj (htable'.symm.trans htable)
  have hpid : k.activePid = some p.pid := by simp [activePid, hr, hp]
  -- the entries that are left are entries of before, with pairs moved along the chain
  have hkeep : ∀ e ∈ v.entries, e.id ∉ k.removedChain → e ∈ E := by
    intro e he hchain
    rcases hrem with ⟨-, rfl, -⟩ | ⟨A, e', B, hL, -, hfound, -, hex⟩
    · exact he
    · refine hex.mem_of_not_mem (hL ▸ he) ?_
      simpa [removedChain, hpid, hfound] using hchain
  have hsublist : (E.map Entry.pair).Sublist (v.entries.map Entry.pair) := by
    rcases hrem with ⟨-, rfl, -⟩ | ⟨A, e', B, hL, -, -, -, hex⟩
    · exact .refl _
    · rw [hex.map_pair, hL, List.map_append, List.map_cons]
      exact (List.Sublist.refl _).append (List.sublist_cons_self _ _)
  have hpairs : ∀ e ∈ E, ∃ e' ∈ v.entries, e'.pair = e.pair := fun e he =>
    List.mem_map.1 (hsublist.subset (List.mem_map_of_mem he))
  refine ⟨{ v with entries := E, cur := none }, ⟨E.map slot, v.queue, v.cur⟩,
    ⟨rfl, rfl, fun c hc hchain => ?_⟩, rfl, ?_, fun e he y hy => ?_⟩
  · obtain ⟨e, he, rfl⟩ := List.mem_map.1 hc
    exact List.mem_map_of_mem (hkeep e he hchain)
  · refine Kernel.sleepActiveProcess_views (k := { k with processTable := table' })
      (v := { v with entries := E }) ⟨hE, h.queue, h.cur, fun e he => ?_, fun e he => ?_⟩
    · obtain ⟨e', he', heq⟩ := hpairs e he
      simp only [Entry.pair, Prod.mk.injEq] at heq
      rw [← heq.1, ← heq.2, h.key_eq e' he']
    · obtain ⟨e', he', heq⟩ := hpairs e he
      simp only [Entry.pair, Prod.mk.injEq] at heq
      exact heq.2 ▸ h.noKill e' he'
  · rcases hrem with ⟨-, -, habsent⟩ | ⟨A, e', B, hL, -, hfound, -, hex⟩
    · -- the active process has an entry
      obtain ⟨d, hd, -, rfl⟩ := h.exists_entry hp
      exact absurd (h.key_eq d hd).symm (habsent d hd)
    · have hnodup : ((A ++ e' :: B).map Entry.id).Nodup := hL ▸ h.table.nodup
      have hy' : movedAlong (k.processTable.successorChain (k.processTable.fuel + 1) e'.id) e.id =
          some y := by
        simpa [removedChain, hpid, hfound] using hy
      exact hex.mem_movedAlong hnodup (hL ▸ he) hy'

/-! ## Events -/

/-- The moves that a system call makes on the schedule. -/
inductive SyscallEffect (k : Kernel) (s : Schedule) : Syscall → Schedule → Prop where
  | clone {fn stack userdata kernelStack : UInt64} {s' : Schedule} :
      s.Spawned k.currPid s' → SyscallEffect k s (.clone fn stack userdata kernelStack) s'
  | terminate {parent : Pid} {s₁ s₂ s' : Schedule} : k.activeParent = some parent →
      s.Raised (k.target parent) parent s₁ → s₁.Removed k.removedChain s₂ →
      s₂.sleep.Switched s' → SyscallEffect k s .terminate s'
  | yield {s' : Schedule} : s.Switched s' → SyscallEffect k s .yield s'
  | sigraise {pid : Pid} {signal : Int} {s' : Schedule} :
      s.Raised (k.target pid) pid s' → SyscallEffect k s (.sigraise pid signal) s'
  | sigret {r : ProcessRef} {st : State} : s.cur = some r →
      SyscallEffect k s .sigret (s.setState r.node st)
  | sigwait {r : ProcessRef} {s' : Schedule} : s.cur = some r →
      (s.setState r.node .SIGWAIT).sleep.Switched s' → SyscallEffect k s .sigwait s'
  | sigaction {signal : Int} {handler trampoline userdata : UInt64} :
      SyscallEffect k s (.sigaction signal handler trampoline userdata) s

/-- The moves that an event makes on the schedule. -/
inductive Effect (k : Kernel) (s : Schedule) : Event → Schedule → Prop where
  | addProcess {p : Process} {s' : Schedule} : s.Spawned p.pid s' → Effect k s (.addProcess p) s'
  | syscall {ctx : Context} {call : Syscall} {s' : Schedule} : SyscallEffect k s call s' →
      Effect k s (.syscall ctx call) s'
  | timer {ctx : Context} {s' : Schedule} : s.Switched s' → Effect k s (.timer ctx) s'

/-- Assignments to the active process that keep its pid and state do not show in the schedule. -/
theorem updateActive_schedule {f : Process → Option Process} (h : Views k v)
    (hf : ∀ p p', f p = some p' →
      p'.pid = p.pid ∧ (p.NoKill → p'.NoKill) ∧ p'.state = p.state)
    (hk : k.updateActive f = some k') :
    ∃ v', Views k' v' ∧ v'.schedule = v.schedule ∧ SameTable k k' ∧
      k'.scheduler = k.scheduler ∧ k'.currPid = k.currPid := by
  obtain ⟨r, e, p', hr, he, hid, hp', h', hshape, hsched, hcurr⟩ :=
    updateActive_views h (fun p p' hp => ⟨(hf p p' hp).1, (hf p p' hp).2.1⟩) hk
  refine ⟨_, h', ?_, hshape, hsched, hcurr⟩
  rw [← hid]
  exact View.schedule_setProcess_self h.table.nodup he (hf _ _ hp').2.2

theorem setCallerReturn_schedule {x : UInt64} (h : Views k v)
    (hk : k.setCallerReturn x = some k') :
    ∃ v', Views k' v' ∧ v'.schedule = v.schedule ∧ SameTable k k' ∧
      k'.scheduler = k.scheduler ∧ k'.currPid = k.currPid :=
  updateActive_schedule h (by rintro p _ ⟨⟩; exact ⟨rfl, id, rfl⟩) hk

theorem switchTask_schedule (h : Views k v) (hfresh : v.cur ≠ none → k.scheduler.nodes a = none)
    (hk : k.switchTask a = some k') :
    ∃ v', Views k' v' ∧ v.schedule.Switched v'.schedule := by
  obtain ⟨r, L, hL, h', -⟩ := switchTask_views h hfresh hk
  exact ⟨_, h', .switch hL⟩

theorem syscallClone_effect {fn stack userdata kernelStack : UInt64} (h : Views k v)
    (ha : k.scheduler.nodes a = none) (hb : k.processTable.nodes b = none)
    (hk : k.syscallClone a b fn stack userdata kernelStack = some k') :
    ∃ v', Views k' v' ∧ v.schedule.Spawned k.currPid v'.schedule := by
  simp only [syscallClone, nextPid] at hk
  obtain ⟨r, hr, hk₁⟩ := Option.bind_eq_some_iff.1 hk
  obtain ⟨p, hp, hk₂⟩ := Option.bind_eq_some_iff.1 hk₁
  obtain ⟨k₁, hadd, hret⟩ := Option.bind_eq_some_iff.1 hk₂
  have hview : Views { k with currPid := (k.currPid + 1) % 2 ^ 32 } v :=
    ⟨h.table, h.queue, h.cur, h.key_eq, h.noKill⟩
  have hnew : Constructed (p.clone k.currPid fn stack userdata kernelStack) :=
    ⟨rfl, Process.clone_noKill p _ _ _ _ _⟩
  obtain ⟨v₁, hspawned, h₁, -⟩ := addProcess_views hview ha hb hnew hadd
  obtain ⟨v', h', hsched, -⟩ := setCallerReturn_schedule h₁ hret
  exact ⟨v', h', hsched ▸ hspawned⟩

theorem syscallTerminate_effect (h : Views k v) (ha : k.scheduler.nodes a = none)
    (hk : k.syscallTerminate a = some k') :
    ∃ v', Views k' v' ∧ SyscallEffect k v.schedule .terminate v'.schedule := by
  obtain ⟨r, hr, hk₁⟩ := Option.bind_eq_some_iff.1 hk
  obtain ⟨p, hp, hk₂⟩ := Option.bind_eq_some_iff.1 hk₁
  obtain ⟨⟨k₁, status⟩, hraise, hk₃⟩ := Option.bind_eq_some_iff.1 hk₂
  obtain ⟨k₂, hdelete, hswitch⟩ := Option.bind_eq_some_iff.1 hk₃
  obtain ⟨v₁, hraised, h₁, hshape, -, -⟩ := raiseSignal_views h ha hraise
  obtain ⟨v₂, s₂, hremoved, hs₂, h₂, -⟩ := deleteActiveProcess_views h₁ hdelete
  have hcur₂ : v₂.cur = none := congrArg Schedule.cur hs₂
  obtain ⟨v', h', hswitched⟩ := switchTask_schedule h₂ (fun hne => absurd hcur₂ hne) hswitch
  have hcur₁ : v₁.cur = v.cur := hraised.cur_eq
  rw [removedChain_congr h h₁ hcur₁ hshape] at hremoved
  rw [hs₂] at hswitched
  have hparent : k.activeParent = some p.parent := by simp [activeParent, hr, hp]
  exact ⟨v', h', .terminate hparent hraised hremoved hswitched⟩

theorem syscallSigwait_effect (h : Views k v) (hk : k.syscallSigwait a = some k') :
    ∃ v', Views k' v' ∧ SyscallEffect k v.schedule .sigwait v'.schedule := by
  obtain ⟨k₁, hset, hswitch⟩ := Option.bind_eq_some_iff.1 hk
  obtain ⟨r, e, p', hr, he, hid, hp', h₁, -⟩ :=
    updateActive_views h (by rintro p _ ⟨⟩; exact ⟨rfl, id⟩) hset
  obtain ⟨v', h', hswitched⟩ := switchTask_schedule (sleepActiveProcess_views h₁)
    (fun hne => absurd rfl hne) hswitch
  cases hp'
  change (v.setProcess r.node _).schedule.sleep.Switched _ at hswitched
  rw [View.schedule_setProcess] at hswitched
  exact ⟨v', h', .sigwait hr hswitched⟩

theorem syscall_effect {call : Syscall} (h : Views k v) (ha : k.scheduler.nodes a = none)
    (hb : k.processTable.nodes b = none) (hk : k.syscall a b call = some k') :
    ∃ v', Views k' v' ∧ SyscallEffect k v.schedule call v'.schedule := by
  cases call with
  | clone fn stack userdata kernelStack =>
      obtain ⟨v', h', hspawned⟩ := syscallClone_effect h ha hb hk
      exact ⟨v', h', .clone hspawned⟩
  | terminate => exact syscallTerminate_effect h ha hk
  | yield =>
      obtain ⟨k₁, hret, hswitch⟩ := Option.bind_eq_some_iff.1 hk
      obtain ⟨v₁, h₁, hsched, -, hscheduler, -⟩ := setCallerReturn_schedule h hret
      obtain ⟨v', h', hswitched⟩ := switchTask_schedule h₁ (fun _ => hscheduler ▸ ha) hswitch
      exact ⟨v', h', .yield (hsched ▸ hswitched)⟩
  | sigraise pid signal =>
      obtain ⟨⟨k₁, status⟩, hraise, hret⟩ := Option.bind_eq_some_iff.1 hk
      obtain ⟨v₁, hraised, h₁, -, hstatus, -⟩ := raiseSignal_views h ha hraise
      simp only [hstatus, if_true] at hret
      obtain ⟨v', h', hsched, -⟩ := setCallerReturn_schedule h₁ hret
      exact ⟨v', h', .sigraise (hsched ▸ hraised)⟩
  | sigret =>
      obtain ⟨r, e, p', hr, he, hid, hp', h', -⟩ := updateActive_views h
        (fun p p' hp => ⟨(Process.signalReturn_cases hp).1, fun hkill sig =>
          (Process.signalReturn_cases hp).2.1 ▸ hkill sig⟩) hk
      refine ⟨_, h', ?_⟩
      rw [View.schedule_setProcess]
      exact .sigret hr
  | sigwait => exact syscallSigwait_effect h hk
  | sigaction signal handler trampoline userdata =>
      obtain ⟨k₁, hset, hret⟩ := Option.bind_eq_some_iff.1 hk
      obtain ⟨v₁, h₁, hsched₁, -⟩ := updateActive_schedule h (by
        rintro p _ ⟨⟩
        exact ⟨by simp, fun hkill => Process.setSignalAction_noKill hkill _ _ _ _, by simp⟩) hset
      obtain ⟨v', h', hsched, -⟩ := setCallerReturn_schedule h₁ hret
      refine ⟨v', h', ?_⟩
      rw [hsched, hsched₁]
      exact .sigaction

/-- Storing the registers of the active process does not show in what system calls read. -/
theorem storeContext_views {ctx : Context} (h : Views k v) (hk : k.storeContext ctx = some k') :
    ∃ v', Views k' v' ∧ v'.schedule = v.schedule ∧ SameTable k k' ∧
      k'.scheduler = k.scheduler ∧ k'.currPid = k.currPid ∧ k'.activeParent = k.activeParent := by
  obtain ⟨r, e, p', hr, he, hid, hp', h', hshape, hsched, hcurr⟩ :=
    updateActive_views h (by rintro p _ ⟨⟩; exact ⟨rfl, id⟩) hk
  cases hp'
  rw [← hid] at h'
  refine ⟨_, h', View.schedule_setProcess_self h.table.nodup he rfl, hshape, hsched, hcurr, ?_⟩
  have hactive : k.getActiveProcess = some r := h.cur.trans hr
  have hactive' : k'.getActiveProcess = some r := by
    rw [getActiveProcess, hsched]
    exact hactive
  have hmem : setValue e.id { e.value with ctx := ctx } e ∈
      (v.setProcess e.id { e.value with ctx := ctx }).entries := List.mem_map_of_mem he
  have hprocess' := h'.process_eq hmem
  rw [setValue_id, hid] at hprocess'
  have hprocess := h.process_eq he
  rw [hid] at hprocess
  simp [activeParent, hactive, hactive', hprocess, hprocess', setValue, hid]

theorem SyscallEffect.congr {s s' : Schedule} {call : Syscall} (h : SyscallEffect k s call s')
    (hpid : k'.currPid = k.currPid) (htarget : k'.target = k.target)
    (hparent : k'.activeParent = k.activeParent) (hchain : k'.removedChain = k.removedChain) :
    SyscallEffect k' s call s' := by
  cases h with
  | clone hs => exact .clone (hpid ▸ hs)
  | terminate hp hraised hremoved hswitched =>
      exact .terminate (hparent ▸ hp) (htarget ▸ hraised) (hchain ▸ hremoved) hswitched
  | yield hs => exact .yield hs
  | sigraise hs => exact .sigraise (htarget ▸ hs)
  | sigret hr => exact .sigret hr
  | sigwait hr hs => exact .sigwait hr hs
  | sigaction => exact .sigaction

/-- Every event keeps the view and makes its move on the schedule. -/
theorem step_effect {e : Event} (h : Views k v) (hstep : Step k e k') :
    ∃ v', Views k' v' ∧ Effect k v.schedule e v'.schedule := by
  obtain ⟨hnew, a, b, ha, hb, hk⟩ := hstep
  cases e with
  | addProcess p =>
      obtain ⟨v', hspawned, h', -⟩ := addProcess_views h ha hb (hnew p rfl) hk
      exact ⟨v', h', .addProcess hspawned⟩
  | syscall ctx call =>
      obtain ⟨k₁, hstore, hk₁⟩ := Option.bind_eq_some_iff.1 hk
      obtain ⟨k₂, hcall, hk₂⟩ := Option.bind_eq_some_iff.1 hk₁
      obtain ⟨r, -, hk₃⟩ := Option.bind_eq_some_iff.1 hk₂
      obtain ⟨p, -, hk₄⟩ := Option.bind_eq_some_iff.1 hk₃
      cases hk₄
      obtain ⟨v₁, h₁, hsched, hshape, hscheduler, hpid, hparent⟩ := storeContext_views h hstore
      have hb₁ : k₁.processTable.nodes b = none := by
        simpa [hb] using hshape.nodes b
      obtain ⟨v', h', heffect⟩ := syscall_effect h₁ (hscheduler ▸ ha) hb₁ hcall
      have hcur : v₁.cur = v.cur := congrArg Schedule.cur hsched
      refine ⟨v', h', .syscall ?_⟩
      rw [hsched] at heffect
      exact heffect.congr hpid.symm (funext fun pid => (target_congr hshape pid).symm) hparent.symm
        (removedChain_congr h h₁ hcur hshape).symm
  | timer ctx =>
      simp only [perform, timerInterrupt] at hk
      split at hk
      · obtain ⟨v', h', hswitched⟩ := switchTask_schedule h (fun _ => ha) hk
        exact ⟨v', h', .timer hswitched⟩
      · obtain ⟨k₁, hstore, hswitch⟩ := Option.bind_eq_some_iff.1 hk
        obtain ⟨v₁, h₁, hsched, -, hscheduler, -⟩ := storeContext_views h hstore
        obtain ⟨v', h', hswitched⟩ := switchTask_schedule h₁ (fun _ => hscheduler ▸ ha) hswitch
        exact ⟨v', h', .timer (hsched ▸ hswitched)⟩

end Kernel

end CrosKernel
