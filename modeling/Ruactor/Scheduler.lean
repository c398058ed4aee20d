import Mathlib.Data.List.Perm.Basic
import Mathlib.Tactic.ByContra
import Ruactor.Library.Machine
import Ruactor.Message

/-!
# The scheduler

The thread of `Scheduler::run` with the callers of `after_func` and the owners of the
handles. A task is known by its flag `cancelled`, which the caller holds as the
`Scheduled` handle. `BinaryHeap::pop` takes any of the tasks that are greatest in the
reversed order.

`is_active` returns the flag itself. So a task is kept when its handle is gone and
thrown away while its handle is held.
-/

namespace Ruactor

structure SchedulerTask where
  eventTime : Instant
  cancelled : Scheduled
  deriving DecidableEq, Repr

/-- `Ord::cmp`: the order of the event times, reversed. -/
def SchedulerTask.cmp (self other : SchedulerTask) : Ordering :=
  (compare self.eventTime other.eventTime).swap

inductive SchedulerMessage
  | close
  | task (task : SchedulerTask)
  deriving DecidableEq, Repr

namespace Scheduler

inductive Record
  | scheduled (task : SchedulerTask)
  | dropped (handle : Scheduled)
  | drained (task : SchedulerTask)
  | ran (task : SchedulerTask) (now : Instant)
  | passed (now : Instant)
  deriving DecidableEq, Repr

/-- Program points of the loop: the two tests of `is_active` are at `testing` and
`popped`. -/
inductive Thread
  | draining
  | testing (task : SchedulerTask)
  | readNow
  | firing (now : Instant)
  | popped (now : Instant) (task : SchedulerTask)
  | closed
  deriving DecidableEq, Repr

end Scheduler

open Scheduler in
/-- `calls` are the calls of `after_func` that have read the clock and not pushed yet,
`cancelled` the flags that are set. -/
structure Scheduler where
  clock : Instant
  queue : List SchedulerMessage
  calls : List Instant
  handles : Nat
  cancelled : List Scheduled
  bheap : List SchedulerTask
  thread : Thread
  log : List Record
  deriving DecidableEq, Repr

namespace Scheduler

inductive Action
  | afterFunc (d : Duration)
  | push (i : Nat)
  | drop (handle : Scheduled)
  | close
  | tick (d : Duration)
  | thread (pick : Nat)
  deriving DecidableEq, Repr

def new : Scheduler := ⟨0, [], [], 0, [], [], .draining, []⟩

def isActive (s : Scheduler) (task : SchedulerTask) : Bool := decide (task.cancelled ∈ s.cancelled)

/-- `bheap.pop()`, the choice among equal tasks being `pick`. -/
def pop (s : Scheduler) (pick : Nat) : Option (SchedulerTask × List SchedulerTask) :=
  match s.bheap[pick]? with
  | none => none
  | some task =>
    if ∀ other ∈ s.bheap, other.cmp task ≠ .gt then some (task, s.bheap.eraseIdx pick) else none

def threadStep (s : Scheduler) (pick : Nat) : Option Scheduler :=
  match s.thread with
  | .draining =>
    match s.queue with
    | [] => some { s with thread := .readNow }
    | .close :: rest => some { s with queue := rest, thread := .closed }
    | .task task :: rest =>
      some { s with queue := rest, thread := .testing task, log := s.log ++ [.drained task] }
  | .testing task =>
    if s.isActive task then some { s with bheap := s.bheap ++ [task], thread := .draining }
    else some { s with thread := .draining }
  | .readNow => some { s with thread := .firing s.clock }
  | .firing now =>
    match s.bheap with
    | [] => some { s with thread := .draining, log := s.log ++ [.passed now] }
    | _ :: _ =>
      match s.pop pick with
      | none => none
      | some (task, bheap) => some { s with bheap := bheap, thread := .popped now task }
  | .popped now task =>
    if s.isActive task then
      if task.eventTime < now then
        some { s with thread := .firing now, log := s.log ++ [.ran task now] }
      else
        some { s with
          bheap := s.bheap ++ [task], thread := .draining, log := s.log ++ [.passed now] }
    else some { s with thread := .firing now }
  | .closed => none

def step (s : Scheduler) : Action → Option Scheduler
  | .afterFunc d => some { s with calls := s.calls ++ [s.clock + d] }
  | .push i =>
    match s.calls[i]? with
    | none => none
    | some eventTime =>
      some { s with
        calls := s.calls.eraseIdx i
        handles := s.handles + 1
        queue := s.queue ++ [.task ⟨eventTime, s.handles⟩]
        log := s.log ++ [.scheduled ⟨eventTime, s.handles⟩] }
  | .drop handle =>
    if handle < s.handles ∧ handle ∉ s.cancelled then
      some { s with cancelled := s.cancelled ++ [handle], log := s.log ++ [.dropped handle] }
    else none
  | .close => some { s with queue := s.queue ++ [.close] }
  | .tick d => some { s with clock := s.clock + d }
  | .thread pick => s.threadStep pick

def machine : Machine Scheduler Action := ⟨new, step⟩

def runs (log : List Record) : List Scheduled :=
  log.filterMap fun
    | .ran task _ => some task.cancelled
    | _ => none

def drained (log : List Record) : List SchedulerTask :=
  log.filterMap fun
    | .drained task => some task
    | _ => none

/-- What the scheduler is for. `live`: a dropped task does not run. `fired`: at the end
of a pass every task that was drained, is due and was not dropped has run. -/
structure Correct (log : List Record) : Prop where
  once : (runs log).Nodup
  due : ∀ task now, .ran task now ∈ log → task.eventTime < now
  live : ∀ before task now after, log = before ++ .ran task now :: after →
    .dropped task.cancelled ∉ before
  fired : ∀ before now after, log = before ++ .passed now :: after →
    ∀ task ∈ drained before, task.eventTime < now → .dropped task.cancelled ∉ before →
      ∃ now', .ran task now' ∈ before

def Abandoned (s : Scheduler) (now : Instant) : Prop :=
  ∀ task ∈ drained s.log, task.eventTime < now → task.cancelled ∈ s.cancelled

instance (s : Scheduler) (now : Instant) : Decidable (s.Abandoned now) :=
  inferInstanceAs (Decidable (∀ _ ∈ _, _ → _))

/-- No task that is popped with its flag set is due, and a pass ends only when every
drained task that is due has been dropped. -/
def Spared (s : Scheduler) : Action → Prop
  | .thread _ =>
    match s.thread with
    | .firing now => s.bheap = [] → s.Abandoned now
    | .popped now task =>
      task.cancelled ∈ s.cancelled → ¬ task.eventTime < now ∧ s.Abandoned now
    | _ => True
  | _ => True

instance (s : Scheduler) : DecidablePred s.Spared
  | .thread _ =>
    match h : s.thread with
    | .firing now => decidable_of_iff (s.bheap = [] → s.Abandoned now) (by simp [Spared, h])
    | .popped now task =>
      decidable_of_iff
        (task.cancelled ∈ s.cancelled → ¬ task.eventTime < now ∧ s.Abandoned now)
        (by simp [Spared, h])
    | .draining | .testing _ | .readNow | .closed => isTrue (by simp [Spared, h])
  | .afterFunc _ | .push _ | .drop _ | .close | .tick _ => isTrue trivial

inductive Move (s : Scheduler) : Action → Scheduler → Prop
  | afterFunc {d} : Move s (.afterFunc d) { s with calls := s.calls ++ [s.clock + d] }
  | push {i eventTime} : s.calls[i]? = some eventTime →
      Move s (.push i) { s with
        calls := s.calls.eraseIdx i
        handles := s.handles + 1
        queue := s.queue ++ [.task ⟨eventTime, s.handles⟩]
        log := s.log ++ [.scheduled ⟨eventTime, s.handles⟩] }
  | drop {handle} : handle < s.handles → handle ∉ s.cancelled →
      Move s (.drop handle)
        { s with cancelled := s.cancelled ++ [handle], log := s.log ++ [.dropped handle] }
  | close : Move s .close { s with queue := s.queue ++ [.close] }
  | tick {d} : Move s (.tick d) { s with clock := s.clock + d }
  | drainedAll {pick} : s.thread = .draining → s.queue = [] →
      Move s (.thread pick) { s with thread := .readNow }
  | closed {pick rest} : s.thread = .draining → s.queue = .close :: rest →
      Move s (.thread pick) { s with queue := rest, thread := .closed }
  | drain {pick task rest} : s.thread = .draining → s.queue = .task task :: rest →
      Move s (.thread pick)
        { s with queue := rest, thread := .testing task, log := s.log ++ [.drained task] }
  | keep {pick task} : s.thread = .testing task → task.cancelled ∈ s.cancelled →
      Move s (.thread pick) { s with bheap := s.bheap ++ [task], thread := .draining }
  | discard {pick task} : s.thread = .testing task → task.cancelled ∉ s.cancelled →
      Move s (.thread pick) { s with thread := .draining }
  | readNow {pick} : s.thread = .readNow →
      Move s (.thread pick) { s with thread := .firing s.clock }
  | exhausted {pick now} : s.thread = .firing now → s.bheap = [] →
      Move s (.thread pick) { s with thread := .draining, log := s.log ++ [.passed now] }
  | pop {pick now task bheap} : s.thread = .firing now → s.bheap.Perm (task :: bheap) →
      (∀ other ∈ s.bheap, other.cmp task ≠ .gt) →
      Move s (.thread pick) { s with bheap := bheap, thread := .popped now task }
  | run {pick now task} : s.thread = .popped now task → task.cancelled ∈ s.cancelled →
      task.eventTime < now →
      Move s (.thread pick) { s with thread := .firing now, log := s.log ++ [.ran task now] }
  | putBack {pick now task} : s.thread = .popped now task → task.cancelled ∈ s.cancelled →
      ¬ task.eventTime < now →
      Move s (.thread pick)
        { s with bheap := s.bheap ++ [task], thread := .draining, log := s.log ++ [.passed now] }
  | skip {pick now task} : s.thread = .popped now task → task.cancelled ∉ s.cancelled →
      Move s (.thread pick) { s with thread := .firing now }

theorem pop_perm {s : Scheduler} {pick : Nat} {task : SchedulerTask} {bheap : List SchedulerTask}
    (h : s.pop pick = some (task, bheap)) :
    s.bheap.Perm (task :: bheap) ∧ ∀ other ∈ s.bheap, other.cmp task ≠ .gt := by
  simp only [pop] at h
  split at h
  · cases h
  next hget =>
    split at h <;> cases h
    next hmax =>
      obtain ⟨hlt, rfl⟩ := List.getElem?_eq_some_iff.mp hget
      exact ⟨(List.getElem_cons_eraseIdx_perm hlt).symm, hmax⟩

theorem threadStep_move {s s' : Scheduler} {pick : Nat} (h : s.threadStep pick = some s') :
    Move s (.thread pick) s' := by
  simp only [threadStep] at h
  split at h
  next hthread =>
    split at h <;> cases h
    · exact .drainedAll hthread ‹_›
    · exact .closed hthread ‹_›
    · exact .drain hthread ‹_›
  next hthread =>
    split at h <;> cases h
    next hactive => exact .keep hthread (of_decide_eq_true hactive)
    next hactive => exact .discard hthread fun hm => hactive (decide_eq_true hm)
  next hthread =>
    cases h
    exact .readNow hthread
  next hthread =>
    split at h
    · cases h
      exact .exhausted hthread ‹_›
    · split at h <;> cases h
      next hpop =>
        obtain ⟨hperm, hmax⟩ := pop_perm hpop
        exact .pop hthread hperm hmax
  next hthread =>
    split at h
    next hactive =>
      split at h <;> cases h
      next hdue => exact .run hthread (of_decide_eq_true hactive) hdue
      next hdue => exact .putBack hthread (of_decide_eq_true hactive) hdue
    next hactive =>
      cases h
      exact .skip hthread fun hm => hactive (decide_eq_true hm)
  · cases h

theorem step_move {s s' : Scheduler} {a : Action} (h : s.step a = some s') : Move s a s' := by
  cases a with
  | afterFunc d =>
    cases h
    exact .afterFunc
  | push i =>
    simp only [step] at h
    split at h <;> cases h
    exact .push ‹_›
  | drop handle =>
    simp only [step] at h
    split at h <;> cases h
    next hd => exact .drop hd.1 hd.2
  | close =>
    cases h
    exact .close
  | tick d =>
    cases h
    exact .tick
  | thread pick => exact threadStep_move h

theorem Move.log {s s' : Scheduler} {a : Action} (h : Move s a s') :
    ∃ records, s'.log = s.log ++ records := by
  cases h with
  | push _ | drop _ _ | drain _ _ | exhausted _ _ | run _ _ _ | putBack _ _ _ => exact ⟨_, rfl⟩
  | _ => exact ⟨[], (List.append_nil _).symm⟩

theorem exec_log {s s' : Scheduler} {as : List Action} (h : machine.exec s as = some s') :
    ∃ records, s'.log = s.log ++ records := by
  induction as generalizing s with
  | nil =>
    cases h
    exact ⟨[], (List.append_nil _).symm⟩
  | cons a as ih =>
    obtain ⟨t, hstep, hrest⟩ := Option.bind_eq_some_iff.mp h
    obtain ⟨first, hfirst⟩ := (step_move hstep).log
    obtain ⟨rest, hrest⟩ := ih hrest
    exact ⟨first ++ rest, by rw [hrest, hfirst, List.append_assoc]⟩

/-- The flags and the log agree, and only dropped tasks have run. -/
structure Inverted (s : Scheduler) : Prop where
  flags : ∀ handle, handle ∈ s.cancelled ↔ .dropped handle ∈ s.log
  ran : ∀ before task now after, s.log = before ++ .ran task now :: after →
    .dropped task.cancelled ∈ before

theorem snoc_split {log before after : List Record} {r r' : Record}
    (h : log ++ [r] = before ++ r' :: after) :
    (before = log ∧ r' = r ∧ after = []) ∨ ∃ rest, log = before ++ r' :: rest := by
  rcases List.eq_nil_or_concat after with rfl | ⟨after, last, rfl⟩
  · obtain ⟨rfl, hlast⟩ := List.append_inj' h rfl
    cases hlast
    exact .inl ⟨rfl, rfl, rfl⟩
  · have heq : log ++ [r] = (before ++ r' :: after) ++ [last] := by simpa using h
    exact .inr ⟨after, (List.append_inj' heq rfl).1⟩

theorem Inverted.snoc {s s' : Scheduler} (h : s.Inverted) {r : Record}
    (hlog : s'.log = s.log ++ [r])
    (hflags : ∀ handle, handle ∈ s'.cancelled ↔ handle ∈ s.cancelled ∨ r = .dropped handle)
    (hr : ∀ task now, r = .ran task now → task.cancelled ∈ s.cancelled) : s'.Inverted := by
  refine ⟨fun handle => ?_, fun before task now after heq => ?_⟩
  · rw [hflags, hlog, h.flags]
    simp [eq_comm]
  · rw [hlog] at heq
    obtain ⟨rfl, hrun, -⟩ | ⟨rest, hrest⟩ := snoc_split heq
    · exact (h.flags _).mp (hr task now hrun.symm)
    · exact h.ran before task now rest hrest

theorem Inverted.step {s s' : Scheduler} {a : Action} (h : s.Inverted) (move : Move s a s') :
    s'.Inverted := by
  cases move with
  | run _ hflag _ =>
    refine h.snoc rfl (by simp) ?_
    rintro _ _ ⟨⟩
    exact hflag
  | drop _ _ => exact h.snoc rfl (by simp [eq_comm]) (by simp)
  | push _ | drain _ _ | exhausted _ _ | putBack _ _ _ => exact h.snoc rfl (by simp) (by simp)
  | _ => exact ⟨h.flags, h.ran⟩

theorem reachable_inverted {s : Scheduler} (h : machine.Reachable s) : s.Inverted :=
  h.invariant ⟨by simp [machine, new], by simp [machine, new]⟩
    fun _ hs _ hstep => hs.step (step_move hstep)

/-- A step against the condition leaves a log that no later record can repair. -/
theorem spared_of_correct {s s' : Scheduler} {a : Action} {records : List Record}
    (h : s.Inverted) (move : Move s a s') (hc : Correct (s'.log ++ records)) : s.Spared a := by
  have abandoned : ∀ {now}, s'.log = s.log ++ [.passed now] → s.Abandoned now := by
    intro now hlog task htask hdue
    by_contra hheld
    have hlive : .dropped task.cancelled ∉ s.log := fun hd => hheld ((h.flags _).mpr hd)
    obtain ⟨now', hran⟩ := hc.fired s.log now records (by rw [hlog]; simp) task htask hdue hlive
    obtain ⟨before, after, hsplit⟩ := List.append_of_mem hran
    exact hlive (hsplit ▸ List.mem_append_left _ (h.ran before task now' after hsplit))
  cases move with
  | exhausted hthread _ =>
    simp only [Spared, hthread]
    exact fun _ => abandoned rfl
  | pop hthread hperm _ =>
    simp only [Spared, hthread]
    intro hempty
    simp [hempty] at hperm
  | @run pick now task hthread hflag hdue =>
    have hlive := hc.live s.log task now records (by simp)
    exact absurd ((h.flags _).mp hflag) hlive
  | putBack hthread _ hdue =>
    simp only [Spared, hthread]
    exact fun _ => ⟨hdue, abandoned rfl⟩
  | skip hthread hflag =>
    simp only [Spared, hthread]
    exact fun hm => absurd hm hflag
  | drainedAll hthread _ | closed hthread _ | drain hthread _ | keep hthread _
  | discard hthread _ | readNow hthread => simp [Spared, hthread]
  | _ => trivial

/-- Under the condition nothing runs, and nothing has to. -/
structure Quiet (s : Scheduler) : Prop where
  idle : ∀ task now, .ran task now ∉ s.log
  fired : ∀ before now after, s.log = before ++ .passed now :: after →
    ∀ task ∈ drained before, task.eventTime < now → .dropped task.cancelled ∈ before

theorem Quiet.snoc {s s' : Scheduler} (h : s.Quiet) {r : Record} (hlog : s'.log = s.log ++ [r])
    (hrun : ∀ task now, r ≠ .ran task now)
    (hpass : ∀ now, r = .passed now → ∀ task ∈ drained s.log, task.eventTime < now →
      .dropped task.cancelled ∈ s.log) : s'.Quiet := by
  refine ⟨fun task now => ?_, fun before now after heq => ?_⟩
  · rw [hlog]
    simpa using ⟨h.idle task now, (hrun task now).symm⟩
  · rw [hlog] at heq
    obtain ⟨rfl, hr, -⟩ | ⟨rest, hrest⟩ := snoc_split heq
    · exact hpass now hr.symm
    · exact h.fired before now rest hrest

theorem Quiet.step {s s' : Scheduler} {a : Action} (h : s.Quiet) (hi : s.Inverted)
    (move : Move s a s') (ok : s.Spared a) : s'.Quiet := by
  have pass : ∀ {now now'}, s.Abandoned now → Record.passed now = .passed now' →
      ∀ task ∈ drained s.log, task.eventTime < now' → .dropped task.cancelled ∈ s.log := by
    rintro now _ hs ⟨⟩ task htask hdue
    exact (hi.flags _).mp (hs task htask hdue)
  cases move with
  | exhausted hthread hempty =>
    simp only [Spared, hthread] at ok
    exact h.snoc rfl (by simp) fun _ => pass (ok hempty)
  | run hthread hflag hdue =>
    simp only [Spared, hthread] at ok
    exact absurd hdue (ok hflag).1
  | putBack hthread hflag _ =>
    simp only [Spared, hthread] at ok
    exact h.snoc rfl (by simp) fun _ => pass (ok hflag).2
  | push _ | drop _ _ | drain _ _ => exact h.snoc rfl (by simp) (by simp)
  | _ => exact ⟨h.idle, h.fired⟩

theorem Quiet.correct {s : Scheduler} (h : s.Quiet) : Correct s.log := by
  have hruns : runs s.log = [] := by
    rw [runs, List.filterMap_eq_nil_iff]
    intro r hr
    cases r with
    | ran task now => exact absurd hr (h.idle task now)
    | _ => rfl
  refine ⟨hruns ▸ List.nodup_nil, fun task now hr => absurd hr (h.idle task now), ?_, ?_⟩
  · intro before task now after heq
    exact absurd (by simp [heq]) (h.idle task now)
  · intro before now after heq task htask hdue hlive
    exact absurd (h.fired before now after heq task htask hdue) hlive

theorem allows_of_correct {s s' : Scheduler} {as : List Action} (h : s.Inverted)
    (run : machine.exec s as = some s') (hc : Correct s'.log) : machine.Allows Spared s as := by
  induction as generalizing s with
  | nil => trivial
  | cons a as ih =>
    obtain ⟨t, hstep, hrest⟩ := Option.bind_eq_some_iff.mp run
    have move := step_move hstep
    obtain ⟨records, hrecords⟩ := exec_log hrest
    refine ⟨spared_of_correct h move (hrecords ▸ hc), ?_⟩
    rw [hstep]
    exact ih (h.step move) hrest

theorem correct_of_reach {s : Scheduler} (h : machine.Reach Spared s) : Correct s.log :=
  (h.invariant (P := Quiet) ⟨by simp [machine, new], by simp [machine, new]⟩
    fun prior hs ok hstep =>
      hs.step (reachable_inverted prior.reachable) (step_move hstep) ok).correct

/-- A run is as it should be exactly when it gave the scheduler nothing to do. -/
theorem correct_iff_spared {as : List Action} {s : Scheduler}
    (run : machine.exec machine.start as = some s) :
    Correct s.log ↔ machine.Allows Spared machine.start as :=
  ⟨allows_of_correct (reachable_inverted .start) run,
    fun allowed => correct_of_reach (Machine.Reach.exec .start allowed run)⟩

/-- The handle is dropped after the thread has drained the task and before it is due. -/
def cancelledRun : List Action :=
  [.afterFunc 5, .push 0] ++ List.replicate 4 (.thread 0) ++ [.drop 0, .tick 9] ++
    List.replicate 3 (.thread 0)

theorem correct_iff_spared_cancelled :
    Correct ((machine.exec machine.start cancelledRun).get (by decide +kernel)).log ↔
      machine.Allows Spared machine.start cancelledRun :=
  correct_iff_spared (Option.some_get _).symm

/-- The tasks 0 and 1 are due at once. The handle of 0 is dropped before the thread looks
at the queue, the handle of 1 is held. -/
def invertedRun : List Action :=
  [.afterFunc 0, .push 0, .afterFunc 0, .push 0, .drop 0, .tick 1] ++ List.replicate 9 (.thread 0)

def invertedScheduler : Scheduler :=
  (machine.exec machine.start invertedRun).get (by decide +kernel)

theorem inverted_not_correct :
    machine.exec machine.start invertedRun = some invertedScheduler ∧
      invertedScheduler.log =
        [.scheduled ⟨0, 0⟩, .scheduled ⟨0, 1⟩, .dropped 0, .drained ⟨0, 0⟩, .drained ⟨0, 1⟩,
          .ran ⟨0, 0⟩ 1, .passed 1] ∧
      ¬ Correct invertedScheduler.log := by
  have hlog : invertedScheduler.log =
      [.scheduled ⟨0, 0⟩, .scheduled ⟨0, 1⟩, .dropped 0, .drained ⟨0, 0⟩, .drained ⟨0, 1⟩,
        .ran ⟨0, 0⟩ 1, .passed 1] := by decide +kernel
  refine ⟨(Option.some_get _).symm, hlog, fun hc => ?_⟩
  have hlive := hc.live
    [.scheduled ⟨0, 0⟩, .scheduled ⟨0, 1⟩, .dropped 0, .drained ⟨0, 0⟩, .drained ⟨0, 1⟩]
    ⟨0, 0⟩ 1 [.passed 1] hlog
  exact hlive (by decide)

def Thread.held : Thread → List Scheduled
  | .testing task | .popped _ task => [task.cancelled]
  | _ => []

def SchedulerMessage.flag : SchedulerMessage → Option Scheduled
  | .close => none
  | .task task => some task.cancelled

/-- How often a task is in the queue, in the hands of the thread, in the heap or has run. -/
def copies (s : Scheduler) (handle : Scheduled) : Nat :=
  (runs s.log).count handle + s.thread.held.count handle +
    (s.bheap.map SchedulerTask.cancelled).count handle +
    (s.queue.filterMap SchedulerMessage.flag).count handle

theorem runs_snoc (log : List Record) (r : Record) : runs (log ++ [r]) = runs log ++ runs [r] :=
  List.filterMap_append

theorem Move.copies {s s' : Scheduler} {a : Action} (move : Move s a s') (handle : Scheduled) :
    s'.copies handle ≤ s.copies handle ∨
      (handle < s'.handles ∧ s.handles ≤ handle ∧ s'.copies handle ≤ s.copies handle + 1) := by
  cases move with
  | push _ =>
    by_cases hnew : handle = s.handles
    · refine .inr ⟨by simp [hnew], by simp [hnew], ?_⟩
      simp [Scheduler.copies, runs, SchedulerMessage.flag, hnew, Nat.add_assoc]
    · refine .inl ?_
      simp [Scheduler.copies, runs, SchedulerMessage.flag, Ne.symm hnew]
  | pop hthread hperm _ =>
    have hcount := (hperm.map SchedulerTask.cancelled).count_eq handle
    simp only [List.map_cons, List.count_cons] at hcount
    simp only [Scheduler.copies, hthread, Thread.held, List.count_cons, List.count_nil, hcount]
    omega
  | drain _ _ =>
    refine .inl ?_
    simp only [Scheduler.copies, runs_snoc, Thread.held, *]
    simp [runs, SchedulerMessage.flag, List.count_cons]
    omega
  | keep _ _ | putBack _ _ _ =>
    refine .inl ?_
    simp only [Scheduler.copies, runs_snoc, Thread.held, *]
    simp [runs, List.count_cons]
    omega
  | _ =>
    refine .inl ?_
    simp only [Scheduler.copies, runs_snoc, Thread.held, *]
    simp [runs, SchedulerMessage.flag, List.filterMap_cons, List.count_cons]

theorem reachable_copies {s : Scheduler} (h : machine.Reachable s) (handle : Scheduled) :
    s.copies handle ≤ 1 ∧ (s.handles ≤ handle → s.copies handle = 0) := by
  refine h.invariant (P := fun s => s.copies handle ≤ 1 ∧
    (s.handles ≤ handle → s.copies handle = 0)) ?_ fun {s s' _} _ hs _ hstep => ?_
  · simp [machine, new, copies, runs, Thread.held]
  · have move := step_move hstep
    have hhandles : s.handles ≤ s'.handles := by
      cases move with
      | push _ => exact Nat.le_succ _
      | _ => exact Nat.le_refl _
    obtain hle | ⟨hlt, hnew, hle⟩ := move.copies handle
    · exact ⟨Nat.le_trans hle hs.1, fun hl => by have := hs.2 (Nat.le_trans hhandles hl); omega⟩
    · have hzero := hs.2 hnew
      exact ⟨by omega, fun hl => absurd hlt (Nat.not_lt.mpr hl)⟩

/-- The inverted test leaves one half of the purpose alone: an action runs at most once
and only when it is due. -/
theorem runs_once {s : Scheduler} (h : machine.Reachable s) :
    (runs s.log).Nodup ∧ ∀ task now, .ran task now ∈ s.log → task.eventTime < now := by
  constructor
  · rw [List.nodup_iff_count]
    intro handle
    have hone := (reachable_copies h handle).1
    simp only [copies] at hone
    omega
  · refine h.invariant (P := fun s => ∀ task now, .ran task now ∈ s.log → task.eventTime < now)
      (by simp [machine, new]) fun {s s' _} _ hs _ hstep task now hran => ?_
    cases step_move hstep with
    | run _ _ hdue =>
      rcases List.mem_append.mp hran with hran | hran
      · exact hs task now hran
      · cases List.mem_singleton.mp hran
        exact hdue
    | push _ | drop _ _ | drain _ _ | exhausted _ _ | putBack _ _ _ =>
      exact hs task now (by simpa using hran)
    | _ => exact hs task now hran

end Scheduler

end Ruactor
