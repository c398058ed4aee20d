import Ruactor.Library.Extraction
import Ruactor.Scheduler

/-!
# One firing pass

From the time the thread has read the clock until it goes back to its queue. While the
flags stay as they are, the loop takes the tasks out in the order of their event times
and may stop at the first active one that is not due.
-/

namespace Ruactor

namespace Scheduler

def Action.isThread : Action → Bool
  | .thread _ => true
  | _ => false

/-- The pass is not over, and no handle is dropped. -/
def Passing (s : Scheduler) : Action → Prop
  | .thread _ => s.thread ≠ .draining
  | .drop _ => False
  | _ => True

instance (s : Scheduler) : DecidablePred s.Passing
  | .thread _ => inferInstanceAs (Decidable (_ ≠ _))
  | .drop _ => isFalse id
  | .afterFunc _ | .push _ | .close | .tick _ => isTrue trivial

def fired (records : List Record) : List SchedulerTask :=
  records.filterMap fun
    | .ran task _ => some task
    | _ => none

/-- The tasks of `s₀` that have been taken out so far are `taken`. -/
def Taken (now : Instant) (s₀ : Scheduler) (taken : List SchedulerTask) (s : Scheduler) : Prop :=
  match s.thread with
  | .firing now' => now' = now ∧ Extracted SchedulerTask.eventTime s₀.bheap taken s.bheap
  | .popped now' task => now' = now ∧ (∀ other ∈ s.bheap, task.eventTime ≤ other.eventTime) ∧
      Extracted SchedulerTask.eventTime s₀.bheap taken (task :: s.bheap)
  | .draining => Extracted SchedulerTask.eventTime s₀.bheap taken s.bheap ∧
      ∀ task ∈ s.bheap, now ≤ task.eventTime
  | _ => False

structure InPass (now : Instant) (s₀ s : Scheduler) : Prop where
  flags : s.cancelled = s₀.cancelled
  pass : ∃ taken records, s.log = s₀.log ++ records ∧
    fired records = taken.filter s₀.isActive ∧
    (∀ task ∈ taken, s₀.isActive task = true → task.eventTime < now) ∧ Taken now s₀ taken s

/-- The steps that the thread can still take. -/
def remaining (s : Scheduler) : Nat :=
  match s.thread with
  | .firing _ => 2 * s.bheap.length + 1
  | .popped _ _ => 2 * s.bheap.length + 2
  | _ => 0

theorem cmp_ne_gt {task other : SchedulerTask} :
    other.cmp task ≠ .gt ↔ task.eventTime ≤ other.eventTime := by
  rw [SchedulerTask.cmp, Nat.compare_swap]
  exact Nat.compare_ne_gt

theorem fired_snoc (records : List Record) (r : Record) :
    fired (records ++ [r]) = fired records ++ fired [r] := List.filterMap_append

theorem InPass.step {now : Instant} {s₀ s s' : Scheduler} {a : Action} (h : InPass now s₀ s)
    (ok : s.Passing a) (move : Move s a s') :
    InPass now s₀ s' ∧ s'.remaining + a.isThread.toNat ≤ s.remaining := by
  obtain ⟨hflags, taken, records, hlog, hfired, hdue, htaken⟩ := h
  cases move with
  | afterFunc | close | tick =>
    exact ⟨⟨hflags, taken, records, hlog, hfired, hdue, htaken⟩, Nat.le_refl _⟩
  | drop _ _ => exact ok.elim
  | @push i eventTime _ =>
    refine ⟨⟨hflags, taken, records ++ [.scheduled ⟨eventTime, s.handles⟩], by simp [hlog], ?_,
      hdue, htaken⟩, Nat.le_refl _⟩
    rw [fired_snoc, hfired]
    exact List.append_nil _
  | drainedAll hthread _ | closed hthread _ | drain hthread _ => exact absurd hthread ok
  | keep hthread _ | discard hthread _ | readNow hthread =>
    simp [Taken, hthread] at htaken
  | @exhausted pick now' hthread hempty =>
    simp only [Taken, hthread] at htaken
    obtain ⟨rfl, hextracted⟩ := htaken
    refine ⟨⟨hflags, taken, records ++ [.passed now'], by simp [hlog], ?_, hdue, hextracted,
      by simp [hempty]⟩, by simp [remaining, hthread, Action.isThread]⟩
    rw [fired_snoc, hfired]
    exact List.append_nil _
  | @pop pick now' task bheap hthread hperm hmax =>
    simp only [Taken, hthread] at htaken
    obtain ⟨rfl, hextracted⟩ := htaken
    refine ⟨⟨hflags, taken, records, hlog, hfired, hdue, rfl, fun other hother => ?_,
      hextracted.congr hperm⟩, ?_⟩
    · exact cmp_ne_gt.mp (hmax other (hperm.mem_iff.mpr (List.mem_cons_of_mem _ hother)))
    · simp [remaining, hthread, Action.isThread, hperm.length_eq]
      omega
  | @run pick now' task hthread hactive hlate =>
    simp only [Taken, hthread] at htaken
    obtain ⟨rfl, hleast, hextracted⟩ := htaken
    have hactive : s₀.isActive task = true := by simpa [isActive, ← hflags] using hactive
    refine ⟨⟨hflags, taken ++ [task], records ++ [.ran task now'], by simp [hlog], ?_, ?_, rfl,
      hextracted.take hleast⟩, by simp [remaining, hthread, Action.isThread]⟩
    · rw [fired_snoc, hfired, List.filter_append, List.filter_singleton, hactive]
      rfl
    · intro other hother hactive'
      rcases List.mem_append.mp hother with hother | hother
      · exact hdue other hother hactive'
      · rw [List.mem_singleton.mp hother]
        exact hlate
  | @putBack pick now' task hthread hactive hlate =>
    simp only [Taken, hthread] at htaken
    obtain ⟨rfl, hleast, hextracted⟩ := htaken
    refine ⟨⟨hflags, taken, records ++ [.passed now'], by simp [hlog], ?_, hdue,
      hextracted.congr (List.perm_append_singleton task s.bheap).symm, fun other hother => ?_⟩,
      by simp [remaining, hthread, Action.isThread]⟩
    · rw [fired_snoc, hfired]
      exact List.append_nil _
    · have hlate := Nat.le_of_not_lt hlate
      rcases List.mem_append.mp hother with hother | hother
      · exact Nat.le_trans hlate (hleast other hother)
      · rw [List.mem_singleton.mp hother]
        exact hlate
  | @skip pick now' task hthread hinactive =>
    simp only [Taken, hthread] at htaken
    obtain ⟨rfl, hleast, hextracted⟩ := htaken
    have hinactive : s₀.isActive task = false := by simpa [isActive, ← hflags] using hinactive
    refine ⟨⟨hflags, taken ++ [task], records, hlog, ?_, ?_, rfl, hextracted.take hleast⟩,
      by simp [remaining, hthread, Action.isThread]⟩
    · rw [hfired, List.filter_append, List.filter_singleton, hinactive]
      exact (List.append_nil _).symm
    · intro other hother hactive
      rcases List.mem_append.mp hother with hother | hother
      · exact hdue other hother hactive
      · rw [List.mem_singleton.mp hother, hinactive] at hactive
        cases hactive

theorem InPass.exec {now : Instant} {s₀ s s' : Scheduler} {as : List Action}
    (h : InPass now s₀ s) (ok : machine.Allows Passing s as)
    (run : machine.exec s as = some s') :
    InPass now s₀ s' ∧ s'.remaining + as.countP Action.isThread ≤ s.remaining := by
  induction as generalizing s with
  | nil =>
    cases run
    exact ⟨h, Nat.le_refl _⟩
  | cons a as ih =>
    obtain ⟨t, hstep, hrest⟩ := Option.bind_eq_some_iff.mp run
    have hok : s.Passing a ∧ machine.Allows Passing t as := by
      simpa [Machine.Allows, hstep] using ok
    obtain ⟨ht, hlt⟩ := h.step hok.1 (step_move hstep)
    obtain ⟨hs', hle⟩ := ih ht hok.2 hrest
    refine ⟨hs', ?_⟩
    rw [List.countP_cons]
    cases hthread : a.isThread with
    | true =>
      rw [hthread] at hlt
      simp only [Bool.toNat_true, if_true] at hlt ⊢
      omega
    | false =>
      rw [hthread] at hlt
      simp only [Bool.toNat_false, Bool.false_eq_true, if_false] at hlt ⊢
      omega

/-- The thread is never stuck in the pass. -/
theorem InPass.enabled {now : Instant} {s₀ s : Scheduler} (h : InPass now s₀ s)
    (hthread : s.thread ≠ .draining) : ∃ pick, (s.threadStep pick).isSome := by
  obtain ⟨-, taken, records, -, -, -, htaken⟩ := h
  cases hpoint : s.thread with
  | firing now' =>
    cases hheap : s.bheap with
    | nil => exact ⟨0, by simp [threadStep, hpoint, hheap]⟩
    | cons head rest =>
      obtain ⟨pick, task, hget, hleast⟩ : ∃ (pick : Nat) (task : SchedulerTask),
          s.bheap[pick]? = some task ∧ ∀ other ∈ s.bheap, task.eventTime ≤ other.eventTime :=
        Extracted.exists_least (by simp [hheap])
      have hpop : s.pop pick = some (task, s.bheap.eraseIdx pick) := by
        simp only [pop, hget]
        exact if_pos fun other hother => cmp_ne_gt.mpr (hleast other hother)
      refine ⟨pick, ?_⟩
      simp only [threadStep, hpoint, hpop]
      split <;> rfl
  | popped now' task =>
    refine ⟨0, ?_⟩
    simp only [threadStep, hpoint]
    split_ifs <;> rfl
  | draining => exact absurd hpoint hthread
  | _ => simp [Taken, hpoint] at htaken

/-- What a pass has done, from `s₀` to `s`. -/
structure Complete (now : Instant) (s₀ s : Scheduler) : Prop where
  ran : ∃ records, s.log = s₀.log ++ records ∧
    (fired records).Perm (s₀.bheap.filter fun task =>
      s₀.isActive task && decide (task.eventTime < now)) ∧
    (fired records).Pairwise fun a b => a.eventTime ≤ b.eventTime
  kept : (s.bheap.filter s₀.isActive).Perm (s₀.bheap.filter fun task =>
    s₀.isActive task && decide (now ≤ task.eventTime))
  late : ∀ task ∈ s.bheap, now ≤ task.eventTime
  old : s.bheap.Subperm s₀.bheap

theorem InPass.complete {now : Instant} {s₀ s : Scheduler} (h : InPass now s₀ s)
    (hthread : s.thread = .draining) : Complete now s₀ s := by
  obtain ⟨-, taken, records, hlog, hfired, hdue, htaken⟩ := h
  simp only [Taken, hthread] at htaken
  obtain ⟨hextracted, hlate⟩ := htaken
  obtain ⟨hran, hkept⟩ := hextracted.chosen hdue hlate
  refine ⟨⟨records, hlog, hfired ▸ hran, hfired ▸ hextracted.sorted.filter _⟩, hkept, hlate, ?_⟩
  exact (List.sublist_append_right taken s.bheap).subperm.trans hextracted.perm.symm.subperm

theorem firing_pass {now : Instant} {s₀ s : Scheduler} {as : List Action}
    (hthread : s₀.thread = .firing now) (ok : machine.Allows Passing s₀ as)
    (run : machine.exec s₀ as = some s) :
    as.countP Action.isThread ≤ 2 * s₀.bheap.length + 1 ∧
      (s.thread ≠ .draining → ∃ pick, (s.threadStep pick).isSome) ∧
      (s.thread = .draining → Complete now s₀ s) := by
  have hstart : InPass now s₀ s₀ := by
    refine ⟨rfl, [], [], (List.append_nil _).symm, rfl, nofun, ?_⟩
    simp only [Taken, hthread]
    exact ⟨trivial, .start _⟩
  obtain ⟨hpass, hle⟩ := hstart.exec ok run
  refine ⟨?_, hpass.enabled, hpass.complete⟩
  simp only [remaining, hthread] at hle
  omega

/-- Two tasks are due, a third is not, and one that is due is not active. A call of
`after_func` comes in between. -/
def passScheduler : Scheduler where
  clock := 9
  queue := []
  calls := []
  handles := 4
  cancelled := [0, 1, 2]
  bheap := [⟨7, 0⟩, ⟨20, 1⟩, ⟨3, 2⟩, ⟨5, 3⟩]
  thread := .firing 9
  log := []

def passRun : List Action :=
  [.thread 2, .thread 0, .afterFunc 1, .thread 2, .thread 0, .push 0, .thread 0, .thread 0,
    .thread 0, .thread 0]

theorem passRun_complete : Complete 9 passScheduler
    ((machine.exec passScheduler passRun).get (by decide +kernel)) :=
  (firing_pass rfl (by decide +kernel) (Option.some_get _).symm).2.2 (by decide +kernel)

end Scheduler

end Ruactor
