import Ruactor.Family
import Ruactor.Logging

/-!
# How an actor ends

An actor has no parent exactly when it has notified it, and it notifies its parent
after the last `on_exit`. So `terminate` is begun once, and an actor that has begun it
runs no callback but those of that `terminate`.
-/

namespace Ruactor

open Machine

variable {T : Type} {path : ActorPath} {option : PropsOption} {parent : ParentRef}

/-- `terminate` has begun and called `on_exit`. -/
def Left (log : List (Event T)) : Prop :=
  ∃ before i after, log = before ++ .terminating :: .exited i :: after

/-- The parent was notified after that, and no `on_exit` was called later. -/
def Farewell (path : ActorPath) (log : List (Event T)) : Prop :=
  ∃ before p after, log = before ++ .notified p path :: after ∧ Left before ∧
    ∀ i, .exited i ∉ after

theorem Left.append {log : List (Event T)} (h : Left log) (events : List (Event T)) :
    Left (log ++ events) := by
  obtain ⟨before, i, after, rfl⟩ := h
  exact ⟨before, i, after ++ events, by simp⟩

theorem Left.terminating {log : List (Event T)} (h : Left log) : .terminating ∈ log := by
  obtain ⟨before, i, after, rfl⟩ := h
  simp

theorem Farewell.append {path : ActorPath} {log events : List (Event T)} (h : Farewell path log)
    (hevents : ∀ i, .exited i ∉ events) : Farewell path (log ++ events) := by
  obtain ⟨before, p, after, rfl, hleft, hafter⟩ := h
  refine ⟨before, p, after ++ events, by simp, hleft, fun i hi => ?_⟩
  exact (List.mem_append.mp hi).elim (hafter i) (hevents i)

theorem Farewell.left {path : ActorPath} {log : List (Event T)} (h : Farewell path log) :
    Left log := by
  obtain ⟨before, p, after, rfl, hleft, -⟩ := h
  exact hleft.append _

def Event.leaves : Event T → Bool
  | .terminating => true
  | _ => false

namespace Mailbox

/-- `terminate` is not begun, or it is done. -/
def Whole (m : Mailbox T) : Prop := .terminating ∈ m.log → m.dispatcher.parent = none

def Leaving (m : Mailbox T) : Task T → Prop
  | .looping _ .notifying => Left m.log
  | _ => m.Whole

structure Once (m : Mailbox T) : Prop where
  farewell : m.dispatcher.parent = none → Farewell m.path m.log
  count : m.log.countP Event.leaves ≤ 1

variable {m m' : Mailbox T} {events : List (Event T)}

theorem Whole.append (h : m.Whole) (hlog : m'.log = m.log ++ events)
    (hparent : m.dispatcher.parent = none → m'.dispatcher.parent = none)
    (hevents : .terminating ∉ events) : m'.Whole := by
  intro hmem
  rw [hlog] at hmem
  exact hparent (h ((List.mem_append.mp hmem).resolve_right hevents))

theorem leaves_eq_zero (h : .terminating ∉ events) : events.countP Event.leaves = 0 := by
  rw [List.countP_eq_zero]
  intro e he hleaves
  cases e <;> first | exact h he | cases hleaves

theorem Once.append (h : m.Once) (hlog : m'.log = m.log ++ events) (hpath : m'.path = m.path)
    (hparent : m'.dispatcher.parent = m.dispatcher.parent) (hevents : .terminating ∉ events)
    (hexited : m.dispatcher.parent = none → ∀ i, .exited i ∉ events) : m'.Once := by
  refine ⟨fun hnone => ?_, ?_⟩
  · rw [hparent] at hnone
    rw [hlog, hpath]
    exact (h.farewell hnone).append (hexited hnone)
  · rw [hlog, List.countP_append, leaves_eq_zero hevents]
    exact h.count

theorem Env.logs (h : m.Env m') : ∃ events, m'.log = m.log ++ events ∧
    .terminating ∉ events ∧ ∀ i, .exited i ∉ events := by
  cases h with
  | same | tick _ => exact ⟨[], (List.append_nil _).symm, nofun, fun _ => nofun⟩
  | rejected _ | watchReturned _ _ | pushed _ _ | pushedInternal _ =>
    exact ⟨_, rfl, by simp, by simp⟩

theorem Logs.terminating_leaves {t : Task T} {e : Event T} (h : m.Logs t e)
    (he : e = .terminating) : t.leaves = true := by
  subst he
  cases h with
  | called _ hc _ _ => cases hc
  | terminating => rfl

theorem Logs.exited_parent {t : Task T} {e : Event T} (h : m.Logs t e) {i : InstanceId}
    (he : e = .exited i) : m.dispatcher.parent ≠ none := by
  subst he
  cases h with
  | called _ _ hparent _ => exact hparent

theorem Move.notifying {input : TaskInput T} {t : Task T} {r : TaskStep T}
    (move : m.Move input t r) {n : Nat} (h : r.next = some (.looping n .notifying)) :
    t.leaves = true := by
  cases move with
  | terminate _ => rfl
  | start _ hf | process hf =>
    obtain ⟨c, -, -, -, hn, -⟩ | ⟨c, -, -, -, hn, -⟩ := finish_cases hf <;>
      rw [hn] at h <;> cases h
  | _ => cases h

theorem leaving_iff {t : Task T} (ht : ∀ n, t ≠ .looping n .notifying) :
    m.Leaving t ↔ m.Whole := by
  cases t with
  | looping n stage =>
    cases stage with
    | notifying => exact absurd rfl (ht n)
    | _ => rfl
  | _ => rfl

theorem Move.leaving {input : TaskInput T} {t : Task T} {r : TaskStep T}
    (move : m.Move input t r) (hphase : m.Phase t) (hl : m.Leaving t) (ho : m.Once) :
    r.mbox.Once ∧ ∀ t' ∈ r.next, r.mbox.Leaving t' ∧ (t = .storing → r.mbox.Whole) := by
  cases hleaves : t.leaves with
  | true =>
    obtain ⟨n, rfl⟩ := Task.leaves_iff.mp hleaves
    cases move with
    | terminate hf =>
      have hwhole : m.Whole := hl
      have hne : m.dispatcher.parent ≠ none := hphase.2.parent
      obtain ⟨hparent, i, rest, hlog, hcalled⟩ := terminate_spoken hphase hf
      have hrest : .terminating ∉ rest := fun hmem => by cases hcalled _ hmem
      refine ⟨⟨fun hnone => absurd (hparent ▸ hnone) hne, ?_⟩, fun t' ht' => ⟨?_, nofun⟩⟩
      · have hfirst := leaves_eq_zero fun hmem => hne (hwhole hmem)
        simp [hlog, List.countP_append, List.countP_cons, Event.leaves, hfirst,
          leaves_eq_zero hrest]
      · obtain ⟨_, -, -, -, hn, -⟩ | ⟨_, -, -, -, hn, -⟩ := finish_cases hf <;>
          rw [hn] at ht' <;> cases ht'
        exact ⟨m.log, i, rest, hlog⟩
  | false =>
    obtain ⟨events, hkin⟩ := move.kin hphase []
    obtain ⟨events', hlog, hlogs⟩ := move.logs hphase
    obtain rfl := List.append_cancel_left (hkin.log.symm.trans hlog)
    have hterminating : .terminating ∉ events := fun hmem => by
      simp [(hlogs _ hmem).terminating_leaves rfl] at hleaves
    have hnext : ∀ t' ∈ r.next, ∀ n, t' ≠ .looping n .notifying := by
      rintro t' ht' n rfl
      simp [move.notifying ht'] at hleaves
    rcases hkin.parent with ⟨hparent, -⟩ | ⟨p, hp, hgone, rfl⟩
    · have ht : ∀ n, t ≠ .looping n .notifying := by
        rintro n rfl
        cases move with
        | orphan hnone => exact hphase.2.1 hnone
        | notify hsome => exact hphase.2.1 hparent.symm
      have hwhole : r.mbox.Whole :=
        ((leaving_iff ht).mp hl).append hlog (fun hn => hparent.trans hn) hterminating
      refine ⟨ho.append hlog move.path hparent hterminating fun hnone i hmem =>
        (hlogs _ hmem).exited_parent rfl hnone, fun t' ht' => ?_⟩
      exact ⟨(leaving_iff (hnext t' ht')).mpr hwhole, fun _ => hwhole⟩
    · -- the notification of the parent
      have hlogged := hlogs _ List.mem_cons_self
      have hleft : Left m.log := by
        cases hlogged with
        | called _ hcalled _ _ => cases hcalled
        | notified _ => exact hl
      have hwhole : r.mbox.Whole := fun _ => hgone
      refine ⟨⟨fun _ => ⟨m.log, p, [], by rw [hlog, move.path], hleft, fun _ => nofun⟩, ?_⟩,
        fun t' ht' => ⟨(leaving_iff (hnext t' ht')).mpr hwhole, fun _ => hwhole⟩⟩
      rw [hlog, List.countP_append, leaves_eq_zero hterminating]
      exact ho.count

end Mailbox

namespace Node

theorem leaving_owned : Owned path option parent anyTask (Mailbox.Phase (T := T))
    Mailbox.Leaving Mailbox.Whole Mailbox.Once where
  start := ⟨nofun, nofun, Nat.zero_le _⟩
  env {m m'} henv := by
    obtain ⟨events, hlog, hterminating, hexited⟩ := henv.logs
    have hparent : m'.dispatcher.parent = m.dispatcher.parent := by rw [henv.dispatcher]
    have hwhole : m.Whole → m'.Whole :=
      fun h => h.append hlog (fun hn => hparent.trans hn) hterminating
    refine ⟨fun h => h.append hlog henv.path hparent hterminating fun _ => hexited, hwhole,
      fun t _ ht => ?_⟩
    by_cases hn : ∃ n, t = .looping n .notifying
    · obtain ⟨n, rfl⟩ := hn
      have hleft : Left m'.log := hlog ▸ Left.append ht events
      exact hleft
    · have hn : ∀ n, t ≠ .looping n .notifying := fun n he => hn ⟨n, he⟩
      exact (Mailbox.leaving_iff hn).mpr (hwhole ((Mailbox.leaving_iff hn).mp ht))
  acquire _ := ⟨fun h => ⟨h.farewell, h.count⟩, id⟩
  move move _ _ hphase hl ho := by
    obtain ⟨honce, hnext⟩ := move.leaving hphase hl ho
    exact ⟨honce, fun t' ht' => ⟨fun _ => (hnext t' ht').1, (hnext t' ht').2⟩⟩

theorem reachable_leaving {nd : Node T} (h : (machine path option parent).Reachable nd) :
    Held Mailbox.Leaving Mailbox.Whole Mailbox.Once nd :=
  leaving_owned.reachable (fun h => (reachable_phase h).loc) h

theorem births_before {nd : Node T} {a : Action T}
    (h : (machine path option parent).Reachable nd) {e : Event T}
    (he : nd.Logs a e) (hb : e.births = true) : .terminating ∉ nd.mbox.log := by
  cases he with
  | @task i input t _ hi hact hphase hlogs =>
    cases hlogs with
    | called hcalls _ hparent _ =>
      have hl := (reachable_leaving h).loc t (List.mem_of_getElem? hi) hact
      have ht : ∀ n, t ≠ .looping n .notifying := by
        rintro n rfl
        cases hcalls
      exact fun hmem => hparent ((Mailbox.leaving_iff ht).mp hl hmem)
    | _ => cases hb
  | watchReturned _ _ => cases hb
  | sent hs =>
    cases e <;> cases hb
    cases hs

end Node

end Ruactor
