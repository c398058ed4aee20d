import Ruactor.Alarms

/-!
# Receive timeouts

A timeout is noticed when the alarm of a call of `schedule_receive_timeout` is processed.
The alarm is compared with the timeout that is set by then. When a new timeout was set after
the alarm had gone off, the message of the old one is not told from one of the new.
-/

namespace Ruactor

open Machine History

variable {T : Type} {path : ActorPath} {option : PropsOption} {parent : ParentRef}

/-- What a log says about the timeout: the one that is set and when it was, the alarms that
were given to the scheduler since, whether it has been noticed since, and when the processing
of the last user or timer message began. -/
structure Timeouts (T : Type) where
  current : Option (Duration × Instant) := none
  alarms : List (Message T) := []
  noticed : Bool := false
  last : Option Instant := none

namespace Timeouts

def next (w : Timeouts T) : Event T → Timeouts T
  | .timeoutSet d now => { w with current := some (d, now), alarms := [], noticed := false }
  | .timeoutCancelled => { w with current := none }
  | .afterFunc _ _ msg => { w with alarms := w.alarms ++ [msg] }
  | .systemDelivered _ _ _ => { w with noticed := true }
  | .received now => { w with last := some now }
  | _ => w

def read (log : List (Event T)) : Timeouts T := log.foldl next {}

@[simp] theorem read_append (log events : List (Event T)) :
    read (log ++ events) = events.foldl next (read log) := List.foldl_append

theorem read_snoc (log : List (Event T)) (e : Event T) :
    read (log ++ [e]) = (read log).next e := read_append log [e]

theorem next_untimed {w : Timeouts T} {e : Event T} (h : e.timed = false) : w.next e = w := by
  cases e <;> first | rfl | cases h

/-- At the instant, this timeout has passed since it was set and since the last message. -/
def Passed (w : Timeouts T) (now : Instant) : Prop :=
  ∃ d since, w.current = some (d, since) ∧ since + d ≤ now ∧ ∀ last ∈ w.last, last + d ≤ now

end Timeouts

/-- The timeout is not noticed before it has passed. -/
def Timely (before : List (Event T)) : Event T → Prop
  | .systemDelivered _ _ now => (Timeouts.read before).Passed now
  | .afterFunc _ t (.receiveTimeout exp _) => t = exp
  | _ => True

namespace Cell

/-- The context has the timeout that was set last, and no alarm since then is too early. -/
structure Paced (s : Setting) (context : ActorContext T) (log : List (Event T)) : Prop where
  timeout : context.receiveTimeout = (Timeouts.read log).current.map Prod.fst
  since : ∀ d since, (Timeouts.read log).current = some (d, since) → since ≤ s.rt.clock ∧
    (∀ last ∈ (Timeouts.read log).last, last ≤ since ∨ last ≤ s.stamp) ∧
    ∀ exp handle, .receiveTimeout exp handle ∈ (Timeouts.read log).alarms → since + d ≤ exp
  last : ∀ last ∈ (Timeouts.read log).last, last ≤ s.rt.clock
  law : Lawful Timely log

theorem Paced.silent {s s' : Setting} {context context' : ActorContext T} {log : List (Event T)}
    {e : Event T} {noticed : Bool} (h : Paced s context log) (he : Timely log e)
    (hnext : (Timeouts.read log).next e = { Timeouts.read log with noticed := noticed })
    (htimeout : context'.receiveTimeout = context.receiveTimeout)
    (hstamp : s'.stamp = s.stamp) (hclock : s.rt.clock ≤ s'.rt.clock) :
    Paced s' context' (log ++ [e]) := by
  have hread := (Timeouts.read_snoc log e).trans hnext
  refine ⟨?_, fun d since hcurrent => ?_, fun last hlast => ?_, h.law.snoc he⟩
  · rw [hread, htimeout, h.timeout]
  · rw [hread] at hcurrent ⊢
    obtain ⟨hsince, hlast, halarms⟩ := h.since d since hcurrent
    exact ⟨hsince.trans hclock, hstamp ▸ hlast, halarms⟩
  · rw [hread] at hlast
    exact (h.last last hlast).trans hclock

theorem Paced.arm {s : Setting} {context context' : ActorContext T} {log : List (Event T)}
    (h : Paced s context log) (htimeout : context'.receiveTimeout = context.receiveTimeout)
    {handle : Scheduled} {t : Instant} {msg : Message T}
    (hmsg : ∀ exp handle', msg = .receiveTimeout exp handle' → t = exp ∧
      ∀ d since, (Timeouts.read log).current = some (d, since) → since + d ≤ exp) :
    Paced s.issue context' (log ++ [.afterFunc handle t msg]) := by
  refine ⟨?_, fun d since hcurrent => ?_, fun last hlast => ?_, h.law.snoc ?_⟩
  · rw [htimeout, h.timeout, Timeouts.read_snoc]
    rfl
  · rw [Timeouts.read_snoc] at hcurrent ⊢
    obtain ⟨hsince, hlast, halarms⟩ := h.since d since hcurrent
    refine ⟨hsince, hlast, fun exp handle' hmem => ?_⟩
    rcases List.mem_append.mp hmem with hold | hnew
    · exact halarms exp handle' hold
    · exact (hmsg exp handle' (List.mem_singleton.mp hnew).symm).2 d since hcurrent
  · rw [Timeouts.read_snoc] at hlast
    exact h.last last hlast
  · cases msg with
    | receiveTimeout exp handle' => exact (hmsg exp handle' rfl).1
    | _ => trivial

theorem Paced.set {s : Setting} {context : ActorContext T} {log : List (Event T)}
    (h : Paced s context log) (d : Duration) :
    Paced s { context with receiveTimeout := some d } (log ++ [.timeoutSet d s.rt.clock]) := by
  refine ⟨?_, fun d' since hcurrent => ?_, fun last hlast => ?_, h.law.snoc trivial⟩
  · rw [Timeouts.read_snoc]
    rfl
  · rw [Timeouts.read_snoc] at hcurrent ⊢
    cases hcurrent
    exact ⟨Nat.le_refl _, fun last hlast => .inl (h.last last hlast), nofun⟩
  · rw [Timeouts.read_snoc] at hlast
    exact h.last last hlast

theorem Paced.unset {s : Setting} {context : ActorContext T} {log : List (Event T)}
    (h : Paced s context log) :
    Paced s { context with receiveTimeout := none, scheduledReceiveTimeout := none }
      (log ++ [.timeoutCancelled]) := by
  refine ⟨?_, fun d since hcurrent => ?_, fun last hlast => ?_, h.law.snoc trivial⟩
  · rw [Timeouts.read_snoc]
    rfl
  · rw [Timeouts.read_snoc] at hcurrent
    cases hcurrent
  · rw [Timeouts.read_snoc] at hlast
    exact h.last last hlast

theorem Paced.received {s : Setting} {context : ActorContext T} {log : List (Event T)}
    (h : Paced s context log) :
    Paced (s.touched context) context (log ++ [.received s.rt.clock]) := by
  have hclock : (s.touched context).rt.clock = s.rt.clock := by simp
  refine ⟨?_, fun d since hcurrent => ?_, fun last hlast => ?_, h.law.snoc trivial⟩
  · rw [Timeouts.read_snoc]
    exact h.timeout
  · rw [Timeouts.read_snoc] at hcurrent ⊢
    have hset : context.receiveTimeout.isSome := by
      rw [h.timeout]
      exact hcurrent ▸ rfl
    obtain ⟨hsince, -, halarms⟩ := h.since d since hcurrent
    refine ⟨hclock.symm ▸ hsince, ?_, halarms⟩
    rintro last ⟨⟩
    exact .inr (by simp [Setting.touched, hset])
  · rw [Timeouts.read_snoc] at hlast
    cases hlast
    exact Nat.le_of_eq hclock.symm

theorem paced_timed : Timed (T := T) Paced where
  start {s context log} name d msg h := by
    have hstart : Paced s context (log ++ [.timerStarted name context.timerGen]) :=
      h.silent trivial rfl rfl rfl (Nat.le_refl _)
    rw [List.append_cons]
    exact hstart.arm (by rfl) (by simp)
  startFailed name h := h.silent trivial rfl rfl rfl (Nat.le_refl _)
  cancel name h := h.silent trivial rfl rfl rfl (Nat.le_refl _)
  set {s context log} d h := by
    rw [List.append_cons]
    refine (h.set d).arm (by rfl) fun exp handle' hmsg => ?_
    cases hmsg
    refine ⟨rfl, fun d' since hcurrent => ?_⟩
    rw [Timeouts.read_snoc] at hcurrent
    cases hcurrent
    exact Nat.le_refl _
  setFailed d _ h := h.set d
  unset h := h.unset
  untimed {s context log e} he h := by
    refine h.silent ?_ (Timeouts.next_untimed he) rfl rfl (Nat.le_refl _)
    cases e <;> trivial
  same {s s' context context' log} h hsame hstamp hclock _ := by
    refine ⟨hsame.receiveTimeout ▸ h.timeout, fun d since hcurrent => ?_,
      fun last hlast => (h.last last hlast).trans hclock, h.law⟩
    obtain ⟨hsince, hlast, halarms⟩ := h.since d since hcurrent
    exact ⟨hsince.trans hclock, hstamp ▸ hlast, halarms⟩

/-- An alarm of an earlier timeout that is too early for the one that is set, and gets as far
as the comparison with it. -/
def Stale (s : Setting) (log : List (Event T)) (numMsg : Nat) : Message T → Prop
  | .receiveTimeout exp handle =>
    .receiveTimeout exp handle ∉ (Timeouts.read log).alarms ∧ numMsg = 0 ∧ s.stamp < exp ∧
      ∃ timeout ∈ (Timeouts.read log).current, exp < timeout.2 + timeout.1
  | _ => False

instance [DecidableEq T] (s : Setting) (log : List (Event T)) (numMsg : Nat) (msg : Message T) :
    Decidable (Stale s log numMsg msg) :=
  match msg with
  | .receiveTimeout _ _ => inferInstanceAs (Decidable (_ ∧ _ ∧ _ ∧ ∃ timeout ∈ _, _))
  | .user _ | .timer _ _ _ _ | .autoMessage _ => isFalse id

theorem paced_processing {s : Setting} {context : ActorContext T} {log : List (Event T)}
    (h : Paced s context log) {numMsg : Nat} {message : Message T}
    (hdue : ∀ exp handle, message = .receiveTimeout exp handle → exp ≤ s.rt.clock)
    (hfresh : ¬ Stale s log numMsg message) : Processing Paced s context log numMsg message := by
  -- an alarm that gets as far as the comparison is not too early for the timeout
  have late : ∀ {exp handle tmout}, message = .receiveTimeout exp handle →
      context.receiveTimeout = some tmout → numMsg = 0 → s.stamp < exp →
      ∃ since, (Timeouts.read log).current = some (tmout, since) ∧ since + tmout ≤ exp := by
    intro exp handle tmout hmsg htimeout hempty hlate
    subst hmsg
    rw [h.timeout, Option.map_eq_some_iff] at htimeout
    obtain ⟨⟨d, since⟩, hcurrent, rfl⟩ := htimeout
    refine ⟨since, hcurrent, ?_⟩
    by_contra hearly
    refine hfresh ⟨fun hmem => hearly ?_, hempty, hlate, _, hcurrent, Nat.lt_of_not_le hearly⟩
    exact (h.since _ _ hcurrent).2.2 exp handle hmem
  have rearmed : ∀ d, (∀ tmout since, (Timeouts.read log).current = some (tmout, since) →
      since + tmout ≤ s.rt.clock + d) →
      Paced s.issue (s.rearm context d).1 (log ++ [(s.rearm context d).2]) := by
    intro d hd
    refine h.arm (by rfl) fun exp handle' hmsg => ?_
    cases hmsg
    exact ⟨rfl, hd⟩
  exact
    { received := fun _ => h.received
      pill := fun _ => h.silent trivial rfl rfl rfl (Nat.le_refl _)
      unset := fun _ _ _ _ => h
      timer := fun _ _ _ _ _ _ _ _ _ =>
        h.received.silent trivial rfl rfl rfl (Nat.le_refl _)
      expired := by
        intro actor exp handle tmout hmsg htimeout hempty hlate hlong
        obtain ⟨since, hcurrent, hsince⟩ := late hmsg htimeout hempty hlate
        have hexp := hdue exp handle hmsg
        refine h.silent ⟨tmout, since, hcurrent, hsince.trans hexp, fun last hlast => ?_⟩
          rfl rfl rfl (Nat.le_refl _)
        rcases (h.since _ _ hcurrent).2.1 last hlast with hbefore | hstamp
        · exact (Nat.add_le_add_right hbefore _).trans (hsince.trans hexp)
        · calc last + tmout ≤ s.stamp + tmout := Nat.add_le_add_right hstamp _
            _ ≤ exp := Nat.add_le_of_le_sub' hlate.le hlong
            _ ≤ s.rt.clock := hexp
      early := by
        intro exp handle tmout hmsg htimeout hempty hlate hshort
        obtain ⟨since, hcurrent, hsince⟩ := late hmsg htimeout hempty hlate
        refine rearmed _ fun tmout' since' hcurrent' => ?_
        cases hcurrent.symm.trans hcurrent'
        calc since + tmout ≤ exp := hsince
          _ ≤ s.stamp + tmout := ((Nat.sub_lt_iff_lt_add' hlate.le).mp hshort).le
          _ ≤ s.rt.clock + (s.stamp + tmout - s.rt.clock) :=
            Nat.sub_le_iff_le_add'.mp (Nat.le_refl _)
      again := by
        intro tmout htimeout
        refine rearmed _ fun tmout' since' hcurrent' => ?_
        have hsame : tmout = tmout' := by
          simpa [h.timeout, hcurrent', eq_comm] using htimeout
        exact hsame ▸ Nat.add_le_add_right (h.since _ _ hcurrent').1 _
      failed := fun _ _ _ _ _ _ _ _ => h }

end Cell

/-- The message that is to be processed. -/
def Task.message : Task T → Option (Message T)
  | .looping _ (.processing _ msg) => some msg
  | _ => none

namespace Node

/-- The scheduler runs no action before its time. -/
def due (nd : Node T) (a : Action T) : Prop :=
  ∀ msg ∈ a.message nd.mbox.option, ∀ handle ∈ msg.handle,
    ∃ alarm ∈ alarms nd.mbox.log, alarm.2 = msg ∧ alarm.1 ≤ nd.mbox.rt.clock

instance [DecidableEq T] (nd : Node T) (a : Action T) : Decidable (due nd a) :=
  inferInstanceAs (Decidable (∀ msg ∈ a.message nd.mbox.option, ∀ handle ∈ msg.handle, _))

/-- No alarm of an earlier timeout is compared with the one that is set. -/
def fresh (m : Mailbox T) (t : Task T) (_ : TaskInput T) : Prop :=
  ∀ msg ∈ t.message, ¬ Cell.Stale m.setting m.log m.numUserMessage msg

instance [DecidableEq T] (m : Mailbox T) (t : Task T) (input : TaskInput T) :
    Decidable (fresh m t input) :=
  inferInstanceAs (Decidable (∀ msg ∈ t.message, ¬ _))

theorem offers_due {ok : Node T → Action T → Prop} (hok : ∀ nd a, ok nd a → due nd a)
    {nd : Node T} (h : (machine path option parent).Reach ok nd) :
    ∀ msg ∈ nd.offers, ∀ handle ∈ msg.handle,
      ∃ alarm ∈ alarms nd.mbox.log, alarm.2 = msg ∧ alarm.1 ≤ nd.mbox.rt.clock := by
  refine reach_offers
    (P := fun m msg => ∀ handle ∈ msg.handle,
      ∃ alarm ∈ alarms m.log, alarm.2 = msg ∧ alarm.1 ≤ m.rt.clock)
    (fun hlog hclock hgood handle hhandle => ?_)
    (fun allowed hmsg handle hhandle => hok _ _ allowed _ hmsg handle hhandle) h
  obtain ⟨alarm, halarm, hmsg, ht⟩ := hgood handle hhandle
  exact ⟨alarm, (hlog.filterMap Event.alarm).subset halarm, hmsg, ht.trans hclock⟩

theorem reach_paced {nd : Node T}
    (h : (machine path option parent).Reach (fun nd a => due nd a ∧ okTask fresh nd a) nd) :
    nd.mbox.Kept Cell.Paced := by
  refine reach_kept Cell.paced_timed ⟨rfl, nofun, nofun, lawful_nil⟩ ?_ h
  intro nd i input n src msg hr _ allowed hi context _ hj
  refine Cell.paced_processing hj (fun exp handle hmsg => ?_) (allowed.2 _ hi msg rfl)
  subst hmsg
  have hpushed := pushed_of_processing hr.reachable hi (by simp)
  obtain ⟨⟨t, msg⟩, halarm, rfl, ht⟩ :=
    offers_due (fun _ _ ok => ok.1) hr _ (offers_of_pushed hpushed) handle rfl
  obtain ⟨e, he, hsome⟩ := List.mem_filterMap.mp halarm
  cases e <;> cases hsome
  obtain ⟨before, after, hlog⟩ := List.append_of_mem he
  have hexp : t = exp := hj.law _ _ _ hlog
  exact hexp ▸ ht

/-- The timeout is not noticed before it has passed. -/
theorem timeout_not_premature {nd : Node T}
    (h : (machine path option parent).Reach (fun nd a => due nd a ∧ okTask fresh nd a) nd) :
    ∀ before i message now after,
      nd.mbox.log = before ++ .systemDelivered i message now :: after →
        (Timeouts.read before).Passed now := by
  intro before i message now after hlog
  obtain ⟨_, -, hpaced⟩ := reach_paced h
  exact hpaced.law before _ after hlog

/-- The alarm goes off while the handler runs, which then sets a shorter timeout. -/
def hastyRun : List (Action Nat) :=
  sending (.user 1) ++
    callbacks [⟨.create, [], false⟩, ⟨.onEnter, [.setReceiveTimeout 100], false⟩] ++ turns 3 ++
    .tick 50 :: callbacks [⟨.onMessage, [.elapse 51, .setReceiveTimeout 10], false⟩] ++
    sending (.receiveTimeout 100 0) ++ turns 4 ++ callbacks [⟨.onSystemMessage, [], false⟩]

def hastyNode : Node Nat := (sample.exec sample.start hastyRun).get (by decide +kernel)

theorem hastyNode_run : sample.exec sample.start hastyRun = some hastyNode :=
  (Option.some_get _).symm

theorem hasty_premature : sample.Reach (fun nd a => due nd a ∧ adversarial nd a) hastyNode ∧
    ∃ before, hastyNode.mbox.log = before ++ [.systemDelivered 0 .receiveTimeout 101] ∧
      ¬ (Timeouts.read before).Passed 101 := by
  refine ⟨Reach.exec .start (by decide +kernel) hastyNode_run, hastyNode.mbox.log.dropLast,
    by decide +kernel, ?_⟩
  rintro ⟨d, since, hcurrent, hsince, -⟩
  have hset : (Timeouts.read hastyNode.mbox.log.dropLast).current = some (10, 101) := by
    decide +kernel
  cases hset.symm.trans hcurrent
  exact absurd hsince (by decide)

/-- A message delays the timeout, which is noticed after the second alarm. -/
def patientRun : List (Action Nat) :=
  sending (.user 1) ++
    callbacks [⟨.create, [], false⟩, ⟨.onEnter, [.setReceiveTimeout 100], false⟩] ++ turns 3 ++
    .tick 50 :: callbacks [⟨.onMessage, [], false⟩] ++ .tick 50 ::
    sending (.receiveTimeout 100 0) ++ turns 5 ++ .tick 50 :: sending (.receiveTimeout 150 1) ++
    turns 4 ++ callbacks [⟨.onSystemMessage, [], false⟩]

def patientNode : Node Nat := (sample.exec sample.start patientRun).get (by decide +kernel)

theorem patientNode_run : sample.exec sample.start patientRun = some patientNode :=
  (Option.some_get _).symm

theorem timeout_not_premature_patient :
    (Timeouts.read patientNode.mbox.log.dropLast).Passed 150 :=
  timeout_not_premature (Reach.exec .start (by decide +kernel) patientNode_run) _ 0
    .receiveTimeout 150 [] (by decide +kernel)

end Node

end Ruactor
