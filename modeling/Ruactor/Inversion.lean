import Ruactor.Deadlines
import Ruactor.Handles
import Ruactor.Timers

/-!
# A mailbox under the inverted scheduler

The scheduler runs the action of an alarm only when the alarm's handle has been dropped. A
timer in the table of the context is held, so its message never comes while it could be of
use: what comes is the message of a timer that was replaced or cancelled, and the dispatcher
throws that away.
-/

namespace Ruactor

open Machine History

variable {T : Type} {path : ActorPath} {option : PropsOption} {parent : ParentRef}

def Event.systemic : Event T → Bool
  | .systemDelivered _ _ _ => true
  | _ => false

/-- The alarm of a receive timeout, or the failure to set one. -/
def Event.rearms : Event T → Bool
  | .afterFunc _ _ (.receiveTimeout _ _) => true
  | e => e.overrun

/-- Two starts with one generation are one start, if there are no more than there are
generations. -/
theorem handle_unique {log : List (Event T)} (hlaw : Lawful Timing log)
    (hfew : log.countP Event.starts ≤ 2 ^ 32) {key key' : String} {gen : Nat} {msg msg' : T}
    {handle handle' : Scheduled} {t t' : Instant}
    (h : .afterFunc handle t (.timer key gen msg handle) ∈ log)
    (h' : .afterFunc handle' t' (.timer key' gen msg' handle') ∈ log) : handle = handle' := by
  obtain ⟨before, after, hlog⟩ := List.append_of_mem h
  obtain ⟨before', after', hlog'⟩ := List.append_of_mem h'
  obtain ⟨earlier, rfl⟩ := hlaw _ _ _ hlog
  obtain ⟨earlier', rfl⟩ := hlaw _ _ _ hlog'
  have hstart : log = earlier ++ .timerStarted key gen ::
      .afterFunc handle t (.timer key gen msg handle) :: after := by simp [hlog]
  have hstart' : log = earlier' ++ .timerStarted key' gen ::
      .afterFunc handle' t' (.timer key' gen msg' handle') :: after' := by simp [hlog']
  have hgen : gen = earlier.countP Event.starts % 2 ^ 32 := hlaw _ _ _ hstart
  have hgen' : gen = earlier'.countP Event.starts % 2 ^ 32 := hlaw _ _ _ hstart'
  have hcount := congrArg (List.countP Event.starts) hstart
  have hcount' := congrArg (List.countP Event.starts) hstart'
  simp only [List.countP_append, List.countP_cons, Event.starts, if_true] at hcount hcount'
  rcases trichotomy (hstart.symm.trans hstart') with
    ⟨middle, rfl, -⟩ | ⟨-, -, hsame⟩ | ⟨middle, rfl, -⟩
  · simp only [List.countP_append, List.countP_cons, Event.starts, if_true] at hgen' hcount'
    omega
  · cases hsame
    rfl
  · simp only [List.countP_append, List.countP_cons, Event.starts, if_true] at hgen hcount
    omega

theorem mem_drops {log : List (Event T)} {handle : Scheduled} :
    handle ∈ drops log ↔ .dropped handle ∈ log := by
  simp only [drops, List.mem_filterMap]
  constructor
  · rintro ⟨e, he, hdropped⟩
    cases e <;> cases hdropped
    exact he
  · exact fun h => ⟨_, h, rfl⟩

theorem two_le_countP {α : Type} {p : α → Bool} {l : List α} {a b : α} (ha : a ∈ l) (hb : b ∈ l)
    (hne : a ≠ b) (hpa : p a = true) (hpb : p b = true) : 2 ≤ l.countP p := by
  have hsub : [a, b].Subperm l := List.subperm_of_subset (by simpa using hne) (by simp [ha, hb])
  have hcount := hsub.countP_le p
  simpa [hpa, hpb] using hcount

namespace Cell

/-- The handle of each timer in the table, and of the timeout that is set, is that of an
alarm. Only a timeout that was set too late for the instants has none. -/
structure Tabled (_ : Setting) (context : ActorContext T) (log : List (Event T)) : Prop where
  timers : ∀ key info, context.timer.lookup key = some info →
    ∃ t msg, .afterFunc info.scheduled t (.timer key info.gen msg info.scheduled) ∈ log
  timeout : context.receiveTimeout ≠ none →
    context.scheduledReceiveTimeout ≠ none ∨ ∃ e ∈ log, e.overrun = true
  alarm : ∀ handle ∈ context.scheduledReceiveTimeout,
    ∃ t exp, .afterFunc handle t (.receiveTimeout exp handle) ∈ log

theorem Tabled.later {s s' : Setting} {context : ActorContext T} {log : List (Event T)}
    (h : Tabled s context log) (events : List (Event T)) : Tabled s' context (log ++ events) where
  timers key info hlookup := by
    obtain ⟨t, msg, hmem⟩ := h.timers key info hlookup
    exact ⟨t, msg, List.mem_append_left _ hmem⟩
  timeout hset := (h.timeout hset).imp_right fun hlate => by
    obtain ⟨e, he, hoverrun⟩ := hlate
    exact ⟨e, List.mem_append_left _ he, hoverrun⟩
  alarm handle hhandle := by
    obtain ⟨t, exp, hmem⟩ := h.alarm handle hhandle
    exact ⟨t, exp, List.mem_append_left _ hmem⟩

/-- The alarm of the timeout is set again. -/
theorem Tabled.armed {s s' : Setting} {context : ActorContext T} {log : List (Event T)}
    (h : Tabled s context log) (handle : Scheduled) (t exp : Instant)
    (timeout : Option Duration) :
    Tabled s'
      { context with receiveTimeout := timeout, scheduledReceiveTimeout := some handle }
      (log ++ [.afterFunc handle t (.receiveTimeout exp handle)]) where
  timers key info hlookup := by
    obtain ⟨t', msg, hmem⟩ := h.timers key info hlookup
    exact ⟨t', msg, List.mem_append_left _ hmem⟩
  timeout _ := .inl (Option.some_ne_none _)
  alarm handle' hhandle' := by
    obtain rfl : handle = handle' := Option.some.inj hhandle'
    exact ⟨t, exp, by simp⟩

theorem tabled_timed : Timed (T := T) Tabled where
  start {s context log} name d msg h := by
    have hlater : Tabled s context _ := h.later [.timerStarted name context.timerGen,
      .afterFunc s.rt.handles (s.rt.clock + d)
        (.timer name context.timerGen msg s.rt.handles)]
    refine ⟨fun key info hlookup => ?_, hlater.timeout, hlater.alarm⟩
    by_cases hkey : key = name
    · subst hkey
      rw [AList.lookup_insert, Option.some.injEq] at hlookup
      subst hlookup
      exact ⟨s.rt.clock + d, msg, by simp⟩
    · rw [AList.lookup_insert_ne hkey] at hlookup
      exact hlater.timers key info hlookup
  startFailed {s context log} name h := by
    have hlater : Tabled s context _ := h.later [.timerFailed name context.timerGen]
    exact ⟨hlater.timers, hlater.timeout, hlater.alarm⟩
  cancel {s context log} name h := by
    have hlater : Tabled s context _ := h.later [.timerCancelled name]
    refine ⟨fun key info hlookup => ?_, hlater.timeout, hlater.alarm⟩
    by_cases hkey : key = name
    · subst hkey
      simp at hlookup
    · rw [AList.lookup_erase_ne hkey] at hlookup
      exact hlater.timers key info hlookup
  set {s context log} d h := by
    have hset : Tabled s context (log ++ [.timeoutSet d s.rt.clock]) := h.later _
    simpa using hset.armed s.rt.handles (s.rt.clock + d) (s.rt.clock + d) (some d)
  setFailed {s context log} d hlimit h := by
    have hlater : Tabled s context _ := h.later [.timeoutSet d s.rt.clock]
    refine ⟨hlater.timers, fun _ => .inr ?_, hlater.alarm⟩
    exact ⟨.timeoutSet d s.rt.clock, by simp, Instant.overflows_iff.mpr hlimit⟩
  unset {s context log} h := by
    have hlater : Tabled s context _ := h.later [.timeoutCancelled]
    exact ⟨hlater.timers, fun hne => absurd rfl hne, nofun⟩
  untimed _ h := h.later _
  same h hsame _ _ _ := by
    refine ⟨hsame.timer ▸ h.timers, fun hne => ?_, hsame.scheduled ▸ h.alarm⟩
    rw [hsame.scheduled]
    exact h.timeout (hsame.receiveTimeout ▸ hne)

theorem tabled_processing {s : Setting} {context : ActorContext T} {log : List (Event T)}
    (h : Tabled s context log) (numMsg : Nat) (message : Message T) :
    Processing Tabled s context log numMsg message := by
  have rearmed : ∀ d, Tabled s.issue (s.rearm context d).1 (log ++ [(s.rearm context d).2]) :=
    fun d => h.armed s.rt.handles (s.rt.clock + d) (s.rt.clock + d) context.receiveTimeout
  have hreceived : Tabled (s.touched context) context (log ++ [.received s.rt.clock]) :=
    h.later _
  exact
    { received := fun _ => hreceived
      pill := fun _ => h.later _
      unset := fun _ _ _ _ => h
      timer := fun _ _ _ _ _ _ _ _ _ => hreceived.later _
      expired := fun _ _ _ _ _ _ _ _ _ => h.later _
      early := fun _ _ _ _ _ _ _ _ => rearmed _
      again := fun _ _ => rearmed _
      failed := fun _ _ _ _ _ _ _ _ => h }

end Cell

namespace Node

theorem reachable_tabled {nd : Node T} (h : (machine path option parent).Reachable nd) :
    nd.mbox.Kept Cell.Tabled := by
  refine reach_kept Cell.tabled_timed ⟨?_, fun hne => absurd rfl hne, nofun⟩
    (fun _ _ _ _ _ _ hj => Cell.tabled_processing hj _ _) h
  intro key info hlookup
  simp [ActorContext.new] at hlookup

/-- The scheduler runs the action of an alarm that it was given, at most once, and after the
handle was dropped. -/
def inverted (nd : Node T) (a : Action T) : Prop :=
  ∀ msg ∈ a.message nd.mbox.option, ∀ handle ∈ msg.handle,
    msg ∈ (alarms nd.mbox.log).map Prod.snd ∧ handle ∉ nd.fired ∧ .dropped handle ∈ nd.mbox.log

theorem inverted_adversarial (nd : Node T) (a : Action T) (ok : inverted nd a) :
    adversarial nd a :=
  fun msg hmsg handle hhandle =>
    have hok := ok msg hmsg handle hhandle
    ⟨hok.1, hok.2.1⟩

/-- An alarm goes off only after its handle was dropped. -/
theorem fired_dropped {nd : Node T} (h : (machine path option parent).Reach inverted nd) :
    ∀ handle ∈ nd.fired, .dropped handle ∈ nd.mbox.log := by
  have hoffers := reach_offers
    (P := fun m msg => ∀ handle ∈ msg.handle, .dropped handle ∈ m.log)
    (fun hlog _ hgood handle hhandle => hlog.subset (hgood handle hhandle))
    (fun allowed hmsg handle hhandle => (allowed _ hmsg handle hhandle).2.2) h
  intro handle hfired
  obtain ⟨msg, hmsg, hhandle⟩ := List.mem_filterMap.mp hfired
  exact hoffers msg hmsg handle hhandle

/-- The handle of the message that is processed is not held any more. -/
theorem processed_dropped {nd : Node T} (h : (machine path option parent).Reach inverted nd)
    {i n : Nat} {src : Source} {msg : Message T} {context : ActorContext T}
    (hi : nd.tasks[i]? = some (.looping n (.processing src msg)))
    (hcontext : nd.mbox.dispatcher.context = some context) {handle : Scheduled}
    (hhandle : handle ∈ msg.handle) :
    handle ∉ context.handles ∧ ∃ t, .afterFunc handle t msg ∈ nd.mbox.log := by
  have hreach := h.mono inverted_adversarial
  have hpushed := pushed_of_processing h.reachable hi fun u hu => by
    rw [hu] at hhandle
    cases hhandle
  have hoffer := offers_of_pushed hpushed
  constructor
  · intro hheld
    have hfired : handle ∈ nd.fired := List.mem_filterMap.mpr ⟨msg, hoffer, hhandle⟩
    have hdropped := mem_drops.mpr (fired_dropped h handle hfired)
    refine (List.nodup_append.mp (held_not_dropped h.reachable)).2.2 handle hdropped handle ?_ rfl
    simpa [Mailbox.held, hcontext] using hheld
  · obtain ⟨handle', t, harmed⟩ := alarm_of_mem (offers_armed hreach _ hoffer handle hhandle)
    obtain ⟨_, -, hnumbered⟩ := reachable_numbered h.reachable
    have hsame := hnumbered.carried _ _ _ harmed
    exact ⟨t, Option.some.inj (hsame.symm.trans hhandle) ▸ harmed⟩

end Node

namespace Cell

/-- No timer has reached the handler while no generation has come twice, and no timeout while
there was one alarm for it. -/
structure Silent (_ : Setting) (_ : ActorContext T) (log : List (Event T)) : Prop where
  timers : log.countP Event.starts ≤ 2 ^ 32 → rung log = []
  timeouts : log.countP Event.rearms ≤ 1 → log.countP Event.systemic = 0

variable {s s' : Setting} {context context' : ActorContext T} {log : List (Event T)}

theorem Silent.later {events : List (Event T)} (h : Silent s context log)
    (htimers : (log ++ events).countP Event.starts ≤ 2 ^ 32 → rung events = [])
    (htimeouts : (log ++ events).countP Event.rearms ≤ 1 → events.countP Event.systemic = 0) :
    Silent s' context' (log ++ events) where
  timers hfew := by
    rw [List.countP_append] at hfew
    have hrung : rung (log ++ events) = rung log ++ rung events := List.filterMap_append
    rw [hrung, h.timers (by omega), htimers (by rwa [List.countP_append])]
    rfl
  timeouts hone := by
    rw [List.countP_append] at hone ⊢
    rw [h.timeouts (by omega), htimeouts (by rwa [List.countP_append])]

/-- Events that are no delivery to the handler. -/
theorem Silent.quiet {events : List (Event T)} (h : Silent s context log)
    (hevents : ∀ e ∈ events, e.handles = false) : Silent s' context' (log ++ events) := by
  refine h.later (fun _ => ?_) fun _ => ?_
  · rw [rung, List.filterMap_eq_nil_iff]
    intro e he
    have hquiet := hevents e he
    cases e <;> first | rfl | cases hquiet
  · rw [List.countP_eq_zero]
    intro e he
    have hquiet := hevents e he
    cases e <;> first | exact Bool.false_ne_true | cases hquiet

theorem silent_timed : Timed (T := T) Silent where
  start name d msg h := h.quiet (by simp [Event.handles, Event.receiver])
  startFailed name h := h.quiet (by simp [Event.handles, Event.receiver])
  cancel name h := h.quiet (by simp [Event.handles, Event.receiver])
  set d h := h.quiet (by simp [Event.handles, Event.receiver])
  setFailed d _ h := h.quiet (by simp [Event.handles, Event.receiver])
  unset h := h.quiet (by simp [Event.handles, Event.receiver])
  untimed {s context log e} he h := by
    refine h.later (fun _ => ?_) fun _ => ?_ <;> cases e <;> first | rfl | cases he
  same h _ _ _ _ := ⟨h.timers, h.timeouts⟩

/-- A message whose handle is not held comes too late. -/
theorem silent_processing (h : Silent s context log) (htabled : Tabled s context log)
    (hlaw : Lawful Timing log) (numMsg : Nat) {message : Message T}
    (hlate : ∀ handle ∈ message.handle,
      handle ∉ context.handles ∧ ∃ t, .afterFunc handle t message ∈ log) :
    Processing Silent s context log numMsg message := by
  have rearmed : ∀ d, Silent s.issue (s.rearm context d).1 (log ++ [(s.rearm context d).2]) :=
    fun d => h.quiet (by simp [Setting.rearm, Event.handles, Event.receiver])
  have hreceived : Silent (s.touched context) context (log ++ [.received s.rt.clock]) :=
    h.quiet (by simp [Event.handles, Event.receiver])
  refine
    { received := fun _ => hreceived
      pill := fun _ => h.quiet (by simp [Event.handles, Event.receiver])
      unset := fun _ _ _ _ => h
      timer := ?_
      expired := ?_
      early := fun _ _ _ _ _ _ _ _ => rearmed _
      again := fun _ _ => rearmed _
      failed := fun _ _ _ _ _ _ _ _ => h }
  · rintro actor key gen msg handle info rfl hlookup rfl
    obtain ⟨hfree, t, harmed⟩ := hlate handle rfl
    refine hreceived.later (fun hfew => ?_) fun _ => rfl
    obtain ⟨t', msg', htable⟩ := htabled.timers key info hlookup
    simp only [List.countP_append] at hfew
    have hsame := handle_unique hlaw (by omega) harmed htable
    refine absurd ?_ hfree
    rw [hsame]
    have hentry : (⟨key, info⟩ : Sigma fun _ => TimerMessage) ∈ context.timer.entries :=
      AList.mem_lookup_iff.mp hlookup
    exact List.mem_append_left _ (List.mem_map_of_mem hentry)
  · rintro actor exp handle tmout rfl htmout - - -
    obtain ⟨hfree, t, harmed⟩ := hlate handle rfl
    refine h.later (fun _ => rfl) fun hone => ?_
    -- the alarm that went off and the one that is set, or should have been, are two
    have htwo : 2 ≤ log.countP Event.rearms := by
      rcases htabled.timeout (by simp [htmout]) with hset | ⟨e, he, hoverrun⟩
      · obtain ⟨held, hheld⟩ := Option.ne_none_iff_exists'.mp hset
        obtain ⟨t', exp', harmed'⟩ := htabled.alarm held hheld
        have hne : handle ≠ held := by
          rintro rfl
          exact hfree (List.mem_append_right _ (Option.mem_toList.mpr hheld))
        exact two_le_countP harmed harmed' (by simp [hne]) rfl rfl
      · have hne : .afterFunc handle t (.receiveTimeout exp handle) ≠ e := by
          rintro rfl
          cases hoverrun
        have hrearms : e.rearms = true := by
          cases e <;> first | exact hoverrun | cases hoverrun
        exact two_le_countP harmed he hne rfl hrearms
    rw [List.countP_append] at hone
    omega

end Cell

namespace Node

theorem reach_silent {nd : Node T} (h : (machine path option parent).Reach inverted nd) :
    nd.mbox.Kept Cell.Silent := by
  refine reach_kept Cell.silent_timed ⟨fun _ => rfl, fun _ => rfl⟩ ?_ h
  intro nd i input n src msg hr _ _ hi context hcontext hj
  have hgenerations := (reach_generations (hr.mono inverted_adversarial)).of_context hcontext
  exact Cell.silent_processing hj ((reachable_tabled hr.reachable).of_context hcontext)
    hgenerations.law _ fun handle hhandle => processed_dropped hr hi hcontext hhandle

/-- Under the inverted scheduler no timer ever reaches a handler. -/
theorem rung_nil {nd : Node T} (h : (machine path option parent).Reach inverted nd)
    (hfew : nd.mbox.log.countP Event.starts ≤ 2 ^ 32) : rung nd.mbox.log = [] := by
  obtain ⟨_, -, hsilent⟩ := reach_silent h
  exact hsilent.timers hfew

/-- A receive timeout that was set or armed once never comes. -/
theorem systemic_zero {nd : Node T} (h : (machine path option parent).Reach inverted nd)
    (hone : nd.mbox.log.countP Event.rearms ≤ 1) : nd.mbox.log.countP Event.systemic = 0 := by
  obtain ⟨_, -, hsilent⟩ := reach_silent h
  exact hsilent.timeouts hone

end Node

end Ruactor
