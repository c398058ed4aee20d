import Ruactor.Alarms

/-!
# Timers

The message of a timer carries the generation of its start, and the table of the context
knows the generation of the last start for each key. Generations are given out in order,
modulo `2 ^ 32`: two starts with as many starts between them have the same one.
-/

namespace Ruactor

open Machine History

variable {T : Type} {path : ActorPath} {option : PropsOption} {parent : ParentRef}

/-- A start takes a generation, also one that panics then. -/
def Event.starts : Event T → Bool
  | .timerStarted _ _ | .timerFailed _ _ => true
  | _ => false

/-- The key is started again or cancelled. -/
def Event.touches (key : String) : Event T → Bool
  | .timerStarted key' _ | .timerCancelled key' => decide (key' = key)
  | _ => false

/-- The timers whose message has reached the handler. -/
def rung (log : List (Event T)) : List Scheduled :=
  log.filterMap fun
    | .timerDelivered _ _ _ _ handle => some handle
    | _ => none

def Message.rings : Message T → Option Scheduled
  | .timer _ _ _ handle => some handle
  | _ => none

/-- The timers that rang were among the alarms that were pushed. -/
theorem rung_sublist {log : List (Event T)}
    (h : (handed log).Sublist ((accepted log).filterMap Message.seen)) :
    (rung log).Sublist ((accepted log).filterMap Message.handle) := by
  have hrung : rung log = (handed log).filterMap Message.rings := by
    rw [rung, handed, List.filterMap_filterMap]
    congr 1
    funext e
    cases e with
    | delivered i src msg => cases src <;> rfl
    | systemDelivered i message now => cases message; rfl
    | _ => rfl
  have hseen : ((accepted log).filterMap Message.seen).filterMap Message.rings =
      (accepted log).filterMap Message.rings := by
    rw [List.filterMap_filterMap]
    congr 1
    funext msg
    cases msg <;> rfl
  have hsub := h.filterMap Message.rings
  rw [hseen] at hsub
  rw [hrung]
  refine hsub.trans (filterMap_sublist (fun msg handle hrings => ?_) _)
  cases msg <;> cases hrings
  rfl

/-- The log ends with the call that the alarm is of, and what came after it. The call is the
last one for its key if there were fewer than `2 ^ 32` starts since. -/
def Current (key : String) (gen : Nat) (msg : T) (handle : Scheduled) (log : List (Event T)) :
    Prop :=
  ∃ earlier eventTime later, log = earlier ++ .timerStarted key gen ::
      .afterFunc handle eventTime (.timer key gen msg handle) :: later ∧
    (later.countP Event.starts < 2 ^ 32 → ∀ e ∈ later, e.touches key = false)

/-- What comes before the events of a timer. -/
def Timing (before : List (Event T)) : Event T → Prop
  | .timerStarted _ gen => gen = before.countP Event.starts % 2 ^ 32
  | .afterFunc _ _ (.timer key gen _ _) => ∃ earlier, before = earlier ++ [.timerStarted key gen]
  | .timerDelivered _ key gen msg handle => Current key gen msg handle before
  | _ => True

/-- The last start of the key has this generation. -/
def LastStart (key : String) (gen : Nat) (log : List (Event T)) : Prop :=
  ∃ before after, log = before ++ .timerStarted key gen :: after ∧
    ∀ e ∈ after, e.touches key = false

theorem LastStart.append {key : String} {gen : Nat} {log events : List (Event T)}
    (h : LastStart key gen log) (hevents : ∀ e ∈ events, e.touches key = false) :
    LastStart key gen (log ++ events) := by
  obtain ⟨before, after, rfl, hafter⟩ := h
  refine ⟨before, after ++ events, by simp, fun e he => ?_⟩
  exact (List.mem_append.mp he).elim (hafter e) (hevents e)

/-- A start with the generation of the last one is the last one. -/
theorem last_start_unique {log before after : List (Event T)} {key : String} {gen : Nat}
    (hlaw : Lawful Timing log) (hlast : LastStart key gen log)
    (hlog : log = before ++ .timerStarted key gen :: after)
    (hfew : after.countP Event.starts < 2 ^ 32) : ∀ e ∈ after, e.touches key = false := by
  obtain ⟨before', after', hlog', hafter'⟩ := hlast
  have hgen : gen = before.countP Event.starts % 2 ^ 32 := hlaw _ _ _ hlog
  have hgen' : gen = before'.countP Event.starts % 2 ^ 32 := hlaw _ _ _ hlog'
  rcases trichotomy (hlog.symm.trans hlog') with ⟨middle, rfl, rfl⟩ | ⟨-, -, rfl⟩ | ⟨middle, -, rfl⟩
  · -- the starts between the two are too few for the generation to come again
    simp only [List.countP_append, List.countP_cons, Event.starts, if_true] at hgen' hfew
    omega
  · exact hafter'
  · have htouch := hafter' (.timerStarted key gen) (by simp)
    simp [Event.touches] at htouch

namespace Cell

/-- The context knows the next generation, and the last start of each of its timers. -/
structure Generations (_ : Setting) (context : ActorContext T) (log : List (Event T)) :
    Prop where
  gen : context.timerGen = log.countP Event.starts % 2 ^ 32
  table : ∀ key info, context.timer.lookup key = some info → LastStart key info.gen log
  law : Lawful Timing log

theorem Generations.silent {s s' : Setting} {context context' : ActorContext T}
    {log : List (Event T)} {e : Event T} (h : Generations s context log)
    (htimer : context'.timer = context.timer) (hgen : context'.timerGen = context.timerGen)
    (hstarts : e.starts = false) (htouches : ∀ key, e.touches key = false) (he : Timing log e) :
    Generations s' context' (log ++ [e]) := by
  refine ⟨?_, fun key info hlookup => ?_, h.law.snoc he⟩
  · rw [hgen, h.gen]
    simp [hstarts]
  · rw [htimer] at hlookup
    exact (h.table key info hlookup).append (List.forall_mem_singleton.mpr (htouches key))

theorem Generations.same {s s' : Setting} {context context' : ActorContext T}
    {log : List (Event T)} (h : Generations s context log)
    (htimer : context'.timer = context.timer) (hgen : context'.timerGen = context.timerGen) :
    Generations s' context' log := ⟨hgen ▸ h.gen, htimer ▸ h.table, h.law⟩

/-- The generation after that of the log. -/
theorem Generations.next {s : Setting} {context : ActorContext T} {log : List (Event T)}
    (h : Generations s context log) {e : Event T} (he : e.starts = true) :
    context.nextTimerGen.2.timerGen = (log ++ [e]).countP Event.starts % 2 ^ 32 := by
  have hcount : (log ++ [e]).countP Event.starts = log.countP Event.starts + 1 := by simp [he]
  have hgen := h.gen
  simp only [ActorContext.nextTimerGen, hcount]
  split <;> omega

theorem Generations.started {s s' : Setting} {context : ActorContext T} {log : List (Event T)}
    (h : Generations s context log) (name : String) (scheduled : Scheduled) :
    Generations s'
      { context.nextTimerGen.2 with
        timer := context.timer.insert name ⟨context.timerGen, scheduled⟩ }
      (log ++ [.timerStarted name context.timerGen]) := by
  refine ⟨h.next rfl, fun key info hlookup => ?_, h.law.snoc h.gen⟩
  · by_cases hkey : key = name
    · subst hkey
      rw [AList.lookup_insert, Option.some.injEq] at hlookup
      subst hlookup
      exact ⟨log, [], rfl, List.forall_mem_nil _⟩
    · rw [AList.lookup_insert_ne hkey] at hlookup
      refine (h.table key info hlookup).append (List.forall_mem_singleton.mpr ?_)
      simpa [Event.touches] using Ne.symm hkey

theorem generations_timed : Timed (T := T) Generations where
  start {s context log} name d msg h := by
    have hstart : Generations s _ (log ++ [.timerStarted name context.timerGen]) :=
      h.started name s.rt.handles
    have harmed : Generations s.issue _ (log ++ [.timerStarted name context.timerGen] ++
        [.afterFunc s.rt.handles (s.rt.clock + d)
          (.timer name context.timerGen msg s.rt.handles)]) :=
      hstart.silent rfl rfl rfl (fun _ => rfl) ⟨log, rfl⟩
    rw [List.append_assoc] at harmed
    exact harmed
  startFailed name h := ⟨h.next rfl, fun key info hlookup =>
    (h.table key info hlookup).append (List.forall_mem_singleton.mpr rfl), h.law.snoc trivial⟩
  cancel {s context log} name h := by
    refine ⟨?_, fun key info hlookup => ?_, h.law.snoc trivial⟩
    · simpa [Event.starts] using h.gen
    · by_cases hkey : key = name
      · subst hkey
        simp at hlookup
      · rw [AList.lookup_erase_ne hkey] at hlookup
        refine (h.table key info hlookup).append (List.forall_mem_singleton.mpr ?_)
        simpa [Event.touches] using Ne.symm hkey
  set {s context log} d h := by
    have hset : Generations s context (log ++ [.timeoutSet d s.rt.clock]) :=
      h.silent rfl rfl rfl (fun _ => rfl) trivial
    have harmed : Generations s context (log ++ [.timeoutSet d s.rt.clock] ++
        [.afterFunc s.rt.handles (s.rt.clock + d)
          (.receiveTimeout (s.rt.clock + d) s.rt.handles)]) :=
      hset.silent rfl rfl rfl (fun _ => rfl) trivial
    rw [List.append_assoc] at harmed
    exact harmed.same rfl rfl
  setFailed d _ h := h.silent rfl rfl rfl (fun _ => rfl) trivial
  unset h := h.silent rfl rfl rfl (fun _ => rfl) trivial
  untimed {s context log e} he h := by
    cases e <;> first | exact h.silent rfl rfl rfl (fun _ => rfl) trivial | cases he
  same h hsame _ _ _ := h.same hsame.timer hsame.timerGen

/-- A message with the generation of the table is that of the last start. -/
theorem Generations.current {s : Setting} {context : ActorContext T} {log : List (Event T)}
    (h : Generations s context log) {key : String} {gen : Nat} {msg : T} {handle : Scheduled}
    {eventTime : Instant} {info : TimerMessage}
    (harmed : .afterFunc handle eventTime (.timer key gen msg handle) ∈ log)
    (hlookup : context.timer.lookup key = some info) (hgen : info.gen = gen) :
    Current key gen msg handle log := by
  obtain ⟨before, later, hlog⟩ := List.append_of_mem harmed
  obtain ⟨earlier, rfl⟩ := h.law _ _ _ hlog
  rw [List.append_assoc] at hlog
  refine ⟨earlier, eventTime, later, hlog, fun hfew e he => ?_⟩
  refine last_start_unique h.law (hgen ▸ h.table key info hlookup) hlog ?_ e
    (List.mem_cons_of_mem _ he)
  simpa [Event.starts] using hfew

theorem generations_processing {s : Setting} {context : ActorContext T} {log : List (Event T)}
    (h : Generations s context log) (numMsg : Nat) (message : Message T)
    (harmed : ∀ handle ∈ message.handle, ∃ t, .afterFunc handle t message ∈ log) :
    Processing Generations s context log numMsg message := by
  have rearmed : ∀ d, Generations s.issue (s.rearm context d).1 (log ++ [(s.rearm context d).2]) :=
    fun d => h.silent rfl rfl rfl (fun _ => rfl) trivial
  have hreceived : Generations (s.touched context) context (log ++ [.received s.rt.clock]) :=
    h.silent rfl rfl rfl (fun _ => rfl) trivial
  refine
    { received := fun _ => hreceived
      pill := fun _ => h.silent rfl rfl rfl (fun _ => rfl) trivial
      unset := fun _ _ _ _ => h
      timer := ?_
      expired := fun _ _ _ _ _ _ _ _ _ => h.silent rfl rfl rfl (fun _ => rfl) trivial
      early := fun _ _ _ _ _ _ _ _ => rearmed _
      again := fun _ _ => rearmed _
      failed := fun _ _ _ _ _ _ _ _ => h }
  rintro actor key gen msg handle info rfl hlookup hgen
  obtain ⟨t, ht⟩ := harmed handle rfl
  refine hreceived.silent rfl rfl rfl (fun _ => rfl) ?_
  exact hreceived.current (List.mem_append_left _ ht) hlookup hgen

end Cell

namespace Node

theorem reach_generations {nd : Node T} (h : (machine path option parent).Reach adversarial nd) :
    nd.mbox.Kept Cell.Generations := by
  refine reach_kept Cell.generations_timed ⟨rfl, ?_, lawful_nil⟩ ?_ h
  · intro key info hlookup
    simp [ActorContext.new] at hlookup
  intro nd i input n src msg hr _ _ hi context _ hj
  refine Cell.generations_processing hj _ _ fun handle hhandle => ?_
  have hpushed := pushed_of_processing hr.reachable hi fun u hu => by
    rw [hu] at hhandle
    cases hhandle
  obtain ⟨handle', t, harmed⟩ := alarm_of_mem (offers_armed hr _ (offers_of_pushed hpushed) handle
    hhandle)
  obtain ⟨_, -, hnumbered⟩ := reachable_numbered hr.reachable
  have hsame := hnumbered.carried _ _ _ harmed
  exact ⟨t, Option.some.inj (hsame.symm.trans hhandle) ▸ harmed⟩

/-- The message of a start reaches the handler at most once, and only while no start and no
cancellation has come after it. -/
theorem timer_sound {nd : Node T} (h : (machine path option parent).Reach adversarial nd) :
    (issued nd.mbox.log).Nodup ∧ (rung nd.mbox.log).Nodup ∧
    ∀ before i key gen msg handle after,
      nd.mbox.log = before ++ .timerDelivered i key gen msg handle :: after →
        Current key gen msg handle before := by
  obtain ⟨_, -, hnumbered⟩ := reachable_numbered h.reachable
  obtain ⟨_, -, hgenerations⟩ := reach_generations h
  refine ⟨hnumbered.nodup, ?_, fun before i key gen msg handle after hlog =>
    hgenerations.law _ _ _ hlog⟩
  have hflow : Mailbox.Flow nd.mbox.log nd.mbox.messageQueue.items :=
    (reachable_flowing h.reachable).inv
  have haccepted : (accepted nd.mbox.log).Sublist nd.offers := by
    refine (filterMap_sublist (fun e msg hpushed => ?_) _).trans (List.sublist_append_left _ _)
    cases e <;> cases hpushed
    rfl
  exact ((rung_sublist ((List.sublist_append_left _ _).trans hflow.handed)).trans
    (haccepted.filterMap Message.handle)).nodup (fired_nodup h)

/-- The key is started twice, and both alarms go off. -/
def timerRun : List (Action Nat) :=
  sending (.user 1) ++
    callbacks [⟨.create, [], false⟩,
      ⟨.onEnter, [.startSingleTimer "a" 5 7, .startSingleTimer "a" 5 8], false⟩] ++
    sending (.timer "a" 0 7 0) ++ sending (.timer "a" 1 8 1) ++ turns 3 ++
    callbacks [⟨.onMessage, [], false⟩] ++ turns 9 ++ callbacks [⟨.onMessage, [], false⟩]

def timerNode : Node Nat := (sample.exec sample.start timerRun).get (by decide +kernel)

theorem timerNode_run : sample.exec sample.start timerRun = some timerNode :=
  (Option.some_get _).symm

theorem timer_sound_restarted :
    (rung timerNode.mbox.log).Nodup ∧ rung timerNode.mbox.log = [1] :=
  ⟨(timer_sound (Reach.exec .start (by decide +kernel) timerNode_run)).2.1, by decide +kernel⟩

end Node

end Ruactor
