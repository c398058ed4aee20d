import Ruactor.Timed

/-!
# Alarms

An alarm is a message that the scheduler is to send, known by the handle of its task. The
messages with a handle come from the scheduler: it runs an action that it was given, and
each at most once. Whether the handle was dropped and whether the task is due is left open.
-/

namespace Ruactor

open Machine

variable {T : Type} {path : ActorPath} {option : PropsOption} {parent : ParentRef}

def Message.handle : Message T → Option Scheduled
  | .timer _ _ _ handle | .receiveTimeout _ handle => some handle
  | _ => none

def Client.message : Client T → Option (Message T)
  | .checking msg _ | .pushing msg _ => some msg
  | _ => none

/-- What a step begins to send to the message queue. -/
def Action.message (option : PropsOption) : Action T → Option (Message T)
  | .call c => (c.start option).message
  | _ => none

/-- The message whose push was tried. -/
def Event.offered : Event T → Option (Message T)
  | .pushed msg | .rejected msg => some msg
  | _ => none

/-- The time and the message of a task of the scheduler. -/
def Event.alarm : Event T → Option (Instant × Message T)
  | .afterFunc _ eventTime msg => some (eventTime, msg)
  | _ => none

def alarms (log : List (Event T)) : List (Instant × Message T) := log.filterMap Event.alarm

/-- The handles that were given out. -/
def issued (log : List (Event T)) : List Scheduled :=
  log.filterMap fun
    | .afterFunc handle _ _ => some handle
    | _ => none

@[simp] theorem issued_append (log log' : List (Event T)) :
    issued (log ++ log') = issued log ++ issued log' := List.filterMap_append

theorem issued_nil {events : List (Event T)} (h : ∀ e ∈ events, e.alarm = none) :
    issued events = [] := by
  rw [issued, List.filterMap_eq_nil_iff]
  intro e he
  have hnone := h e he
  cases e <;> first | rfl | cases hnone

namespace Cell

/-- Each alarm has a handle of its own, which its message carries. -/
structure Numbered (s : Setting) (_ : ActorContext T) (log : List (Event T)) : Prop where
  bound : ∀ handle ∈ issued log, handle < s.rt.handles
  nodup : (issued log).Nodup
  carried : ∀ handle eventTime msg, .afterFunc handle eventTime msg ∈ log →
    msg.handle = some handle

theorem Numbered.silent {s s' : Setting} {context context' : ActorContext T}
    {log events : List (Event T)} (h : Numbered s context log)
    (hevents : ∀ e ∈ events, e.alarm = none) (hs : s'.rt.handles = s.rt.handles) :
    Numbered s' context' (log ++ events) := by
  have hissued : issued (log ++ events) = issued log := by
    rw [issued_append, issued_nil hevents, List.append_nil]
  refine ⟨?_, hissued ▸ h.nodup, fun handle eventTime msg hmem => ?_⟩
  · rw [hissued, hs]
    exact h.bound
  · rcases List.mem_append.mp hmem with hold | hnew
    · exact h.carried _ _ _ hold
    · cases hevents _ hnew

theorem Numbered.arm {s s' : Setting} {context context' : ActorContext T}
    {log : List (Event T)} (h : Numbered s context log) (eventTime : Instant) (msg : Message T)
    (hmsg : msg.handle = some s.rt.handles) (hs : s'.rt.handles = s.rt.handles + 1) :
    Numbered s' context' (log ++ [.afterFunc s.rt.handles eventTime msg]) := by
  have hissued : issued (log ++ [.afterFunc s.rt.handles eventTime msg]) =
      issued log ++ [s.rt.handles] := by
    rw [issued_append]
    rfl
  refine ⟨fun handle hhandle => ?_, ?_, fun handle eventTime' msg' hmem => ?_⟩
  · rw [hissued] at hhandle
    rcases List.mem_append.mp hhandle with hold | hnew
    · exact hs ▸ Nat.lt_succ_of_lt (h.bound handle hold)
    · exact hs ▸ List.mem_singleton.mp hnew ▸ Nat.lt_succ_self _
  · rw [hissued]
    refine List.nodup_append.mpr ⟨h.nodup, List.nodup_singleton _, ?_⟩
    rintro a ha b hb rfl
    exact absurd (h.bound a ha) (by simp [List.mem_singleton.mp hb])
  · rcases List.mem_append.mp hmem with hold | hnew
    · exact h.carried _ _ _ hold
    · cases List.mem_singleton.mp hnew
      exact hmsg

theorem numbered_timed : Timed (T := T) Numbered where
  start {s context log} name d msg h := by
    have hstart : Numbered s context (log ++ [.timerStarted name context.timerGen]) :=
      h.silent (by simp [Event.alarm]) rfl
    simpa using hstart.arm (s.rt.clock + d) (.timer name context.timerGen msg s.rt.handles) rfl rfl
  startFailed name h := h.silent (by simp [Event.alarm]) rfl
  cancel name h := h.silent (by simp [Event.alarm]) rfl
  setFailed d _ h := h.silent (by simp [Event.alarm]) rfl
  set {s context log} d h := by
    have hset : Numbered s context (log ++ [.timeoutSet d s.rt.clock]) :=
      h.silent (by simp [Event.alarm]) rfl
    simpa using
      hset.arm (s.rt.clock + d) (.receiveTimeout (s.rt.clock + d) s.rt.handles) rfl rfl
  unset h := h.silent (by simp [Event.alarm]) rfl
  untimed {s context log e} he h := by
    refine h.silent (fun e' he' => ?_) rfl
    obtain rfl := List.mem_singleton.mp he'
    cases e' <;> first | rfl | cases he
  same h _ _ _ hhandles := ⟨hhandles ▸ h.bound, h.nodup, h.carried⟩

theorem numbered_processing {s : Setting} {context : ActorContext T} {log : List (Event T)}
    (h : Numbered s context log) (numMsg : Nat) (message : Message T) :
    Processing Numbered s context log numMsg message := by
  have rearmed : ∀ d, Numbered s.issue (s.rearm context d).1 (log ++ [(s.rearm context d).2]) :=
    fun d => h.arm _ _ rfl rfl
  have hreceived : Numbered (s.touched context) context (log ++ [.received s.rt.clock]) :=
    h.silent (by simp [Event.alarm]) (by simp)
  exact
    { received := fun _ => hreceived
      pill := fun _ => h.silent (by simp [Event.alarm]) rfl
      unset := fun _ _ _ _ => h
      timer := fun _ _ _ _ _ _ _ _ _ => hreceived.silent (by simp [Event.alarm]) rfl
      expired := fun _ _ _ _ _ _ _ _ _ => h.silent (by simp [Event.alarm]) rfl
      early := fun _ _ _ _ _ _ _ _ => rearmed _
      again := fun _ _ => rearmed _
      failed := fun _ _ _ _ _ _ _ _ => h }

end Cell

namespace Mailbox

theorem Env.clock {m m' : Mailbox T} (henv : m.Env m') : m.rt.clock ≤ m'.rt.clock := by
  cases henv with
  | tick d => exact Nat.le_add_right _ _
  | _ => exact Nat.le_refl _

/-- Time does not go back. -/
theorem Move.clock {m : Mailbox T} {input : TaskInput T} {t : Task T} {r : TaskStep T}
    (move : m.Move input t r) (hphase : m.Phase t) : m.rt.clock ≤ r.mbox.rt.clock := by
  have since : Cell.Timed (T := T) fun s _ _ => m.rt.clock ≤ s.rt.clock :=
    { start := fun _ _ _ h => h
      startFailed := fun _ h => h
      cancel := fun _ h => h
      set := fun _ h => h
      setFailed := fun _ _ h => h
      unset := id
      untimed := fun _ h => h
      same := fun h _ _ hclock _ => h.trans hclock }
  have hkept : r.mbox.Kept fun s _ _ => m.rt.clock ≤ s.rt.clock := by
    refine move.kept since hphase (fun _ _ _ _ context _ h => ?_)
      ⟨_, fun _ => rfl, Nat.le_refl _⟩
    exact
      { received := fun _ => by simpa using h
        pill := fun _ => h
        unset := fun _ _ _ _ => h
        timer := fun _ _ _ _ _ _ _ _ _ => by simpa using h
        expired := fun _ _ _ _ _ _ _ _ _ => h
        early := fun _ _ _ _ _ _ _ _ => h
        again := fun _ _ => h
        failed := fun _ _ _ _ _ _ _ _ => h }
  obtain ⟨_, -, h⟩ := hkept
  exact h

end Mailbox

namespace Node

theorem schedule_rt (nd : Node T) : nd.schedule.mbox.rt = nd.mbox.rt := by
  simp only [schedule]
  split <;> rfl

theorem reachable_numbered {nd : Node T} (h : (machine path option parent).Reachable nd) :
    nd.mbox.Kept Cell.Numbered := by
  refine reach_kept Cell.numbered_timed ⟨by simp [issued], List.nodup_nil, by simp⟩ ?_ h
  intro nd i input n src msg _ _ _ _ context _ hj
  exact Cell.numbered_processing hj _ _

/-- The messages that were offered to the message queue, or are about to be. -/
def offers (nd : Node T) : List (Message T) :=
  nd.mbox.log.filterMap Event.offered ++ nd.clients.filterMap Client.message

/-- The alarms whose action has been begun. -/
def fired (nd : Node T) : List Scheduled := nd.offers.filterMap Message.handle

theorem offered_nil {events : List (Event T)} (h : ∀ e ∈ events, e.sent = false) :
    events.filterMap Event.offered = [] := by
  rw [List.filterMap_eq_nil_iff]
  intro e he
  have hnone := h e he
  cases e <;> first | rfl | cases hnone

theorem messages_cons (client : Client T) (clients : List (Client T)) :
    (client :: clients).filterMap Client.message =
      client.message.toList ++ clients.filterMap Client.message := by
  cases h : client.message <;> simp [h]

/-- A message that a caller has is pushed or rejected, or the caller still has it. -/
theorem Access.offers {m m' : Mailbox T} {client : Client T} {next : Option (Client T)}
    (h : m.Access client next m') :
    (m'.log.filterMap Event.offered ++ next.toList.filterMap Client.message).Perm
      (m.log.filterMap Event.offered ++ client.message.toList) := by
  cases h with
  | refuse _ | full _ =>
    rename_i watch _
    cases watch <;>
      simp [Mailbox.emit, afterSend, List.filterMap_cons, Event.offered, Client.message]
  | push _ _ | pushInternal | unwatched _ | stopSelf =>
    simp [Mailbox.emit, Mailbox.pushInternal, List.filterMap_cons, Event.offered,
      Client.message]
  | accept _ | watch _ => simp [List.filterMap_cons, Client.message]

theorem messages_scheduled {client : Client T} (h : client.pending = true) :
    client.message = none ∧ client.scheduled.toList.filterMap Client.message = [] := by
  cases client with
  | scheduling watch => cases watch <;> exact ⟨rfl, rfl⟩
  | schedulingSelf => exact ⟨rfl, rfl⟩
  | _ => cases h

theorem perm_shift {α : Type} (l before middle after : List α) :
    (l ++ (before ++ (middle ++ after))).Perm ((l ++ middle) ++ (before ++ after)) := by
  rw [List.append_assoc]
  exact (List.perm_append_comm_assoc before middle after).append_left l

/-- An offer comes from a call, and none is lost. -/
theorem Move.offers {nd nd' : Node T} {a : Action T}
    (hr : (machine path option parent).Reachable nd) (hm : Move nd a nd') :
    nd'.offers.Perm (nd.offers ++ (a.message nd.mbox.option).toList) := by
  cases hm with
  | tick => simp [Node.offers, Action.message]
  | @call c =>
    have hnew : [c.start nd.mbox.option].filterMap Client.message =
        (c.start nd.mbox.option).message.toList := by
      rw [messages_cons]
      exact List.append_nil _
    simp [Node.offers, Action.message, hnew]
  | deliver =>
    simp [Node.offers, Action.message, Node.deliver, Mailbox.pushInternal, List.filterMap_cons,
      Event.offered, Client.message]
  | @access i before client after next mbox _ hs hacc =>
    have hmoved := (Access.offers hacc).append_right
      (before.filterMap Client.message ++ after.filterMap Client.message)
    have hperm := (perm_shift _ _ _ _).trans (hmoved.trans (perm_shift _ _ _ _).symm)
    simpa only [Node.offers, Action.message, hs, List.filterMap_append, messages_cons,
      Option.toList_none, List.append_nil] using hperm
  | @schedule i before client after hs hpending =>
    obtain ⟨hnone, hscheduled⟩ := messages_scheduled hpending
    simp [Node.offers, Action.message, hs, List.filterMap_append, hnone, hscheduled,
      schedule_log]
  | reschedule _ _ => simp [Node.offers, Action.message, schedule_log, schedule_clients]
  | @task i input before t after r hi hs hstep _ =>
    have move := Mailbox.taskStep_move hstep
    obtain ⟨events, hlog, hlogs⟩ := move.logs (phase_of_mem hr (List.mem_of_getElem? hi))
    have hevents : events.filterMap Event.offered = [] :=
      offered_nil fun e he => (hlogs e he).unsent
    have hclients : r.clients.filterMap Client.message = [] := by
      rw [List.filterMap_eq_nil_iff]
      intro c hc
      rw [move.clients c hc]
      rfl
    simp [Node.offers, Action.message, hlog, hevents, hclients]

theorem Move.clock {nd nd' : Node T} {a : Action T}
    (hr : (machine path option parent).Reachable nd) (hm : Move nd a nd') :
    nd.mbox.rt.clock ≤ nd'.mbox.rt.clock := by
  cases hm with
  | access _ _ hacc => exact hacc.env.clock
  | schedule _ _ | reschedule _ _ =>
    rw [schedule_rt]
  | tick => exact Nat.le_add_right _ _
  | @task i input before t after r hi _ hstep _ =>
    have move := Mailbox.taskStep_move hstep
    exact move.clock (phase_of_mem hr (List.mem_of_getElem? hi))
  | _ => exact Nat.le_refl _

/-- What is true of an offer when it is made, and stays true, is true of all offers. -/
theorem reach_offers {ok : Node T → Action T → Prop} {P : Mailbox T → Message T → Prop}
    (keeps : ∀ {m m' msg}, m.log <+: m'.log → m.rt.clock ≤ m'.rt.clock → P m msg → P m' msg)
    (start : ∀ {nd a msg}, ok nd a → msg ∈ a.message nd.mbox.option → P nd.mbox msg)
    {nd : Node T} (h : (machine path option parent).Reach ok nd) :
    ∀ msg ∈ nd.offers, P nd.mbox msg := by
  refine h.invariant (P := fun nd : Node T => ∀ msg ∈ nd.offers, P nd.mbox msg)
    (List.forall_mem_nil _) fun {nd nd' a} hr hs allowed hstep msg hmsg => ?_
  have move := step_move hstep
  obtain ⟨events, hlog⟩ := move.log
  refine keeps ⟨events, hlog.symm⟩ (move.clock hr.reachable) ?_
  rcases List.mem_append.mp ((move.offers hr.reachable).mem_iff.mp hmsg) with hold | hnew
  · exact hs msg hold
  · exact start allowed (Option.mem_toList.mp hnew)

/-- A message that no callback can send has been pushed before it is processed. -/
theorem pushed_of_processing {nd : Node T} (h : (machine path option parent).Reachable nd)
    {i n : Nat} {src : Source} {msg : Message T}
    (hi : nd.tasks[i]? = some (.looping n (.processing src msg))) (hmsg : ∀ u, msg ≠ .user u) :
    .pushed msg ∈ nd.mbox.log := by
  have hflowing := (reachable_flowing h).loc _ (List.mem_of_getElem? hi) rfl
  have hsrc : src = .queue := by
    cases src with
    | queue => rfl
    | unstashed =>
      obtain ⟨u, hu⟩ := hflowing.unstashed n msg rfl
      exact absurd hu (hmsg u)
  subst hsrc
  exact mem_accepted.mp (hflowing.flow.last.subset (by simp [Task.taken, Source.taken]))

theorem offers_of_pushed {nd : Node T} {msg : Message T} (h : .pushed msg ∈ nd.mbox.log) :
    msg ∈ nd.offers :=
  List.mem_append_left _ (List.mem_filterMap.mpr ⟨_, h, rfl⟩)

/-- The scheduler runs the actions that it was given, each at most once. -/
def adversarial (nd : Node T) (a : Action T) : Prop :=
  ∀ msg ∈ a.message nd.mbox.option, ∀ handle ∈ msg.handle,
    msg ∈ (alarms nd.mbox.log).map Prod.snd ∧ handle ∉ nd.fired

instance [DecidableEq T] (nd : Node T) (a : Action T) : Decidable (adversarial nd a) :=
  inferInstanceAs (Decidable (∀ msg ∈ a.message nd.mbox.option, ∀ handle ∈ msg.handle, _))

/-- A message that the scheduler sent is one that it was given. -/
theorem offers_armed {nd : Node T} (h : (machine path option parent).Reach adversarial nd) :
    ∀ msg ∈ nd.offers, ∀ handle ∈ msg.handle, msg ∈ (alarms nd.mbox.log).map Prod.snd := by
  refine reach_offers
    (P := fun m msg => ∀ handle ∈ msg.handle, msg ∈ (alarms m.log).map Prod.snd)
    (fun hlog _ hgood handle hhandle => ?_) (fun allowed hmsg handle hhandle => ?_) h
  · exact ((hlog.filterMap Event.alarm).map Prod.snd).subset (hgood handle hhandle)
  · exact (allowed _ hmsg handle hhandle).1

theorem fired_nodup {nd : Node T} (h : (machine path option parent).Reach adversarial nd) :
    nd.fired.Nodup := by
  refine h.invariant (P := fun nd => nd.fired.Nodup) List.nodup_nil
    fun {nd nd' a} hr hs allowed hstep => ?_
  have hperm := ((step_move hstep).offers hr.reachable).filterMap Message.handle
  refine hperm.nodup_iff.mpr ?_
  rw [List.filterMap_append]
  refine List.nodup_append.mpr ⟨hs, ?_, ?_⟩
  · cases hmsg : a.message nd.mbox.option with
    | none => exact List.nodup_nil
    | some msg => cases hhandle : msg.handle <;> simp [hhandle]
  · rintro handle hold handle' hnew rfl
    obtain ⟨msg, hmsg, hhandle⟩ := List.mem_filterMap.mp hnew
    exact (allowed msg (Option.mem_toList.mp hmsg) handle hhandle).2 hold

theorem alarm_of_mem {log : List (Event T)} {msg : Message T}
    (h : msg ∈ (alarms log).map Prod.snd) : ∃ handle t, .afterFunc handle t msg ∈ log := by
  obtain ⟨⟨t, msg'⟩, hmem, rfl⟩ := List.mem_map.mp h
  obtain ⟨e, he, halarm⟩ := List.mem_filterMap.mp hmem
  cases e <;> cases halarm
  exact ⟨_, _, he⟩

end Node

end Ruactor
