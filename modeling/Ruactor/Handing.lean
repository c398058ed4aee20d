import Mathlib.Data.List.Infix
import Ruactor.Deliveries
import Ruactor.Finality

/-!
# What the handlers are given

A message waits in the message queue, then it is with the task that took it out, then a
handler may be called with it. A message does not come back, so the handlers are given
messages that were pushed, in their order and each at most once. This holds for every run,
panics included.
-/

namespace Ruactor

open Machine

variable {T : Type} {path : ActorPath} {option : PropsOption} {parent : ParentRef}

def accepted (log : List (Event T)) : List (Message T) :=
  log.filterMap fun
    | .pushed msg => some msg
    | _ => none

@[simp] theorem accepted_append (log log' : List (Event T)) :
    accepted (log ++ log') = accepted log ++ accepted log' := List.filterMap_append

theorem mem_accepted {log : List (Event T)} {msg : Message T} :
    msg ∈ accepted log ↔ .pushed msg ∈ log := by
  constructor
  · intro h
    obtain ⟨e, he, hmsg⟩ := List.mem_filterMap.mp h
    cases e <;> cases hmsg
    exact he
  · exact fun h => List.mem_filterMap.mpr ⟨_, h, rfl⟩

theorem accepted_nil {events : List (Event T)} (h : ∀ e ∈ events, e.sent = false) :
    accepted events = [] := by
  rw [accepted, List.filterMap_eq_nil_iff]
  intro e he
  cases e with
  | pushed msg => cases h _ he
  | _ => rfl

theorem users_append (items items' : List (Message T)) :
    users (items ++ items') = users items ++ users items' := List.filterMap_append

theorem users_accepted (log : List (Event T)) : users (accepted log) = pushes log := by
  rw [users, accepted, List.filterMap_filterMap, pushes]
  congr 1
  funext e
  cases e with
  | pushed msg => cases msg <;> rfl
  | _ => rfl

def Source.taken : Source → Message T → List (Message T)
  | .queue, msg => [msg]
  | .unstashed, _ => []

/-- What the task has taken out of the message queue and not processed. -/
def Task.taken : Task T → List (Message T)
  | .looping _ (.processing src msg) => src.taken msg
  | _ => []

/-- A message as a handler sees it. -/
def Message.seen : Message T → Option (Message T)
  | .receiveTimeout _ _ => some (.receiveTimeout 0 0)
  | .autoMessage _ => none
  | msg => some msg

/-- The message of the message queue that a handler is called with. -/
def Event.given : Event T → Option (Message T)
  | .delivered _ .queue msg => some (.user msg)
  | .timerDelivered _ key gen msg handle => some (.timer key gen msg handle)
  | .systemDelivered _ .receiveTimeout _ => some (.receiveTimeout 0 0)
  | _ => none

def handed (log : List (Event T)) : List (Message T) := log.filterMap Event.given

@[simp] theorem handed_append (log log' : List (Event T)) :
    handed (log ++ log') = handed log ++ handed log' := List.filterMap_append

@[simp] theorem handed_cons (e : Event T) (log : List (Event T)) :
    handed (e :: log) = e.given.toList ++ handed log := by
  cases h : e.given <;> simp [handed, h]

@[simp] theorem handed_empty : handed ([] : List (Event T)) = [] := rfl

theorem handed_nil {events : List (Event T)} (h : ∀ e ∈ events, e.handles = false) :
    handed events = [] := by
  rw [handed, List.filterMap_eq_nil_iff]
  intro e he
  have hnone := h e he
  cases e <;> first | rfl | cases hnone

theorem Task.users_taken (t : Task T) : users t.taken = t.inHand .queue := by
  cases t with
  | looping n stage =>
    cases stage with
    | processing src msg =>
      cases src with
      | queue => simpa [Task.taken, Source.taken, users] using users_cons msg []
      | unstashed => cases msg <;> rfl
    | _ => rfl
  | _ => rfl

theorem Task.taken_idle {t : Task T} (h : t.busy = false) : t.taken = [] := by
  cases t with
  | looping n stage => cases stage <;> first | rfl | cases h
  | _ => rfl

namespace Cell

/-- The handlers of this step were called with messages of the list. -/
def Handing (messages : List (Message T)) (_ : Setting) (_ : ActorContext T)
    (events : List (Event T)) : Prop :=
  (handed events).Sublist messages

theorem handing_following (messages : List (Message T)) :
    Following (fun _ => True) (Handing messages) where
  op {s context log} op _ h := by
    have hnone : handed (op.apply s.rt context).log = [] := handed_nil ContextOp.apply_handles
    simpa [Handing, hnone] using h
  event {s e context log} he h := by
    have hnone : handed [e] = [] := by cases e <;> first | rfl | cases he
    simpa [Handing, hnone] using h
  created h := by simpa [Handing, Event.given] using h
  actor h := h

theorem processMessage_handing {c : Cell T} {context : ActorContext T} {actor : InstanceId}
    {src : Source} {message : Message T} (hactor : c.disp.actor = some actor)
    (hcontext : c.disp.context = some context) (hlog : c.log = [])
    (hsrc : src = .unstashed → ∃ msg, message = .user msg) (numMsg : Nat) :
    (processMessage numMsg src message c).Ensures
      (Follows (fun _ => True) (Handing ((src.taken message).filterMap Message.seen)) [])
      (Follows (fun _ => True) (Handing ((src.taken message).filterMap Message.seen)) []) := by
  generalize hmessages : (src.taken message).filterMap Message.seen = messages
  have rule := handing_following messages
  have start : ∀ {c' : Cell T} {context' : ActorContext T} {events : List (Event T)},
      c'.disp.context = some context' → c'.log = events → (handed events).Sublist messages →
      Follows (fun _ => True) (Handing messages) [] c' := by
    rintro c' context' events hcontext' rfl hgiven
    exact ⟨fun _ _ _ _ => trivial, context', hcontext', hgiven⟩
  obtain ⟨htouch, hsame, -⟩ := touch_same context c
  have touched : Follows (fun _ => True) (Handing messages) [] (c.touch context) :=
    start (hsame.trans hcontext) htouch (by simp [hlog, Event.given])
  have scheduled : ∀ d, Follows (fun _ => True) (Handing messages) []
      (c.apply (context.armReceiveTimeout c.rt d)) := by
    refine fun d => start rfl rfl ?_
    change (handed (c.log ++ (context.armReceiveTimeout c.rt d).log)).Sublist messages
    rw [hlog, List.nil_append, handed_nil fun e he => ?_]
    · exact List.nil_sublist _
    · obtain rfl | ⟨handle, rfl⟩ := armReceiveTimeout_mem he <;> rfl
  refine rule.processMessage ?_
  obtain ⟨o, ho, hhandling⟩ := onMessage_handling hactor hcontext numMsg src message
  rw [ho]
  have queued : (∀ msg, message ≠ .user msg) → src = .queue := by
    intro hmsg
    cases src with
    | queue => rfl
    | unstashed =>
      obtain ⟨msg, hm⟩ := hsrc rfl
      exact absurd hm (hmsg msg)
  cases hhandling with
  | user =>
    refine rule.callAfter .onMessage touched fun _ _ _ => ?_
    rw [← hmessages]
    cases src <;> simp [Handing, htouch, hlog, Event.given, Source.taken, Message.seen]
  | timer _ _ =>
    obtain rfl := queued (by simp)
    refine rule.callAfter .onMessage touched fun _ _ _ => ?_
    rw [← hmessages]
    simp [Handing, htouch, hlog, Event.given, Source.taken, Message.seen]
  | stale => exact touched
  | poisonPill =>
    refine start rfl rfl ?_
    simp [Cell.apply, hlog, Event.given, ActorContext.stopSelf]
  | unset _ | failed _ _ _ => exact start hcontext hlog (List.nil_sublist _)
  | expired _ _ _ _ =>
    obtain rfl := queued (by simp)
    refine rule.callAfter .onSystemMessage (start hcontext hlog (List.nil_sublist _))
      fun _ _ _ => ?_
    rw [← hmessages]
    simp [Handing, hlog, Event.given, Source.taken, Message.seen]
  | early _ _ _ _ | again _ => exact scheduled _

end Cell

namespace Mailbox

variable {m m' : Mailbox T} {t t' : Task T}

/-- The messages that are still to be processed were pushed last, and what the handlers
were given was pushed before. -/
structure Flow (log : List (Event T)) (waiting : List (Message T)) : Prop where
  last : waiting <:+ accepted log
  handed : (handed log ++ waiting.filterMap Message.seen).Sublist
    ((accepted log).filterMap Message.seen)

structure Flowing (m : Mailbox T) (t : Task T) : Prop where
  flow : Flow m.log (t.taken ++ m.messageQueue.items)
  unstashed : ∀ n msg, t = .looping n (.processing .unstashed msg) → ∃ u, msg = .user u

theorem Flow.later {log log' events : List (Event T)} {waiting waiting' : List (Message T)}
    (h : Flow log waiting) (hlog : log' = log ++ events)
    (haccepted : accepted events = []) (hwaiting : waiting' <:+ waiting)
    (hhanded : (Ruactor.handed events ++ waiting'.filterMap Message.seen).Sublist
      (waiting.filterMap Message.seen)) : Flow log' waiting' := by
  have hsame : accepted log' = accepted log := by
    rw [hlog, accepted_append, haccepted, List.append_nil]
  refine ⟨hsame ▸ hwaiting.trans h.last, ?_⟩
  rw [hsame, hlog, handed_append, List.append_assoc]
  exact (hhanded.append_left _).trans h.handed

/-- A step gives a handler at most the message that the task has taken. -/
theorem Move.given {input : TaskInput T} {r : TaskStep T} {events : List (Event T)}
    (move : m.Move input t r) (hphase : m.Phase t) (h : m.Flowing t)
    (hlog : r.mbox.log = m.log ++ events) :
    (handed events).Sublist (t.taken.filterMap Message.seen) := by
  cases hbusy : t.busy with
  | false =>
    have hunhandled : ∀ e ∈ events, e.handles = false := by
      refine move.unhandled hphase (fun n src msg ht => ?_) hlog
      rw [ht] at hbusy
      cases hbusy
    rw [handed_nil hunhandled]
    exact List.nil_sublist _
  | true =>
    cases move with
    | @process n src msg r hf =>
      obtain ⟨-, -, hactor, context, hcontext, -⟩ := hphase
      obtain ⟨actor, hactor⟩ := Option.ne_none_iff_exists'.mp hactor
      have unstashed : src = .unstashed → ∃ u, msg = .user u := by
        rintro rfl
        exact h.unstashed n msg rfl
      have ho := Cell.processMessage_handing (c := m.cell input) hactor hcontext rfl
        unstashed m.numUserMessage
      obtain ⟨c, ⟨-, _, -, hc⟩, rfl⟩ | ⟨c, ⟨-, _, -, hc⟩, rfl⟩ := finish_events hf ho hlog
      · exact hc
      · -- unwinding hands nothing
        simpa [Cell.Handing, Event.given, Task.taken] using hc
    | _ => cases hbusy

theorem Move.flowing {input : TaskInput T} {r : TaskStep T} (move : m.Move input t r)
    (hact : t.active = true) (hphase : m.Phase t) (h : m.Flowing t) :
    Flow r.mbox.log r.mbox.messageQueue.items ∧ ∀ t' ∈ r.next, r.mbox.Flowing t' := by
  obtain ⟨events, hlog, hlogs⟩ := move.logs hphase
  have hunsent : accepted events = [] := accepted_nil fun e he => (hlogs e he).unsent
  have hgiven := move.given hphase h hlog
  have rest : r.mbox.messageQueue.items = m.messageQueue.items →
      Flow r.mbox.log r.mbox.messageQueue.items := by
    intro hitems
    rw [hitems]
    refine h.flow.later hlog hunsent (List.suffix_append _ _) ?_
    rw [List.filterMap_append]
    exact hgiven.append_right _
  have idle : ∀ {t' : Task T}, r.mbox.messageQueue.items = m.messageQueue.items →
      t'.busy = false → Flow r.mbox.log r.mbox.messageQueue.items ∧
        ∀ u ∈ some t', r.mbox.Flowing u := by
    intro t' hitems hbusy
    refine ⟨rest hitems, ?_⟩
    rintro u ⟨⟩
    refine ⟨Task.taken_idle hbusy ▸ rest hitems, ?_⟩
    rintro n msg rfl
    cases hbusy
  cases move with
  | @popUser n context msg queue _ _ _ hitems _ =>
    have hflow := h.flow
    rw [hitems] at hflow
    refine ⟨hflow.later (List.append_nil _).symm rfl (List.suffix_cons msg _) ?_, ?_⟩
    · exact (List.sublist_cons_self msg queue.items).filterMap _
    · rintro t' ⟨⟩
      exact ⟨hflow, nofun⟩
  | @popUnstashed n context msg rest _ _ _ =>
    refine ⟨rest rfl, ?_⟩
    rintro t' ⟨⟩
    refine ⟨rest rfl, fun n msg ht => ?_⟩
    cases ht
    exact ⟨_, rfl⟩
  | start _ hf | terminate hf | process hf =>
    obtain ⟨c, -, -, hm, hn, -⟩ | ⟨c, -, -, hm, hn, -⟩ := finish_cases hf
    · rw [hn]
      exact idle (by rw [hm]; rfl) rfl
    · rw [hn]
      exact ⟨rest (by rw [hm]; rfl), nofun⟩
  | childUnwind _ | closingUnwind _ | userUnwind _ _ => exact ⟨rest rfl, nofun⟩
  | someUser _ | noUser _ | accepting _ | closed _ | someInternal _ | done _ => cases hact
  | _ => exact idle rfl rfl

theorem Env.flow (henv : m.Env m') {taken : List (Message T)}
    (h : Flow m.log (taken ++ m.messageQueue.items)) :
    Flow m'.log (taken ++ m'.messageQueue.items) := by
  cases henv with
  | @pushed msg queue _ hitems =>
    obtain ⟨⟨done, hdone⟩, hhanded⟩ := h
    have haccepted : accepted (m.log ++ [.pushed msg]) = accepted m.log ++ [msg] := by
      rw [accepted_append]
      rfl
    refine ⟨⟨done, ?_⟩, ?_⟩
    · rw [haccepted, ← hdone, hitems]
      simp
    · rw [haccepted, hitems, handed_append, ← List.append_assoc taken, List.filterMap_append,
        List.filterMap_append]
      simpa [Event.given] using hhanded.append (.refl ([msg].filterMap Message.seen))
  | same | tick _ => exact h
  | rejected _ | watchReturned _ _ | pushedInternal _ =>
    exact h.later rfl rfl (List.suffix_refl _) (List.Sublist.refl _)

end Mailbox

namespace Node

theorem flowing_owned : Owned path option parent anyTask (Mailbox.Phase (T := T))
    Mailbox.Flowing (fun m => m.Flowing .storing)
    (fun m => Mailbox.Flow m.log m.messageQueue.items) where
  start := ⟨⟨⟨List.suffix_refl _, List.Sublist.refl _⟩, nofun⟩, List.suffix_refl _,
    List.Sublist.refl _⟩
  env henv := by
    have keep : ∀ t, Mailbox.Flowing _ t → Mailbox.Flowing _ t :=
      fun t h => ⟨henv.flow h.flow, h.unstashed⟩
    exact ⟨fun h => @Mailbox.Env.flow _ _ _ henv [] h, keep _, fun t _ => keep t⟩
  acquire _ := ⟨id, fun h => ⟨h.flow, nofun⟩⟩
  move move hact _ hphase h _ := by
    obtain ⟨hflow, hnext⟩ := move.flowing hact hphase h
    refine ⟨hflow, fun t' ht' => ⟨fun _ => hnext t' ht', ?_⟩⟩
    rintro rfl
    exact ⟨hflow, nofun⟩

theorem reachable_flowing {nd : Node T} (h : (machine path option parent).Reachable nd) :
    Held Mailbox.Flowing (fun m => m.Flowing .storing)
      (fun m => Mailbox.Flow m.log m.messageQueue.items) nd :=
  flowing_owned.reachable (fun h => (reachable_phase h).loc) h

end Node

end Ruactor
