import Ruactor.Handing
import Ruactor.Library.Weight

/-!
# What a mailbox holds

The values that programs put into messages are moved and never copied. One that is in the
mailbox is with a caller, in the message queue, with the task that took it out, or in one of
the two stashing queues. It leaves when a handler is called with it, or when its push is
refused, and comes back when it is stashed. A step makes the mailbox hold no value twice.

The other way round, a user message that was pushed stays in the queue, and then with the task
that took it, until a handler is called with it.
-/

namespace Ruactor

open Machine Weight

variable {T : Type} {path : ActorPath} {option : PropsOption} {parent : ParentRef}

def Message.contents : Message T → List T
  | .user msg | .timer _ _ msg _ => [msg]
  | _ => []

/-- The user message of a `send` that has not pushed it. -/
def Client.unpushed : Client T → List T
  | .checking (.user msg) _ | .pushing (.user msg) _ => [msg]
  | _ => []

def Client.contents : Client T → List T
  | .checking msg _ | .pushing msg _ => msg.contents
  | _ => []

def Task.contents : Task T → List T
  | .looping _ (.processing _ msg) => msg.contents
  | _ => []

def Call.contents : Call T → List T
  | .send msg | .trySend msg => msg.contents
  | _ => []

def Action.contents : Action T → List T
  | .call c => c.contents
  | _ => []

def ActorContext.contents (c : ActorContext T) : List T := c.stash ++ c.unstashed

/-- What a handler is called with. -/
def Event.served : Event T → List T
  | .delivered _ _ msg | .timerDelivered _ _ _ msg _ => [msg]
  | _ => []

/-- What the caller of a refused push is given back. -/
def Event.refused : Event T → List T
  | .rejected msg => msg.contents
  | _ => []

/-- What a callback gives to the mailbox. -/
def Event.incoming : Event T → List T
  | .stashed msg => [msg]
  | _ => []

def served (log : List (Event T)) : List T := log.flatMap Event.served

def refused (log : List (Event T)) : List T := log.flatMap Event.refused

/-- The user messages among the refused values. -/
def bounced (log : List (Event T)) : List T :=
  log.filterMap fun
    | .rejected (.user msg) => some msg
    | _ => none

def incoming (log : List (Event T)) : List T := log.flatMap Event.incoming

@[simp] theorem served_nil : served ([] : List (Event T)) = [] := rfl

@[simp] theorem refused_nil : refused ([] : List (Event T)) = [] := rfl

@[simp] theorem incoming_nil : incoming ([] : List (Event T)) = [] := rfl

@[simp] theorem served_append (log log' : List (Event T)) :
    served (log ++ log') = served log ++ served log' := List.flatMap_append

@[simp] theorem incoming_append (log log' : List (Event T)) :
    incoming (log ++ log') = incoming log ++ incoming log' := List.flatMap_append

@[simp] theorem served_cons (e : Event T) (log : List (Event T)) :
    served (e :: log) = e.served ++ served log := List.flatMap_cons

@[simp] theorem refused_cons (e : Event T) (log : List (Event T)) :
    refused (e :: log) = e.refused ++ refused log := List.flatMap_cons

@[simp] theorem incoming_cons (e : Event T) (log : List (Event T)) :
    incoming (e :: log) = e.incoming ++ incoming log := List.flatMap_cons

/-- The event moves no value to a program or from it. -/
def Event.empty : Event T → Bool
  | .delivered _ _ _ | .timerDelivered _ _ _ _ _ | .rejected _ | .stashed _ => false
  | _ => true

theorem served_empty {events : List (Event T)} (h : ∀ e ∈ events, e.empty = true) :
    served events = [] := by
  refine List.flatMap_eq_nil_iff.mpr fun e he => ?_
  have hempty := h e he
  cases e <;> first | rfl | cases hempty

theorem incoming_empty {events : List (Event T)} (h : ∀ e ∈ events, e.empty = true) :
    incoming events = [] := by
  refine List.flatMap_eq_nil_iff.mpr fun e he => ?_
  have hempty := h e he
  cases e <;> first | rfl | cases hempty

theorem Event.bookkeeping_empty {e : Event T} (h : e.bookkeeping = true) : e.empty = true := by
  cases e <;> first | rfl | cases h

section Operations

variable {w : T → Nat} (rt : Runtime) (context : ActorContext T)

theorem ContextOp.apply_served (op : ContextOp T) : served (op.apply rt context).log = [] := by
  refine List.flatMap_eq_nil_iff.mpr fun e he => ?_
  obtain ⟨msg, -, rfl⟩ | ⟨-, rfl⟩ | hbook := apply_log he
  · rfl
  · rfl
  · cases e <;> first | rfl | cases hbook

/-- An operation moves what it stashes, and nothing else. -/
theorem ContextOp.apply_contents (op : ContextOp T) :
    weigh w (op.apply rt context).context.contents =
      weigh w context.contents + weigh w (incoming (op.apply rt context).log) := by
  by_cases hstash : ∃ msg, op = .stash msg
  · obtain ⟨msg, rfl⟩ := hstash
    simp [apply, ActorContext.stashMessage, ActorContext.contents, Event.incoming]
    omega
  by_cases hunstash : op = .unstashAll
  · subst hunstash
    simp [apply, ActorContext.unstashAll, ActorContext.unstashLoop_eq, ActorContext.contents,
      Event.incoming]
    omega
  · obtain ⟨-, hs, hu⟩ := apply_quiet rt context (fun msg he => hstash ⟨msg, he⟩) hunstash
    have hempty : ∀ e ∈ (op.apply rt context).log, e.empty = true := by
      intro e he
      obtain ⟨msg, hop, -⟩ | ⟨hop, -⟩ | hbook := apply_log he
      · exact absurd ⟨msg, hop⟩ hstash
      · exact absurd hop hunstash
      · exact Event.bookkeeping_empty hbook
    simp [ActorContext.contents, hs, hu, incoming_empty hempty]

theorem armReceiveTimeout_empty (d : Duration) :
    ∀ e ∈ (context.armReceiveTimeout rt d).log, e.empty = true := by
  intro e he
  obtain rfl | ⟨handle, rfl⟩ := armReceiveTimeout_mem he <;> rfl

end Operations

namespace Cell

/-- The callbacks of the step have taken values of `hand`, those of `sure` among them, and
besides these the context has what it had and what was stashed. -/
structure Weighed (w : T → Nat) (stock hand sure : List T) (_ : Setting)
    (context : ActorContext T) (events : List (Event T)) : Prop where
  most : weigh w context.contents + weigh w (served events) ≤
    weigh w stock + weigh w hand + weigh w (incoming events)
  hand : weigh w (served events) ≤ weigh w hand
  sure : weigh w sure ≤ weigh w (served events)

variable {w : T → Nat} {stock hand sure : List T}

theorem Weighed.append {s s' : Setting} {context context' : ActorContext T}
    {events more : List (Event T)} (h : Weighed w stock hand sure s context events)
    (hcontext : context'.contents = context.contents) (hmore : ∀ e ∈ more, e.empty = true) :
    Weighed w stock hand sure s' context' (events ++ more) := by
  obtain ⟨hmost, hhand, hsure⟩ := h
  constructor
  · simpa [hcontext, served_empty hmore, incoming_empty hmore] using hmost
  · simpa [served_empty hmore] using hhand
  · simpa [served_empty hmore] using hsure

theorem weighed_following (w : T → Nat) (stock hand sure : List T) :
    Following (fun _ => True) (Weighed w stock hand sure) where
  op {s context log} op _ h := by
    obtain ⟨hmost, hhand, hsure⟩ := h
    have hcontents := op.apply_contents (w := w) s.rt context
    constructor
    · rw [served_append, incoming_append, weigh_append, weigh_append, op.apply_served, weigh_nil]
      omega
    · simpa [op.apply_served] using hhand
    · simpa [op.apply_served] using hsure
  event {s e context log} he h := by
    refine h.append rfl fun e' he' => ?_
    rw [List.mem_singleton.mp he']
    cases e <;> first | rfl | cases he
  created h := h.append rfl (by simp [Event.empty])
  actor h := ⟨h.most, h.hand, h.sure⟩

theorem weighed_start (w : T → Nat) (s : Setting) (context : ActorContext T) (hand : List T) :
    Weighed w context.contents hand [] s context [] := by
  constructor <;> simp

abbrev Weighs (w : T → Nat) (stock hand sure : List T) : Cell T → Prop :=
  Follows (fun _ => True) (Weighed w stock hand sure) []

/-- The handler is called with the message in hand or with none, and with a user message
surely. -/
theorem processMessage_weighed {c : Cell T} {context : ActorContext T} {actor : InstanceId}
    {src : Source} {message : Message T} (hactor : c.disp.actor = some actor)
    (hcontext : c.disp.context = some context) (hlog : c.log = []) (numMsg : Nat) :
    (processMessage numMsg src message c).Ensures
      (Weighs w context.contents message.contents (users [message]))
      (Weighs w context.contents message.contents (users [message])) := by
  generalize hstock : context.contents = stock
  generalize hhand : message.contents = hand
  generalize hsure : users [message] = sure
  have rule := weighed_following w stock hand sure
  obtain ⟨htouch, hsame, -⟩ := touch_same context c
  have start : ∀ {c' : Cell T} {context' : ActorContext T} {events : List (Event T)},
      c'.disp.context = some context' → c'.log = events →
      context'.contents = context.contents → (∀ e ∈ events, e.empty = true) →
      (∀ msg, message ≠ .user msg) → Weighs w stock hand sure c' := by
    rintro c' context' events hcontext' rfl hcontents hempty hmessage
    have hnone : sure = [] := by
      rw [← hsure]
      cases message with
      | user msg => exact absurd rfl (hmessage msg)
      | _ => rfl
    exact ⟨fun _ _ _ _ => trivial, context', hcontext', (hnone ▸ hstock ▸
      (weighed_start w c'.setting context hand)).append hcontents hempty⟩
  have given : ∀ {e : Event T}, e.served = hand → e.incoming = [] →
      ((c.touch context).call .onMessage [e]).Ensures (Weighs w stock hand sure)
        (Weighs w stock hand sure) := by
    intro e hserved hincoming
    refine rule.call .onMessage (fun _ _ _ _ => trivial) (fun context' hcontext' => ?_)
      (by simp [hsame, hcontext])
    obtain rfl := Option.some.inj (hcontext.symm.trans (hsame.symm.trans hcontext'))
    have hstart : (Event.received c.rt.clock : Event T).served = [] ∧
        (Event.received c.rt.clock : Event T).incoming = [] := ⟨rfl, rfl⟩
    have hless : weigh w sure ≤ weigh w hand := by
      rw [← hsure, ← hhand]
      cases message <;> simp [users, Message.contents]
    rw [htouch, hlog]
    constructor
    · simp [← hstock, hstart.1, hstart.2, hserved, hincoming]
    · simp [hstart.1, hserved]
    · simpa [hstart.1, hserved] using hless
  refine rule.processMessage ?_
  obtain ⟨o, ho, hhandling⟩ := onMessage_handling hactor hcontext numMsg src message
  rw [ho]
  cases hhandling with
  | user => exact given hhand rfl
  | timer _ _ => exact given hhand rfl
  | stale =>
    exact start (hsame.trans hcontext) htouch rfl (by simp [hlog, Event.empty]) (by simp)
  | poisonPill =>
    exact start rfl rfl rfl (by simp [Cell.apply, hlog, ActorContext.stopSelf, Event.empty])
      (by simp)
  | unset _ | failed _ _ _ => exact start hcontext hlog rfl (by simp) (by simp)
  | expired _ _ _ _ =>
    refine rule.callAfter .onSystemMessage (start hcontext hlog rfl (by simp) (by simp))
      fun _ _ h => h.append rfl (by simp [Event.empty])
  | early _ _ _ _ | again _ =>
    refine start rfl rfl rfl (fun e he => ?_) (by simp)
    simp only [Cell.apply, hlog, List.nil_append] at he
    exact armReceiveTimeout_empty _ _ _ e he

end Cell

namespace Mailbox

variable {m m' : Mailbox T} {t : Task T} {input : TaskInput T} {r : TaskStep T}
  {events : List (Event T)} {w : T → Nat}

def contents (m : Mailbox T) : List T :=
  m.messageQueue.items.flatMap Message.contents ++
    (m.dispatcher.context.getD .new).contents

theorem finish_weighed {next : Task T} {o : Outcome (Cell T)} {hand sure : List T}
    (h : m.finish next o = some r)
    (ho : o.Ensures (Cell.Weighs w (m.dispatcher.context.getD .new).contents hand sure)
      (Cell.Weighs w (m.dispatcher.context.getD .new).contents hand sure))
    (hnext : next.contents = []) (hlog : r.mbox.log = m.log ++ events) :
    weigh w r.mbox.contents + weigh w (r.next.toList.flatMap Task.contents) +
        weigh w (served events) ≤
      weigh w m.contents + weigh w hand + weigh w (incoming events) ∧
    weigh w (served events) ≤ weigh w hand ∧ weigh w sure ≤ weigh w (served events) := by
  have place : ∀ {c : Cell T} (m' : Mailbox T),
      Cell.Weighs w (m.dispatcher.context.getD .new).contents hand sure c →
      m'.dispatcher = c.disp → m'.messageQueue = m.messageQueue →
      weigh w m'.contents + weigh w (served c.log) ≤
        weigh w m.contents + weigh w hand + weigh w (incoming c.log) ∧
      weigh w (served c.log) ≤ weigh w hand ∧ weigh w sure ≤ weigh w (served c.log) := by
    rintro c m' ⟨-, context, hcontext, hmost, hhand, hsure⟩ hdisp hqueue
    rw [List.nil_append] at hmost hhand hsure
    refine ⟨?_, hhand, hsure⟩
    rw [contents, contents, hdisp, hqueue, hcontext, weigh_append, weigh_append, Option.getD_some]
    omega
  obtain ⟨c, rfl, -, hm, hn, -⟩ | ⟨c, rfl, -, hm, hn, -⟩ := finish_cases h
  · obtain rfl : events = c.log := List.append_cancel_left (hlog.symm.trans (by rw [hm]; rfl))
    have hplace := place r.mbox ho (by rw [hm]; rfl) (by rw [hm]; rfl)
    simpa [hn, hnext] using hplace
  · obtain rfl : events = c.log ++ [.unwound] :=
      List.append_cancel_left (hlog.symm.trans (by rw [hm]; simp [commit, emit]))
    have hplace := place r.mbox ho (by rw [hm]; rfl) (by rw [hm]; rfl)
    simpa [hn, Event.served, Event.incoming] using hplace

theorem process_weighed {n : Nat} {src : Source} {msg : Message T}
    (hphase : m.Phase (.looping n (.processing src msg)))
    (hf : m.finish (.looping n .processed)
      ((m.cell input).processMessage m.numUserMessage src msg) = some r)
    (hlog : r.mbox.log = m.log ++ events) :
    weigh w r.mbox.contents + weigh w (r.next.toList.flatMap Task.contents) +
        weigh w (served events) ≤
      weigh w m.contents + weigh w msg.contents + weigh w (incoming events) ∧
    weigh w (served events) ≤ weigh w msg.contents ∧
      weigh w (users [msg]) ≤ weigh w (served events) := by
  obtain ⟨-, -, hactor, context, hcontext, -⟩ := hphase
  obtain ⟨actor, hactor⟩ := Option.ne_none_iff_exists'.mp hactor
  have ho : (Cell.processMessage m.numUserMessage src msg (m.cell input)).Ensures
      (Cell.Weighs w context.contents msg.contents (users [msg])) _ :=
    Cell.processMessage_weighed hactor hcontext rfl m.numUserMessage
  refine finish_weighed hf ?_ rfl hlog
  simpa [hcontext] using ho

theorem Move.silent (move : m.Move input t r) (hphase : m.Phase t) (ht : t.calls = false)
    (hlog : r.mbox.log = m.log ++ events) : ∀ e ∈ events, e.empty = true := by
  obtain ⟨events', hlog', hlogs⟩ := move.logs hphase
  obtain rfl : events = events' := List.append_cancel_left (hlog.symm.trans hlog')
  intro e he
  cases hlogs e he with
  | called hcalls _ _ _ => simp [ht] at hcalls
  | _ => rfl

theorem Move.callers (move : m.Move input t r) :
    ∀ client ∈ r.clients, client.contents = [] ∧ client.unpushed = [] := by
  have own : ∀ log : List (Event T), ∀ client ∈ selfStops log,
      client.contents = [] ∧ client.unpushed = [] := by
    intro log client hclient
    obtain ⟨e, -, he⟩ := List.mem_filterMap.mp hclient
    cases e <;> cases he
    exact ⟨rfl, rfl⟩
  cases move with
  | start _ hf | terminate hf | process hf =>
    obtain ⟨c, -, -, -, -, hclients⟩ | ⟨c, -, -, -, -, hclients⟩ := finish_cases hf <;>
      exact hclients ▸ own c.log
  | _ => exact List.forall_mem_nil _

/-- A step of a task copies no value, and serves no other than the one in hand. -/
theorem Move.contents_le (move : m.Move input t r) (hphase : m.Phase t)
    (hlog : r.mbox.log = m.log ++ events) :
    weigh w r.mbox.contents + weigh w (r.next.toList.flatMap Task.contents) +
        weigh w (served events) ≤
      weigh w m.contents + weigh w t.contents + weigh w (incoming events) ∧
    weigh w (served events) ≤ weigh w t.contents := by
  have rule := Cell.weighed_following w (m.dispatcher.context.getD .new).contents [] []
  have silent : t.calls = false →
      weigh w r.mbox.contents + weigh w (r.next.toList.flatMap Task.contents) ≤
        weigh w m.contents + weigh w t.contents →
      weigh w r.mbox.contents + weigh w (r.next.toList.flatMap Task.contents) +
          weigh w (served events) ≤
        weigh w m.contents + weigh w t.contents + weigh w (incoming events) ∧
      weigh w (served events) ≤ weigh w t.contents := by
    intro hcalls hle
    have hempty := move.silent hphase hcalls hlog
    rw [served_empty hempty, incoming_empty hempty]
    exact ⟨hle, Nat.zero_le _⟩
  cases move with
  | dead _ =>
    obtain rfl : events = [] := List.self_eq_append_right.mp hlog
    simp [Task.contents]
  | start hparent hf =>
    obtain ⟨hmost, hhand, -⟩ := finish_weighed hf (rule.startActor (createContext_follows
      (fun _ _ _ _ => trivial) (Cell.weighed_start w m.setting _ []))) rfl hlog
    exact ⟨hmost, hhand⟩
  | terminate hf =>
    obtain ⟨-, -, -, context, hcontext, -⟩ := hphase
    have hstart : (m.cell input).Follows (fun _ => True)
        (Cell.Weighed w (m.dispatcher.context.getD .new).contents [] []) [] := by
      refine cell_follows (fun _ _ _ _ => trivial) hcontext ?_
      rw [hcontext]
      exact Cell.weighed_start w m.setting context []
    obtain ⟨hmost, hhand, -⟩ := finish_weighed hf
      (rule.terminateActor (fun h => h.append rfl (by simp [Event.empty])) hstart) rfl hlog
    exact ⟨hmost, hhand⟩
  | @process n src msg r hf =>
    obtain ⟨hmost, hhand, -⟩ := process_weighed hphase hf hlog
    exact ⟨hmost, hhand⟩
  | popUnstashed _ hcontext hu =>
    refine silent rfl ?_
    simp only [contents, withContext, hcontext, Option.getD_some, ActorContext.contents, hu,
      Option.toList_some, List.flatMap_cons, List.flatMap_nil, Task.contents, Message.contents,
      weigh_append, weigh_cons, weigh_nil]
    omega
  | popUser _ hcontext hu hitems _ =>
    refine silent rfl ?_
    simp only [contents, hitems, Option.toList_some, List.flatMap_cons, List.flatMap_nil,
      Task.contents, weigh_append, weigh_nil]
    omega
  | childLast hcontext _ _ | childGone hcontext _ | suspend hcontext _ =>
    exact silent rfl
      (by simp [contents, withContext, hcontext, ActorContext.contents, Task.contents])
  | reply =>
    exact silent rfl (by simp [contents, ActorContext.contents, ActorContext.new, Task.contents])
  | _ => exact silent rfl (by simp [contents, Task.contents, unwind, emit])

theorem Move.queue_same (move : m.Move input t r) (ht : ∀ n, t ≠ .looping n .popUser) :
    r.mbox.messageQueue = m.messageQueue := by
  cases move with
  | start _ hf | terminate hf | process hf =>
    obtain ⟨c, -, -, hm, -⟩ | ⟨c, -, -, hm, -⟩ := finish_cases hf <;> rw [hm] <;> rfl
  | popUser _ _ _ _ _ => exact absurd rfl (ht _)
  | _ => rfl

/-- What a task has taken out of the queue stays in hand until a handler has it. -/
theorem Move.queued_le (move : m.Move input t r) (hphase : m.Phase t)
    (hlog : r.mbox.log = m.log ++ events) :
    weigh w (t.inHand .queue) + weigh w (users m.messageQueue.items) ≤
      weigh w (r.next.toList.flatMap (Task.inHand .queue)) +
        weigh w (users r.mbox.messageQueue.items) + weigh w (served events) := by
  have idle : t.busy = false → (∀ n, t ≠ .looping n .popUser) →
      weigh w (t.inHand .queue) + weigh w (users m.messageQueue.items) ≤
        weigh w (r.next.toList.flatMap (Task.inHand .queue)) +
          weigh w (users r.mbox.messageQueue.items) + weigh w (served events) := by
    intro hbusy hpop
    rw [Task.inHand_idle hbusy, move.queue_same hpop, weigh_nil]
    omega
  cases move with
  | @process n src msg r hf =>
    obtain ⟨-, -, hsure⟩ := process_weighed (w := w) hphase hf hlog
    have hqueue := (Move.process hf).queue_same fun _ hpop => by cases hpop
    have hhand : weigh w (Cell.inHand .queue src msg) ≤ weigh w (users [msg]) := by
      cases msg <;> cases src <;> simp [Cell.inHand, users]
    rw [Task.inHand_processing, hqueue]
    omega
  | @popUser n context msg queue _ _ _ hitems _ =>
    simp [hitems, users_cons, Task.inHand, Nat.add_assoc]
  | popUnstashed _ _ _ =>
    simp [Task.inHand, Cell.inHand, withContext]
  | terminated _ | userUnwind _ _ | idle _ _ _ _ => simp [Task.inHand, unwind, emit]
  | _ => exact idle rfl fun _ hpop => by cases hpop

theorem pushes_unsent (h : ∀ e ∈ events, e.sent = false) : pushes events = [] := by
  rw [← users_accepted, accepted_nil h]
  rfl

section Access

variable {client : Client T} {next : Option (Client T)}

@[simp] theorem afterSend_contents (watch : Option ReplyTo) :
    (Node.afterSend watch : Option (Client T)).toList.flatMap Client.contents = [] := by
  cases watch <;> rfl

@[simp] theorem afterSend_unpushed (watch : Option ReplyTo) :
    (Node.afterSend watch : Option (Client T)).toList.flatMap Client.unpushed = [] := by
  cases watch <;> rfl

theorem Access.contents_le (hacc : m.Access client next m') (hlog : m'.log = m.log ++ events) :
    weigh w m'.contents + weigh w (next.toList.flatMap Client.contents) +
        weigh w (refused events) ≤ weigh w m.contents + weigh w client.contents := by
  cases hacc with
  | accept _ | watch _ =>
    obtain rfl : events = [] := List.self_eq_append_right.mp hlog
    simp [Client.contents]
  | refuse _ | full _ =>
    obtain rfl := List.append_cancel_left hlog
    simp [Client.contents, Event.refused, contents, emit]
  | push _ hitems =>
    obtain rfl := List.append_cancel_left hlog
    simp [Client.contents, Event.refused, contents, hitems]
    omega
  | pushInternal | unwatched _ | stopSelf =>
    obtain rfl := List.append_cancel_left hlog
    simp [Client.contents, Event.refused, contents, emit, Mailbox.pushInternal]

theorem Access.unpushed_le (hacc : m.Access client next m') (hlog : m'.log = m.log ++ events) :
    weigh w client.unpushed ≤ weigh w (next.toList.flatMap Client.unpushed) +
      weigh w (pushes events) + weigh w (bounced events) := by
  cases hacc with
  | @accept msg _ _ =>
    obtain rfl : events = [] := List.self_eq_append_right.mp hlog
    cases msg <;> simp [Client.unpushed, pushes, bounced]
  | @refuse msg _ _ | @full msg _ _ =>
    obtain rfl := List.append_cancel_left hlog
    cases msg <;> simp [Client.unpushed, bounced]
  | @push msg _ _ _ _ =>
    obtain rfl := List.append_cancel_left hlog
    cases msg <;> simp [Client.unpushed, pushes]
  | pushInternal | unwatched _ | watch _ | stopSelf => simp [Client.unpushed]

theorem Access.queued_le (hacc : m.Access client next m') (hlog : m'.log = m.log ++ events) :
    weigh w (users m.messageQueue.items) + weigh w (pushes events) ≤
      weigh w (users m'.messageQueue.items) := by
  cases hacc with
  | accept _ | watch _ =>
    obtain rfl : events = [] := List.self_eq_append_right.mp hlog
    simp [pushes]
  | @push msg _ _ _ hitems =>
    obtain rfl := List.append_cancel_left hlog
    rw [hitems, users_append]
    cases msg <;> simp [pushes, users]
  | refuse _ | full _ | pushInternal | unwatched _ | stopSelf =>
    obtain rfl := List.append_cancel_left hlog
    simp [pushes, emit, Mailbox.pushInternal]

end Access

end Mailbox

namespace Node

variable {nd nd' : Node T} {a : Action T} {events : List (Event T)} {w : T → Nat}

def contents (nd : Node T) : List T :=
  nd.clients.flatMap Client.contents ++ (nd.tasks.flatMap Task.contents ++ nd.mbox.contents)

/-- The user messages that callers are about to push. -/
def unpushed (nd : Node T) : List T := nd.clients.flatMap Client.unpushed

/-- The user messages that were pushed, as long as no handler was called with them. -/
def queued (nd : Node T) : List T :=
  nd.tasks.flatMap (Task.inHand .queue) ++ users nd.mbox.messageQueue.items

theorem unpushed_le (nd : Node T) :
    weigh w nd.unpushed ≤ weigh w (nd.clients.flatMap Client.contents) := by
  refine weigh_flatMap_le (fun client => ?_) nd.clients
  cases client with
  | checking msg _ | pushing msg _ => cases msg <;> simp [Client.unpushed, Client.contents,
      Message.contents]
  | _ => exact Nat.le_refl _

theorem queued_le (nd : Node T) :
    weigh w nd.queued ≤ weigh w (nd.tasks.flatMap Task.contents) + weigh w nd.mbox.contents := by
  have hand : ∀ t : Task T, weigh w (t.inHand .queue) ≤ weigh w t.contents := by
    intro t
    cases t with
    | looping n stage =>
      cases stage with
      | processing src msg =>
        cases msg <;> cases src <;> simp [Task.inHand, Cell.inHand, Task.contents,
          Message.contents]
      | _ => exact Nat.zero_le _
    | _ => exact Nat.zero_le _
  have items : ∀ items : List (Message T),
      weigh w (users items) ≤ weigh w (items.flatMap Message.contents) := by
    intro items
    induction items with
    | nil => exact Nat.le_refl _
    | cons msg items ih =>
      rw [users_cons, List.flatMap_cons, weigh_append, weigh_append]
      exact Nat.add_le_add (by cases msg <;> simp [Cell.inHand, Message.contents]) ih
  have htasks := weigh_flatMap_le hand nd.tasks
  have hitems := items nd.mbox.messageQueue.items
  rw [queued, Mailbox.contents, weigh_append, weigh_append]
  omega

@[simp] theorem schedule_contents (nd : Node T) :
    nd.schedule.tasks.flatMap Task.contents = nd.tasks.flatMap Task.contents ∧
      nd.schedule.mbox.contents = nd.mbox.contents := by
  simp only [schedule]
  split
  · exact ⟨rfl, rfl⟩
  · exact ⟨by simp [Task.contents], rfl⟩

theorem schedule_queued (nd : Node T) : nd.schedule.queued = nd.queued := by
  simp only [schedule]
  split
  · rfl
  · simp [queued, Task.inHand]

theorem scheduled_empty {client : Client T} (h : client.pending = true) :
    client.contents = [] ∧ client.unpushed = [] ∧
      client.scheduled.toList.flatMap Client.contents = [] ∧
      client.scheduled.toList.flatMap Client.unpushed = [] := by
  cases client with
  | scheduling watch => simp [Client.contents, Client.unpushed, Client.scheduled]
  | schedulingSelf => exact ⟨rfl, rfl, rfl, rfl⟩
  | _ => cases h

theorem served_outer (h : ∀ e ∈ events, e.outer = true) : served events = [] := by
  refine List.flatMap_eq_nil_iff.mpr fun e he => ?_
  have houter := h e he
  cases e <;> first | rfl | cases houter

theorem refused_unsent (h : ∀ e ∈ events, e.sent = false) : refused events = [] := by
  refine List.flatMap_eq_nil_iff.mpr fun e he => ?_
  have hsent := h e he
  cases e <;> first | rfl | cases hsent

/-- A step makes the mailbox hold no value that nobody gave to it, and none twice. -/
theorem step_contents (h : (machine path option parent).Reachable nd)
    (hstep : nd.step a = some nd') (hlog : nd'.mbox.log = nd.mbox.log ++ events) :
    weigh w nd'.contents + weigh w (served events) + weigh w (refused events) ≤
      weigh w nd.contents + weigh w a.contents + weigh w (incoming events) ∧
    weigh w (served events) ≤ weigh w (nd.tasks.flatMap Task.contents) := by
  have silent : nd'.mbox.log = nd.mbox.log →
      weigh w nd'.contents ≤ weigh w nd.contents + weigh w a.contents →
      weigh w nd'.contents + weigh w (served events) + weigh w (refused events) ≤
        weigh w nd.contents + weigh w a.contents + weigh w (incoming events) ∧
      weigh w (served events) ≤ weigh w (nd.tasks.flatMap Task.contents) := by
    intro hsame hle
    obtain rfl : events = [] := List.self_eq_append_right.mp (hsame.symm.trans hlog)
    simpa using hle
  cases step_move hstep with
  | @call c =>
    have hstart : (c.start nd.mbox.option).contents = c.contents := by
      cases c with
      | waitStop w =>
        simp only [Call.start]
        split <;> rfl
      | _ => rfl
    refine silent rfl ?_
    simp only [contents, List.flatMap_append, List.flatMap_cons, List.flatMap_nil,
      List.append_nil, hstart, Action.contents, weigh_append]
    omega
  | tick => exact silent rfl (Nat.le_add_right _ _)
  | deliver =>
    obtain rfl := List.append_cancel_left hlog
    simp [contents, Mailbox.contents, deliver, Mailbox.pushInternal, Client.contents,
      Event.served, Event.refused, Event.incoming, Action.contents]
  | access _ hs hacc =>
    obtain ⟨events', hlog', houter⟩ := hacc.env.outer
    obtain rfl : events = events' := List.append_cancel_left (hlog.symm.trans hlog')
    have hle := hacc.contents_le (w := w) hlog
    rw [served_outer houter, weigh_nil]
    simp only [contents, hs, List.flatMap_append, List.flatMap_cons, weigh_append] at hle ⊢
    omega
  | @schedule i before client after hs hpending =>
    obtain ⟨hnone, -, hnext, -⟩ := scheduled_empty hpending
    refine silent (schedule_log nd) ?_
    simp [contents, hs, hnone, hnext]
  | @reschedule i input before after _ hs =>
    refine silent (schedule_log _) ?_
    simp only [contents, (schedule_contents _).1, (schedule_contents _).2, schedule_clients, hs,
      List.flatMap_append, List.flatMap_cons, weigh_append]
    omega
  | @task i input before t after r hi hs hr _ =>
    have hphase := phase_of_mem h (hs ▸ by simp : t ∈ nd.tasks)
    obtain ⟨events', hlog', hlogs⟩ := (Mailbox.taskStep_move hr).logs hphase
    obtain rfl : events = events' := List.append_cancel_left (hlog.symm.trans hlog')
    obtain ⟨hle, hhand⟩ := (Mailbox.taskStep_move hr).contents_le (w := w) hphase hlog
    have hcallers : weigh w (r.clients.flatMap Client.contents) = 0 :=
      weigh_flatMap_nil fun client hc => ((Mailbox.taskStep_move hr).callers client hc).1
    rw [refused_unsent fun e he => (hlogs e he).unsent, weigh_nil]
    simp only [contents, hs, List.flatMap_append, List.flatMap_cons, weigh_append] at hle hhand ⊢
    omega

/-- A push, done or refused, is all that a step logs. -/
theorem step_sent (h : (machine path option parent).Reachable nd)
    (hstep : nd.step a = some nd') (hlog : nd'.mbox.log = nd.mbox.log ++ events) :
    (∃ e, events = [e] ∧ e.sent = true) ∨ ∀ e ∈ events, e.sent = false := by
  have silent : nd'.mbox.log = nd.mbox.log → ∀ e ∈ events, e.sent = false := by
    intro hsame
    obtain rfl : events = [] := List.self_eq_append_right.mp (hsame.symm.trans hlog)
    exact List.forall_mem_nil _
  cases step_move hstep with
  | call | tick => exact .inr (silent rfl)
  | schedule _ _ => exact .inr (silent (schedule_log nd))
  | reschedule _ _ => exact .inr (silent (schedule_log _))
  | deliver => exact .inl ⟨_, List.append_cancel_left hlog.symm, rfl⟩
  | access _ _ hacc =>
    cases hacc with
    | accept _ | watch _ => exact .inr (silent rfl)
    | unwatched _ =>
      obtain rfl := List.append_cancel_left hlog
      exact .inr (by simp [Event.sent])
    | _ => exact .inl ⟨_, List.append_cancel_left hlog.symm, rfl⟩
  | @task i input before t after r hi hs hr _ =>
    obtain ⟨events', hlog', hlogs⟩ :=
      (Mailbox.taskStep_move hr).logs (phase_of_mem h (hs ▸ by simp : t ∈ nd.tasks))
    obtain rfl : events = events' := List.append_cancel_left (hlog.symm.trans hlog')
    exact .inr fun e he => (hlogs e he).unsent

theorem step_unpushed (hstep : nd.step a = some nd')
    (hlog : nd'.mbox.log = nd.mbox.log ++ events) :
    weigh w nd.unpushed ≤
      weigh w nd'.unpushed + weigh w (pushes events) + weigh w (bounced events) := by
  cases step_move hstep with
  | call =>
    simp only [unpushed, List.flatMap_append, weigh_append]
    omega
  | tick => exact Nat.le_trans (Nat.le_add_right _ _) (Nat.le_add_right _ _)
  | deliver =>
    simp only [unpushed, deliver, List.flatMap_append, weigh_append]
    omega
  | access _ hs hacc =>
    have hle := hacc.unpushed_le (w := w) hlog
    simp only [unpushed, hs, List.flatMap_append, List.flatMap_cons, weigh_append] at hle ⊢
    omega
  | @schedule i before client after hs hpending =>
    obtain ⟨-, hnone, -, hnext⟩ := scheduled_empty hpending
    simp only [unpushed, hs, List.flatMap_append, List.flatMap_cons, weigh_append, hnone, hnext,
      weigh_nil]
    omega
  | reschedule _ _ =>
    simp only [unpushed, schedule_clients]
    omega
  | task _ _ _ _ =>
    simp only [unpushed, List.flatMap_append, weigh_append]
    omega

theorem step_queued (h : (machine path option parent).Reachable nd)
    (hstep : nd.step a = some nd') (hlog : nd'.mbox.log = nd.mbox.log ++ events) :
    weigh w nd.queued + weigh w (pushes events) ≤
      weigh w nd'.queued + weigh w (served events) := by
  have silent : nd'.mbox.log = nd.mbox.log → nd'.queued = nd.queued →
      weigh w nd.queued + weigh w (pushes events) ≤
        weigh w nd'.queued + weigh w (served events) := by
    intro hsame hqueued
    obtain rfl : events = [] := List.self_eq_append_right.mp (hsame.symm.trans hlog)
    simp [hqueued, pushes]
  cases step_move hstep with
  | call | tick => exact silent rfl rfl
  | deliver =>
    obtain rfl := List.append_cancel_left hlog
    simp [queued, deliver, Mailbox.pushInternal, pushes]
  | access _ _ hacc =>
    have hle := hacc.queued_le (w := w) hlog
    simp only [queued, weigh_append] at hle ⊢
    omega
  | schedule _ _ => exact silent (schedule_log nd) (schedule_queued nd)
  | @reschedule i input before after _ hs =>
    refine silent (schedule_log _) ?_
    rw [schedule_queued]
    simp [queued, hs, Task.inHand]
  | @task i input before t after r hi hs hr _ =>
    have hphase := phase_of_mem h (hs ▸ by simp : t ∈ nd.tasks)
    have hle := (Mailbox.taskStep_move hr).queued_le (w := w) hphase hlog
    obtain ⟨events', hlog', hlogs⟩ := (Mailbox.taskStep_move hr).logs hphase
    obtain rfl : events = events' := List.append_cancel_left (hlog.symm.trans hlog')
    rw [Mailbox.pushes_unsent fun e he => (hlogs e he).unsent]
    simp only [queued, hs, List.flatMap_append, List.flatMap_cons, weigh_append, weigh_nil]
      at hle ⊢
    omega

end Node

end Ruactor
