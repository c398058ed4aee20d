import Ruactor.Replies
import Ruactor.Wakeup

/-!
# The promise of `ask!`

What the caller of `ask!` and the actor that answers can rely on, for every interleaving of
callers, tasks, timers and programs. A reply that was accepted reaches the caller whatever the
clock says, and is the only one; it is lost only to a poll that has looked at the channel just
before and finds the delay over. A message that a closing actor leaves in its queue is never
answered: its sender stays there, and the ask waits for its whole time.
-/

namespace Ruactor

open Machine Weight

open OneshotChannel (fate listening)

variable {T C V : Type} {sender : T → Option ReplyTo} {path : ActorPath} {option : PropsOption}
  {parent : ParentRef}

namespace Node

variable {nd nd' : Node T} {a : Ruactor.Action T}

/-- Nobody takes messages out of the queue of an actor that is closed. -/
theorem Move.queue_closed (move : nd.Move a nd') (hclosed : nd.mbox.terminated = true) :
    nd'.mbox.terminated = true ∧
      nd.mbox.messageQueue.items <+: nd'.mbox.messageQueue.items := by
  cases move with
  | call | tick | deliver => exact ⟨hclosed, List.prefix_refl _⟩
  | access _ _ hacc =>
    refine ⟨hacc.env.terminated.trans hclosed, ?_⟩
    cases hacc with
    | push _ hitems => exact hitems ▸ List.prefix_append _ _
    | _ => exact List.prefix_refl _
  | schedule _ _ =>
    refine ⟨(schedule_terminated nd).trans hclosed, ?_⟩
    simp only [Node.schedule]
    split <;> exact List.prefix_refl _
  | reschedule _ _ =>
    refine ⟨(schedule_terminated _).trans hclosed, ?_⟩
    simp only [Node.schedule]
    split <;> exact List.prefix_refl _
  | @task i input before t after r _ _ hr _ =>
    have move := Mailbox.taskStep_move hr
    refine ⟨move.flag.elim (fun hsame => hsame.trans hclosed) id, ?_⟩
    by_cases hpop : ∃ n, t = .looping n .popUser
    · obtain ⟨n, rfl⟩ := hpop
      cases move with
      | popUser hopen _ _ _ _ => exact absurd (hopen.symm.trans hclosed) (by simp)
      | _ => exact List.prefix_refl _
    · rw [move.queue_same fun n hn => hpop ⟨n, hn⟩]

end Node

namespace Ask

/-- A poll has found no reply, and has not come to its end. -/
def Polling (a : Ask C V) : Prop :=
  match a.point with
  | .delaying _ | .elapsed => True
  | _ => False

/-- The reply is there, and no poll is under way that has missed it. -/
structure Secured [Tokio C V] (v : V) (a : Ask C V) : Prop where
  sent : fate a.channel = .sent v
  idle : ¬ a.Polling
  result : ∀ r, a.point = .finished r → r = .ok v

theorem Step.secured [Tokio C V] {now : Instant} {v : V} {a a' : Ask C V} (hstep : a.Step now a')
    (h : a.Secured v) : a'.Secured v := by
  have hsent := hstep.fate_eq.trans h.sent
  cases hstep with
  | timeout _ | abandon _ => exact ⟨hsent, id, fun r hr => by simp at hr⟩
  | @ready began result _ hpoll =>
    obtain rfl : Except.ok v = result := by simpa [OneshotChannel.poll_sent h.sent] using hpoll
    exact ⟨hsent, id, fun r hr => (AskPoint.finished.inj hr).symm⟩
  | pending _ hpoll => simp [OneshotChannel.poll_sent h.sent] at hpoll
  | elapse hpoint | again hpoint | expire hpoint => exact absurd (by simp [Polling, hpoint]) h.idle

end Ask

namespace Asking

variable {s s' : Asking T C V} {k : ReplyTo} {a : Ask C V}

/-- The senders in the message queue. -/
def queuedSenders (sender : T → Option ReplyTo) (s : Asking T C V) : List ReplyTo :=
  (s.node.mbox.messageQueue.items.flatMap Message.contents).filterMap sender

/-- The places where a sender can be. -/
def places (sender : T → Option ReplyTo) (s : Asking T C V) : List ReplyTo :=
  s.held ++ s.node.contents.filterMap sender

theorem count_places (k : ReplyTo) : (s.places sender).count k = s.share sender k := by
  rw [places, List.count_append, count_senders, share, Nat.add_comm]

theorem mem_places : k ∈ s.places sender ↔ 0 < s.share sender k := by
  rw [← count_places, List.count_pos_iff]

theorem queuedSenders_places (h : k ∈ s.queuedSenders sender) : k ∈ s.places sender := by
  obtain ⟨msg, hmsg, hk⟩ := List.mem_filterMap.mp h
  refine List.mem_append_right _ (List.mem_filterMap.mpr ⟨msg, ?_, hk⟩)
  rw [Node.contents, Mailbox.contents]
  exact List.mem_append_right _ (List.mem_append_right _ (List.mem_append_left _ hmsg))

variable [Tokio C V]

/-- What a sender that is alive is for: it has an owner. -/
theorem reachable_owned (h : (machine (C := C) (V := V) sender path option parent).Reachable s) :
    ∀ (k : ReplyTo) (a : Ask C V), s.asks[k]? = some a → fate a.channel = .alive →
      k ∈ s.places sender := by
  refine h.invariant (P := fun s : Asking T C V => ∀ (k : ReplyTo) (a : Ask C V),
    s.asks[k]? = some a → fate a.channel = .alive → k ∈ s.places sender)
    (fun k a ha => (by simp [machine] at ha)) fun {s s' act} _ _ _ hstep k a ha halive => ?_
  obtain ⟨s₁, -, rfl⟩ := step_move hstep
  rw [collect_get, Option.map_eq_some_iff] at ha
  obtain ⟨a₁, -, rfl⟩ := ha
  rw [mem_places, share_collect]
  by_contra hnone
  rw [if_neg hnone] at halive
  exact OneshotChannel.dropSender_gone _ halive

theorem served_pos {log : List (Event T)} (h : 0 < weigh (bears sender k) (served log)) :
    ∃ e ∈ log, ∃ msg ∈ e.served, sender msg = some k := by
  obtain ⟨msg, hmsg, hpos⟩ := weigh_pos.mp h
  obtain ⟨e, he, hserved⟩ := List.mem_flatMap.mp hmsg
  refine ⟨e, he, msg, hserved, ?_⟩
  by_contra hne
  simp [bears_zero hne] at hpos

theorem served_zero {log : List (Event T)} (h : weigh (bears sender k) (served log) = 0) :
    ∀ e ∈ log, ∀ msg ∈ e.served, sender msg ≠ some k := by
  intro e he msg hserved hsender
  have hzero := weigh_eq_zero.mp h msg (List.mem_flatMap.mpr ⟨e, he, hserved⟩)
  simp [bears_eq hsender] at hzero

/-- An ask that has returned has returned for good, and what was sent has been sent. -/
theorem Move.keeps {act : Action T V} (move : Move sender s act s') :
    (∀ r, s.asks[k]?.map Ask.point = some (.finished r) →
      s'.asks[k]?.map Ask.point = some (.finished r)) ∧ s.replies <+: s'.replies := by
  have update : ∀ {j : ReplyTo} {b b' : Ask C V}, s.asks[j]? = some b →
      (∀ r, b.point = .finished r → b'.point = .finished r) →
      ∀ r, s.asks[k]?.map Ask.point = some (.finished r) →
        (s.asks.set j b')[k]?.map Ask.point = some (.finished r) := by
    intro j b b' hb hpoint r hr
    by_cases hj : j = k
    · subst hj
      rw [hb, Option.map_some, Option.some_inj] at hr
      rw [List.getElem?_set_self (List.getElem?_eq_some_iff.mp hb).1, Option.map_some, hpoint r hr]
    · rwa [List.getElem?_set_ne hj]
  cases move with
  | ask _ _ =>
    refine ⟨fun r hr => ?_, List.prefix_refl _⟩
    obtain ⟨a, ha, -⟩ := Option.map_eq_some_iff.mp hr
    rwa [List.getElem?_append_left (List.getElem?_eq_some_iff.mp ha).1]
  | own hb hstep => exact ⟨update hb fun r hr => absurd hr (hstep.unfinished r), List.prefix_refl _⟩
  | @reply _ b v hb _ =>
    refine ⟨update hb fun r hr => hr, ?_⟩
    change s.replies <+: if listening b.channel then s.replies ++ [_] else s.replies
    split
    · exact List.prefix_append _ _
    · exact List.prefix_refl _
  | noReply | discard _ => exact ⟨fun _ => id, List.prefix_refl _⟩
  | node hnode =>
    obtain ⟨-, events, -, -, -, -, hasks, hreplies⟩ := nodeStep_some hnode
    refine ⟨fun r hr => ?_, hreplies ▸ List.prefix_refl _⟩
    obtain ⟨a, ha, hpoint⟩ := Option.map_eq_some_iff.mp hr
    rw [hasks, List.getElem?_mapIdx, ha, Option.map_some, Option.map_some,
      Ask.notes_settled (by simp [hpoint]), hpoint]

theorem exec_keeps {as : List (Action T V)}
    (h : (machine (C := C) (V := V) sender path option parent).exec s as = some s') :
    (∀ r, s.asks[k]?.map Ask.point = some (.finished r) →
      s'.asks[k]?.map Ask.point = some (.finished r)) ∧ s.replies <+: s'.replies := by
  induction as generalizing s with
  | nil =>
    cases h
    exact ⟨fun _ => id, List.prefix_refl _⟩
  | cons act as ih =>
    obtain ⟨t, hstep, hrest⟩ := Option.bind_eq_some_iff.mp h
    obtain ⟨s₁, move, rfl⟩ := step_move hstep
    obtain ⟨hpoint, hreplies⟩ := move.keeps (k := k)
    obtain ⟨hpoint', hreplies'⟩ := ih hrest
    refine ⟨fun r hr => hpoint' r ?_, hreplies.trans hreplies'⟩
    rw [collect_get, Option.map_map]
    rw [← hpoint r hr]
    congr 1
    funext a
    simp only [Function.comp]
    split <;> rfl

/-- What an ask that has its reply keeps in its own steps, it keeps in all. -/
theorem step_replied {Q : Ask C V → Prop} {v : V} {act : Action T V}
    (hsent : ∀ b, Q b → fate b.channel = .sent v)
    (hown : ∀ {now b b'}, Ask.Step now b b' → Q b → Q b') (hsound : Sound sender s)
    (hstep : s.step sender act = some s') (h : ∃ b, s.asks[k]? = some b ∧ Q b) :
    ∃ b, s'.asks[k]? = some b ∧ Q b := by
  obtain ⟨b, hb, hq⟩ := h
  obtain ⟨s₁, move, rfl⟩ := step_move hstep
  have hspent : fate b.channel ≠ .alive := by simp [hsent b hq]
  have hmoved : ∃ b, s₁.asks[k]? = some b ∧ Q b := by
    cases move with
    | ask _ _ =>
      exact ⟨b, by rwa [List.getElem?_append_left (List.getElem?_eq_some_iff.mp hb).1], hq⟩
    | @own _ j a a' ha hf =>
      by_cases hj : j = k
      · subst hj
        obtain rfl := Option.some.inj (ha.symm.trans hb)
        exact ⟨a', List.getElem?_set_self (List.getElem?_eq_some_iff.mp hb).1, hown hf hq⟩
      · exact ⟨b, by rwa [List.getElem?_set_ne hj], hq⟩
    | @reply j a v' ha hheld =>
      by_cases hj : j = k
      · subst hj
        have hzero := hsound.linear.gone hb hspent
        have hpos := share_pos.mpr (.inl hheld : _ ∨ j ∈ s.node.contents.filterMap sender)
        omega
      · exact ⟨b, by rwa [List.getElem?_set_ne hj], hq⟩
    | noReply | discard _ => exact ⟨b, hb, hq⟩
    | node hnode =>
      obtain ⟨-, events, -, -, -, -, hasks, -⟩ := nodeStep_some hnode
      have hpushed : b.point ≠ .telling := fun ht => hspent (hsound.alive hb ht)
      refine ⟨b, ?_, hq⟩
      rw [hasks, List.getElem?_mapIdx, hb, Option.map_some, Ask.notes_settled hpushed]
  obtain ⟨b', hb', hq'⟩ := hmoved
  refine ⟨b', ?_, hq'⟩
  rw [collect_get, hb', Option.map_some, OneshotChannel.dropSender_spent (by simp [hsent b' hq']),
    ite_self]

theorem exec_replied {Q : Ask C V → Prop} {v : V} (hsent : ∀ b, Q b → fate b.channel = .sent v)
    (hown : ∀ {now b b'}, Ask.Step now b b' → Q b → Q b')
    (hr : (machine (C := C) (V := V) sender path option parent).Reachable s)
    {as : List (Action T V)} (hexec : (machine sender path option parent).exec s as = some s')
    (h : ∃ b, s.asks[k]? = some b ∧ Q b) : ∃ b, s'.asks[k]? = some b ∧ Q b := by
  induction as generalizing s with
  | nil =>
    cases hexec
    exact h
  | cons act as ih =>
    obtain ⟨t, hstep, hrest⟩ := Option.bind_eq_some_iff.mp hexec
    exact ih (.step hr trivial hstep) hrest
      (step_replied hsent hown (reachable_sound hr) hstep h)

/-- A reply that could be sent is in the channel. -/
theorem reply_sent {v : V} (hreply : (s.replyTo k v).2 = .ok ())
    (hstep : s.step sender (.reply k v) = some s') :
    ∃ a b, s.asks[k]? = some a ∧ listening a.channel = true ∧ s'.asks[k]? = some b ∧
      b.point = a.point ∧ fate b.channel = .sent v := by
  obtain ⟨s₁, hmove, rfl⟩ := Option.map_eq_some_iff.mp hstep
  simp only [move, Option.some.injEq] at hmove
  subst hmove
  unfold replyTo at hreply ⊢
  cases ha : s.asks[k]? with
  | none => simp [ha] at hreply
  | some a =>
    simp only [ha] at hreply ⊢
    by_cases hheld : k ∈ s.held
    · simp only [if_pos hheld] at hreply ⊢
      have hlistening : listening a.channel = true := by
        by_contra hne
        obtain ⟨-, -, hlost⟩ := OneshotChannel.send_lost (v := v) (by simpa using hne)
        cases hlost.symm.trans hreply
      obtain ⟨hsent, -, -⟩ := OneshotChannel.send_heard (v := v) hlistening
      refine ⟨a, { a with channel := (OneshotChannel.send a.channel v).1 }, rfl, hlistening, ?_,
        rfl, hsent⟩
      rw [collect_get, List.getElem?_set_self (List.getElem?_eq_some_iff.mp ha).1, Option.map_some,
        OneshotChannel.dropSender_spent (by simp [hsent]), ite_self]
    · simp [if_neg hheld] at hreply

theorem exec_queue {as : List (Action T V)}
    (h : (machine (C := C) (V := V) sender path option parent).exec s as = some s')
    (hclosed : s.node.mbox.terminated = true) :
    s'.node.mbox.terminated = true ∧
      s.node.mbox.messageQueue.items <+: s'.node.mbox.messageQueue.items := by
  induction as generalizing s with
  | nil =>
    cases h
    exact ⟨hclosed, List.prefix_refl _⟩
  | cons act as ih =>
    obtain ⟨t, hstep, hrest⟩ := Option.bind_eq_some_iff.mp h
    obtain ⟨s₁, move, rfl⟩ := step_move hstep
    have hone : s₁.node.mbox.terminated = true ∧
        s.node.mbox.messageQueue.items <+: s₁.node.mbox.messageQueue.items := by
      cases move with
      | ask _ hnode => exact (Node.step_move hnode).queue_closed hclosed
      | node hnode =>
        obtain ⟨-, -, -, hstep, -⟩ := nodeStep_some hnode
        exact (Node.step_move hstep).queue_closed hclosed
      | _ => exact ⟨hclosed, List.prefix_refl _⟩
    obtain ⟨hclosed', hqueue⟩ := ih hrest hone.1
    exact ⟨hclosed', hone.2.trans hqueue⟩

theorem Sound.gone (h : Sound sender s) (ha : s.asks[k]? = some a)
    (hgone : fate a.channel ≠ .alive) : weigh (bears sender k) s.node.queued = 0 := by
  have hzero := h.linear.gone ha hgone
  have hqueued := Node.queued_le (w := bears sender k) s.node
  simp only [share, Node.contents, weigh_append] at hzero
  omega

/-- A result that came over the channel: a handler had the message. -/
theorem Sound.received (h : Sound sender s) (ha : s.asks[k]? = some a)
    (hgone : fate a.channel ≠ .alive) {r : Except ActorError V} (hr : a.point = .finished r)
    (hnot : ∀ text, r ≠ .error (.sendError text)) :
    ∃ e ∈ s.node.mbox.log, ∃ msg ∈ e.served, sender msg = some k := by
  have hqueued := h.gone ha hgone
  rcases (h.tracked k a ha).pushed (by simp [hr]) (fun text hf => hnot text (by simpa [hr] using hf))
    with hserved | hpos
  · exact served_pos hserved
  · omega

/-! A run of five asks: one is answered, the sender of one is dropped, the message of one is
stashed until the actor is closed, one is left in the queue, and one is refused. -/

instance : Tokio (Oneshot.Channel Nat) Nat where
  elapsed began d now := began + d ≤ now

abbrev SampleAsking : Type := Asking Nat (Oneshot.Channel Nat) Nat

abbrev sample : Machine SampleAsking (Action Nat Nat) :=
  machine some ⟨["user", "a"]⟩ {} .guard

def steps (as : List (Ruactor.Action Nat)) : List (Action Nat Nat) := as.map .node

def askSteps (k : Nat) : List (Action Nat Nat) :=
  .ask k 5 :: steps [.client 0, .client 0, .client 0] ++ [.timeout k]

def servingRun : List (Action Nat Nat) :=
  askSteps 0 ++
    steps (Node.callbacks [⟨.create, [], false⟩, ⟨.onEnter, [], false⟩] ++ Node.turns 3 ++
      Node.callbacks [⟨.onMessage, [], false⟩])

def answeringRun : List (Action Nat Nat) :=
  [.reply 0 42, .reply 0 43, .node (.tick 9), .poll 0]

def restingRun : List (Action Nat Nat) :=
  servingRun ++ answeringRun ++ askSteps 1 ++
    steps (Node.turns 4 ++ Node.callbacks [⟨.onMessage, [], false⟩]) ++ [.discard 1, .poll 1] ++
    askSteps 2 ++
    steps (Node.turns 4 ++ Node.callbacks [⟨.onMessage, [.stash 2], false⟩] ++ Node.turns 7)

def closingRun : List (Action Nat Nat) :=
  askSteps 3 ++ steps (Node.stopping ++ Node.turns 5 ++
    Node.callbacks [⟨.onExit, [], false⟩] ++ Node.turns 6)

def lateRun : List (Action Nat Nat) :=
  [.ask 4 5, .node (.client 0), .node (.tick 9), .poll 2, .poll 3, .pollDelay 3, .expire 3]

def servingAsking : SampleAsking :=
  (sample.exec sample.start servingRun).get (by decide +kernel)

def answeredAsking : SampleAsking :=
  (sample.exec servingAsking answeringRun).get (by decide +kernel)

def restingAsking : SampleAsking :=
  (sample.exec sample.start restingRun).get (by decide +kernel)

def closedAsking : SampleAsking :=
  (sample.exec restingAsking closingRun).get (by decide +kernel)

def lateAsking : SampleAsking := (sample.exec closedAsking lateRun).get (by decide +kernel)

theorem servingAsking_run : sample.exec sample.start servingRun = some servingAsking :=
  (Option.some_get _).symm

theorem answeredAsking_run : sample.exec servingAsking answeringRun = some answeredAsking :=
  (Option.some_get _).symm

theorem restingAsking_run : sample.exec sample.start restingRun = some restingAsking :=
  (Option.some_get _).symm

theorem closedAsking_run : sample.exec restingAsking closingRun = some closedAsking :=
  (Option.some_get _).symm

theorem lateAsking_run : sample.exec closedAsking lateRun = some lateAsking :=
  (Option.some_get _).symm

theorem closedAsking_reachable : sample.Reachable closedAsking :=
  Reach.exec_reachable (Reach.exec_reachable .start restingAsking_run) closedAsking_run

theorem lateAsking_reachable : sample.Reachable lateAsking :=
  Reach.exec_reachable closedAsking_reachable lateAsking_run

/-- A sender has one owner while it is alive, and none when it is not: neither restarts nor
stashing nor a forwarded message copies it, and a step that loses it drops it. -/
theorem sender_owned (h : (machine (C := C) (V := V) sender path option parent).Reachable s) :
    (s.places sender).Nodup ∧
      ∀ k, k ∈ s.places sender ↔ ∃ a, s.asks[k]? = some a ∧ fate a.channel = .alive := by
  have hlin := reachable_linear h
  refine ⟨List.nodup_iff_count_le_one.mpr fun k => ?_, fun k => ⟨fun hk => ?_, ?_⟩⟩
  · rw [count_places]
    exact hlin.once k
  · exact hlin.alive k (mem_places.mp hk)
  · rintro ⟨a, ha, halive⟩
    exact reachable_owned h k a ha halive

theorem sender_owned_resting : restingAsking.places some = [2] ∧
    (restingAsking.places some).Nodup :=
  ⟨by decide +kernel, (sender_owned (Reach.exec_reachable .start restingAsking_run)).1⟩

/-- An ask that fails with `SendError` was never heard, and never will be. -/
theorem ask_refused (h : (machine (C := C) (V := V) sender path option parent).Reachable s)
    (ha : s.asks[k]? = some a) {text : String}
    (hr : a.point = .finished (.error (.sendError text))) {as : List (Action T V)}
    (hexec : (machine sender path option parent).exec s as = some s') :
    text = "actor " ++ s.node.mbox.path.toString ++ " mailbox full" ∧
      ∀ e ∈ s'.node.mbox.log, ∀ msg ∈ e.served, sender msg ≠ some k := by
  have hfinal := (exec_keeps (k := k) hexec).1 _ (by rw [ha, Option.map_some, hr])
  obtain ⟨a', ha', hr'⟩ := Option.map_eq_some_iff.mp hfinal
  obtain ⟨htext, -⟩ := ((reachable_sound h).tracked k a ha).refused text hr
  obtain ⟨-, -, hserved⟩ :=
    ((reachable_sound (h.exec_reachable hexec)).tracked k a' ha').refused text hr'
  exact ⟨htext, served_zero hserved⟩

theorem ask_refused_late : ∃ a, lateAsking.asks[4]? = some a ∧
    a.point = .finished (.error (.sendError "actor /user/a mailbox full")) ∧
      ∀ e ∈ lateAsking.node.mbox.log, ∀ msg ∈ e.served, some msg ≠ some 4 := by
  have hlate : lateAsking.asks[4]? = some ⟨5, .finished (.error (.sendError
      "actor /user/a mailbox full")), ⟨.dropped, false⟩⟩ := by decide +kernel
  have hstay : sample.exec lateAsking [] = some lateAsking := rfl
  exact ⟨_, hlate, rfl, (ask_refused lateAsking_reachable hlate rfl hstay).2⟩

/-- An ask that returns a value returns the one reply to it, given by a program that had the
message. -/
theorem ask_answered (h : (machine (C := C) (V := V) sender path option parent).Reachable s)
    (ha : s.asks[k]? = some a) {v : V} (hr : a.point = .finished (.ok v)) :
    answers s.replies k = [v] ∧ ∃ e ∈ s.node.mbox.log, ∃ msg ∈ e.served, sender msg = some k := by
  have hsound := reachable_sound h
  have hsent := (hsound.settled k a ha).ok v hr
  exact ⟨((hsound.settled k a ha).sent v hsent).1,
    hsound.received ha (by simp [hsent]) hr (by simp)⟩

theorem ask_answered_resting : answers restingAsking.replies 0 = [42] := by
  have hask : restingAsking.asks[0]? = some ⟨5, .finished (.ok 42), ⟨.sent 42, false⟩⟩ := by
    decide +kernel
  exact (ask_answered (Reach.exec_reachable .start restingAsking_run) hask rfl).1

/-- `RecvError` says that a program had the message and did not reply. It is never the mailbox
that drops a message before a handler has seen it. -/
theorem ask_disconnected (h : (machine (C := C) (V := V) sender path option parent).Reachable s)
    (ha : s.asks[k]? = some a) {err : Oneshot.RecvError}
    (hr : a.point = .finished (.error (.recvError err))) :
    answers s.replies k = [] ∧ ∃ e ∈ s.node.mbox.log, ∃ msg ∈ e.served, sender msg = some k := by
  have hsound := reachable_sound h
  have hdropped := (hsound.settled k a ha).closed err hr
  exact ⟨(hsound.settled k a ha).silent (by simp [hdropped]),
    hsound.received ha (by simp [hdropped]) hr (by simp)⟩

theorem ask_disconnected_late : answers lateAsking.replies 2 = [] ∧
    ∃ e ∈ lateAsking.node.mbox.log, ∃ msg ∈ e.served, some msg = some 2 := by
  have hask : lateAsking.asks[2]? =
      some ⟨5, .finished (.error (.recvError .closed)), ⟨.dropped, false⟩⟩ := by decide +kernel
  exact ask_disconnected lateAsking_reachable hask rfl

/-- A reply that `reply_to!` could send is what the ask returns, whenever it looks: however late
that is, nothing that happens in between can take the reply away. A poll that was under way when
the reply came may return `TimeoutError` instead. -/
theorem reply_received (h : (machine (C := C) (V := V) sender path option parent).Reachable s)
    {v : V} (hreply : (s.replyTo k v).2 = .ok ()) {as : List (Action T V)}
    (hexec : (machine sender path option parent).exec s (.reply k v :: as) = some s') :
    ∃ a a', s.asks[k]? = some a ∧ s'.asks[k]? = some a' ∧
      (∀ r, a'.point = .finished r → r = .ok v ∨ a.Polling ∧ r = .error .timeoutError) ∧
      ∀ began, a'.point = .receiving began → ∃ s'' a'',
        s'.step sender (.poll k) = some s'' ∧ s''.asks[k]? = some a'' ∧
          a''.point = .finished (.ok v) := by
  obtain ⟨t, hstep, hrest⟩ := Option.bind_eq_some_iff.mp hexec
  have ht := Reach.step h trivial hstep
  have hsound := reachable_sound (ht.exec_reachable hrest)
  obtain ⟨a, b, ha, hlistening, hb, hpoint, hsent⟩ := reply_sent hreply hstep
  obtain ⟨a', ha', hsent'⟩ := exec_replied (Q := fun b => fate b.channel = .sent v)
    (fun _ => id) (fun hown hq => hown.fate_eq.trans hq) ht hrest ⟨b, hb, hsent⟩
  refine ⟨a, a', ha, ha', fun r hr => ?_, fun began hpoint' => ?_⟩
  · by_cases hpolling : a.Polling
    · exact (((hsound.settled k a' ha').sent v hsent').2 r hr).imp_right fun htimeout =>
        ⟨hpolling, htimeout⟩
    · have hopen : ∀ r, a.point ≠ .finished r := fun r hr => by
        simp [((reachable_sound h).settled k a ha).receiver r hr] at hlistening
      have hsecured : b.Secured v :=
        ⟨hsent, by rwa [Ask.Polling, hpoint], fun r hr => absurd (hpoint ▸ hr) (hopen r)⟩
      obtain ⟨a'', ha'', hsecured'⟩ := exec_replied (fun _ hq => hq.sent)
        (fun hown hq => hown.secured hq) ht hrest ⟨b, hb, hsecured⟩
      obtain rfl := Option.some.inj (ha'.symm.trans ha'')
      exact .inl (hsecured'.result r hr)
  let polled : Ask C V :=
    { a' with
      point := .finished (.ok v)
      channel := OneshotChannel.dropReceiver a'.channel }
  have hpoll : a'.poll = some polled := by
    simp [polled, Ask.poll, hpoint', OneshotChannel.poll_sent hsent', Except.mapError]
  have hmove : s'.move sender (.poll k) = some { s' with asks := s'.asks.set k polled } := by
    simp [move, Asking.askStep, ha', hpoll]
  have hlt := (List.getElem?_eq_some_iff.mp ha').1
  refine ⟨_, _, by rw [step, hmove, Option.map_some],
    by rw [collect_get, List.getElem?_set_self hlt, Option.map_some], ?_⟩
  split <;> rfl

theorem reply_received_answered : ∃ a, answeredAsking.asks[0]? = some a ∧
    a.point = .finished (.ok 42) ∧ ∀ r, a.point = .finished r → r = .ok 42 := by
  have hserving : servingAsking.asks[0]? = some ⟨5, .receiving 0, {}⟩ := by decide +kernel
  have hask : answeredAsking.asks[0]? = some ⟨5, .finished (.ok 42), ⟨.sent 42, false⟩⟩ := by
    decide +kernel
  obtain ⟨_, a, hbefore, ha, hresult, -⟩ := reply_received
    (Reach.exec_reachable .start servingAsking_run) (by decide +kernel) answeredAsking_run
  obtain rfl := Option.some.inj (hserving.symm.trans hbefore)
  obtain rfl := Option.some.inj (hask.symm.trans ha)
  exact ⟨_, hask, rfl, fun r hr => (hresult r hr).resolve_right fun h => h.1⟩

/-- A message that a closed actor has in its queue stays there, and the sender with it. Its ask
neither gets a reply nor learns that there will be none: it can only time out. -/
theorem ask_left (h : (machine (C := C) (V := V) sender path option parent).Reachable s)
    (hclosed : s.node.mbox.terminated = true) (hk : k ∈ s.queuedSenders sender)
    {as : List (Action T V)} (hexec : (machine sender path option parent).exec s as = some s')
    (ha : s'.asks[k]? = some a) {r : Except ActorError V} (hr : a.point = .finished r) :
    r = .error .timeoutError := by
  have hsound := reachable_sound (h.exec_reachable hexec)
  have hplace : k ∈ s'.places sender := by
    refine queuedSenders_places ?_
    obtain ⟨msg, hmsg, hsender⟩ := List.mem_filterMap.mp hk
    obtain ⟨item, hitem, hcontents⟩ := List.mem_flatMap.mp hmsg
    exact List.mem_filterMap.mpr ⟨msg, List.mem_flatMap.mpr
      ⟨item, (exec_queue hexec hclosed).2.subset hitem, hcontents⟩, hsender⟩
  have hpos := mem_places.mp hplace
  have halive : fate a.channel = .alive := by
    by_contra hgone
    have hzero := hsound.linear.gone ha hgone
    omega
  cases r with
  | ok v => simp [(hsound.settled k a ha).ok v hr] at halive
  | error err =>
    cases err with
    | timeoutError => rfl
    | recvError err => simp [(hsound.settled k a ha).closed err hr] at halive
    | sendError text =>
      obtain ⟨-, hzero, -⟩ := (hsound.tracked k a ha).refused text hr
      omega

theorem ask_left_late : ∃ a, lateAsking.asks[3]? = some a ∧
    ∀ r, a.point = .finished r → r = .error .timeoutError := by
  have hask : ∃ a, lateAsking.asks[3]? = some a := ⟨_, List.getElem?_eq_getElem (by decide +kernel)⟩
  obtain ⟨a, ha⟩ := hask
  exact ⟨a, ha, fun r hr => ask_left closedAsking_reachable (by decide +kernel) (by decide +kernel)
    lateAsking_run ha hr⟩

/-- When all tasks and callers of a living actor have come to rest, an ask that still waits
waits for a program: its sender is in the hands of one, or was stashed by the actor. -/
theorem ask_rests
    (h : (machine (C := C) (V := V) sender path option parent).Reach (within Node.returning) s)
    (hquiet : s.node.Quiescent) (hnobody : s.node.clients = [])
    (hopen : s.node.mbox.terminated = false) (ha : s.asks[k]? = some a)
    (hwaits : OneshotChannel.poll a.channel = none) :
    k ∈ s.held ∨
      k ∈ (s.node.mbox.dispatcher.context.getD .new).contents.filterMap sender := by
  have halive : fate a.channel = .alive := OneshotChannel.poll_none hwaits
  have hqueue := (Node.reach_covered (reach_node (fun _ _ => rfl) h)).user_nil hquiet hopen
  have hplace := reachable_owned h.reachable k a ha halive
  rcases List.mem_append.mp hplace with hheld | hmem
  · exact .inl hheld
  · refine .inr ?_
    simpa [Node.contents, Mailbox.contents, hnobody, hquiet.1, hqueue] using hmem

theorem ask_rests_resting : restingAsking.held = [] ∧
    2 ∈ (restingAsking.node.mbox.dispatcher.context.getD .new).contents.filterMap some := by
  have hheld : restingAsking.held = [] := by decide +kernel
  have hask : restingAsking.asks[2]? = some ⟨5, .receiving 9, {}⟩ := by decide +kernel
  have hrests := ask_rests (Reach.exec .start (by decide +kernel) restingAsking_run)
    (by decide +kernel) (by decide +kernel) (by decide +kernel) hask rfl
  exact ⟨hheld, hrests.resolve_left (by simp [hheld])⟩

end Asking

end Ruactor
