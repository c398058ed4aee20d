import Ruactor.Senders

/-!
# What an ask returns

An ask whose push was refused fails at once, and no handler sees its message. Any other one
returns the reply if there was one. Without a reply it fails when the sender is dropped, which
only a program does that was given the message, or else when its time is over.
-/

namespace Ruactor

open Machine Weight

open OneshotChannel (fate listening)

variable {T C V : Type} {sender : T → Option ReplyTo} {path : ActorPath} {option : PropsOption}
  {parent : ParentRef}

/-- What was sent over the channel `k`. -/
def answers (replies : List (ReplyTo × V)) (k : ReplyTo) : List V :=
  replies.filterMap fun r => if r.1 = k then some r.2 else none

@[simp] theorem answers_append (replies replies' : List (ReplyTo × V)) (k : ReplyTo) :
    answers (replies ++ replies') k = answers replies k ++ answers replies' k :=
  List.filterMap_append

namespace Ask

/-- Where the message of the ask `k` is, by the point of the ask. -/
structure Tracked (sender : T → Option ReplyTo) (s : Asking T C V) (k : ReplyTo) (a : Ask C V) :
    Prop where
  telling : a.point = .telling → 0 < weigh (bears sender k) s.node.unpushed ∧
    weigh (bears sender k) (served s.node.mbox.log) = 0
  refused : ∀ text, a.point = .finished (.error (.sendError text)) →
    text = "actor " ++ s.node.mbox.path.toString ++ " mailbox full" ∧ s.share sender k = 0 ∧
      weigh (bears sender k) (served s.node.mbox.log) = 0
  pushed : a.point ≠ .telling → (∀ text, a.point ≠ .finished (.error (.sendError text))) →
    0 < weigh (bears sender k) (served s.node.mbox.log) ∨
      0 < weigh (bears sender k) s.node.queued

/-- What the channel `k` has been used for, by the point of the ask. -/
structure Settled [Tokio C V] (replies : List (ReplyTo × V)) (k : ReplyTo) (a : Ask C V) :
    Prop where
  silent : (∀ v, fate a.channel ≠ .sent v) → answers replies k = []
  sent : ∀ v, fate a.channel = .sent v → answers replies k = [v] ∧
    ∀ r, a.point = .finished r → r = .ok v ∨ r = .error .timeoutError
  ok : ∀ v, a.point = .finished (.ok v) → fate a.channel = .sent v
  closed : ∀ e, a.point = .finished (.error (.recvError e)) → fate a.channel = .dropped
  receiver : ∀ r, a.point = .finished r → listening a.channel = false

variable {s s' : Asking T C V} {k : ReplyTo} {a a' : Ask C V}

/-- The mailbox stands still. -/
theorem Tracked.still (h : Tracked sender s k a) (hnode : s'.node = s.node)
    (hheld : s'.share sender k ≤ s.share sender k) (hpoint : a'.point = a.point) :
    Tracked sender s' k a' where
  telling ht := by
    rw [hnode]
    exact h.telling (hpoint ▸ ht)
  refused text ht := by
    obtain ⟨htext, hshare, hserved⟩ := h.refused text (hpoint ▸ ht)
    rw [hnode]
    exact ⟨htext, by omega, hserved⟩
  pushed hne hne' := by
    rw [hnode]
    exact h.pushed (hpoint ▸ hne) fun text => hpoint ▸ hne' text

/-- The message was pushed before, and the ask goes on. -/
theorem Tracked.goesOn (h : Tracked sender s k a) (hnode : s'.node = s.node)
    (hne : a.point ≠ .telling) (hne' : ∀ text, a.point ≠ .finished (.error (.sendError text)))
    (ht : a'.point ≠ .telling) (ht' : ∀ text, a'.point ≠ .finished (.error (.sendError text))) :
    Tracked sender s' k a' where
  telling h := absurd h ht
  refused text h := absurd h (ht' text)
  pushed _ _ := by
    rw [hnode]
    exact h.pushed hne hne'

section Step

variable {act : Ruactor.Action T} {events : List (Event T)}

/-- The senders of one channel in the hands of callers and of the task, and in the queue. -/
theorem shares (s : Asking T C V) (k : ReplyTo) :
    weigh (bears sender k) s.node.unpushed +
        weigh (bears sender k) (s.node.tasks.flatMap Task.contents) ≤ s.share sender k := by
  have hunpushed := Node.unpushed_le (w := bears sender k) s.node
  simp only [Asking.share, Node.contents, weigh_append]
  omega

/-- A step of the mailbox, for an ask whose message was pushed. -/
theorem Tracked.served (h : Tracked sender s k a)
    (hr : (Node.machine path option parent).Reachable s.node)
    (hstep : s.node.step act = some s'.node)
    (hlog : s'.node.mbox.log = s.node.mbox.log ++ events) (hne : a.point ≠ .telling)
    (hne' : ∀ text, a.point ≠ .finished (.error (.sendError text))) :
    Tracked sender s' k a where
  telling h := absurd h hne
  refused text h := absurd h (hne' text)
  pushed _ _ := by
    have hqueued := Node.step_queued (w := bears sender k) hr hstep hlog
    have hold := h.pushed hne hne'
    rw [hlog, served_append, weigh_append]
    omega

variable [Tokio C V]

/-- The caller of `ask!` has pushed the message before it waits. -/
theorem Tracked.own {now : Instant} (h : Tracked sender s k a) (hstep : a.Step now a')
    (hnode : s'.node = s.node) : Tracked sender s' k a' := by
  cases hstep with
  | @ready began result hpoint _ =>
    refine h.goesOn hnode (by simp [hpoint]) (by simp [hpoint]) (by simp) fun text => ?_
    cases result <;> simp [Except.mapError]
  | timeout hpoint | pending hpoint _ | elapse hpoint | again hpoint | expire hpoint
  | abandon hpoint =>
    exact h.goesOn hnode (by simp [hpoint]) (by simp [hpoint]) (by simp) (by simp)

/-- The caller of a refused push drops the message. -/
theorem refused_share (hr : (Node.machine path option parent).Reachable s.node)
    (hlin : s.Linear sender) (h : s.nodeStep sender act = some s') (ha : s.asks[k]? = some a)
    (ht : a.point = .telling) {msg : T}
    (hlog : s'.node.mbox.log = s.node.mbox.log ++ [.rejected (.user msg)])
    (hsender : sender msg = some k) : s'.share sender k = 0 := by
  obtain ⟨given, events', hgiven, hnode, hlog', hheld, -⟩ := Asking.nodeStep_some h
  obtain rfl := List.append_cancel_left (hlog.symm.trans hlog')
  have hcontents := (Node.step_contents (w := bears sender k) hr hnode hlog).1
  have hgives := Asking.gives_count hgiven k
  have hhands := Asking.handed_count hheld k
  have honce := hlin.once k
  have htelling : ((s.asks[k]?.map isTelling).getD false) = true := by
    simp [ha, isTelling, ht]
  have hbears := bears_eq hsender
  simp only [htelling, if_true, served_cons, refused_cons, incoming_cons, Event.served,
    Event.refused, Event.incoming, Message.contents, weigh_append, weigh_cons, weigh_nil,
    served_nil, refused_nil, incoming_nil, Asking.share] at hcontents hhands honce ⊢
  omega

theorem Tracked.step (h : Tracked sender s k a)
    (hr : (Node.machine path option parent).Reachable s.node) (hlin : s.Linear sender)
    (hstep : s.node.step act = some s'.node)
    (hlog : s'.node.mbox.log = s.node.mbox.log ++ events)
    (hshare : s'.share sender k ≤ s.share sender k)
    (hrefused : a.point = .telling → ∀ msg, events = [.rejected (.user msg)] →
      sender msg = some k → s'.share sender k = 0) :
    Tracked sender s' k (events.foldl (note sender
      ("actor " ++ s.node.mbox.path.toString ++ " mailbox full") k) a) := by
  have hpath : s'.node.mbox.path = s.node.mbox.path := (Node.step_move hstep).path
  have hhand := (Node.step_contents (w := bears sender k) hr hstep hlog).2
  have hshares : _ ≤ s.share sender k := shares s k
  by_cases ht : a.point = .telling
  · obtain ⟨hunpushed, hserved⟩ := h.telling ht
    have honce := hlin.once k
    -- the message is with its caller, so no task has it
    have hnone : weigh (bears sender k) (Ruactor.served events) = 0 := by omega
    have hserved' : weigh (bears sender k) (Ruactor.served s'.node.mbox.log) = 0 := by
      rw [hlog, served_append, weigh_append, hserved, hnone]
    have hleft := Node.step_unpushed (w := bears sender k) hstep hlog
    have stays : weigh (bears sender k) (pushes events) = 0 →
        weigh (bears sender k) (bounced events) = 0 → Tracked sender s' k a := fun hp hb =>
      ⟨fun _ => ⟨by omega, hserved'⟩, fun text hf => by simp [ht] at hf,
        fun hne => absurd ht hne⟩
    rcases Node.step_sent hr hstep hlog with ⟨e, rfl, he⟩ | hunsent
    · have other : ∀ msg, (e = .pushed (.user msg) ∨ e = .rejected (.user msg)) →
          sender msg ≠ some k → Tracked sender s' k a := by
        rintro msg hmsg hsender
        have hbears := bears_zero hsender
        rcases hmsg with rfl | rfl <;>
          exact stays (by simp [pushes, hbears]) (by simp [bounced, hbears])
      rw [List.foldl_cons, List.foldl_nil]
      cases e with
      | pushed msg =>
        cases msg with
        | user msg =>
          by_cases hsender : sender msg = some k
          · have hqueued := Node.step_queued (w := bears sender k) hr hstep hlog
            have hbears := bears_eq hsender
            simp only [pushes, List.filterMap_cons, List.filterMap_nil, weigh_cons,
              weigh_nil] at hqueued
            simp only [note, ht, hsender, if_true]
            exact ⟨fun hf => (by cases hf), fun _ hf => (by cases hf), fun _ _ => .inr (by omega)⟩
          · simpa [note, ht, hsender] using other msg (.inl rfl) hsender
        | _ => exact stays (by simp [pushes]) (by simp [bounced])
      | rejected msg =>
        cases msg with
        | user msg =>
          by_cases hsender : sender msg = some k
          · simp only [note, ht, hsender, if_true]
            refine ⟨fun hf => (by cases hf), fun text hf => ?_, fun _ hne => absurd rfl (hne _)⟩
            cases hf
            exact ⟨by rw [hpath], hrefused ht msg rfl hsender, hserved'⟩
          · simpa [note, ht, hsender] using other msg (.inr rfl) hsender
        | _ => exact stays (by simp [pushes]) (by simp [bounced])
      | pushedInternal msg => exact stays (by simp [pushes]) (by simp [bounced])
      | _ => cases he
    · have hpushes : pushes events = [] := Mailbox.pushes_unsent hunsent
      have hbounced : bounced events = [] := by
        refine List.filterMap_eq_nil_iff.mpr fun e he => ?_
        have hsent := hunsent e he
        cases e <;> first | rfl | cases hsent
      rw [notes_unsent hunsent]
      exact stays (by simp [hpushes]) (by simp [hbounced])
  · rw [notes_settled ht]
    by_cases hfull : ∃ text, a.point = .finished (.error (.sendError text))
    · obtain ⟨text, hf⟩ := hfull
      obtain ⟨htext, hzero, hserved⟩ := h.refused text hf
      refine ⟨fun h => absurd h ht, fun text' hf' => ?_, fun _ hne => absurd hf (hne text)⟩
      obtain rfl : text' = text := by
        rw [hf] at hf'
        cases hf'
        rfl
      refine ⟨by rw [hpath, htext], by omega, ?_⟩
      rw [hlog, served_append, weigh_append]
      omega
    · exact h.served hr hstep hlog ht fun text hf => hfull ⟨text, hf⟩

end Step

section Channel

variable [Tokio C V] {replies : List (ReplyTo × V)} {full : String}

theorem notes_cases (events : List (Event T)) (a : Ask C V) :
    events.foldl (note sender full k) a = a ∨ a.point = .telling ∧
      (events.foldl (note sender full k) a = { a with point := .told } ∨
        events.foldl (note sender full k) a =
          { a with
            point := .finished (.error (.sendError full))
            channel := OneshotChannel.dropReceiver a.channel }) := by
  by_cases ht : a.point = .telling
  · induction events with
    | nil => exact .inl rfl
    | cons e events ih =>
      rw [List.foldl_cons]
      have one : note sender full k a e = a ∨ note sender full k a e = { a with point := .told } ∨
          note sender full k a e =
            { a with
              point := .finished (.error (.sendError full))
              channel := OneshotChannel.dropReceiver a.channel } := by
        unfold note
        split
        · split
          · split
            · exact .inr (.inl rfl)
            · exact .inl rfl
          · exact .inl rfl
        · split
          · split
            · exact .inr (.inr rfl)
            · exact .inl rfl
          · exact .inl rfl
        · exact .inl rfl
      rcases one with hsame | htold | hfull
      · rw [hsame]
        exact ih
      · rw [htold, notes_settled (by simp)]
        exact .inr ⟨ht, .inl rfl⟩
      · rw [hfull, notes_settled (by simp)]
        exact .inr ⟨ht, .inr rfl⟩
  · exact .inl (notes_settled ht events)

/-- An ask that has not come to its end. -/
theorem Settled.open (h : Settled replies k a) (hsender : fate a'.channel = fate a.channel)
    (hpoint : ∀ r, a'.point ≠ .finished r) : Settled replies k a' where
  silent hv := h.silent fun v => hsender ▸ hv v
  sent v hv := ⟨(h.sent v (hsender ▸ hv)).1, fun r hr => absurd hr (hpoint r)⟩
  ok _ hv := absurd hv (hpoint _)
  closed _ he := absurd he (hpoint _)
  receiver r hr := absurd hr (hpoint r)

theorem Settled.own {now : Instant} (h : Settled replies k a) (hstep : a.Step now a') :
    Settled replies k a' := by
  have hfate := hstep.fate_eq
  cases hstep with
  | timeout _ | pending _ _ | elapse _ | again _ | abandon _ => exact h.open hfate (by simp)
  | expire hpoint =>
    refine ⟨fun hv => h.silent fun v => hfate ▸ hv v, fun v hv => ⟨(h.sent v (hfate ▸ hv)).1, ?_⟩,
      by simp, by simp, fun _ _ => OneshotChannel.dropReceiver_listening _⟩
    intro r hr
    exact .inr (AskPoint.finished.inj hr).symm
  | @ready began result hpoint hpoll =>
    have hquiet : ∀ r, a.point ≠ .finished r := by simp [hpoint]
    cases hsender : fate a.channel with
    | alive => simp [OneshotChannel.poll_alive hsender] at hpoll
    | sent v =>
      obtain rfl : Except.ok v = result := by simpa [OneshotChannel.poll_sent hsender] using hpoll
      refine ⟨fun hnone => absurd (hfate.trans hsender) (hnone v), fun v' hv' => ?_,
        fun v' hv' => ?_, by simp [Except.mapError],
        fun _ _ => OneshotChannel.dropReceiver_listening _⟩
      · obtain rfl : v = v' := by simpa [hfate, hsender] using hv'
        exact ⟨(h.sent v hsender).1, fun r hr => .inl (AskPoint.finished.inj hr).symm⟩
      · obtain rfl : v = v' := by simpa [Except.mapError] using hv'
        exact hfate.trans hsender
    | dropped =>
      obtain rfl : Except.error .closed = result := by
        simpa [OneshotChannel.poll_dropped hsender] using hpoll
      exact ⟨fun _ => h.silent (by simp [hsender]),
        fun v hv => by simp [hfate, hsender] at hv, by simp [Except.mapError],
        fun _ _ => hfate.trans hsender, fun _ _ => OneshotChannel.dropReceiver_listening _⟩

theorem Settled.note (h : Settled replies k a)
    (halive : a.point = .telling → fate a.channel = .alive) (events : List (Event T)) :
    Settled replies k (events.foldl (note sender full k) a) := by
  have hcases : events.foldl (Ask.note sender full k) a = a ∨ _ := notes_cases events a
  rcases hcases with hsame | ⟨ht, htold | hfull⟩
  · rwa [hsame]
  · rw [htold]
    exact h.open rfl (by simp)
  · have hsender := halive ht
    have hfate : fate (OneshotChannel.dropReceiver a.channel) = fate a.channel :=
      OneshotChannel.dropReceiver_fate _
    rw [hfull]
    exact ⟨fun _ => h.silent (by simp [hsender]), fun v hv => by simp [hfate, hsender] at hv,
      fun v hv => by simp at hv, fun e he => by simp at he,
      fun _ _ => OneshotChannel.dropReceiver_listening _⟩

theorem Settled.send (h : Settled replies k a) (halive : fate a.channel = .alive) (v : V) :
    Settled (if listening a.channel then replies ++ [(k, v)] else replies) k
      { a with channel := (OneshotChannel.send a.channel v).1 } := by
  have hnone : answers replies k = [] := h.silent (by simp [halive])
  cases hlistening : listening a.channel with
  | true =>
    obtain ⟨hsent, -, -⟩ := OneshotChannel.send_heard (v := v) hlistening
    have hopen : ∀ r, a.point ≠ .finished r := fun r hr => by
      simp [h.receiver r hr] at hlistening
    refine ⟨fun hv => absurd hsent (hv v), fun v' hv' => ⟨?_, fun r hr => absurd hr (hopen r)⟩,
      fun v' hv' => absurd hv' (hopen _), fun e he => absurd he (hopen _),
      fun r hr => absurd hr (hopen r)⟩
    obtain rfl : v = v' := by simpa [hsent] using hv'
    rw [if_pos rfl, answers_append, hnone]
    simp [answers]
  | false =>
    obtain ⟨hdropped, hgone, -⟩ := OneshotChannel.send_lost (v := v) hlistening
    simp only [Bool.false_eq_true, if_false]
    exact ⟨fun _ => hnone, fun v hv => by simp [hdropped] at hv,
      fun v hv => by simp [h.ok v hv] at halive, fun _ _ => hdropped, fun _ _ => hgone⟩

theorem Settled.other (h : Settled replies k a) {j : ReplyTo} (hj : j ≠ k) (v : V) (sent : Bool) :
    Settled (if sent then replies ++ [(j, v)] else replies) k a := by
  have hsame : answers (if sent then replies ++ [(j, v)] else replies) k = answers replies k := by
    cases sent <;> simp [answers, hj]
  exact ⟨fun hv => hsame ▸ h.silent hv, fun v hv => hsame ▸ h.sent v hv, h.ok, h.closed,
    h.receiver⟩

theorem Settled.dropSender (h : Settled replies k a) :
    Settled replies k { a with channel := OneshotChannel.dropSender a.channel } := by
  by_cases halive : fate a.channel = .alive
  · have hdropped := OneshotChannel.dropSender_alive halive
    exact ⟨fun _ => h.silent (by simp [halive]), fun v hv => by simp [hdropped] at hv,
      fun v hv => by simp [h.ok v hv] at halive, fun _ _ => hdropped,
      fun r hr => (OneshotChannel.dropSender_listening _).trans (h.receiver r hr)⟩
  · rw [OneshotChannel.dropSender_spent halive]
    exact h

end Channel

end Ask

namespace Asking

variable {s s' : Asking T C V} {k : ReplyTo}

/-- What holds of all asks in every state. -/
structure Sound [Tokio C V] (sender : T → Option ReplyTo) (s : Asking T C V) : Prop where
  linear : s.Linear sender
  fresh : ∀ k, s.asks.length ≤ k →
    weigh (bears sender k) (served s.node.mbox.log) = 0 ∧ answers s.replies k = []
  tracked : ∀ (k : ReplyTo) (a : Ask C V), s.asks[k]? = some a → a.Tracked sender s k
  settled : ∀ (k : ReplyTo) (a : Ask C V), s.asks[k]? = some a → a.Settled s.replies k

variable [Tokio C V]

/-- A step of one ask, which leaves the mailbox and the senders alone. -/
theorem Sound.askStep {a a' : Ask C V} (h : Sound sender s)
    (hlin : Linear sender { s with asks := s.asks.set k a' }) (ha : s.asks[k]? = some a)
    (htracked : a.Tracked sender s k → a'.Tracked sender { s with asks := s.asks.set k a' } k)
    (hsettled : a.Settled s.replies k → a'.Settled s.replies k) :
    Sound sender { s with asks := s.asks.set k a' } where
  linear := hlin
  fresh j hj := h.fresh j (by simpa using hj)
  tracked j b hb := by
    rcases Pool.set_get hb with ⟨rfl, rfl⟩ | ⟨-, hold⟩
    · exact htracked (h.tracked _ _ ha)
    · exact (h.tracked j b hold).still rfl (Nat.le_refl _) rfl
  settled j b hb := by
    rcases Pool.set_get hb with ⟨rfl, rfl⟩ | ⟨-, hold⟩
    · exact hsettled (h.settled _ _ ha)
    · exact h.settled j b hold

theorem Sound.alive (h : Sound sender s) {a : Ask C V} (ha : s.asks[k]? = some a)
    (ht : a.point = .telling) : fate a.channel = .alive := by
  obtain ⟨hunpushed, -⟩ := (h.tracked k a ha).telling ht
  have hshares : _ ≤ s.share sender k := Ask.shares s k
  obtain ⟨a', ha', halive⟩ := h.linear.alive k (by omega)
  obtain rfl := Option.some.inj (ha.symm.trans ha')
  exact halive

theorem Sound.ask {msg : T} {tmout : Duration} {node : Node T}
    (hr : (Node.machine path option parent).Reachable s.node) (h : Sound sender s)
    (hsender : sender msg = some s.asks.length)
    (hnode : s.node.step (.call (.trySend (.user msg))) = some node)
    (hlin : Linear sender { s with
      node := node, asks := s.asks ++ [⟨tmout, .telling, OneshotChannel.channel⟩] }) :
    Sound sender { s with
      node := node, asks := s.asks ++ [⟨tmout, .telling, OneshotChannel.channel⟩] } := by
  have hlog : node.mbox.log = s.node.mbox.log ++ [] := by
    cases hnode
    exact (List.append_nil _).symm
  have hsame : node.mbox.log = s.node.mbox.log := hlog.trans (List.append_nil _)
  obtain ⟨hunserved, hsilent⟩ := h.fresh s.asks.length (Nat.le_refl _)
  refine ⟨hlin, fun k hk => ?_, fun k a ha => ?_, fun k a ha => ?_⟩
  · simp only [List.length_append, List.length_singleton] at hk
    rw [hsame]
    exact h.fresh k (by omega)
  · rcases Pool.concat_get.mp ha with hold | ⟨rfl, rfl⟩
    · have hne : s.asks.length ≠ k := (List.getElem?_eq_some_iff.mp hold).1.ne'
      have hshare : share sender { s with
          node := node
          asks := s.asks ++ [⟨tmout, .telling, OneshotChannel.channel⟩] } k ≤
            s.share sender k + bears sender k msg := ask_share hr hnode k
      rw [bears_zero (by simpa [hsender] using hne), Nat.add_zero] at hshare
      exact (h.tracked k a hold).step hr h.linear hnode hlog hshare fun _ _ hev => by cases hev
    · refine ⟨fun _ => ⟨?_, hsame ▸ hunserved⟩, fun _ hf => (by cases hf),
        fun hne => absurd rfl hne⟩
      cases hnode
      have hbears := bears_eq hsender
      simp only [Node.unpushed, List.flatMap_append, weigh_append, Call.start,
        List.flatMap_cons, Client.unpushed, weigh_cons]
      omega
  · rcases Pool.concat_get.mp ha with hold | ⟨rfl, rfl⟩
    · exact h.settled k a hold
    · have hnew : fate (OneshotChannel.channel : C) = .alive := OneshotChannel.channel_fate
      exact ⟨fun _ => hsilent, fun _ hf => (by simp [hnew] at hf), fun _ hf => (by cases hf),
        fun _ hf => (by cases hf), fun _ hf => (by cases hf)⟩

theorem Sound.reply {a : Ask C V} {v : V} (h : Sound sender s) (ha : s.asks[k]? = some a)
    (hheld : k ∈ s.held)
    (hlin : Linear sender { s with
      asks := s.asks.set k { a with channel := (OneshotChannel.send a.channel v).1 }
      held := s.held.erase k
      replies := if listening a.channel then s.replies ++ [(k, v)] else s.replies }) :
    Sound sender { s with
      asks := s.asks.set k { a with channel := (OneshotChannel.send a.channel v).1 }
      held := s.held.erase k
      replies := if listening a.channel then s.replies ++ [(k, v)] else s.replies } := by
  have halive : fate a.channel = .alive := by
    obtain ⟨a', ha', halive⟩ := h.linear.alive k (share_pos.mpr (.inl hheld))
    obtain rfl := Option.some.inj (ha.symm.trans ha')
    exact halive
  have hshare : ∀ j, weigh (bears sender j) s.node.contents + (s.held.erase k).count j ≤
      s.share sender j := fun j =>
    Nat.add_le_add_left (List.Sublist.count_le j List.erase_sublist) _
  refine ⟨hlin, fun j hj => ?_, fun j b hb => ?_, fun j b hb => ?_⟩
  · have hj' : s.asks.length ≤ j := by simpa using hj
    obtain ⟨hunserved, hsilent⟩ := h.fresh j hj'
    refine ⟨hunserved, ?_⟩
    have hne : k ≠ j := by
      rintro rfl
      rw [List.getElem?_eq_none hj'] at ha
      cases ha
    change answers (if listening a.channel then s.replies ++ [(k, v)] else s.replies) j = []
    split
    · rw [answers_append, hsilent]
      simp [answers, hne]
    · exact hsilent
  · rcases Pool.set_get hb with ⟨rfl, rfl⟩ | ⟨-, hold⟩
    · exact (h.tracked _ _ ha).still rfl (hshare _) rfl
    · exact (h.tracked j b hold).still rfl (hshare j) rfl
  · rcases Pool.set_get hb with ⟨rfl, rfl⟩ | ⟨hne, hold⟩
    · exact (h.settled _ _ ha).send halive v
    · exact (h.settled j b hold).other hne.symm v _

theorem Sound.node {act : Ruactor.Action T}
    (hr : (Node.machine path option parent).Reachable s.node) (h : Sound sender s)
    (hnode : s.nodeStep sender act = some s') (hlin : Linear sender s') : Sound sender s' := by
  obtain ⟨given, events, -, hstep, hlog, -, hasks, hreplies⟩ := nodeStep_some hnode
  refine ⟨hlin, fun k hk => ?_, fun k b hb => ?_, fun k b hb => ?_⟩
  · rw [hasks, List.length_mapIdx] at hk
    have hhand := (Node.step_contents (w := bears sender k) hr hstep hlog).2
    have hshares : _ ≤ s.share sender k := Ask.shares s k
    have hnone := h.linear.unknown hk
    obtain ⟨hserved, hanswers⟩ := h.fresh k hk
    refine ⟨?_, hreplies ▸ hanswers⟩
    rw [hlog, served_append, weigh_append]
    omega
  · rw [hasks, List.getElem?_mapIdx, Option.map_eq_some_iff] at hb
    obtain ⟨a, ha, rfl⟩ := hb
    refine (h.tracked k a ha).step hr h.linear hstep hlog (nodeStep_share hr hnode k) ?_
    rintro ht msg rfl hsender
    exact Ask.refused_share hr h.linear hnode ha ht hlog hsender
  · rw [hasks, List.getElem?_mapIdx, Option.map_eq_some_iff] at hb
    obtain ⟨a, ha, rfl⟩ := hb
    rw [hreplies]
    exact (h.settled k a ha).note (h.alive ha) events

theorem Sound.move {a : Action T V} (hr : (Node.machine path option parent).Reachable s.node)
    (h : Sound sender s) (move : Move sender s a s') : Sound sender s' := by
  have hlin := h.linear.move hr move
  cases move with
  | noReply => exact h
  | ask hsender hnode => exact h.ask hr hsender hnode hlin
  | own ha hf => exact h.askStep hlin ha (fun ht => ht.own hf rfl) fun hs => hs.own hf
  | reply ha hheld => exact h.reply ha hheld hlin
  | discard hheld =>
    exact ⟨hlin, h.fresh, fun j b hb => (h.tracked j b hb).still rfl
      (Nat.add_le_add_left (List.Sublist.count_le j List.erase_sublist) _) rfl, h.settled⟩
  | node hnode => exact h.node hr hnode hlin

theorem Sound.collect (h : Sound sender s) : Sound sender (s.collect sender) where
  linear := h.linear.collect
  fresh k hk := h.fresh k (by simpa [Asking.collect] using hk)
  tracked k b hb := by
    rw [collect_get, Option.map_eq_some_iff] at hb
    obtain ⟨a, ha, rfl⟩ := hb
    refine (h.tracked k a ha).still rfl (Nat.le_refl _) ?_
    split <;> rfl
  settled k b hb := by
    rw [collect_get, Option.map_eq_some_iff] at hb
    obtain ⟨a, ha, rfl⟩ := hb
    split
    · exact h.settled k a ha
    · exact (h.settled k a ha).dropSender

theorem reachable_sound (h : (machine (C := C) (V := V) sender path option parent).Reachable s) :
    Sound sender s := by
  refine h.invariant ⟨linear_start sender path option parent, fun _ _ => ⟨rfl, rfl⟩,
    fun k a ha => (by simp [machine] at ha), fun k a ha => (by simp [machine] at ha)⟩
    fun hr hs _ hstep => ?_
  obtain ⟨s₁, move, rfl⟩ := step_move hstep
  exact (hs.move (reachable_node hr) move).collect

end Asking

end Ruactor
