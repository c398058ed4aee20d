import Ruactor.Ask

/-!
# Where the sender of an ask is

A sender is in one place at the most, in the mailbox or in the hands of a program, and it is
alive as long as it is in one. While an ask is telling, its message is with the caller; once it
was pushed, the message waits in the queue or a handler has been called with it.
-/

namespace Ruactor

open Machine Weight

open OneshotChannel (fate listening)

variable {T C V : Type} {sender : T → Option ReplyTo} {path : ActorPath} {option : PropsOption}
  {parent : ParentRef}

/-- Whether the message carries the sender of the channel `k`. -/
def bears (sender : T → Option ReplyTo) (k : ReplyTo) (msg : T) : Nat :=
  if sender msg = some k then 1 else 0

theorem bears_eq {k : ReplyTo} {msg : T} (h : sender msg = some k) : bears sender k msg = 1 :=
  if_pos h

theorem bears_zero {k : ReplyTo} {msg : T} (h : sender msg ≠ some k) : bears sender k msg = 0 :=
  if_neg h

theorem count_senders (k : ReplyTo) (values : List T) :
    (values.filterMap sender).count k = weigh (bears sender k) values := by
  induction values with
  | nil => rfl
  | cons msg values ih =>
    cases h : sender msg with
    | none => simp [h, ih, bears]
    | some k' =>
      by_cases hk : k' = k
      · simp [h, ih, bears, hk, Nat.add_comm]
      · simp [h, ih, bears, hk]

theorem count_sender (k : ReplyTo) (msg : T) :
    (sender msg).toList.count k = bears sender k msg := by
  have hcount : ([msg].filterMap sender).count k = _ := count_senders k [msg]
  cases h : sender msg with
  | none => simpa [h] using hcount
  | some k' => simpa [h] using hcount

namespace Ask

variable [Tokio C V] {full : String} {k : ReplyTo} {a : Ask C V}

theorem note_sender (e : Event T) :
    fate (a.note sender full k e).channel = fate a.channel := by
  unfold note
  split
  · split
    · split <;> rfl
    · rfl
  · split
    · split
      · exact OneshotChannel.dropReceiver_fate _
      · rfl
    · rfl
  · rfl

theorem notes_sender (events : List (Event T)) (a : Ask C V) :
    fate (events.foldl (note sender full k) a).channel = fate a.channel := by
  induction events generalizing a with
  | nil => rfl
  | cons e events ih => rw [List.foldl_cons, ih, note_sender]

/-- A step of the caller of `ask!`. -/
inductive Step (now : Instant) (a : Ask C V) : Ask C V → Prop
  | timeout : a.point = .told → Step now a { a with point := .receiving now }
  | ready {began : Instant} {result : Except Oneshot.RecvError V} :
      a.point = .receiving began → OneshotChannel.poll a.channel = some result →
      Step now a { a with
        point := .finished (result.mapError .recvError)
        channel := OneshotChannel.dropReceiver a.channel }
  | pending {began : Instant} : a.point = .receiving began → OneshotChannel.poll a.channel = none →
      Step now a { a with point := .delaying began }
  | elapse {began : Instant} : a.point = .delaying began →
      Step now a { a with point := .elapsed }
  | again {began : Instant} : a.point = .delaying began →
      Step now a { a with point := .receiving began }
  | expire : a.point = .elapsed →
      Step now a { a with
        point := .finished (.error .timeoutError)
        channel := OneshotChannel.dropReceiver a.channel }
  | abandon {began : Instant} : a.point = .receiving began →
      Step now a { a with
        point := .abandoned, channel := OneshotChannel.dropReceiver a.channel }

variable {now : Instant} {a' : Ask C V}

theorem timeout_step (h : a.timeout now = some a') : a.Step now a' := by
  unfold timeout at h
  split at h <;> cases h
  exact .timeout ‹_›

theorem poll_step (h : a.poll = some a') : a.Step now a' := by
  unfold poll at h
  split at h
  · split at h <;> cases h
    · exact .ready ‹_› ‹_›
    · exact .pending ‹_› ‹_›
  · cases h

theorem pollDelay_step (h : a.pollDelay now = some a') : a.Step now a' := by
  unfold pollDelay at h
  split at h
  · split at h <;> cases h
    · exact .elapse ‹_›
    · exact .again ‹_›
  · cases h

theorem expire_step (h : a.expire = some a') : a.Step now a' := by
  unfold expire at h
  split at h <;> cases h
  exact .expire ‹_›

theorem abandon_step (h : a.abandon = some a') : a.Step now a' := by
  unfold abandon at h
  split at h <;> cases h
  exact .abandon ‹_›

/-- The caller does nothing with the sender. -/
theorem Step.fate_eq (h : a.Step now a') : fate a'.channel = fate a.channel := by
  cases h with
  | ready _ _ | expire _ | abandon _ => exact OneshotChannel.dropReceiver_fate _
  | _ => rfl

theorem Step.unfinished (h : a.Step now a') (r : Except ActorError V) : a.point ≠ .finished r := by
  cases h <;> simp [*]

/-- Only an ask whose message is not pushed yet notices what happens at the mailbox. -/
theorem note_settled (h : a.point ≠ .telling) (e : Event T) : a.note sender full k e = a := by
  unfold note
  split
  · split
    · exact absurd ‹_› h
    · rfl
  · split
    · exact absurd ‹_› h
    · rfl
  · rfl

theorem notes_settled (h : a.point ≠ .telling) (events : List (Event T)) :
    events.foldl (note sender full k) a = a := by
  induction events with
  | nil => rfl
  | cons e events ih => rw [List.foldl_cons, note_settled h, ih]

theorem notes_unsent {events : List (Event T)} (h : ∀ e ∈ events, e.sent = false) :
    events.foldl (note sender full k) a = a := by
  induction events with
  | nil => rfl
  | cons e events ih =>
    have he : a.note sender full k e = a := by
      have hsent := h e List.mem_cons_self
      cases e <;> first | rfl | cases hsent
    rw [List.foldl_cons, he]
    exact ih fun e' he' => h e' (List.mem_cons_of_mem _ he')

end Ask

namespace Asking

variable {s s' : Asking T C V} {k : ReplyTo}

theorem give_count {held held' : List ReplyTo} {msg : T} (h : give sender held msg = some held')
    (k : ReplyTo) : held'.count k + bears sender k msg = held.count k := by
  unfold give at h
  split at h
  next hnone =>
    cases h
    rw [bears_zero (by simp [hnone]), Nat.add_zero]
  next k' hsome =>
    split at h
    next hmem =>
      cases h
      by_cases hk : k' = k
      · subst hk
        have hpos := List.count_pos_iff.mpr hmem
        rw [List.count_erase_self, bears_eq hsome]
        omega
      · rw [List.count_erase_of_ne (Ne.symm hk), bears_zero (by simp [hsome, hk]), Nat.add_zero]
    · cases h

theorem gives_count {msgs : List T} {held held' : List ReplyTo}
    (h : msgs.foldlM (give sender) held = some held') (k : ReplyTo) :
    held'.count k + weigh (bears sender k) msgs = held.count k := by
  induction msgs generalizing held with
  | nil =>
    cases h
    rfl
  | cons msg msgs ih =>
    rw [List.foldlM_cons] at h
    obtain ⟨middle, hgive, hrest⟩ := Option.bind_eq_some_iff.mp h
    rw [weigh_cons, ← give_count hgive k, ← ih hrest]
    omega

variable {telling : ReplyTo → Bool}

theorem hands_count {held held' : List ReplyTo} {e : Event T}
    (h : hands sender telling held e = some held') (k : ReplyTo) :
    held'.count k + weigh (bears sender k) e.incoming ≤
      held.count k + weigh (bears sender k) e.served +
        if telling k then 0 else weigh (bears sender k) e.refused := by
  have idle : held' = held → weigh (bears sender k) e.incoming = 0 →
      held'.count k + weigh (bears sender k) e.incoming ≤
        held.count k + weigh (bears sender k) e.served +
          if telling k then 0 else weigh (bears sender k) e.refused := by
    rintro rfl hzero
    rw [hzero]
    exact (Nat.le_add_right _ _).trans (Nat.le_add_right _ _)
  cases e with
  | delivered _ _ msg | timerDelivered _ _ _ msg _ =>
    cases h
    rw [List.count_append, count_sender]
    simp [Event.incoming, Event.served]
  | stashed msg =>
    have hcount := give_count h k
    simp only [Event.incoming, weigh_cons, weigh_nil]
    omega
  | afterFunc _ _ msg =>
    cases msg with
    | timer _ _ msg _ =>
      obtain ⟨_, -, rfl⟩ := Option.map_eq_some_iff.mp h
      exact idle rfl rfl
    | _ =>
      cases h
      exact idle rfl rfl
  | rejected msg =>
    cases h
    have hcount : (msg.contents.filterMap sender).count k = _ := count_senders k msg.contents
    rw [List.count_append]
    split
    next htelling =>
      have hnone : ((msg.contents.filterMap sender).filter fun k => !telling k).count k = 0 :=
        List.count_eq_zero_of_not_mem fun hmem => by
          simp [htelling] at hmem
      simp [Event.incoming, hnone]
    next htelling =>
      rw [List.count_filter (by simpa using htelling), hcount]
      simp [Event.incoming, Event.refused]
  | _ =>
    cases h
    exact idle rfl rfl

theorem handed_count {events : List (Event T)} {held held' : List ReplyTo}
    (h : events.foldlM (hands sender telling) held = some held') (k : ReplyTo) :
    held'.count k + weigh (bears sender k) (incoming events) ≤
      held.count k + weigh (bears sender k) (served events) +
        if telling k then 0 else weigh (bears sender k) (refused events) := by
  induction events generalizing held with
  | nil =>
    cases h
    simp
  | cons e events ih =>
    rw [List.foldlM_cons] at h
    obtain ⟨middle, hhands, hrest⟩ := Option.bind_eq_some_iff.mp h
    have hfirst := hands_count hhands k
    have hlater := ih hrest
    rw [incoming_cons, served_cons, refused_cons, weigh_append, weigh_append, weigh_append]
    cases htelling : telling k <;> simp only [htelling, if_true, if_false, Bool.false_eq_true]
      at hfirst hlater ⊢ <;> omega

/-- How often the sender of the channel `k` is anywhere. -/
def share (sender : T → Option ReplyTo) (s : Asking T C V) (k : ReplyTo) : Nat :=
  weigh (bears sender k) s.node.contents + s.held.count k

theorem share_pos : 0 < s.share sender k ↔ k ∈ s.held ∨ k ∈ s.node.contents.filterMap sender := by
  rw [share, ← count_senders, Nat.add_pos_iff_pos_or_pos, List.count_pos_iff, List.count_pos_iff,
    or_comm]

theorem askStep_some {f : Ask C V → Option (Ask C V)} (h : s.askStep k f = some s') :
    ∃ a a', s.asks[k]? = some a ∧ f a = some a' ∧ s' = { s with asks := s.asks.set k a' } := by
  unfold askStep at h
  split at h
  · cases h
  next a ha =>
    obtain ⟨a', hf, rfl⟩ := Option.map_eq_some_iff.mp h
    exact ⟨a, a', ha, hf, rfl⟩

theorem ask_share {msg : T} {node : Node T} {asks : List (Ask C V)}
    (hr : (Node.machine path option parent).Reachable s.node)
    (h : s.node.step (.call (.trySend (.user msg))) = some node) (k : ReplyTo) :
    share sender { s with node := node, asks := asks } k ≤
      s.share sender k + bears sender k msg := by
  have hlog : node.mbox.log = s.node.mbox.log ++ [] := by
    cases h
    exact (List.append_nil _).symm
  have hcontents := (Node.step_contents (w := bears sender k) hr h hlog).1
  simp only [share, served_nil, refused_nil, incoming_nil, weigh_nil, Ruactor.Action.contents,
    Call.contents, Message.contents, weigh_cons] at hcontents ⊢
  omega

variable [Tokio C V]

/-- The event log of a step of the node. -/
theorem nodeStep_some {a : Ruactor.Action T} (h : s.nodeStep sender a = some s') :
    ∃ given events, a.contents.foldlM (give sender) s.held = some given ∧
      s.node.step a = some s'.node ∧ s'.node.mbox.log = s.node.mbox.log ++ events ∧
      events.foldlM (hands sender fun k => (s.asks[k]?.map Ask.isTelling).getD false) given =
        some s'.held ∧
      s'.asks = (s.asks.mapIdx fun k ask => events.foldl (Ask.note sender
        ("actor " ++ s.node.mbox.path.toString ++ " mailbox full") k) ask) ∧
      s'.replies = s.replies := by
  simp only [nodeStep] at h
  obtain ⟨given, hgiven, h⟩ := Option.bind_eq_some_iff.mp h
  obtain ⟨node, hnode, h⟩ := Option.bind_eq_some_iff.mp h
  obtain ⟨held, hheld, h⟩ := Option.bind_eq_some_iff.mp h
  cases h
  obtain ⟨events, hlog⟩ := (Node.step_move hnode).log
  have hdrop : node.mbox.log.drop s.node.mbox.log.length = events := by
    rw [hlog, List.drop_left]
  rw [hdrop] at hheld
  exact ⟨given, events, hgiven, hnode, hlog, hheld, by rw [hdrop], rfl⟩

/-- What a step does, but for the senders that nobody owns after it. -/
inductive Move (sender : T → Option ReplyTo) (s : Asking T C V) : Action T V → Asking T C V → Prop
  | ask {msg : T} {tmout : Duration} {node : Node T} : sender msg = some s.asks.length →
      s.node.step (.call (.trySend (.user msg))) = some node →
      Move sender s (.ask msg tmout)
        { s with node := node, asks := s.asks ++ [⟨tmout, .telling, OneshotChannel.channel⟩] }
  | own {act : Action T V} {k : ReplyTo} {a a' : Ask C V} : s.asks[k]? = some a →
      a.Step s.node.mbox.rt.clock a' → Move sender s act { s with asks := s.asks.set k a' }
  | reply {k : ReplyTo} {a : Ask C V} {v : V} : s.asks[k]? = some a → k ∈ s.held →
      Move sender s (.reply k v)
        { s with
          asks := s.asks.set k { a with channel := (OneshotChannel.send a.channel v).1 }
          held := s.held.erase k
          replies := if listening a.channel then s.replies ++ [(k, v)] else s.replies }
  | noReply {k : ReplyTo} {v : V} : Move sender s (.reply k v) s
  | discard {k : ReplyTo} : k ∈ s.held → Move sender s (.discard k) { s with held := s.held.erase k }
  | node {a : Ruactor.Action T} {s' : Asking T C V} : s.nodeStep sender a = some s' →
      Move sender s (.node a) s'

theorem step_move {a : Action T V} (h : s.step sender a = some s') :
    ∃ s₁, Move sender s a s₁ ∧ s' = s₁.collect sender := by
  obtain ⟨s₁, hmove, rfl⟩ := Option.map_eq_some_iff.mp h
  refine ⟨s₁, ?_, rfl⟩
  cases a with
  | ask msg tmout =>
    simp only [move] at hmove
    split at hmove
    next hsender =>
      obtain ⟨node, hnode, rfl⟩ := Option.map_eq_some_iff.mp hmove
      exact .ask hsender hnode
    · cases hmove
  | timeout k =>
    obtain ⟨a, a', ha, hf, rfl⟩ := askStep_some hmove
    exact .own ha (Ask.timeout_step hf)
  | poll k =>
    obtain ⟨a, a', ha, hf, rfl⟩ := askStep_some hmove
    exact .own ha (Ask.poll_step hf)
  | pollDelay k =>
    obtain ⟨a, a', ha, hf, rfl⟩ := askStep_some hmove
    exact .own ha (Ask.pollDelay_step hf)
  | expire k =>
    obtain ⟨a, a', ha, hf, rfl⟩ := askStep_some hmove
    exact .own ha (Ask.expire_step hf)
  | abandon k =>
    obtain ⟨a, a', ha, hf, rfl⟩ := askStep_some hmove
    exact .own ha (Ask.abandon_step hf)
  | reply k v =>
    simp only [move, replyTo] at hmove
    split at hmove
    · cases hmove
      exact .noReply
    next a ha =>
      split at hmove
      next hheld =>
        cases hmove
        have hmove : Move sender s (.reply k v) _ := .reply ha hheld
        cases hlistening : listening a.channel with
        | true =>
          obtain ⟨-, -, hsent⟩ := OneshotChannel.send_heard (v := v) hlistening
          simpa [hlistening, hsent] using hmove
        | false =>
          obtain ⟨-, -, hsent⟩ := OneshotChannel.send_lost (v := v) hlistening
          simpa [hlistening, hsent] using hmove
      · cases hmove
        exact .noReply
  | discard k =>
    simp only [move] at hmove
    split at hmove
    · cases hmove
      exact .discard ‹_›
    · cases hmove
  | node a => exact .node hmove

/-- The condition `ok` on the steps of the mailbox. -/
def within (ok : Node T → Ruactor.Action T → Prop) (s : Asking T C V) : Action T V → Prop
  | .node a => ok s.node a
  | _ => True

instance (ok : Node T → Ruactor.Action T → Prop) [∀ nd a, Decidable (ok nd a)] (s : Asking T C V)
    (a : Action T V) : Decidable (within ok s a) :=
  match a with
  | .node a => inferInstanceAs (Decidable (ok s.node a))
  | .ask _ _ | .timeout _ | .poll _ | .pollDelay _ | .expire _ | .abandon _ | .reply _ _
  | .discard _ => isTrue trivial

theorem reach_node {ok : Node T → Ruactor.Action T → Prop} (hcall : ∀ nd c, ok nd (.call c))
    (h : (machine (C := C) (V := V) sender path option parent).Reach (within ok) s) :
    (Node.machine path option parent).Reach ok s.node := by
  refine h.invariant
    (P := fun s : Asking T C V => (Node.machine path option parent).Reach ok s.node)
    .start fun {s s' a} _ hs allowed hstep => ?_
  obtain ⟨s₁, move, rfl⟩ := step_move hstep
  cases move with
  | ask _ hnode => exact .step hs (hcall _ _) hnode
  | node hnode =>
    obtain ⟨-, -, -, hnode, -⟩ := nodeStep_some hnode
    exact .step hs allowed hnode
  | _ => exact hs

theorem reachable_node (h : (machine (C := C) (V := V) sender path option parent).Reachable s) :
    (Node.machine path option parent).Reachable s.node :=
  reach_node (fun _ _ => trivial) (h.mono fun s a _ => by cases a <;> trivial)

@[simp] theorem share_collect (k : ReplyTo) :
    (s.collect sender).share sender k = s.share sender k := rfl

theorem collect_get (k : ReplyTo) :
    (s.collect sender).asks[k]? = s.asks[k]?.map fun a =>
      if 0 < s.share sender k then a
      else { a with channel := OneshotChannel.dropSender a.channel } := by
  rw [collect, List.getElem?_mapIdx]
  congr 1
  funext a
  simp only [share_pos]

section Linear

/-- A sender is in one place at the most, and then it is alive. -/
structure Linear (sender : T → Option ReplyTo) (s : Asking T C V) : Prop where
  once : ∀ k, s.share sender k ≤ 1
  alive : ∀ k, 0 < s.share sender k → ∃ a, s.asks[k]? = some a ∧ fate a.channel = .alive

theorem Linear.unknown (h : Linear sender s) {k : ReplyTo} (hk : s.asks.length ≤ k) :
    s.share sender k = 0 := by
  by_contra hne
  obtain ⟨a, ha, -⟩ := h.alive k (Nat.pos_of_ne_zero hne)
  simp [List.getElem?_eq_none hk] at ha

theorem Linear.gone (h : Linear sender s) {k : ReplyTo} {a : Ask C V} (ha : s.asks[k]? = some a)
    (hgone : fate a.channel ≠ .alive) : s.share sender k = 0 := by
  by_contra hne
  obtain ⟨a', ha', halive⟩ := h.alive k (Nat.pos_of_ne_zero hne)
  obtain rfl := Option.some.inj (ha.symm.trans ha')
  exact hgone halive

theorem Linear.collect (h : Linear sender s) : Linear sender (s.collect sender) where
  once := h.once
  alive k hk := by
    rw [share_collect] at hk
    obtain ⟨a, ha, halive⟩ := h.alive k hk
    exact ⟨a, by rw [collect_get, ha, Option.map_some, if_pos hk], halive⟩

/-- A step that lets no sender into more places, and touches none that is in one. -/
theorem Linear.fewer (h : Linear sender s) (hshare : ∀ k, s'.share sender k ≤ s.share sender k)
    (hasks : ∀ k a, 0 < s'.share sender k → s.asks[k]? = some a →
      ∃ a', s'.asks[k]? = some a' ∧ fate a'.channel = fate a.channel) : Linear sender s' where
  once k := (hshare k).trans (h.once k)
  alive k hk := by
    obtain ⟨a, ha, halive⟩ := h.alive k (hk.trans_le (hshare k))
    obtain ⟨a', ha', hsame⟩ := hasks k a hk ha
    exact ⟨a', ha', hsame.trans halive⟩

theorem nodeStep_share {a : Ruactor.Action T}
    (hr : (Node.machine path option parent).Reachable s.node)
    (h : s.nodeStep sender a = some s') (k : ReplyTo) :
    s'.share sender k ≤ s.share sender k := by
  obtain ⟨given, events, hgiven, hnode, hlog, hheld, -⟩ := nodeStep_some h
  have hcontents := (Node.step_contents (w := bears sender k) hr hnode hlog).1
  have hgives := gives_count hgiven k
  have hhands := handed_count hheld k
  simp only [share]
  split at hhands <;> omega

theorem set_same {asks : List (Ask C V)} {k : ReplyTo} {a a' : Ask C V} (ha : asks[k]? = some a)
    (hfate : fate a'.channel = fate a.channel) (j : ReplyTo) (b : Ask C V)
    (hb : asks[j]? = some b) :
    ∃ b', (asks.set k a')[j]? = some b' ∧ fate b'.channel = fate b.channel := by
  by_cases hj : k = j
  · subst hj
    obtain rfl := Option.some.inj (ha.symm.trans hb)
    obtain ⟨hlt, -⟩ := List.getElem?_eq_some_iff.mp ha
    exact ⟨a', List.getElem?_set_self hlt, hfate⟩
  · exact ⟨b, by rw [List.getElem?_set_ne hj, hb], rfl⟩

theorem Linear.move {a : Action T V} (hr : (Node.machine path option parent).Reachable s.node)
    (h : Linear sender s) (move : Move sender s a s') : Linear sender s' := by
  cases move with
  | @ask msg tmout node hsender hnode =>
    have hshare : ∀ k, share sender { s with
        node := node
        asks := s.asks ++ [⟨tmout, .telling, OneshotChannel.channel⟩] } k ≤
          s.share sender k + bears sender k msg := ask_share hr hnode
    have hnew : ∀ k, k ≠ s.asks.length → bears sender k msg = 0 := fun k hk =>
      bears_zero (by simpa [hsender] using hk.symm)
    constructor
    · intro k
      by_cases hk : k = s.asks.length
      · subst hk
        have hold := h.unknown (Nat.le_refl s.asks.length)
        have hbears := bears_eq hsender
        have hle := hshare s.asks.length
        omega
      · have hle := hshare k
        rw [hnew k hk, Nat.add_zero] at hle
        exact hle.trans (h.once k)
    · intro k hpos
      by_cases hk : k = s.asks.length
      · subst hk
        exact ⟨_, List.getElem?_concat_length, OneshotChannel.channel_fate⟩
      · have hle := hshare k
        rw [hnew k hk, Nat.add_zero] at hle
        obtain ⟨a, ha, halive⟩ := h.alive k (hpos.trans_le hle)
        exact ⟨a, List.getElem?_append_left (List.getElem?_eq_some_iff.mp ha).1 ▸ ha, halive⟩
  | own ha hf =>
    exact h.fewer (fun _ => Nat.le_refl _) fun j b _ => set_same ha hf.fate_eq j b
  | @reply k a v ha hheld =>
    have hcount : ∀ j, (s.held.erase k).count j ≤ s.held.count j := fun j =>
      List.Sublist.count_le j List.erase_sublist
    refine h.fewer (fun j => Nat.add_le_add_left (hcount j) _) fun j b hpos hb => ?_
    by_cases hj : k = j
    · subst hj
      -- the sender was in hand, and is used up
      have honce := h.once k
      have hin := List.count_pos_iff.mpr hheld
      simp only [share, List.count_erase_self] at hpos honce
      omega
    · exact ⟨b, by rw [List.getElem?_set_ne hj, hb], rfl⟩
  | noReply => exact h
  | @discard k hheld =>
    have hcount : ∀ j, (s.held.erase k).count j ≤ s.held.count j := fun j =>
      List.Sublist.count_le j List.erase_sublist
    exact h.fewer (fun j => Nat.add_le_add_left (hcount j) _) fun _ b _ hb => ⟨b, hb, rfl⟩
  | node hnode =>
    obtain ⟨-, events, -, -, -, -, hasks, -⟩ := nodeStep_some hnode
    refine h.fewer (nodeStep_share hr hnode) fun j b _ hb => ?_
    rw [hasks, List.getElem?_mapIdx, hb]
    exact ⟨_, rfl, Ask.notes_sender events b⟩

theorem linear_start (sender : T → Option ReplyTo) (path : ActorPath) (option : PropsOption)
    (parent : ParentRef) :
    Linear sender (machine (C := C) (V := V) sender path option parent).start := by
  have hzero : ∀ k,
      (machine (C := C) (V := V) sender path option parent).start.share sender k = 0 := by
    intro k
    simp [share, machine, Node.new, Node.contents, Mailbox.contents, Mailbox.new,
      ActorContext.contents, ActorContext.new, MessageQueue.new]
  exact ⟨fun k => (hzero k).le.trans (Nat.zero_le _), fun k hk => by simp [hzero k] at hk⟩

theorem reachable_linear (h : (machine (C := C) (V := V) sender path option parent).Reachable s) :
    Linear sender s :=
  h.invariant (linear_start sender path option parent) fun hr hs _ hstep => by
    obtain ⟨s₁, move, rfl⟩ := step_move hstep
    exact (hs.move (reachable_node hr) move).collect

end Linear

end Asking

end Ruactor
