import Ruactor.Answers
import Ruactor.Graceful
import Ruactor.Watching

/-!
# Asking an actor to stop, and waiting for it

A call of `wait_stop` asks first, with a `Terminate` or with a pill, and then watches. When
the actor comes to rest it has been closed, and the watch has its answer, unless the actor
waits for its children.
-/

namespace Ruactor

open Machine

variable {T : Type}

def Call.channel : Call T → Option ReplyTo
  | .watch w | .gracefulStop w | .waitStop w => some w
  | .send _ | .trySend _ | .stop => none

def Client.channels : Client T → List ReplyTo
  | .checking _ watch | .pushing _ watch | .scheduling watch => watch.toList
  | .pushingInternal msg watch => msg.watcher.toList ++ watch.toList
  | .watching w => [w]
  | .stoppingSelf | .schedulingSelf => []

/-- A call of `graceful_stop` or `wait_stop` that has not asked the actor to stop yet. -/
def Client.bids (w : ReplyTo) : Client T → Bool
  | .checking (.autoMessage .poisonPill) watch | .pushing (.autoMessage .poisonPill) watch
  | .pushingInternal .terminate watch => decide (watch = some w)
  | _ => false

def Event.channel : Event T → Option ReplyTo
  | .pushedInternal msg => msg.watcher
  | .replied w | .watchReturned w => some w
  | _ => none

def Action.channel : Action T → Option ReplyTo
  | .call c => c.channel
  | .deliver msg => msg.watcher
  | .client _ | .task _ _ | .tick _ => none

/-- The reply channels that have been used at this mailbox. -/
def Node.channels (nd : Node T) : List ReplyTo :=
  nd.clients.flatMap Client.channels ++ nd.mbox.log.filterMap Event.channel

/-- The `watch` with the channel `w` completes. -/
def Node.answered (w : ReplyTo) (nd : Node T) : Bool :=
  nd.mbox.log.any fun e => e.answers && decide (e.channel = some w)

theorem Client.bids_pill {msg : Message T} {watch : Option ReplyTo} {w : ReplyTo}
    (h : (Client.checking msg watch).bids w = true ∨ (Client.pushing msg watch).bids w = true) :
    msg = .poisonPill ∧ watch = some w := by
  rcases h with h | h <;> unfold bids at h <;> split at h <;> simp_all

theorem Client.bids_terminate {msg : InternalMessage} {watch : Option ReplyTo} {w : ReplyTo}
    (h : (Client.pushingInternal msg watch : Client T).bids w = true) :
    msg = .terminate ∧ watch = some w := by
  unfold bids at h
  split at h <;> simp_all

namespace Node

variable {path : ActorPath} {option : PropsOption} {parent : ParentRef} {nd nd' : Node T}

theorem Move.closed {a : Action T} (move : Move nd a nd') (h : nd.mbox.terminated = true) :
    nd'.mbox.terminated = true := by
  cases move with
  | call | deliver | tick => exact h
  | access _ _ hacc => exact hacc.env.terminated.trans h
  | schedule _ _ | reschedule _ _ => exact (schedule_terminated _).trans h
  | task _ _ hr _ => exact (Mailbox.taskStep_move hr).flag.elim (fun hsame => hsame.trans h) id

theorem orphan_closed (h : (machine path option parent).Reachable nd)
    (hparent : nd.mbox.dispatcher.parent = none) : nd.mbox.terminated = true := by
  have hfinal := reachable_final h
  obtain ⟨before, after, hlog⟩ :=
    List.append_of_mem ((reachable_leaving h).inv.farewell hparent).left.terminating
  refine hfinal.closed.mp ?_
  rw [hlog]
  exact List.mem_append_left _ (hfinal.left before _ after hlog rfl)

/-- An answer says that the mailbox is closed, if nothing more. -/
theorem answers_closed (h : (machine path option parent).Reachable nd) {e : Event T}
    (he : e ∈ nd.mbox.log) (ha : e.answers = true) : nd.mbox.terminated = true := by
  refine h.invariant (P := fun nd : Node T => ∀ e ∈ nd.mbox.log, e.answers = true →
    nd.mbox.terminated = true) (List.forall_mem_nil _)
    (fun {nd nd' a} hr hs _ hstep e he ha => ?_) e he ha
  obtain ⟨events, hlog, hlogs⟩ := step_logs hr hstep
  refine (step_move hstep).closed ?_
  rw [hlog] at he
  rcases List.mem_append.mp he with hold | hnew
  · exact hs e hold ha
  · cases hlogs e hnew with
    | task _ _ _ hl =>
      cases hl with
      | called _ hcalled _ _ => cases e <;> cases ha <;> cases hcalled
      | answered hclosed => exact hclosed
      | drained hparent | replied hparent => exact orphan_closed hr hparent
      | _ => cases ha
    | watchReturned _ hclosed => exact hclosed
    | sent hsent => cases e <;> cases ha <;> cases hsent

theorem answered_closed (h : (machine path option parent).Reachable nd) {w : ReplyTo}
    (ha : nd.answered w = true) : nd.mbox.terminated = true := by
  obtain ⟨e, he, hanswers⟩ := List.any_eq_true.mp ha
  exact answers_closed h he (Bool.and_eq_true_iff.mp hanswers).1

/-- The actor has been asked to stop, by a push or by a pill. -/
def Summoned (log : List (Event T)) : Prop :=
  .pushedInternal .terminate ∈ log ∨ .pushed .poisonPill ∈ log ∨ .rejected .poisonPill ∈ log

/-- Where a call of `wait_stop` stands: it has still to ask the actor to stop, or it has asked
and has its watch before it, or the watch is under way or over. -/
inductive Awaiting (w : ReplyTo) (nd : Node T) : Prop
  | begun {client} : client ∈ nd.clients → client.bids w = true → Awaiting w nd
  | going {client} : Summoned nd.mbox.log → client ∈ nd.clients → w ∈ client.channels →
      Awaiting w nd
  | watched : Summoned nd.mbox.log → w ∈ asked nd.mbox.log → Awaiting w nd
  | returned : Summoned nd.mbox.log → .watchReturned w ∈ nd.mbox.log → Awaiting w nd

theorem Summoned.append {log events : List (Event T)} (h : Summoned log) :
    Summoned (log ++ events) :=
  h.imp (List.mem_append_left _) (.imp (List.mem_append_left _) (List.mem_append_left _))

/-- The access of a caller that has not asked yet. -/
theorem Access.bids {m m' : Mailbox T} {client : Client T} {next : Option (Client T)}
    (h : m.Access client next m') {w : ReplyTo} (hbids : client.bids w = true) :
    (∃ c ∈ next, c.bids w = true) ∨ Summoned m'.log ∧ ∃ c ∈ next, w ∈ c.channels := by
  cases h with
  | @accept msg watch _ =>
    obtain ⟨rfl, rfl⟩ := Client.bids_pill (.inl hbids)
    exact .inl ⟨_, rfl, by simp [Client.bids]⟩
  | @refuse msg watch _ =>
    obtain ⟨rfl, rfl⟩ := Client.bids_pill (.inl hbids)
    exact .inr ⟨by simp [Summoned, Mailbox.emit], .watching w, rfl, by simp [Client.channels]⟩
  | @full msg watch _ =>
    obtain ⟨rfl, rfl⟩ := Client.bids_pill (.inr hbids)
    exact .inr ⟨by simp [Summoned, Mailbox.emit], .watching w, rfl, by simp [Client.channels]⟩
  | @push msg watch queue _ _ =>
    obtain ⟨rfl, rfl⟩ := Client.bids_pill (.inr hbids)
    exact .inr ⟨by simp [Summoned], .scheduling (some w), rfl, by simp [Client.channels]⟩
  | @pushInternal msg watch =>
    obtain ⟨rfl, rfl⟩ := Client.bids_terminate hbids
    exact .inr ⟨by simp [Summoned, Mailbox.pushInternal], .scheduling (some w), rfl,
      by simp [Client.channels]⟩
  | unwatched _ | watch _ | stopSelf => cases hbids

/-- The access of a caller that has the channel. -/
theorem Access.channels {m m' : Mailbox T} {client : Client T} {next : Option (Client T)}
    (h : m.Access client next m') {w : ReplyTo} (hw : w ∈ client.channels) :
    (∃ c ∈ next, w ∈ c.channels) ∨ w ∈ asked m'.log ∨ .watchReturned w ∈ m'.log := by
  cases h with
  | accept _ | push _ _ => exact .inl ⟨_, rfl, hw⟩
  | @refuse msg watch _ | @full msg watch _ =>
    obtain rfl : watch = some w := Option.mem_toList.mp hw
    exact .inl ⟨.watching w, rfl, by simp [Client.channels]⟩
  | @pushInternal msg watch =>
    rcases List.mem_append.mp hw with hmsg | hwatch
    · refine .inr (.inl ?_)
      have hwatcher : msg.watcher = some w := Option.mem_toList.mp hmsg
      simp [Mailbox.pushInternal, asked, hwatcher]
    · exact .inl ⟨.scheduling watch, rfl, hwatch⟩
  | unwatched _ =>
    obtain rfl := List.mem_singleton.mp hw
    exact .inr (.inr (by simp [Mailbox.emit]))
  | watch _ => exact .inl ⟨_, rfl, by simpa [Client.channels, InternalMessage.watcher] using hw⟩
  | stopSelf => cases hw

theorem Awaiting.later {w : ReplyTo} (h : nd.Awaiting w) {events : List (Event T)}
    (hlog : nd'.mbox.log = nd.mbox.log ++ events) (hclients : ∀ c ∈ nd.clients, c ∈ nd'.clients) :
    nd'.Awaiting w := by
  cases h with
  | begun hc hbids => exact .begun (hclients _ hc) hbids
  | going hsummoned hc hw => exact .going (hlog ▸ hsummoned.append) (hclients _ hc) hw
  | watched hsummoned hw => exact .watched (hlog ▸ hsummoned.append) (by simp [hlog, hw])
  | returned hsummoned hw => exact .returned (hlog ▸ hsummoned.append) (by simp [hlog, hw])

theorem Move.awaiting {a : Action T} (move : Move nd a nd') {w : ReplyTo}
    (h : nd.Awaiting w) : nd'.Awaiting w := by
  cases move with
  | call =>
    exact h.later (List.append_nil _).symm fun _ hc => List.mem_append_left _ hc
  | deliver => exact h.later rfl fun _ hc => List.mem_append_left _ hc
  | tick => exact h.later (List.append_nil _).symm fun _ => id
  | reschedule _ _ =>
    refine h.later ((schedule_log _).trans (List.append_nil _).symm) fun c hc => ?_
    rw [schedule_clients]
    exact hc
  | task _ _ hr _ =>
    obtain ⟨events, hlog⟩ := (Mailbox.taskStep_move hr).log
    exact h.later hlog fun _ hc => List.mem_append_left _ hc
  | @schedule i before client after hs hpending =>
    have hlog : nd.schedule.mbox.log = nd.mbox.log := schedule_log nd
    have others : ∀ {c}, c ∈ nd.clients → c ≠ client →
        c ∈ before ++ (client.scheduled.toList ++ after) := by
      intro c hc hne
      simp only [hs, List.mem_append, List.mem_cons] at hc ⊢
      tauto
    cases h with
    | @begun c hc hbids =>
      refine .begun (others hc ?_) hbids
      rintro rfl
      cases c <;> first | cases hbids | cases hpending
    | @going c hsummoned hc hw =>
      by_cases hsame : c = client
      · subst hsame
        cases c with
        | scheduling watch =>
          obtain rfl : watch = some w := Option.mem_toList.mp hw
          have hgoing : w ∈ (Client.watching w : Client T).channels := by simp [Client.channels]
          exact .going (hlog.symm ▸ hsummoned) (by simp [Client.scheduled, afterSend]) hgoing
        | schedulingSelf => cases hw
        | _ => cases hpending
      · exact .going (hlog.symm ▸ hsummoned) (others hc hsame) hw
    | watched hsummoned hw => exact .watched (hlog.symm ▸ hsummoned) (hlog.symm ▸ hw)
    | returned hsummoned hw => exact .returned (hlog.symm ▸ hsummoned) (hlog.symm ▸ hw)
  | @access i before client after next mbox _ hs hacc =>
    obtain ⟨events, hlog⟩ := hacc.env.log
    have others : ∀ {c}, c ∈ nd.clients → c ≠ client → c ∈ before ++ (next.toList ++ after) := by
      intro c hc hne
      simp only [hs, List.mem_append, List.mem_cons] at hc ⊢
      tauto
    have fresh : ∀ {c}, c ∈ next → c ∈ before ++ (next.toList ++ after) := by
      intro c hc
      simp [Option.mem_def.mp hc]
    cases h with
    | @begun c hc hbids =>
      by_cases hsame : c = client
      · subst hsame
        rcases Access.bids hacc hbids with ⟨c', hc', hbids'⟩ | ⟨hsummoned, c', hc', hw⟩
        · exact .begun (fresh hc') hbids'
        · exact .going hsummoned (fresh hc') hw
      · exact .begun (others hc hsame) hbids
    | @going c hsummoned hc hw =>
      have hlater : Summoned mbox.log := hlog ▸ hsummoned.append
      by_cases hsame : c = client
      · subst hsame
        obtain ⟨c', hc', hw'⟩ | hasked | hreturned := Access.channels hacc hw
        · exact .going hlater (fresh hc') hw'
        · exact .watched hlater hasked
        · exact .returned hlater hreturned
      · exact .going hlater (others hc hsame) hw
    | watched hsummoned hw => exact .watched (hlog ▸ hsummoned.append) (by simp [hlog, hw])
    | returned hsummoned hw => exact .returned (hlog ▸ hsummoned.append) (by simp [hlog, hw])

/-- No task is left, and nobody is in a call. -/
def AtRest (nd : Node T) : Prop := nd.tasks = [] ∧ nd.clients = []

theorem AtRest.quiescent (h : nd.AtRest) : nd.Quiescent :=
  ⟨h.1, by simp [h.2]⟩

/-- A `Terminate` that was pushed has closed the mailbox when nothing runs any more. -/
theorem terminate_closed (h : (machine path option parent).Reach calm nd) (hq : Quiescent nd)
    (hpushed : .pushedInternal .terminate ∈ nd.mbox.log) : nd.mbox.terminated = true := by
  rcases reachable_asked h.reachable hpushed with hclosed | hqueue | ⟨n, hhand⟩
  · exact hclosed
  · simp [(reach_covered (calm_reach h)).internal_nil hq] at hqueue
  · simp [hq.1] at hhand

theorem pill_closed (h : (machine path option parent).Reach roomy nd)
    (hrejected : .rejected .poisonPill ∈ nd.mbox.log) : nd.mbox.terminated = true := by
  refine rejected_closed (p := fun msg => msg = .poisonPill) ?_ h _ rfl hrejected
  rintro nd i _ watch ok hi rfl
  simpa [roomy, hi, fullFor] using ok

/-- An actor that was asked to stop does not come to rest before it is closed, unless it was
asked by a pill that found no room. -/
theorem summoned_closed (h : (machine path option parent).Reach calm nd) (hq : Quiescent nd)
    (hsummoned : Summoned nd.mbox.log) :
    nd.mbox.terminated = true ∨ .rejected .poisonPill ∈ nd.mbox.log := by
  rcases hsummoned with hpushed | hpill | hrejected
  · exact .inl (terminate_closed h hq hpushed)
  · obtain ⟨t, done, hdrawn, -, -, hidle⟩ := reach_drawn False
      (h.mono fun _ a ok => ⟨ok, by cases a <;> simp [okTask]⟩)
    obtain rfl := hidle hq.1
    have hmem := mem_accepted.mpr hpill
    rw [hdrawn.accepted] at hmem
    refine .inl ?_
    rcases List.mem_append.mp hmem with hdone | hwaits
    · exact stopSelf_closed h hq (hdrawn.last hdone).1
    · by_contra hopen
      have hempty := (reach_covered (calm_reach h)).user_nil hq (by simpa using hopen)
      simp [Task.taken, hempty] at hwaits
  · exact .inr hrejected

/-- A `Watch` that was pushed has been answered, unless the actor waits for its children. -/
theorem asked_replied (h : (machine path option parent).Reach calm nd) (hq : Quiescent nd)
    (hclosed : nd.mbox.terminated = true)
    (hchildless : ∀ context ∈ nd.mbox.dispatcher.context, context.childrens.entries = [])
    {w : ReplyTo} (hw : w ∈ asked nd.mbox.log) : w ∈ replies nd.mbox.log := by
  have hcovered := reach_covered (calm_reach h)
  have hidle : nd.mbox.running = false := by
    by_contra hr
    obtain ⟨t, hmem, -⟩ := hcovered.held (by simpa using hr)
    simp [hq.1] at hmem
  have hwatcher : nd.mbox.dispatcher.watcher = [] := by
    rcases (reachable_phase h.reachable).rest hidle with hf | hl | hg
    · exact absurd (hclosed.symm.trans hf.accepting) (by simp)
    · obtain ⟨context, hcontext, -, -, hchildren⟩ := hl.context
      exact absurd (hchildless context hcontext) (hchildren hclosed)
    · exact hg.watcher
  have hcount := (answering_owned.reach (fun h => (reachable_phase h).loc) h).rest hidle w
  simp only [Mailbox.waiting, Task.watchers, hcovered.internal_nil hq, hwatcher,
    List.filterMap_nil, List.append_nil, List.count_nil, Nat.add_zero] at hcount
  exact List.count_pos_iff.mp (hcount ▸ List.count_pos_iff.mpr hw)

theorem awaiting_answered (h : (machine path option parent).Reach calm nd) (hrest : nd.AtRest)
    (hchildless : ∀ context ∈ nd.mbox.dispatcher.context, context.childrens.entries = [])
    {w : ReplyTo} (hw : nd.Awaiting w) : nd.answered w = true ∨
      nd.mbox.terminated = false ∧ .rejected .poisonPill ∈ nd.mbox.log := by
  have answers : ∀ {e : Event T}, e ∈ nd.mbox.log → e.answers = true → e.channel = some w →
      nd.answered w = true := by
    intro e he ha hchannel
    exact List.any_eq_true.mpr ⟨e, he, by simp [ha, hchannel]⟩
  cases hw with
  | begun hc _ | going _ hc _ => simp [hrest.2] at hc
  | watched hsummoned hasked =>
    cases hclosed : nd.mbox.terminated with
    | true =>
      have hreplied := asked_replied h hrest.quiescent hclosed hchildless hasked
      obtain ⟨e, he, hw⟩ := List.mem_filterMap.mp hreplied
      cases e <;> cases hw
      exact .inl (answers he rfl rfl)
    | false =>
      refine .inr ⟨rfl, (summoned_closed h hrest.quiescent hsummoned).resolve_left ?_⟩
      simp [hclosed]
  | returned _ hreturned => exact .inl (answers hreturned rfl rfl)

end Node

end Ruactor
