import Ruactor.Handing
import Ruactor.Panics
import Ruactor.SelfStop

/-!
# Graceful stop

A pill travels through the message queue. What was taken out of the queue ends with the
first pill, since the task that has met it stops the actor before it looks for the next
message.
-/

namespace Ruactor

open Machine

variable {T : Type} {path : ActorPath} {option : PropsOption} {parent : ParentRef}

abbrev Message.poisonPill : Message T := .autoMessage .poisonPill

namespace Cell

def Stopped (_ : Setting) (_ : ActorContext T) (events : List (Event T)) : Prop :=
  .stopSelf ∈ events

theorem stopped_following : Following (T := T) (fun _ => True) Stopped where
  op _ _ h := List.mem_append_left _ h
  event _ h := List.mem_append_left _ h
  created h := List.mem_append_left _ h
  actor h := h

theorem processMessage_stopped {c : Cell T} {context : ActorContext T} {actor : InstanceId}
    (hactor : c.disp.actor = some actor) (hcontext : c.disp.context = some context)
    (numMsg : Nat) (src : Source) :
    (processMessage numMsg src .poisonPill c).Ensures (Follows (fun _ => True) Stopped [])
      (Follows (fun _ => True) Stopped []) := by
  refine stopped_following.processMessage ?_
  simp only [onMessage, hactor, hcontext]
  refine ⟨fun _ _ _ _ => trivial, context, rfl, ?_⟩
  simp [Stopped, Cell.apply, ActorContext.stopSelf]

/-- No `stop_self` but those of the log before. -/
def Unstopped (log : List (Event T)) (_ : Setting) (_ : ActorContext T)
    (log' : List (Event T)) : Prop :=
  .stopSelf ∈ log' → .stopSelf ∈ log

theorem Unstopped.append {log log' events : List (Event T)} {s s' : Setting}
    {context context' : ActorContext T} (h : Unstopped log s context log')
    (hevents : .stopSelf ∉ events) : Unstopped log s' context' (log' ++ events) :=
  fun hmem => h ((List.mem_append.mp hmem).resolve_right hevents)

theorem apply_unstopped {rt : Runtime} {context : ActorContext T} {op : ContextOp T}
    (h : op ≠ .stopSelf) : .stopSelf ∉ (op.apply rt context).log := by
  have dropped : ∀ {old : Option Scheduled},
      .stopSelf ∉ (ActorContext.dropHandle old : List (Event T)) := by
    intro old hmem
    obtain ⟨handle, he⟩ := dropHandle_mem hmem
    cases he
  cases op with
  | stopSelf => exact absurd rfl h
  | createChild messageType prop | getOrCreateChild name messageType prop =>
    simp only [ContextOp.apply, ActorContext.createChild, ActorContext.getOrCreateChild]
    split <;> simp [ActorContext.insertChild]
  | transit | stash _ | unstashAll | elapse _ =>
    simp [ContextOp.apply, ActorContext.transit, ActorContext.stashMessage,
      ActorContext.unstashAll]
  | startSingleTimer _ _ _ =>
    simp only [ContextOp.apply, ActorContext.startSingleTimer]
    split <;> simp [ActorContext.insertTimer, dropped]
  | setReceiveTimeout _ =>
    simp only [ContextOp.apply, ActorContext.setReceiveTimeout,
      ActorContext.scheduleReceiveTimeout]
    split <;> simp [ActorContext.armReceiveTimeout, dropped]
  | cancelTimer _ | cancelReceiveTimeout =>
    simpa [ContextOp.apply, ActorContext.cancelTimer, ActorContext.cancelReceiveTimeout]
      using dropped

theorem unstopped_following (log : List (Event T)) :
    Following (fun op : ContextOp T => op ≠ .stopSelf) (Unstopped log) where
  op _ hop h := h.append (apply_unstopped hop)
  event {s e context log'} he h := h.append fun hmem => by
    obtain rfl := List.mem_singleton.mp hmem
    cases he
  created h := h.append (by simp)
  actor h := h

theorem processMessage_unstopped {c : Cell T} {log : List (Event T)} {actor : InstanceId}
    {message : Message T} (hactor : c.disp.actor = some actor) (hmsg : message ≠ .poisonPill)
    (h : Follows (fun op => op ≠ .stopSelf) (Unstopped log) log c) (numMsg : Nat) (src : Source) :
    (processMessage numMsg src message c).Ensures
      (Follows (fun op => op ≠ .stopSelf) (Unstopped log) log)
      (Follows (fun op => op ≠ .stopSelf) (Unstopped log) log) := by
  have rule := unstopped_following (T := T) log
  obtain ⟨context, hcontext, -⟩ := h.context
  have touched : Follows (fun op => op ≠ .stopSelf) (Unstopped log) log (c.touch context) :=
    h.touch hcontext fun hj => hj.append (by simp)
  have scheduled : ∀ d, Follows (fun op => op ≠ .stopSelf) (Unstopped log) log
      (c.apply (context.armReceiveTimeout c.rt d)) := by
    refine fun d => h.apply hcontext fun hj => hj.append fun hmem => ?_
    obtain he | ⟨handle, he⟩ := armReceiveTimeout_mem hmem <;> cases he
  refine rule.processMessage ?_
  obtain ⟨o, ho, hhandling⟩ := onMessage_handling hactor hcontext numMsg src message
  rw [ho]
  cases hhandling with
  | user | timer _ _ =>
    exact rule.callAfter .onMessage touched fun _ _ hj => hj.append (by simp)
  | stale => exact touched
  | poisonPill => exact absurd rfl hmsg
  | unset _ | failed _ _ _ => exact h
  | expired _ _ _ _ =>
    exact rule.callAfter .onSystemMessage h fun _ _ hj => hj.append (by simp)
  | early _ _ _ _ | again _ => exact scheduled _

end Cell

namespace Mailbox

/-- `done` are the messages taken out of the message queue and processed. `strict` is that
no callback calls `stop_self`. -/
structure Drawn (strict : Prop) (m : Mailbox T) (t : Task T) (done : List (Message T)) : Prop where
  accepted : accepted m.log = done ++ (t.taken ++ m.messageQueue.items)
  last : .poisonPill ∈ done → .stopSelf ∈ m.log ∧ t.taken = [] ∧
    ∃ earlier, done = earlier ++ [.poisonPill] ∧ .poisonPill ∉ earlier
  met : strict → .stopSelf ∈ m.log → .poisonPill ∈ done

variable {strict : Prop} {m m' : Mailbox T} {t t' : Task T} {done : List (Message T)}

theorem Drawn.idle (h : m.Drawn strict t done) (ht : t.busy = false) (ht' : t'.busy = false)
    {events : List (Event T)} (hlog : m'.log = m.log ++ events)
    (hevents : ∀ e ∈ events, e.sent = false)
    (hstop : strict → .stopSelf ∈ m'.log → .stopSelf ∈ m.log)
    (hqueue : m'.messageQueue.items = m.messageQueue.items) : m'.Drawn strict t' done := by
  refine ⟨?_, fun hpill => ?_, fun hs hstopped => h.met hs (hstop hs hstopped)⟩
  · rw [hlog, accepted_append, accepted_nil hevents, List.append_nil, hqueue,
      Task.taken_idle ht', h.accepted, Task.taken_idle ht]
  · obtain ⟨hstopped, -, hdone⟩ := h.last hpill
    exact ⟨by simp [hlog, hstopped], Task.taken_idle ht', hdone⟩

theorem Drawn.process (h : m.Drawn strict t done) {n : Nat} {src : Source} {msg : Message T}
    (ht : t = .looping n (.processing src msg)) (ht' : t'.busy = false)
    {events : List (Event T)} (hlog : m'.log = m.log ++ events)
    (hevents : ∀ e ∈ events, e.sent = false)
    (hunstashed : src = .unstashed → msg ≠ .poisonPill)
    (hpill : msg = .poisonPill → .stopSelf ∈ m'.log)
    (hstop : strict → msg ≠ .poisonPill → .stopSelf ∈ m'.log → .stopSelf ∈ m.log)
    (hqueue : m'.messageQueue.items = m.messageQueue.items) :
    m'.Drawn strict t' (done ++ t.taken) := by
  have haccepted : Ruactor.accepted m'.log =
      done ++ t.taken ++ (t'.taken ++ m'.messageQueue.items) := by
    rw [hlog, accepted_append, accepted_nil hevents, List.append_nil, hqueue,
      Task.taken_idle ht', h.accepted]
    simp
  subst ht
  cases src with
  | queue =>
    have hfirst : .poisonPill ∉ done := fun hmem => by
      obtain ⟨-, hnone, -⟩ := h.last hmem
      cases hnone
    refine ⟨haccepted, fun hmem => ?_, fun hs hstopped => ?_⟩
    · simp only [Task.taken, Source.taken, List.mem_append, List.mem_singleton] at hmem
      obtain rfl := (hmem.resolve_left hfirst)
      exact ⟨hpill rfl, Task.taken_idle ht', done, rfl, hfirst⟩
    · by_cases hmsg : msg = .poisonPill
      · simp [Task.taken, Source.taken, hmsg]
      · exact absurd (h.met hs (hstop hs hmsg hstopped)) hfirst
  | unstashed =>
    simp only [Task.taken, Source.taken, List.append_nil] at haccepted ⊢
    refine ⟨haccepted, fun hmem => ?_, fun hs hstopped => ?_⟩
    · obtain ⟨hstopped, -, hdone⟩ := h.last hmem
      exact ⟨by simp [hlog, hstopped], Task.taken_idle ht', hdone⟩
    · exact h.met hs (hstop hs (hunstashed rfl) hstopped)

theorem finish_unstopped {next : Task T} {o : Outcome (Cell T)} {r : TaskStep T}
    (h : m.finish next o = some r)
    (ho : o.Ensures (Cell.Follows (fun op => op ≠ .stopSelf) (Cell.Unstopped m.log) m.log)
      (Cell.Follows (fun op => op ≠ .stopSelf) (Cell.Unstopped m.log) m.log))
    (hstop : .stopSelf ∈ r.mbox.log) : .stopSelf ∈ m.log := by
  obtain ⟨c, ⟨-, _, -, hc⟩, hm, -⟩ | ⟨c, ⟨-, _, -, hc⟩, hm, -⟩ := finish_ensures h ho
  · exact hc (by simpa [hm, commit] using hstop)
  · exact hc (by simpa [hm, commit, emit] using hstop)

theorem Move.drawn {input : TaskInput T} {r : TaskStep T} (move : m.Move input t r)
    (hact : t.active = true) (hwithin : strict → Cell.Within (fun op => op ≠ .stopSelf) input.calls)
    (hphase : m.Phase t) (hhalting : m.Halting t) (hflowing : m.Flowing t)
    (h : m.Drawn strict t done) :
    ∀ t' ∈ r.next, ∃ done', r.mbox.Drawn strict t' done' := by
  obtain ⟨events, hlog, hlogs⟩ := move.logs hphase
  have hunsent : ∀ e ∈ events, e.sent = false := fun e he => (hlogs e he).unsent
  have hquiet : t.calls = false → .stopSelf ∈ r.mbox.log → .stopSelf ∈ m.log := by
    intro hcalls hstop
    rw [hlog] at hstop
    rcases List.mem_append.mp hstop with hstop | hstop
    · exact hstop
    · cases hlogs _ hstop with
      | called hcalls' _ _ _ => simp [hcalls] at hcalls'
  intro t' ht'
  cases move with
  | start hparent hf =>
    have hstop : strict → .stopSelf ∈ r.mbox.log → .stopSelf ∈ m.log := fun hs =>
      finish_unstopped hf ((Cell.unstopped_following m.log).startActor
        (createContext_follows (hwithin hs) id))
    obtain ⟨c, -, -, hm, hn, -⟩ | ⟨c, -, -, -, hn, -⟩ := finish_cases hf <;>
      rw [hn] at ht' <;> cases ht'
    exact ⟨done, h.idle rfl rfl hlog hunsent hstop (by rw [hm]; rfl)⟩
  | terminate hf =>
    obtain ⟨-, -, -, context, hcontext, -⟩ := hphase
    have hstop : strict → .stopSelf ∈ r.mbox.log → .stopSelf ∈ m.log := fun hs =>
      finish_unstopped hf ((Cell.unstopped_following m.log).terminateActor
        (fun hj => hj.append (by simp)) (cell_follows (hwithin hs) hcontext id))
    obtain ⟨c, -, -, hm, hn, -⟩ | ⟨c, -, -, -, hn, -⟩ := finish_cases hf <;>
      rw [hn] at ht' <;> cases ht'
    exact ⟨done, h.idle rfl rfl hlog hunsent hstop (by rw [hm]; rfl)⟩
  | @process n src msg r hf =>
    obtain ⟨-, -, hactor, context, hcontext, -⟩ := hphase
    obtain ⟨actor, hactor⟩ := Option.ne_none_iff_exists'.mp hactor
    have hstop : strict → msg ≠ .poisonPill → .stopSelf ∈ r.mbox.log → .stopSelf ∈ m.log :=
      fun hs hmsg => finish_unstopped hf (Cell.processMessage_unstopped (c := m.cell input) hactor
        hmsg (cell_follows (hwithin hs) hcontext id) _ _)
    have hpill : msg = .poisonPill → .stopSelf ∈ r.mbox.log := by
      rintro rfl
      have ho := Cell.processMessage_stopped (c := m.cell input) hactor hcontext
        m.numUserMessage src
      obtain ⟨c, ⟨-, _, -, hc⟩, hm, -⟩ | ⟨c, ⟨-, _, -, hc⟩, hm, -⟩ := finish_ensures hf ho
      · rw [hm]
        exact List.mem_append_right _ hc
      · rw [hm]
        exact List.mem_append_left _ (List.mem_append_right _ hc)
    have hunstashed : src = .unstashed → msg ≠ .poisonPill := by
      rintro rfl
      obtain ⟨u, rfl⟩ := hflowing.unstashed n msg rfl
      simp
    obtain ⟨c, -, -, hm, hn, -⟩ | ⟨c, -, -, -, hn, -⟩ := finish_cases hf <;>
      rw [hn] at ht' <;> cases ht'
    exact ⟨_, h.process rfl rfl hlog hunsent hunstashed hpill hstop (by rw [hm]; rfl)⟩
  | @popUser n context msg queue hopen _ _ hitems _ =>
    cases ht'
    -- the mailbox is open, so no pill has been met
    have hnone : .stopSelf ∉ m.log := fun hstop =>
      absurd (hopen.symm.trans (hhalting n rfl hstop)) (by simp)
    refine ⟨done, ?_, fun hmem => absurd (h.last hmem).1 hnone, fun _ hstop => absurd hstop hnone⟩
    rw [h.accepted, hitems]
    rfl
  | popUnstashed _ _ _ =>
    cases ht'
    exact ⟨done, h.accepted, h.last, h.met⟩
  | dead _ =>
    cases ht'
    exact ⟨done, h.idle rfl rfl hlog hunsent (fun _ => id) rfl⟩
  | childUnwind _ | closingUnwind _ | userUnwind _ _ => cases ht'
  | someUser _ | noUser _ | accepting _ | closed _ | someInternal _ | done _ => cases hact
  | _ =>
    cases ht'
    exact ⟨done, h.idle rfl rfl hlog hunsent (fun _ => hquiet rfl) rfl⟩

theorem Env.drawn (henv : m.Env m') (h : m.Drawn strict t done) : m'.Drawn strict t done := by
  have hstop := henv.stopSelf
  refine ⟨?_, fun hmem => ?_, fun hs hstopped => h.met hs (hstop.mp hstopped)⟩
  · cases henv with
    | pushed _ hitems =>
      rw [accepted_append, h.accepted, hitems]
      simp [Ruactor.accepted]
    | same | tick _ => exact h.accepted
    | rejected _ | watchReturned _ _ | pushedInternal _ =>
      simpa [emit, pushInternal, Ruactor.accepted] using h.accepted
  · exact (h.last hmem).imp_left hstop.mpr

end Mailbox

namespace Node

theorem halting_flowing_of_mem {nd : Node T} (h : (machine path option parent).Reachable nd) :
    ∀ t ∈ nd.tasks, t.active = true →
      nd.mbox.Phase t ∧ nd.mbox.Halting t ∧ nd.mbox.Flowing t := fun t ht hact =>
  ⟨(reachable_phase h).loc t ht hact, halting_of_mem h ht, (reachable_flowing h).loc t ht hact⟩

theorem drawn_owned (strict : Prop) : Owned path option parent
    (fun _ _ input => strict → Cell.Within (fun op => op ≠ .stopSelf) input.calls)
    (fun (m : Mailbox T) t => m.Phase t ∧ m.Halting t ∧ m.Flowing t)
    (fun m t => ∃ done, m.Drawn strict t done) (fun m => ∃ done, m.Drawn strict .storing done)
    (fun _ => True) where
  start := ⟨⟨[], rfl, nofun, fun _ => nofun⟩, trivial⟩
  env henv := by
    refine ⟨id, Exists.imp fun done h => henv.drawn h, fun t _ => Exists.imp fun done h => ?_⟩
    exact henv.drawn h
  acquire _ := ⟨id, Exists.imp fun _ h => ⟨h.accepted, h.last, h.met⟩⟩
  move {m input t r} move hact hwithin base h _ := by
    obtain ⟨done, h⟩ := h
    refine ⟨trivial, fun t' ht' =>
      ⟨fun _ => move.drawn hact hwithin base.1 base.2.1 base.2.2 h t' ht', ?_⟩⟩
    rintro rfl
    cases move
    exact ⟨done, h.accepted, h.last, h.met⟩

def fullFor (nd : Node T) : Client T → Bool
  | .pushing (.autoMessage .poisonPill) _ => nd.mbox.messageQueue.full
  | _ => false

/-- No callback panics outside `catch_unwind`, and no pill meets a full message queue. -/
def roomy (nd : Node T) : Action T → Prop
  | .client i => (nd.clients[i]?).any nd.fullFor = false
  | a => calm nd a

instance (nd : Node T) (a : Action T) : Decidable (roomy nd a) :=
  match a with
  | .client _ => inferInstanceAs (Decidable (_ = false))
  | .task i input => inferInstanceAs (Decidable (calm nd (.task i input)))
  | .call _ | .deliver _ | .tick _ => isTrue trivial

theorem roomy_calm (nd : Node T) (a : Action T) (ok : roomy nd a) : calm nd a := by
  cases a with
  | client i => trivial
  | _ => exact ok

/-- Messages that meet no full message queue are turned down by a closed mailbox only. -/
theorem rejected_closed {ok : Node T → Action T → Prop} {p : Message T → Prop}
    (hroom : ∀ {nd i msg watch}, ok nd (.client i) →
      nd.clients[i]? = some (.pushing msg watch) → p msg → nd.mbox.messageQueue.full = false)
    {nd : Node T} (h : (machine path option parent).Reach ok nd) :
    ∀ msg, p msg → .rejected msg ∈ nd.mbox.log → nd.mbox.terminated = true := by
  refine h.invariant (P := fun nd : Node T => ∀ msg, p msg → .rejected msg ∈ nd.mbox.log →
    nd.mbox.terminated = true) (fun _ _ hmem => absurd hmem List.not_mem_nil)
    fun {nd nd' a} hr hs allowed hstep msg hmsg hrejected => ?_
  cases step_move hstep with
  | call | tick => exact hs msg hmsg hrejected
  | deliver => exact hs msg hmsg (by simpa [Node.deliver, Mailbox.pushInternal] using hrejected)
  | schedule _ _ | reschedule _ _ =>
    rw [schedule_terminated]
    rw [schedule_log] at hrejected
    exact hs msg hmsg hrejected
  | access hi _ hacc =>
    rw [hacc.env.terminated]
    cases hacc with
    | refuse hclosed => exact hclosed
    | @full msg' watch hfull =>
      rcases List.mem_append.mp hrejected with hold | hnew
      · exact hs msg hmsg hold
      · obtain rfl : msg = msg' := Event.rejected.inj (List.mem_singleton.mp hnew)
        exact absurd (MessageQueue.full_eq_false.mp (hroom allowed hi hmsg)) hfull
    | accept _ | watch _ => exact hs msg hmsg hrejected
    | _ => exact hs msg hmsg (by simpa [Mailbox.emit, Mailbox.pushInternal] using hrejected)
  | @task i input before t after r hi _ hr' _ =>
    have move := Mailbox.taskStep_move hr'
    obtain ⟨events, hlog, hlogs⟩ := move.logs (phase_of_mem hr.reachable (List.mem_of_getElem? hi))
    have hold : .rejected msg ∈ nd.mbox.log := by
      have hmem : .rejected msg ∈ nd.mbox.log ++ events := hlog ▸ hrejected
      exact (List.mem_append.mp hmem).resolve_right fun hnew => by cases (hlogs _ hnew).unsent
    exact move.flag.elim (fun hsame => hsame.trans (hs msg hmsg hold)) id

/-- Where nothing runs and no message waits, a `stop_self` has closed the mailbox. -/
theorem stopSelf_closed {nd : Node T} (h : (machine path option parent).Reach calm nd)
    (hq : Quiescent nd) (hstop : .stopSelf ∈ nd.mbox.log) : nd.mbox.terminated = true := by
  have hcovered := reach_covered (calm_reach h)
  have hpushed : .pushedInternal .terminate ∈ nd.mbox.log := by
    refine (reachable_urged h.reachable hstop).resolve_left fun hown => ?_
    obtain ⟨t, ht, -⟩ := hcovered.held (reachable_occupied h.reachable ⟨_, hown, rfl⟩)
    simp [hq.1] at ht
  rcases reachable_asked h.reachable hpushed with hclosed | hqueue | ⟨n, hhand⟩
  · exact hclosed
  · simp [hcovered.internal_nil hq] at hqueue
  · simp [hq.1] at hhand

theorem reach_drawn (strict : Prop) {nd : Node T}
    (h : (machine path option parent).Reach (fun nd a => calm nd a ∧ okTask (fun _ _ input =>
      strict → Cell.Within (fun op => op ≠ .stopSelf) input.calls) nd a) nd) :
    ∃ t done, nd.mbox.Drawn strict t done ∧ nd.mbox.Stored t ∧ nd.mbox.Flowing t ∧
      (nd.tasks = [] → t = .storing) := by
  have hdrawn := (drawn_owned strict).reach halting_flowing_of_mem (h.mono fun _ _ ok => ok.2)
  have hstored := stored_owned.reachable (fun h => (reachable_phase h).loc) h.reachable
  have hflowing := reachable_flowing h.reachable
  cases hrun : nd.mbox.running with
  | false =>
    obtain ⟨done, hdone⟩ := hdrawn.rest hrun
    exact ⟨.storing, done, hdone, hstored.rest hrun, hflowing.rest hrun, fun _ => rfl⟩
  | true =>
    obtain ⟨t, ht, hact⟩ :=
      (reach_covered (calm_reach (h.mono fun _ _ ok => ok.1))).held hrun
    obtain ⟨done, hdone⟩ := hdrawn.loc t ht hact
    exact ⟨t, done, hdone, hstored.loc t ht hact, hflowing.loc t ht hact,
      fun hnone => by simp [hnone] at ht⟩

/-- A pill that has been sent closes the mailbox, unless it met a full queue. -/
theorem graceful_stop_effect {nd : Node T} (h : (machine path option parent).Reach roomy nd)
    (hq : Quiescent nd)
    (hsent : .pushed .poisonPill ∈ nd.mbox.log ∨ .rejected .poisonPill ∈ nd.mbox.log) :
    nd.mbox.terminated = true := by
  have hcalm := h.mono roomy_calm
  rcases hsent with hpushed | hrejected
  · obtain ⟨t, done, hdrawn, -, -, hidle⟩ := reach_drawn False
      (hcalm.mono fun _ a ok => ⟨ok, by cases a <;> simp [okTask]⟩)
    obtain rfl := hidle hq.1
    have hmem := mem_accepted.mpr hpushed
    rw [hdrawn.accepted] at hmem
    rcases List.mem_append.mp hmem with hdone | hwaits
    · exact stopSelf_closed hcalm hq (hdrawn.last hdone).1
    · by_contra hopen
      have hempty := (reach_covered (calm_reach hcalm)).user_nil hq (by simpa using hopen)
      simp [Task.taken, hempty] at hwaits
  · have hroom : ∀ {nd : Node T} {i msg watch}, roomy nd (.client i) →
        nd.clients[i]? = some (.pushing msg watch) → msg = .poisonPill →
        nd.mbox.messageQueue.full = false := by
      rintro nd i _ watch ok hi rfl
      simpa [roomy, hi, fullFor] using ok
    exact rejected_closed (p := fun msg => msg = .poisonPill) hroom h _ rfl hrejected

/-- A pill is sent between two messages. The watcher 9 waits for the end. -/
def pillRun : List (Action Nat) :=
  sending (.user 1) ++ [.call (.gracefulStop 9), .client 0, .client 0, .client 0] ++
    [.call (.send (.user 2)), .client 1, .client 1, .client 1, .client 0, .client 0, .client 0] ++
    callbacks [⟨.create, [], false⟩, ⟨.onEnter, [], false⟩] ++ turns 5 ++
    callbacks [⟨.onMessage, [], false⟩] ++ turns 5 ++ [.client 0, .client 0] ++ turns 5 ++
    callbacks [⟨.onExit, [], false⟩] ++ turns 8

def pillNode : Node Nat := (sample.exec sample.start pillRun).get (by decide +kernel)

theorem pillNode_run : sample.exec sample.start pillRun = some pillNode :=
  (Option.some_get _).symm

theorem graceful_stop_effect_pill : pillNode.mbox.terminated = true :=
  graceful_stop_effect (Reach.exec .start (by decide +kernel) pillNode_run) (by decide +kernel)
    (.inl (by decide +kernel))

abbrev narrow : Machine (Node Nat) (Action Nat) :=
  machine ⟨["user", "a"]⟩ { bounded := some 1 } .guard

/-- The pill meets a queue that one message fills. -/
def crowdedRun : List (Action Nat) :=
  sending (.user 1) ++ .call (.gracefulStop 9) :: List.replicate 5 (.client 0) ++
    callbacks [⟨.create, [], false⟩, ⟨.onEnter, [], false⟩] ++ turns 5 ++
    callbacks [⟨.onMessage, [], false⟩] ++ turns 7

def crowdedNode : Node Nat := (narrow.exec narrow.start crowdedRun).get (by decide +kernel)

/-- The pill is gone, and the watcher waits for an actor that lives on. -/
theorem crowded_not_stopped :
    narrow.Reach calm crowdedNode ∧ Quiescent crowdedNode ∧
      .rejected .poisonPill ∈ crowdedNode.mbox.log ∧ crowdedNode.mbox.terminated = false ∧
      crowdedNode.mbox.dispatcher.watcher = [9] :=
  ⟨Reach.exec .start (by decide +kernel) (Option.some_get _).symm, by decide +kernel,
    by decide +kernel, by decide +kernel, by decide +kernel⟩

end Node

end Ruactor
