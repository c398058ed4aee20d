import Ruactor.Handing
import Ruactor.SelfStop

/-!
# How soon a stop takes effect

Between two messages of the actor the task goes through the internal queue. A `Terminate` is
found there before the next message is taken, unless the task has just looked: then one more
message is handled, and no other.
-/

namespace Ruactor

open Machine History

variable {T : Type} {path : ActorPath} {option : PropsOption} {parent : ParentRef}

def Event.halts : Event T → Bool
  | .pushedInternal .terminate => true
  | _ => false

def Event.selfStops : Event T → Bool
  | .stopSelf => true
  | _ => false

/-- The messages that are handled after the first `Terminate` was pushed. -/
def overtaken (log : List (Event T)) : Nat := countSince Event.halts Event.handles log

/-- The next message of the actor is in hand, or will be without another look at the internal
queue. -/
def Task.ahead : Task T → Bool
  | .looping _ .popUser | .looping _ (.processing _ _) => true
  | _ => false

namespace Cell

/-- At most one message was handed to an actor in this step, and none after a `stop_self`. -/
structure Once (_ : Setting) (_ : ActorContext T) (events : List (Event T)) : Prop where
  count : events.countP Event.handles ≤ 1
  before : Lawful (Never Event.selfStops Event.handles) events

theorem Once.append {s s' : Setting} {context context' : ActorContext T}
    {events more : List (Event T)} (h : Once s context events)
    (hmore : ∀ e ∈ more, e.handles = false) : Once s' context' (events ++ more) where
  count := by
    have hnone : more.countP Event.handles = 0 :=
      List.countP_eq_zero.mpr fun e he => by simp [hmore e he]
    rw [List.countP_append, hnone]
    exact h.count
  before := h.before.append_of_mem fun e he _ hhandles => by simp [hmore e he] at hhandles

/-- The first thing that happens is that the message is handed over. -/
theorem Once.first {s : Setting} {context : ActorContext T} {events : List (Event T)} {e : Event T}
    (hhandles : ∀ e' ∈ events, e'.handles = false)
    (hstops : ∀ e' ∈ events, e'.selfStops = false) : Once s context (events ++ [e]) where
  count := by
    have hnone : events.countP Event.handles = 0 :=
      List.countP_eq_zero.mpr fun e' he' => by simp [hhandles e' he']
    rw [List.countP_append, hnone, Nat.zero_add]
    exact List.countP_le_length
  before := by
    have hevents : Lawful (Never Event.selfStops Event.handles) events := by
      refine List.nil_append events ▸ lawful_nil.append_of_mem fun e' he' _ h => ?_
      simp [hhandles e' he'] at h
    exact hevents.snoc fun _ => hstops

theorem once_following : Following (T := T) (fun _ => True) Once where
  op _ _ h := h.append ContextOp.apply_handles
  event {s e context events} he h := h.append fun e' he' => by
    obtain rfl := List.mem_singleton.mp he'
    cases e' <;> first | rfl | cases he
  created h := h.append (by simp [Event.handles, Event.receiver])
  actor h := ⟨h.count, h.before⟩

theorem processMessage_once {c : Cell T} {context : ActorContext T} {actor : InstanceId}
    (hactor : c.disp.actor = some actor) (hcontext : c.disp.context = some context)
    (hlog : c.log = []) (numMsg : Nat) (src : Source) (message : Message T) :
    (processMessage numMsg src message c).Ensures (Follows (fun _ => True) Once [])
      (Follows (fun _ => True) Once []) := by
  have rule := once_following (T := T)
  have start : ∀ {c' : Cell T} {context' : ActorContext T}, c'.disp.context = some context' →
      (∀ e ∈ c'.log, e.handles = false) → Follows (fun _ => True) Once [] c' := by
    intro c' context' hcontext' hnone
    refine ⟨fun _ _ _ _ => trivial, context', hcontext', ?_⟩
    have hempty : Once c'.setting context' [] := ⟨Nat.zero_le 1, lawful_nil⟩
    exact hempty.append hnone
  obtain ⟨htouch, hsame, -⟩ := touch_same context c
  have touched : Follows (fun _ => True) Once [] (c.touch context) :=
    start (hsame.trans hcontext) (by simp [htouch, hlog, Event.handles, Event.receiver])
  refine rule.processMessage ?_
  obtain ⟨o, ho, hhandling⟩ := onMessage_handling hactor hcontext numMsg src message
  rw [ho]
  cases hhandling with
  | user | timer _ _ =>
    refine rule.callAfter .onMessage touched fun _ _ _ => .first ?_ ?_ <;>
      simp [htouch, hlog, Event.handles, Event.receiver, Event.selfStops]
  | stale => exact touched
  | poisonPill =>
    exact start rfl (by simp [Cell.apply, hlog, Event.handles, Event.receiver,
      ActorContext.stopSelf])
  | unset _ | failed _ _ _ => exact start hcontext (by simp [hlog])
  | expired _ _ _ _ =>
    refine rule.callAfter .onSystemMessage (start hcontext (by simp [hlog]))
      fun _ _ _ => .first ?_ ?_ <;> simp [hlog]
  | early _ _ _ _ | again _ =>
    refine start rfl fun e he => ?_
    simp only [Cell.apply, hlog, List.nil_append] at he
    obtain rfl | ⟨handle, rfl⟩ := armReceiveTimeout_mem he <;> rfl

end Cell

namespace Mailbox

variable {m m' : Mailbox T} {t : Task T}

/-- Whether one more message may be handled before the internal queue is looked at. -/
def lead (m : Mailbox T) (t : Task T) : Nat := if t.ahead && !m.terminated then 1 else 0

theorem lead_le (m : Mailbox T) (t : Task T) : m.lead t ≤ 1 := by
  simp only [lead]
  split <;> omega

theorem lead_idle (m : Mailbox T) (h : t.ahead = false) : m.lead t = 0 := by
  simp [lead, h]

theorem lead_closed (t : Task T) (h : m.terminated = true) : m.lead t = 0 := by
  simp [lead, h]

/-- A `Terminate` that was pushed waits, or is in hand, or has closed the mailbox. -/
def Asked (m : Mailbox T) (t : Task T) : Prop :=
  .pushedInternal .terminate ∈ m.log → m.terminated = true ∨ .terminate ∈ m.internalQueue ∨
    ∃ n, t = .looping n (.internalMessage .terminate)

theorem overtaken_unasked {log : List (Event T)} (h : .pushedInternal .terminate ∉ log) :
    overtaken log = 0 := by
  refine countSince_eq_zero ?_
  rw [List.any_eq_false]
  intro e he hhalts
  cases e with
  | pushedInternal msg => cases msg <;> first | exact h he | cases hhalts
  | _ => cases hhalts

theorem process_once {input : TaskInput T} {n : Nat} {src : Source} {msg : Message T}
    {r : TaskStep T} {events : List (Event T)} (hphase : m.Phase (.looping n (.processing src msg)))
    (hf : m.finish (.looping n .processed)
      ((m.cell input).processMessage m.numUserMessage src msg) = some r)
    (hlog : r.mbox.log = m.log ++ events) : events.countP Event.handles ≤ 1 ∧
      Lawful (Never Event.selfStops Event.handles) events := by
  obtain ⟨-, -, hactor, context, hcontext, -⟩ := hphase
  obtain ⟨actor, hactor⟩ := Option.ne_none_iff_exists'.mp hactor
  have honce := Cell.processMessage_once (c := m.cell input) hactor hcontext rfl
    m.numUserMessage src msg
  obtain ⟨c, ⟨-, context', -, hc⟩, rfl⟩ | ⟨c, ⟨-, context', -, hc⟩, rfl⟩ :=
    finish_events hf honce hlog
  · exact ⟨hc.count, hc.before⟩
  · have hunwound : Cell.Once c.setting context' ([] ++ c.log ++ [.unwound]) :=
      hc.append (by simp [Event.handles, Event.receiver])
    exact ⟨hunwound.count, hunwound.before⟩

theorem Move.overtakes {input : TaskInput T} {r : TaskStep T} (move : m.Move input t r)
    (hphase : m.Phase t) (hasked : m.Asked t) (h : overtaken m.log + m.lead t ≤ 1) :
    overtaken r.mbox.log ≤ 1 ∧ ∀ t' ∈ r.next, overtaken r.mbox.log + r.mbox.lead t' ≤ 1 := by
  obtain ⟨events, hlog⟩ := move.log
  have unhandled : (∀ n src msg, t ≠ .looping n (.processing src msg)) →
      overtaken r.mbox.log = overtaken m.log := by
    intro hbusy
    rw [hlog]
    exact countSince_later _ (move.unhandled hphase hbusy hlog)
  have still : (∀ n src msg, t ≠ .looping n (.processing src msg)) →
      (∀ t' ∈ r.next, t'.ahead = false) →
      overtaken r.mbox.log ≤ 1 ∧ ∀ t' ∈ r.next, overtaken r.mbox.log + r.mbox.lead t' ≤ 1 := by
    intro hbusy hnext
    rw [unhandled hbusy]
    exact ⟨by omega, fun t' ht' => by rw [lead_idle _ (hnext t' ht')]; omega⟩
  cases move with
  | @process n src msg r hf =>
    have hcount := (process_once hphase hf hlog).1
    have hlead : m.lead (.looping n (.processing src msg)) = 1 := by
      simp [lead, Task.ahead, hphase.1]
    have hle : overtaken r.mbox.log ≤ 1 := by
      have happend : overtaken r.mbox.log ≤ overtaken m.log + events.countP Event.handles := by
        rw [hlog]
        exact countSince_append_le _ _
      omega
    refine ⟨hle, fun t' ht' => ?_⟩
    have hprocessed : t' = .looping n .processed := by
      obtain ⟨_, -, -, -, hn, -⟩ | ⟨_, -, -, -, hn, -⟩ := finish_cases hf
      · exact Option.some.inj (ht'.symm.trans hn)
      · cases ht'.symm.trans hn
    rw [hprocessed, lead_idle _ rfl]
    exact hle
  | @popNone n hnone =>
    -- the internal queue is empty, so no `Terminate` waits
    change overtaken m.log ≤ 1 ∧ ∀ t' ∈ some (Task.looping n .popUser),
      overtaken m.log + m.lead t' ≤ 1
    refine ⟨by omega, ?_⟩
    rintro t' ⟨⟩
    by_cases hpushed : .pushedInternal .terminate ∈ m.log
    · have hclosed : m.terminated = true := by
        rcases hasked hpushed with hclosed | hqueue | ⟨n', hhand⟩
        · exact hclosed
        · rcases hnone with hnone | hempty
          · rcases hphase with hlive | hgone
            · obtain ⟨context, hcontext, -⟩ := hlive.context
              exact absurd (hnone.symm.trans hcontext) (by simp)
            · exact hgone.closed
          · simp [hempty] at hqueue
        · cases hhand
      rw [lead_closed _ hclosed]
      omega
    · rw [overtaken_unasked hpushed]
      exact (Nat.zero_add _).le.trans (lead_le _ _)
  | popUnstashed hopen _ _ | popUser hopen _ _ _ _ =>
    have hsame := unhandled fun _ _ _ hbusy => by cases hbusy
    refine ⟨by rw [hsame]; omega, ?_⟩
    rintro t' ⟨⟩
    rw [hsame]
    exact (Nat.add_le_add_left (by simp [lead, Task.ahead, hopen, withContext]) _).trans h
  | start _ hf | terminate hf =>
    refine still (fun _ _ _ hbusy => by cases hbusy) fun t' ht' => ?_
    obtain ⟨_, -, -, -, hn, -⟩ | ⟨_, -, -, -, hn, -⟩ := finish_cases hf <;>
      cases ht'.symm.trans hn
    rfl
  | done _ | childUnwind _ | closingUnwind _ | userUnwind _ _ =>
    exact still (fun _ _ _ hbusy => by cases hbusy) fun _ hnone => by cases hnone
  | _ =>
    refine still (fun _ _ _ hbusy => by cases hbusy) ?_
    rintro t' ⟨⟩
    rfl

theorem Env.overtakes (henv : m.Env m') (h : overtaken m.log + m.lead t ≤ 1) :
    overtaken m'.log + m'.lead t ≤ 1 := by
  obtain ⟨events, hlog, houter⟩ := henv.outer
  have hsame : overtaken m'.log = overtaken m.log := by
    rw [hlog]
    refine countSince_later _ fun e he => ?_
    have ho := houter e he
    cases e <;> first | rfl | cases ho
  rw [hsame, lead, henv.terminated]
  exact h

theorem Move.stopsSelf_last {input : TaskInput T} {r : TaskStep T} (move : m.Move input t r)
    (hphase : m.Phase t) (hhalting : m.Halting t)
    (hbusy : t.busy = true → .stopSelf ∉ m.log)
    (h : Lawful (Never Event.selfStops Event.handles) m.log) :
    Lawful (Never Event.selfStops Event.handles) r.mbox.log ∧
      ∀ t' ∈ r.next, t'.busy = true → .stopSelf ∉ r.mbox.log := by
  obtain ⟨events, hlog⟩ := move.log
  have still : (∀ n src msg, t ≠ .looping n (.processing src msg)) →
      (∀ t' ∈ r.next, t'.busy = false) → Lawful (Never Event.selfStops Event.handles) r.mbox.log ∧
        ∀ t' ∈ r.next, t'.busy = true → .stopSelf ∉ r.mbox.log := by
    intro hidle hnext
    have hunhandled := move.unhandled hphase hidle hlog
    refine ⟨?_, fun t' ht' hbusy' => absurd (hbusy'.symm.trans (hnext t' ht')) nofun⟩
    rw [hlog]
    exact h.append_of_mem fun e he _ hhandles => by simp [hunhandled e he] at hhandles
  cases move with
  | @process n src msg r hf =>
    obtain ⟨-, hlaw⟩ := process_once hphase hf hlog
    refine ⟨?_, fun t' ht' hbusy' => ?_⟩
    · rw [hlog]
      refine h.append fun before e after heq hhandles e' he' => ?_
      rcases List.mem_append.mp he' with hold | hnew
      · cases e' <;> first | rfl | exact absurd hold (hbusy rfl)
      · exact hlaw before e after heq hhandles e' hnew
    · obtain ⟨_, -, -, -, hn, -⟩ | ⟨_, -, -, -, hn, -⟩ := finish_cases hf <;>
        cases ht'.symm.trans hn
      cases hbusy'
  | @popUnstashed n _ _ _ hopen _ _ | @popUser n _ _ _ hopen _ _ _ _ =>
    have hunstopped : .stopSelf ∉ m.log := fun hstop => by
      cases hopen.symm.trans (hhalting n rfl hstop)
    exact ⟨h, fun _ _ _ => hunstopped⟩
  | start _ hf | terminate hf =>
    refine still (fun _ _ _ hbusy => by cases hbusy) fun t' ht' => ?_
    obtain ⟨_, -, -, -, hn, -⟩ | ⟨_, -, -, -, hn, -⟩ := finish_cases hf <;>
      cases ht'.symm.trans hn
    rfl
  | done _ | childUnwind _ | closingUnwind _ | userUnwind _ _ =>
    exact still (fun _ _ _ hbusy => by cases hbusy) fun _ hnone => by cases hnone
  | _ =>
    refine still (fun _ _ _ hbusy => by cases hbusy) ?_
    rintro t' ⟨⟩
    rfl

end Mailbox

namespace Node

theorem stopsSelf_owned : Owned path option parent anyTask
    (fun (m : Mailbox T) t => m.Phase t ∧ m.Halting t)
    (fun m t => t.busy = true → .stopSelf ∉ m.log) (fun _ => True)
    (fun m => Lawful (Never Event.selfStops Event.handles) m.log) where
  start := ⟨trivial, lawful_nil⟩
  env henv := by
    refine ⟨fun h => ?_, id, fun t _ h hbusy hstop => h hbusy (henv.stopSelf.mp hstop)⟩
    obtain ⟨events, hlog, houter⟩ := henv.outer
    rw [hlog]
    refine h.append_of_mem fun e he _ hhandles => ?_
    have ho := houter e he
    have hnone : e.handles = false := by cases e <;> first | rfl | cases ho
    simp [hnone] at hhandles
  acquire _ := ⟨id, fun _ => nofun⟩
  move move _ _ hbase hbusy h := by
    obtain ⟨hlaw, hnext⟩ := move.stopsSelf_last hbase.1 hbase.2 hbusy h
    exact ⟨hlaw, fun t' ht' => ⟨fun _ => hnext t' ht', fun _ => trivial⟩⟩

theorem reachable_stopsSelf {nd : Node T} (h : (machine path option parent).Reachable nd) :
    Lawful (Never Event.selfStops Event.handles) nd.mbox.log :=
  (stopsSelf_owned.reachable (fun h _ ht _ => ⟨phase_of_mem h ht, halting_of_mem h ht⟩) h).inv

theorem asked_of_mem {nd : Node T} (h : (machine path option parent).Reachable nd) :
    ∀ t ∈ nd.tasks, t.active = true → nd.mbox.Phase t ∧ nd.mbox.Asked t := by
  intro t ht hact
  refine ⟨phase_of_mem h ht, fun hpushed => ?_⟩
  rcases reachable_asked h hpushed with hclosed | hqueue | ⟨n, hhand⟩
  · exact .inl hclosed
  · exact .inr (.inl hqueue)
  · -- the task that has the message in hand is the one that runs
    obtain ⟨before, after, hs⟩ := List.append_of_mem ht
    have hothers := ((reach_exclusive h).alone hs hact).2
    by_cases hsame : t = .looping n (.internalMessage .terminate)
    · exact .inr (.inr ⟨n, hsame⟩)
    · have hmem : .looping n (.internalMessage .terminate) ∈ before ++ after := by
        simp only [hs, List.mem_append, List.mem_cons] at hhand ⊢
        tauto
      cases hothers _ hmem

theorem overtaken_owned : Owned path option parent anyTask
    (fun (m : Mailbox T) t => m.Phase t ∧ m.Asked t)
    (fun m t => overtaken m.log + m.lead t ≤ 1) (fun m => overtaken m.log ≤ 1)
    (fun m => overtaken m.log ≤ 1) where
  start := ⟨Nat.zero_le 1, Nat.zero_le 1⟩
  env {m m'} henv := by
    have rested : overtaken m.log ≤ 1 → overtaken m'.log ≤ 1 := fun h => by
      have hidle : overtaken m.log + m.lead .storing ≤ 1 := h
      have := henv.overtakes hidle
      omega
    exact ⟨rested, rested, fun t _ => henv.overtakes⟩
  acquire _ := ⟨id, id⟩
  move move _ _ hbase h _ := by
    obtain ⟨hle, hnext⟩ := move.overtakes hbase.1 hbase.2 h
    exact ⟨hle, fun t' ht' => ⟨fun _ => hnext t' ht', fun _ => hle⟩⟩

/-- In every run: after a `Terminate` was pushed, and so after a call of `stop`, the actor
handles one message more at the most, however many wait in its queue. After it has called
`stop_self` it handles none. -/
theorem stop_overtakes {nd : Node T} (h : (machine path option parent).Reachable nd) :
    (∀ before after, nd.mbox.log = before ++ .pushedInternal .terminate :: after →
      after.countP Event.handles ≤ 1) ∧
    ∀ before after, nd.mbox.log = before ++ .stopSelf :: after →
      ∀ e ∈ after, e.handles = false :=
  ⟨fun _ _ hlog =>
      (countP_le_countSince hlog rfl).trans (overtaken_owned.reachable asked_of_mem h).inv,
    fun _ _ hlog => (reachable_stopsSelf h).never hlog rfl⟩

/-- Three messages wait, and the actor is stopped when the first one is in hand. -/
def overtakingRun : List (Action Nat) :=
  sending (.user 1) ++ sending (.user 2) ++ sending (.user 3) ++
    callbacks [⟨.create, [], false⟩, ⟨.onEnter, [], false⟩] ++ turns 3 ++ stopping ++
    callbacks [⟨.onMessage, [], false⟩] ++ turns 5 ++ callbacks [⟨.onExit, [], false⟩] ++ turns 5

def overtakingNode : Node Nat := (sample.exec sample.start overtakingRun).get (by decide +kernel)

theorem overtakingNode_run : sample.exec sample.start overtakingRun = some overtakingNode :=
  (Option.some_get _).symm

theorem stop_overtakes_waiting :
    (handed overtakingNode.mbox.log = [.user 1] ∧
      overtakingNode.mbox.messageQueue.items = [.user 2, .user 3]) ∧
    ∀ before after, overtakingNode.mbox.log = before ++ .pushedInternal .terminate :: after →
      after.countP Event.handles ≤ 1 :=
  ⟨by decide +kernel, (stop_overtakes (Reach.exec_reachable .start overtakingNode_run)).1⟩

end Node

end Ruactor
