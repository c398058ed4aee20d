import Ruactor.Handing

/-!
# What timers and timeouts depend on

Of a context only the fields of the timers count, of the log only the events that name a
timer, a timeout or an alarm. A relation between the two that the operations keep is kept
by every step but those that process a message.
-/

namespace Ruactor

open Machine

variable {T : Type} {path : ActorPath} {option : PropsOption} {parent : ParentRef}

def Event.timed : Event T → Bool
  | .received _ | .timerDelivered _ _ _ _ _ | .systemDelivered _ _ _ | .timerStarted _ _
  | .timerFailed _ _ | .timerCancelled _ | .timeoutSet _ _ | .timeoutCancelled
  | .afterFunc _ _ _ => true
  | _ => false

namespace ActorContext

/-- The two contexts have the same timers and the same timeout. -/
structure SameTimers (c c' : ActorContext T) : Prop where
  timer : c'.timer = c.timer
  timerGen : c'.timerGen = c.timerGen
  receiveTimeout : c'.receiveTimeout = c.receiveTimeout
  scheduled : c'.scheduledReceiveTimeout = c.scheduledReceiveTimeout

theorem SameTimers.refl (c : ActorContext T) : c.SameTimers c := ⟨rfl, rfl, rfl, rfl⟩

end ActorContext

namespace Cell

def Setting.issue (s : Setting) : Setting :=
  { s with rt := { s.rt with handles := s.rt.handles + 1 } }

/-- `J` relates a context and its setting to the log. -/
structure Timed (J : Setting → ActorContext T → List (Event T) → Prop) : Prop where
  start : ∀ {s context log} name d msg, J s context log →
    J s.issue
      { context.nextTimerGen.2 with
        timer := context.timer.insert name ⟨context.timerGen, s.rt.handles⟩ }
      (log ++ [.timerStarted name context.timerGen, .afterFunc s.rt.handles (s.rt.clock + d)
        (.timer name context.timerGen msg s.rt.handles)])
  startFailed : ∀ {s context log} name, J s context log →
    J s context.nextTimerGen.2 (log ++ [.timerFailed name context.timerGen])
  cancel : ∀ {s context log} name, J s context log →
    J s { context with timer := context.timer.erase name } (log ++ [.timerCancelled name])
  set : ∀ {s context log} d, J s context log →
    J s.issue
      { context with receiveTimeout := some d, scheduledReceiveTimeout := some s.rt.handles }
      (log ++ [.timeoutSet d s.rt.clock, .afterFunc s.rt.handles (s.rt.clock + d)
        (.receiveTimeout (s.rt.clock + d) s.rt.handles)])
  setFailed : ∀ {s context log} d, Instant.limit ≤ s.rt.clock + d → J s context log →
    J s { context with receiveTimeout := some d } (log ++ [.timeoutSet d s.rt.clock])
  unset : ∀ {s context log}, J s context log →
    J s { context with receiveTimeout := none, scheduledReceiveTimeout := none }
      (log ++ [.timeoutCancelled])
  untimed : ∀ {s context log e}, e.timed = false → J s context log → J s context (log ++ [e])
  same : ∀ {s s' context context' log}, J s context log → context.SameTimers context' →
    s'.stamp = s.stamp → s.rt.clock ≤ s'.rt.clock → s'.rt.handles = s.rt.handles →
    J s' context' log

variable {J : Setting → ActorContext T → List (Event T) → Prop}

/-- The alarm of a call of `schedule_receive_timeout`. -/
def Setting.rearm (s : Setting) (context : ActorContext T) (d : Duration) :
    ActorContext T × Event T :=
  ({ context with scheduledReceiveTimeout := some s.rt.handles },
    .afterFunc s.rt.handles (s.rt.clock + d) (.receiveTimeout (s.rt.clock + d) s.rt.handles))

/-- The branches of `onMessage` keep the relation. -/
structure Processing (J : Setting → ActorContext T → List (Event T) → Prop) (s : Setting)
    (context : ActorContext T) (log : List (Event T)) (numMsg : Nat) (message : Message T) :
    Prop where
  received : (∀ exp handle, message ≠ .receiveTimeout exp handle) →
    J (s.touched context) context (log ++ [.received s.rt.clock])
  pill : message = .autoMessage .poisonPill → J s context (log ++ [.stopSelf])
  unset : ∀ exp handle, message = .receiveTimeout exp handle → context.receiveTimeout = none →
    J s context log
  timer : ∀ actor key gen msg handle info, message = .timer key gen msg handle →
    context.timer.lookup key = some info → info.gen = gen →
    J (s.touched context) context
      (log ++ [.received s.rt.clock] ++ [.timerDelivered actor key gen msg handle])
  expired : ∀ actor exp handle tmout, message = .receiveTimeout exp handle →
    context.receiveTimeout = some tmout → numMsg = 0 → s.stamp < exp → tmout ≤ exp - s.stamp →
    J s context (log ++ [.systemDelivered actor .receiveTimeout s.rt.clock])
  early : ∀ exp handle tmout, message = .receiveTimeout exp handle →
    context.receiveTimeout = some tmout → numMsg = 0 → s.stamp < exp → exp - s.stamp < tmout →
    J s.issue (s.rearm context (s.stamp + tmout - s.rt.clock)).1
      (log ++ [(s.rearm context (s.stamp + tmout - s.rt.clock)).2])
  again : ∀ tmout, context.receiveTimeout = some tmout →
    J s.issue (s.rearm context tmout).1 (log ++ [(s.rearm context tmout).2])
  failed : ∀ exp handle tmout t, message = .receiveTimeout exp handle →
    context.receiveTimeout = some tmout →
    nextDeadline s.stamp s.rt.clock numMsg exp tmout = some t → Instant.limit ≤ t →
    J s context log

theorem Timed.append (rule : Timed J) {s : Setting} {context : ActorContext T}
    {log events : List (Event T)} (hevents : ∀ e ∈ events, e.timed = false)
    (h : J s context log) : J s context (log ++ events) := by
  induction events generalizing log with
  | nil => simpa using h
  | cons e events ih =>
    have hrest := ih (fun e' he' => hevents e' (List.mem_cons_of_mem _ he'))
      (rule.untimed (hevents e List.mem_cons_self) h)
    simpa using hrest

theorem Timed.drop (rule : Timed J) {s : Setting} {context : ActorContext T}
    {log : List (Event T)} (old : Option Scheduled) (h : J s context log) :
    J s context (log ++ ActorContext.dropHandle old) :=
  rule.append (fun e he => by
    obtain ⟨handle, rfl⟩ := dropHandle_mem he
    rfl) h

theorem Timed.op (rule : Timed J) {s : Setting} {context : ActorContext T} {log : List (Event T)}
    (op : ContextOp T) (h : J s context log) :
    J { s with rt := (op.apply s.rt context).rt } (op.apply s.rt context).context
      (log ++ (op.apply s.rt context).log) := by
  have plain : ∀ {rt : Runtime} {context' : ActorContext T} {events : List (Event T)},
      context.SameTimers context' → s.rt.clock ≤ rt.clock → rt.handles = s.rt.handles →
      (∀ e ∈ events, e.timed = false) → J { s with rt := rt } context' (log ++ events) :=
    fun hsame hclock hhandles hevents =>
      rule.append hevents (rule.same h hsame rfl hclock hhandles)
  cases op with
  | startSingleTimer name d msg =>
    simp only [ContextOp.apply, ActorContext.startSingleTimer]
    split
    · exact rule.startFailed name h
    · have hdrop := rule.drop ((context.timer.lookup name).map TimerMessage.scheduled)
        (rule.start name d msg h)
      simpa [ActorContext.insertTimer, ActorContext.nextTimerGen, Setting.issue] using hdrop
  | cancelTimer name =>
    have hdrop := rule.drop ((context.timer.lookup name).map TimerMessage.scheduled)
      (rule.cancel name h)
    simpa [ContextOp.apply, ActorContext.cancelTimer] using hdrop
  | setReceiveTimeout d =>
    simp only [ContextOp.apply, ActorContext.setReceiveTimeout,
      ActorContext.scheduleReceiveTimeout]
    split
    next hlate => exact rule.setFailed d (Instant.overflows_iff.mp hlate) h
    · have hdrop := rule.drop context.scheduledReceiveTimeout (rule.set d h)
      simpa [ActorContext.armReceiveTimeout, Setting.issue] using hdrop
  | cancelReceiveTimeout =>
    have hdrop := rule.drop context.scheduledReceiveTimeout (rule.unset h)
    simpa [ContextOp.apply, ActorContext.cancelReceiveTimeout] using hdrop
  | createChild messageType prop | getOrCreateChild name messageType prop =>
    simp only [ContextOp.apply, ActorContext.createChild, ActorContext.getOrCreateChild]
    split
    · exact plain ⟨rfl, rfl, rfl, rfl⟩ (Nat.le_refl _) rfl (List.forall_mem_nil _)
    all_goals
      exact plain ⟨rfl, rfl, rfl, rfl⟩ (Nat.le_refl _) rfl
        (List.forall_mem_singleton.mpr rfl)
  | stash msg =>
    exact plain ⟨rfl, rfl, rfl, rfl⟩ (Nat.le_refl _) rfl
      (List.forall_mem_singleton.mpr rfl)
  | unstashAll | stopSelf =>
    exact plain ⟨rfl, rfl, rfl, rfl⟩ (Nat.le_refl _) rfl (List.forall_mem_singleton.mpr rfl)
  | transit => exact plain ⟨rfl, rfl, rfl, rfl⟩ (Nat.le_refl _) rfl (List.forall_mem_nil _)
  | elapse d => exact plain ⟨rfl, rfl, rfl, rfl⟩ (Nat.le_add_right _ _) rfl (List.forall_mem_nil _)

theorem Timed.following (rule : Timed J) : Following (fun _ => True) J where
  op op _ h := rule.op op h
  event {s e context log} he h := by
    refine rule.untimed ?_ h
    cases e <;> first | rfl | cases he
  created {s context log i} h :=
    rule.append (by simp [Event.timed]) (rule.same h (.refl _) rfl (Nat.le_refl _) rfl)
  actor h := rule.same h ⟨rfl, rfl, rfl, rfl⟩ rfl (Nat.le_refl _) rfl

theorem Timed.onMessage (rule : Timed J) {c : Cell T} {log : List (Event T)} {numMsg : Nat}
    {src : Source} {message : Message T} {actor : InstanceId} {context : ActorContext T}
    (hactor : c.disp.actor = some actor) (hcontext : c.disp.context = some context)
    (hlog : c.log = []) (hprocess : Processing J c.setting context log numMsg message) :
    (onMessage numMsg src message c).Ensures (Follows (fun _ => True) J log)
      (Follows (fun _ => True) J log) := by
  have within : Within (fun _ => True) c.calls := fun _ _ _ _ => trivial
  obtain ⟨htouch, hsame, -⟩ := touch_same context c
  have touched : (∀ exp handle, message ≠ .receiveTimeout exp handle) →
      Follows (fun _ => True) J log (c.touch context) := by
    intro hmsg
    refine ⟨fun _ _ _ _ => trivial, context, hsame.trans hcontext, ?_⟩
    rw [touch_setting, htouch, hlog]
    exact hprocess.received hmsg
  have rearmed : ∀ d, J c.setting.issue (c.setting.rearm context d).1
      (log ++ [(c.setting.rearm context d).2]) →
      Follows (fun _ => True) J log (c.apply (context.armReceiveTimeout c.rt d)) := by
    intro d hj
    have hdrop := rule.drop context.scheduledReceiveTimeout hj
    refine ⟨within, _, rfl, ?_⟩
    simpa [hlog, Cell.apply, ActorContext.armReceiveTimeout, Setting.rearm, Setting.issue,
      setting] using hdrop
  obtain ⟨o, ho, hhandling⟩ := onMessage_handling hactor hcontext numMsg src message
  rw [ho]
  cases hhandling with
  | user =>
    exact rule.following.callAfter .onMessage (touched (by simp)) fun _ _ => rule.untimed rfl
  | timer hlookup hgen =>
    refine rule.following.callAfter .onMessage (touched (by simp)) fun context' hcontext' _ => ?_
    obtain rfl := Option.some.inj (hcontext.symm.trans (hsame.symm.trans hcontext'))
    rw [touch_setting, htouch, hlog]
    exact hprocess.timer actor _ _ _ _ _ rfl hlookup hgen
  | stale => exact touched (by simp)
  | poisonPill =>
    refine ⟨within, context, rfl, ?_⟩
    simpa [hlog, Cell.apply, ActorContext.stopSelf, setting] using hprocess.pill rfl
  | unset htmout =>
    exact ⟨within, context, hcontext, by simpa [hlog] using hprocess.unset _ _ rfl htmout⟩
  | expired htmout hempty hlate hdue =>
    refine rule.following.call .onSystemMessage within (fun context' hcontext' => ?_)
      (by simp [hcontext])
    obtain rfl := Option.some.inj (hcontext.symm.trans hcontext')
    rw [hlog]
    exact hprocess.expired actor _ _ _ rfl htmout hempty hlate hdue
  | early htmout hempty hlate hdue =>
    exact rearmed _ (hprocess.early _ _ _ rfl htmout hempty hlate hdue)
  | again htmout => exact rearmed _ (hprocess.again _ htmout)
  | failed htmout hnext hlimit =>
    have hj := hprocess.failed _ _ _ _ rfl htmout hnext hlimit
    exact ⟨within, context, hcontext, by simpa [hlog] using hj⟩

end Cell

namespace Mailbox

variable {J : Cell.Setting → ActorContext T → List (Event T) → Prop} {m m' : Mailbox T}
  {t : Task T}

/-- The relation holds of the context, or of the last one there was. -/
def Kept (J : Cell.Setting → ActorContext T → List (Event T) → Prop) (m : Mailbox T) : Prop :=
  ∃ context, (m.Served → m.dispatcher.context.getD .new = context) ∧ J m.setting context m.log

theorem Kept.of_served (h : m.Kept J) (hserved : m.Served) :
    J m.setting (m.dispatcher.context.getD .new) m.log := by
  obtain ⟨context, hcontext, hj⟩ := h
  rw [hcontext hserved]
  exact hj

theorem Kept.of_context (h : m.Kept J) {context : ActorContext T}
    (hcontext : m.dispatcher.context = some context) : J m.setting context m.log := by
  have hj := h.of_served fun hnone => absurd (hnone.symm.trans hcontext) (by simp)
  simpa [hcontext] using hj

/-- What is left to show of a step that processes a message. -/
def Processes (J : Cell.Setting → ActorContext T → List (Event T) → Prop) (m : Mailbox T)
    (msg : Message T) : Prop :=
  ∀ context, m.dispatcher.context = some context → J m.setting context m.log →
    Cell.Processing J m.setting context m.log m.numUserMessage msg

theorem finish_kept {next : Task T} {o : Outcome (Cell T)} {r : TaskStep T}
    (rule : Cell.Timed J) (h : m.finish next o = some r)
    (ho : o.Ensures (Cell.Follows (fun _ => True) J m.log)
      (Cell.Follows (fun _ => True) J m.log)) : r.mbox.Kept J := by
  obtain ⟨c, ⟨-, context, hcontext, hc⟩, hm, -⟩ | ⟨c, ⟨-, context, hcontext, hc⟩, hm, -⟩ :=
    finish_ensures h ho
  · rw [hm]
    exact ⟨context, fun _ => by simp [commit, hcontext], hc⟩
  · rw [hm]
    have hunwound := rule.untimed (e := .unwound) rfl hc
    refine ⟨context, fun _ => by simp [commit, emit, hcontext], ?_⟩
    simpa [commit, emit, setting, Cell.setting] using hunwound

theorem process_kept (rule : Cell.Timed J) {input : TaskInput T} {r : TaskStep T} {n : Nat}
    {src : Source} {msg : Message T} (hphase : m.Phase (.looping n (.processing src msg)))
    (h : m.finish (.looping n .processed)
      ((m.cell input).processMessage m.numUserMessage src msg) = some r)
    (hprocess : ∀ context, m.dispatcher.context = some context →
      Cell.Processing J m.setting context m.log m.numUserMessage msg) : r.mbox.Kept J := by
  obtain ⟨-, -, hactor, context, hcontext, -⟩ := hphase
  obtain ⟨actor, hactor⟩ := Option.ne_none_iff_exists'.mp hactor
  exact finish_kept rule h (rule.following.processMessage
    (rule.onMessage hactor hcontext rfl (hprocess context hcontext)))

/-- A step that is not a callback's leaves the timers alone, or drops them for good. -/
theorem Kept.later (rule : Cell.Timed J) (h : m.Kept J) {events : List (Event T)}
    (hlog : m'.log = m.log ++ events) (hevents : ∀ e ∈ events, e.timed = false)
    (hrt : m'.rt = m.rt) (hdisp : m'.dispatcher.lastMessageTimestamp =
      m.dispatcher.lastMessageTimestamp)
    (hcontext : m'.Served → m.Served ∧
      (m.dispatcher.context.getD .new).SameTimers (m'.dispatcher.context.getD .new)) :
    m'.Kept J := by
  have later : ∀ {context context'}, J m.setting context m.log → context.SameTimers context' →
      J m'.setting context' m'.log := by
    intro context context' hj hsame
    rw [hlog]
    refine rule.append hevents (rule.same hj hsame hdisp ?_ (congrArg Runtime.handles hrt))
    exact Nat.le_of_eq (congrArg Runtime.clock hrt).symm
  by_cases hserved : m'.Served
  · obtain ⟨hold, hsame⟩ := hcontext hserved
    exact ⟨_, fun _ => rfl, later (h.of_served hold) hsame⟩
  · obtain ⟨context, -, hj⟩ := h
    exact ⟨context, fun hs => absurd hs hserved, later hj (.refl _)⟩

theorem Move.kept {input : TaskInput T} {r : TaskStep T} (rule : Cell.Timed J)
    (move : m.Move input t r) (hphase : m.Phase t)
    (hprocess : ∀ n src msg, t = .looping n (.processing src msg) → m.Processes J msg)
    (h : m.Kept J) : r.mbox.Kept J := by
  have same : ∀ {m' : Mailbox T} {events : List (Event T)}, m'.log = m.log ++ events →
      (∀ e ∈ events, e.timed = false) → m'.rt = m.rt → m'.dispatcher = m.dispatcher →
      m'.Kept J := fun hlog hevents hrt hdisp =>
    h.later rule hlog hevents hrt (by rw [hdisp]) fun hs => by
      simp only [Served, hdisp] at hs ⊢
      exact ⟨hs, .refl _⟩
  have changed : ∀ {context context' : ActorContext T}, m.dispatcher.context = some context →
      context.SameTimers context' → (m.withContext context').Kept J := fun hcontext hsame =>
    h.later rule (List.append_nil _).symm (List.forall_mem_nil _) rfl rfl fun _ =>
      ⟨by simp [Served, hcontext], by simpa [hcontext, withContext] using hsame⟩
  cases move with
  | start hparent hf =>
    exact finish_kept rule hf (rule.following.startActor
      (createContext_follows (fun _ _ _ _ => trivial) (h.of_served fun _ => by simp [hparent])))
  | terminate hf =>
    obtain ⟨-, -, -, context, hcontext, -⟩ := hphase
    exact finish_kept rule hf (rule.following.terminateActor (rule.untimed rfl)
      (cell_follows (fun _ _ _ _ => trivial) hcontext (h.of_context hcontext)))
  | @process n src msg r hf =>
    exact process_kept rule hphase hf fun context hcontext =>
      hprocess n src msg rfl context hcontext (h.of_context hcontext)
  | childLast hcontext _ _ | childGone hcontext _ | suspend hcontext _
  | popUnstashed _ hcontext _ => exact changed hcontext ⟨rfl, rfl, rfl, rfl⟩
  | watch _ =>
    exact h.later rule (List.append_nil _).symm (List.forall_mem_nil _) rfl rfl
      fun hs => ⟨hs, .refl _⟩
  | notify _ =>
    exact h.later rule rfl (by simp [Event.timed]) rfl rfl
      fun _ => ⟨fun hnone => absurd hnone hphase.2.2, .refl _⟩
  | reply =>
    refine h.later rule rfl (fun e he => ?_) rfl rfl fun hs => absurd hphase.2.1 (hs rfl)
    simp only [List.mem_append, List.mem_map] at he
    obtain ⟨w, -, rfl⟩ | ⟨handle, -, rfl⟩ := he <;> rfl
  | drainWatch _ | watchClosed _ | close | stop _ | childUnwind _ | closingUnwind _
  | userUnwind _ _ => exact same rfl (by simp [Event.timed]) rfl rfl
  | _ => exact same (List.append_nil _).symm (List.forall_mem_nil _) rfl rfl

theorem Env.kept (rule : Cell.Timed J) (henv : m.Env m') (h : m.Kept J) : m'.Kept J := by
  cases henv with
  | same => exact h
  | rejected _ | watchReturned _ _ | pushed _ _ | pushedInternal _ =>
    exact h.later rule rfl (by simp [Event.timed]) rfl rfl fun hs => ⟨hs, .refl _⟩
  | tick d =>
    obtain ⟨context, hcontext, hj⟩ := h
    exact ⟨context, hcontext, rule.same hj (.refl _) rfl (Nat.le_add_right _ _) rfl⟩

end Mailbox

namespace Node

variable {J : Cell.Setting → ActorContext T → List (Event T) → Prop}
  {ok : Node T → Action T → Prop}

theorem schedule_kept {nd : Node T} (h : nd.mbox.Kept J) : nd.schedule.mbox.Kept J := by
  simp only [schedule]
  split <;> exact h

/-- A relation that holds at first and that no step breaks holds in every run. -/
theorem reach_kept (rule : Cell.Timed J) (start : J ⟨some parent, 0, ⟨0, 0, 0⟩⟩ .new [])
    (hprocess : ∀ {nd : Node T} {i input n src msg},
      (machine path option parent).Reach ok nd → nd.mbox.Kept J → ok nd (.task i input) →
      nd.tasks[i]? = some (.looping n (.processing src msg)) →
      nd.mbox.Processes J msg)
    {nd : Node T} (h : (machine path option parent).Reach ok nd) : nd.mbox.Kept J := by
  refine h.invariant (P := fun nd : Node T => nd.mbox.Kept J) ?_
    fun {nd nd' a} hr hs allowed hstep => ?_
  · exact ⟨_, fun _ => rfl, start⟩
  cases step_move hstep with
  | call => exact hs
  | access _ _ hacc => exact hacc.env.kept rule hs
  | schedule _ _ | reschedule _ _ => exact schedule_kept hs
  | deliver => exact (Mailbox.Env.pushedInternal _).kept rule hs
  | tick => exact (Mailbox.Env.tick _).kept rule hs
  | @task i input before t after r hi _ hr' _ =>
    refine (Mailbox.taskStep_move hr').kept rule
      (phase_of_mem hr.reachable (List.mem_of_getElem? hi)) (fun n src msg ht => ?_) hs
    subst ht
    exact hprocess hr hs allowed hi

end Node

end Ruactor
