import Ruactor.Deadlines
import Ruactor.Graceful

/-!
# The alarm of a timeout

A timeout that has not been noticed has an alarm: the scheduler has it, or it waits in the
message queue, or the task has it in hand. The task gives it back to the scheduler unless the
timeout is noticed. A message queue that is full loses it, and so does a deadline past the end
of the instants.
-/

namespace Ruactor

open Machine

variable {T : Type} {path : ActorPath} {option : PropsOption} {parent : ParentRef}

def Message.timeout : Message T → Option Scheduled
  | .receiveTimeout _ handle => some handle
  | _ => none

/-- The alarms of the timeout that have gone off. -/
def goneOff (log : List (Event T)) : List Scheduled :=
  (log.filterMap Event.offered).filterMap Message.timeout

theorem goneOff_append (log log' : List (Event T)) :
    goneOff (log ++ log') = goneOff log ++ goneOff log' := by
  simp [goneOff, List.filterMap_append]

theorem goneOff_later {log events : List (Event T)} (h : ∀ e ∈ events, e.sent = false) :
    goneOff (log ++ events) = goneOff log := by
  rw [goneOff_append, goneOff, goneOff, Node.offered_nil h]
  exact List.append_nil _

namespace Cell

/-- The timeout has been noticed, or there is an alarm for it: one that has not gone off, or
one that is `held` elsewhere. -/
structure Watchful (gone : List Scheduled) (held : Prop) (s : Setting) (context : ActorContext T)
    (log : List (Event T)) : Prop where
  bound : ∀ handle ∈ gone, handle < s.rt.handles
  armed : context.receiveTimeout.isSome → (Timeouts.read log).noticed = false →
    (∃ handle ∈ context.scheduledReceiveTimeout, handle ∉ gone) ∨ held

variable {gone : List Scheduled} {held : Prop}

theorem Watchful.silent {s s' : Setting} {context context' : ActorContext T}
    {log events : List (Event T)} (h : Watchful gone held s context log)
    (hread : (Timeouts.read (log ++ events)).noticed = (Timeouts.read log).noticed)
    (htimeout : context'.receiveTimeout = context.receiveTimeout)
    (hscheduled : context'.scheduledReceiveTimeout = context.scheduledReceiveTimeout)
    (hhandles : s.rt.handles ≤ s'.rt.handles) :
    Watchful gone held s' context' (log ++ events) := by
  refine ⟨fun handle hgone => (h.bound handle hgone).trans_le hhandles, fun hset hunnoticed => ?_⟩
  rw [htimeout] at hset
  rw [hread] at hunnoticed
  rw [hscheduled]
  exact h.armed hset hunnoticed

/-- A new alarm has not gone off. -/
theorem watchful_armed {s : Setting} (hbound : ∀ handle ∈ gone, handle < s.rt.handles)
    {context : ActorContext T} (hscheduled : context.scheduledReceiveTimeout = some s.rt.handles)
    (log : List (Event T)) : Watchful gone held s.issue context log := by
  refine ⟨fun handle hgone => Nat.lt_succ_of_lt (hbound handle hgone), fun _ _ => .inl ?_⟩
  exact ⟨_, hscheduled, fun hgone => absurd (hbound _ hgone) (Nat.lt_irrefl _)⟩

/-- There is the alarm, unless the timeout was set for an instant that there is not. -/
def Watching (gone : List Scheduled) (held : Prop) (s : Setting) (context : ActorContext T)
    (log : List (Event T)) : Prop :=
  (∃ e ∈ log, e.overrun = true) ∨ Watchful gone held s context log

theorem Watching.step {s s' : Setting} {context context' : ActorContext T}
    {log events : List (Event T)} (h : Watching gone held s context log)
    (hstep : Watchful gone held s context log → Watchful gone held s' context' (log ++ events)) :
    Watching gone held s' context' (log ++ events) := by
  refine h.imp ?_ hstep
  rintro ⟨e, he, hoverrun⟩
  exact ⟨e, List.mem_append_left _ he, hoverrun⟩

theorem watching_timed : Timed (T := T) (Watching gone held) where
  start name d msg h :=
    h.step fun h => h.silent (by simp [Timeouts.next]) rfl rfl (Nat.le_succ _)
  startFailed name h :=
    h.step fun h => h.silent (by simp [Timeouts.next]) rfl rfl (Nat.le_refl _)
  cancel name h := h.step fun h => h.silent (by simp [Timeouts.next]) rfl rfl (Nat.le_refl _)
  set d h := h.step fun h => watchful_armed h.bound rfl _
  setFailed {s context log} d hlimit _ :=
    .inl ⟨.timeoutSet d s.rt.clock, by simp, Instant.overflows_iff.mpr hlimit⟩
  unset h := h.step fun h => ⟨h.bound, nofun⟩
  untimed he h :=
    h.step fun h => h.silent (by simp [Timeouts.next_untimed he]) rfl rfl (Nat.le_refl _)
  same {s s' context context' log} h hsame _ _ hhandles := by
    have hlater : Watching gone held s' context' (log ++ []) := by
      refine h.step fun h => h.silent ?_ hsame.receiveTimeout hsame.scheduled
        (Nat.le_of_eq hhandles.symm)
      rw [List.append_nil]
    simpa using hlater

/-- The alarm that is processed may be the last one there is. -/
theorem watching_processing {s : Setting} {context : ActorContext T} {log : List (Event T)}
    {numMsg : Nat} {message : Message T} (hbound : ∀ handle ∈ gone, handle < s.rt.handles)
    (hdeadline : ∀ exp handle tmout, message = .receiveTimeout exp handle →
      context.receiveTimeout = some tmout →
      ∀ t ∈ nextDeadline s.stamp s.rt.clock numMsg exp tmout, t < Instant.limit)
    (h : (∀ exp handle, message ≠ .receiveTimeout exp handle) → Watchful gone held s context log) :
    Processing (Watching gone held) s context log numMsg message := by
  have rearmed : ∀ d, Watching gone held s.issue (s.rearm context d).1
      (log ++ [(s.rearm context d).2]) := fun _ => .inr (watchful_armed hbound rfl _)
  have hhandles : (s.touched context).rt.handles = s.rt.handles := by simp
  have received : Watchful gone held s context log →
      Watchful gone held (s.touched context) context (log ++ [.received s.rt.clock]) :=
    fun hold => hold.silent (by simp [Timeouts.next]) rfl rfl (Nat.le_of_eq hhandles.symm)
  exact
    { received := fun hmsg => .inr (received (h hmsg))
      pill := by
        rintro rfl
        exact .inr ((h (by simp)).silent (by simp [Timeouts.next]) rfl rfl (Nat.le_refl _))
      unset := fun _ _ _ hnone => .inr ⟨hbound, fun hset => by simp [hnone] at hset⟩
      timer := by
        rintro actor key gen msg handle info rfl _ _
        exact .inr ((received (h (by simp))).silent (by simp [Timeouts.next]) rfl rfl
          (Nat.le_refl _))
      expired := fun _ _ _ _ _ _ _ _ _ =>
        .inr ⟨hbound, fun _ hunnoticed => by simp [Timeouts.next] at hunnoticed⟩
      early := fun _ _ _ _ _ _ _ _ => rearmed _
      again := fun _ _ => rearmed _
      failed := fun exp handle tmout t hmsg htmout hnext hlimit =>
        absurd (hdeadline exp handle tmout hmsg htmout t hnext) (Nat.not_lt.mpr hlimit) }

/-- What goes off is held then, or has been held before. -/
theorem Watchful.env {s s' : Setting} {context : ActorContext T} {log log' : List (Event T)}
    {gone' : List Scheduled} {held' : Prop} (h : Watchful gone held s context log)
    (hbound : ∀ handle ∈ gone', handle < s'.rt.handles)
    (hread : (Timeouts.read log').noticed = (Timeouts.read log).noticed)
    (hgone : ∀ handle ∈ gone', handle ∈ gone ∨ held') (hheld : held → held') :
    Watchful gone' held' s' context log' := by
  refine ⟨hbound, fun hset hunnoticed => ?_⟩
  rw [hread] at hunnoticed
  rcases h.armed hset hunnoticed with ⟨handle, hscheduled, hwaits⟩ | hold
  · by_cases hmem : handle ∈ gone'
    · exact .inr ((hgone handle hmem).resolve_left hwaits)
    · exact .inl ⟨handle, hscheduled, hmem⟩
  · exact .inr (hheld hold)

end Cell

namespace Mailbox

variable {m m' : Mailbox T}

/-- A message leaves the queue for the hand of the task. -/
theorem Move.waits {input : TaskInput T} {t : Task T} {r : TaskStep T} (move : m.Move input t r)
    {msg : Message T} (h : msg ∈ m.messageQueue.items) :
    msg ∈ r.next.toList.flatMap Task.taken ++ r.mbox.messageQueue.items := by
  cases move with
  | popUser _ _ _ hitems _ => simpa [hitems, Task.taken, Source.taken] using h
  | start _ hf | terminate hf | process hf =>
    refine List.mem_append_right _ ?_
    obtain ⟨c, -, -, hm, -⟩ | ⟨c, -, -, hm, -⟩ := finish_cases hf <;> rw [hm] <;> exact h
  | _ => exact List.mem_append_right _ h

end Mailbox

namespace Node

/-- The messages that were pushed and not processed. -/
def waiting (nd : Node T) : List (Message T) :=
  nd.tasks.flatMap Task.taken ++ nd.mbox.messageQueue.items

/-- One of them is an alarm of the timeout. -/
def Ringing (nd : Node T) : Prop := ∃ exp handle, .receiveTimeout exp handle ∈ nd.waiting

/-- A timeout of a mailbox that is open has an alarm. -/
def Watched (nd : Node T) : Prop :=
  nd.mbox.terminated = false →
    Cell.Watchful (goneOff nd.mbox.log) nd.Ringing nd.mbox.setting
      (nd.mbox.dispatcher.context.getD .new) nd.mbox.log

/-- An alarm of the timeout that is about to be lost. -/
def crowds (nd : Node T) : Client T → Bool
  | .pushing (.receiveTimeout _ _) _ => nd.mbox.messageQueue.full
  | _ => false

/-- The scheduler runs the actions that it was given, no alarm of a timeout meets a full message
queue, and the deadlines of the timeouts are instants. -/
def unlost (nd : Node T) : Action T → Prop
  | .client i => (nd.clients[i]?).any nd.crowds = false
  | .task i input => okTask Mailbox.InRange nd (.task i input)
  | a => adversarial nd a

instance [DecidableEq T] (nd : Node T) (a : Action T) : Decidable (unlost nd a) :=
  match a with
  | .client _ => inferInstanceAs (Decidable (_ = false))
  | .call c => inferInstanceAs (Decidable (adversarial nd (.call c)))
  | .task i input => okTask.decidable Mailbox.InRange nd (.task i input)
  | .deliver msg => inferInstanceAs (Decidable (adversarial nd (.deliver msg)))
  | .tick d => inferInstanceAs (Decidable (adversarial nd (.tick d)))

theorem unlost_adversarial (nd : Node T) (a : Action T) (ok : unlost nd a) : adversarial nd a := by
  cases a with
  | client i | task i input => exact fun _ hmsg => by cases hmsg
  | _ => exact ok

theorem unlost_inRange (nd : Node T) (a : Action T) (ok : unlost nd a) :
    okTask Mailbox.InRange nd a := by
  cases a with
  | task i input => exact ok
  | _ => trivial

theorem goneOff_bound {nd : Node T} (h : (machine path option parent).Reach adversarial nd) :
    ∀ handle ∈ goneOff nd.mbox.log, handle < nd.mbox.rt.handles := by
  intro handle hgone
  obtain ⟨msg, hmsg, htimeout⟩ := List.mem_filterMap.mp hgone
  have hhandle : msg.handle = some handle := by
    cases msg <;> cases htimeout
    rfl
  obtain ⟨handle', t, harmed⟩ :=
    alarm_of_mem (offers_armed h msg (List.mem_append_left _ hmsg) handle hhandle)
  obtain ⟨_, -, hnumbered⟩ := reachable_numbered h.reachable
  have hsame := hnumbered.carried _ _ _ harmed
  refine hnumbered.bound handle (List.mem_filterMap.mpr ⟨_, harmed, ?_⟩)
  exact hsame.symm.trans hhandle

theorem schedule_watched {nd : Node T} (h : Watched nd) : Watched nd.schedule := by
  simp only [schedule]
  split
  · exact h
  · simpa [Watched, Ringing, waiting, Task.taken, Mailbox.setting] using h

/-- A caller loses no alarm, but for one that is rejected. -/
theorem env_watched {nd : Node T} {m : Mailbox T} (henv : nd.mbox.Env m) (h : Watched nd)
    (hbound : ∀ handle ∈ goneOff m.log, handle < m.rt.handles)
    (hkept : m.terminated = false → ∀ exp handle, .rejected (.receiveTimeout exp handle) ∉ m.log)
    (clients : List (Client T)) : Watched ⟨m, nd.tasks, clients⟩ := by
  intro hopen
  have hold := h (henv.terminated ▸ hopen)
  have quiet : ∀ {events : List (Event T)}, m.log = nd.mbox.log ++ events →
      goneOff events = [] → (Timeouts.read m.log).noticed = (Timeouts.read nd.mbox.log).noticed →
      m.messageQueue = nd.mbox.messageQueue → Cell.Watchful (goneOff m.log)
        (Node.Ringing ⟨m, nd.tasks, clients⟩) m.setting (m.dispatcher.context.getD .new) m.log := by
    intro events hlog hgone hread hqueue
    rw [henv.dispatcher]
    refine hold.env hbound hread (fun handle hmem => .inl ?_) ?_
    · simpa [hlog, goneOff_append, hgone] using hmem
    · simp [Ringing, waiting, hqueue]
  cases henv with
  | same | tick _ => exact quiet (List.append_nil _).symm rfl rfl rfl
  | watchReturned w _ => exact quiet rfl rfl (by simp [Mailbox.emit, Timeouts.next]) rfl
  | pushedInternal msg => exact quiet rfl rfl (by simp [Mailbox.pushInternal, Timeouts.next]) rfl
  | rejected msg =>
    refine quiet rfl ?_ (by simp [Mailbox.emit, Timeouts.next]) rfl
    cases msg with
    | receiveTimeout exp handle => exact absurd (by simp [Mailbox.emit]) (hkept hopen exp handle)
    | _ => rfl
  | @pushed msg queue _ hitems =>
    refine hold.env hbound (by simp [Timeouts.next]) (fun handle hmem => ?_) ?_
    · rw [goneOff_append] at hmem
      refine (List.mem_append.mp hmem).imp_right fun hnew => ?_
      cases msg with
      | receiveTimeout exp handle' => exact ⟨exp, handle', by simp [waiting, hitems]⟩
      | _ => cases hnew
    · rintro ⟨exp, handle, hmem⟩
      refine ⟨exp, handle, ?_⟩
      rcases List.mem_append.mp hmem with hhand | hqueue
      · exact List.mem_append_left _ hhand
      · exact List.mem_append_right _ (hitems ▸ List.mem_append_left _ hqueue)

/-- The alarms that are not in the hand of the task that moves. -/
theorem Ringing.task {nd : Node T} {input : TaskInput T} {t : Task T} {r : TaskStep T}
    (h : nd.Ringing) (move : nd.mbox.Move input t r) {before after : List (Task T)}
    (hsplit : nd.tasks = before ++ t :: after)
    (hnone : ∀ exp handle, .receiveTimeout exp handle ∉ t.taken) (clients : List (Client T)) :
    Ringing ⟨r.mbox, before ++ (r.next.toList ++ after), clients⟩ := by
  obtain ⟨exp, handle, hmem⟩ := h
  refine ⟨exp, handle, ?_⟩
  simp only [waiting, hsplit, List.flatMap_append, List.flatMap_cons, List.append_assoc,
    List.mem_append] at hmem ⊢
  rcases hmem with hmem | hmem | hmem | hmem
  · exact .inl hmem
  · exact absurd hmem (hnone exp handle)
  · exact .inr (.inr (.inl hmem))
  · exact (List.mem_append.mp (move.waits hmem)).elim (fun h => .inr (.inl h)) fun h =>
      .inr (.inr (.inr h))

/-- A task gives back the alarm that it has in hand, and loses no other. -/
theorem task_watched {nd : Node T} {input : TaskInput T} {t : Task T} {r : TaskStep T}
    (move : nd.mbox.Move input t r) (hphase : nd.mbox.Phase t)
    (hpunctual : nd.mbox.Punctual) (ok : nd.mbox.InRange t input) {before after : List (Task T)}
    (hsplit : nd.tasks = before ++ t :: after) (h : Watched nd)
    (hbound : ∀ handle ∈ goneOff r.mbox.log, handle < r.mbox.rt.handles)
    (clients : List (Client T)) :
    Watched ⟨r.mbox, before ++ (r.next.toList ++ after), clients⟩ := by
  intro hopen
  have hopen' : nd.mbox.terminated = false :=
    move.flag.elim (fun hsame => hsame ▸ hopen) fun hclosed =>
      absurd (hclosed.symm.trans hopen) (by simp)
  have hold := h hopen'
  obtain ⟨events, hlog, hlogs⟩ := move.logs hphase
  have hgone : goneOff r.mbox.log = goneOff nd.mbox.log := by
    rw [hlog]
    exact goneOff_later fun e he => (hlogs e he).unsent
  generalize hheld : Ringing ⟨r.mbox, before ++ (r.next.toList ++ after), clients⟩ = held
  have others : (∀ exp handle, .receiveTimeout exp handle ∉ t.taken) → nd.Ringing → held :=
    fun hnone hringing => hheld ▸ hringing.task move hsplit hnone clients
  have idle : (∀ exp handle, .receiveTimeout exp handle ∉ t.taken) →
      Cell.Watchful (goneOff nd.mbox.log) held nd.mbox.setting
        (nd.mbox.dispatcher.context.getD .new) nd.mbox.log := fun hnone =>
    hold.env hold.bound rfl (fun _ => .inl) (others hnone)
  have hkept : r.mbox.Kept (Cell.Watching (goneOff nd.mbox.log) held) := by
    cases hbusy : t.busy with
    | false =>
      refine move.kept Cell.watching_timed hphase (fun n src msg ht => ?_)
        ⟨_, fun _ => rfl, .inr (idle ?_)⟩
      · rw [ht] at hbusy
        cases hbusy
      · rw [Task.taken_idle hbusy]
        exact fun _ _ => List.not_mem_nil
    | true =>
      cases move with
      | @process n src msg r hf =>
        refine Mailbox.process_kept Cell.watching_timed hphase hf fun context hcontext => ?_
        refine Cell.watching_processing hold.bound ?_ fun hmsg => ?_
        · rintro exp handle tmout rfl htmout deadline hdeadline
          exact ok.2 _ rfl deadline (Mailbox.nextAlarm_eq hcontext htmout exp handle ▸ hdeadline)
        have hnone := idle fun exp handle hmem => ?_
        · simpa [hcontext] using hnone
        · cases src with
          | queue => exact hmsg exp handle (List.mem_singleton.mp hmem).symm
          | unstashed => cases hmem
      | _ => cases hbusy
  rw [hgone]
  cases hcontext : r.mbox.dispatcher.context with
  | none => exact ⟨hgone ▸ hbound, nofun⟩
  | some context =>
    refine (hkept.of_context hcontext).resolve_left ?_
    rintro ⟨e, he, hoverrun⟩
    exact absurd (move.punctual hphase ok hpunctual e he) (by simp [hoverrun])

theorem reach_watched {nd : Node T} (h : (machine path option parent).Reach unlost nd) :
    Watched nd := by
  refine h.invariant (P := Watched) ?_ fun {nd nd' a} hr hs allowed hstep => ?_
  · exact fun _ => ⟨List.forall_mem_nil _, nofun⟩
  have hr' : (machine path option parent).Reach unlost nd' := .step hr allowed hstep
  have hbound := goneOff_bound (hr'.mono unlost_adversarial)
  have hkept : nd'.mbox.terminated = false →
      ∀ exp handle, .rejected (.receiveTimeout exp handle) ∉ nd'.mbox.log := by
    intro hopen exp handle hrejected
    have hroom : ∀ {nd : Node T} {i msg watch}, unlost nd (.client i) →
        nd.clients[i]? = some (.pushing msg watch) → (∃ exp handle, msg = .receiveTimeout exp handle) →
        nd.mbox.messageQueue.full = false := by
      rintro nd i _ watch ok hi ⟨exp, handle, rfl⟩
      simpa [unlost, hi, crowds] using ok
    have hclosed := rejected_closed hroom hr' _ ⟨exp, handle, rfl⟩ hrejected
    simp [hopen] at hclosed
  cases step_move hstep with
  | call => exact hs
  | tick => exact env_watched (.tick _) hs hbound hkept _
  | deliver => exact env_watched (.pushedInternal _) hs hbound hkept _
  | schedule _ _ => exact schedule_watched hs
  | reschedule hi hsplit =>
    refine schedule_watched ?_
    simpa [Watched, Ringing, waiting, hsplit, Task.taken] using hs
  | access hi _ hacc => exact env_watched hacc.env hs hbound hkept _
  | @task i input before t after r hi hsplit hmove _ =>
    have hphase := phase_of_mem hr.reachable (List.mem_of_getElem? hi)
    have move := Mailbox.taskStep_move hmove
    exact task_watched move hphase (reach_punctual (hr.mono unlost_inRange)) (allowed t hi) hsplit
      hs hbound _

/-- Between two messages the alarm of a timeout that has not been noticed is with the
scheduler or in the message queue. -/
def Armed (nd : Node T) : Prop :=
  nd.mbox.terminated = false → (∀ t ∈ nd.tasks, t.message = none) →
  ∀ context ∈ nd.mbox.dispatcher.context, context.receiveTimeout.isSome →
    (Timeouts.read nd.mbox.log).noticed = false →
      (∃ handle ∈ context.scheduledReceiveTimeout, handle ∉ goneOff nd.mbox.log) ∨
      ∃ exp handle, .receiveTimeout exp handle ∈ nd.mbox.messageQueue.items

theorem timeout_armed {nd : Node T} (h : (machine path option parent).Reach unlost nd) :
    Armed nd := by
  intro hopen hbetween context hcontext hset hunnoticed
  have hwatchful := reach_watched h hopen
  rw [hcontext] at hwatchful
  refine (hwatchful.armed hset hunnoticed).imp_right ?_
  rintro ⟨exp, handle, hwaits⟩
  refine ⟨exp, handle, (List.mem_append.mp hwaits).resolve_left fun hhand => ?_⟩
  obtain ⟨t, ht, hmem⟩ := List.mem_flatMap.mp hhand
  have hidle : t.busy = false := by
    have hmessage := hbetween t ht
    cases t with
    | looping n stage => cases stage <;> first | rfl | cases hmessage
    | _ => rfl
  rw [Task.taken_idle hidle] at hmem
  exact List.not_mem_nil hmem

/-- One message fills the queue when the alarm goes off. -/
def deafRun : List (Action Nat) :=
  sending (.user 1) ++
    callbacks [⟨.create, [], false⟩, ⟨.onEnter, [.setReceiveTimeout 100], false⟩] ++
    .tick 100 :: .call (.send (.receiveTimeout 100 0)) :: .client 0 :: .client 0 :: turns 3 ++
    callbacks [⟨.onMessage, [], false⟩] ++ turns 7

def deafNode : Node Nat := (narrow.exec narrow.start deafRun).get (by decide +kernel)

theorem deafNode_run : narrow.exec narrow.start deafRun = some deafNode :=
  (Option.some_get _).symm

/-- A timeout that is set and that nothing will notice. -/
def deaf (nd : Node T) : Bool :=
  !nd.mbox.terminated && nd.tasks.all (fun t => t.message.isNone) &&
    nd.mbox.messageQueue.items.isEmpty && !(Timeouts.read nd.mbox.log).noticed &&
    nd.mbox.dispatcher.context.any fun context => context.receiveTimeout.isSome &&
      context.scheduledReceiveTimeout.all fun handle => decide (handle ∈ goneOff nd.mbox.log)

theorem not_armed_of_deaf {nd : Node T} (h : nd.deaf = true) : ¬ Armed nd := by
  simp only [deaf, Bool.and_eq_true, Bool.not_eq_true', List.all_eq_true, Option.isNone_iff_eq_none,
    List.isEmpty_iff, Option.any_eq_true, Option.all_eq_true, decide_eq_true_eq] at h
  obtain ⟨⟨⟨⟨hopen, hbetween⟩, hempty⟩, hunnoticed⟩, context, hcontext, hset, hgone⟩ := h
  intro harmed
  rcases harmed hopen hbetween context hcontext hset hunnoticed
    with ⟨handle, hscheduled, hwaits⟩ | ⟨exp, handle, hwaits⟩
  · exact hwaits (hgone handle hscheduled)
  · simp [hempty] at hwaits

/-- The alarm is gone, and the timeout is never noticed. -/
theorem deaf_not_armed : narrow.Reach (fun nd a => due nd a ∧ adversarial nd a) deafNode ∧
    Quiescent deafNode ∧ ¬ Armed deafNode :=
  ⟨Reach.exec .start (by decide +kernel) deafNode_run, by decide +kernel,
    not_armed_of_deaf (by decide +kernel)⟩

/-- The handler sets a timeout for an instant that there is not. -/
def overrunRun : List (Action Nat) :=
  sending (.user 1) ++ callbacks [⟨.create, [], false⟩, ⟨.onEnter, [], false⟩] ++ turns 3 ++
    callbacks [⟨.onMessage, [.setReceiveTimeout Instant.limit], true⟩, ⟨.onExit, [], false⟩,
      ⟨.create, [], false⟩, ⟨.onEnter, [], false⟩] ++ turns 7

def overrunNode : Node Nat := (sample.exec sample.start overrunRun).get (by decide +kernel)

theorem overrunNode_run : sample.exec sample.start overrunRun = some overrunNode :=
  (Option.some_get _).symm

/-- The timeout stays set after the panic, and it never had an alarm. -/
theorem overrun_not_armed : sample.Reach (fun nd a => due nd a ∧ adversarial nd a) overrunNode ∧
    Quiescent overrunNode ∧ ¬ Armed overrunNode :=
  ⟨Reach.exec .start (by decide +kernel) overrunNode_run, by decide +kernel,
    not_armed_of_deaf (by decide +kernel)⟩

/-- The alarm goes off when the message that filled the queue has been handled. -/
def ringingRun : List (Action Nat) :=
  sending (.user 1) ++
    callbacks [⟨.create, [], false⟩, ⟨.onEnter, [.setReceiveTimeout 100], false⟩] ++ turns 3 ++
    callbacks [⟨.onMessage, [], false⟩] ++ .tick 100 :: sending (.receiveTimeout 100 0)

def ringingNode : Node Nat := (narrow.exec narrow.start ringingRun).get (by decide +kernel)

theorem ringingNode_run : narrow.exec narrow.start ringingRun = some ringingNode :=
  (Option.some_get _).symm

theorem timeout_armed_ringing :
    Armed ringingNode ∧ ringingNode.mbox.messageQueue.items = [.receiveTimeout 100 0] :=
  ⟨timeout_armed (Reach.exec .start (by decide +kernel) ringingNode_run), by decide +kernel⟩

end Node

end Ruactor
