import Ruactor.Mailbox

/-!
# What a step can do

`Move` lists the branches of `taskStep`, and `Env` what the other threads do to
a mailbox while a task stands still. Invariants are proved by cases on these and
not by unfolding the step functions again.
-/

namespace Ruactor

namespace Mailbox

variable {T : Type}

inductive Move (m : Mailbox T) (input : TaskInput T) : Task T → TaskStep T → Prop
  | dead : m.dispatcher.parent = none → Move m input .spawned ⟨m, some .draining, []⟩
  | start {parent r} : m.dispatcher.parent = some parent →
      m.finish (.looping 0 .nextMessage) (m.cell input).startActor = some r →
      Move m input .spawned r
  | drained : m.internalQueue = [] → Move m input .draining ⟨m, some .storing, []⟩
  | drainWatch {w rest} : m.internalQueue = .watch w :: rest →
      Move m input .draining
        ⟨{ m with internalQueue := rest }.emit [.replied w], some .draining, []⟩
  | drain {msg rest} : m.internalQueue = msg :: rest → (∀ w, msg ≠ .watch w) →
      Move m input .draining ⟨{ m with internalQueue := rest }, some .draining, []⟩
  | noContext {n} : m.dispatcher.context = none →
      Move m input (.looping n .nextMessage) ⟨m, some .storing, []⟩
  | nextMessage {n context} : m.dispatcher.context = some context →
      Move m input (.looping n .nextMessage) ⟨m, some (.looping n .popInternal), []⟩
  | popNone {n} : m.dispatcher.context = none ∨ m.internalQueue = [] →
      Move m input (.looping n .popInternal) ⟨m, some (.looping n .popUser), []⟩
  | popInternal {n context msg rest} : m.dispatcher.context = some context →
      m.internalQueue = msg :: rest →
      Move m input (.looping n .popInternal)
        ⟨{ m with internalQueue := rest }, some (.looping n (.internalMessage msg)), []⟩
  | watchClosed {n w} : m.terminated = true →
      Move m input (.looping n (.internalMessage (.watch w)))
        ⟨m.emit [.replied w], some (.looping n .popInternal), []⟩
  | watch {n w} : m.terminated = false →
      Move m input (.looping n (.internalMessage (.watch w)))
        ⟨{ m with dispatcher := { m.dispatcher with watcher := m.dispatcher.watcher ++ [w] } },
          some (.looping n .popInternal), []⟩
  | close {n} :
      Move m input (.looping n (.internalMessage .terminate))
        ⟨{ m with terminated := true, log := m.log ++ [.closed] },
          some (.looping n .closing), []⟩
  | childUnwind {n path k} : m.dispatcher.context = none →
      Move m input (.looping n (.internalMessage (.childTerminate path k))) m.unwind
  | childLast {n path k context} : m.dispatcher.context = some context →
      context.suspendReason.isSome → (context.childrens.erase path.key).entries = [] →
      Move m input (.looping n (.internalMessage (.childTerminate path k)))
        ⟨m.withContext { context with
            childrens := context.childrens.erase path.key, suspendReason := none },
          some (.looping n .terminating), []⟩
  | childGone {n path k context} : m.dispatcher.context = some context →
      ¬ (context.suspendReason.isSome ∧ (context.childrens.erase path.key).entries = []) →
      Move m input (.looping n (.internalMessage (.childTerminate path k)))
        ⟨m.withContext { context with childrens := context.childrens.erase path.key },
          some (.looping n .popInternal), []⟩
  | created {n} : Move m input (.looping n (.internalMessage .created))
      ⟨m, some (.looping n .popInternal), []⟩
  | closingUnwind {n} : m.dispatcher.context = none →
      Move m input (.looping n .closing) m.unwind
  | childless {n context} : m.dispatcher.context = some context →
      context.childrens.entries = [] →
      Move m input (.looping n .closing) ⟨m, some (.looping n .terminating), []⟩
  | suspend {n context} : m.dispatcher.context = some context →
      context.childrens.entries ≠ [] →
      Move m input (.looping n .closing)
        ⟨m.withContext { context with suspendReason := some .childrenTermination },
          some (.looping n (.stopping (context.childrens.entries.map fun e => e.2.child))), []⟩
  | stopped {n} : Move m input (.looping n (.stopping [])) ⟨m, some (.looping n .popInternal), []⟩
  | stop {n rest child} : rest[input.pick]? = some child →
      Move m input (.looping n (.stopping rest))
        ⟨m.emit [.stopped child],
          some (.looping n (.stopping (rest.eraseIdx input.pick))), []⟩
  | terminate {n r} :
      m.finish (.looping n .notifying) (m.cell input).terminateActor = some r →
      Move m input (.looping n .terminating) r
  | orphan {n} : m.dispatcher.parent = none →
      Move m input (.looping n .notifying) ⟨m, some (.looping n .replying), []⟩
  | notify {n parent} : m.dispatcher.parent = some parent →
      Move m input (.looping n .notifying)
        ⟨{ m with
            dispatcher := { m.dispatcher with parent := none }
            log := m.log ++ [.notified parent m.path] },
          some (.looping n .replying), []⟩
  | reply {n} :
      Move m input (.looping n .replying)
        ⟨{ m with
            dispatcher := { m.dispatcher with watcher := [], context := none }
            log := m.log ++ (m.dispatcher.watcher.map .replied ++
              ((m.dispatcher.context.map ActorContext.handles).getD []).map .dropped) },
          some (.looping n .popInternal), []⟩
  | terminated {n} : m.terminated = true →
      Move m input (.looping n .popUser) ⟨m, some .storing, []⟩
  | userUnwind {n} : m.terminated = false → m.dispatcher.context = none →
      Move m input (.looping n .popUser) m.unwind
  | popUnstashed {n context msg rest} : m.terminated = false →
      m.dispatcher.context = some context → context.unstashed = msg :: rest →
      Move m input (.looping n .popUser)
        ⟨m.withContext { context with unstashed := rest },
          some (.looping n (.processing .unstashed (.user msg))), []⟩
  | idle {n context} : m.terminated = false → m.dispatcher.context = some context →
      context.unstashed = [] → m.messageQueue.items = [] →
      Move m input (.looping n .popUser) ⟨m, some .storing, []⟩
  | popUser {n context msg queue} : m.terminated = false →
      m.dispatcher.context = some context → context.unstashed = [] →
      m.messageQueue.items = msg :: queue.items → queue.size = m.messageQueue.size →
      Move m input (.looping n .popUser)
        ⟨{ m with messageQueue := queue }, some (.looping n (.processing .queue msg)), []⟩
  | process {n src msg r} :
      m.finish (.looping n .processed)
        ((m.cell input).processMessage m.numUserMessage src msg) = some r →
      Move m input (.looping n (.processing src msg)) r
  | cutOff {n} : n + 1 ≥ m.option.throughput →
      Move m input (.looping n .processed) ⟨m, some .storing, []⟩
  | goOn {n} : n + 1 < m.option.throughput →
      Move m input (.looping n .processed) ⟨m, some (.looping (n + 1) .nextMessage), []⟩
  | store : Move m input .storing ⟨{ m with running := false }, some (.rechecking .readUser), []⟩
  | someUser : m.messageQueue.items ≠ [] →
      Move m input (.rechecking .readUser) ⟨m, some (.rechecking .readTerminated), []⟩
  | noUser : m.messageQueue.items = [] →
      Move m input (.rechecking .readUser) ⟨m, some (.rechecking .readInternal), []⟩
  | accepting : m.terminated = false →
      Move m input (.rechecking .readTerminated) ⟨m, some (.rechecking .scheduling), []⟩
  | closed : m.terminated = true →
      Move m input (.rechecking .readTerminated) ⟨m, some (.rechecking .readInternal), []⟩
  | someInternal : m.internalQueue ≠ [] →
      Move m input (.rechecking .readInternal) ⟨m, some (.rechecking .scheduling), []⟩
  | done : m.internalQueue = [] → Move m input (.rechecking .readInternal) ⟨m, none, []⟩

theorem stageStep_move {m : Mailbox T} {input : TaskInput T} {n : Nat} {stage : Stage T}
    {r : TaskStep T} (h : m.stageStep input n stage = some r) :
    Move m input (.looping n stage) r := by
  cases stage with
  | nextMessage =>
    simp only [stageStep] at h
    split at h <;> cases h
    · exact .noContext ‹_›
    · exact .nextMessage ‹_›
  | popInternal =>
    simp only [stageStep] at h
    split at h
    · cases h
      exact .popNone (.inl ‹_›)
    · split at h <;> cases h
      · exact .popNone (.inr ‹_›)
      · exact .popInternal ‹_› ‹_›
  | internalMessage msg =>
    simp only [stageStep, Option.some.injEq] at h
    subst h
    cases msg with
    | created => exact .created
    | terminate => exact .close
    | watch w =>
      simp only [onInternalMessage]
      split
      · exact .watchClosed ‹_›
      · exact .watch (by simpa using ‹¬ m.terminated = true›)
    | childTerminate path k =>
      simp only [onInternalMessage]
      split
      · exact .childUnwind ‹_›
      · split
        next hlast => exact .childLast ‹_› hlast.1 hlast.2
        · exact .childGone ‹_› ‹_›
  | closing =>
    simp only [stageStep] at h
    split at h
    · cases h
      exact .closingUnwind ‹_›
    · split at h <;> cases h
      · exact .childless ‹_› ‹_›
      · exact .suspend ‹_› ‹_›
  | stopping rest =>
    simp only [stageStep] at h
    split at h
    · cases h
      exact .stopped
    · split at h <;> cases h
      exact .stop ‹_›
  | terminating => exact .terminate h
  | notifying =>
    simp only [stageStep] at h
    split at h <;> cases h
    · exact .orphan ‹_›
    · exact .notify ‹_›
  | replying =>
    simp only [stageStep, Option.some.injEq] at h
    subst h
    exact .reply
  | popUser =>
    simp only [stageStep] at h
    split at h
    · cases h
      exact .terminated ‹_›
    next ht =>
      have ht : m.terminated = false := by simpa using ht
      split at h
      · cases h
        exact .userUnwind ht ‹_›
      · split at h
        · cases h
          exact .popUnstashed ht ‹_› ‹_›
        · split at h <;> cases h
          next hq => exact .idle ht ‹_› ‹_› (MessageQueue.pop_none hq)
          next hq =>
            exact .popUser ht ‹_› ‹_› (MessageQueue.pop_some hq).2 (MessageQueue.pop_some hq).1
  | processing src msg => exact .process h
  | processed =>
    simp only [stageStep] at h
    split at h <;> cases h
    · exact .cutOff ‹_›
    · exact .goOn (by omega)

theorem taskStep_move {m : Mailbox T} {input : TaskInput T} {t : Task T} {r : TaskStep T}
    (h : m.taskStep input t = some r) : Move m input t r := by
  cases t with
  | spawned =>
    simp only [taskStep] at h
    split at h
    · cases h
      exact .dead ‹_›
    · exact .start ‹_› h
  | draining =>
    simp only [taskStep] at h
    split at h
    · cases h
      exact .drained ‹_›
    · split at h <;> cases h
      · exact .drainWatch ‹_›
      · exact .drain ‹_› ‹_›
  | looping n stage => exact stageStep_move h
  | storing =>
    cases h
    exact .store
  | rechecking point =>
    cases point with
    | readUser =>
      cases h
      cases hq : m.messageQueue.items with
      | nil => simpa [numUserMessage, MessageQueue.len, hq] using Move.noUser hq
      | cons msg rest =>
        have hm : Move m input (.rechecking .readUser) _ := .someUser (by simp [hq])
        simpa [numUserMessage, MessageQueue.len, hq] using hm
    | readTerminated =>
      cases h
      cases ht : m.terminated with
      | false => simpa [ht] using Move.accepting ht
      | true => simpa [ht] using Move.closed ht
    | readInternal =>
      cases h
      cases hq : m.internalQueue with
      | nil => simpa [numInternalMessage, hq] using Move.done hq
      | cons msg rest =>
        have hm : Move m input (.rechecking .readInternal) _ := .someInternal (by simp [hq])
        simpa [numInternalMessage, hq] using hm
    | scheduling => cases h

theorem finish_cases {m : Mailbox T} {next : Task T} {o : Outcome (Cell T)} {r : TaskStep T}
    (h : m.finish next o = some r) :
    (∃ c, o = .returned c ∧ c.calls = [] ∧ r.mbox = m.commit c ∧ r.next = some next ∧
      r.clients = selfStops c.log) ∨
    ∃ c, o = .panicked c ∧ c.calls = [] ∧ r.mbox = (m.commit c).emit [.unwound] ∧
      r.next = none ∧ r.clients = selfStops c.log := by
  cases o with
  | returned c =>
    simp only [finish, List.isEmpty_iff] at h
    split at h <;> cases h
    exact .inl ⟨c, rfl, ‹_›, rfl, rfl, rfl⟩
  | panicked c =>
    simp only [finish, List.isEmpty_iff] at h
    split at h <;> cases h
    exact .inr ⟨c, rfl, ‹_›, rfl, rfl, rfl⟩
  | stuck => cases h

theorem finish_running {m : Mailbox T} {next : Task T} {o : Outcome (Cell T)} {r : TaskStep T}
    (h : m.finish next o = some r) : r.mbox.running = m.running := by
  obtain ⟨c, -, -, hm, -⟩ | ⟨c, -, -, hm, -⟩ := finish_cases h <;> rw [hm] <;> rfl

theorem Move.running {m : Mailbox T} {input : TaskInput T} {t : Task T} {r : TaskStep T}
    (h : Move m input t r) (ht : t ≠ .storing) : r.mbox.running = m.running := by
  cases h with
  | store => exact absurd rfl ht
  | start _ hf => exact finish_running hf
  | terminate hf => exact finish_running hf
  | process hf => exact finish_running hf
  | _ => rfl

theorem Move.flag {m : Mailbox T} {input : TaskInput T} {t : Task T} {r : TaskStep T}
    (move : m.Move input t r) : r.mbox.terminated = m.terminated ∨ r.mbox.terminated = true := by
  cases move with
  | close => exact .inr rfl
  | start _ hf | terminate hf | process hf =>
    obtain ⟨c, -, -, hm, -⟩ | ⟨c, -, -, hm, -⟩ := finish_cases hf <;> rw [hm] <;> exact .inl rfl
  | _ => exact .inl rfl

/-- After `running.store(false)` a task only reads. -/
theorem Move.inactive {m : Mailbox T} {input : TaskInput T} {t : Task T} {r : TaskStep T}
    (h : Move m input t r) (ht : t.active = false) :
    r.mbox = m ∧ r.clients = [] ∧ ∀ t' ∈ r.next, t'.active = false := by
  cases h with
  | someUser _ | noUser _ | accepting _ | closed _ | someInternal _ | done _ => simp [Task.active]
  | _ => cases ht

/-- A task leaves the dispatcher only through `storing`, or by unwinding. -/
theorem Move.active_next {m : Mailbox T} {input : TaskInput T} {t : Task T} {r : TaskStep T}
    (h : Move m input t r) (ht : t.active = true) (hs : t ≠ .storing) :
    ∀ t' ∈ r.next, t'.active = true := by
  intro t' ht'
  cases h with
  | store => exact absurd rfl hs
  | start _ hf | terminate hf | process hf =>
    obtain ⟨_, -, -, -, hn, -⟩ | ⟨_, -, -, -, hn, -⟩ := finish_cases hf <;>
      rw [hn] at ht' <;> cases ht'
    rfl
  | someUser _ | noUser _ | accepting _ | closed _ | someInternal _ | done _ => cases ht
  | childUnwind _ | closingUnwind _ | userUnwind _ _ => cases ht'
  | _ =>
    cases ht'
    rfl

/-- What a step of a caller does to the mailbox, and the passing of time. -/
inductive Env (m : Mailbox T) : Mailbox T → Prop
  | same : Env m m
  | rejected (msg : Message T) : Env m (m.emit [.rejected msg])
  | watchReturned (w : ReplyTo) : m.terminated = true → Env m (m.emit [.watchReturned w])
  | pushed {msg : Message T} {queue : MessageQueue T} :
      queue.size = m.messageQueue.size → queue.items = m.messageQueue.items ++ [msg] →
      Env m { m with messageQueue := queue, log := m.log ++ [.pushed msg] }
  | pushedInternal (msg : InternalMessage) : Env m (m.pushInternal msg)
  | tick (d : Duration) : Env m { m with rt := { m.rt with clock := m.rt.clock + d } }

def SameQueues (m m' : Mailbox T) : Prop :=
  m'.internalQueue = m.internalQueue ∧ m'.messageQueue = m.messageQueue

theorem Env.running {m m' : Mailbox T} (h : Env m m') : m'.running = m.running := by
  cases h <;> rfl

theorem Env.terminated {m m' : Mailbox T} (h : Env m m') : m'.terminated = m.terminated := by
  cases h <;> rfl

end Mailbox

/-- A push has been made and its compare-exchange has not. -/
def Client.pending {T : Type} : Client T → Bool
  | .scheduling _ | .schedulingSelf => true
  | _ => false

/-- The caller after its compare-exchange. -/
def Client.scheduled {T : Type} : Client T → Option (Client T)
  | .scheduling watch => Node.afterSend watch
  | _ => none

namespace Mailbox

variable {T : Type}

/-- The branches of `clientStep`, but for the compare-exchange. -/
inductive Access (m : Mailbox T) : Client T → Option (Client T) → Mailbox T → Prop
  | accept {msg watch} : m.terminated = false →
      Access m (.checking msg watch) (some (.pushing msg watch)) m
  | refuse {msg watch} : m.terminated = true →
      Access m (.checking msg watch) (Node.afterSend watch) (m.emit [.rejected msg])
  | push {msg watch queue} : queue.size = m.messageQueue.size →
      queue.items = m.messageQueue.items ++ [msg] →
      Access m (.pushing msg watch) (some (.scheduling watch))
        { m with messageQueue := queue, log := m.log ++ [.pushed msg] }
  | full {msg watch} : ¬ (∀ n ∈ m.messageQueue.size, m.messageQueue.items.length < n) →
      Access m (.pushing msg watch) (Node.afterSend watch) (m.emit [.rejected msg])
  | pushInternal {msg watch} :
      Access m (.pushingInternal msg watch) (some (.scheduling watch)) (m.pushInternal msg)
  | unwatched {w} : m.terminated = true →
      Access m (.watching w) none (m.emit [.watchReturned w])
  | watch {w} : m.terminated = false →
      Access m (.watching w) (some (.pushingInternal (.watch w) none)) m
  | stopSelf : Access m .stoppingSelf (some .schedulingSelf) (m.pushInternal .terminate)

theorem Access.env {m m' : Mailbox T} {client : Client T} {next : Option (Client T)}
    (h : m.Access client next m') : m.Env m' := by
  cases h with
  | accept _ | watch _ => exact .same
  | refuse _ | full _ => exact .rejected _
  | push hsize hitems => exact .pushed hsize hitems
  | pushInternal | stopSelf => exact .pushedInternal _
  | unwatched ht => exact .watchReturned _ ht

theorem Access.pending {m m' : Mailbox T} {client : Client T} {next : Option (Client T)}
    (h : m.Access client next m') : client.pending = false := by
  cases h <;> rfl

theorem Access.queues {m m' : Mailbox T} {client : Client T} {next : Option (Client T)}
    (h : m.Access client next m') :
    m.SameQueues m' ∨ ∃ c ∈ next, c.pending = true := by
  cases h with
  | push _ _ | pushInternal | stopSelf => exact .inr ⟨_, rfl, rfl⟩
  | _ => exact .inl ⟨rfl, rfl⟩

end Mailbox

namespace Node

variable {T : Type}

inductive Move (nd : Node T) : Action T → Node T → Prop
  | call {c} : Move nd (.call c) { nd with clients := nd.clients ++ [c.start nd.mbox.option] }
  | access {i before client after next mbox} : nd.clients[i]? = some client →
      nd.clients = before ++ client :: after → nd.mbox.Access client next mbox →
      Move nd (.client i) ⟨mbox, nd.tasks, before ++ (next.toList ++ after)⟩
  | schedule {i before client after} :
      nd.clients = before ++ client :: after → client.pending = true →
      Move nd (.client i)
        { nd.schedule with clients := before ++ (client.scheduled.toList ++ after) }
  | reschedule {i input before after} :
      nd.tasks[i]? = some (.rechecking .scheduling) →
      nd.tasks = before ++ .rechecking .scheduling :: after →
      Move nd (.task i input) { nd with tasks := before ++ after }.schedule
  | task {i input before t after r} :
      nd.tasks[i]? = some t → nd.tasks = before ++ t :: after →
      nd.mbox.taskStep input t = some r →
      (t.active = true → ∀ c ∈ nd.clients, c.own = false) →
      Move nd (.task i input) ⟨r.mbox, before ++ (r.next.toList ++ after), nd.clients ++ r.clients⟩
  | deliver {msg} : Move nd (.deliver msg) (nd.deliver msg)
  | tick {d} :
      Move nd (.tick d)
        { nd with mbox := { nd.mbox with rt := { nd.mbox.rt with clock := nd.mbox.rt.clock + d } } }

theorem schedule_clients (nd : Node T) : nd.schedule.clients = nd.clients := by
  simp only [schedule]
  split <;> rfl

theorem clientStep_move {nd : Node T} {i : Nat} {client : Client T}
    (hc : nd.clients[i]? = some client) :
    Move nd (.client i) { (nd.clientStep client).1 with
      clients := Pool.advance (nd.clientStep client).1.clients i (nd.clientStep client).2 } := by
  obtain ⟨before, after, hsplit, hadv⟩ := Pool.exists_split hc
  have hadv : ∀ next, Pool.advance nd.clients i next = before ++ (next.toList ++ after) := by
    intro next
    simpa using hadv next []
  cases client with
  | checking msg watch =>
    simp only [clientStep]
    split
    next ht => simpa [hadv] using Move.access hc hsplit (.refuse ht)
    next ht => simpa [hadv] using Move.access hc hsplit (.accept (by simpa using ht))
  | pushing msg watch =>
    simp only [clientStep, Mailbox.pushUser]
    cases hp : nd.mbox.messageQueue.push msg with
    | error msg' =>
      obtain ⟨rfl, hfull⟩ := MessageQueue.push_error hp
      simpa [hadv] using Move.access hc hsplit (.full hfull)
    | ok queue =>
      obtain ⟨hsize, hitems⟩ := MessageQueue.push_ok hp
      simpa [hadv] using Move.access hc hsplit (.push hsize hitems)
  | pushingInternal msg watch =>
    simpa [clientStep, hadv] using Move.access hc hsplit .pushInternal
  | scheduling watch =>
    simpa [clientStep, schedule_clients, hadv, Client.scheduled] using Move.schedule hsplit rfl
  | watching w =>
    simp only [clientStep]
    split
    next ht => simpa [hadv] using Move.access hc hsplit (.unwatched ht)
    next ht => simpa [hadv] using Move.access hc hsplit (.watch (by simpa using ht))
  | stoppingSelf => simpa [clientStep, hadv] using Move.access hc hsplit .stopSelf
  | schedulingSelf =>
    simpa [clientStep, schedule_clients, hadv, Client.scheduled] using Move.schedule hsplit rfl

theorem step_move {nd nd' : Node T} {a : Action T} (h : nd.step a = some nd') :
    Move nd a nd' := by
  cases a with
  | call c =>
    cases h
    exact .call
  | client i =>
    simp only [step] at h
    split at h <;> cases h
    exact clientStep_move ‹_›
  | task i input =>
    simp only [step] at h
    split at h
    · cases h
    next ht =>
      obtain ⟨before, after, hsplit, hadv⟩ := Pool.exists_split ht
      cases h
      have hm : Move nd (.task i input) _ := .reschedule ht hsplit
      simp only [schedule] at hm ⊢
      split at hm
      next hr =>
        have := hadv none []
        simp_all
      next hr =>
        have := hadv none [.spawned]
        simp_all
    next ht =>
      split at h
      · cases h
      next hown =>
        split at h <;> cases h
        obtain ⟨before, after, hsplit, hadv⟩ := Pool.exists_split ht
        have hadv : ∀ next, Pool.advance nd.tasks i next = before ++ (next.toList ++ after) := by
          intro next
          simpa using hadv next []
        simpa only [hadv] using Move.task ht hsplit ‹_› (by simpa using hown)
  | deliver msg =>
    cases h
    exact .deliver
  | tick d =>
    cases h
    exact .tick

end Node

namespace Mailbox

variable {T : Type}

theorem Move.log {m : Mailbox T} {input : TaskInput T} {t : Task T} {r : TaskStep T}
    (h : m.Move input t r) : ∃ events, r.mbox.log = m.log ++ events := by
  cases h with
  | drainWatch _ | watchClosed _ | close | childUnwind _ | closingUnwind _ | stop _ | notify _
  | reply | userUnwind _ _ => exact ⟨_, rfl⟩
  | start _ hf | terminate hf | process hf =>
    obtain ⟨c, -, -, hm, -⟩ | ⟨c, -, -, hm, -⟩ := finish_cases hf
    · exact ⟨c.log, by rw [hm]; rfl⟩
    · exact ⟨c.log ++ [.unwound], by rw [hm]; simp [emit, commit]⟩
  | _ => exact ⟨[], (List.append_nil _).symm⟩

theorem Env.log {m m' : Mailbox T} (h : m.Env m') : ∃ events, m'.log = m.log ++ events := by
  cases h with
  | same | tick _ => exact ⟨[], (List.append_nil _).symm⟩
  | rejected _ | watchReturned _ _ | pushed _ _ | pushedInternal _ => exact ⟨_, rfl⟩

theorem Move.path {m : Mailbox T} {input : TaskInput T} {t : Task T} {r : TaskStep T}
    (h : m.Move input t r) : r.mbox.path = m.path := by
  cases h with
  | start _ hf | terminate hf | process hf =>
    obtain ⟨c, -, -, hm, -⟩ | ⟨c, -, -, hm, -⟩ := finish_cases hf <;> rw [hm] <;> rfl
  | _ => rfl

theorem Env.path {m m' : Mailbox T} (h : m.Env m') : m'.path = m.path := by
  cases h <;> rfl

end Mailbox

namespace Node

variable {T : Type}

theorem schedule_log (nd : Node T) : nd.schedule.mbox.log = nd.mbox.log := by
  simp only [schedule]
  split <;> rfl

theorem schedule_path (nd : Node T) : nd.schedule.mbox.path = nd.mbox.path := by
  simp only [schedule]
  split <;> rfl

theorem schedule_terminated (nd : Node T) :
    nd.schedule.mbox.terminated = nd.mbox.terminated := by
  simp only [schedule]
  split <;> rfl

theorem schedule_sets (nd : Node T) : nd.schedule.mbox.running = true := by
  simp only [schedule]
  split
  · assumption
  · rfl

theorem mem_schedule {nd : Node T} {t : Task T} (h : t ∈ nd.schedule.tasks) :
    t ∈ nd.tasks ∨ t = .spawned := by
  simp only [schedule] at h
  split at h
  · exact .inl h
  · simpa using h

theorem Move.log {nd nd' : Node T} {a : Action T} (h : Move nd a nd') :
    ∃ events, nd'.mbox.log = nd.mbox.log ++ events := by
  cases h with
  | call | tick => exact ⟨[], (List.append_nil _).symm⟩
  | access _ _ hacc => exact hacc.env.log
  | schedule _ _ => exact ⟨[], by rw [List.append_nil]; exact schedule_log nd⟩
  | reschedule _ _ => exact ⟨[], by rw [List.append_nil]; exact schedule_log _⟩
  | task _ _ hr _ => exact (Mailbox.taskStep_move hr).log
  | deliver => exact ⟨_, rfl⟩

theorem Move.path {nd nd' : Node T} {a : Action T} (h : Move nd a nd') :
    nd'.mbox.path = nd.mbox.path := by
  cases h with
  | access _ _ hacc => exact hacc.env.path
  | schedule _ _ => exact schedule_path nd
  | reschedule _ _ => exact schedule_path _
  | task _ _ hr _ => exact (Mailbox.taskStep_move hr).path
  | _ => rfl

end Node

end Ruactor
