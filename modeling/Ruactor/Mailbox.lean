import Ruactor.Dispatcher
import Ruactor.Library.Machine
import Ruactor.Library.Pool

/-!
# One mailbox and the threads that use it

A node is a mailbox with its `receive` tasks and its callers. A step of a task
or of a caller makes one access to what other threads can see (a queue, `running`,
`terminated`), or runs callbacks. Steps interleave in any order, and any
number of tasks and callers may be under way.

A task is at one of the program points of `receive` and `actor_loop`. The
dispatcher is not locked: nothing in the steps keeps two tasks apart.
-/

namespace Ruactor

structure Mailbox (T : Type) where
  path : ActorPath
  option : PropsOption
  internalQueue : List InternalMessage
  messageQueue : MessageQueue T
  running : Bool
  terminated : Bool
  dispatcher : Dispatcher T
  rt : Runtime
  log : List (Event T)

/-- Program points inside the loop of `actor_loop`, in the order of the source:
`next_message`, `pop_internal_message`, the arms of `on_internal_message`, the
parts of `terminate`, the rest of `next_message`, `process_message`, and the
test of the batch limit. -/
inductive Stage (T : Type)
  | nextMessage
  | popInternal
  | internalMessage (msg : InternalMessage)
  | closing
  | stopping (rest : List ChildId)
  | terminating
  | notifying
  | replying
  | popUser
  | processing (src : Source) (msg : Message T)
  | processed
  deriving DecidableEq, Repr

/-- The points of `receive` after `running.store(false)`. -/
inductive Recheck
  | readUser
  | readTerminated
  | readInternal
  | scheduling
  deriving DecidableEq, Repr

inductive Task (T : Type)
  | spawned
  | draining
  | looping (count : Nat) (stage : Stage T)
  | storing
  | rechecking (point : Recheck)
  deriving DecidableEq, Repr

/-- Between its spawning and its `running.store(false)`. -/
def Task.active {T : Type} : Task T → Bool
  | .rechecking _ => false
  | _ => true

/-- A call under way. `watch` names the call of `watch` that follows in
`graceful_stop` and `wait_stop`. The last two are the points of a `stop_self` in a
callback of the actor itself. -/
inductive Client (T : Type)
  | checking (msg : Message T) (watch : Option ReplyTo)
  | pushing (msg : Message T) (watch : Option ReplyTo)
  | pushingInternal (msg : InternalMessage) (watch : Option ReplyTo)
  | scheduling (watch : Option ReplyTo)
  | watching (replyTo : ReplyTo)
  | stoppingSelf
  | schedulingSelf
  deriving DecidableEq, Repr

/-- The task that runs is itself the caller. -/
def Client.own {T : Type} : Client T → Bool
  | .stoppingSelf | .schedulingSelf => true
  | _ => false

inductive Call (T : Type)
  | send (msg : Message T)
  | trySend (msg : Message T)
  | stop
  | watch (replyTo : ReplyTo)
  | gracefulStop (replyTo : ReplyTo)
  | waitStop (replyTo : ReplyTo)
  deriving DecidableEq, Repr

/-- `send` and `try_send` make the same accesses; the result of `try_send` is
whether its message was `pushed` or `rejected`. -/
def Call.start {T : Type} (option : PropsOption) : Call T → Client T
  | .send msg | .trySend msg => .checking msg none
  | .stop => .pushingInternal .terminate none
  | .watch w => .watching w
  | .gracefulStop w => .checking (.autoMessage .poisonPill) (some w)
  | .waitStop w =>
    if option.gracefulStop then .checking (.autoMessage .poisonPill) (some w)
    else .pushingInternal .terminate (some w)

/-- What the environment decides in a step of a task: the callbacks it runs, and
which child is stopped next. -/
structure TaskInput (T : Type) where
  calls : List (Callback T) := []
  pick : Nat := 0
  deriving DecidableEq, Repr

/-- `none` for a task that has ended, with the pushes that are still to come. -/
structure TaskStep (T : Type) where
  mbox : Mailbox T
  next : Option (Task T)
  clients : List (Client T) := []

namespace Mailbox

variable {T : Type}

def new (path : ActorPath) (option : PropsOption) (parent : ParentRef) : Mailbox T where
  path := path
  option := option
  internalQueue := []
  messageQueue := .new option.bounded
  running := false
  terminated := false
  dispatcher := ⟨some parent, none, 0, none, []⟩
  rt := ⟨0, 0, 0⟩
  log := []

def numUserMessage (m : Mailbox T) : Nat := m.messageQueue.len

def numInternalMessage (m : Mailbox T) : Nat := m.internalQueue.length

def emit (m : Mailbox T) (events : List (Event T)) : Mailbox T :=
  { m with log := m.log ++ events }

/-- `message_queue.push`, with its outcome in the log. -/
def pushUser (m : Mailbox T) (msg : Message T) : Except (Mailbox T) (Mailbox T) :=
  match m.messageQueue.push msg with
  | .ok queue => .ok { m with messageQueue := queue, log := m.log ++ [.pushed msg] }
  | .error msg => .error (m.emit [.rejected msg])

def pushInternal (m : Mailbox T) (msg : InternalMessage) : Mailbox T :=
  { m with internalQueue := m.internalQueue ++ [msg], log := m.log ++ [.pushedInternal msg] }

def withContext (m : Mailbox T) (context : ActorContext T) : Mailbox T :=
  { m with dispatcher := { m.dispatcher with context := some context } }

def cell (m : Mailbox T) (input : TaskInput T) : Cell T := ⟨m.dispatcher, m.rt, input.calls, []⟩

/-- The calls of `stop_self` in callbacks and for `PoisonPill`. Each is left to a caller,
so that it may meet the pushes of others in any order; the task waits for it. -/
def selfStops (log : List (Event T)) : List (Client T) :=
  log.filterMap fun
    | .stopSelf => some .stoppingSelf
    | _ => none

def commit (m : Mailbox T) (c : Cell T) : Mailbox T :=
  { m with
    dispatcher := c.disp
    rt := c.rt
    log := m.log ++ c.log }

/-- The end of a step that ran callbacks: every callback of the input was called,
and a panic ends the task. -/
def finish (m : Mailbox T) (next : Task T) : Outcome (Cell T) → Option (TaskStep T)
  | .returned c =>
    if c.calls.isEmpty then
      some ⟨m.commit c, some next, selfStops c.log⟩
    else none
  | .panicked c =>
    if c.calls.isEmpty then
      some ⟨(m.commit c).emit [.unwound], none, selfStops c.log⟩
    else none
  | .stuck => none

/-- A failed `expect("must")`. -/
def unwind (m : Mailbox T) : TaskStep T := ⟨m.emit [.unwound], none, []⟩

def onInternalMessage (m : Mailbox T) (count : Nat) : InternalMessage → TaskStep T
  | .watch replyTo =>
    if m.terminated then ⟨m.emit [.replied replyTo], some (.looping count .popInternal), []⟩
    else
      let d := m.dispatcher
      ⟨{ m with dispatcher := { d with watcher := d.watcher ++ [replyTo] } },
        some (.looping count .popInternal), []⟩
  | .terminate =>
    ⟨{ m with terminated := true, log := m.log ++ [.closed] }, some (.looping count .closing), []⟩
  | .childTerminate path _ =>
    match m.dispatcher.context with
    | none => m.unwind
    | some context =>
      let context := { context with childrens := context.childrens.erase path.key }
      if context.suspendReason.isSome ∧ context.childrens.entries = [] then
        ⟨m.withContext { context with suspendReason := none },
          some (.looping count .terminating), []⟩
      else ⟨m.withContext context, some (.looping count .popInternal), []⟩
  | .created => ⟨m, some (.looping count .popInternal), []⟩

def stageStep (m : Mailbox T) (input : TaskInput T) (count : Nat) :
    Stage T → Option (TaskStep T)
  | .nextMessage =>
    match m.dispatcher.context with
    | none => some ⟨m, some .storing, []⟩
    | some _ => some ⟨m, some (.looping count .popInternal), []⟩
  | .popInternal =>
    match m.dispatcher.context with
    | none => some ⟨m, some (.looping count .popUser), []⟩
    | some _ =>
      match m.internalQueue with
      | [] => some ⟨m, some (.looping count .popUser), []⟩
      | msg :: rest =>
        some ⟨{ m with internalQueue := rest }, some (.looping count (.internalMessage msg)), []⟩
  | .internalMessage msg => some (m.onInternalMessage count msg)
  | .closing =>
    match m.dispatcher.context with
    | none => some m.unwind
    | some context =>
      if context.childrens.entries = [] then some ⟨m, some (.looping count .terminating), []⟩
      else
        some ⟨m.withContext { context with suspendReason := some .childrenTermination },
          some (.looping count (.stopping (context.childrens.entries.map fun e => e.2.child))), []⟩
  | .stopping rest =>
    match rest with
    | [] => some ⟨m, some (.looping count .popInternal), []⟩
    | _ :: _ =>
      match rest[input.pick]? with
      | none => none
      | some child =>
        some ⟨m.emit [.stopped child],
          some (.looping count (.stopping (rest.eraseIdx input.pick))), []⟩
  | .terminating =>
    m.finish (.looping count .notifying) (m.cell input).terminateActor
  | .notifying =>
    match m.dispatcher.parent with
    | none => some ⟨m, some (.looping count .replying), []⟩
    | some parent =>
      some ⟨{ m with
          dispatcher := { m.dispatcher with parent := none }
          log := m.log ++ [.notified parent m.path] },
        some (.looping count .replying), []⟩
  | .replying =>
    let d := m.dispatcher
    let handles := (d.context.map ActorContext.handles).getD []
    some ⟨{ m with
        dispatcher := { d with watcher := [], context := none }
        log := m.log ++ (d.watcher.map .replied ++ handles.map .dropped) },
      some (.looping count .popInternal), []⟩
  | .popUser =>
    if m.terminated then some ⟨m, some .storing, []⟩
    else
      match m.dispatcher.context with
      | none => some m.unwind
      | some context =>
        match context.unstashed with
        | msg :: rest =>
          some ⟨m.withContext { context with unstashed := rest },
            some (.looping count (.processing .unstashed (.user msg))), []⟩
        | [] =>
          match m.messageQueue.pop with
          | none => some ⟨m, some .storing, []⟩
          | some (msg, queue) =>
            some ⟨{ m with messageQueue := queue },
              some (.looping count (.processing .queue msg)), []⟩
  | .processing src msg =>
    m.finish (.looping count .processed)
      ((m.cell input).processMessage m.numUserMessage src msg)
  | .processed =>
    if count + 1 ≥ m.option.throughput then some ⟨m, some .storing, []⟩
    else some ⟨m, some (.looping (count + 1) .nextMessage), []⟩

/-- A step of a task that does not touch the pool of tasks. -/
def taskStep (m : Mailbox T) (input : TaskInput T) : Task T → Option (TaskStep T)
  | .spawned =>
    match m.dispatcher.parent with
    | none => some ⟨m, some .draining, []⟩
    | some _ => m.finish (.looping 0 .nextMessage) (m.cell input).startActor
  | .draining =>
    match m.internalQueue with
    | [] => some ⟨m, some .storing, []⟩
    | msg :: rest =>
      let m := { m with internalQueue := rest }
      match msg with
      | .watch replyTo => some ⟨m.emit [.replied replyTo], some .draining, []⟩
      | _ => some ⟨m, some .draining, []⟩
  | .looping count stage => m.stageStep input count stage
  | .storing => some ⟨{ m with running := false }, some (.rechecking .readUser), []⟩
  | .rechecking .readUser =>
    some ⟨m, some (.rechecking (if m.numUserMessage > 0 then .readTerminated else .readInternal)),
      []⟩
  | .rechecking .readTerminated =>
    some ⟨m, some (.rechecking (if m.terminated then .readInternal else .scheduling)), []⟩
  | .rechecking .readInternal =>
    some ⟨m, if m.numInternalMessage > 0 then some (.rechecking .scheduling) else none, []⟩
  | .rechecking .scheduling => none

end Mailbox

structure Node (T : Type) where
  mbox : Mailbox T
  tasks : List (Task T)
  clients : List (Client T)

/-- `deliver` is a push to the internal queue by a task of another mailbox;
`tick` lets time pass. -/
inductive Action (T : Type)
  | call (call : Call T)
  | client (i : Nat)
  | task (i : Nat) (input : TaskInput T)
  | deliver (msg : InternalMessage)
  | tick (d : Duration)
  deriving DecidableEq, Repr

namespace Node

variable {T : Type}

def new (path : ActorPath) (option : PropsOption) (parent : ParentRef) : Node T :=
  ⟨.new path option parent, [], []⟩

/-- `Mailbox::schedule`: one compare-exchange on `running`. -/
def schedule (nd : Node T) : Node T :=
  if nd.mbox.running then nd
  else { nd with mbox := { nd.mbox with running := true }, tasks := nd.tasks ++ [.spawned] }

/-- The end of a `send`; `graceful_stop` and `wait_stop` go on with `watch`. -/
def afterSend (watch : Option ReplyTo) : Option (Client T) := watch.map .watching

/-- The access of a caller, and where the caller stands after it. -/
def clientStep (nd : Node T) : Client T → Node T × Option (Client T)
  | .checking msg watch =>
    if nd.mbox.terminated then
      ({ nd with mbox := nd.mbox.emit [.rejected msg] }, afterSend watch)
    else (nd, some (.pushing msg watch))
  | .pushing msg watch =>
    match nd.mbox.pushUser msg with
    | .ok mbox => ({ nd with mbox := mbox }, some (.scheduling watch))
    | .error mbox => ({ nd with mbox := mbox }, afterSend watch)
  | .pushingInternal msg watch =>
    ({ nd with mbox := nd.mbox.pushInternal msg }, some (.scheduling watch))
  | .scheduling watch => (nd.schedule, afterSend watch)
  | .watching replyTo =>
    if nd.mbox.terminated then
      ({ nd with mbox := nd.mbox.emit [.watchReturned replyTo] }, none)
    else (nd, some (.pushingInternal (.watch replyTo) none))
  | .stoppingSelf => ({ nd with mbox := nd.mbox.pushInternal .terminate }, some .schedulingSelf)
  | .schedulingSelf => (nd.schedule, none)

/-- A push by a task of another mailbox, with its `schedule` still to come. -/
def deliver (nd : Node T) (msg : InternalMessage) : Node T :=
  ⟨nd.mbox.pushInternal msg, nd.tasks, nd.clients ++ [.scheduling none]⟩

def step (nd : Node T) : Action T → Option (Node T)
  | .call call => some { nd with clients := nd.clients ++ [call.start nd.mbox.option] }
  | .client i =>
    match nd.clients[i]? with
    | none => none
    | some client =>
      let (nd, next) := nd.clientStep client
      some { nd with clients := Pool.advance nd.clients i next }
  | .task i input =>
    match nd.tasks[i]? with
    | none => none
    | some (.rechecking .scheduling) =>
      some { nd.schedule with tasks := Pool.advance nd.schedule.tasks i none }
    | some task =>
      -- the callback before this step has returned from its calls of `stop_self`
      if task.active ∧ nd.clients.any Client.own then none
      else
        match nd.mbox.taskStep input task with
        | none => none
        | some r =>
          some ⟨r.mbox, Pool.advance nd.tasks i r.next, nd.clients ++ r.clients⟩
  | .deliver msg => some (nd.deliver msg)
  | .tick d =>
    some { nd with mbox := { nd.mbox with
      rt := { nd.mbox.rt with clock := nd.mbox.rt.clock + d } } }

def machine (path : ActorPath) (option : PropsOption) (parent : ParentRef) :
    Machine (Node T) (Action T) := ⟨.new path option parent, step⟩

/-! Runs of one caller and one task that nobody interrupts. -/

def sending (msg : Message T) : List (Action T) :=
  [.call (.send msg), .client 0, .client 0, .client 0]

def stopping : List (Action T) := [.call .stop, .client 0, .client 0]

def turns (n : Nat) : List (Action T) := List.replicate n (.task 0 {})

def callbacks (calls : List (Callback T)) : List (Action T) := [.task 0 { calls := calls }]

/-- The first message is stashed, and comes back although the handler of the second
panics. -/
def stashingRun : List (Action Nat) :=
  sending (.user 1) ++ callbacks [⟨.create, [], false⟩, ⟨.onEnter, [], false⟩] ++ turns 3 ++
    callbacks [⟨.onMessage, [.stash 1], false⟩] ++ turns 1 ++ sending (.user 2) ++ turns 3 ++
    callbacks [⟨.onMessage, [.unstashAll], true⟩, ⟨.onExit, [], false⟩, ⟨.create, [], false⟩,
      ⟨.onEnter, [], false⟩] ++
    turns 4 ++ callbacks [⟨.onMessage, [], false⟩] ++ turns 7

abbrev sample : Machine (Node Nat) (Action Nat) := machine ⟨["user", "a"]⟩ {} .guard

def stashingNode : Node Nat := (sample.exec sample.start stashingRun).get (by decide +kernel)

theorem stashingNode_run : sample.exec sample.start stashingRun = some stashingNode :=
  (Option.some_get _).symm

end Node

end Ruactor
