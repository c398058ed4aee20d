import Ruactor.Context
import Ruactor.Library.Outcome

/-!
# The dispatcher

The functions of `Dispatcher` that run callbacks. They touch nothing but the
dispatcher and its context, so each call is one step of the mailbox model in
`Ruactor.Mailbox`; the rest of the loop is there, where it meets other threads.

A `Cell` holds the callbacks still to come: `call` takes the next one, and is
stuck when that is a callback of another site. `checkBecome`, `onExit` and
`onEnter` call each other for as long as callbacks ask for transitions. The fuel
bounds the depth of these calls, and `lifecycleFuel` is more than the callbacks
that are there can use up.
-/

namespace Ruactor

structure Dispatcher (T : Type) where
  parent : Option ParentRef
  actor : Option InstanceId
  lastMessageTimestamp : Instant
  context : Option (ActorContext T)
  watcher : List ReplyTo

/-- The places where the dispatcher leaves its own code. -/
inductive Site
  | create
  | onEnter
  | onExit
  | onMessage
  | onSystemMessage
  deriving DecidableEq, Repr

/-- One call of a callback: the operations it performs, and whether it panics
after them, or with the last of them. -/
structure Callback (T : Type) where
  site : Site
  ops : List (ContextOp T)
  panics : Bool
  deriving DecidableEq, Repr

structure Cell (T : Type) where
  disp : Dispatcher T
  rt : Runtime
  calls : List (Callback T)
  log : List (Event T)

namespace Cell

variable {T : Type}

def emit (c : Cell T) (events : List (Event T)) : Cell T := { c with log := c.log ++ events }

def apply (c : Cell T) (e : Effect T) : Cell T :=
  { c with
    disp := { c.disp with context := some e.context }
    rt := e.rt
    log := c.log ++ e.log }

def call (site : Site) (events : List (Event T)) (c : Cell T) : Outcome (Cell T) :=
  match c.disp.context with
  | none => .panicked c
  | some context =>
    match c.calls with
    | [] => .stuck
    | cb :: calls =>
      if cb.site = site then
        let c := ({ c with calls := calls }.emit events).apply (runOps c.rt context cb.ops)
        if cb.panics then .panicked c else .returned c
      else .stuck

/-- `self.actor = Some(self.prop.create())`. -/
def create (c : Cell T) : Outcome (Cell T) :=
  match c.calls with
  | [] => .stuck
  | cb :: calls =>
    if cb.site = .create then
      if cb.panics then .panicked { c with calls := calls }
      else .returned
        { disp := { c.disp with actor := some c.rt.actors }
          rt := { c.rt with actors := c.rt.actors + 1 }
          calls := calls
          log := c.log ++ [.created c.rt.actors, .installed c.rt.actors] }
    else .stuck

/-- `replace(&mut self.actor, context.actor.take())`, without the old actor. -/
def install (context : ActorContext T) (new : InstanceId) (c : Cell T) : Cell T :=
  { c with
    disp := { c.disp with actor := some new, context := some { context with actor := none } }
    log := c.log ++ [.installed new] }

/-- `self.actor.take()`, without the old actor. -/
def takeActor (c : Cell T) : Cell T := { c with disp := { c.disp with actor := none } }

mutual

def checkBecome (fuel : Nat) (c : Cell T) : Outcome (Cell T) :=
  match fuel with
  | 0 => .stuck
  | fuel + 1 =>
    match c.disp.context with
    | none => .panicked c
    | some context =>
      match context.actor with
      | none => .returned c
      | some new => (onExit fuel c.disp.actor (c.install context new)).bind (onEnter fuel)

def onExit (fuel : Nat) (oldActor : Option InstanceId) (c : Cell T) : Outcome (Cell T) :=
  match fuel with
  | 0 => .stuck
  | fuel + 1 =>
    match oldActor with
    | none => .returned c
    | some actor => (c.call .onExit [.exited actor]).bind (checkBecome fuel)

def onEnter (fuel : Nat) (c : Cell T) : Outcome (Cell T) :=
  match fuel with
  | 0 => .stuck
  | fuel + 1 =>
    match c.disp.actor with
    | none => .returned c
    | some actor => (c.call .onEnter [.entered actor]).bind (checkBecome fuel)

end

def lifecycleFuel (c : Cell T) : Nat := 2 * c.calls.length + 2

def createContext (c : Cell T) : Cell T :=
  match c.disp.context with
  | none => { c with disp := { c.disp with context := some .new } }
  | some _ => c

/-- The head of `actor_loop` for an actor that has a parent. -/
def startActor (c : Cell T) : Outcome (Cell T) :=
  let c := c.createContext
  match c.disp.actor with
  | none => c.create.bind fun c => onEnter c.lifecycleFuel c
  | some _ => .returned c

/-- The first part of `terminate`, up to the last `on_exit`. -/
def terminateActor (c : Cell T) : Outcome (Cell T) :=
  onExit c.lifecycleFuel c.disp.actor (c.takeActor.emit [.terminating])

/-- An operation of the dispatcher's own. -/
def attempt (e : Effect T) (c : Cell T) : Outcome (Cell T) :=
  if e.panics then .panicked (c.apply e) else .returned (c.apply e)

def touch (context : ActorContext T) (c : Cell T) : Cell T :=
  let c := c.emit [.received c.rt.clock]
  if context.receiveTimeout.isSome then
    { c with disp := { c.disp with lastMessageTimestamp := c.rt.clock } }
  else c

/-- `on_message`; `numMsg` is the length of the message queue. -/
def onMessage (numMsg : Nat) (src : Source) (message : Message T) (c : Cell T) :
    Outcome (Cell T) :=
  match c.disp.actor with
  | none => .returned c
  | some actor =>
    match c.disp.context with
    | none => .panicked c
    | some context =>
      match message with
      | .user msg => (c.touch context).call .onMessage [.delivered actor src msg]
      | .timer key gen msg handle =>
        let c := c.touch context
        let signal := match context.timer.lookup key with
          | some info => decide (info.gen = gen)
          | none => false
        if signal then c.call .onMessage [.timerDelivered actor key gen msg handle] else .returned c
      | .autoMessage .poisonPill => .returned (c.apply (context.stopSelf c.rt))
      | .receiveTimeout exp _ =>
        match context.receiveTimeout with
        | none => .returned c
        | some tmout =>
          if numMsg = 0 then
            if exp > c.disp.lastMessageTimestamp then
              if exp - c.disp.lastMessageTimestamp ≥ tmout then
                c.call .onSystemMessage [.systemDelivered actor .receiveTimeout c.rt.clock]
              else if Instant.overflows (c.disp.lastMessageTimestamp + tmout) then .panicked c
              else
                let exp := (c.disp.lastMessageTimestamp + tmout) - c.rt.clock
                c.attempt (context.scheduleReceiveTimeout c.rt exp)
            else c.attempt (context.scheduleReceiveTimeout c.rt tmout)
          else c.attempt (context.scheduleReceiveTimeout c.rt tmout)

/-- The `Err` arm of `process_message`. -/
def restart (c : Cell T) : Outcome (Cell T) :=
  (onExit c.lifecycleFuel c.disp.actor c.takeActor).bind fun c =>
    c.create.bind fun c => onEnter c.lifecycleFuel c

/-- The handler runs under `catch_unwind`; what follows does not. -/
def processMessage (numMsg : Nat) (src : Source) (message : Message T) (c : Cell T) :
    Outcome (Cell T) :=
  match onMessage numMsg src message c with
  | .returned c => checkBecome c.lifecycleFuel c
  | .panicked c => restart c
  | .stuck => .stuck

end Cell

end Ruactor
