import Ruactor.Contents
import Ruactor.Library.Oneshot

/-!
# Asking an actor

`ask!` opens a one-shot channel, puts its sender into a message, calls `try_tell`, and waits
for the receiver with `tokio::time::timeout`. The actor answers with `reply_to!`, which takes
the sender out of its `Option`.

A sender is moved with the message that carries it. It is in the mailbox, or in the hands of a
program: of the actor whose handler was called with the message, of the timer that it set, of
another actor that the message was passed on to. These act at any moment, so the hands of all
programs are one list. A sender that is in no place any more was dropped.

The mailbox is there throughout, as it is while anybody has an `ActorRef`: the message queue of
a closed actor is dropped with the last one.
-/

namespace Ruactor

open Machine Weight

inductive ActorError
  | sendError (text : String)
  | recvError (err : Oneshot.RecvError)
  | timeoutError
  deriving DecidableEq, Repr

/-- What `ask!` uses of tokio: the channels, and the delay of `timeout`. `elapsed` says whether a
delay that began at one moment is over at another. -/
class Tokio (C : Type) (V : outParam Type) extends OneshotChannel C V where
  elapsed : Instant → Duration → Instant → Bool

/-- The points of `ask!`: its `try_tell` has not returned, has returned `Ok`, the receiver is
awaited, a poll has found it not ready and looks at the delay next, the delay is over and the
receiver not yet dropped, and the two ways to end. -/
inductive AskPoint (V : Type)
  | telling
  | told
  | receiving (began : Instant)
  | delaying (began : Instant)
  | elapsed
  | finished (result : Except ActorError V)
  | abandoned
  deriving DecidableEq

structure Ask (C V : Type) where
  tmout : Duration
  point : AskPoint V
  channel : C
  deriving DecidableEq

/-- The channel `k` is that of the ask `k`. `held` are the senders in the hands of programs, and
`replies` is history: what was sent over a channel whose receiver was there. -/
structure Asking (T C V : Type) where
  node : Node T
  asks : List (Ask C V)
  held : List ReplyTo
  replies : List (ReplyTo × V)

namespace Ask

variable {T C V : Type}

def isTelling (a : Ask C V) : Bool :=
  match a.point with
  | .telling => true
  | _ => false

/-- `tokio::time::timeout(tmout, rx)`. -/
def timeout (now : Instant) (a : Ask C V) : Option (Ask C V) :=
  match a.point with
  | .told => some { a with point := .receiving now }
  | _ => none

variable [Tokio C V] (sender : T → Option ReplyTo)

/-- What an event of the mailbox means for the ask `k`. -/
def note (full : String) (k : ReplyTo) (a : Ask C V) : Event T → Ask C V
  | .pushed (.user msg) =>
    match a.point with
    | .telling => if sender msg = some k then { a with point := .told } else a
    | _ => a
  | .rejected (.user msg) =>
    match a.point with
    | .telling =>
      if sender msg = some k then
        { a with
          point := .finished (.error (.sendError full))
          channel := OneshotChannel.dropReceiver a.channel }
      else a
    | _ => a
  | _ => a

/-- `Timeout::poll` looks at the receiver first. -/
def poll (a : Ask C V) : Option (Ask C V) :=
  match a.point with
  | .receiving began =>
    match OneshotChannel.poll a.channel with
    | some result =>
      some { a with
        point := .finished (result.mapError .recvError)
        channel := OneshotChannel.dropReceiver a.channel }
    | none => some { a with point := .delaying began }
  | _ => none

/-- Then it looks at the delay. -/
def pollDelay (now : Instant) (a : Ask C V) : Option (Ask C V) :=
  match a.point with
  | .delaying began =>
    if Tokio.elapsed C began a.tmout now then some { a with point := .elapsed }
    else some { a with point := .receiving began }
  | _ => none

/-- `recv.await` has returned `Elapsed`, and the receiver is dropped. -/
def expire (a : Ask C V) : Option (Ask C V) :=
  match a.point with
  | .elapsed =>
    some { a with
      point := .finished (.error .timeoutError)
      channel := OneshotChannel.dropReceiver a.channel }
  | _ => none

/-- The future of the ask is dropped while it waits. -/
def abandon (a : Ask C V) : Option (Ask C V) :=
  match a.point with
  | .receiving _ =>
    some { a with point := .abandoned, channel := OneshotChannel.dropReceiver a.channel }
  | _ => none

end Ask

namespace Asking

variable {T C V : Type}

inductive Action (T V : Type)
  | ask (msg : T) (tmout : Duration)
  | timeout (k : ReplyTo)
  | poll (k : ReplyTo)
  | pollDelay (k : ReplyTo)
  | expire (k : ReplyTo)
  | abandon (k : ReplyTo)
  | reply (k : ReplyTo) (v : V)
  | discard (k : ReplyTo)
  | node (a : Ruactor.Action T)
  deriving DecidableEq

def askStep (s : Asking T C V) (k : ReplyTo) (f : Ask C V → Option (Ask C V)) :
    Option (Asking T C V) :=
  match s.asks[k]? with
  | none => none
  | some a => (f a).map fun a => { s with asks := s.asks.set k a }

variable [Tokio C V] (sender : T → Option ReplyTo)

/-- A program gives a message away, and the sender in it. -/
def give (held : List ReplyTo) (msg : T) : Option (List ReplyTo) :=
  match sender msg with
  | none => some held
  | some k => if k ∈ held then some (held.erase k) else none

/-- What an event of the mailbox puts into the hands of a program, or takes from them. A timer
is a program too, and so is the caller of a `try_tell` that was refused; an `ask!` drops the
message instead. -/
def hands (telling : ReplyTo → Bool) (held : List ReplyTo) : Event T → Option (List ReplyTo)
  | .delivered _ _ msg | .timerDelivered _ _ _ msg _ => some (held ++ (sender msg).toList)
  | .stashed msg => give sender held msg
  | .afterFunc _ _ (.timer _ _ msg _) => (give sender held msg).map fun _ => held
  | .rejected msg =>
    some (held ++ (msg.contents.filterMap sender).filter fun k => !telling k)
  | _ => some held

/-- `reply_to!`: the second reply finds `None`. -/
def replyTo (s : Asking T C V) (k : ReplyTo) (v : V) : Asking T C V × Except V Unit :=
  match s.asks[k]? with
  | none => (s, .error v)
  | some a =>
    if k ∈ s.held then
      let sent := OneshotChannel.send a.channel v
      ({ s with
          asks := s.asks.set k { a with channel := sent.1 }
          held := s.held.erase k
          replies := match sent.2 with
            | .ok _ => s.replies ++ [(k, v)]
            | .error _ => s.replies },
        sent.2)
    else (s, .error v)

def nodeStep (s : Asking T C V) (a : Ruactor.Action T) : Option (Asking T C V) := do
  let held ← a.contents.foldlM (give sender) s.held
  let node ← s.node.step a
  let events := node.mbox.log.drop s.node.mbox.log.length
  let telling := fun k => (s.asks[k]?.map Ask.isTelling).getD false
  let held ← events.foldlM (hands sender telling) held
  let full := "actor " ++ s.node.mbox.path.toString ++ " mailbox full"
  some { s with
    node := node
    asks := s.asks.mapIdx fun k ask => events.foldl (Ask.note sender full k) ask
    held := held }

/-- A sender that nobody owns any more is dropped. -/
def collect (s : Asking T C V) : Asking T C V :=
  { s with
    asks := s.asks.mapIdx fun k a =>
      if k ∈ s.held ∨ k ∈ s.node.contents.filterMap sender then a
      else { a with channel := OneshotChannel.dropSender a.channel } }

/-- What a step does, but for the senders that nobody owns after it. -/
def move (s : Asking T C V) : Action T V → Option (Asking T C V)
  | .ask msg tmout =>
    if sender msg = some s.asks.length then
      (s.node.step (.call (.trySend (.user msg)))).map fun node =>
        { s with node := node, asks := s.asks ++ [⟨tmout, .telling, OneshotChannel.channel⟩] }
    else none
  | .timeout k => s.askStep k (Ask.timeout s.node.mbox.rt.clock)
  | .poll k => s.askStep k Ask.poll
  | .pollDelay k => s.askStep k (Ask.pollDelay s.node.mbox.rt.clock)
  | .expire k => s.askStep k Ask.expire
  | .abandon k => s.askStep k Ask.abandon
  | .reply k v => some (s.replyTo k v).1
  | .discard k => if k ∈ s.held then some { s with held := s.held.erase k } else none
  | .node a => s.nodeStep sender a

def step (s : Asking T C V) (a : Action T V) : Option (Asking T C V) :=
  (s.move sender a).map (collect sender)

def machine (path : ActorPath) (option : PropsOption) (parent : ParentRef) :
    Machine (Asking T C V) (Action T V) :=
  ⟨⟨.new path option parent, [], [], []⟩, step sender⟩

end Asking

end Ruactor
