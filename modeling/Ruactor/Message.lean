import Mathlib.Algebra.Group.Nat.Defs
import Ruactor.Path

/-!
# Messages, queues and the record of a run

`T` is the message type of an actor. Instants and durations are natural
numbers, of nanoseconds. Identities that the source has as addresses (actor objects, reply
channels, timer handles, the children of a context) are numbers given out in
order.
-/

namespace Ruactor

abbrev Instant := Nat
abbrev Duration := Nat
abbrev InstanceId := Nat
abbrev ReplyTo := Nat
abbrev Scheduled := Nat
abbrev ChildId := Nat
abbrev TypeId := Nat

/-- The seconds of an `Instant` are an `i64`: where a sum gets so far, `Instant + Duration`
panics. -/
def Instant.limit : Nat := 2 ^ 63 * 10 ^ 9

def Instant.overflows (t : Nat) : Bool := decide (limit ≤ t)

theorem Instant.overflows_iff {t : Nat} : Instant.overflows t = true ↔ limit ≤ t :=
  decide_eq_true_iff

inductive AutoMessage
  | poisonPill
  deriving DecidableEq, Repr

inductive SystemMessage
  | receiveTimeout
  deriving DecidableEq, Repr

/-- `handle` is history: the scheduler task that carries the message. No step reads it. -/
inductive Message (T : Type)
  | user (msg : T)
  | timer (key : String) (gen : Nat) (msg : T) (handle : Scheduled)
  | receiveTimeout (exp : Instant) (handle : Scheduled)
  | autoMessage (message : AutoMessage)
  deriving DecidableEq, Repr

/-- `sender` is history: which child of the receiver sent the notification. No
step reads it, the dispatcher goes by the path alone. -/
inductive InternalMessage
  | created
  | childTerminate (path : ActorPath) (sender : ChildId)
  | terminate
  | watch (replyTo : ReplyTo)
  deriving DecidableEq, Repr

structure PropsOption where
  gracefulStop : Bool := false
  throughput : Nat := 500
  bounded : Option Nat := none
  deriving DecidableEq, Repr

/-- `panics` is the choice of what `Mailbox::new` calls besides `ArrayQueue::new`: `option()`, the
allocator, and the builder of a dedicated runtime. -/
structure Props where
  option : PropsOption := {}
  panics : Bool := false
  deriving DecidableEq, Repr

/-- The option of the new mailbox, or none where `Mailbox::new` panics. There is no `ArrayQueue`
of the size 0. -/
def Props.mailbox (p : Props) : Option PropsOption :=
  if p.panics ∨ p.option.bounded = some 0 then none else some p.option

theorem Props.mailbox_option {p : Props} {option : PropsOption} (h : p.mailbox = some option) :
    option = p.option := by
  unfold mailbox at h
  split at h <;> cases h
  rfl

/-- `CrossbeamSegQueue`: a `SegQueue`, or an `ArrayQueue` of the given size. -/
structure MessageQueue (T : Type) where
  size : Option Nat
  items : List (Message T)
  within : ∀ n ∈ size, items.length ≤ n

namespace MessageQueue

variable {T : Type}

def new (size : Option Nat) : MessageQueue T := ⟨size, [], fun _ _ => Nat.zero_le _⟩

def len (q : MessageQueue T) : Nat := q.items.length

def full (q : MessageQueue T) : Bool :=
  match q.size with
  | none => false
  | some n => decide (n ≤ q.items.length)

def push (q : MessageQueue T) (msg : Message T) : Except (Message T) (MessageQueue T) :=
  if h : ∀ n ∈ q.size, q.items.length < n then
    .ok ⟨q.size, q.items ++ [msg], fun n hn => by
      simpa using Nat.succ_le_of_lt (h n hn)⟩
  else .error msg

def pop (q : MessageQueue T) : Option (Message T × MessageQueue T) :=
  match h : q.items with
  | [] => none
  | msg :: rest => some (msg, ⟨q.size, rest, fun n hn => by
      have := q.within n hn
      simp only [h, List.length_cons] at this
      omega⟩)

theorem full_eq_false {q : MessageQueue T} :
    q.full = false ↔ ∀ n ∈ q.size, q.items.length < n := by
  unfold full
  split
  next h => simp [h]
  next n h =>
    rw [decide_eq_false_iff_not, Nat.not_le, h]
    simp

theorem push_ok {q q' : MessageQueue T} {msg : Message T} (h : q.push msg = .ok q') :
    q'.size = q.size ∧ q'.items = q.items ++ [msg] := by
  unfold push at h
  split at h <;> cases h
  exact ⟨rfl, rfl⟩

theorem push_error {q : MessageQueue T} {msg msg' : Message T} (h : q.push msg = .error msg') :
    msg' = msg ∧ ¬ ∀ n ∈ q.size, q.items.length < n := by
  unfold push at h
  split at h <;> cases h
  exact ⟨rfl, ‹_›⟩

theorem pop_some {q q' : MessageQueue T} {msg : Message T} (h : q.pop = some (msg, q')) :
    q'.size = q.size ∧ q.items = msg :: q'.items := by
  unfold pop at h
  split at h <;> cases h
  next hq => exact ⟨rfl, hq⟩

theorem pop_none {q : MessageQueue T} (h : q.pop = none) : q.items = [] := by
  unfold pop at h
  split at h
  · assumption
  · cases h

end MessageQueue

inductive ParentRef
  | guard
  | actor
  deriving DecidableEq, Repr

/-- Where a delivered message was taken from. -/
inductive Source
  | queue
  | unstashed
  deriving DecidableEq, Repr

/-- The observable actions of a mailbox and its dispatcher, in the order in
which they happen. `found` is the child that a new one replaces in the map,
`received` the beginning of the processing of a user or timer message, and
`timerFailed` and `childFailed` are a start and a creation that have panicked. -/
inductive Event (T : Type)
  | pushed (msg : Message T)
  | rejected (msg : Message T)
  | pushedInternal (msg : InternalMessage)
  | received (now : Instant)
  | created (i : InstanceId)
  | installed (i : InstanceId)
  | entered (i : InstanceId)
  | exited (i : InstanceId)
  | delivered (i : InstanceId) (src : Source) (msg : T)
  | timerDelivered (i : InstanceId) (key : String) (gen : Nat) (msg : T) (handle : Scheduled)
  | systemDelivered (i : InstanceId) (message : SystemMessage) (now : Instant)
  | stashed (msg : T)
  | unstashedAll
  | timerStarted (key : String) (gen : Nat)
  | timerFailed (key : String) (gen : Nat)
  | timerCancelled (key : String)
  | timeoutSet (d : Duration) (now : Instant)
  | timeoutCancelled
  | afterFunc (handle : Scheduled) (eventTime : Instant) (msg : Message T)
  | dropped (handle : Scheduled)
  | childCreated (child : ChildId) (name : String) (option : PropsOption) (found : Option ChildId)
  | childFailed (name : String)
  | stopSelf
  | closed
  | terminating
  | stopped (child : ChildId)
  | notified (parent : ParentRef) (path : ActorPath)
  | replied (replyTo : ReplyTo)
  | watchReturned (replyTo : ReplyTo)
  | unwound
  deriving DecidableEq, Repr

/-- What the dispatcher itself records around its callbacks, but for the delivery of a
user message and the beginning of `terminate`. -/
def Event.routine {T : Type} : Event T → Bool
  | .received _ | .created _ | .installed _ | .entered _ | .exited _ | .timerDelivered _ _ _ _ _
  | .systemDelivered _ _ _ => true
  | _ => false

end Ruactor
