import Mathlib.Algebra.Group.Nat.Defs
import Mathlib.Data.List.AList
import Ruactor.Message

/-!
# The actor context

What a callback can do through `ActorContext`. A callback is known by the
operations it performs, in order, so a program is any choice of operations at
each call. An operation can panic: where the callback does not catch that, it is
the last one and the callback panics with it. Tells to other actors need no
operation here: any sender may act at any moment.

The clock, the supply of actor objects and the supply of timer handles are kept
in `Runtime`, since they are not part of the context.
-/

namespace Ruactor

structure Runtime where
  clock : Instant
  actors : Nat
  handles : Nat
  deriving DecidableEq, Repr

structure TimerMessage where
  gen : Nat
  scheduled : Scheduled
  deriving DecidableEq, Repr

structure ChildContainer where
  messageType : TypeId
  child : ChildId
  deriving DecidableEq, Repr

inductive SuspendReason
  | childrenTermination
  deriving DecidableEq, Repr

/-- `created` is history: the names of the mailboxes the context has created,
the child `k` being the one at position `k`. -/
structure ActorContext (T : Type) where
  actor : Option InstanceId
  stash : List T
  unstashed : List T
  timer : AList fun _ : String => TimerMessage
  childrens : AList fun _ : String => ChildContainer
  receiveTimeout : Option Duration
  scheduledReceiveTimeout : Option Scheduled
  timerGen : Nat
  nextNameOffset : Nat
  suspendReason : Option SuspendReason
  created : List String

def base64Chars : List Char :=
  "abcdefghijklmnopqrstuvwxyzABCDEFGHIJKLMNOPQRSTUVWXYZ0123456789+~".toList

def base64 (l : Nat) (s : String) : String :=
  let s := s.push (base64Chars[l &&& 63]?.getD '~')
  let next := l >>> 6
  if next = 0 then s else base64 next s
termination_by l
decreasing_by
  rename_i h
  simp only [Nat.shiftRight_eq_div_pow] at h ⊢
  omega

/-- An operation of a callback. `elapse` lets time pass during the callback. -/
inductive ContextOp (T : Type)
  | transit
  | stash (msg : T)
  | unstashAll
  | startSingleTimer (name : String) (d : Duration) (msg : T)
  | cancelTimer (name : String)
  | setReceiveTimeout (d : Duration)
  | cancelReceiveTimeout
  | createChild (messageType : TypeId) (prop : Props)
  | getOrCreateChild (name : String) (messageType : TypeId) (prop : Props)
  | stopSelf
  | elapse (d : Duration)
  deriving DecidableEq, Repr

/-- What an operation has done when it returns, or panics. -/
structure Effect (T : Type) where
  rt : Runtime
  context : ActorContext T
  log : List (Event T)
  panics : Bool := false

namespace ActorContext

variable {T : Type}

def new : ActorContext T where
  actor := none
  stash := []
  unstashed := []
  timer := ∅
  childrens := ∅
  receiveTimeout := none
  scheduledReceiveTimeout := none
  timerGen := 0
  nextNameOffset := 0
  suspendReason := none
  created := []

def transit (rt : Runtime) (c : ActorContext T) : Effect T :=
  { rt := { rt with actors := rt.actors + 1 }
    context := { c with actor := some rt.actors }
    log := [] }

def nextTimerGen (c : ActorContext T) : Nat × ActorContext T :=
  (c.timerGen,
    { c with timerGen := if c.timerGen = 2 ^ 32 - 1 then 0 else c.timerGen + 1 })

/-- Dropping a `Scheduled` cancels its task. -/
def dropHandle (old : Option Scheduled) : List (Event T) := (old.map Event.dropped).toList

/-- `after_func` has given the task to the scheduler. -/
def insertTimer (rt : Runtime) (c : ActorContext T) (name : String) (gen : Nat) (d : Duration)
    (msg : T) : Effect T where
  rt := { rt with handles := rt.handles + 1 }
  context := { c with timer := c.timer.insert name ⟨gen, rt.handles⟩ }
  log := [.timerStarted name gen,
    .afterFunc rt.handles (rt.clock + d) (.timer name gen msg rt.handles)] ++
      dropHandle ((c.timer.lookup name).map TimerMessage.scheduled)

/-- `after_func` computes the deadline first. -/
def startSingleTimer (rt : Runtime) (c : ActorContext T) (name : String) (d : Duration)
    (msg : T) : Effect T :=
  let (gen, c) := c.nextTimerGen
  if Instant.overflows (rt.clock + d) then
    { rt := rt, context := c, log := [.timerFailed name gen], panics := true }
  else c.insertTimer rt name gen d msg

def cancelTimer (rt : Runtime) (c : ActorContext T) (name : String) : Effect T where
  rt := rt
  context := { c with timer := c.timer.erase name }
  log := .timerCancelled name :: dropHandle ((c.timer.lookup name).map TimerMessage.scheduled)

def armReceiveTimeout (rt : Runtime) (c : ActorContext T) (d : Duration) : Effect T where
  rt := { rt with handles := rt.handles + 1 }
  context := { c with scheduledReceiveTimeout := some rt.handles }
  log := .afterFunc rt.handles (rt.clock + d) (.receiveTimeout (rt.clock + d) rt.handles) ::
    dropHandle c.scheduledReceiveTimeout

def scheduleReceiveTimeout (rt : Runtime) (c : ActorContext T) (d : Duration) : Effect T :=
  if Instant.overflows (rt.clock + d) then
    { rt := rt, context := c, log := [], panics := true }
  else c.armReceiveTimeout rt d

def setReceiveTimeout (rt : Runtime) (c : ActorContext T) (d : Duration) : Effect T :=
  let e := scheduleReceiveTimeout rt { c with receiveTimeout := some d } d
  { e with log := .timeoutSet d rt.clock :: e.log }

def cancelReceiveTimeout (rt : Runtime) (c : ActorContext T) : Effect T where
  rt := rt
  context := { c with receiveTimeout := none, scheduledReceiveTimeout := none }
  log := .timeoutCancelled :: dropHandle c.scheduledReceiveTimeout

def stashMessage (rt : Runtime) (c : ActorContext T) (msg : T) : Effect T where
  rt := rt
  context := { c with stash := c.stash ++ [msg] }
  log := [.stashed msg]

/-- The loop of `unstash_all`: pop from the front, push to the back. -/
def unstashLoop : List T → List T → List T
  | [], unstashed => unstashed
  | msg :: stash, unstashed => unstashLoop stash (unstashed ++ [msg])

theorem unstashLoop_eq (stash unstashed : List T) :
    unstashLoop stash unstashed = unstashed ++ stash := by
  induction stash generalizing unstashed with
  | nil => simp [unstashLoop]
  | cons msg stash ih => simp [unstashLoop, ih]

def unstashAll (rt : Runtime) (c : ActorContext T) : Effect T where
  rt := rt
  context := { c with stash := [], unstashed := unstashLoop c.stash c.unstashed }
  log := [.unstashedAll]

/-- A container of another message type is not found: the downcast fails. -/
def getChild (c : ActorContext T) (name : String) (messageType : TypeId) : Option ChildId :=
  match c.childrens.lookup name with
  | some any => if any.messageType = messageType then some any.child else none
  | none => none

def randomName (c : ActorContext T) : String × ActorContext T :=
  let num := c.nextNameOffset
  (base64 num "$", { c with nextNameOffset := if num + 1 < 2 ^ 64 then num + 1 else 0 })

/-- The child with the new mailbox gets its entry. -/
def insertChild (rt : Runtime) (c : ActorContext T) (name : String) (messageType : TypeId)
    (option : PropsOption) : Effect T where
  rt := rt
  context := { c with
    childrens := c.childrens.insert name ⟨messageType, c.created.length⟩
    created := c.created ++ [name] }
  log := [.childCreated c.created.length name option
    ((c.childrens.lookup name).map ChildContainer.child)]

/-- There is no child where `Mailbox::new` panics. -/
def getOrCreateChild (rt : Runtime) (c : ActorContext T) (name : String)
    (messageType : TypeId) (prop : Props) : Option ChildId × Effect T :=
  match c.getChild name messageType, prop.mailbox with
  | some child, _ => (some child, { rt := rt, context := c, log := [] })
  | none, some option => (some c.created.length, c.insertChild rt name messageType option)
  | none, none => (none, { rt := rt, context := c, log := [.childFailed name], panics := true })

def createChild (rt : Runtime) (c : ActorContext T) (messageType : TypeId)
    (prop : Props) : Option ChildId × Effect T :=
  let (name, c) := c.randomName
  getOrCreateChild rt c name messageType prop

def stopSelf (rt : Runtime) (c : ActorContext T) : Effect T where
  rt := rt
  context := c
  log := [.stopSelf]

def handles (c : ActorContext T) : List Scheduled :=
  (c.timer.entries.map fun e => e.2.scheduled) ++ c.scheduledReceiveTimeout.toList

end ActorContext

variable {T : Type}

def ContextOp.apply (rt : Runtime) (c : ActorContext T) : ContextOp T → Effect T
  | .transit => c.transit rt
  | .stash msg => c.stashMessage rt msg
  | .unstashAll => c.unstashAll rt
  | .startSingleTimer name d msg => c.startSingleTimer rt name d msg
  | .cancelTimer name => c.cancelTimer rt name
  | .setReceiveTimeout d => c.setReceiveTimeout rt d
  | .cancelReceiveTimeout => c.cancelReceiveTimeout rt
  | .createChild messageType prop => (c.createChild rt messageType prop).2
  | .getOrCreateChild name messageType prop => (c.getOrCreateChild rt name messageType prop).2
  | .stopSelf => c.stopSelf rt
  | .elapse d => { rt := { rt with clock := rt.clock + d }, context := c, log := [] }

def runOps (rt : Runtime) (c : ActorContext T) : List (ContextOp T) → Effect T
  | [] => { rt := rt, context := c, log := [] }
  | op :: ops =>
    let e := op.apply rt c
    let r := runOps e.rt e.context ops
    { rt := r.rt, context := r.context, log := e.log ++ r.log }

theorem runOps_keeps {I : Runtime → ActorContext T → List (Event T) → Prop}
    (ops : List (ContextOp T)) (rt : Runtime)
    (keeps : ∀ op ∈ ops, ∀ {rt c log}, I rt c log →
      I (op.apply rt c).rt (op.apply rt c).context (log ++ (op.apply rt c).log))
    {c : ActorContext T} (log : List (Event T)) (h : I rt c log) :
    I (runOps rt c ops).rt (runOps rt c ops).context (log ++ (runOps rt c ops).log) := by
  induction ops generalizing rt c log with
  | nil => simpa [runOps] using h
  | cons op ops ih =>
    have hop := keeps op List.mem_cons_self h
    have hops := ih _ (fun op' hop' => keeps op' (List.mem_cons_of_mem _ hop')) _ hop
    simpa [runOps] using hops

theorem dropHandle_mem {old : Option Scheduled} {e : Event T}
    (he : e ∈ (ActorContext.dropHandle old : List (Event T))) : ∃ handle, e = .dropped handle := by
  cases old with
  | none => cases he
  | some handle => exact ⟨handle, by simpa [ActorContext.dropHandle] using he⟩

theorem armReceiveTimeout_mem {rt : Runtime} {c : ActorContext T} {d : Duration} {e : Event T}
    (he : e ∈ (c.armReceiveTimeout rt d).log) :
    e = .afterFunc rt.handles (rt.clock + d) (.receiveTimeout (rt.clock + d) rt.handles) ∨
      ∃ handle, e = .dropped handle :=
  (List.mem_cons.mp he).imp_right dropHandle_mem

/-- The events of the operations that do not stash. -/
def Event.bookkeeping : Event T → Bool
  | .timerStarted _ _ | .timerFailed _ _ | .timerCancelled _ | .timeoutSet _ _ | .timeoutCancelled
  | .afterFunc _ _ _ | .dropped _ | .childCreated _ _ _ _ | .childFailed _ | .stopSelf => true
  | _ => false

theorem ContextOp.apply_log {rt : Runtime} {c : ActorContext T} {op : ContextOp T} {e : Event T}
    (he : e ∈ (op.apply rt c).log) :
    (∃ msg, op = .stash msg ∧ e = .stashed msg) ∨ (op = .unstashAll ∧ e = .unstashedAll) ∨
      e.bookkeeping = true := by
  have dropped : ∀ {old : Option Scheduled}, e ∈ (ActorContext.dropHandle old : List (Event T)) →
      e.bookkeeping = true := by
    intro old he
    obtain ⟨handle, rfl⟩ := dropHandle_mem he
    rfl
  cases op with
  | stash msg => exact .inl ⟨msg, rfl, List.mem_singleton.mp he⟩
  | unstashAll => exact .inr (.inl ⟨rfl, List.mem_singleton.mp he⟩)
  | transit | elapse _ => cases he
  | stopSelf =>
    obtain rfl := List.mem_singleton.mp he
    exact .inr (.inr rfl)
  | startSingleTimer name d msg =>
    simp only [apply, ActorContext.startSingleTimer] at he
    split at he
    · obtain rfl := List.mem_singleton.mp he
      exact .inr (.inr rfl)
    rcases List.mem_append.mp he with he | he
    · simp only [List.mem_cons, List.not_mem_nil, or_false] at he
      rcases he with rfl | rfl <;> exact .inr (.inr rfl)
    · exact .inr (.inr (dropped he))
  | cancelTimer _ | cancelReceiveTimeout =>
    rcases List.mem_cons.mp he with rfl | he
    · exact .inr (.inr rfl)
    · exact .inr (.inr (dropped he))
  | setReceiveTimeout _ =>
    rcases List.mem_cons.mp he with rfl | he
    · exact .inr (.inr rfl)
    simp only [ActorContext.scheduleReceiveTimeout] at he
    split at he
    · cases he
    rcases List.mem_cons.mp he with rfl | he
    · exact .inr (.inr rfl)
    · exact .inr (.inr (dropped he))
  | createChild messageType prop | getOrCreateChild name messageType prop =>
    simp only [apply, ActorContext.createChild, ActorContext.getOrCreateChild] at he
    split at he
    · cases he
    all_goals
      obtain rfl := List.mem_singleton.mp he
      exact .inr (.inr rfl)

/-- What the operations leave as it is, each but for those that are there to change it. -/
structure ContextOp.Frame (rt : Runtime) (c : ActorContext T) (op : ContextOp T) (e : Effect T) :
    Prop where
  suspendReason : e.context.suspendReason = c.suspendReason
  actor : op ≠ .transit → e.context.actor = c.actor ∧ e.rt.actors = rt.actors
  stash : (∀ msg, op ≠ .stash msg) → op ≠ .unstashAll →
    e.context.stash = c.stash ∧ e.context.unstashed = c.unstashed
  nextNameOffset : (∀ messageType prop, op ≠ .createChild messageType prop) →
    e.context.nextNameOffset = c.nextNameOffset

theorem ContextOp.apply_frame (rt : Runtime) (c : ActorContext T) (op : ContextOp T) :
    op.Frame rt c (op.apply rt c) := by
  cases op with
  | transit => exact ⟨rfl, fun h => absurd rfl h, fun _ _ => ⟨rfl, rfl⟩, fun _ => rfl⟩
  | stash msg => exact ⟨rfl, fun _ => ⟨rfl, rfl⟩, fun h => absurd rfl (h msg), fun _ => rfl⟩
  | unstashAll => exact ⟨rfl, fun _ => ⟨rfl, rfl⟩, fun _ h => absurd rfl h, fun _ => rfl⟩
  | createChild messageType prop =>
    simp only [apply, ActorContext.createChild, ActorContext.getOrCreateChild]
    split <;>
      exact ⟨rfl, fun _ => ⟨rfl, rfl⟩, fun _ _ => ⟨rfl, rfl⟩,
        fun h => absurd rfl (h messageType prop)⟩
  | getOrCreateChild name messageType prop =>
    simp only [apply, ActorContext.getOrCreateChild]
    split <;> exact ⟨rfl, fun _ => ⟨rfl, rfl⟩, fun _ _ => ⟨rfl, rfl⟩, fun _ => rfl⟩
  | startSingleTimer name d msg =>
    simp only [apply, ActorContext.startSingleTimer]
    split <;> exact ⟨rfl, fun _ => ⟨rfl, rfl⟩, fun _ _ => ⟨rfl, rfl⟩, fun _ => rfl⟩
  | setReceiveTimeout d =>
    simp only [apply, ActorContext.setReceiveTimeout, ActorContext.scheduleReceiveTimeout]
    split <;> exact ⟨rfl, fun _ => ⟨rfl, rfl⟩, fun _ _ => ⟨rfl, rfl⟩, fun _ => rfl⟩
  | _ => exact ⟨rfl, fun _ => ⟨rfl, rfl⟩, fun _ _ => ⟨rfl, rfl⟩, fun _ => rfl⟩

@[simp] theorem ContextOp.apply_suspendReason (rt : Runtime) (c : ActorContext T)
    (op : ContextOp T) : (op.apply rt c).context.suspendReason = c.suspendReason :=
  (op.apply_frame rt c).suspendReason

@[simp] theorem runOps_suspendReason (rt : Runtime) (c : ActorContext T)
    (ops : List (ContextOp T)) : (runOps rt c ops).context.suspendReason = c.suspendReason := by
  induction ops generalizing rt c with
  | nil => rfl
  | cons op ops ih => simp [runOps, ih]

end Ruactor
