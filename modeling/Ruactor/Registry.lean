import Ruactor.Library.RwLock
import Ruactor.Tree

/-!
# The registry of an actor system

The calls of an `ActorSystem` and the notifications of its top-level actors go through one
map behind a lock. A step of such an operation requests the lock, is granted it, reads or
writes the map, or releases the lock; the actors go on with steps of their own meanwhile.
-/

namespace Ruactor

open Machine

/-- The last one is `RootActorStoper::send_internal_message`; its sender is history. -/
inductive SystemCall
  | getActor (path : ActorPath) (messageType : TypeId)
  | createActor (path : ActorPath) (messageType : TypeId) (option : PropsOption)
  | getOrCreateActor (path : ActorPath) (messageType : TypeId) (option : PropsOption)
  | childTerminate (path : ActorPath) (sender : ChildId)
  deriving DecidableEq, Repr

/-- What a call returns: an actor or none, an actor that it was promised, or an error. -/
inductive Answer
  | found (child : Option ChildId)
  | ok (child : ChildId)
  | errExists (path : ActorPath)
  | removed
  deriving DecidableEq, Repr

/-- The places in `get_or_create_actor_path` (`reading`, `matching`), in `get_actor`
(`getting`, `lookingUp`, `got`) and in `create_actor_path` or the notification (the rest, up
to `returned`). -/
inductive Point
  | reading
  | getting
  | lookingUp
  | got (found : Option ChildId)
  | matching (found : Option ChildId)
  | writing
  | checking
  | inserting
  | removing
  | leaving (answer : Answer)
  | returned (answer : Answer)
  deriving DecidableEq, Repr

structure Operation where
  call : SystemCall
  point : Point
  deriving DecidableEq, Repr

def SystemCall.start : SystemCall → Point
  | .getActor _ _ => .getting
  | .getOrCreateActor _ _ _ => .reading
  | .createActor _ _ _ | .childTerminate _ _ => .writing

/-- The guard that `get_or_create_actor_path` keeps while it calls `get_actor`. -/
def SystemCall.outer : SystemCall → List LockMode
  | .getOrCreateActor _ _ _ => [.read]
  | _ => []

/-- The path of the actor that `create_actor_path` is called for. -/
def SystemCall.creates : SystemCall → Option ActorPath
  | .createActor path _ _ | .getOrCreateActor path _ _ => some path
  | _ => none

namespace Operation

/-- The lock that the operation is about to take. -/
def wants (op : Operation) : Option LockMode :=
  match op.point with
  | .reading | .getting => some .read
  | .writing => some .write
  | _ => none

/-- The guards of the operation. -/
def holds (op : Operation) : List LockMode :=
  match op.point with
  | .getting => op.call.outer
  | .lookingUp | .got _ => .read :: op.call.outer
  | .matching _ => [.read]
  | .checking | .inserting | .removing | .leaving _ => [.write]
  | .reading | .writing | .returned _ => []

/-- The operation with the lock that it wanted. -/
def acquired (op : Operation) : Operation :=
  { op with point := match op.point with
    | .reading => .getting
    | .getting => .lookingUp
    | .writing => match op.call with
      | .childTerminate _ _ => .removing
      | _ => .checking
    | point => point }

def pending (op : Operation) : Bool :=
  match op.point with
  | .returned _ => false
  | _ => true

end Operation

/-- An actor is known by its place in the list of those that were created. -/
structure ActorSystem (T : Type) where
  lock : RwLock Nat
  actors : AList fun _ : ActorPath => ChildContainer
  instances : List (Node T)
  operations : List Operation

inductive SystemAction (T : Type)
  | call (call : SystemCall)
  | proceed (i : Nat)
  | actor (child : ChildId) (action : Action T)
  deriving DecidableEq, Repr

namespace ActorSystem

variable {T : Type}

/-- The operation `i` goes on as `op`. -/
def goto (s : ActorSystem T) (i : Nat) (op : Operation) : ActorSystem T :=
  { s with operations := s.operations.set i op }

/-- The lookup of `get_actor`: the downcast fails for another message type. -/
def find (s : ActorSystem T) (path : ActorPath) (messageType : TypeId) : Option ChildId :=
  match s.actors.lookup path with
  | some any => if any.messageType = messageType then some any.child else none
  | none => none

/-- `Mailbox::new`, the insertion and the push of `Created`. -/
def create (s : ActorSystem T) (path : ActorPath) (messageType : TypeId) (option : PropsOption) :
    ActorSystem T :=
  { s with
    actors := s.actors.insert path ⟨messageType, s.instances.length⟩
    instances := s.instances ++ [(Node.new path option .guard).deliver .created] }

def unlock (s : ActorSystem T) (i : Nat) (mode : LockMode) : ActorSystem T :=
  { s with lock := s.lock.release i mode }

/-- A step that does not take the lock. -/
def access (s : ActorSystem T) (i : Nat) (op : Operation) : Option (ActorSystem T) :=
  match op.point, op.call with
  | .lookingUp, .getActor path messageType | .lookingUp, .getOrCreateActor path messageType _ =>
    some (s.goto i { op with point := .got (s.find path messageType) })
  | .got found, .getOrCreateActor _ _ _ =>
    some ((s.unlock i .read).goto i { op with point := .matching found })
  | .got found, _ => some ((s.unlock i .read).goto i { op with point := .returned (.found found) })
  | .matching (some child), _ =>
    some ((s.unlock i .read).goto i { op with point := .returned (.ok child) })
  | .matching none, _ => some ((s.unlock i .read).goto i { op with point := .writing })
  | .checking, .createActor path _ _ | .checking, .getOrCreateActor path _ _ =>
    some (s.goto i { op with point :=
      if (s.actors.lookup path).isSome then .leaving (.errExists path) else .inserting })
  | .inserting, .createActor path messageType option
  | .inserting, .getOrCreateActor path messageType option =>
    some ((s.create path messageType option).goto i
      { op with point := .leaving (.ok s.instances.length) })
  | .removing, .childTerminate path _ =>
    some ({ s with actors := s.actors.erase path }.goto i { op with point := .leaving .removed })
  | .leaving answer, _ =>
    some ((s.unlock i .write).goto i { op with point := .returned answer })
  | _, _ => none

def proceed (s : ActorSystem T) (i : Nat) (op : Operation) : Option (ActorSystem T) :=
  match op.wants with
  | none => s.access i op
  | some mode =>
    if (i, mode) ∈ s.lock.waiting then
      (s.lock.grant i mode).map fun lock => { s with lock := lock }.goto i op.acquired
    else some { s with lock := s.lock.request i mode }

/-- The notifications that an actor sends to the guard. -/
def notices (child : ChildId) (events : List (Event T)) : List Operation :=
  events.filterMap fun
    | .notified .guard path => some ⟨.childTerminate path child, .writing⟩
    | _ => none

/-- A notification is made by a step of the actor, so it is no call of its own. -/
def step (s : ActorSystem T) : SystemAction T → Option (ActorSystem T)
  | .call (.childTerminate _ _) => none
  | .call call => some { s with operations := s.operations ++ [⟨call, call.start⟩] }
  | .proceed i =>
    match s.operations[i]? with
    | none => none
    | some op => s.proceed i op
  | .actor child action =>
    match s.instances[child]? with
    | none => none
    | some nd =>
      match nd.step action with
      | none => none
      | some nd' => some { s with
          instances := s.instances.set child nd'
          operations := s.operations ++ notices child (nd'.mbox.log.drop nd.mbox.log.length) }

/-- A system with these actors, which nobody uses. -/
def machine (actors : AList fun _ : ActorPath => ChildContainer) (instances : List (Node T)) :
    Machine (ActorSystem T) (SystemAction T) := ⟨⟨.free, actors, instances, []⟩, step⟩

/-- The branches of `access`, with the operation as it goes on. -/
inductive Access (s : ActorSystem T) (i : Nat) : Operation → ActorSystem T → Operation → Prop
  | lookUp {call path messageType} :
      call = .getActor path messageType ∨
        (∃ option, call = .getOrCreateActor path messageType option) →
      Access s i ⟨call, .lookingUp⟩ s ⟨call, .got (s.find path messageType)⟩
  | nested {path messageType option found} :
      Access s i ⟨.getOrCreateActor path messageType option, .got found⟩ (s.unlock i .read)
        ⟨.getOrCreateActor path messageType option, .matching found⟩
  | found {call found} : call.outer = [] →
      Access s i ⟨call, .got found⟩ (s.unlock i .read) ⟨call, .returned (.found found)⟩
  | hit {call child} :
      Access s i ⟨call, .matching (some child)⟩ (s.unlock i .read) ⟨call, .returned (.ok child)⟩
  | miss {call} : Access s i ⟨call, .matching none⟩ (s.unlock i .read) ⟨call, .writing⟩
  | exist {call path} : call.creates = some path → (s.actors.lookup path).isSome →
      Access s i ⟨call, .checking⟩ s ⟨call, .leaving (.errExists path)⟩
  | absent {call path} : call.creates = some path → s.actors.lookup path = none →
      Access s i ⟨call, .checking⟩ s ⟨call, .inserting⟩
  | insert {call path messageType option} :
      call = .createActor path messageType option ∨ call = .getOrCreateActor path messageType option →
      Access s i ⟨call, .inserting⟩ (s.create path messageType option)
        ⟨call, .leaving (.ok s.instances.length)⟩
  | remove {path sender} :
      Access s i ⟨.childTerminate path sender, .removing⟩ { s with actors := s.actors.erase path }
        ⟨.childTerminate path sender, .leaving .removed⟩
  | leave {call answer} :
      Access s i ⟨call, .leaving answer⟩ (s.unlock i .write) ⟨call, .returned answer⟩

inductive Move (s : ActorSystem T) : SystemAction T → ActorSystem T → Prop
  | call {call : SystemCall} : (∀ path sender, call ≠ .childTerminate path sender) →
      Move s (.call call) { s with operations := s.operations ++ [⟨call, call.start⟩] }
  | request {i op mode} : s.operations[i]? = some op → op.wants = some mode →
      (i, mode) ∉ s.lock.waiting →
      Move s (.proceed i) { s with lock := s.lock.request i mode }
  | grant {i op mode lock} : s.operations[i]? = some op → op.wants = some mode →
      s.lock.grant i mode = some lock →
      Move s (.proceed i) ({ s with lock := lock }.goto i op.acquired)
  | access {i op s' op'} : s.operations[i]? = some op → op.wants = none →
      s.Access i op s' op' → Move s (.proceed i) (s'.goto i op')
  | actor {child action nd nd'} : s.instances[child]? = some nd → nd.step action = some nd' →
      Move s (.actor child action) { s with
        instances := s.instances.set child nd'
        operations := s.operations ++ notices child (nd'.mbox.log.drop nd.mbox.log.length) }

theorem access_cases {s t : ActorSystem T} {i : Nat} {op : Operation}
    (h : s.access i op = some t) : ∃ s' op', s.Access i op s' op' ∧ t = s'.goto i op' := by
  obtain ⟨call, point⟩ := op
  cases point with
  | lookingUp =>
    cases call with
    | getActor path messageType =>
      cases h
      exact ⟨_, _, .lookUp (.inl rfl), rfl⟩
    | getOrCreateActor path messageType option =>
      cases h
      exact ⟨_, _, .lookUp (.inr ⟨option, rfl⟩), rfl⟩
    | createActor _ _ _ | childTerminate _ _ => cases h
  | got found =>
    cases call with
    | getOrCreateActor path messageType option =>
      cases h
      exact ⟨_, _, .nested, rfl⟩
    | getActor _ _ | createActor _ _ _ | childTerminate _ _ =>
      cases h
      exact ⟨_, _, .found rfl, rfl⟩
  | matching found =>
    cases found with
    | none =>
      cases h
      exact ⟨_, _, .miss, rfl⟩
    | some child =>
      cases h
      exact ⟨_, _, .hit, rfl⟩
  | checking =>
    cases call with
    | createActor path messageType option | getOrCreateActor path messageType option =>
      cases h
      cases hlookup : s.actors.lookup path with
      | none => exact ⟨_, _, .absent rfl hlookup, rfl⟩
      | some any =>
        have hsome : (s.actors.lookup path).isSome := by rw [hlookup]; rfl
        exact ⟨_, _, .exist rfl hsome, rfl⟩
    | getActor _ _ | childTerminate _ _ => cases h
  | inserting =>
    cases call with
    | createActor path messageType option =>
      cases h
      exact ⟨_, _, .insert (.inl rfl), rfl⟩
    | getOrCreateActor path messageType option =>
      cases h
      exact ⟨_, _, .insert (.inr rfl), rfl⟩
    | getActor _ _ | childTerminate _ _ => cases h
  | removing =>
    cases call with
    | childTerminate path sender =>
      cases h
      exact ⟨_, _, .remove, rfl⟩
    | getActor _ _ | createActor _ _ _ | getOrCreateActor _ _ _ => cases h
  | leaving answer =>
    cases h
    exact ⟨_, _, .leave, rfl⟩
  | reading | getting | writing | returned _ => cases h

theorem step_move {s t : ActorSystem T} {a : SystemAction T} (h : s.step a = some t) :
    s.Move a t := by
  cases a with
  | call call =>
    cases call with
    | childTerminate path sender => cases h
    | getActor _ _ | createActor _ _ _ | getOrCreateActor _ _ _ =>
      cases h
      exact .call (by simp)
  | proceed i =>
    simp only [step] at h
    split at h
    · cases h
    next op hop =>
      simp only [proceed] at h
      split at h
      next hwants =>
        obtain ⟨s', op', haccess, rfl⟩ := access_cases h
        exact .access hop hwants haccess
      next mode hwants =>
        split at h
        · obtain ⟨lock, hgrant, rfl⟩ := Option.map_eq_some_iff.mp h
          exact .grant hop hwants hgrant
        next hwaiting =>
          cases h
          exact .request hop hwants hwaiting
  | actor child action =>
    simp only [step] at h
    split at h
    · cases h
    next nd hnd =>
      split at h
      · cases h
      next nd' hstep =>
        cases h
        exact .actor hnd hstep

end ActorSystem

end Ruactor
