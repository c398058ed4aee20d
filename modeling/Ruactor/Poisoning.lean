import Mathlib.Logic.Relation
import Ruactor.Library.Poison
import Ruactor.Registry

/-!
# Calls that fail

The calls of an `ActorSystem`, one after another, with what can go wrong in them. An error
is returned before anything is changed. A panic in `Mailbox::new` unwinds through the write
guard of the registry and poisons it, so that every later call panics.
-/

namespace Ruactor

open Machine

/-- What is not in the sources: whether `ArrayQueue::new` returns for a size, and the builder of
a runtime for the name of its threads and their number. -/
structure Externals where
  arrayQueue : Nat → Bool
  runtime : String → Nat → Bool

/-- The `Props` of a call and the place where it is made. There is no option where
`option()` panics; `dedicatedThread` is a part of the option. -/
structure Launch where
  option : Option PropsOption
  dedicatedThread : Option Nat
  inRuntime : Bool
  deriving DecidableEq, Repr

namespace Launch

/-- `CrossbeamSegQueue::bounded` or `unbounded` returns. -/
def queue (env : Externals) (option : PropsOption) : Bool :=
  match option.bounded with
  | some size => env.arrayQueue size
  | none => true

/-- The threads of the runtime have the name of the actor. -/
def dedicatedRuntime (env : Externals) (path : ActorPath) (l : Launch) : Bool :=
  match l.dedicatedThread with
  | some nworker => if nworker > 1 then env.runtime path.toString (max 2 nworker) else true
  | none => true

/-- `Handle::current()` and `Mailbox::new`, or none where they panic. -/
def mailbox (env : Externals) (path : ActorPath) (l : Launch) : Option PropsOption :=
  if l.inRuntime then
    match l.option with
    | some option => if queue env option && l.dedicatedRuntime env path then some option else none
    | none => none
  else none

/-- Nothing panics that is called for the new mailbox. -/
def Viable (env : Externals) (path : ActorPath) (l : Launch) : Prop :=
  l.inRuntime = true ∧ ∃ option, l.option = some option ∧
    (∀ size, option.bounded = some size → env.arrayQueue size = true) ∧
    ∀ nworker, l.dedicatedThread = some nworker → 1 < nworker →
      env.runtime path.toString nworker = true

theorem queue_iff {env : Externals} {option : PropsOption} : queue env option = true ↔
    ∀ size, option.bounded = some size → env.arrayQueue size = true := by
  cases hbounded : option.bounded <;> simp [queue, hbounded]

theorem dedicatedRuntime_iff {env : Externals} {path : ActorPath} {l : Launch} :
    l.dedicatedRuntime env path = true ↔ ∀ nworker, l.dedicatedThread = some nworker →
      1 < nworker → env.runtime path.toString nworker = true := by
  cases hthread : l.dedicatedThread with
  | none => simp [dedicatedRuntime, hthread]
  | some nworker =>
    by_cases hmany : 1 < nworker
    · have hmax : max 2 nworker = nworker := by omega
      simp [dedicatedRuntime, hthread, hmany, hmax]
    · simp [dedicatedRuntime, hthread, hmany]

theorem mailbox_eq_none {env : Externals} {path : ActorPath} {l : Launch} :
    l.mailbox env path = none ↔ ¬ l.Viable env path := by
  cases hruntime : l.inRuntime with
  | false => simp [mailbox, Viable, hruntime]
  | true =>
    cases hoption : l.option with
    | none => simp [mailbox, Viable, hruntime, hoption]
    | some option =>
      have hreturns : queue env option && l.dedicatedRuntime env path ↔ l.Viable env path := by
        simp [Bool.and_eq_true, queue_iff, dedicatedRuntime_iff, Viable, hruntime, hoption]
      rw [← hreturns]
      simp [mailbox, hruntime, hoption]

end Launch

/-- A call, the notification of a top-level actor that has stopped, or the end of the
system. -/
inductive Request
  | getActor (path : ActorPath) (messageType : TypeId)
  | createActor (name : String) (messageType : TypeId) (launch : Launch)
  | getOrCreateActor (name : String) (messageType : TypeId) (launch : Launch)
  | childTerminate (path : ActorPath)
  | drop
  deriving DecidableEq, Repr

/-- The name and the launch of an actor that may have to be created. -/
def Request.launched : Request → Option (String × Launch)
  | .createActor name _ launch | .getOrCreateActor name _ launch => some (name, launch)
  | _ => none

/-- The actors that are registered, and how many were created so far. -/
structure Registry where
  actors : AList fun _ : ActorPath => ChildContainer
  created : Nat

/-- An actor at the `/user` path. -/
def userPath (name : String) : ActorPath := (ActorPath.ofString "/user").div name

abbrev UserGuard := PoisonLock Registry

namespace UserGuard

def new : UserGuard := ⟨false, ∅, 0⟩

def find (path : ActorPath) (messageType : TypeId) (r : Registry) : Option ChildId :=
  match r.actors.lookup path with
  | some any => if any.messageType = messageType then some any.child else none
  | none => none

def getActor (g : UserGuard) (path : ActorPath) (messageType : TypeId) :
    Option (Option ChildId) :=
  g.read (find path messageType)

def createActorPath (env : Externals) (g : UserGuard) (path : ActorPath) (messageType : TypeId)
    (launch : Launch) : UserGuard × Option Answer :=
  g.write fun r => match r.actors.lookup path with
    | some _ => (r, some (.errExists path))
    | none => match launch.mailbox env path with
      | some _ => (⟨r.actors.insert path ⟨messageType, r.created⟩, r.created + 1⟩,
          some (.ok r.created))
      | none => (r, none)

/-- The guard of the outer `read` is taken whether or not the lock is poisoned. -/
def getOrCreateActorPath (env : Externals) (g : UserGuard) (path : ActorPath)
    (messageType : TypeId) (launch : Launch) : UserGuard × Option Answer :=
  match g.getActor path messageType with
  | none => (g, none)
  | some (some actor) => (g, some (.ok actor))
  | some none => g.createActorPath env path messageType launch

/-- The remaining part of `UserGuard::drop`: each of the actors is removed and stopped. -/
def stopActors (g : UserGuard) : List ActorPath → UserGuard × Option Answer
  | [] => (g, some .removed)
  | path :: paths =>
    match g.write fun r => ({ r with actors := r.actors.erase path }, some Answer.removed) with
    | (g, none) => (g, none)
    | (g, some _) => stopActors g paths

/-- No answer is a panic. -/
def call (env : Externals) (g : UserGuard) : Request → UserGuard × Option Answer
  | .getActor path messageType => (g, (g.getActor path messageType).map .found)
  | .createActor name messageType launch =>
    g.createActorPath env (userPath name) messageType launch
  | .getOrCreateActor name messageType launch =>
    g.getOrCreateActorPath env (userPath name) messageType launch
  | .childTerminate path =>
    g.write fun r => ({ r with actors := r.actors.erase path }, some .removed)
  | .drop =>
    match g.read fun r => r.actors.keys with
    | none => (g, none)
    | some keys => g.stopActors keys

def run (env : Externals) : UserGuard → List Request → UserGuard
  | g, [] => g
  | g, request :: requests => run env (g.call env request).1 requests

def replies (env : Externals) : UserGuard → List Request → List (Option Answer)
  | _, [] => []
  | g, request :: requests =>
    (g.call env request).2 :: replies env (g.call env request).1 requests

/-- The call returns an error or panics. -/
def Fails (env : Externals) (g : UserGuard) (request : Request) : Prop :=
  (g.call env request).2 = none ∨ ∃ path, (g.call env request).2 = some (.errExists path)

/-- The entries are the same after the call, and all later calls go as without it. -/
def Harmless (env : Externals) (g : UserGuard) (request : Request) : Prop :=
  (g.call env request).1.value.actors = g.value.actors ∧
    ∀ later, replies env (g.call env request).1 later = replies env g later

/-- On a usable lock, an actor is to be created whose mailbox cannot be. -/
def Breaks (env : Externals) (g : UserGuard) (request : Request) : Prop :=
  g.poisoned = false ∧ ∃ name launch, request.launched = some (name, launch) ∧
    g.value.actors.lookup (userPath name) = none ∧ ¬ launch.Viable env (userPath name)

variable {env : Externals} {g : UserGuard} {path : ActorPath} {messageType : TypeId}
  {launch : Launch}

theorem find_of_absent {r : Registry} (h : r.actors.lookup path = none) :
    find path messageType r = none := by
  simp [find, h]

theorem createActorPath_exists (hclean : g.poisoned = false)
    (h : g.value.actors.lookup path ≠ none) :
    g.createActorPath env path messageType launch = (g, some (.errExists path)) := by
  obtain ⟨any, hany⟩ := Option.ne_none_iff_exists'.mp h
  rw [createActorPath, PoisonLock.write_clean hclean]
  simp only [hany, Option.isNone_some, ← hclean]

theorem createActorPath_new (hclean : g.poisoned = false)
    (h : g.value.actors.lookup path = none) (hviable : launch.Viable env path) :
    g.createActorPath env path messageType launch =
      (⟨false, g.value.actors.insert path ⟨messageType, g.value.created⟩, g.value.created + 1⟩,
        some (.ok g.value.created)) := by
  cases hmailbox : launch.mailbox env path with
  | none => exact absurd hviable (Launch.mailbox_eq_none.mp hmailbox)
  | some option =>
    rw [createActorPath, PoisonLock.write_clean hclean]
    simp only [h, hmailbox, Option.isNone_some]

theorem createActorPath_panics (hclean : g.poisoned = false)
    (h : g.value.actors.lookup path = none) (hviable : ¬ launch.Viable env path) :
    g.createActorPath env path messageType launch = (⟨true, g.value⟩, none) := by
  have hmailbox := Launch.mailbox_eq_none.mpr hviable
  rw [createActorPath, PoisonLock.write_clean hclean]
  simp only [h, hmailbox, Option.isNone_none]

theorem getOrCreateActorPath_absent (hclean : g.poisoned = false)
    (h : g.value.actors.lookup path = none) :
    g.getOrCreateActorPath env path messageType launch =
      g.createActorPath env path messageType launch := by
  rw [getOrCreateActorPath, getActor, PoisonLock.read_clean hclean, find_of_absent h]

theorem call_poisoned (h : g.poisoned = true) (request : Request) :
    g.call env request = (g, none) := by
  have hread : ∀ {β : Type} (body : Registry → β), g.read body = none :=
    PoisonLock.read_poisoned h
  have hwrite : ∀ {β : Type} (body : Registry → Registry × Option β), g.write body = (g, none) :=
    PoisonLock.write_poisoned h
  cases request with
  | getActor path messageType => simp [call, getActor, hread]
  | createActor name messageType launch => simp [call, createActorPath, hwrite]
  | getOrCreateActor name messageType launch =>
    simp [call, getOrCreateActorPath, getActor, hread]
  | childTerminate path => simp [call, hwrite]
  | drop => simp [call, hread]

theorem stopActors_clean (hclean : g.poisoned = false) (paths : List ActorPath) :
    (g.stopActors paths).2 = some .removed := by
  induction paths generalizing g with
  | nil => rfl
  | cons path paths ih =>
    rw [stopActors, PoisonLock.write_clean hclean]
    exact ih rfl

theorem call_breaks {request : Request} (h : g.Breaks env request) :
    g.call env request = (⟨true, g.value⟩, none) := by
  obtain ⟨hclean, name, launch, hlaunched, habsent, hviable⟩ := h
  cases request with
  | createActor _ _ _ =>
    cases hlaunched
    exact createActorPath_panics hclean habsent hviable
  | getOrCreateActor _ _ _ =>
    cases hlaunched
    rw [call, getOrCreateActorPath_absent hclean habsent]
    exact createActorPath_panics hclean habsent hviable
  | getActor _ _ | childTerminate _ | drop => cases hlaunched

theorem createActorPath_kept (hclean : g.poisoned = false)
    (hviable : g.value.actors.lookup path = none → launch.Viable env path) :
    (g.createActorPath env path messageType launch).1 = g ∨
      (g.createActorPath env path messageType launch).2 = some (.ok g.value.created) := by
  by_cases habsent : g.value.actors.lookup path = none
  · rw [createActorPath_new hclean habsent (hviable habsent)]
    exact .inr rfl
  · rw [createActorPath_exists hclean habsent]
    exact .inl rfl

theorem getOrCreateActorPath_kept (hclean : g.poisoned = false)
    (hviable : g.value.actors.lookup path = none → launch.Viable env path) :
    (g.getOrCreateActorPath env path messageType launch).1 = g ∨
      (g.getOrCreateActorPath env path messageType launch).2 = some (.ok g.value.created) := by
  cases hfind : find path messageType g.value with
  | some actor =>
    rw [getOrCreateActorPath, getActor, PoisonLock.read_clean hclean, hfind]
    exact .inl rfl
  | none =>
    rw [getOrCreateActorPath, getActor, PoisonLock.read_clean hclean, hfind]
    exact createActorPath_kept hclean hviable

theorem viable_of_safe {request : Request} (hclean : g.poisoned = false)
    (h : ¬ g.Breaks env request) {name : String} {launch : Launch}
    (hlaunched : request.launched = some (name, launch))
    (habsent : g.value.actors.lookup (userPath name) = none) :
    launch.Viable env (userPath name) := by
  by_contra hviable
  exact h ⟨hclean, name, launch, hlaunched, habsent, hviable⟩

/-- The error of a call that does not break anything comes before its first change. -/
theorem call_failed {request : Request} (hclean : g.poisoned = false)
    (h : ¬ g.Breaks env request) (hfails : g.Fails env request) :
    (g.call env request).1 = g := by
  have kept : ∀ {answer : Answer}, (∀ path, answer ≠ .errExists path) →
      (g.call env request).1 = g ∨ (g.call env request).2 = some answer →
      (g.call env request).1 = g := by
    intro answer hanswer hcases
    rcases hcases with hsame | hreply
    · exact hsame
    · rcases hfails with hnone | ⟨path, hexists⟩
      · cases hreply.symm.trans hnone
      · exact absurd (Option.some.inj (hreply.symm.trans hexists)) (hanswer path)
  cases request with
  | getActor path messageType => rfl
  | createActor name messageType launch =>
    exact kept (fun _ => by simp) (createActorPath_kept hclean (viable_of_safe hclean h rfl))
  | getOrCreateActor name messageType launch =>
    exact kept (fun _ => by simp) (getOrCreateActorPath_kept hclean (viable_of_safe hclean h rfl))
  | childTerminate path =>
    have hreply : (g.call env (.childTerminate path)).2 = some .removed := by
      rw [call, PoisonLock.write_clean hclean]
    exact kept (fun _ => by simp) (.inr hreply)
  | drop =>
    have hreply : (g.call env .drop).2 = some .removed := by
      rw [call, PoisonLock.read_clean hclean]
      exact stopActors_clean hclean _
    exact kept (fun _ => by simp) (.inr hreply)

theorem harmless_iff (env : Externals) (g : UserGuard) (request : Request) :
    (g.Fails env request → g.Harmless env request) ↔ ¬ g.Breaks env request := by
  constructor
  · intro hharmless hbreaks
    have hcall := call_breaks hbreaks
    have hlater := (hharmless (.inl (by rw [hcall]))).2 [.getActor ⟨[]⟩ 0]
    have hpoisoned : call env ⟨true, g.value⟩ (.getActor ⟨[]⟩ 0) = (⟨true, g.value⟩, none) :=
      call_poisoned rfl _
    rw [hcall, replies, hpoisoned, replies, replies, replies, call, getActor,
      PoisonLock.read_clean hbreaks.1] at hlater
    cases hlater
  · intro hbreaks hfails
    have hsame : (g.call env request).1 = g := by
      cases hpoisoned : g.poisoned with
      | false => exact call_failed hpoisoned hbreaks hfails
      | true => rw [call_poisoned hpoisoned]
    exact ⟨by rw [hsame], fun later => by rw [hsame]⟩

/-- A failed call leaves the system usable throughout, if no call of the run panics under the
write guard. -/
theorem failed_calls_harmless (env : Externals) (g : UserGuard) (requests : List Request) :
    (∀ before request later, requests = before ++ request :: later →
        (run env g before).Fails env request → (run env g before).Harmless env request) ↔
      ∀ before request later, requests = before ++ request :: later →
        ¬ (run env g before).Breaks env request := by
  constructor
  · intro h before request later hsplit
    exact (harmless_iff env _ request).mp (h before request later hsplit)
  · intro h before request later hsplit
    exact (harmless_iff env _ request).mpr (h before request later hsplit)

/-- `ArrayQueue::new` refuses no size but 0, and a thread no name but one with a NUL in it. -/
def crossbeam : Externals :=
  ⟨fun size => 0 < size, fun name _ => name.toList.all fun c => c ≠ Char.ofNat 0⟩

/-- The actor "a" with a queue of size 0, and an actor "b" with the default options. -/
def emptyQueue : Request := .createActor "a" 0 ⟨some { bounded := some 0 }, none, true⟩

def otherActor : Request := .createActor "b" 0 ⟨some {}, none, true⟩

theorem empty_queue_harms : new.Fails crossbeam emptyQueue ∧ ¬ new.Harmless crossbeam emptyQueue ∧
    (new.call crossbeam otherActor).2 = some (.ok 0) ∧
    ((new.call crossbeam emptyQueue).1.call crossbeam otherActor).2 = none := by
  have hother : (new.call crossbeam otherActor).2 = some (.ok 0) := by decide +kernel
  have hpanics : ((new.call crossbeam emptyQueue).1.call crossbeam otherActor).2 = none := by
    decide +kernel
  refine ⟨.inl (by decide +kernel), fun h => ?_, hother, hpanics⟩
  have hlater := h.2 [otherActor]
  simp [replies, hother, hpanics] at hlater

end UserGuard

/-- The call as it is made on a whole system. -/
def Request.systemCall : Request → Option SystemCall
  | .getActor path messageType => some (.getActor path messageType)
  | .createActor name messageType launch =>
    some (.createActor (userPath name) messageType (launch.option.getD {}))
  | .getOrCreateActor name messageType launch =>
    some (.getOrCreateActor (userPath name) messageType (launch.option.getD {}))
  | .childTerminate _ | .drop => none

namespace ActorSystem

variable {T : Type} {s : ActorSystem T} {lock : RwLock Nat} {op : Operation} {mode : LockMode}
  {env : Externals} {g : UserGuard} {path : ActorPath} {messageType : TypeId}
  {launch : Launch}

/-- The operation `i` goes on, and nothing else happens. -/
abbrev Alone (i : Nat) : ActorSystem T → ActorSystem T → Prop :=
  Relation.ReflTransGen fun s t => s.step (.proceed i) = some t

/-- The system during a last operation of its own. -/
def during (s : ActorSystem T) (lock : RwLock Nat) (op : Operation) : ActorSystem T :=
  { s with lock := lock, operations := s.operations ++ [op] }

theorem during_operation (s : ActorSystem T) (lock : RwLock Nat) (op : Operation) :
    (s.during lock op).operations[s.operations.length]? = some op := by
  simp [during]

theorem during_goto (s : ActorSystem T) (lock : RwLock Nat) (op op' : Operation) :
    (s.during lock op).goto s.operations.length op' = s.during lock op' := by
  simp [during, goto]

theorem alone_acquire (s : ActorSystem T) (lock : RwLock Nat) (op : Operation)
    (hwants : op.wants = some mode) (hwaiting : lock.waiting = [])
    (hheld : ∀ r ∈ lock.held, r.2.conflicts mode = false) :
    ∃ lock', lock'.held = lock.held ++ [(s.operations.length, mode)] ∧ lock'.waiting = [] ∧
      Alone s.operations.length (s.during lock op) (s.during lock' op.acquired) := by
  obtain ⟨lock', hgrant, hheld', hwaiting'⟩ :=
    RwLock.grant_request (i := s.operations.length) hwaiting hheld
  have hfresh : (s.operations.length, mode) ∉ (s.during lock op).lock.waiting := by
    simp [during, hwaiting]
  have hrequest : (s.during lock op).step (.proceed s.operations.length) =
      some (s.during (lock.request s.operations.length mode) op) := by
    simp only [step, during_operation, proceed, hwants, if_neg hfresh]
    rfl
  have hqueued : (s.operations.length, mode) ∈
      (s.during (lock.request s.operations.length mode) op).lock.waiting := by
    simp [during, RwLock.request]
  have hgranted : (s.during (lock.request s.operations.length mode) op).step
      (.proceed s.operations.length) = some (s.during lock' op.acquired) := by
    simp only [step, during_operation, proceed, hwants, if_pos hqueued]
    rw [show (s.during (lock.request s.operations.length mode) op).lock.grant
      s.operations.length mode = some lock' from hgrant, ← during_goto s lock' op]
    rfl
  exact ⟨lock', hheld', hwaiting', .tail (.single hrequest) hgranted⟩

theorem alone_access {t : ActorSystem T} (hwants : op.wants = none)
    (h : (s.during lock op).access s.operations.length op = some t) :
    Alone s.operations.length (s.during lock op) t := by
  refine .single ?_
  simp only [step, during_operation, proceed, hwants]
  exact h

/-- The registry of the system is this one, and nobody uses it. -/
structure Models (s : ActorSystem T) (g : UserGuard) : Prop where
  lock : s.lock = .free
  actors : s.actors = g.value.actors
  created : s.instances.length = g.value.created

/-- The operation has come to an end, and `s` has become `t`. -/
def Answers (s t : ActorSystem T) (op : Operation) (answer : Answer) : Prop :=
  t.operations = s.operations ∧ Alone s.operations.length (s.during .free op)
    (t.during .free { op with point := .returned answer })

theorem alone_unlock {op' : Operation} (hwants : op.wants = none)
    (h : (s.during lock op).access s.operations.length op =
      some (((s.during lock op).unlock s.operations.length mode).goto s.operations.length op')) :
    Alone s.operations.length (s.during lock op)
      (s.during (lock.release s.operations.length mode) op') := by
  have hgoto : ((s.during lock op).unlock s.operations.length mode).goto s.operations.length op' =
      s.during (lock.release s.operations.length mode) op' := during_goto s _ op op'
  exact alone_access hwants (h.trans (congrArg some hgoto))

theorem alone_leave {t : ActorSystem T} {call : SystemCall} {answer : Answer}
    (hsame : t.operations = s.operations) (hheld : lock.held = [(s.operations.length, .write)])
    (hwaiting : lock.waiting = []) : Alone s.operations.length
      (t.during lock ⟨call, .leaving answer⟩) (t.during .free ⟨call, .returned answer⟩) := by
  rw [← hsame] at hheld ⊢
  rw [← RwLock.release_last hheld hwaiting]
  exact alone_unlock rfl rfl

theorem createActorPath_answers (h : s.Models g) (hclean : g.poisoned = false)
    (hviable : g.value.actors.lookup path = none → launch.Viable env path) {call : SystemCall}
    (option : PropsOption) (hcall : call = .createActor path messageType option ∨
      call = .getOrCreateActor path messageType option) :
    ∃ t answer, s.Answers t ⟨call, .writing⟩ answer ∧
      t.Models (g.createActorPath env path messageType launch).1 ∧
      (g.createActorPath env path messageType launch).2 = some answer := by
  obtain ⟨lock, hheld, hwaiting, hacquire⟩ :=
    alone_acquire s .free ⟨call, .writing⟩ rfl rfl (by simp [RwLock.free])
  have hcreates : call.creates = some path ∧
      (⟨call, .writing⟩ : Operation).acquired = ⟨call, .checking⟩ := by
    obtain rfl | rfl := hcall <;> exact ⟨rfl, rfl⟩
  rw [hcreates.2] at hacquire
  have hcheck : ∀ point, (if (s.actors.lookup path).isSome then Point.leaving (.errExists path)
      else .inserting) = point →
      Alone s.operations.length (s.during .free ⟨call, .writing⟩)
        (s.during lock ⟨call, point⟩) := by
    intro point hpoint
    have haccess : (s.during lock ⟨call, .checking⟩).access s.operations.length
        ⟨call, .checking⟩ = some (s.during lock ⟨call, point⟩) := by
      rw [← hpoint]
      obtain rfl | rfl := hcall <;> exact congrArg some (during_goto _ _ _ _)
    exact hacquire.trans (alone_access rfl haccess)
  cases hlookup : g.value.actors.lookup path with
  | some any =>
    rw [UserGuard.createActorPath_exists hclean (by simp [hlookup])]
    have hchecked := hcheck _ (if_pos (by simp [h.actors, hlookup]))
    exact ⟨s, _, ⟨rfl, hchecked.trans (alone_leave rfl hheld hwaiting)⟩, h, rfl⟩
  | none =>
    rw [UserGuard.createActorPath_new hclean hlookup (hviable hlookup)]
    have hchecked := hcheck _ (if_neg (by simp [h.actors, hlookup]))
    have hinsert : (s.during lock ⟨call, .inserting⟩).access s.operations.length
        ⟨call, .inserting⟩ = some ((s.create path messageType option).during lock
          ⟨call, .leaving (.ok s.instances.length)⟩) := by
      obtain rfl | rfl := hcall <;>
        exact congrArg some (during_goto (s.create path messageType option) lock _ _)
    refine ⟨s.create path messageType option, _, ⟨rfl, (hchecked.trans
      (alone_access rfl hinsert)).trans (alone_leave rfl hheld hwaiting)⟩, ?_, by rw [h.created]⟩
    refine ⟨h.lock, ?_, ?_⟩
    · simp only [create, h.actors, h.created]
    · simp [create, h.created]

theorem Models.find_eq (h : s.Models g) (path : ActorPath) (messageType : TypeId) :
    s.find path messageType = UserGuard.find path messageType g.value := by
  cases hlookup : g.value.actors.lookup path with
  | none => simp [find, UserGuard.find, h.actors, hlookup]
  | some any => simp [find, UserGuard.find, h.actors, hlookup]

theorem getActor_answers (env : Externals) (h : s.Models g) (hclean : g.poisoned = false) :
    ∃ answer, s.Answers s ⟨.getActor path messageType, .getting⟩ answer ∧
      (g.call env (.getActor path messageType)).2 = some answer := by
  obtain ⟨lock, hheld, hwaiting, hacquire⟩ := alone_acquire s .free
    ⟨.getActor path messageType, .getting⟩ rfl rfl (by simp [RwLock.free])
  have hlook : Alone s.operations.length
      (s.during lock ⟨.getActor path messageType, .lookingUp⟩)
      (s.during lock ⟨.getActor path messageType, .got (s.find path messageType)⟩) :=
    alone_access rfl (congrArg some (during_goto s lock _ _))
  have hleave : Alone s.operations.length
      (s.during lock ⟨.getActor path messageType, .got (s.find path messageType)⟩)
      (s.during .free ⟨.getActor path messageType,
        .returned (.found (s.find path messageType))⟩) := by
    rw [← RwLock.release_last hheld hwaiting]
    exact alone_unlock rfl rfl
  refine ⟨_, ⟨rfl, (hacquire.trans hlook).trans hleave⟩, ?_⟩
  rw [UserGuard.call, UserGuard.getActor, PoisonLock.read_clean hclean, h.find_eq]
  rfl

theorem getOrCreateActorPath_answers (h : s.Models g) (hclean : g.poisoned = false)
    (hviable : g.value.actors.lookup path = none → launch.Viable env path) (option : PropsOption) :
    ∃ t answer, s.Answers t ⟨.getOrCreateActor path messageType option, .reading⟩ answer ∧
      t.Models (g.getOrCreateActorPath env path messageType launch).1 ∧
      (g.getOrCreateActorPath env path messageType launch).2 = some answer := by
  obtain ⟨outer, hheld, hwaiting, houter⟩ := alone_acquire s .free
    ⟨.getOrCreateActor path messageType option, .reading⟩ rfl rfl (by simp [RwLock.free])
  have hreader : outer.held = [(s.operations.length, .read)] := hheld
  obtain ⟨inner, hheld', hwaiting', hinner⟩ := alone_acquire s outer
    ⟨.getOrCreateActor path messageType option, .getting⟩ rfl hwaiting
    (by simp [hreader, LockMode.conflicts])
  have hlook : Alone s.operations.length
      (s.during inner ⟨.getOrCreateActor path messageType option, .lookingUp⟩)
      (s.during inner ⟨.getOrCreateActor path messageType option,
        .got (s.find path messageType)⟩) :=
    alone_access rfl (congrArg some (during_goto s inner _ _))
  have hmatch : Alone s.operations.length
      (s.during inner ⟨.getOrCreateActor path messageType option,
        .got (s.find path messageType)⟩)
      (s.during (inner.release s.operations.length .read)
        ⟨.getOrCreateActor path messageType option, .matching (s.find path messageType)⟩) :=
    alone_unlock rfl rfl
  have hlast : (inner.release s.operations.length .read).release s.operations.length .read =
      .free := by
    refine RwLock.release_last ?_ hwaiting'
    simp [RwLock.release, hheld', hreader]
  have hreached := ((houter.trans hinner).trans hlook).trans hmatch
  rw [h.find_eq] at hreached
  cases hfind : UserGuard.find path messageType g.value with
  | some actor =>
    rw [UserGuard.getOrCreateActorPath, UserGuard.getActor, PoisonLock.read_clean hclean, hfind]
    rw [hfind] at hreached
    refine ⟨s, _, ⟨rfl, hreached.trans ?_⟩, h, rfl⟩
    rw [← hlast]
    exact alone_unlock rfl rfl
  | none =>
    rw [UserGuard.getOrCreateActorPath, UserGuard.getActor, PoisonLock.read_clean hclean, hfind]
    rw [hfind] at hreached
    have hmiss : Alone s.operations.length
        (s.during (inner.release s.operations.length .read)
          ⟨.getOrCreateActor path messageType option, .matching none⟩)
        (s.during .free ⟨.getOrCreateActor path messageType option, .writing⟩) := by
      rw [← hlast]
      exact alone_unlock rfl rfl
    obtain ⟨t, answer, ⟨hsame, hcreated⟩, hmodels, hreply⟩ :=
      createActorPath_answers h hclean hviable option (.inr rfl)
    exact ⟨t, answer, ⟨hsame, (hreached.trans hmiss).trans hcreated⟩, hmodels, hreply⟩

/-- What the sequential registry says of a call that breaks nothing is what the call does on a
whole system, when nothing else goes on. -/
theorem call_answers (h : s.Models g) (hclean : g.poisoned = false) {request : Request}
    (hbreaks : ¬ g.Breaks env request) {call : SystemCall}
    (hcall : request.systemCall = some call) :
    ∃ t answer, s.Answers t ⟨call, call.start⟩ answer ∧ t.Models (g.call env request).1 ∧
      (g.call env request).2 = some answer := by
  cases request with
  | getActor path messageType =>
    cases hcall
    obtain ⟨answer, hanswers, hreply⟩ := getActor_answers env h hclean
    exact ⟨s, answer, hanswers, h, hreply⟩
  | createActor name messageType launch =>
    cases hcall
    have hviable := UserGuard.viable_of_safe hclean hbreaks rfl
    exact createActorPath_answers h hclean hviable _ (.inl rfl)
  | getOrCreateActor name messageType launch =>
    cases hcall
    exact getOrCreateActorPath_answers h hclean (UserGuard.viable_of_safe hclean hbreaks rfl) _
  | childTerminate _ | drop => cases hcall

end ActorSystem

end Ruactor
