import Ruactor.Library.Simulation
import Ruactor.Uniqueness

/-!
# The registry is an atomic map

What the registry is for: a map each of whose operations has its effect at one moment between
its call and its return. There is no lock in it. `get_or_create_actor_path` is two operations,
a lookup and, where that finds nothing, a creation.
-/

namespace Ruactor

open Machine

variable {T : Type}

/-- An operation has its effect to come, has missed its lookup, or knows its answer. -/
inductive Progress
  | pending
  | missed
  | done (answer : Answer)
  deriving DecidableEq, Repr

/-- The path that a call is about, but for the notifications. -/
def SystemCall.about : SystemCall → Option ActorPath
  | .getActor path _ | .createActor path _ _ | .getOrCreateActor path _ _ => some path
  | .childTerminate _ _ => none

/-- The answer of a call that finds this actor at its path. -/
def SystemCall.finds (any : ChildContainer) : SystemCall → Answer
  | .getActor _ messageType =>
    .found (if any.messageType = messageType then some any.child else none)
  | .getOrCreateActor path messageType _ =>
    if any.messageType = messageType then .ok any.child else .errExists path
  | .createActor path _ _ => .errExists path
  | .childTerminate _ _ => .removed

structure AtomicRegistry (T : Type) where
  actors : AList fun _ : ActorPath => ChildContainer
  instances : List (Node T)
  operations : List (SystemCall × Progress)

namespace AtomicRegistry

inductive Action (T : Type)
  | call (call : SystemCall)
  | effect (i : Nat)
  | actor (child : ChildId) (action : Ruactor.Action T)
  deriving DecidableEq, Repr

def find (r : AtomicRegistry T) (path : ActorPath) (messageType : TypeId) : Option ChildId :=
  match r.actors.lookup path with
  | some any => if any.messageType = messageType then some any.child else none
  | none => none

def create (r : AtomicRegistry T) (path : ActorPath) (messageType : TypeId) (option : PropsOption) :
    AtomicRegistry T × Answer :=
  if (r.actors.lookup path).isSome then (r, .errExists path)
  else
    ({ r with
        actors := r.actors.insert path ⟨messageType, r.instances.length⟩
        instances := r.instances ++ [(Node.new path option .guard).deliver .created] },
      .ok r.instances.length)

/-- What an operation does at its moment. -/
def effect (r : AtomicRegistry T) : SystemCall → Progress → Option (AtomicRegistry T × Progress)
  | .getActor path messageType, .pending =>
    some (r, .done (.found (r.find path messageType)))
  | .getOrCreateActor path messageType _, .pending =>
    some (r, match r.find path messageType with
      | some child => .done (.ok child)
      | none => .missed)
  | .createActor path messageType option, .pending
  | .getOrCreateActor path messageType option, .missed =>
    let created := r.create path messageType option
    some (created.1, .done created.2)
  | .childTerminate path _, .pending =>
    some ({ r with actors := r.actors.erase path }, .done .removed)
  | _, _ => none

def goto (r : AtomicRegistry T) (i : Nat) (op : SystemCall × Progress) : AtomicRegistry T :=
  { r with operations := r.operations.set i op }

def step (r : AtomicRegistry T) : Action T → Option (AtomicRegistry T)
  | .call (.childTerminate _ _) => none
  | .call call => some { r with operations := r.operations ++ [(call, .pending)] }
  | .effect i =>
    match r.operations[i]? with
    | none => none
    | some (call, progress) =>
      (r.effect call progress).map fun (r', progress') => r'.goto i (call, progress')
  | .actor child action =>
    match r.instances[child]? with
    | none => none
    | some nd =>
      match nd.step action with
      | none => none
      | some nd' => some { r with
          instances := r.instances.set child nd'
          operations := r.operations ++
            (ActorSystem.notices child (nd'.mbox.log.drop nd.mbox.log.length)).map
              fun op => (op.call, .pending) }

def machine : Machine (AtomicRegistry T) (Action T) := ⟨⟨∅, [], []⟩, step⟩

/-- A notification has its effect while the map has its sender. -/
def honest (r : AtomicRegistry T) : Action T → Prop
  | .effect i => ∀ path sender, r.operations[i]? = some (.childTerminate path sender, .pending) →
      ∃ any, r.actors.lookup path = some any ∧ any.child = sender
  | _ => True

variable {r r' : AtomicRegistry T} {path : ActorPath} {any : ChildContainer} {n : Nat}

/-- A notification of the actor has had its effect. -/
def Told (r : AtomicRegistry T) (child : ChildId) : Prop :=
  ∃ path answer, (SystemCall.childTerminate path child, Progress.done answer) ∈ r.operations

/-- What a call has seen that was made while the actor was at its path. -/
def Saw (any : ChildContainer) : SystemCall → Progress → Prop
  | _, .pending => True
  | .getOrCreateActor _ messageType _, .missed => any.messageType ≠ messageType
  | _, .missed => False
  | call, .done answer => answer = call.finds any

/-- The actor is at the path, and the calls from `n` on have seen it there. -/
structure Kept (path : ActorPath) (any : ChildContainer) (n : Nat) (r : AtomicRegistry T) :
    Prop where
  there : r.actors.lookup path = some any
  saw : ∀ (j : Nat) (call : SystemCall) (progress : Progress), n ≤ j →
    r.operations[j]? = some (call, progress) → call.about = some path → Saw any call progress

theorem create_taken {p : ActorPath} (h : r.actors.lookup p = some any) (messageType : TypeId)
    (option : PropsOption) : r.create p messageType option = (r, .errExists p) := by
  simp [create, h]

theorem create_there {p : ActorPath} (h : r.actors.lookup path = some any) (messageType : TypeId)
    (option : PropsOption) : (r.create p messageType option).1.actors.lookup path = some any := by
  unfold create
  split
  · exact h
  next hfree =>
    have hne : path ≠ p := by
      rintro rfl
      exact hfree (by rw [h]; rfl)
    exact (AList.lookup_insert_ne hne).trans h

theorem create_operations (p : ActorPath) (messageType : TypeId) (option : PropsOption) :
    (r.create p messageType option).1.operations = r.operations := by
  unfold create
  split <;> rfl

theorem effect_operations {call : SystemCall} {progress progress' : Progress}
    (heffect : r.effect call progress = some (r', progress')) : r'.operations = r.operations := by
  unfold effect at heffect
  split at heffect <;> cases heffect
  · rfl
  · rfl
  · exact create_operations _ _ _
  · exact create_operations _ _ _
  · rfl

/-- An operation leaves the actor where it is, and sees it there, unless it is the actor's own
notification. -/
theorem effect_kept {call : SystemCall} {progress progress' : Progress}
    (hthere : r.actors.lookup path = some any)
    (hhonest : ∀ p sender, call = .childTerminate p sender → progress = .pending →
      ∃ any, r.actors.lookup p = some any ∧ any.child = sender)
    (heffect : r.effect call progress = some (r', progress')) :
    (r'.actors.lookup path = some any ∧
      (call.about = some path → Saw any call progress → Saw any call progress')) ∨
    ∃ p answer, call = .childTerminate p any.child ∧ progress' = .done answer := by
  unfold effect at heffect
  split at heffect
  · cases heffect
    refine .inl ⟨hthere, fun habout _ => ?_⟩
    cases habout
    simp [Saw, SystemCall.finds, find, hthere]
  next p messageType option =>
    cases heffect
    refine .inl ⟨hthere, fun habout _ => ?_⟩
    cases habout
    by_cases htype : any.messageType = messageType <;>
      simp [Saw, SystemCall.finds, find, hthere, htype]
  next p messageType option =>
    cases heffect
    refine .inl ⟨create_there hthere messageType option, fun habout _ => ?_⟩
    cases habout
    simp [Saw, SystemCall.finds, create_taken hthere]
  next p messageType option =>
    cases heffect
    refine .inl ⟨create_there hthere messageType option, fun habout htype => ?_⟩
    cases habout
    simp [Saw, SystemCall.finds, create_taken hthere, show any.messageType ≠ messageType from htype]
  next p sender =>
    cases heffect
    obtain ⟨any', hany', rfl⟩ := hhonest p sender rfl rfl
    by_cases hp : p = path
    · subst hp
      cases hthere.symm.trans hany'
      exact .inr ⟨p, .removed, rfl, rfl⟩
    · refine .inl ⟨(AList.lookup_erase_ne (Ne.symm hp)).trans hthere, fun habout _ => ?_⟩
      cases habout
  · cases heffect

/-- What a step can do: new operations, or the effect of one of them. -/
theorem step_cases {a : Action T} (h : r.step a = some r') :
    (r'.actors = r.actors ∧ ∃ new : List (SystemCall × Progress),
      r'.operations = r.operations ++ new ∧ ∀ op ∈ new, op.2 = .pending) ∨
    ∃ i call progress r₁ progress', a = .effect i ∧ r.operations[i]? = some (call, progress) ∧
      r.effect call progress = some (r₁, progress') ∧ r' = r₁.goto i (call, progress') := by
  cases a with
  | call call =>
    refine .inl ?_
    cases call <;> cases h <;> exact ⟨rfl, _, rfl, by simp⟩
  | actor child action =>
    refine .inl ?_
    simp only [step] at h
    split at h
    · cases h
    · split at h <;> cases h
      exact ⟨rfl, _, rfl, by simp⟩
  | effect i =>
    refine .inr ?_
    simp only [step] at h
    split at h
    · cases h
    next call progress hop =>
      obtain ⟨⟨r₁, progress'⟩, heffect, rfl⟩ := Option.map_eq_some_iff.mp h
      exact ⟨i, call, progress, r₁, progress', rfl, hop, heffect, rfl⟩

theorem step_kept {a : Action T} (h : Kept path any n r) (hhonest : r.honest a)
    (hstep : r.step a = some r') : Kept path any n r' ∨ r'.Told any.child := by
  obtain ⟨hactors, new, hops, hnew⟩ | ⟨i, call, progress, r₁, progress', rfl, hop, heffect, rfl⟩ :=
    step_cases hstep
  · refine .inl ⟨hactors ▸ h.there, fun j call progress hj hget habout => ?_⟩
    rw [hops, List.getElem?_append] at hget
    split at hget
    · exact h.saw j call progress hj hget habout
    · cases hnew _ (List.mem_of_getElem? hget)
      trivial
  · have hops := effect_operations heffect
    obtain ⟨hlength, -⟩ := List.getElem?_eq_some_iff.mp hop
    have hown : ∀ p sender, call = .childTerminate p sender → progress = .pending →
        ∃ any, r.actors.lookup p = some any ∧ any.child = sender := by
      rintro p sender rfl rfl
      exact hhonest p sender hop
    rcases effect_kept h.there hown heffect with ⟨hthere, hsaw⟩ | ⟨p, answer, rfl, rfl⟩
    · refine .inl ⟨hthere, fun j c pr hj hget habout => ?_⟩
      simp only [goto, hops] at hget
      by_cases hij : i = j
      · subst hij
        rw [List.getElem?_set_self hlength] at hget
        cases hget
        exact hsaw habout (h.saw i call progress hj hop habout)
      · rw [List.getElem?_set_ne hij] at hget
        exact h.saw j c pr hj hget habout
    · exact .inr ⟨p, answer, List.mem_set (hops ▸ hlength) _⟩

theorem step_told {a : Action T} {child : ChildId} (h : r.Told child)
    (hstep : r.step a = some r') : r'.Told child := by
  obtain ⟨path, answer, hmem⟩ := h
  refine ⟨path, answer, ?_⟩
  obtain ⟨-, new, hops, -⟩ | ⟨i, call, progress, r₁, progress', -, hop, heffect, rfl⟩ :=
    step_cases hstep
  · exact hops ▸ List.mem_append_left _ hmem
  · obtain ⟨j, hj⟩ := List.mem_iff_getElem?.mp hmem
    have hij : i ≠ j := by
      rintro rfl
      cases hop.symm.trans hj
      cases heffect
    refine List.mem_of_getElem? (i := j) ?_
    simp only [goto, effect_operations heffect]
    rwa [List.getElem?_set_ne hij]

theorem exec_kept {as : List (Action T)} (h : Kept path any n r ∨ r.Told any.child)
    (hallows : machine.Allows honest r as) (hexec : machine.exec r as = some r') :
    Kept path any n r' ∨ r'.Told any.child := by
  induction as generalizing r with
  | nil =>
    cases hexec
    exact h
  | cons a as ih =>
    obtain ⟨u, hstep, hrest⟩ := Option.bind_eq_some_iff.mp hexec
    have hu : r.honest a ∧ machine.Allows honest u as := by simpa [Allows, hstep] using hallows
    refine ih ?_ hu.2 hrest
    rcases h with hkept | htold
    · exact step_kept hkept hu.1 hstep
    · exact .inr (step_told htold hstep)

end AtomicRegistry

/-- How far an operation has come: a lookup has its effect under the read lock, a creation
when it inserts or finds the path taken, a removal when it erases. -/
def Operation.progress (op : Operation) : Progress :=
  match op.point, op.call with
  | .got found, .getOrCreateActor _ _ _ | .matching found, _ =>
    match found with
    | some child => .done (.ok child)
    | none => .missed
  | .got found, _ => .done (.found found)
  | .writing, .getOrCreateActor _ _ _ | .checking, .getOrCreateActor _ _ _
  | .inserting, .getOrCreateActor _ _ _ => .missed
  | .leaving answer, _ | .returned answer, _ => .done answer
  | _, _ => .pending

namespace ActorSystem

variable {s s' : ActorSystem T} {i : Nat} {op op' : Operation}

def atomic (s : ActorSystem T) : AtomicRegistry T :=
  ⟨s.actors, s.instances, s.operations.map fun op => (op.call, op.progress)⟩

theorem atomic_goto (s : ActorSystem T) (i : Nat) (op : Operation) :
    (s.goto i op).atomic = s.atomic.goto i (op.call, op.progress) := by
  simp [atomic, goto, AtomicRegistry.goto, List.map_set]

theorem atomic_get (hop : s.operations[i]? = some op) :
    s.atomic.operations[i]? = some (op.call, op.progress) := by
  simp [atomic, hop]

/-- A step that only has to do with the lock. -/
theorem atomic_same (hop : s.operations[i]? = some op) (hcall : op'.call = op.call)
    (hprogress : op'.progress = op.progress) : (s.goto i op').atomic = s.atomic := by
  obtain ⟨hlength, hget⟩ := List.getElem?_eq_some_iff.mp (atomic_get hop)
  rw [atomic_goto, hcall, hprogress, AtomicRegistry.goto, ← hget, List.set_getElem_self]

theorem Operation.acquired_progress {mode : LockMode} (hwants : op.wants = some mode) :
    op.acquired.progress = op.progress := by
  obtain ⟨call, point⟩ := op
  cases point <;> cases hwants <;> cases call <;> rfl

/-- A step of an operation that is its effect. -/
theorem effect_step {r' : AtomicRegistry T} (hop : s.operations[i]? = some op) {progress : Progress}
    (heffect : s.atomic.effect op.call op.progress = some (r', progress)) :
    s.atomic.step (.effect i) = some (r'.goto i (op.call, progress)) := by
  simp [AtomicRegistry.step, atomic_get hop, heffect]

/-- What an operation does with the lock is no effect; else it is the effect, done at once. -/
theorem Access.atomic (hbooked : s.Booked) (hregistered : s.Registered)
    (hop : s.operations[i]? = some op) (hacc : s.Access i op s' op') :
    (s'.goto i op').atomic = s.atomic ∨ s.atomic.honest (.effect i) ∧
      s.atomic.step (.effect i) = some (s'.goto i op').atomic := by
  have hmem := List.mem_of_getElem? hop
  have hfits := hbooked.fits op hmem
  have honest : (∀ path sender, op.call ≠ .childTerminate path sender) →
      s.atomic.honest (.effect i) := by
    intro hcall path sender hget
    rw [atomic_get hop] at hget
    exact absurd (congrArg Prod.fst (Option.some.inj hget)) (hcall path sender)
  cases hacc with
  | lookUp hcall =>
    refine .inr ⟨honest ?_, ?_⟩
    · rcases hcall with rfl | ⟨option, rfl⟩ <;> nofun
    · rw [atomic_goto]
      refine effect_step hop ?_
      rcases hcall with rfl | ⟨option, rfl⟩
      · rfl
      · simp only [Operation.progress, AtomicRegistry.effect]
        rfl
  | nested => exact .inl (atomic_same (s := s.unlock i .read) hop rfl rfl)
  | @found call found houter =>
    refine .inl (atomic_same (s := s.unlock i .read) hop rfl ?_)
    cases call <;> first | rfl | cases houter
  | hit => exact .inl (atomic_same (s := s.unlock i .read) hop rfl rfl)
  | @miss call =>
    refine .inl (atomic_same (s := s.unlock i .read) hop rfl ?_)
    cases call <;> first | rfl | cases hfits
  | @exist call path hcreates hsome =>
    refine .inr ⟨honest ?_, ?_⟩
    · rintro p sender rfl
      cases hcreates
    · rw [atomic_goto]
      refine effect_step hop ?_
      cases call with
      | createActor p messageType option | getOrCreateActor p messageType option =>
        cases hcreates
        simp [Operation.progress, AtomicRegistry.effect, AtomicRegistry.create, atomic, hsome]
      | getActor _ _ | childTerminate _ _ => cases hcreates
  | @absent call path hcreates hnone =>
    refine .inl (atomic_same hop rfl ?_)
    cases call <;> rfl
  | @insert call path messageType option hcall =>
    have hfree : s.actors.lookup path = none :=
      hregistered.free _ hmem rfl path (by rcases hcall with rfl | rfl <;> rfl)
    refine .inr ⟨honest ?_, ?_⟩
    · rcases hcall with rfl | rfl <;> nofun
    · rw [atomic_goto]
      refine effect_step hop ?_
      rcases hcall with rfl | rfl <;>
        simp [Operation.progress, AtomicRegistry.effect, AtomicRegistry.create, atomic, create,
          hfree]
  | @remove path sender =>
    refine .inr ⟨fun p child hget => ?_, ?_⟩
    · rw [atomic_get hop] at hget
      cases hget
      exact (hregistered.entry path sender).mpr (hregistered.present hop rfl rfl)
    · rw [atomic_goto]
      exact effect_step hop rfl
  | leave => exact .inl (atomic_same (s := s.unlock i .write) hop rfl rfl)

theorem progress_start (call : SystemCall) : Operation.progress ⟨call, call.start⟩ = .pending := by
  cases call <;> rfl

theorem refines_atomic : Refines (machine ∅ [] : Machine (ActorSystem T) _) AtomicRegistry.machine
    (fun _ _ => True) AtomicRegistry.honest atomic := by
  refine .of_step rfl fun {s s' a} hr _ _ hstep => ?_
  have hbooked := reachable_booked hr
  cases step_move hstep with
  | @call call hcall =>
    refine .inr ⟨.call call, trivial, ?_⟩
    cases call with
    | childTerminate path sender => exact absurd rfl (hcall path sender)
    | _ => simp [AtomicRegistry.machine, AtomicRegistry.step, atomic, progress_start]
  | request => exact .inl rfl
  | @grant i op mode lock hop hwants _ =>
    have hsame : (({ s with lock := lock } : ActorSystem T).goto i op.acquired).atomic =
        ({ s with lock := lock } : ActorSystem T).atomic :=
      atomic_same hop rfl (Operation.acquired_progress hwants)
    exact .inl hsame
  | @access i op _ _ hop _ hacc =>
    exact (hacc.atomic hbooked (reachable_registered hr) hop).imp_right fun h =>
      ⟨.effect i, h.1, h.2⟩
  | @actor child action nd nd' hnd hnode =>
    refine .inr ⟨.actor child action, trivial, ?_⟩
    obtain ⟨path, option, hnode'⟩ := (reachable_registered hr).node child nd hnd
    have hnew : (notices child (nd'.mbox.log.drop nd.mbox.log.length)).map
        (fun op => (op.call, op.progress)) =
          (notices child (nd'.mbox.log.drop nd.mbox.log.length)).map
            fun op => (op.call, Progress.pending) := by
      refine List.map_congr_left fun op hop => ?_
      rw [mem_notices hnode' hnode hop]
      rfl
    have hget : s.atomic.instances[child]? = some nd := hnd
    simp only [AtomicRegistry.machine, AtomicRegistry.step, hget, hnode]
    simp only [atomic, List.map_append, hnew]

theorem Booked.told (h : s.Booked) {child : ChildId} (htold : s.atomic.Told child) :
    s.operations.any (Operation.told child) = true := by
  obtain ⟨path, answer, hmem⟩ := htold
  obtain ⟨⟨call, point⟩, hop, heq⟩ := List.mem_map.mp hmem
  have hfits := h.fits _ hop
  obtain ⟨rfl, hdone⟩ := Prod.mk.inj heq
  refine List.any_eq_true.mpr ⟨_, hop, ?_⟩
  cases point with
  | leaving | returned => simp [Operation.told, Operation.informs]
  | got | matching => cases hfits
  | _ => cases hdone

/-- Linearizability: between any two states of a run, the atomic map makes a run of its own,
with the same actors and the same entries. A call that has returned has had its effect, and
its answer is that of the atomic map. A notification only ever removes the entry of its
sender. -/
theorem registry_atomic (h : (machine ∅ []).Reachable s) {as : List (SystemAction T)}
    (hexec : (machine ∅ []).exec s as = some s') :
    AtomicRegistry.machine.Reach AtomicRegistry.honest s.atomic ∧
    (∃ effects, AtomicRegistry.machine.Allows AtomicRegistry.honest s.atomic effects ∧
      AtomicRegistry.machine.exec s.atomic effects = some s'.atomic) ∧
    s'.atomic.actors = s'.actors ∧ s'.atomic.instances = s'.instances ∧
    ∀ (i : Nat) (call : SystemCall) (answer : Answer),
      s'.operations[i]? = some ⟨call, .returned answer⟩ →
        s'.atomic.operations[i]? = some (call, .done answer) :=
  ⟨refines_atomic.reach h,
    refines_atomic.exec h (allows_of_exec (fun _ _ => trivial) hexec) hexec, rfl, rfl,
    fun _ _ _ hop => atomic_get hop⟩

/-- As long as the notification of an actor has not been carried out, each call about its path
that was made after its insertion, and has returned, has found it. -/
theorem registered_seen (h : (machine ∅ []).Reachable s) {path : ActorPath} {any : ChildContainer}
    (hany : s.actors.lookup path = some any) {as : List (SystemAction T)}
    (hexec : (machine ∅ []).exec s as = some s')
    (huntold : s'.operations.any (Operation.told any.child) = false) :
    s'.actors.lookup path = some any ∧
      ∀ (j : Nat) (call : SystemCall) (answer : Answer), s.operations.length ≤ j →
        s'.operations[j]? = some ⟨call, .returned answer⟩ → call.about = some path →
          answer = call.finds any := by
  obtain ⟨effects, hallows, hrun⟩ :=
    refines_atomic.exec h (allows_of_exec (fun _ _ => trivial) hexec) hexec
  have hkept : AtomicRegistry.Kept path any s.operations.length s.atomic := by
    refine ⟨hany, fun j call progress hj hget => ?_⟩
    have hlt := (List.getElem?_eq_some_iff.mp hget).1
    simp only [atomic, List.length_map] at hlt
    omega
  have hbooked := reachable_booked (h.exec_reachable hexec)
  rcases AtomicRegistry.exec_kept (.inl hkept) hallows hrun with hkept' | htold
  · exact ⟨hkept'.there, fun j call answer hj hop habout =>
      hkept'.saw j call (.done answer) hj (atomic_get hop) habout⟩
  · rw [hbooked.told htold] at huntold
    cases huntold

/-- Two calls for the name that was used again, of which one is about another message type. -/
def seeingRun : List (SystemAction Nat) :=
  [.call (.getActor ⟨["user", "a"]⟩ 0), .call (.getOrCreateActor ⟨["user", "a"]⟩ 1 {})] ++
    List.replicate 4 (.proceed 3) ++ List.replicate 11 (.proceed 4)

def seeingSystem : ActorSystem Nat :=
  (vacant.exec recreatedSystem seeingRun).get (by decide +kernel)

theorem seeingSystem_run : vacant.exec recreatedSystem seeingRun = some seeingSystem :=
  (Option.some_get _).symm

theorem registry_atomic_seeing :
    ∃ effects, AtomicRegistry.machine.exec recreatedSystem.atomic effects =
      some seeingSystem.atomic := by
  obtain ⟨-, ⟨effects, -, hrun⟩, -⟩ :=
    registry_atomic (Reach.exec_reachable .start recreatedSystem_run) seeingSystem_run
  exact ⟨effects, hrun⟩

theorem registered_seen_seeing :
    seeingSystem.operations[4]? =
        some ⟨.getOrCreateActor ⟨["user", "a"]⟩ 1 {}, .returned (.errExists ⟨["user", "a"]⟩)⟩ ∧
      ∀ (j : Nat) (call : SystemCall) (answer : Answer), 3 ≤ j →
        seeingSystem.operations[j]? = some ⟨call, .returned answer⟩ →
          call.about = some ⟨["user", "a"]⟩ → answer = call.finds ⟨0, 1⟩ := by
  have hlength : recreatedSystem.operations.length = 3 := by decide +kernel
  have hany : recreatedSystem.actors.lookup ⟨["user", "a"]⟩ = some ⟨0, 1⟩ := by decide +kernel
  have hseen := registered_seen (Reach.exec_reachable .start recreatedSystem_run) hany
    seeingSystem_run (by decide +kernel)
  exact ⟨by decide +kernel, hlength ▸ hseen.2⟩

end ActorSystem

end Ruactor
