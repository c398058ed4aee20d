import Ruactor.Summons
import Ruactor.Uniqueness

/-!
# The end of an actor system

`UserGuard::drop` runs when the last clone of the system is gone. No call is under way then,
and a notification cannot find the guard any more: `upgrade` fails. On a runtime with several
threads the drop waits for each actor in turn. Elsewhere it asks each of them to terminate,
and returns.
-/

namespace Ruactor

open Machine

variable {T : Type}

/-- The points of `UserGuard::drop`. `running` is before it, `waiting` in the `wait_stop` of
the actor whose entry was removed, and `unwound` after a failed `unwrap`. -/
inductive DropPoint
  | running
  | reading
  | stopping (keys : List ActorPath)
  | waiting (child : ChildId) (replyTo : ReplyTo) (keys : List ActorPath)
  | finished
  | unwound
  deriving DecidableEq, Repr

/-- The keys that are still to be gone through. -/
def DropPoint.keys : DropPoint → Option (List ActorPath)
  | .stopping keys | .waiting _ _ keys => some keys
  | .finished => some []
  | .running | .reading | .unwound => none

/-- A notification whose `upgrade` is still to come holds nothing of the guard. -/
def Operation.detached (op : Operation) : Bool :=
  match op.call with
  | .childTerminate _ _ => decide (op.point = .writing)
  | _ => false

/-- Nobody uses the map, and nobody waits for it. -/
def ActorSystem.idle (s : ActorSystem T) : Bool :=
  s.lock.waiting.isEmpty && s.operations.all fun op => !op.pending || op.detached

structure Shutdown (T : Type) where
  system : ActorSystem T
  poisoned : Bool
  multiThread : Bool
  point : DropPoint

namespace Shutdown

/-- `poison` is a call that panics while it writes, `drop` the end of the last clone, and
`proceed` a step of the drop: it chooses the key that comes next and a new channel. -/
inductive Action (T : Type)
  | system (a : SystemAction T)
  | poison
  | drop (multiThread : Bool)
  | proceed (pick : Nat) (replyTo : ReplyTo)
  | actor (child : ChildId) (a : Ruactor.Action T)
  deriving DecidableEq, Repr

def new : Shutdown T := ⟨⟨.free, ∅, [], []⟩, false, false, .running⟩

/-- A step of an actor that the guard takes no notice of. -/
def actorStep (s : Shutdown T) (child : ChildId) (a : Ruactor.Action T) : Option (Shutdown T) :=
  (s.system.instances[child]?).bind fun nd =>
    (nd.step a).map fun nd' =>
      { s with system := { s.system with instances := s.system.instances.set child nd' } }

def goto (s : Shutdown T) (point : DropPoint) : Shutdown T := { s with point := point }

/-- `actors.remove(path)` -/
def remove (s : Shutdown T) (path : ActorPath) : Shutdown T :=
  { s with system := { s.system with actors := s.system.actors.erase path } }

/-- `stop_actor_wait` up to the call of `wait_stop`, and `stop_actor`. The end of the push of
`stop` is left to the actor's other callers. -/
def stopActor (s : Shutdown T) (w : ReplyTo) (path : ActorPath) (keys : List ActorPath) :
    Option (Shutdown T) :=
  match s.system.actors.lookup path with
  | none => some (s.goto (.stopping keys))
  | some actor =>
    if s.multiThread then
      if (s.system.instances[actor.child]?).all fun nd => w ∉ nd.channels then
        ((s.remove path).actorStep actor.child (.call (.waitStop w))).map fun s =>
          s.goto (.waiting actor.child w keys)
      else none
    else ((s.remove path).actorStep actor.child (.deliver .terminate)).map fun s =>
      s.goto (.stopping keys)

def proceed (s : Shutdown T) (pick : Nat) (w : ReplyTo) : Option (Shutdown T) :=
  match s.point with
  | .reading =>
    some (s.goto (if s.poisoned then .unwound else .stopping s.system.actors.keys))
  | .stopping [] => some (s.goto .finished)
  | .stopping keys =>
    (keys[pick]?).bind fun path => s.stopActor w path (keys.eraseIdx pick)
  | .waiting child w keys =>
    if (s.system.instances[child]?).any (Node.answered w) then some (s.goto (.stopping keys))
    else none
  | .running | .finished | .unwound => none

/-- The channel of the drop is known to nobody else. -/
def taken (s : Shutdown T) (a : Ruactor.Action T) : Bool :=
  match s.point with
  | .waiting _ w _ => decide (a.channel = some w)
  | _ => false

def step (s : Shutdown T) : Action T → Option (Shutdown T)
  | .system a =>
    if s.point = .running then (s.system.step a).map fun system => { s with system := system }
    else none
  | .poison => if s.point = .running then some { s with poisoned := true } else none
  | .drop multiThread =>
    if s.point = .running ∧ s.system.idle then
      some { s with multiThread := multiThread, point := .reading }
    else none
  | .proceed pick w => s.proceed pick w
  | .actor child a => if s.point = .running ∨ s.taken a then none else s.actorStep child a

def machine : Machine (Shutdown T) (Action T) := ⟨new, step⟩

inductive Move (s : Shutdown T) : Action T → Shutdown T → Prop
  | system {a system} : s.point = .running → s.system.step a = some system →
      Move s (.system a) { s with system := system }
  | poison : s.point = .running → Move s .poison { s with poisoned := true }
  | drop {multiThread} : s.point = .running → s.system.idle = true →
      Move s (.drop multiThread) { s with multiThread := multiThread, point := .reading }
  | unwind {pick w} : s.point = .reading → s.poisoned = true →
      Move s (.proceed pick w) (s.goto .unwound)
  | read {pick w} : s.point = .reading → s.poisoned = false →
      Move s (.proceed pick w) (s.goto (.stopping s.system.actors.keys))
  | finish {pick w} : s.point = .stopping [] → Move s (.proceed pick w) (s.goto .finished)
  | miss {pick w keys path} : s.point = .stopping keys → keys[pick]? = some path →
      s.system.actors.lookup path = none →
      Move s (.proceed pick w) (s.goto (.stopping (keys.eraseIdx pick)))
  | wait {pick w keys path actor nd nd'} : s.point = .stopping keys → keys[pick]? = some path →
      s.system.actors.lookup path = some actor → s.multiThread = true →
      s.system.instances[actor.child]? = some nd → nd.step (.call (.waitStop w)) = some nd' →
      Move s (.proceed pick w) { s with
        system := { s.system with
          actors := s.system.actors.erase path
          instances := s.system.instances.set actor.child nd' }
        point := .waiting actor.child w (keys.eraseIdx pick) }
  | ask {pick w keys path actor nd nd'} : s.point = .stopping keys → keys[pick]? = some path →
      s.system.actors.lookup path = some actor → s.multiThread = false →
      s.system.instances[actor.child]? = some nd → nd.step (.deliver .terminate) = some nd' →
      Move s (.proceed pick w) { s with
        system := { s.system with
          actors := s.system.actors.erase path
          instances := s.system.instances.set actor.child nd' }
        point := .stopping (keys.eraseIdx pick) }
  | leave {pick w child w' keys nd} : s.point = .waiting child w' keys →
      s.system.instances[child]? = some nd → nd.answered w' = true →
      Move s (.proceed pick w) (s.goto (.stopping keys))
  | actor {child a nd nd'} : s.point ≠ .running → s.system.instances[child]? = some nd →
      nd.step a = some nd' →
      Move s (.actor child a)
        { s with system := { s.system with instances := s.system.instances.set child nd' } }

variable {s s' : Shutdown T}

theorem actorStep_some {child : ChildId} {a : Ruactor.Action T}
    (h : s.actorStep child a = some s') : ∃ nd nd', s.system.instances[child]? = some nd ∧
      nd.step a = some nd' ∧ s' =
        { s with system := { s.system with instances := s.system.instances.set child nd' } } := by
  obtain ⟨nd, hnd, hrest⟩ := Option.bind_eq_some_iff.mp h
  obtain ⟨nd', hstep, rfl⟩ := Option.map_eq_some_iff.mp hrest
  exact ⟨nd, nd', hnd, hstep, rfl⟩

theorem stopActor_move {pick : Nat} {w : ReplyTo} {path : ActorPath} {keys : List ActorPath}
    (hp : s.point = .stopping keys) (hpath : keys[pick]? = some path)
    (h : s.stopActor w path (keys.eraseIdx pick) = some s') : Move s (.proceed pick w) s' := by
  simp only [stopActor] at h
  split at h
  next hlookup =>
    cases h
    exact .miss hp hpath hlookup
  next actor hlookup =>
    split at h
    next hmulti =>
      split at h
      · obtain ⟨t, ht, rfl⟩ := Option.map_eq_some_iff.mp h
        obtain ⟨nd, nd', hnd, hstep, rfl⟩ := actorStep_some ht
        exact .wait hp hpath hlookup hmulti hnd hstep
      · cases h
    next hmulti =>
      obtain ⟨t, ht, rfl⟩ := Option.map_eq_some_iff.mp h
      obtain ⟨nd, nd', hnd, hstep, rfl⟩ := actorStep_some ht
      have hmove : Move s (.proceed pick w) _ :=
        .ask hp hpath hlookup (by simpa using hmulti) hnd hstep
      exact hmove

theorem step_move {a : Action T} (h : s.step a = some s') : Move s a s' := by
  cases a with
  | system a =>
    simp only [step] at h
    split at h
    · obtain ⟨system, hstep, rfl⟩ := Option.map_eq_some_iff.mp h
      exact .system ‹_› hstep
    · cases h
  | poison =>
    simp only [step] at h
    split at h <;> cases h
    exact .poison ‹_›
  | drop multiThread =>
    simp only [step] at h
    split at h
    next hidle =>
      cases h
      exact .drop hidle.1 hidle.2
    · cases h
  | proceed pick w =>
    simp only [step, proceed] at h
    split at h
    next hp =>
      cases h
      cases hpoisoned : s.poisoned with
      | true => exact .unwind hp hpoisoned
      | false => exact .read hp hpoisoned
    next hp =>
      cases h
      exact .finish hp
    next keys _ hp =>
      obtain ⟨path, hpath, hstop⟩ := Option.bind_eq_some_iff.mp h
      exact stopActor_move hp hpath hstop
    next child w' keys hp =>
      split at h
      next hany =>
        cases h
        obtain ⟨nd, hnd, hanswered⟩ := (Option.any_eq_true _ _).mp hany
        exact .leave hp hnd hanswered
      · cases h
    all_goals cases h
  | actor child a =>
    simp only [step] at h
    split at h
    · cases h
    next hfree =>
      obtain ⟨nd, nd', hnd, hstep, rfl⟩ := actorStep_some h
      exact .actor (fun hp => hfree (.inl hp)) hnd hstep

end Shutdown

namespace ActorSystem

/-- What a step does to the actors: nothing, or one is created, or one makes a step. -/
theorem Move.actors {s s' : ActorSystem T} {a : SystemAction T} (move : s.Move a s') :
    s'.instances = s.instances ∨
    (∃ path option, s'.instances = s.instances ++ [(Node.new path option .guard).deliver .created]) ∨
    ∃ child action nd nd', a = .actor child action ∧ s.instances[child]? = some nd ∧
      nd.step action = some nd' ∧ s'.instances = s.instances.set child nd' := by
  cases move with
  | call _ | request _ _ _ | grant _ _ _ => exact .inl rfl
  | access _ _ hacc =>
    cases hacc with
    | insert _ => exact .inr (.inl ⟨_, _, rfl⟩)
    | _ => exact .inl rfl
  | actor hnd hstep => exact .inr (.inr ⟨_, _, _, _, rfl, hnd, hstep, rfl⟩)

end ActorSystem

namespace Shutdown

variable {s s' : Shutdown T}

/-- The condition `ok` on the steps of the actors. -/
def within (ok : Node T → Ruactor.Action T → Prop) (s : Shutdown T) : Action T → Prop
  | .system (.actor child a) | .actor child a => ∀ nd ∈ s.system.instances[child]?, ok nd a
  | _ => True

instance (ok : Node T → Ruactor.Action T → Prop) [∀ nd a, Decidable (ok nd a)] (s : Shutdown T)
    (a : Action T) : Decidable (within ok s a) :=
  match a with
  | .system (.actor child _) | .actor child _ =>
    inferInstanceAs (Decidable (∀ nd ∈ s.system.instances[child]?, _))
  | .system (.call _) | .system (.proceed _) | .poison | .drop _ | .proceed _ _ => isTrue trivial

/-- Each actor has come to its state by steps of its own. -/
theorem reach_nodes {ok : Node T → Ruactor.Action T → Prop} (hcall : ∀ nd c, ok nd (.call c))
    (hdeliver : ∀ nd msg, ok nd (.deliver msg)) (h : machine.Reach (within ok) s) :
    ∀ (child : ChildId) (nd : Node T), s.system.instances[child]? = some nd →
      ∃ path option, (Node.machine path option .guard).Reach ok nd := by
  refine h.invariant (P := fun s : Shutdown T => ∀ (child : ChildId) (nd : Node T),
    s.system.instances[child]? = some nd → ∃ path option, (Node.machine path option .guard).Reach ok nd)
    (fun _ _ hx => absurd hx (by simp [machine, new]))
    fun {s s' a} _ hs allowed hstep child x hx => ?_
  have stepped : ∀ {c : ChildId} {a : Ruactor.Action T} {nd nd' : Node T},
      s.system.instances[c]? = some nd → nd.step a = some nd' → ok nd a →
      (s.system.instances.set c nd')[child]? = some x →
      ∃ path option, (Node.machine path option .guard).Reach ok x := by
    intro c a nd nd' hnd hnode hok hx
    rcases Pool.set_get hx with ⟨-, rfl⟩ | ⟨-, hold⟩
    · obtain ⟨path, option, hr⟩ := hs c nd hnd
      exact ⟨path, option, .step hr hok hnode⟩
    · exact hs child x hold
  cases step_move hstep with
  | system _ hsystem =>
    obtain hsame | ⟨path, option, hnew⟩ | ⟨c, a, nd, nd', rfl, hnd, hnode, hset⟩ :=
      (ActorSystem.step_move hsystem).actors
    · exact hs child x (hsame ▸ hx)
    · rcases Pool.concat_get.mp (hnew ▸ hx) with hold | ⟨-, rfl⟩
      · exact hs child x hold
      · exact ⟨path, option, .step (a := .deliver .created) .start (hdeliver _ _) rfl⟩
    · exact stepped hnd hnode (allowed nd hnd) (hset ▸ hx)
  | actor _ hnd hnode => exact stepped hnd hnode (allowed _ hnd) hx
  | wait _ _ _ _ hnd hnode => exact stepped hnd hnode (hcall _ _) hx
  | ask _ _ _ _ hnd hnode => exact stepped hnd hnode (hdeliver _ _) hx
  | _ => exact hs child x hx

theorem reachable_nodes (h : machine.Reachable s) : ∀ (child : ChildId) (nd : Node T),
    s.system.instances[child]? = some nd →
      ∃ path option, (Node.machine path option .guard).Reachable nd :=
  reach_nodes (fun _ _ => trivial) (fun _ _ => trivial) (h.mono fun _ a _ => by
    cases a with
    | system a => cases a <;> simp [within]
    | _ => simp [within])

/-- Where an actor stands that was there when the drop began. -/
inductive Settled (s : Shutdown T) (child : ChildId) (nd : Node T) : Prop
  | closed : nd.mbox.terminated = true → Settled s child nd
  | entered {path actor} : s.system.actors.lookup path = some actor → actor.child = child →
      Settled s child nd
  | asked : s.multiThread = false → .pushedInternal .terminate ∈ nd.mbox.log → Settled s child nd
  | awaited {w keys} : s.point = .waiting child w keys → Settled s child nd

/-- While the drop is under way. -/
structure Dropping (s : Shutdown T) : Prop where
  free : s.system.lock.held = [] ∧ s.system.lock.waiting = []
  entries : ∀ path actor, s.system.actors.lookup path = some actor →
    ∃ nd, s.system.instances[actor.child]? = some nd
  keys : ∀ keys ∈ s.point.keys, ∀ path ∈ s.system.actors, path ∈ keys
  settled : ∀ (child : ChildId) (nd : Node T), s.system.instances[child]? = some nd →
    s.Settled child nd

theorem Settled.step {child c : ChildId} {nd nd' x : Node T} {a : Ruactor.Action T}
    (hnd : s.system.instances[c]? = some nd) (hstep : nd.step a = some nd')
    (hx : (s.system.instances.set c nd')[child]? = some x)
    (h : ∀ (child : ChildId) (nd : Node T), s.system.instances[child]? = some nd →
      s.Settled child nd) : s.Settled child x := by
  rcases Pool.set_get hx with ⟨rfl, rfl⟩ | ⟨-, hold⟩
  · have move := Node.step_move hstep
    cases h child nd hnd with
    | closed hclosed => exact .closed (move.closed hclosed)
    | entered hlookup hchild => exact .entered hlookup hchild
    | asked hmulti hpushed =>
      obtain ⟨events, hlog⟩ := move.log
      exact .asked hmulti (by simp [hlog, hpushed])
    | awaited hp => exact .awaited hp
  · exact h child x hold

theorem idle_free {system : ActorSystem T} (hbooked : system.Booked) (h : system.idle = true) :
    system.lock.held = [] ∧ system.lock.waiting = [] := by
  simp only [ActorSystem.idle, Bool.and_eq_true, List.isEmpty_iff, List.all_eq_true] at h
  refine ⟨List.eq_nil_iff_forall_not_mem.mpr ?_, h.1⟩
  rintro ⟨i, mode⟩ hmem
  have hholds := hbooked.mem_held.mp hmem
  cases hop : system.operations[i]? with
  | none => simp [ActorSystem.holds, hop] at hholds
  | some op =>
    rw [ActorSystem.holds_of_get hop] at hholds
    have hidle := h.2 op (List.mem_of_getElem? hop)
    rw [Operation.pending_of_holds hholds, Bool.not_true, Bool.false_or] at hidle
    -- a notification that has not asked for the lock holds nothing
    unfold Operation.detached at hidle
    split at hidle
    · rw [Operation.holds, of_decide_eq_true hidle] at hholds
      cases hholds
    · cases hidle

/-- An actor that is not in the map any more has told the guard, so it is closed. -/
theorem registered_settled {system : ActorSystem T} (h : (ActorSystem.machine ∅ []).Reachable system)
    {child : ChildId} {nd : Node T} (hnd : system.instances[child]? = some nd) :
    nd.mbox.terminated = true ∨
      ∃ path actor, system.actors.lookup path = some actor ∧ actor.child = child := by
  have hregistered := ActorSystem.reachable_registered h
  obtain ⟨path, option, hr⟩ := hregistered.node child nd hnd
  by_cases hsilent : ∀ e ∈ nd.mbox.log, e.notice = false
  · have hpresent := hregistered.present_of_silent hnd hsilent
    exact .inr ⟨_, (hregistered.entry _ child).mpr hpresent⟩
  · simp only [not_forall] at hsilent
    obtain ⟨e, he, hnotice⟩ := hsilent
    have hnotifies : e.notifies = true := by
      cases e <;> first | rfl | exact absurd rfl hnotice
    exact .inl (Node.orphan_closed hr ((Node.reachable_final hr).orphan he hnotifies))

theorem dropping_start (h : (ActorSystem.machine ∅ []).Reachable s.system)
    (hidle : s.system.idle = true) (multiThread : Bool) :
    Dropping { s with multiThread := multiThread, point := .reading } where
  free := idle_free (ActorSystem.reachable_booked h) hidle
  entries path actor hlookup := by
    have hpresent := ((ActorSystem.reachable_registered h).entry path actor.child).mp
      ⟨actor, hlookup, rfl⟩
    exact hpresent.created.imp fun nd hnd => hnd.1
  keys := nofun
  settled child nd hnd := by
    rcases registered_settled h hnd with hclosed | ⟨path, actor, hlookup, hchild⟩
    · exact .closed hclosed
    · exact .entered hlookup hchild

theorem lookup_erased {actors : AList fun _ : ActorPath => ChildContainer} {path p : ActorPath}
    {actor : ChildContainer} (h : (actors.erase path).lookup p = some actor) :
    p ≠ path ∧ actors.lookup p = some actor := by
  by_cases hp : p = path
  · subst hp
    rw [AList.lookup_erase] at h
    cases h
  · exact ⟨hp, (AList.lookup_erase_ne hp) ▸ h⟩

theorem mem_eraseIdx_of_ne {keys : List ActorPath} {pick : Nat} {path p : ActorPath}
    (hpath : keys[pick]? = some path) (hp : p ∈ keys) (hne : p ≠ path) :
    p ∈ keys.eraseIdx pick := by
  obtain ⟨i, hi⟩ := List.mem_iff_getElem?.mp hp
  refine List.mem_eraseIdx_iff_getElem?.mpr ⟨i, ?_, hi⟩
  rintro rfl
  exact hne (Option.some.inj (hi.symm.trans hpath))

/-- The drop removes the entry of an actor and turns to the actor. -/
theorem Dropping.turn (h : s.Dropping) {keys : List ActorPath} {pick : Nat} {path : ActorPath}
    {actor : ChildContainer} {nd' : Node T} (hp : s.point = .stopping keys)
    (hpath : keys[pick]? = some path) (hlookup : s.system.actors.lookup path = some actor)
    (hsystem : s'.system = { s.system with
      actors := s.system.actors.erase path
      instances := s.system.instances.set actor.child nd' })
    (hmulti : s'.multiThread = s.multiThread)
    (hkeys : s'.point.keys = some (keys.eraseIdx pick))
    (hactor : s'.Settled actor.child nd') : s'.Dropping := by
  obtain ⟨nd, hnd⟩ := h.entries path actor hlookup
  refine ⟨by rw [hsystem]; exact h.free, fun p any hany => ?_, fun keys' hkeys' p hmem => ?_,
    fun child x hx => ?_⟩
  · rw [hsystem] at hany ⊢
    obtain ⟨x, hx⟩ := h.entries p any (lookup_erased hany).2
    by_cases hc : actor.child = any.child
    · exact ⟨nd', by simp [hc.symm, (List.getElem?_eq_some_iff.mp hnd).1]⟩
    · exact ⟨x, by simpa [List.getElem?_set_ne hc] using hx⟩
  · obtain rfl : keys.eraseIdx pick = keys' := Option.some.inj (hkeys.symm.trans hkeys')
    rw [hsystem] at hmem
    obtain ⟨any, hany⟩ := Option.isSome_iff_exists.mp (AList.lookup_isSome.mpr hmem)
    obtain ⟨hne, hold⟩ := lookup_erased hany
    have hp' : p ∈ s.system.actors := AList.lookup_isSome.mp (hold ▸ rfl)
    exact mem_eraseIdx_of_ne hpath (h.keys keys (by simp [hp, DropPoint.keys]) p hp') hne
  · rw [hsystem] at hx
    by_cases hc : child = actor.child
    · subst hc
      rcases Pool.set_get hx with ⟨-, rfl⟩ | ⟨-, hold⟩
      · exact hactor
      · rw [List.getElem?_set_self (List.getElem?_eq_some_iff.mp hnd).1] at hx
        obtain rfl := Option.some.inj hx
        exact hactor
    · rcases Pool.set_get hx with ⟨hchild, -⟩ | ⟨-, hold⟩
      · exact absurd hchild hc
      · cases h.settled child x hold with
        | closed hclosed => exact .closed hclosed
        | @entered p any hany hchild =>
          have hne : p ≠ path := by
            rintro rfl
            cases hlookup.symm.trans hany
            exact hc hchild.symm
          have hentry : s'.system.actors.lookup p = some any := by
            rw [hsystem]
            exact (AList.lookup_erase_ne hne).trans hany
          exact .entered hentry hchild
        | asked hsingle hpushed => exact .asked (hmulti.trans hsingle) hpushed
        | awaited hp' => cases hp.symm.trans hp'

/-- The drop goes on and leaves the map and the actors alone. -/
theorem Dropping.goto (h : s.Dropping) {point : DropPoint}
    (hkeys : ∀ keys ∈ point.keys, ∀ path ∈ s.system.actors, path ∈ keys)
    (hsettled : ∀ (child : ChildId) (nd : Node T) w keys, s.system.instances[child]? = some nd →
      s.point = .waiting child w keys → nd.mbox.terminated = true) :
    (s.goto point).Dropping where
  free := h.free
  entries := h.entries
  keys := hkeys
  settled child nd hnd := by
    cases h.settled child nd hnd with
    | closed hclosed => exact .closed hclosed
    | entered hlookup hchild => exact .entered hlookup hchild
    | asked hsingle hpushed => exact .asked hsingle hpushed
    | awaited hp => exact .closed (hsettled child nd _ _ hnd hp)

theorem Move.dropping {a : Action T} (move : Move s a s') (hr : machine.Reachable s)
    (hp : s.point ≠ .running) (h : s.Dropping) : s'.Dropping := by
  have unawaited : ∀ {point : DropPoint}, s.point = point →
      (∀ child w keys, point ≠ .waiting child w keys) →
      ∀ (child : ChildId) (nd : Node T) w keys, s.system.instances[child]? = some nd →
        s.point = .waiting child w keys → nd.mbox.terminated = true :=
    fun hpoint hne child _ w keys _ hwait => absurd (hpoint.symm.trans hwait) (hne child w keys)
  cases move with
  | system hrunning _ | poison hrunning | drop hrunning _ => exact absurd hrunning hp
  | unwind hpoint _ => exact h.goto nofun (unawaited hpoint nofun)
  | read hpoint _ =>
    refine h.goto ?_ (unawaited hpoint nofun)
    rintro keys ⟨⟩ path hmem
    exact AList.mem_keys.mp hmem
  | finish hpoint =>
    refine h.goto ?_ (unawaited hpoint nofun)
    rintro keys ⟨⟩
    exact h.keys [] (by simp [hpoint, DropPoint.keys])
  | @miss pick w keys path hpoint hpath hlookup =>
    refine h.goto ?_ (unawaited hpoint nofun)
    rintro _ ⟨⟩ p hmem
    refine mem_eraseIdx_of_ne hpath (h.keys keys (by simp [hpoint, DropPoint.keys]) p hmem) ?_
    rintro rfl
    exact AList.lookup_eq_none.mp hlookup hmem
  | wait hpoint hpath hlookup _ _ _ =>
    exact h.turn hpoint hpath hlookup rfl rfl rfl (.awaited rfl)
  | ask hpoint hpath hlookup hmulti _ hstep =>
    cases hstep
    refine h.turn hpoint hpath hlookup rfl rfl rfl (.asked hmulti ?_)
    simp [Node.deliver, Mailbox.pushInternal]
  | @leave pick w child w' keys nd hpoint hnd hanswered =>
    refine h.goto ?_ fun c x w'' keys' hx hwait => ?_
    · rintro _ ⟨⟩
      exact h.keys keys (by simp [hpoint, DropPoint.keys])
    · cases hpoint.symm.trans hwait
      cases hnd.symm.trans hx
      obtain ⟨path, option, hnode⟩ := reachable_nodes hr child nd hnd
      exact Node.answered_closed hnode hanswered
  | @actor child a nd nd' _ hnd hstep =>
    refine ⟨h.free, fun path any hany => ?_, h.keys, fun c x hx => ?_⟩
    · obtain ⟨x, hx⟩ := h.entries path any hany
      by_cases hc : child = any.child
      · exact ⟨nd', by simp [hc.symm, (List.getElem?_eq_some_iff.mp hnd).1]⟩
      · exact ⟨x, by simpa [List.getElem?_set_ne hc] using hx⟩
    · cases Settled.step hnd hstep hx h.settled with
      | closed hclosed => exact .closed hclosed
      | entered hlookup hchild => exact .entered hlookup hchild
      | asked hmulti hpushed => exact .asked hmulti hpushed
      | awaited hpoint => exact .awaited hpoint

/-- Before the drop the system is as it was, and from then on it is taken down. -/
structure Orderly (s : Shutdown T) : Prop where
  running : s.point = .running → (ActorSystem.machine ∅ []).Reachable s.system
  dropping : s.point ≠ .running → s.Dropping

theorem reachable_orderly (h : machine.Reachable s) : s.Orderly := by
  refine h.invariant (P := Orderly) ⟨fun _ => .start, fun hp => absurd rfl hp⟩
    fun {s s' a} hr hs _ hstep => ?_
  have move := step_move hstep
  by_cases hp : s.point = .running
  · cases move with
    | system _ hsystem =>
      exact ⟨fun _ => .step (hs.running hp) trivial hsystem, fun hne => absurd hp hne⟩
    | poison _ => exact ⟨fun _ => hs.running hp, fun hne => absurd hp hne⟩
    | drop _ hidle => exact ⟨nofun, fun _ => dropping_start (hs.running hp) hidle _⟩
    | actor hne _ _ => exact absurd hp hne
    | unwind hpoint _ | read hpoint _ | finish hpoint | miss hpoint _ _ | wait hpoint _ _ _ _ _
    | ask hpoint _ _ _ _ _ | leave hpoint _ _ => cases hp.symm.trans hpoint
  · have hdropping := move.dropping hr hp (hs.dropping hp)
    refine ⟨fun hp' => ?_, fun _ => hdropping⟩
    cases move with
    | system hrunning _ | poison hrunning | drop hrunning _ => exact absurd hrunning hp
    | actor _ _ _ => exact absurd hp' hp
    | _ => cases hp'

theorem drop_settled (h : machine.Reachable s) (hp : s.point = .finished) :
    s.system.actors.entries = [] ∧
      (∀ nd ∈ s.system.instances, nd.mbox.terminated = true ∨
        s.multiThread = false ∧ .pushedInternal .terminate ∈ nd.mbox.log) ∧
      s.system.lock.held = [] ∧ s.system.lock.waiting = [] := by
  have hdropping := (reachable_orderly h).dropping (by simp [hp])
  have hnone : ∀ path, path ∉ s.system.actors := fun path hmem =>
    List.not_mem_nil (hdropping.keys [] (by simp [hp, DropPoint.keys]) path hmem)
  refine ⟨?_, fun nd hnd => ?_, hdropping.free⟩
  · refine List.eq_nil_iff_forall_not_mem.mpr fun entry hentry => hnone entry.1 ?_
    exact List.mem_map.mpr ⟨entry, hentry, rfl⟩
  · obtain ⟨child, hget⟩ := List.mem_iff_getElem?.mp hnd
    cases hdropping.settled child nd hget with
    | closed hclosed => exact .inl hclosed
    | entered hlookup _ => exact absurd (AList.lookup_isSome.mp (by rw [hlookup]; rfl)) (hnone _)
    | asked hmulti hpushed => exact .inr ⟨hmulti, hpushed⟩
    | awaited hwait => cases hp.symm.trans hwait

/-- No step takes anything out of the record of an actor. -/
theorem exec_log {as : List (Action T)} (hexec : machine.exec s as = some s') {child : ChildId}
    {nd : Node T} (hnd : s.system.instances[child]? = some nd) :
    ∃ nd', s'.system.instances[child]? = some nd' ∧ nd.mbox.log <+: nd'.mbox.log := by
  induction as generalizing s nd with
  | nil =>
    cases hexec
    exact ⟨nd, hnd, List.prefix_rfl⟩
  | cons a as ih =>
    obtain ⟨t, hstep, hrest⟩ := Option.bind_eq_some_iff.mp hexec
    suffices hone : ∃ nd', t.system.instances[child]? = some nd' ∧ nd.mbox.log <+: nd'.mbox.log by
      obtain ⟨nd', hnd', hlog⟩ := hone
      obtain ⟨nd'', hnd'', hlog'⟩ := ih hrest hnd'
      exact ⟨nd'', hnd'', hlog.trans hlog'⟩
    have stepped : ∀ {c : ChildId} {a : Ruactor.Action T} {x x' : Node T},
        s.system.instances[c]? = some x → x.step a = some x' →
        ∃ nd', (s.system.instances.set c x')[child]? = some nd' ∧
          nd.mbox.log <+: nd'.mbox.log := by
      intro c a x x' hx hnode
      by_cases hc : c = child
      · subst hc
        cases hnd.symm.trans hx
        obtain ⟨events, hlog⟩ := (Node.step_move hnode).log
        exact ⟨x', List.getElem?_set_self (List.getElem?_eq_some_iff.mp hnd).1, events, hlog.symm⟩
      · exact ⟨nd, (List.getElem?_set_ne hc).trans hnd, List.prefix_rfl⟩
    cases step_move hstep with
    | system _ hsystem =>
      obtain hsame | ⟨path, option, hnew⟩ | ⟨c, a, x, x', rfl, hx, hnode, hset⟩ :=
        (ActorSystem.step_move hsystem).actors
      · exact ⟨nd, hsame ▸ hnd, List.prefix_rfl⟩
      · exact ⟨nd, hnew ▸ Pool.concat_get.mpr (.inl hnd), List.prefix_rfl⟩
      · exact hset ▸ stepped hx hnode
    | actor _ hx hnode | wait _ _ _ _ hx hnode | ask _ _ _ _ hx hnode => exact stepped hx hnode
    | _ => exact ⟨nd, hnd, List.prefix_rfl⟩

end Shutdown

end Ruactor
