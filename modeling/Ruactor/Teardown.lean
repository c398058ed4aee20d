import Mathlib.Data.Fintype.EquivFin
import Ruactor.Shutdown

/-!
# The drop comes to its end

The drop goes through finitely many steps, and is held up by nothing but an actor that it
waits for. When it has returned no actor is left that takes messages.
-/

namespace Ruactor

open Machine

variable {T : Type}

namespace Shutdown

variable {s s' : Shutdown T}

/-- The steps of the drop that are left. -/
def rank (s : Shutdown T) : Nat :=
  match s.point with
  | .reading => 2 * s.system.actors.keys.length + 2
  | .stopping keys => 2 * keys.length + 1
  | .waiting _ _ keys => 2 * keys.length + 2
  | .running | .finished | .unwound => 0

theorem length_eraseIdx {keys : List ActorPath} {pick : Nat} {path : ActorPath}
    (hpath : keys[pick]? = some path) : (keys.eraseIdx pick).length + 1 = keys.length := by
  obtain ⟨hlt, -⟩ := List.getElem?_eq_some_iff.mp hpath
  rw [List.length_eraseIdx_of_lt hlt]
  omega

theorem Move.rank_lt {pick : Nat} {w : ReplyTo} (move : Move s (.proceed pick w) s') :
    s'.rank < s.rank := by
  cases move with
  | unwind hp _ | read hp _ | finish hp | leave hp _ _ => simp [rank, Shutdown.goto, hp]
  | miss hp hpath _ | wait hp hpath _ _ _ _ | ask hp hpath _ _ _ _ =>
    have hlength := length_eraseIdx hpath
    simp only [rank, Shutdown.goto, hp]
    omega

/-- The drop has asked the actor that it waits for. -/
theorem reachable_awaiting (h : machine.Reachable s) {child : ChildId} {w : ReplyTo}
    {keys : List ActorPath} (hp : s.point = .waiting child w keys) :
    ∃ nd, s.system.instances[child]? = some nd ∧ nd.Awaiting w := by
  refine h.invariant (P := fun s : Shutdown T => ∀ child w keys,
    s.point = .waiting child w keys → ∃ nd, s.system.instances[child]? = some nd ∧ nd.Awaiting w)
    (fun _ _ _ hp => absurd hp (by simp [machine, new]))
    (fun {s s' a} _ hs _ hstep child w keys hp => ?_) child w keys hp
  cases step_move hstep with
  | system hrunning _ | poison hrunning => cases hp.symm.trans hrunning
  | @wait pick w' keys' path actor nd nd' _ _ _ _ hnd hnode =>
    cases hp
    refine ⟨nd', List.getElem?_set_self (List.getElem?_eq_some_iff.mp hnd).1, ?_⟩
    cases hnode
    refine .begun (List.mem_append_right _ (List.mem_singleton_self _)) ?_
    simp only [Call.start]
    split <;> simp [Client.bids]
  | @actor c a nd nd' _ hnd hnode =>
    obtain ⟨x, hx, hawaiting⟩ := hs child w keys hp
    by_cases hc : c = child
    · subst hc
      cases hnd.symm.trans hx
      exact ⟨nd', List.getElem?_set_self (List.getElem?_eq_some_iff.mp hnd).1,
        (Node.step_move hnode).awaiting hawaiting⟩
    · exact ⟨x, (List.getElem?_set_ne hc).trans hx, hawaiting⟩
  | _ => cases hp

theorem stopActor_some (h : s.Dropping) (path : ActorPath) (keys : List ActorPath) :
    ∃ w, (s.stopActor w path keys).isSome := by
  cases hlookup : s.system.actors.lookup path with
  | none => exact ⟨0, by simp [stopActor, hlookup]⟩
  | some actor =>
    obtain ⟨nd, hnd⟩ := h.entries path actor hlookup
    cases hmulti : s.multiThread with
    | true =>
      obtain ⟨w, hw⟩ := Infinite.exists_notMem_finset nd.channels.toFinset
      rw [List.mem_toFinset] at hw
      exact ⟨w, by simp [stopActor, hlookup, hmulti, hnd, hw, actorStep, remove, Node.step]⟩
    | false =>
      exact ⟨0, by simp [stopActor, hlookup, hmulti, hnd, actorStep, remove, Node.step]⟩

/-- The drop has begun and has not come to its end. -/
def pending (s : Shutdown T) : Bool :=
  match s.point with
  | .reading | .stopping _ | .waiting _ _ _ => true
  | .running | .finished | .unwound => false

def creating (name : String) (option : PropsOption) (i : Nat) : List (Action Nat) :=
  (.call (.createActor ⟨["user", name]⟩ 0 option) :: List.replicate 5 (.proceed i)).map .system

/-- Two actors are created, and the drop waits for the first one, which comes to rest. -/
def restingRun : List (Action Nat) :=
  creating "a" {} 0 ++ creating "b" { gracefulStop := true } 1 ++
    [.drop true, .proceed 0 7, .proceed 1 7] ++
    (List.replicate 6 (Action.client 0) ++
      Node.callbacks [⟨.create, [], false⟩, ⟨.onEnter, [], false⟩] ++ Node.turns 6 ++
      Node.callbacks [⟨.onExit, [], false⟩] ++ Node.turns 14).map (.actor 0)

/-- The second one gets a pill, and the drop returns. -/
def droppingRun : List (Action Nat) :=
  restingRun ++ [.proceed 0 7, .proceed 0 8] ++
    (List.replicate 7 (Action.client 0) ++
      Node.callbacks [⟨.create, [], false⟩, ⟨.onEnter, [], false⟩] ++ Node.turns 8 ++
      List.replicate 2 (Action.client 0) ++ Node.turns 5 ++
      Node.callbacks [⟨.onExit, [], false⟩] ++ Node.turns 7).map (.actor 1) ++
    [.proceed 0 8, .proceed 0 8]

def restingShutdown : Shutdown Nat := (machine.exec new restingRun).get (by decide +kernel)

def droppedShutdown : Shutdown Nat := (machine.exec new droppingRun).get (by decide +kernel)

theorem restingShutdown_run : machine.exec new restingRun = some restingShutdown :=
  (Option.some_get _).symm

theorem droppedShutdown_run : machine.exec new droppingRun = some droppedShutdown :=
  (Option.some_get _).symm

/-- When the drop has returned, no actor is in the map. If it waited for them, every actor that
was ever created is closed; otherwise each is closed or has been sent a `Terminate`. The drop
never found the lock taken. -/
theorem drop_complete (h : machine.Reachable s) (hp : s.point = .finished) :
    s.system.actors.entries = [] ∧
      (∀ nd ∈ s.system.instances, nd.mbox.terminated = true ∨
        s.multiThread = false ∧ .pushedInternal .terminate ∈ nd.mbox.log) ∧
      s.system.lock.held = [] ∧ s.system.lock.waiting = [] :=
  drop_settled h hp

theorem drop_complete_dropped : droppedShutdown.system.actors.entries = [] ∧
    ∀ nd ∈ droppedShutdown.system.instances, nd.mbox.terminated = true := by
  have hcomplete := drop_complete (Reach.exec_reachable .start droppedShutdown_run)
    (by decide +kernel)
  refine ⟨hcomplete.1, fun nd hnd => (hcomplete.2.1 nd hnd).resolve_right fun hasked => ?_⟩
  have hmulti : droppedShutdown.multiThread = true := by decide +kernel
  cases hmulti.symm.trans hasked.1

/-- Also where the drop waits for nobody, all actors are closed in the end. -/
theorem drop_effective (h : machine.Reach (within Node.calm) s) (hp : s.point = .finished) :
    ∀ nd ∈ s.system.instances, nd.Quiescent → nd.mbox.terminated = true := by
  intro nd hnd hq
  obtain ⟨child, hget⟩ := List.mem_iff_getElem?.mp hnd
  obtain ⟨path, option, hr⟩ :=
    reach_nodes (fun _ _ => trivial) (fun _ _ => trivial) h child nd hget
  rcases (drop_settled h.reachable hp).2.1 nd hnd with hclosed | ⟨-, hpushed⟩
  · exact hclosed
  · exact Node.terminate_closed hr hq hpushed

theorem drop_effective_dropped : ∃ nd ∈ droppedShutdown.system.instances,
    nd.Quiescent ∧ nd.mbox.terminated = true := by
  have heffective := drop_effective
    (Reach.exec .start (by decide +kernel) droppedShutdown_run) (by decide +kernel)
  obtain ⟨nd, hnd, hquiet⟩ : ∃ nd ∈ droppedShutdown.system.instances, nd.Quiescent := by
    decide +kernel
  exact ⟨nd, hnd, hquiet, heffective nd hnd hquiet⟩

/-- Whatever happens when the drop has waited for all actors and returned: none of them is
handed a message any more. -/
theorem drop_silences (h : machine.Reachable s) (hp : s.point = .finished)
    (hmulti : s.multiThread = true) {as : List (Action T)} (hexec : machine.exec s as = some s')
    {child : ChildId} {nd : Node T} (hnd : s.system.instances[child]? = some nd) :
    ∃ nd' events, s'.system.instances[child]? = some nd' ∧
      nd'.mbox.log = nd.mbox.log ++ events ∧ ∀ e ∈ events, e.handles = false := by
  obtain ⟨nd', hnd', events, hlog⟩ := exec_log hexec hnd
  refine ⟨nd', events, hnd', hlog.symm, fun e he => ?_⟩
  have hclosed : nd.mbox.terminated = true :=
    ((drop_settled h hp).2.1 nd (List.mem_of_getElem? hnd)).resolve_right fun hasked => by
      cases hmulti.symm.trans hasked.1
  obtain ⟨path, option, hr⟩ := reachable_nodes h child nd hnd
  obtain ⟨path', option', hr'⟩ := reachable_nodes (h.exec_reachable hexec) child nd' hnd'
  obtain ⟨before, after, hbefore⟩ :=
    List.append_of_mem ((Node.reachable_final hr).closed.mpr hclosed)
  have hsplit : nd'.mbox.log = before ++ .closed :: (after ++ events) := by
    rw [← hlog, hbefore, List.append_assoc]
    rfl
  exact (Node.reachable_final hr').handled.never hsplit rfl e (List.mem_append_right _ he)

/-- A message that is told to the second actor after that, is turned down. -/
def lateRun : List (Action Nat) :=
  [.actor 1 (.call (.send (.user 5))), .actor 1 (.client 0)]

def lateShutdown : Shutdown Nat := (machine.exec droppedShutdown lateRun).get (by decide +kernel)

def secondNode : Node Nat := droppedShutdown.system.instances[1]?.get (by decide +kernel)

theorem drop_silences_late : ∃ nd' events, lateShutdown.system.instances[1]? = some nd' ∧
    nd'.mbox.log = secondNode.mbox.log ++ events ∧ ∀ e ∈ events, e.handles = false := by
  have hlate : machine.exec droppedShutdown lateRun = some lateShutdown := (Option.some_get _).symm
  have hsecond : droppedShutdown.system.instances[1]? = some secondNode := (Option.some_get _).symm
  exact drop_silences (Reach.exec_reachable .start droppedShutdown_run) (by decide +kernel)
    (by decide +kernel) hlate hsecond

/-- The drop is never stuck: each of its steps is one of finitely many, and if it cannot make
the next one, it waits for an actor that has something left to do, or waits for its children.
This is so as long as no pill has met a full queue, and no callback has panicked where nobody
catches it. -/
theorem drop_proceeds (h : machine.Reach (within Node.roomy) s) (hpending : s.pending = true)
    (hrest : ∀ child w keys, s.point = .waiting child w keys →
      ∀ nd ∈ s.system.instances[child]?, nd.AtRest ∧
        ∀ context ∈ nd.mbox.dispatcher.context, context.childrens.entries = []) :
    ∃ pick w s', s.step (.proceed pick w) = some s' ∧ s'.rank < s.rank := by
  suffices hstep : ∃ pick w, (s.step (.proceed pick w)).isSome by
    obtain ⟨pick, w, hsome⟩ := hstep
    obtain ⟨s', hs'⟩ := Option.isSome_iff_exists.mp hsome
    exact ⟨pick, w, s', hs', (step_move hs').rank_lt⟩
  have hdropping : s.point ≠ .running → s.Dropping := (reachable_orderly h.reachable).dropping
  cases hp : s.point with
  | running | finished | unwound => simp [pending, hp] at hpending
  | reading => exact ⟨0, 0, by simp [step, proceed, hp]⟩
  | stopping keys =>
    cases keys with
    | nil => exact ⟨0, 0, by simp [step, proceed, hp]⟩
    | cons path keys =>
      obtain ⟨w, hsome⟩ := stopActor_some (hdropping (by simp [hp])) path keys
      exact ⟨0, w, by simpa [step, proceed, hp] using hsome⟩
  | waiting child w keys =>
    obtain ⟨nd, hnd, hawaiting⟩ := reachable_awaiting h.reachable hp
    obtain ⟨path, option, hr⟩ :=
      reach_nodes (fun _ _ => trivial) (fun _ _ => trivial) h child nd hnd
    obtain ⟨hatrest, hchildless⟩ := hrest child w keys hp nd hnd
    have hanswered : nd.answered w = true := by
      refine (Node.awaiting_answered (hr.mono Node.roomy_calm) hatrest hchildless
        hawaiting).resolve_right fun hroom => ?_
      have hopen := hroom.1
      simp [Node.pill_closed hr hroom.2] at hopen
    exact ⟨0, w, by simp [step, proceed, hp, hnd, hanswered]⟩

theorem drop_proceeds_resting :
    ∃ pick w s', restingShutdown.step (.proceed pick w) = some s' ∧
      s'.rank < restingShutdown.rank := by
  have hpoint : restingShutdown.point = .waiting 0 7 [⟨["user", "b"]⟩] := by decide +kernel
  refine drop_proceeds (Reach.exec .start (by decide +kernel) restingShutdown_run)
    (by decide +kernel) fun child w keys hp nd hnd => ?_
  cases hpoint.symm.trans hp
  have hrest : ∀ nd ∈ restingShutdown.system.instances[0]?,
      (nd.tasks = [] ∧ nd.clients = []) ∧ nd.mbox.dispatcher.context.isNone = true := by
    decide +kernel
  obtain ⟨hatrest, hnone⟩ := hrest nd hnd
  exact ⟨hatrest, fun context hcontext => by
    rw [Option.mem_def.mp hcontext] at hnone
    cases hnone⟩

end Shutdown

end Ruactor
