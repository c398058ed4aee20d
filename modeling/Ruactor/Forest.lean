import Ruactor.Naming
import Ruactor.Poisoning
import Ruactor.Uniqueness

/-!
# A system with the trees of its actors

The registry of a system and the trees under its actors in one machine. Top-level actors are
created by their names. The roots of the trees are the actors of the registry: what a step does
to them is what a step of the system does.
-/

namespace Ruactor

open Machine

variable {T : Type}

/-- The public functions of `ActorSystem`. -/
inductive UserCall
  | getActor (path : ActorPath) (messageType : TypeId)
  | createActor (name : String) (messageType : TypeId) (option : PropsOption)
  | getOrCreateActor (name : String) (messageType : TypeId) (option : PropsOption)
  deriving DecidableEq, Repr

namespace UserCall

def systemCall : UserCall → SystemCall
  | .getActor path messageType => .getActor path messageType
  | .createActor name messageType option => .createActor (userPath name) messageType option
  | .getOrCreateActor name messageType option =>
    .getOrCreateActor (userPath name) messageType option

def name : UserCall → Option String
  | .getActor _ _ => none
  | .createActor name _ _ | .getOrCreateActor name _ _ => some name

theorem creates_eq (call : UserCall) : call.systemCall.creates = call.name.map userPath := by
  cases call <;> rfl

end UserCall

/-- The tree `k` is that of the actor `k`. -/
structure Forest (T : Type) where
  system : ActorSystem T
  trees : List (Tree T)

inductive ForestAction (T : Type)
  | call (call : UserCall)
  | proceed (i : Nat)
  | actor (root : ChildId) (id : NodeId) (action : Action T)
  deriving DecidableEq, Repr

namespace Forest

def seed (nd : Node T) : Tree T := Function.update (fun _ => none) [] (some nd)

/-- The system has taken a step, and its new actors get their trees. -/
def sow (f : Forest T) (system : ActorSystem T) : Forest T :=
  ⟨system, f.trees ++ (system.instances.drop f.trees.length).map seed⟩

/-- The tree `root` has taken a step, from the root `nd` to the root `nd'`. -/
def graft (f : Forest T) (root : ChildId) (tree : Tree T) (nd nd' : Node T) : Forest T where
  system := { f.system with
    instances := f.system.instances.set root nd'
    operations := f.system.operations ++
      ActorSystem.notices root (nd'.mbox.log.drop nd.mbox.log.length) }
  trees := f.trees.set root tree

def step (f : Forest T) : ForestAction T → Option (Forest T)
  | .call call => (f.system.step (.call call.systemCall)).map f.sow
  | .proceed i => (f.system.step (.proceed i)).map f.sow
  | .actor root id action =>
    match f.trees[root]? with
    | none => none
    | some tree =>
      match tree.step (id, action) with
      | none => none
      | some tree' =>
        match tree [], tree' [] with
        | some nd, some nd' => some (f.graft root tree' nd nd')
        | _, _ => none

def machine : Machine (Forest T) (ForestAction T) := ⟨⟨(ActorSystem.machine ∅ []).start, []⟩, step⟩

inductive Move (f : Forest T) : ForestAction T → Forest T → Prop
  | call {call s} : f.system.step (.call call.systemCall) = some s → Move f (.call call) (f.sow s)
  | proceed {i s} : f.system.step (.proceed i) = some s → Move f (.proceed i) (f.sow s)
  | actor {root id action tree tree' nd nd'} : f.trees[root]? = some tree →
      tree.step (id, action) = some tree' → tree [] = some nd → tree' [] = some nd' →
      Move f (.actor root id action) (f.graft root tree' nd nd')

theorem step_move {f f' : Forest T} {a : ForestAction T} (h : f.step a = some f') :
    f.Move a f' := by
  cases a with
  | call call =>
    obtain ⟨s, hs, rfl⟩ := Option.map_eq_some_iff.mp h
    exact .call hs
  | proceed i =>
    obtain ⟨s, hs, rfl⟩ := Option.map_eq_some_iff.mp h
    exact .proceed hs
  | actor root id action =>
    simp only [step] at h
    split at h
    · cases h
    next tree htree =>
      split at h
      · cases h
      next tree' hstep =>
        split at h
        next nd nd' hroot hroot' =>
          cases h
          exact .actor htree hstep hroot hroot'
        · cases h

end Forest

theorem Node.foldl_deliver_log (msgs : List InternalMessage) (nd : Node T) :
    ∃ events, (msgs.foldl Node.deliver nd).mbox.log = nd.mbox.log ++ events ∧
      ∀ e ∈ events, e.sent = true := by
  induction msgs generalizing nd with
  | nil => exact ⟨[], (List.append_nil _).symm, List.forall_mem_nil _⟩
  | cons msg msgs ih =>
    obtain ⟨events, hlog, hsent⟩ := ih (nd.deliver msg)
    refine ⟨.pushedInternal msg :: events, ?_, ?_⟩
    · rw [List.foldl_cons, hlog]
      simp [deliver, Mailbox.pushInternal]
    · simpa [Event.sent] using hsent

theorem Tree.step_root {tree tree' : Tree T} {id : NodeId} {a : Action T} {nd nd' : Node T}
    (h : tree.step (id, a) = some tree') (hroot : tree [] = some nd)
    (hroot' : tree' [] = some nd') :
    (id = [] ∧ nd.step a = some nd') ∨ ∃ msgs, nd' = List.foldl Node.deliver nd msgs := by
  obtain ⟨own, own', hid, -, hstep, -, rfl⟩ := step_cases h
  by_cases hself : [] = id
  · subst hself
    rw [spread_self] at hroot'
    cases hroot'
    cases hroot.symm.trans hid
    exact .inl ⟨rfl, hstep⟩
  · refine .inr (spread_keeps (P := fun x => ∃ msgs, x = List.foldl Node.deliver nd msgs)
      (fun msg ⟨msgs, hmsgs⟩ => ⟨msgs ++ [msg], ?_⟩) ?_ hself (fun x hx => ⟨[], ?_⟩) nd' hroot')
    · rw [List.foldl_append, ← hmsgs]
      rfl
    · intro k name option found hk
      cases hk
    · exact Option.some.inj (hx.symm.trans hroot)

namespace ActorSystem

variable {s s' : ActorSystem T} {i : Nat} {op op' : Operation} {child : ChildId}

/-- The node that `create` adds to the instances. -/
def planted (path : ActorPath) (option : PropsOption) : Node T :=
  (Node.new path option .guard).deliver .created

theorem Access.instances (h : s.Access i op s' op') : op'.call = op.call ∧
    (s'.instances = s.instances ∨ ∃ path option, op.call.creates = some path ∧
      s'.instances = s.instances ++ [planted path option]) := by
  cases h with
  | @insert call path messageType option hcall =>
    refine ⟨rfl, .inr ⟨path, option, ?_, rfl⟩⟩
    rcases hcall with rfl | rfl <;> rfl
  | _ => exact ⟨rfl, .inl rfl⟩

theorem Move.instances {a : SystemAction T} (move : s.Move a s')
    (ha : ∀ child action, a ≠ .actor child action) :
    ∃ new, s'.instances = s.instances ++ new ∧ ∀ nd ∈ new, ∃ op ∈ s.operations, ∃ path option,
      op.call.creates = some path ∧ nd = planted path option := by
  cases move with
  | call _ | request _ _ _ | grant _ _ _ =>
    exact ⟨[], (List.append_nil _).symm, List.forall_mem_nil _⟩
  | @access i op s' op' hop _ hacc =>
    obtain ⟨-, hsame | ⟨path, option, hcreates, hinstances⟩⟩ := hacc.instances
    · exact ⟨[], hsame.trans (List.append_nil _).symm, List.forall_mem_nil _⟩
    · refine ⟨_, hinstances, fun nd hnd =>
        ⟨op, List.mem_of_getElem? hop, path, option, hcreates, ?_⟩⟩
      exact List.mem_singleton.mp hnd
  | actor _ _ => exact absurd rfl (ha _ _)

theorem notices_creates {events : List (Event T)} (h : op ∈ notices child events) :
    op.call.creates = none := by
  obtain ⟨e, -, he⟩ := List.mem_filterMap.mp h
  split at he
  · cases he
    rfl
  · cases he

theorem Move.calls {a : SystemAction T} (move : s.Move a s') {o : Operation}
    (ho : o ∈ s'.operations) :
    (∃ op ∈ s.operations, o.call = op.call) ∨ a = .call o.call ∨ o.call.creates = none := by
  have goes : ∀ {i op op'}, s.operations[i]? = some op → op'.call = op.call →
      o ∈ s.operations.set i op' → ∃ op ∈ s.operations, o.call = op.call := by
    intro i op op' hop hcall ho
    rcases List.mem_or_eq_of_mem_set ho with hold | rfl
    · exact ⟨o, hold, rfl⟩
    · exact ⟨op, List.mem_of_getElem? hop, hcall⟩
  cases move with
  | call _ =>
    rcases List.mem_append.mp ho with hold | hnew
    · exact .inl ⟨o, hold, rfl⟩
    · rw [List.mem_singleton.mp hnew]
      exact .inr (.inl rfl)
  | request _ _ _ => exact .inl ⟨o, ho, rfl⟩
  | @grant i op _ _ hop _ _ => exact .inl (goes hop (rfl : op.acquired.call = op.call) ho)
  | access hop _ hacc =>
    refine .inl (goes hop hacc.instances.1 ?_)
    rw [← hacc.guards.1]
    exact ho
  | actor _ _ =>
    rcases List.mem_append.mp ho with hold | hnew
    · exact .inl ⟨o, hold, rfl⟩
    · exact .inr (.inr (notices_creates hnew))

theorem notices_sent {events : List (Event T)} (h : ∀ e ∈ events, e.sent = true) :
    notices child events = [] := by
  refine List.filterMap_eq_nil_iff.mpr fun e he => ?_
  have hsent := h e he
  cases e <;> first | rfl | cases hsent

theorem reachable_foldl_deliver {actors : AList fun _ : ActorPath => ChildContainer}
    {instances : List (Node T)} (h : (machine actors instances).Reachable s) {nd : Node T}
    (hnd : s.instances[child]? = some nd) (msgs : List InternalMessage) :
    (machine actors instances).Reachable
      { s with instances := s.instances.set child (msgs.foldl Node.deliver nd) } := by
  induction msgs generalizing s nd with
  | nil =>
    obtain ⟨hlength, rfl⟩ := List.getElem?_eq_some_iff.mp hnd
    simpa using h
  | cons msg msgs ih =>
    have hlength : child < s.instances.length := (List.getElem?_eq_some_iff.mp hnd).1
    have hstep : (machine actors instances).step s (.actor child (.deliver msg)) =
        some { s with instances := s.instances.set child (nd.deliver msg) } := by
      obtain ⟨events, hlog, hsent⟩ := Node.foldl_deliver_log [msg] nd
      have hquiet : notices child events = [] := notices_sent hsent
      rw [List.foldl_cons, List.foldl_nil] at hlog
      simp [machine, step, hnd, Node.step, hlog, hquiet]
    have hnext := ih (.step h trivial hstep) (List.getElem?_set_self hlength)
    simpa using hnext

end ActorSystem

namespace Forest

variable {f f' : Forest T} {root : ChildId} {tree : Tree T} {nd : Node T}

/-- The system of a forest is one that a system alone can reach, and the trees are those of its
actors. -/
structure Grounded (f : Forest T) : Prop where
  system : (ActorSystem.machine ∅ []).Reachable f.system
  roots : f.trees.map (fun tree => tree []) = f.system.instances.map some

theorem Grounded.length (h : f.Grounded) : f.trees.length = f.system.instances.length := by
  simpa using congrArg List.length h.roots

theorem Grounded.instance (h : f.Grounded) (htree : f.trees[root]? = some tree)
    (hroot : tree [] = some nd) : f.system.instances[root]? = some nd := by
  have hget := congrArg (·[root]?) h.roots
  simpa [htree, hroot] using hget.symm

theorem Grounded.sow (h : f.Grounded) {a : SystemAction T} {s : ActorSystem T}
    (ha : ∀ child action, a ≠ .actor child action) (hstep : f.system.step a = some s) :
    (f.sow s).Grounded := by
  obtain ⟨new, hinstances, -⟩ := (ActorSystem.step_move hstep).instances ha
  refine ⟨.step h.system trivial hstep, ?_⟩
  rw [Forest.sow, List.map_append, h.roots, h.length, hinstances, List.drop_left, List.map_append]
  simp [Function.comp_def, seed]

theorem Grounded.graft (h : f.Grounded) {tree' : Tree T} {id : NodeId} {a : Action T}
    {nd' : Node T} (htree : f.trees[root]? = some tree) (hstep : tree.step (id, a) = some tree')
    (hroot : tree [] = some nd) (hroot' : tree' [] = some nd') :
    (f.graft root tree' nd nd').Grounded := by
  have hnd := h.instance htree hroot
  refine ⟨?_, ?_⟩
  · obtain ⟨-, hown⟩ | ⟨msgs, rfl⟩ := Tree.step_root hstep hroot hroot'
    · have hmove : (ActorSystem.machine ∅ []).step f.system (.actor root a) =
          some (f.graft root tree' nd nd').system := by
        simp [ActorSystem.machine, ActorSystem.step, hnd, hown, Forest.graft]
      exact .step h.system trivial hmove
    · -- the messages of the children are none to the guard
      obtain ⟨events, hlog, hsent⟩ := Node.foldl_deliver_log msgs nd
      have hreach := ActorSystem.reachable_foldl_deliver h.system hnd msgs
      have hquiet : (f.graft root tree' nd (msgs.foldl Node.deliver nd)).system =
          { f.system with
            instances := f.system.instances.set root (msgs.foldl Node.deliver nd) } := by
        simp [Forest.graft, hlog, ActorSystem.notices_sent hsent]
      rw [hquiet]
      exact hreach
  · rw [Forest.graft, List.map_set, h.roots, hroot', List.map_set]

theorem Move.grounded {a : ForestAction T} (move : f.Move a f') (h : f.Grounded) :
    f'.Grounded := by
  cases move with
  | call hstep => exact h.sow (by simp) hstep
  | proceed hstep => exact h.sow (by simp) hstep
  | actor htree hstep hroot hroot' => exact h.graft htree hstep hroot hroot'

theorem reach_grounded {ok : Forest T → ForestAction T → Prop} (h : machine.Reach ok f) :
    f.Grounded :=
  h.invariant ⟨.start, rfl⟩ fun _ hs _ hstep => (step_move hstep).grounded hs

end Forest

end Ruactor
