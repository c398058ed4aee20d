import Mathlib.Logic.Function.Basic
import Ruactor.Moves

/-!
# A tree of mailboxes

The mailboxes of an actor, of its children, of their children and so on, each with
its tasks and callers. A step is a step of one of them. The pushes it makes to
other mailboxes are read off its log: `Created` to a new child, `Terminate` to a
child that is stopped, `ChildTerminate` to the parent. The compare-exchange that
goes with such a push is a step of its own at the mailbox that gets the message.
-/

namespace Ruactor

open Machine

/-- The child `k` of `id` is `k :: id`. -/
abbrev NodeId := List ChildId

abbrev Tree (T : Type) := NodeId → Option (Node T)

namespace Tree

variable {T : Type}

/-- A new child: `Mailbox::new`, and the push of `Created`. -/
def birth (path : ActorPath) (name : String) (option : PropsOption) : Node T :=
  (Node.new (path.div name) option .actor).deliver .created

/-- What an event of the parent does to the child `k`. -/
def toChild (path : ActorPath) (k : ChildId) (child : Option (Node T)) :
    Event T → Option (Node T)
  | .childCreated k' name option _ => if k' = k then some (birth path name option) else child
  | .stopped k' => if k' = k then child.map fun nd => nd.deliver .terminate else child
  | _ => child

/-- What an event of the child `k` does to the parent. -/
def toParent (k : ChildId) (parent : Option (Node T)) : Event T → Option (Node T)
  | .notified .actor path => parent.map fun nd => nd.deliver (.childTerminate path k)
  | _ => parent

/-- The tree after a step of `id` to the node `nd` with the events `events`. -/
def spread (tree : Tree T) (id : NodeId) (nd : Node T) (events : List (Event T)) : Tree T :=
  fun other =>
    if other = id then some nd
    else if other ≠ [] ∧ other.tail = id then
      events.foldl (toChild nd.mbox.path (other.headD 0)) (tree other)
    else if id ≠ [] ∧ id.tail = other then events.foldl (toParent (id.headD 0)) (tree other)
    else tree other

/-- A push to an internal queue by a task of another mailbox is made by that task's
step, so it is no action of its own. -/
def step (tree : Tree T) : NodeId × Action T → Option (Tree T)
  | (_, .deliver _) => none
  | (id, action) =>
    match tree id with
    | none => none
    | some nd =>
      match nd.step action with
      | none => none
      | some nd' => some (tree.spread id nd' (nd'.mbox.log.drop nd.mbox.log.length))

def machine (path : ActorPath) (option : PropsOption) : Machine (Tree T) (NodeId × Action T) :=
  ⟨Function.update (fun _ => none) [] (some (.new path option .guard)), step⟩

end Tree

namespace Tree

variable {T : Type} {path : ActorPath} {option : PropsOption}

theorem start_some {id : NodeId} {nd : Node T}
    (h : (machine path option : Machine (Tree T) _).start id = some nd) :
    id = [] ∧ nd = .new path option .guard := by
  by_cases hroot : id = []
  · subst hroot
    simp only [machine, Function.update_self, Option.some.injEq] at h
    exact ⟨rfl, h.symm⟩
  · simp [machine, Function.update_of_ne hroot] at h

theorem spread_self (tree : Tree T) (id : NodeId) (nd : Node T) (events : List (Event T)) :
    tree.spread id nd events id = some nd := by
  simp [spread]

theorem spread_child (tree : Tree T) (id : NodeId) (nd : Node T) (events : List (Event T))
    (k : ChildId) : tree.spread id nd events (k :: id) =
      events.foldl (toChild nd.mbox.path k) (tree (k :: id)) := by
  simp [spread]

theorem spread_parent (tree : Tree T) (k : ChildId) (up : NodeId) (nd : Node T)
    (events : List (Event T)) : tree.spread (k :: up) nd events up =
      events.foldl (toParent k) (tree up) := by
  have hself : up ≠ k :: up := fun he => by simpa using congrArg List.length he
  have hgrand : ¬ (up ≠ [] ∧ up.tail = k :: up) := by
    rintro ⟨-, he⟩
    have := congrArg List.length he
    simp at this
  simp [spread, hself, hgrand]

theorem spread_other (tree : Tree T) {id other : NodeId} (nd : Node T) (events : List (Event T))
    (hself : other ≠ id) (hchild : ∀ k, other ≠ k :: id) (hparent : ∀ k, id ≠ k :: other) :
    tree.spread id nd events other = tree other := by
  have hc : ¬ (other ≠ [] ∧ other.tail = id) := by
    rintro ⟨hne, rfl⟩
    exact hchild _ (List.cons_head_tail hne).symm
  have hp : ¬ (id ≠ [] ∧ id.tail = other) := by
    rintro ⟨hne, rfl⟩
    exact hparent _ (List.cons_head_tail hne).symm
  simp [spread, hself, hc, hp]

/-- What a step would add to the log of its node. -/
def events (tree : Tree T) : NodeId × Action T → List (Event T)
  | (id, action) =>
    match tree id with
    | none => []
    | some nd =>
      match nd.step action with
      | none => []
      | some nd' => nd'.mbox.log.drop nd.mbox.log.length

theorem step_cases {tree tree' : Tree T} {id : NodeId} {a : Action T}
    (h : tree.step (id, a) = some tree') :
    ∃ nd nd', tree id = some nd ∧ (∀ msg, a ≠ .deliver msg) ∧ nd.step a = some nd' ∧
      nd'.mbox.log = nd.mbox.log ++ tree.events (id, a) ∧
      tree' = tree.spread id nd' (tree.events (id, a)) := by
  have split : (∀ msg, a ≠ .deliver msg) → ∃ nd nd', tree id = some nd ∧ nd.step a = some nd' ∧
      tree' = tree.spread id nd' (nd'.mbox.log.drop nd.mbox.log.length) := by
    intro ha
    cases hid : tree id with
    | none => cases a <;> simp_all [step]
    | some nd =>
      cases hstep : nd.step a with
      | none => cases a <;> simp_all [step]
      | some nd' => exact ⟨nd, nd', rfl, hstep, by cases a <;> simp_all [step]⟩
  have ha : ∀ msg, a ≠ .deliver msg := by
    rintro msg rfl
    cases h
  obtain ⟨nd, nd', hid, hstep, rfl⟩ := split ha
  obtain ⟨events, hlog⟩ := (Node.step_move hstep).log
  have hevents : tree.events (id, a) = events := by simp [Tree.events, hid, hstep, hlog]
  refine ⟨nd, nd', hid, ha, hstep, hevents ▸ hlog, ?_⟩
  rw [hevents, hlog, List.drop_left]

theorem foldl_toChild {P : Node T → Prop} {path : ActorPath} {k : ChildId}
    (deliver : ∀ {nd}, P nd → P (nd.deliver .terminate)) (events : List (Event T))
    (born : ∀ name option found, .childCreated k name option found ∈ events →
      P (birth path name option))
    {child : Option (Node T)} (h : ∀ nd, child = some nd → P nd) :
    ∀ nd, events.foldl (toChild path k) child = some nd → P nd := by
  induction events generalizing child with
  | nil => exact h
  | cons e events ih =>
    refine ih (fun name option found he => born name option found (List.mem_cons_of_mem _ he))
      fun nd hnd => ?_
    cases e with
    | childCreated k' name option found =>
      simp only [toChild] at hnd
      split at hnd
      next hk =>
        cases hnd
        exact born name option found (hk ▸ List.mem_cons_self)
      · exact h nd hnd
    | stopped k' =>
      simp only [toChild] at hnd
      split at hnd
      · obtain ⟨nd', hnd', rfl⟩ := Option.map_eq_some_iff.mp hnd
        exact deliver (h nd' hnd')
      · exact h nd hnd
    | _ => exact h nd hnd

theorem foldl_toParent {P : Node T → Prop} {k : ChildId}
    (deliver : ∀ {nd} path, P nd → P (nd.deliver (.childTerminate path k)))
    (events : List (Event T)) {parent : Option (Node T)} (h : ∀ nd, parent = some nd → P nd) :
    ∀ nd, events.foldl (toParent k) parent = some nd → P nd := by
  induction events generalizing parent with
  | nil => exact h
  | cons e events ih =>
    refine ih fun nd hnd => ?_
    cases e with
    | notified parent path =>
      cases parent with
      | guard => exact h nd hnd
      | actor =>
        obtain ⟨nd', hnd', rfl⟩ := Option.map_eq_some_iff.mp hnd
        exact deliver path (h nd' hnd')
    | _ => exact h nd hnd

/-- A step of another node delivers messages to a node, or creates it. -/
theorem spread_keeps {P : Node T → Prop} {tree : Tree T} {id other : NodeId} {nd : Node T}
    {events : List (Event T)} (deliver : ∀ {x} msg, P x → P (x.deliver msg))
    (born : ∀ k name option found, other = k :: id → .childCreated k name option found ∈ events →
      P (birth nd.mbox.path name option))
    (hself : other ≠ id) (h : ∀ x, tree other = some x → P x) :
    ∀ x, tree.spread id nd events other = some x → P x := by
  intro x hx
  by_cases hchild : ∃ k, other = k :: id
  · obtain ⟨k, rfl⟩ := hchild
    rw [spread_child] at hx
    exact foldl_toChild (deliver .terminate) events
      (fun name option found => born k name option found rfl) h x hx
  by_cases hparent : ∃ k, id = k :: other
  · obtain ⟨k, rfl⟩ := hparent
    rw [spread_parent] at hx
    exact foldl_toParent (fun path => deliver (.childTerminate path k)) events h x hx
  · rw [spread_other tree nd events hself (fun k hk => hchild ⟨k, hk⟩)
      fun k hk => hparent ⟨k, hk⟩] at hx
    exact h x hx

theorem spread_each {P : Node T → Prop} {tree : Tree T} {id : NodeId} {nd : Node T}
    {events : List (Event T)} (deliver : ∀ {x} msg, P x → P (x.deliver msg))
    (born : ∀ k name option found, .childCreated k name option found ∈ events →
      P (birth nd.mbox.path name option))
    (own : P nd) (h : ∀ id x, tree id = some x → P x) :
    ∀ other x, tree.spread id nd events other = some x → P x := by
  intro other x hx
  by_cases hself : other = id
  · subst hself
    rw [spread_self] at hx
    cases hx
    exact own
  · exact spread_keeps deliver (fun k name option found _ => born k name option found) hself
      (h other) x hx

/-- The invariant rule for an assertion about single nodes. -/
theorem reach_each {ok : Tree T → NodeId × Action T → Prop} {P : Node T → Prop}
    (root : P (.new path option .guard)) (born : ∀ path name option, P (birth path name option))
    (deliver : ∀ {nd} msg, P nd → P (nd.deliver msg))
    (step : ∀ {tree id a nd nd'}, (machine path option).Reach ok tree → tree id = some nd →
      ok tree (id, a) → nd.step a = some nd' → P nd → P nd')
    {tree : Tree T} (h : (machine path option).Reach ok tree) :
    ∀ id nd, tree id = some nd → P nd := by
  refine h.invariant (P := fun tree : Tree T => ∀ id nd, tree id = some nd → P nd) ?_ ?_
  · intro id nd hid
    obtain ⟨-, rfl⟩ := start_some hid
    exact root
  · rintro tree tree' ⟨id, a⟩ hr hs hok hstep
    obtain ⟨own, own', hid, -, hown, -, rfl⟩ := step_cases hstep
    exact spread_each deliver (fun _ name option _ _ => born _ name option)
      (step hr hid hok hown (hs _ own hid)) hs

/-- The node is a state that its mailbox alone can reach. -/
def Grown (okNode : Node T → Action T → Prop) (nd : Node T) : Prop :=
  ∃ path option parent, (Node.machine path option parent).Reach okNode nd

theorem Grown.deliver {okNode : Node T → Action T → Prop} {nd : Node T}
    (hdeliver : ∀ nd msg, okNode nd (.deliver msg)) (h : Grown okNode nd) (msg : InternalMessage) :
    Grown okNode (nd.deliver msg) := by
  obtain ⟨path, option, parent, hr⟩ := h
  exact ⟨path, option, parent, .step hr (hdeliver _ msg) rfl⟩

theorem Grown.new (okNode : Node T → Action T → Prop) (path : ActorPath) (option : PropsOption)
    (parent : ParentRef) : Grown okNode (.new path option parent) :=
  ⟨path, option, parent, .start⟩

theorem reach_grown {ok : Tree T → NodeId × Action T → Prop} {okNode : Node T → Action T → Prop}
    (hok : ∀ {tree id a nd}, ok tree (id, a) → tree id = some nd → okNode nd a)
    (hdeliver : ∀ nd msg, okNode nd (.deliver msg)) {tree : Tree T}
    (h : (machine path option).Reach ok tree) : ∀ id nd, tree id = some nd → Grown okNode nd := by
  refine reach_each (.new okNode path option .guard)
    (fun path name option => (Grown.new okNode _ _ _).deliver hdeliver .created)
    (fun msg hgrown => hgrown.deliver hdeliver msg) (fun _ hid hs hown hgrown => ?_) h
  obtain ⟨path, option, parent, hr⟩ := hgrown
  exact ⟨path, option, parent, .step hr (hok hs hid) hown⟩

def acting (id : NodeId) (actions : List (Action Nat)) : List (NodeId × Action Nat) :=
  actions.map fun a => (id, a)

abbrev sample : Machine (Tree Nat) (NodeId × Action Nat) := machine ⟨["user", "a"]⟩ {}

/-- The root gets a child and a watcher, and is stopped; the child ends, then the root. -/
def endingRun : List (NodeId × Action Nat) :=
  acting [] (Node.sending (.user 1) ++
      Node.callbacks [⟨.create, [], false⟩, ⟨.onEnter, [], false⟩] ++ Node.turns 3 ++
      Node.callbacks [⟨.onMessage, [.createChild 0 {}], false⟩] ++
      [.call (.watch 9), .client 0, .client 0, .client 0] ++ Node.stopping ++ Node.turns 14) ++
    acting [0] ([.client 0, .client 0] ++
      Node.callbacks [⟨.create, [], false⟩, ⟨.onEnter, [], false⟩] ++ Node.turns 6 ++
      Node.callbacks [⟨.onExit, [], false⟩] ++ Node.turns 7) ++
    acting [] ([.client 0] ++ Node.turns 4 ++ Node.callbacks [⟨.onExit, [], false⟩] ++
      Node.turns 7)

def endedTree : Tree Nat := (sample.exec sample.start endingRun).get (by decide +kernel)

theorem endingRun_tree : sample.exec sample.start endingRun = some endedTree :=
  (Option.some_get _).symm

end Tree

end Ruactor
