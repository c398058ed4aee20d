import Ruactor.Forest
import Ruactor.Hierarchy
import Ruactor.Orphans
import Ruactor.Registered
import Ruactor.Typing

/-!
# Printed paths of live actors

While names are single components and trees are orderly, the actors that live have different
printed paths, and the registry finds each of its actors at the path that its printed path is
parsed to. A name with a slash in it breaks both.
-/

namespace Ruactor

open Machine

variable {T : Type}

theorem userPath_tokens (name : String) : (userPath name).tokens = ["user", name] := by
  have huser : (ActorPath.ofString "/user").tokens = ["user"] := by decide
  simp [userPath, ActorPath.div, huser]

theorem userPath_proper {name : String} (h : Clean name) : (userPath name).Proper := by
  intro t ht
  rw [userPath_tokens] at ht
  rcases List.mem_cons.mp ht with rfl | ht
  · decide
  · rwa [List.mem_singleton.mp ht]

namespace Tree

variable {tree tree' : Tree T} {id id' : NodeId} {nd nd' child : Node T} {k k' : ChildId}

structure Live (tree : Tree T) (id : NodeId) (nd : Node T) : Prop where
  node : tree id = some nd
  parent : nd.mbox.dispatcher.parent ≠ none

/-- The tree of an actor of the registry, in a run of orderly steps. -/
structure Tended (tree : Tree T) : Prop where
  grown : ∀ id nd, tree id = some nd → Grown (fun _ _ => True) nd
  family : Family tree
  orphaned : Orphaned tree
  pathed : Pathed tree
  unmarked : ∀ id nd, tree id = some nd → nd.mbox.path.Unmarked
  root : ∃ nd name, tree [] = some nd ∧ Clean name ∧ nd.mbox.path = userPath name

theorem seed_some (h : Forest.seed nd id = some nd') : id = [] ∧ nd' = nd := by
  by_cases hroot : id = []
  · subst hroot
    rw [Forest.seed, Function.update_self] at h
    exact ⟨rfl, (Option.some.inj h).symm⟩
  · rw [Forest.seed, Function.update_of_ne hroot] at h
    cases h

theorem Tended.seed {name : String} (hname : Clean name) (option : PropsOption) :
    Tended (Forest.seed (ActorSystem.planted (userPath name) option : Node T)) := by
  have childless : ∀ k id, Forest.seed (ActorSystem.planted (userPath name) option : Node T)
      (k :: id) = none :=
    fun k id => Option.eq_none_iff_forall_ne_some.mpr fun nd hid => by cases (seed_some hid).1
  refine ⟨fun id nd hid => ?_, ⟨fun k id _ => childless k id, fun k id nd hid => ?_,
    fun id nd hid => ?_⟩, fun id nd hid hmem => ?_, fun k id child hchild => ?_,
    fun id nd hid => ?_, _, name, Function.update_self _ _ _, hname, rfl⟩
  · obtain ⟨-, rfl⟩ := seed_some hid
    exact (Grown.new _ _ _ _).deliver (fun _ _ => trivial) .created
  · simp [childless] at hid
  · obtain ⟨-, rfl⟩ := seed_some hid
    exact fun _ => .new fun k => by simp [kids, childless]
  · obtain ⟨-, rfl⟩ := seed_some hid
    simp [ActorSystem.planted, Node.deliver, Node.new, Mailbox.pushInternal, Mailbox.new] at hmem
  · simp [childless] at hchild
  · obtain ⟨-, rfl⟩ := seed_some hid
    exact fun t ht => (userPath_proper hname t ht).2

theorem Tended.step {a : Action T} (h : Tended tree) (hstep : tree.step (id, a) = some tree')
    (horderly : tree.Orderly (id, a)) (hnames : ∀ name ∈ a.names, '/' ∉ name.toList) :
    Tended tree' := by
  obtain ⟨nd, nd', hof⟩ := step_of_grown h.grown hstep
  obtain ⟨path, option, parent, hown⟩ := hof.reachable
  have hunborn : ∀ k name option found, .childCreated k name option found ∈ tree.events (id, a) →
      tree (k :: id) = none := fun _ _ _ _ => h.family.unborn hof.node hof.kin
  have horphaned := h.orphaned.step hof h.family.allTracked (horderly.2 nd hof.node)
  have hspread := hof.spread
  subst hspread
  refine ⟨?_, h.family.spread hof.node hof.kin hof.path horderly.1, horphaned,
    h.pathed.spread hof.node hof.path hunborn, ?_, ?_⟩
  · exact spread_each (fun msg hgrown => hgrown.deliver (fun _ _ => trivial) msg)
      (fun _ _ _ _ _ => (Grown.new _ _ _ _).deliver (fun _ _ => trivial) .created)
      ⟨path, option, parent, .step hown trivial hof.step⟩ h.grown
  · have hown' : nd'.mbox.path.Unmarked := hof.path ▸ h.unmarked id nd hof.node
    refine spread_each (fun _ hunmarked => hunmarked) (fun k name option found hmem => ?_) hown'
      h.unmarked
    have hname : '/' ∉ name.toList :=
      Node.step_titled base64_slashless hown hof.step hof.kin.log hnames hmem
    exact hown'.div hname
  · obtain ⟨r, name, hroot, hname, hpath⟩ := h.root
    obtain ⟨r', hr', hsame⟩ := spread_path hof.node hof.path hunborn hroot
    exact ⟨r', name, hr', hname, hsame.trans hpath⟩

theorem Tended.root_path (h : Tended tree) (hid : tree [] = some nd) :
    ∃ name, Clean name ∧ nd.mbox.path = userPath name := by
  obtain ⟨r, name, hroot, hname, hpath⟩ := h.root
  cases hroot.symm.trans hid
  exact ⟨name, hname, hpath⟩

/-- A live child has a live parent. -/
theorem Tended.up (h : Tended tree) (hlive : tree.Live (k :: id) child) :
    ∃ nd, tree.Live id nd ∧ child.mbox.path = nd.mbox.path.div child.mbox.path.key := by
  obtain ⟨nd, hid, hpath⟩ := h.pathed k id child hlive.node
  obtain ⟨_, _, _, hown⟩ := h.grown id nd hid
  exact ⟨nd, ⟨hid, fun hgone => hlive.parent (h.orphaned.below hown hid hgone hlive.node)⟩, hpath⟩

theorem Tended.siblings (h : Tended tree) {child' : Node T} (hlive : tree.Live (k :: id) child)
    (hlive' : tree.Live (k' :: id) child') (hkey : child.mbox.path.key = child'.mbox.path.key) :
    k = k' := by
  obtain ⟨nd, hup, -⟩ := h.up hlive
  have htracked := h.family.linked id nd hup.node fun _ => hup.parent
  have running : ∀ {k child}, tree.Live (k :: id) child →
      tree.kids id k = some (child.mbox.path.key, true) := by
    intro k child hlive
    simp [kids, hlive.node, Node.badge, Option.isSome_iff_ne_none.mpr hlive.parent]
  obtain ⟨e, he, rfl⟩ := htracked.of_running (running hlive)
  obtain ⟨e', he', rfl⟩ := htracked.of_running (running hlive')
  rw [hkey] at he
  cases he.symm.trans he'
  rfl

/-- The path of a live actor begins with that of the root, which lives. -/
theorem Tended.root_of (h : Tended tree) (hlive : tree.Live id nd) :
    nd.mbox.path.tokens.length = id.length + 2 ∧
      ∃ r, tree.Live [] r ∧ r.mbox.path.tokens = nd.mbox.path.tokens.take 2 := by
  induction id generalizing nd with
  | nil =>
    obtain ⟨name, -, hpath⟩ := h.root_path hlive.node
    refine ⟨by simp [hpath, userPath_tokens], nd, hlive, ?_⟩
    simp [hpath, userPath_tokens]
  | cons k id ih =>
    obtain ⟨up, hup, hpath⟩ := h.up hlive
    obtain ⟨hlength, r, hr, htake⟩ := ih hup
    have htokens : nd.mbox.path.tokens = up.mbox.path.tokens ++ [nd.mbox.path.key] :=
      congrArg ActorPath.tokens hpath
    refine ⟨by simp [htokens, hlength], r, hr, ?_⟩
    rw [htokens, List.take_append_of_le_length (by omega)]
    exact htake

theorem Tended.unique (h : Tended tree) (hlive : tree.Live id nd) (hlive' : tree.Live id' nd')
    (hpath : nd.mbox.path = nd'.mbox.path) : id = id' := by
  induction id generalizing id' nd nd' with
  | nil =>
    have hlength := (h.root_of hlive).1
    rw [hpath, (h.root_of hlive').1] at hlength
    exact (List.length_eq_zero_iff.mp (by simpa using hlength)).symm
  | cons k id ih =>
    cases id' with
    | nil =>
      have hlength := (h.root_of hlive).1
      rw [hpath, (h.root_of hlive').1] at hlength
      simp at hlength
    | cons k' id' =>
      obtain ⟨up, hup, hdiv⟩ := h.up hlive
      obtain ⟨up', hup', hdiv'⟩ := h.up hlive'
      have hkey : nd.mbox.path.key = nd'.mbox.path.key := congrArg ActorPath.key hpath
      have hsame : up.mbox.path = up'.mbox.path := by
        have htokens := congrArg ActorPath.tokens ((hdiv.symm.trans hpath).trans hdiv')
        simp only [ActorPath.div, hkey, List.append_cancel_right_eq] at htokens
        exact ActorPath.ext htokens
      obtain rfl := ih hup hup' hsame
      rw [h.siblings hlive hlive' hkey]

end Tree

namespace Forest

variable {f f' : Forest T} {root root' : ChildId} {id id' : NodeId} {nd nd' : Node T}

/-- Names are single components, and each step of a tree is orderly. -/
def Tame (f : Forest T) : ForestAction T → Prop
  | .call call => ∀ name ∈ call.name, Clean name
  | .proceed _ => True
  | .actor root id action => (∀ name ∈ action.names, '/' ∉ name.toList) ∧
      ∀ tree ∈ f.trees[root]?, tree.Orderly (id, action)

instance (f : Forest T) (a : ForestAction T) : Decidable (Tame f a) :=
  match a with
  | .call call => inferInstanceAs (Decidable (∀ name ∈ call.name, Clean name))
  | .proceed _ => isTrue trivial
  | .actor root id action => inferInstanceAs (Decidable (_ ∧
      ∀ tree ∈ f.trees[root]?, tree.Orderly (id, action)))

structure Grove (f : Forest T) : Prop extends Grounded f where
  named : ∀ op ∈ f.system.operations, ∀ path, op.call.creates = some path →
    ∃ name, Clean name ∧ path = userPath name
  tended : ∀ tree ∈ f.trees, tree.Tended

theorem Grove.sow (h : f.Grove) {a : SystemAction T} {s : ActorSystem T}
    (ha : ∀ child action, a ≠ .actor child action) (hstep : f.system.step a = some s)
    (hcall : ∀ call path, a = .call call → call.creates = some path →
      ∃ name, Clean name ∧ path = userPath name) : (f.sow s).Grove := by
  have hmove := ActorSystem.step_move hstep
  refine ⟨h.toGrounded.sow ha hstep, fun o ho path hcreates => ?_, fun tree htree => ?_⟩
  · obtain ⟨op, hop, hsame⟩ | hnew | hnone := hmove.calls ho
    · exact h.named op hop path (hsame ▸ hcreates)
    · exact hcall _ path hnew hcreates
    · cases hnone.symm.trans hcreates
  · rcases List.mem_append.mp htree with hold | hnew
    · exact h.tended tree hold
    · obtain ⟨new, hinstances, hplanted⟩ := hmove.instances ha
      rw [h.length, hinstances, List.drop_left] at hnew
      obtain ⟨nd, hnd, rfl⟩ := List.mem_map.mp hnew
      obtain ⟨op, hop, path, option, hcreates, rfl⟩ := hplanted nd hnd
      obtain ⟨name, hname, rfl⟩ := h.named op hop path hcreates
      exact .seed hname option

theorem Grove.graft (h : f.Grove) {tree tree' : Tree T} {a : Action T}
    (htree : f.trees[root]? = some tree) (hstep : tree.step (id, a) = some tree')
    (hroot : tree [] = some nd) (hroot' : tree' [] = some nd') (horderly : tree.Orderly (id, a))
    (hnames : ∀ name ∈ a.names, '/' ∉ name.toList) : (f.graft root tree' nd nd').Grove := by
  refine ⟨h.toGrounded.graft htree hstep hroot hroot', fun o ho path hcreates => ?_,
    fun t ht => ?_⟩
  · rcases List.mem_append.mp ho with hold | hnew
    · exact h.named o hold path hcreates
    · rw [ActorSystem.notices_creates hnew] at hcreates
      cases hcreates
  · rcases List.mem_or_eq_of_mem_set ht with hold | rfl
    · exact h.tended t hold
    · exact (h.tended tree (List.mem_of_getElem? htree)).step hstep horderly hnames

theorem Move.grove {a : ForestAction T} (move : f.Move a f') (h : f.Grove) (ok : f.Tame a) :
    f'.Grove := by
  cases move with
  | @call call s hstep =>
    refine h.sow (by simp) hstep fun call' path hcall hcreates => ?_
    cases hcall
    rw [UserCall.creates_eq] at hcreates
    obtain ⟨name, hname, rfl⟩ := Option.map_eq_some_iff.mp hcreates
    exact ⟨name, ok name hname, rfl⟩
  | proceed hstep => exact h.sow (by simp) hstep (by simp)
  | actor htree hstep hroot hroot' =>
    exact h.graft htree hstep hroot hroot' (ok.2 _ htree) ok.1

theorem reach_grove (h : machine.Reach Tame f) : f.Grove :=
  h.invariant ⟨⟨.start, rfl⟩, List.forall_mem_nil _, List.forall_mem_nil _⟩
    fun _ hs ok hstep => (step_move hstep).grove hs ok

/-- The actor has not told its parent that it has ended. -/
def Live (f : Forest T) (root : ChildId) (id : NodeId) (nd : Node T) : Prop :=
  ∃ tree, f.trees[root]? = some tree ∧ tree.Live id nd

theorem Grove.present (h : f.Grove) (hlive : f.Live root [] nd) :
    f.system.Present nd.mbox.path root := by
  obtain ⟨tree, htree, hnd, hparent⟩ := hlive
  obtain ⟨_, _, _, hown⟩ := (h.tended tree (List.mem_of_getElem? htree)).grown [] nd hnd
  refine (ActorSystem.reachable_registered h.system).present_of_silent (h.instance htree hnd)
    fun e he => ?_
  cases hnotice : e.notice with
  | false => rfl
  | true =>
    have hnotifies : e.notifies = true := by
      cases e <;> first | rfl | cases hnotice
    exact absurd ((Node.reachable_final hown).orphan he hnotifies) hparent

/-- Live actors have different printed paths, and the registry finds each of its actors at the
path that its printed path is parsed to. -/
structure Identified (f : Forest T) : Prop where
  unique : ∀ root id nd root' id' nd', f.Live root id nd → f.Live root' id' nd' →
    nd.mbox.path.toString = nd'.mbox.path.toString → root = root' ∧ id = id'
  found : ∀ root nd, f.Live root [] nd → ∃ messageType,
    (∀ m, f.system.HasType root m ↔ m = messageType) ∧
      f.system.find (.ofString nd.mbox.path.toString) messageType = some root

theorem Grove.unique (h : f.Grove) (hlive : f.Live root id nd) (hlive' : f.Live root' id' nd')
    (hprinted : nd.mbox.path.toString = nd'.mbox.path.toString) : root = root' ∧ id = id' := by
  obtain ⟨tree, htree, hnd⟩ := hlive
  obtain ⟨tree', htree', hnd'⟩ := hlive'
  have htended := h.tended tree (List.mem_of_getElem? htree)
  have htended' := h.tended tree' (List.mem_of_getElem? htree')
  obtain ⟨hlength, r, hr, hbegins⟩ := htended.root_of hnd
  obtain ⟨hlength', r', hr', hbegins'⟩ := htended'.root_of hnd'
  have hpath : nd.mbox.path = nd'.mbox.path :=
    ActorPath.toString_injective_of_unmarked (htended.unmarked id nd hnd.node)
      (htended'.unmarked id' nd' hnd'.node) (by rintro hnil; simp [hnil] at hlength)
      (by rintro hnil; simp [hnil] at hlength') hprinted
  have hroots : r.mbox.path = r'.mbox.path := ActorPath.ext (by rw [hbegins, hbegins', hpath])
  have hp := h.present ⟨tree, htree, hr⟩
  rw [hroots] at hp
  obtain rfl := (ActorSystem.reachable_registered h.system).present_unique hp
    (h.present ⟨tree', htree', hr'⟩)
  cases htree.symm.trans htree'
  exact ⟨rfl, htended.unique hnd hnd' hpath⟩

theorem Grove.found (h : f.Grove) (hlive : f.Live root [] nd) : ∃ messageType,
    (∀ m, f.system.HasType root m ↔ m = messageType) ∧
      f.system.find (.ofString nd.mbox.path.toString) messageType = some root := by
  obtain ⟨tree, htree, hnd⟩ := hlive
  obtain ⟨name, hname, hpath⟩ := (h.tended tree (List.mem_of_getElem? htree)).root_path hnd.node
  obtain ⟨typeOf, htyped⟩ := ActorSystem.reachable_typed h.system
  obtain ⟨any, hany, rfl⟩ := ((ActorSystem.reachable_registered h.system).entry _ _).mpr
    (h.present ⟨tree, htree, hnd⟩)
  obtain ⟨hlt, htype⟩ := htyped.entry _ any hany
  refine ⟨typeOf any.child, fun m => htyped.hasType_iff hlt, ?_⟩
  rw [hpath, ActorPath.ofString_toString (userPath_proper hname), ← hpath]
  simp [ActorSystem.find, hany, htype]

/-- The printed path of a live actor. -/
def printed (f : Forest T) (root : ChildId) (id : NodeId) : Option String :=
  f.trees[root]?.bind fun tree =>
    ((tree id).filter fun nd => nd.mbox.dispatcher.parent.isSome).map fun nd =>
      nd.mbox.path.toString

theorem live_of_printed {s : String} (h : f.printed root id = some s) :
    ∃ nd, f.Live root id nd ∧ nd.mbox.path.toString = s := by
  obtain ⟨tree, htree, hprinted⟩ := Option.bind_eq_some_iff.mp h
  obtain ⟨nd, hfilter, hpath⟩ := Option.map_eq_some_iff.mp hprinted
  obtain ⟨hid, hparent⟩ := Option.filter_eq_some_iff.mp hfilter
  exact ⟨nd, ⟨tree, htree, hid, Option.isSome_iff_ne_none.mp hparent⟩, hpath⟩

theorem printed_paths_identify (h : machine.Reach Tame f) : f.Identified :=
  have hgrove := reach_grove h
  ⟨fun _ _ _ _ _ _ => hgrove.unique, fun _ _ => hgrove.found⟩

abbrev vacant : Machine (Forest Nat) (ForestAction Nat) := machine

/-- The actors "a" and `name` are created, and the handler of "a" asks for the child "b". -/
def creatingRun (name : String) : List (ForestAction Nat) :=
  .call (.createActor "a" 0 {}) :: List.replicate 5 (.proceed 0) ++
    .call (.createActor name 0 {}) :: List.replicate 5 (.proceed 1) ++
    (Action.client 0 :: Node.sending (.user 1) ++
      Node.callbacks [⟨.create, [], false⟩, ⟨.onEnter, [], false⟩] ++ Node.turns 5 ++
      Node.callbacks [⟨.onMessage, [.getOrCreateChild "b" 0 {}], false⟩]).map (.actor 0 [])

def namedForest : Forest Nat :=
  (vacant.exec vacant.start (creatingRun "c")).get (by decide +kernel)

theorem namedForest_run : vacant.exec vacant.start (creatingRun "c") = some namedForest :=
  (Option.some_get _).symm

theorem printed_paths_identify_named : namedForest.Identified ∧
    namedForest.printed 0 [0] = some "/user/a/b" ∧ namedForest.printed 1 [] = some "/user/c" :=
  ⟨printed_paths_identify (Reach.exec .start (by decide +kernel) namedForest_run),
    by decide +kernel, by decide +kernel⟩

def slashedForest : Forest Nat :=
  (vacant.exec vacant.start (creatingRun "a/b")).get (by decide +kernel)

theorem slashedForest_run : vacant.exec vacant.start (creatingRun "a/b") = some slashedForest :=
  (Option.some_get _).symm

/-- The child "b" of "a" and the actor "a/b" have one printed path, at which the registry finds
nothing. -/
theorem slashed_paths_clash : vacant.Reachable slashedForest ∧
    (∃ nd nd', slashedForest.Live 0 [0] nd ∧ slashedForest.Live 1 [] nd' ∧
      nd.mbox.path.toString = nd'.mbox.path.toString ∧
      ∀ m, slashedForest.system.find (.ofString nd'.mbox.path.toString) m = none) ∧
    ¬ slashedForest.Identified := by
  have hchild : slashedForest.printed 0 [0] = some "/user/a/b" := by decide +kernel
  have hroot : slashedForest.printed 1 [] = some "/user/a/b" := by decide +kernel
  have hlookup : slashedForest.system.actors.lookup (.ofString "/user/a/b") = none := by
    decide +kernel
  obtain ⟨nd, hlive, hpath⟩ := live_of_printed hchild
  obtain ⟨nd', hlive', hpath'⟩ := live_of_printed hroot
  refine ⟨Reach.exec_reachable .start slashedForest_run, ⟨nd, nd', hlive, hlive',
    hpath.trans hpath'.symm, fun m => ?_⟩, fun h => ?_⟩
  · rw [hpath', ActorSystem.find, hlookup]
  · obtain ⟨hsame, -⟩ := h.unique 0 [0] nd 1 [] nd' hlive hlive' (hpath.trans hpath'.symm)
    cases hsame

end Forest

end Ruactor
