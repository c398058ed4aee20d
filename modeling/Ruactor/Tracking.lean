import Ruactor.Family
import Ruactor.Logging

/-!
# Children stay tracked

Each child that has not run `terminate` is the entry of its parent's map under the
key of its path, as long as no `get_or_create_child` names an entry of another
message type. That call finds no child, since the downcast fails, and puts the new
one in the place of the old.
-/

namespace Ruactor

open Machine

variable {T : Type} {path : ActorPath} {option : PropsOption}

namespace Node

def badge (nd : Node T) : String × Bool :=
  (nd.mbox.path.key, nd.mbox.dispatcher.parent.isSome)

theorem deliver_letters (nd : Node T) (msg : InternalMessage) :
    (nd.deliver msg).letters.Perm (nd.letters ++ msg.letter.toList) := by
  simp only [letters, Mailbox.letters, deliver, Mailbox.pushInternal, List.filterMap_append]
  cases hletter : msg.letter with
  | none => simp [hletter]
  | some letter =>
    simp only [List.filterMap_cons, hletter, List.filterMap_nil, Option.toList_some,
      List.append_assoc]
    exact List.perm_append_comm.append_left _

theorem deliver_linked {nd : Node T} {msg : InternalMessage} {kids : Kids}
    (hletter : msg.letter = none) (h : nd.mbox.Linked nd.letters kids) :
    (nd.deliver msg).mbox.Linked (nd.deliver msg).letters kids := by
  have hperm := deliver_letters nd msg
  rw [hletter, Option.toList_none, List.append_nil] at hperm
  exact fun hserved => (h hserved).perm hperm rfl rfl

end Node

namespace Tree

def kids (tree : Tree T) (id : NodeId) : Kids := fun k => (tree (k :: id)).map Node.badge

theorem foldl_badge {path : ActorPath} {k : ChildId} (events : List (Event T))
    {child : Option (Node T)} {kids : Kids} (h : child.map Node.badge = kids k) :
    (events.foldl (toChild path k) child).map Node.badge = events.foldl bear kids k := by
  induction events generalizing child kids with
  | nil => exact h
  | cons e events ih =>
    refine ih ?_
    cases e with
    | childCreated k' name option found =>
      by_cases hk : k' = k
      · subst hk
        simp [toChild, bear, birth, Node.badge, Node.deliver, Node.new, Mailbox.new,
          Mailbox.pushInternal]
      · simp [toChild, bear, hk, Function.update_of_ne (Ne.symm hk), h]
    | stopped k' =>
      simp only [toChild, bear]
      split
      · rw [← h]
        cases child <;> rfl
      · exact h
    | _ => exact h

theorem spread_kids_self (tree : Tree T) (id : NodeId) (nd : Node T) (events : List (Event T)) :
    (tree.spread id nd events).kids id = events.foldl bear (tree.kids id) := by
  funext k
  rw [kids, spread_child]
  exact foldl_badge events rfl

theorem foldl_toParent_badge (k : ChildId) (events : List (Event T)) (parent : Option (Node T)) :
    (events.foldl (toParent k) parent).map Node.badge = parent.map Node.badge := by
  induction events generalizing parent with
  | nil => rfl
  | cons e events ih =>
    rw [List.foldl_cons, ih]
    cases e with
    | notified p path => cases p <;> cases parent <;> rfl
    | _ => rfl

theorem foldl_toParent_silent (k : ChildId) {events : List (Event T)}
    (h : ∀ e ∈ events, e.notifies = false) (parent : Option (Node T)) :
    events.foldl (toParent k) parent = parent := by
  induction events generalizing parent with
  | nil => rfl
  | cons e events ih =>
    rw [List.foldl_cons, ih fun e' he' => h e' (List.mem_cons_of_mem _ he')]
    have he := h e List.mem_cons_self
    cases e <;> first | rfl | cases he

theorem spread_badge_other (tree : Tree T) {id other : NodeId} (nd : Node T)
    (events : List (Event T)) (hself : other ≠ id) (hchild : ∀ k, other ≠ k :: id) :
    (tree.spread id nd events other).map Node.badge = (tree other).map Node.badge := by
  by_cases hparent : ∃ k, id = k :: other
  · obtain ⟨k, rfl⟩ := hparent
    rw [spread_parent, foldl_toParent_badge]
  · rw [spread_other tree nd events hself hchild fun k hk => hparent ⟨k, hk⟩]

theorem spread_kids_other (tree : Tree T) {id other : NodeId} (nd : Node T)
    (events : List (Event T)) (hself : other ≠ id) (hparent : ∀ k, id ≠ k :: other) :
    (tree.spread id nd events).kids other = tree.kids other := by
  funext k
  refine spread_badge_other tree nd events (fun hk => hparent k hk.symm) fun k' hk => ?_
  exact hself (List.cons.inj hk).2

theorem spread_kids_parent (tree : Tree T) (k : ChildId) (up : NodeId) (nd : Node T)
    (events : List (Event T)) : (tree.spread (k :: up) nd events).kids up =
      Function.update (tree.kids up) k (some nd.badge) := by
  funext k'
  by_cases hk : k' = k
  · subst hk
    rw [Function.update_self, kids, spread_self]
    rfl
  · rw [Function.update_of_ne hk]
    refine spread_badge_other tree nd events (fun he => hk (List.cons.inj he).1) fun k₁ he => ?_
    have hlen := congrArg List.length (List.cons.inj he).2
    simp at hlen

/-- No step takes a node away. -/
theorem spread_none {tree : Tree T} {id other : NodeId} {nd : Node T} {events : List (Event T)}
    (h : tree.spread id nd events other = none) : tree other = none := by
  have hself : other ≠ id := by
    rintro rfl
    simp [spread_self] at h
  by_cases hborn : ∃ k, other = k :: id
  · obtain ⟨k, rfl⟩ := hborn
    have hkids : (tree.spread id nd events).kids id k = none := by simp [kids, h]
    rw [spread_kids_self] at hkids
    simpa [kids] using foldl_bear_eq_none hkids
  · have hbadge := spread_badge_other tree nd events hself fun k hk => hborn ⟨k, hk⟩
    rw [h] at hbadge
    simpa using hbadge.symm

structure Rooted (tree : Tree T) : Prop where
  closed : ∀ k id, tree id = none → tree (k :: id) = none
  ward : ∀ k id nd, tree (k :: id) = some nd → nd.mbox.dispatcher.parent ≠ some .guard

namespace Rooted

variable {tree : Tree T} {id : NodeId} {nd nd' : Node T} {events : List (Event T)}

theorem start : Rooted (machine path option : Machine (Tree T) _).start := by
  refine ⟨fun k id _ => ?_, fun k id nd hid => ?_⟩
  · exact Option.eq_none_iff_forall_ne_some.mpr fun nd hid => by cases (start_some hid).1
  · cases (start_some hid).1

theorem closed_spread (h : Rooted tree) (hid : tree id = some nd) (k : ChildId) (other : NodeId)
    (hnone : tree.spread id nd' events other = none) :
    tree.spread id nd' events (k :: other) = none := by
  have hself : other ≠ id := by
    rintro rfl
    simp [spread_self] at hnone
  have hother := spread_none hnone
  have hchild : k :: other ≠ id := by
    rintro rfl
    exact absurd (hid.symm.trans (h.closed k other hother)) (by simp)
  have hbadge := spread_badge_other tree nd' events hchild fun k' hk => hself (List.cons.inj hk).2
  rw [h.closed k other hother] at hbadge
  simpa using hbadge

theorem spread (h : Rooted tree) (hid : tree id = some nd)
    (hkin : Mailbox.Kin nd.letters nd'.letters nd.mbox nd'.mbox events) :
    Rooted (tree.spread id nd' events) where
  closed := h.closed_spread hid
  ward k other x hx := by
    by_cases hself : k :: other = id
    · subst hself
      rw [spread_self] at hx
      cases hx
      rcases hkin.parent with ⟨hparent, -⟩ | ⟨p, -, hparent, -⟩
      · rw [hparent]
        exact h.ward k other nd hid
      · simp [hparent]
    · refine spread_keeps (P := fun x => x.mbox.dispatcher.parent ≠ some .guard)
        (fun _ hward => hward) (fun _ name option _ _ _ => ?_) hself (h.ward k other) x hx
      simp [birth, Node.deliver, Node.new, Mailbox.pushInternal, Mailbox.new]

end Rooted

/-- The steps of the other nodes keep `R`, an account that a mailbox gives of its children. -/
structure Kept (R : Mailbox T → List (ActorPath × ChildId) → Kids → Prop) : Prop where
  birth : ∀ {path name option kids}, (∀ k, kids k = none) →
    R (birth path name option).mbox (birth path name option : Node T).letters kids
  deliver : ∀ {nd : Node T} {msg kids}, msg.letter = none → R nd.mbox nd.letters kids →
    R (nd.deliver msg).mbox (nd.deliver msg).letters kids
  notify : ∀ {nd : Node T} {p k kids}, kids k = some (p.key, true) → R nd.mbox nd.letters kids →
    R (nd.deliver (.childTerminate p k)).mbox (nd.deliver (.childTerminate p k)).letters
      (Function.update kids k (some (p.key, false)))

theorem Kept.spread {R : Mailbox T → List (ActorPath × ChildId) → Kids → Prop} (hkept : Kept R)
    {tree : Tree T} {id : NodeId} {nd nd' : Node T} {events : List (Event T)}
    (hrooted : Rooted tree) (hid : tree id = some nd)
    (hkin : Mailbox.Kin nd.letters nd'.letters nd.mbox nd'.mbox events)
    (hpath : nd'.mbox.path = nd.mbox.path)
    (hunborn : ∀ k name option found, .childCreated k name option found ∈ events →
      tree (k :: id) = none)
    (hown : R nd'.mbox nd'.letters (events.foldl bear (tree.kids id)))
    (h : ∀ id nd, tree id = some nd → R nd.mbox nd.letters (tree.kids id)) (other : NodeId)
    (x : Node T) (hx : tree.spread id nd' events other = some x) :
    R x.mbox x.letters ((tree.spread id nd' events).kids other) := by
  by_cases hself : other = id
  · subst hself
    rw [spread_self] at hx
    cases hx
    rw [spread_kids_self]
    exact hown
  by_cases hparent : ∃ k, id = k :: other
  · obtain ⟨k, rfl⟩ := hparent
    rw [spread_kids_parent]
    rw [spread_parent] at hx
    have hk : tree.kids other k = some nd.badge := by simp [kids, hid]
    rcases hkin.parent with ⟨hsame, hsilent⟩ | ⟨p, hp, hgone, hevents⟩
    · have hbadge : nd'.badge = nd.badge := by simp [Node.badge, hpath, hsame]
      rw [foldl_toParent_silent k hsilent] at hx
      rw [hbadge, ← hk, Function.update_eq_self]
      exact h other x hx
    · obtain rfl : p = .actor := by
        cases p with
        | actor => rfl
        | guard => exact absurd hp (hrooted.ward k other nd hid)
      subst hevents
      obtain ⟨up, hup, rfl⟩ := Option.map_eq_some_iff.mp hx
      have hbadge : nd'.badge = (nd.mbox.path.key, false) := by simp [Node.badge, hpath, hgone]
      rw [hbadge]
      exact hkept.notify (by rw [hk]; simp [Node.badge, hp]) (h other up hup)
  rw [spread_kids_other tree nd' events hself fun k hk => hparent ⟨k, hk⟩]
  by_cases hchild : ∃ k, other = k :: id
  · obtain ⟨k, rfl⟩ := hchild
    rw [spread_child] at hx
    refine foldl_toChild (P := fun x => R x.mbox x.letters (tree.kids (k :: id)))
      (hkept.deliver rfl) events ?_ (h _) x hx
    intro name option found hmem
    refine hkept.birth fun k' => ?_
    simp [kids, hrooted.closed k' _ (hunborn k name option found hmem)]
  · rw [spread_other tree nd' events hself (fun k hk => hchild ⟨k, hk⟩)
      fun k hk => hparent ⟨k, hk⟩] at hx
    exact h other x hx

structure Family (tree : Tree T) : Prop where
  closed : ∀ k id, tree id = none → tree (k :: id) = none
  ward : ∀ k id nd, tree (k :: id) = some nd → nd.mbox.dispatcher.parent ≠ some .guard
  linked : ∀ id nd, tree id = some nd → nd.mbox.Linked nd.letters (tree.kids id)

/-- No child takes the place of another in the map. -/
def Distinct (tree : Tree T) (step : NodeId × Action T) : Prop :=
  ∀ e ∈ tree.events step, e.overwrites = false

instance (tree : Tree T) (step : NodeId × Action T) : Decidable (Distinct tree step) :=
  inferInstanceAs (Decidable (∀ e ∈ tree.events step, _ = _))

theorem reachable_node {ok : Tree T → NodeId × Action T → Prop} {tree : Tree T}
    (h : (machine path option).Reach ok tree) {id : NodeId} {nd : Node T}
    (hid : tree id = some nd) :
    ∃ path option parent, (Node.machine path option parent).Reachable nd := by
  have hgrown : Grown (fun _ _ => True) nd :=
    reach_grown (fun _ _ => trivial) (fun _ _ => trivial) h id nd hid
  exact hgrown

/-- A step of the tree is the step of `nd` to `nd'`. -/
structure StepOf (tree tree' : Tree T) (id : NodeId) (a : Action T) (nd nd' : Node T) : Prop where
  node : tree id = some nd
  reachable : ∃ path option parent, (Node.machine path option parent).Reachable nd
  step : nd.step a = some nd'
  kin : Mailbox.Kin nd.letters nd'.letters nd.mbox nd'.mbox (tree.events (id, a))
  logs : ∀ e ∈ tree.events (id, a), nd.Logs a e
  path : nd'.mbox.path = nd.mbox.path
  spread : tree' = tree.spread id nd' (tree.events (id, a))

theorem step_of_grown {tree tree' : Tree T} {id : NodeId} {a : Action T}
    (hgrown : ∀ id nd, tree id = some nd →
      ∃ path option parent, (Node.machine path option parent).Reachable nd)
    (h : tree.step (id, a) = some tree') : ∃ nd nd', tree.StepOf tree' id a nd nd' := by
  obtain ⟨nd, nd', hid, ha, hstep, hlog, hspread⟩ := step_cases h
  obtain ⟨_, _, _, hown⟩ := hgrown id nd hid
  obtain ⟨events, hkin⟩ := Node.step_kin hown ha hstep
  obtain rfl := List.append_cancel_left (hlog.symm.trans hkin.log)
  obtain ⟨events, hlog', hlogs⟩ := Node.step_logs hown hstep
  obtain rfl := List.append_cancel_left (hlog.symm.trans hlog')
  exact ⟨nd, nd', hid, ⟨_, _, _, hown⟩, hstep, hkin, hlogs, (Node.step_move hstep).path, hspread⟩

theorem step_of {ok : Tree T → NodeId × Action T → Prop} {tree tree' : Tree T} {id : NodeId}
    {a : Action T} (hr : (machine path option).Reach ok tree) (h : tree.step (id, a) = some tree') :
    ∃ nd nd', tree.StepOf tree' id a nd nd' :=
  step_of_grown (fun _ _ => reachable_node hr) h

theorem StepOf.bond {tree tree' : Tree T} {id : NodeId} {a : Action T} {nd nd' : Node T}
    (h : tree.StepOf tree' id a nd nd') (ha : ∀ msg, a ≠ .deliver msg) :
    Mailbox.Bond nd.letters nd'.letters nd.mbox nd'.mbox (tree.events (id, a)) := by
  obtain ⟨_, _, _, hown⟩ := h.reachable
  obtain ⟨events, hbond⟩ := Node.step_bond hown ha h.step
  obtain rfl := List.append_cancel_left (h.kin.log.symm.trans hbond.log)
  exact hbond

namespace Family

variable {tree : Tree T} {id : NodeId} {nd nd' : Node T} {events : List (Event T)}

theorem unborn (h : Family tree) (hid : tree id = some nd)
    (hkin : Mailbox.Kin nd.letters nd'.letters nd.mbox nd'.mbox events) {k : ChildId}
    {name : String} {option : PropsOption} {found : Option ChildId}
    (hmem : .childCreated k name option found ∈ events) : tree (k :: id) = none := by
  simpa [kids] using hkin.fresh (h.linked id nd hid) k name option found hmem

theorem rooted (h : Family tree) : Rooted tree := ⟨h.closed, h.ward⟩

theorem kept_linked : Kept (Mailbox.Linked (T := T)) where
  birth h := fun _ => .new h
  deliver hletter h := Node.deliver_linked hletter h
  notify {nd _ _ _} hk h := fun hserved =>
    ((h hserved).notify hk).perm (nd.deliver_letters _) rfl rfl

theorem spread (h : Family tree) (hid : tree id = some nd)
    (hkin : Mailbox.Kin nd.letters nd'.letters nd.mbox nd'.mbox events)
    (hpath : nd'.mbox.path = nd.mbox.path) (hdistinct : ∀ e ∈ events, e.overwrites = false) :
    Family (tree.spread id nd' events) where
  closed := (h.rooted.spread hid hkin).closed
  ward := (h.rooted.spread hid hkin).ward
  linked := kept_linked.spread h.rooted hid hkin hpath (fun _ _ _ _ => h.unborn hid hkin)
    (hkin.linked hdistinct (h.linked id nd hid)) h.linked

end Family

theorem start_family : Family (machine path option : Machine (Tree T) _).start := by
  have hrooted : Rooted (machine path option : Machine (Tree T) _).start := .start
  refine ⟨hrooted.closed, hrooted.ward, fun id nd hid => ?_⟩
  obtain ⟨rfl, rfl⟩ := start_some hid
  refine fun _ => .new fun k => ?_
  rw [kids, Option.map_eq_none_iff]
  exact Option.eq_none_iff_forall_ne_some.mpr fun nd hid => by cases (start_some hid).1

theorem reach_family {ok : Tree T → NodeId × Action T → Prop}
    (hok : ∀ tree step, ok tree step → Distinct tree step) {tree : Tree T}
    (h : (machine path option).Reach ok tree) : Family tree := by
  refine h.invariant start_family fun {tree tree' step} hr hs ok hstep => ?_
  obtain ⟨id, a⟩ := step
  obtain ⟨nd, nd', hof⟩ := step_of hr hstep
  rw [hof.spread]
  exact hs.spread hof.node hof.kin hof.path (hok _ _ ok)

/-- Each child that has not run `terminate` is the entry under its path's key. -/
def AllTracked (tree : Tree T) : Prop :=
  ∀ id nd context k child, tree id = some nd → nd.mbox.dispatcher.context = some context →
    tree (k :: id) = some child → child.mbox.dispatcher.parent ≠ none →
      ∃ entry, context.childrens.lookup child.mbox.path.key = some entry ∧ entry.child = k

/-- The processing of a notification leaves the entries of all but its sender. -/
def OwnEntries (tree : Tree T) : Prop :=
  ∀ id nd context i n p k input nd', tree id = some nd → nd.mbox.dispatcher.context = some context →
    nd.tasks[i]? = some (.looping n (.internalMessage (.childTerminate p k))) →
    nd.step (.task i input) = some nd' → ∀ name entry,
      context.childrens.lookup name = some entry → entry.child ≠ k →
        ∃ context', nd'.mbox.dispatcher.context = some context' ∧
          context'.childrens.lookup name = some entry

theorem Family.allTracked {tree : Tree T} (h : Family tree) : AllTracked tree := by
  intro id nd context k child hid hcontext hk hparent
  have ht := h.linked id nd hid fun hn => absurd (hn.symm.trans hcontext) (by simp)
  rw [hcontext, Option.getD_some] at ht
  have hkid : tree.kids id k = some (child.mbox.path.key, true) := by
    simp [kids, hk, Node.badge, Option.isSome_iff_ne_none.mpr hparent]
  exact ht.of_running hkid

theorem Family.ownEntries {tree : Tree T} (h : Family tree) : OwnEntries tree := by
  intro id nd context i n p k input nd' hid hcontext hi hstep name entry hname hne
  have ht := h.linked id nd hid fun hn => absurd (hn.symm.trans hcontext) (by simp)
  rw [hcontext, Option.getD_some] at ht
  have hletter : (p, k) ∈ nd.letters := by
    refine List.mem_append_right _ (List.mem_flatMap.mpr ⟨_, List.mem_of_getElem? hi, ?_⟩)
    simp [Task.letters, InternalMessage.letter]
  have hother : name ≠ p.key := by
    rintro rfl
    obtain ⟨e, he, hchild, -⟩ := ht.letter_tracks hletter
    obtain rfl := Option.some.inj (he.symm.trans hname)
    exact hne hchild
  cases Node.step_move hstep with
  | reschedule hi' _ => simp [hi] at hi'
  | task hi' _ hr =>
    obtain rfl := Option.some.inj (hi.symm.trans hi')
    cases Mailbox.taskStep_move hr with
    | childUnwind hnone => exact absurd (hnone.symm.trans hcontext) (by simp)
    | childLast hcontext' _ _ | childGone hcontext' _ =>
      obtain rfl := Option.some.inj (hcontext.symm.trans hcontext')
      exact ⟨_, rfl, by rwa [AList.lookup_erase_ne hother]⟩

theorem children_tracked {tree : Tree T} (h : (machine path option).Reach Distinct tree) :
    AllTracked tree ∧ OwnEntries tree :=
  have hf := reach_family (fun _ _ => id) h
  ⟨hf.allTracked, hf.ownEntries⟩

/-- The handler of the root creates two children. The first is stopped, and the root has
taken out its notification. -/
def familyRun : List (NodeId × Action Nat) :=
  acting [] (Node.sending (.user 1) ++
      Node.callbacks [⟨.create, [], false⟩, ⟨.onEnter, [], false⟩] ++ Node.turns 3 ++
      Node.callbacks
        [⟨.onMessage, [.getOrCreateChild "x" 0 {}, .createChild 0 {}], false⟩]) ++
    acting [0] (Node.stopping ++ Node.callbacks [⟨.create, [], false⟩, ⟨.onEnter, [], false⟩] ++
      Node.turns 6 ++ Node.callbacks [⟨.onExit, [], false⟩] ++ Node.turns 1) ++
    acting [] (Node.turns 3)

def familyTree : Tree Nat := (sample.exec sample.start familyRun).get (by decide +kernel)

theorem children_tracked_family : AllTracked familyTree ∧ OwnEntries familyTree :=
  children_tracked (Reach.exec .start (by decide +kernel : sample.Allows Distinct _ familyRun)
    (Option.some_get _).symm)

/-- The handler of the root asks for "x" with two message types. -/
def overwritingRun : List (NodeId × Action Nat) :=
  acting [] (Node.sending (.user 1) ++
    Node.callbacks [⟨.create, [], false⟩, ⟨.onEnter, [], false⟩] ++ Node.turns 3 ++
    Node.callbacks
      [⟨.onMessage, [.getOrCreateChild "x" 0 {}, .getOrCreateChild "x" 1 {}], false⟩])

/-- The child 0 is stopped, and the root has taken out its notification. -/
def overwrittenRun : List (NodeId × Action Nat) :=
  acting [0] (Node.stopping ++ Node.callbacks [⟨.create, [], false⟩, ⟨.onEnter, [], false⟩] ++
      Node.turns 6 ++ Node.callbacks [⟨.onExit, [], false⟩] ++ Node.turns 1) ++
    acting [] (Node.turns 3)

def overwritingTree : Tree Nat := (sample.exec sample.start overwritingRun).get (by decide +kernel)

def overwrittenTree : Tree Nat :=
  (sample.exec overwritingTree overwrittenRun).get (by decide +kernel)

/-- The child 0 runs untracked; when it ends, the entry of the child 1 goes. -/
theorem overwriting_untracks :
    sample.Reachable overwritingTree ∧ ¬ AllTracked overwritingTree ∧
      sample.Reachable overwrittenTree ∧ ¬ OwnEntries overwrittenTree := by
  have hrun : sample.exec sample.start overwritingRun = some overwritingTree :=
    (Option.some_get _).symm
  have hfirst : sample.Reachable overwritingTree := Reach.exec_reachable .start hrun
  have hrun' : sample.exec overwritingTree overwrittenRun = some overwrittenTree :=
    (Option.some_get _).symm
  have hsecond : sample.Reachable overwrittenTree := Reach.exec_reachable hfirst hrun'
  refine ⟨hfirst, fun h => ?_, hsecond, fun h => ?_⟩
  · have hroot : (overwritingTree []).bind (fun nd => nd.mbox.dispatcher.context.map
        fun context => context.childrens.lookup "x") = some (some ⟨1, 1⟩) := by decide +kernel
    have hchild : (overwritingTree [0]).map Node.badge = some ("x", true) := by decide +kernel
    obtain ⟨nd, hid, hctx⟩ := Option.bind_eq_some_iff.mp hroot
    obtain ⟨context, hcontext, hlookup⟩ := Option.map_eq_some_iff.mp hctx
    obtain ⟨child, hk, hbadge⟩ := Option.map_eq_some_iff.mp hchild
    obtain ⟨hkey, hparent⟩ := Prod.mk.inj hbadge
    obtain ⟨entry, hentry, hown⟩ := h [] nd context 0 child hid hcontext hk
      (Option.isSome_iff_ne_none.mp hparent)
    rw [hkey, hlookup] at hentry
    cases hentry
    cases hown
  · have hroot : (overwrittenTree []).bind (fun nd => nd.mbox.dispatcher.context.bind
        fun context => (nd.step (.task 0 {})).map fun nd' => (nd.tasks[0]?,
          context.childrens.lookup "x", nd'.mbox.dispatcher.context.map
            fun context' => context'.childrens.lookup "x")) =
        some (some (.looping 1 (.internalMessage (.childTerminate ⟨["user", "a", "x"]⟩ 0))),
          some ⟨1, 1⟩, some none) := by decide +kernel
    obtain ⟨nd, hid, hctx⟩ := Option.bind_eq_some_iff.mp hroot
    obtain ⟨context, hcontext, hstep⟩ := Option.bind_eq_some_iff.mp hctx
    obtain ⟨nd', hnd', hfacts⟩ := Option.map_eq_some_iff.mp hstep
    simp only [Prod.mk.injEq] at hfacts
    obtain ⟨htask, hentry, hgone⟩ := hfacts
    obtain ⟨context', hcontext', hentry'⟩ :=
      h [] nd context 0 1 _ 0 {} nd' hid hcontext htask hnd' "x" _ hentry (by decide)
    simp [hcontext', hentry'] at hgone

end Tree

end Ruactor
