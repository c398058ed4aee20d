import Ruactor.Tracking

/-!
# What an entry of the map stands for

In every run, also where children are inserted over others, the child of an entry has a
parent still, or its `ChildTerminate` is on the way. So `get_or_create_child` may return a
child that has terminated, but none whose notification has been processed.
-/

namespace Ruactor

open Machine

variable {T : Type} {path : ActorPath} {option : PropsOption}

theorem foldl_bear_cases (kids : Kids) (events : List (Event T)) (k : ChildId) :
    events.foldl bear kids k = kids k ∨ ∃ name option found,
      .childCreated k name option found ∈ events ∧
        events.foldl bear kids k = some (name, true) := by
  induction events generalizing kids with
  | nil => exact .inl rfl
  | cons e events ih =>
    obtain hsame | ⟨name, option, found, hmem, hbear⟩ := ih (bear kids e)
    · cases e with
      | childCreated k' name option found =>
        by_cases hk : k = k'
        · subst hk
          rw [bear, Function.update_self] at hsame
          exact .inr ⟨name, option, found, List.mem_cons_self, hsame⟩
        · rw [bear, Function.update_of_ne hk] at hsame
          exact .inl hsame
      | _ => exact .inl hsame
    · exact .inr ⟨name, option, found, List.mem_cons_of_mem _ hmem, hbear⟩

namespace ActorContext

/-- The child of an entry has a parent still, or its notification is on the way. -/
structure Known (c : ActorContext T) (letters : List (ActorPath × ChildId)) (kids : Kids) :
    Prop extends Listed c letters kids where
  held : ∀ name e, c.childrens.lookup name = some e →
    kids e.child = some (name, true) ∨ ∃ p, p.key = name ∧ (p, e.child) ∈ letters

variable {c c' c₀ : ActorContext T} {letters letters' : List (ActorPath × ChildId)} {kids : Kids}
  {events : List (Event T)}

theorem Known.new (h : ∀ k, kids k = none) : (ActorContext.new : ActorContext T).Known [] kids :=
  ⟨.new h, fun _ _ he => by cases he⟩

theorem Known.perm (h : c.Known letters kids) (hp : letters'.Perm letters)
    (hcreated : c'.created = c.created) (hchildrens : c'.childrens = c.childrens) :
    c'.Known letters' kids := by
  refine ⟨h.toListed.perm hp hcreated hchildrens, fun name e he => ?_⟩
  obtain hrunning | ⟨p, hname, hletter⟩ := h.held name e (hchildrens ▸ he)
  · exact .inl hrunning
  · exact .inr ⟨p, hname, hp.mem_iff.mpr hletter⟩

/-- The notification removes the entry of its sender, if it removes one that it is for. -/
theorem Known.erase {p : ActorPath} {k : ChildId} (h : c.Known ((p, k) :: letters) kids)
    (hcreated : c'.created = c.created) (hchildrens : c'.childrens = c.childrens.erase p.key) :
    c'.Known letters kids := by
  refine ⟨h.toListed.erase hcreated hchildrens, fun name e he => ?_⟩
  rw [hchildrens] at he
  have hne : name ≠ p.key := by
    rintro rfl
    simp at he
  obtain hrunning | ⟨p', hname, hletter⟩ := h.held name e (lookup_of_erase he)
  · exact .inl hrunning
  · rcases List.mem_cons.mp hletter with hsame | hletter
    · cases hsame
      exact absurd hname.symm hne
    · exact .inr ⟨p', hname, hletter⟩

theorem Known.create {name : String} {messageType : TypeId} (h : c.Known letters kids)
    (hcreated : c'.created = c.created ++ [name])
    (hchildrens : c'.childrens = c.childrens.insert name ⟨messageType, c.created.length⟩) :
    c'.Known letters (Function.update kids c.created.length (some (name, true))) := by
  refine ⟨h.toListed.create hcreated hchildrens, fun name' e he => ?_⟩
  rw [hchildrens] at he
  by_cases hname : name' = name
  · subst hname
    rw [AList.lookup_insert] at he
    cases he
    exact .inl (Function.update_self _ _ _)
  · rw [AList.lookup_insert_ne hname] at he
    rw [Function.update_of_ne (Nat.ne_of_lt (h.toListed.lt he))]
    exact h.held name' e he

theorem Known.notify {p : ActorPath} {k : ChildId} (h : c.Known letters kids)
    (hk : kids k = some (p.key, true)) :
    c.Known (letters ++ [(p, k)]) (Function.update kids k (some (p.key, false))) := by
  refine ⟨h.toListed.notify hk, fun name e he => ?_⟩
  obtain hrunning | ⟨p', hname, hletter⟩ := h.held name e he
  · by_cases hchild : e.child = k
    · rw [hchild, hk] at hrunning
      cases hrunning
      exact .inr ⟨p, rfl, by simp [hchild]⟩
    · rw [Function.update_of_ne hchild]
      exact .inl hrunning
  · exact .inr ⟨p', hname, List.mem_append_left _ hletter⟩

theorem Known.grows (h : c₀.Known letters kids) (hgrows : c₀.Grows c events) :
    c.Known letters (events.foldl bear kids) := by
  induction hgrows with
  | refl => exact h
  | barren log _ hlog hcreated hchildrens ih =>
    rw [List.foldl_append, foldl_bear_barren _ fun e he => (hlog e he).1]
    exact ih.perm (.refl _) hcreated hchildrens
  | create option _ hcreated hchildrens ih =>
    rw [List.foldl_append]
    exact ih.create hcreated hchildrens

/-- Where an entry comes from: the handler in progress, or the children that were there. -/
theorem Known.entry_cases (h : c₀.Known letters kids) (hgrows : c₀.Grows c events)
    {name : String} {e : ChildContainer} (he : c.childrens.lookup name = some e) :
    (∃ option found, .childCreated e.child name option found ∈ events) ∨
      ∃ running, kids e.child = some (name, running) ∧
        (running = true ∨ ∃ p, p.key = name ∧ (p, e.child) ∈ letters) := by
  have hc := h.grows hgrows
  have hname : c.created[e.child]? = some name := hc.entry name e he
  obtain hsame | ⟨name', option, found, hmem, hbear⟩ := foldl_bear_cases kids events e.child
  · have hborn := hc.born e.child
    rw [hsame, hname] at hborn
    obtain ⟨⟨name', running⟩, hkid, rfl⟩ := Option.map_eq_some_iff.mp hborn
    refine .inr ⟨running, hkid, ?_⟩
    obtain hrunning | hletter := hc.held _ e he
    · rw [hsame, hkid] at hrunning
      exact .inl (congrArg Prod.snd (Option.some.inj hrunning))
    · exact .inr hletter
  · obtain rfl := Option.some.inj ((hc.toListed.name hbear).symm.trans hname)
    exact .inl ⟨option, found, hmem⟩

theorem Grows.fresh (h : c₀.Grows c events) : c₀.created.length ≤ c.created.length ∧
    ∀ k name option found, .childCreated k name option found ∈ events →
      c₀.created.length ≤ k := by
  have haccount : Account [] none c₀ none c events := Growing.account ⟨rfl, h⟩ []
  exact ⟨haccount.older, haccount.fresh⟩

end ActorContext

theorem ActorContext.getChild_lookup {c : ActorContext T} {name : String} {messageType : TypeId}
    {k : ChildId} (h : c.getChild name messageType = some k) :
    ∃ e, c.childrens.lookup name = some e ∧ e.child = k := by
  simp only [getChild] at h
  split at h
  next e he =>
    split at h
    · exact ⟨e, he, Option.some.inj h⟩
    · cases h
  · cases h

namespace Mailbox

def Holds (m : Mailbox T) (letters : List (ActorPath × ChildId)) (kids : Kids) : Prop :=
  m.Served → (m.dispatcher.context.getD .new).Known letters kids

theorem Change.holds {before after : List (ActorPath × ChildId)} {m m' : Mailbox T}
    {events : List (Event T)} {kids : Kids} (h : Change before after m m' events)
    (hholds : m.Holds before kids) : m'.Holds after (events.foldl bear kids) := by
  intro hserved'
  cases h with
  | same hserved hperm hevents hcreated hchildrens =>
    rw [foldl_bear_barren _ hevents]
    exact (hholds (hserved hserved')).perm hperm hcreated hchildrens
  | grow hserved hperm hgrows =>
    exact ((hholds hserved).grows hgrows).perm hperm rfl rfl
  | erase hserved hperm hevents hcreated hchildrens =>
    subst hevents
    exact ((hholds hserved).perm hperm.symm rfl rfl).erase hcreated hchildrens
  | gone hgone _ => exact absurd hserved' hgone

theorem Change.fresh {before after : List (ActorPath × ChildId)} {m m' : Mailbox T}
    {events : List (Event T)} {kids : Kids} (h : Change before after m m' events)
    (hholds : m.Holds before kids) {k : ChildId} {name : String} {option : PropsOption}
    {found : Option ChildId} (hmem : .childCreated k name option found ∈ events) :
    kids k = none := by
  cases h with
  | same _ _ hevents _ _ | gone _ hevents =>
    exact absurd (hevents _ hmem) (by simp [Event.births])
  | grow hserved _ hgrows =>
    exact (hholds hserved).toListed.unborn (hgrows.fresh.2 k name option found hmem)
  | erase _ _ hevents _ _ => simp [hevents] at hmem

end Mailbox

theorem ActorContext.Grows.runOps {c₀ c : ActorContext T} {events : List (Event T)}
    (h : c₀.Grows c events) (rt : Runtime) (ops : List (ContextOp T)) :
    c₀.Grows (runOps rt c ops).context (events ++ (runOps rt c ops).log) := by
  have hgrowing := runOps_keeps (I := fun _ c events => ActorContext.Growing none c₀ none c events)
    ops rt (fun op _ _ _ _ h => (ActorContext.growing_recorded none c₀).op op trivial h) events
    ⟨rfl, h⟩
  exact hgrowing.2

theorem Task.letters_of_calls {t : Task T} (h : t.calls = true) : t.letters = [] := by
  cases t with
  | looping n stage => cases stage <;> first | rfl | cases h
  | _ => rfl

/-- While callbacks run, no notification is taken out of the queue. -/
theorem Node.handling_letters {parent : ParentRef} {nd : Node T}
    (h : (Node.machine path option parent).Reachable nd) {t : Task T} (ht : t ∈ nd.tasks)
    (hcalls : t.calls = true) : nd.letters = nd.mbox.letters := by
  obtain ⟨before, after, hs⟩ := List.append_of_mem ht
  have hactive : t.active = true := by
    cases t <;> first | rfl | cases hcalls
  have halone := ((reach_exclusive h).alone hs hactive).2
  have hsilent : ∀ t' ∈ nd.tasks, t'.letters = [] := by
    intro t' ht'
    have hquiet : t'.active = false ∨ t' = t := by
      rw [hs, List.mem_append, List.mem_cons] at ht'
      rcases ht' with ht' | rfl | ht'
      · exact .inl (halone t' (List.mem_append_left _ ht'))
      · exact .inr rfl
      · exact .inl (halone t' (List.mem_append_right _ ht'))
    rcases hquiet with hquiet | rfl
    · cases t' <;> first | rfl | cases hquiet
    · exact Task.letters_of_calls hcalls
  rw [letters, List.flatMap_eq_nil_iff.mpr hsilent, List.append_nil]

namespace Tree

variable {tree : Tree T} {id : NodeId} {nd nd' : Node T} {events : List (Event T)}

theorem kept_holds : Kept (Mailbox.Holds (T := T)) where
  birth h := fun _ => .new h
  deliver {nd msg _} hletter h := by
    have hperm := nd.deliver_letters msg
    rw [hletter, Option.toList_none, List.append_nil] at hperm
    exact fun hserved => (h hserved).perm hperm rfl rfl
  notify {nd _ _ _} hk h := fun hserved =>
    ((h hserved).notify hk).perm (nd.deliver_letters _) rfl rfl

/-- The path of a child is that of its parent and the name that it was created under. -/
def Pathed (tree : Tree T) : Prop :=
  ∀ k id child, tree (k :: id) = some child → ∃ nd, tree id = some nd ∧
    child.mbox.path = nd.mbox.path.div child.mbox.path.key

theorem spread_path (hid : tree id = some nd) (hpath : nd'.mbox.path = nd.mbox.path)
    (hunborn : ∀ k name option found, .childCreated k name option found ∈ events →
      tree (k :: id) = none) {other : NodeId} {x : Node T} (hx : tree other = some x) :
    ∃ x', tree.spread id nd' events other = some x' ∧ x'.mbox.path = x.mbox.path := by
  by_cases hself : other = id
  · subst hself
    obtain rfl := Option.some.inj (hid.symm.trans hx)
    exact ⟨nd', spread_self _ _ _ _, hpath⟩
  cases hspread : tree.spread id nd' events other with
  | none => exact absurd (hx.symm.trans (spread_none hspread)) (by simp)
  | some x' =>
    refine ⟨x', rfl, spread_keeps (P := fun x' => x'.mbox.path = x.mbox.path) (fun _ h => h)
      (fun k name option found hk hmem => ?_) hself (fun x₀ hx₀ => ?_) x' hspread⟩
    · subst hk
      exact absurd (hx.symm.trans (hunborn k name option found hmem)) (by simp)
    · rw [Option.some.inj (hx₀.symm.trans hx)]

theorem Pathed.spread (h : Pathed tree) (hid : tree id = some nd)
    (hpath : nd'.mbox.path = nd.mbox.path)
    (hunborn : ∀ k name option found, .childCreated k name option found ∈ events →
      tree (k :: id) = none) : Pathed (tree.spread id nd' events) := by
  have old : ∀ {k other child}, tree (k :: other) = some child →
      ∃ up, tree.spread id nd' events other = some up ∧
        child.mbox.path = up.mbox.path.div child.mbox.path.key := by
    intro k other child hchild
    obtain ⟨up, hup, hdiv⟩ := h k other child hchild
    obtain ⟨up', hup', hsame⟩ := spread_path hid hpath hunborn hup
    exact ⟨up', hup', by rw [hsame]; exact hdiv⟩
  intro k other child hchild
  by_cases hself : k :: other = id
  · subst hself
    rw [spread_self] at hchild
    cases hchild
    rw [hpath]
    exact old hid
  · refine spread_keeps (P := fun child => ∃ up, tree.spread id nd' events other = some up ∧
      child.mbox.path = up.mbox.path.div child.mbox.path.key) (fun _ h => h)
      (fun k' name option found hk _ => ?_) hself (fun x hx => old hx) child hchild
    obtain ⟨-, rfl⟩ := List.cons.inj hk
    refine ⟨nd', spread_self _ _ _ _, ?_⟩
    simp [birth, Node.deliver, Node.new, Mailbox.pushInternal, Mailbox.new]

structure Enrolled (tree : Tree T) : Prop extends Rooted tree where
  holds : ∀ id nd, tree id = some nd → nd.mbox.Holds nd.letters (tree.kids id)
  pathed : Pathed tree

theorem start_enrolled : Enrolled (machine path option : Machine (Tree T) _).start := by
  have childless : ∀ k id, (machine path option : Machine (Tree T) _).start (k :: id) = none :=
    fun k id => Option.eq_none_iff_forall_ne_some.mpr fun nd hid => by cases (start_some hid).1
  refine ⟨.start, fun id nd hid => ?_, fun k id child hchild => ?_⟩
  · obtain ⟨-, rfl⟩ := start_some hid
    exact fun _ => .new fun k => by simp [kids, childless]
  · simp [childless] at hchild

theorem Enrolled.step {tree' : Tree T} {a : Action T} (h : Enrolled tree)
    (hof : tree.StepOf tree' id a nd nd') (ha : ∀ msg, a ≠ .deliver msg) : Enrolled tree' := by
  have hbond := hof.bond ha
  have hown := h.holds id nd hof.node
  have hunborn : ∀ k name option found, .childCreated k name option found ∈ tree.events (id, a) →
      tree (k :: id) = none := by
    intro k name option found hmem
    simpa [kids] using hbond.change.fresh hown hmem
  rw [hof.spread]
  exact ⟨h.toRooted.spread hof.node hof.kin,
    kept_holds.spread h.toRooted hof.node hof.kin hof.path hunborn (hbond.change.holds hown)
      h.holds,
    h.pathed.spread hof.node hof.path hunborn⟩

theorem reach_enrolled {ok : Tree T → NodeId × Action T → Prop}
    (h : (machine path option).Reach ok tree) : Enrolled tree := by
  refine h.invariant start_enrolled fun {tree tree' step} hr hs _ hstep => ?_
  obtain ⟨id, a⟩ := step
  obtain ⟨nd, nd', hof⟩ := step_of hr hstep
  obtain ⟨-, -, -, ha, -⟩ := step_cases hstep
  exact hs.step hof ha

/-- `k` is a child that the handler has created, or the child at this name whose
`ChildTerminate` has not been taken out of the queue of its parent. -/
def Current (tree : Tree T) (id : NodeId) (nd : Node T) (name : String) (events : List (Event T))
    (k : ChildId) : Prop :=
  (∃ option found, .childCreated k name option found ∈ events ∧
      (birth nd.mbox.path name option : Node T).mbox.terminated = false) ∨
    ∃ child, tree (k :: id) = some child ∧ child.mbox.path = nd.mbox.path.div name ∧
      (child.mbox.dispatcher.parent ≠ none ∨
        ∃ p, p.key = name ∧ .childTerminate p k ∈ nd.mbox.internalQueue)

theorem get_or_create_child_returns (h : (machine path option).Reachable tree)
    (hid : tree id = some nd) {t : Task T} (ht : t ∈ nd.tasks) (hcalls : t.calls = true)
    {c : ActorContext T} (hgrows : (nd.mbox.dispatcher.context.getD .new).Grows c events)
    (rt : Runtime) (name : String) (messageType : TypeId) (prop : Props) :
    ∀ k ∈ (c.getOrCreateChild rt name messageType prop).1, tree.Current id nd name
      (events ++ (c.getOrCreateChild rt name messageType prop).2.log) k := by
  intro k hk
  simp only [ActorContext.getOrCreateChild] at hk ⊢
  split at hk
  rotate_left
  next option hget hmailbox =>
    cases hk
    refine .inl ⟨option, (c.childrens.lookup name).map ChildContainer.child, ?_, rfl⟩
    simp [ActorContext.insertChild]
  next => cases hk
  next hget =>
    cases hk
    simp only [List.append_nil]
    obtain ⟨e, he, rfl⟩ := ActorContext.getChild_lookup hget
    have hletters : ∀ {p k}, (p, k) ∈ nd.letters → .childTerminate p k ∈ nd.mbox.internalQueue := by
      intro p k hletter
      obtain ⟨_, _, _, hown⟩ := reachable_node h hid
      rw [Node.handling_letters hown ht hcalls] at hletter
      obtain ⟨msg, hmsg, hpair⟩ := List.mem_filterMap.mp hletter
      cases msg <;> cases hpair
      exact hmsg
    by_cases hserved : nd.mbox.Served
    · obtain ⟨option, found, hmem⟩ | ⟨running, hkid, hstate⟩ :=
        ((reach_enrolled h).holds id nd hid hserved).entry_cases hgrows he
      · exact .inl ⟨option, found, hmem, rfl⟩
      obtain ⟨child, hchild, hbadge⟩ := Option.map_eq_some_iff.mp hkid
      obtain ⟨rfl, rfl⟩ := Prod.mk.inj hbadge
      obtain ⟨up, hup, hpath⟩ := (reach_enrolled h).pathed _ _ child hchild
      obtain rfl := Option.some.inj (hid.symm.trans hup)
      refine .inr ⟨child, hchild, hpath, hstate.imp (fun hsome => ?_) fun hletter => ?_⟩
      · exact Option.isSome_iff_ne_none.mp hsome
      · obtain ⟨p, hname, hletter⟩ := hletter
        exact ⟨p, hname, hletters hletter⟩
    · -- an actor that has terminated knows no child
      have hnew : nd.mbox.dispatcher.context = none := by
        by_contra hsome
        exact hserved fun hnone => absurd hnone hsome
      rw [hnew] at hgrows
      obtain ⟨option, found, hmem⟩ | ⟨running, hkid, -⟩ :=
        (ActorContext.Known.new fun _ => rfl : ActorContext.Known .new [] fun _ => none).entry_cases
          hgrows he
      · exact .inl ⟨option, found, hmem, rfl⟩
      · cases hkid

/-- The root has created the child "x", which has closed its mailbox after a stop. The
root is about to handle its second message. -/
def lateRun : List (NodeId × Action Nat) :=
  acting [] (Node.sending (.user 1) ++
      Node.callbacks [⟨.create, [], false⟩, ⟨.onEnter, [], false⟩] ++ Node.turns 3 ++
      Node.callbacks [⟨.onMessage, [.getOrCreateChild "x" 0 {}], false⟩]) ++
    acting [0] (Node.stopping ++ Node.callbacks [⟨.create, [], false⟩, ⟨.onEnter, [], false⟩] ++
      Node.turns 5) ++
    acting [] (Node.sending (.user 2) ++ Node.turns 4)

def lateTree : Tree Nat := (sample.exec sample.start lateRun).get (by decide +kernel)

theorem lateRun_tree : sample.exec sample.start lateRun = some lateTree :=
  (Option.some_get _).symm

theorem lateTree_root : (lateTree []).any (fun nd => nd.tasks.any Task.calls &&
    ((nd.mbox.dispatcher.context.getD .new).getOrCreateChild ⟨0, 0, 0⟩ "x" 0 {}).1 == some 0) =
      true := by
  decide +kernel

theorem lateTree_handles : ∃ nd, lateTree [] = some nd ∧ ∃ t ∈ nd.tasks, t.calls = true ∧
    ((nd.mbox.dispatcher.context.getD .new).getOrCreateChild ⟨0, 0, 0⟩ "x" 0 {}).1 = some 0 := by
  obtain ⟨nd, hid, hroot⟩ := (Option.any_eq_true _ _).mp lateTree_root
  obtain ⟨htasks, hchild⟩ := Bool.and_eq_true_iff.mp hroot
  obtain ⟨t, ht, hcalls⟩ := List.any_eq_true.mp htasks
  exact ⟨nd, hid, t, ht, hcalls, beq_iff_eq.mp hchild⟩

theorem late_child_current : ∃ nd, lateTree [] = some nd ∧ lateTree.Current [] nd "x"
    ([] ++ ((nd.mbox.dispatcher.context.getD .new).getOrCreateChild ⟨0, 0, 0⟩ "x" 0 {}).2.log)
    0 := by
  obtain ⟨nd, hid, t, ht, hcalls, hreturned⟩ := lateTree_handles
  exact ⟨nd, hid, get_or_create_child_returns (Reach.exec_reachable .start lateRun_tree) hid ht
    hcalls .refl _ _ _ _ 0 hreturned⟩

/-- No call returns a child of the tree that has closed its mailbox. -/
def YieldsLive (tree : Tree T) : Prop :=
  ∀ id nd t c events rt name messageType prop k child, tree id = some nd → t ∈ nd.tasks →
    t.calls = true → (nd.mbox.dispatcher.context.getD .new).Grows c events →
    (c.getOrCreateChild rt name messageType prop).1 = some k → tree (k :: id) = some child →
      child.mbox.terminated = false

/-- The handler asks for "x", and a message is told to what it gets. -/
def tellingRun : List (NodeId × Action Nat) :=
  acting [] (Node.callbacks [⟨.onMessage, [.getOrCreateChild "x" 0 {}], false⟩]) ++
    acting [0] [.call (.send (.user 7)), .client 0, .client 0]

theorem late_child_terminated : sample.Reachable lateTree ∧ ¬ YieldsLive lateTree ∧
    ((sample.exec lateTree tellingRun).bind fun tree => tree [0]).any
      (fun child => decide (.rejected (.user 7) ∈ child.mbox.log)) = true := by
  refine ⟨Reach.exec_reachable .start lateRun_tree, fun hlive => ?_, by decide +kernel⟩
  obtain ⟨nd, hid, t, ht, hcalls, hreturned⟩ := lateTree_handles
  have hclosed : (lateTree [0]).any (fun child => child.mbox.terminated) = true := by
    decide +kernel
  obtain ⟨child, hchild, hterminated⟩ := (Option.any_eq_true _ _).mp hclosed
  have hopen := hlive [] nd t _ [] ⟨0, 0, 0⟩ "x" 0 {} 0 child hid ht hcalls .refl hreturned hchild
  exact absurd (hterminated.symm.trans hopen) (by simp)

end Tree

end Ruactor
