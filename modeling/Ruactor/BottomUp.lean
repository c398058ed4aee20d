import Ruactor.Proper
import Ruactor.Stopping

/-!
# Bottom-up termination

A closed actor has sent `Terminate` to every child that is left in its map. When the
whole tree has come to rest, such a child has ended, by induction from the leaves, and
then its entry is gone too: the actor has ended, and all its descendants with it.
-/

namespace Ruactor

open Machine

variable {T : Type} {path : ActorPath} {option : PropsOption} {parent : ParentRef}

def Event.newborn : Event T → Option ChildId
  | .childCreated k _ _ _ => some k
  | _ => none

namespace Node

/-- A node at rest: nobody holds the dispatcher, and the internal queue is empty. -/
structure Still (nd : Node T) : Prop where
  rest : nd.mbox.Rest
  stopped : nd.mbox.StoppedBut []
  letters : nd.letters = []
  closed : .pushedInternal .terminate ∈ nd.mbox.log → nd.mbox.terminated = true

theorem quiescent_still {nd : Node T} (h : (machine path option parent).Reach calm nd)
    (hq : Quiescent nd) : Still nd := by
  have hr := h.reachable
  have hcovered := reach_covered (calm_reach h)
  obtain ⟨htasks, hclients⟩ := hq
  have hidle : nd.mbox.running = false := by
    by_contra hrun
    obtain ⟨t, ht, -⟩ := hcovered.held (by simpa using hrun)
    simp [htasks] at ht
  have hqueue : nd.mbox.internalQueue = [] := by
    by_contra hne
    rcases hcovered.internal hne with ⟨t, ht⟩ | ⟨c, hc, hp⟩
    · simp [htasks] at ht
    · simp [hclients c hc] at hp
  refine ⟨(reachable_phase hr).rest hidle, (reachable_stopping hr).rest hidle, ?_,
    fun hpushed => ?_⟩
  · simp [letters, Mailbox.letters, hqueue, htasks]
  · rcases reachable_asked hr hpushed with hclosed | hmem | ⟨n, hmem⟩
    · exact hclosed
    · simp [hqueue] at hmem
    · simp [htasks] at hmem

end Node

namespace Tree

theorem spread_grown {tree : Tree T} {id other : NodeId} {nd x' : Node T}
    {events : List (Event T)} (hself : other ≠ id)
    (hx : tree.spread id nd events other = some x') :
    (∃ x, tree other = some x ∧ ∀ e ∈ x.mbox.log, e ∈ x'.mbox.log) ∨
      ∃ k name option found, other = k :: id ∧
        .childCreated k name option found ∈ events := by
  refine spread_keeps (P := fun x' => (∃ x, tree other = some x ∧ ∀ e ∈ x.mbox.log,
    e ∈ x'.mbox.log) ∨ ∃ k name option found, other = k :: id ∧
      .childCreated k name option found ∈ events) ?_ ?_ hself ?_ x' hx
  · rintro y msg (⟨x, hx, hsub⟩ | hborn)
    · exact .inl ⟨x, hx, fun e he => List.mem_append_left _ (hsub e he)⟩
    · exact .inr hborn
  · exact fun k name option found hk he => .inr ⟨k, name, option, found, hk, he⟩
  · exact fun x hx => .inl ⟨x, hx, fun _ he => he⟩

theorem foldl_stopped {path : ActorPath} {k : ChildId} {events : List (Event T)}
    (hmem : .stopped k ∈ events) (hbarren : ∀ e ∈ events, e.births = false)
    {child : Option (Node T)} {x : Node T} (hx : events.foldl (toChild path k) child = some x) :
    .pushedInternal .terminate ∈ x.mbox.log := by
  induction events generalizing child with
  | nil => cases hmem
  | cons e events ih =>
    have hrest : ∀ e ∈ events, e.births = false := fun e he => hbarren e (List.mem_cons_of_mem _ he)
    by_cases hlater : .stopped k ∈ events
    · exact ih hlater hrest hx
    · obtain rfl : .stopped k = e := (List.mem_cons.mp hmem).resolve_right hlater
      refine foldl_toChild (P := fun x => .pushedInternal .terminate ∈ x.mbox.log)
        (fun h => List.mem_append_left _ h) events
        (fun name option found he => by simpa [Event.births] using hrest _ he) ?_ x hx
      intro y hy
      simp only [toChild, if_true] at hy
      obtain ⟨z, -, rfl⟩ := Option.map_eq_some_iff.mp hy
      exact List.mem_append_right _ (List.mem_singleton_self _)

/-- A child that was stopped was sent `Terminate`. -/
def Passed (tree : Tree T) : Prop :=
  ∀ id nd k child, tree id = some nd → .stopped k ∈ nd.mbox.log → tree (k :: id) = some child →
    .pushedInternal .terminate ∈ child.mbox.log

theorem reach_passed {tree : Tree T} (h : (machine path option).Reach Orderly tree) :
    Passed tree := by
  refine h.invariant (P := Passed) ?_ fun {tree tree' step} hr hs ok hstep => ?_
  · intro id nd k child _ _ hchild
    cases (start_some hchild).1
  obtain ⟨id, a⟩ := step
  obtain ⟨nd, nd', hof⟩ := step_of hr hstep
  intro other x k child hx hmem hchild
  rw [hof.spread] at hx hchild
  by_cases hself : other = id
  · subst hself
    rw [spread_self] at hx
    cases hx
    rw [spread_child] at hchild
    obtain ⟨_, _, _, hown⟩ := hof.reachable
    rw [hof.kin.log] at hmem
    have barren : nd.mbox.terminated = true →
        ∀ e ∈ tree.events (other, a), e.births = false :=
      Node.closed_barren (ok.2 nd hof.node) hof.step hof.kin.log hof.logs
    rcases List.mem_append.mp hmem with hold | hnew
    · have hbarren := barren ((Node.reachable_stopping hown).inv k hold)
      exact foldl_toChild (P := fun x => .pushedInternal .terminate ∈ x.mbox.log)
        (fun h => List.mem_append_left _ h) _
        (fun name option found he => by simpa [Event.births] using hbarren _ he)
        (fun x hx => hs other nd k x hof.node hold hx) child hchild
    · have hclosed : nd.mbox.terminated = true := by
        cases hof.logs _ hnew with
        | task _ _ hphase hl =>
          cases hl with
          | called _ hcalled _ _ => cases hcalled
          | stopped _ => exact hphase.1
        | sent hs => cases hs
      exact foldl_stopped hnew (barren hclosed) hchild
  · obtain ⟨x₀, hx₀, hmem₀⟩ := spread_back (P := fun x => .stopped k ∈ x.mbox.log)
      (fun h => by simpa [Node.deliver, Mailbox.pushInternal] using h)
      (by simp [birth, Node.deliver, Node.new, Mailbox.pushInternal, Mailbox.new]) hself hx hmem
    by_cases hmine : k :: other = id
    · subst hmine
      rw [spread_self] at hchild
      cases hchild
      rw [hof.kin.log]
      exact List.mem_append_left _ (hs other x₀ k nd hx₀ hmem₀ hof.node)
    · obtain ⟨child₀, hchild₀, hsub⟩ | ⟨k', _, _, _, hk, -⟩ := spread_grown hmine hchild
      · exact hsub _ (hs other x₀ k child₀ hx₀ hmem₀ hchild₀)
      · exact absurd (List.cons.inj hk).2 hself

theorem reach_depth {ok : Tree T → NodeId × Action T → Prop} {tree : Tree T}
    (h : (machine path option).Reach ok tree) :
    ∃ depth, ∀ id nd, tree id = some nd → id.length ≤ depth := by
  refine h.invariant (P := fun tree : Tree T => ∃ depth, ∀ id nd, tree id = some nd →
    id.length ≤ depth) ⟨0, fun id nd hid => ?_⟩ fun {tree tree' step} hr hs _ hstep => ?_
  · simp [(start_some hid).1]
  · obtain ⟨id, a⟩ := step
    obtain ⟨nd, nd', hof⟩ := step_of hr hstep
    obtain ⟨depth, hdepth⟩ := hs
    have hid := hdepth id nd hof.node
    refine ⟨depth + 1, fun other x hx => ?_⟩
    rw [hof.spread] at hx
    by_cases hself : other = id
    · subst hself
      exact Nat.le_succ_of_le hid
    · obtain ⟨x₀, hx₀, -⟩ | ⟨k, _, _, _, rfl, -⟩ := spread_grown hself hx
      · exact Nat.le_succ_of_le (hdepth other x₀ hx₀)
      · exact Nat.succ_le_succ hid

theorem Proper.calm {tree : Tree T} {id : NodeId} {a : Action T} {nd : Node T}
    (h : Proper tree (id, a)) : Node.calm nd a := by
  cases a with
  | task i input =>
    intro t _ cb hcb _
    exact Callback.proper_panics (List.all_eq_true.mp h.1 cb hcb)
  | _ => trivial

def Quiet (tree : Tree T) : Prop := ∀ id nd, tree id = some nd → nd.Quiescent

theorem quiet_still {tree : Tree T} (h : (machine path option).Reach Proper tree)
    (hq : Quiet tree) {id : NodeId} {nd : Node T} (hid : tree id = some nd) : nd.Still := by
  have hgrown : Grown Node.calm nd :=
    reach_grown (fun ok _ => ok.calm) (fun _ _ => trivial) h id nd hid
  obtain ⟨_, _, _, hreach⟩ := hgrown
  exact Node.quiescent_still hreach (hq id nd hid)

/-- In a tree at rest, a node that was sent `Terminate` has ended. The induction is on the
depth that is left below the node. -/
theorem asked_gone {tree : Tree T} (h : (machine path option).Reach Proper tree)
    (hq : Quiet tree) {depth : Nat} (hdepth : ∀ id nd, tree id = some nd → id.length ≤ depth)
    (below : Nat) : ∀ id nd, tree id = some nd → depth < id.length + below →
      .pushedInternal .terminate ∈ nd.mbox.log → nd.mbox.dispatcher.Gone true := by
  have horderly := reach_orderly h
  have hfamily := reach_family (fun _ _ ok => ok.1) horderly
  induction below with
  | zero => exact fun id nd hid hlt _ => absurd (hdepth id nd hid) (Nat.not_le.mpr hlt)
  | succ below ih =>
    intro id nd hid hlt hpushed
    have hstill := quiet_still h hq hid
    have hclosed := hstill.closed hpushed
    have hrest : nd.mbox.dispatcher.Rest true := hclosed ▸ hstill.rest
    rcases hrest with hfresh | hlive | hgone
    · exact absurd hfresh.accepting (by simp)
    · -- a closed actor that has not ended has a child left in its map
      obtain ⟨context, hcontext, -, -, hchildren⟩ := hlive.context
      obtain ⟨⟨name, entry⟩, hentry⟩ := List.exists_mem_of_ne_nil _ (hchildren rfl)
      have hlookup : context.childrens.lookup name = some entry := AList.mem_lookup_iff.mpr hentry
      have ht := hfamily.linked id nd hid fun hn => absurd (hn.symm.trans hcontext) (by simp)
      rw [hcontext, Option.getD_some, hstill.letters] at ht
      have hcreated := ht.entry name entry hlookup
      obtain ⟨⟨name', running⟩, hkid, rfl⟩ : ∃ kid, tree.kids id entry.child = some kid ∧
          kid.1 = name := by simpa [hcreated] using ht.born entry.child
      obtain ⟨child, hchild, hbadge⟩ := Option.map_eq_some_iff.mp hkid
      -- it was stopped, so it has ended, and its notification has been dealt with
      have hstopped : .stopped entry.child ∈ nd.mbox.log :=
        (hstill.stopped hclosed context _ entry hcontext hlookup).resolve_left List.not_mem_nil
      have hgone := ih (entry.child :: id) child hchild (by simp only [List.length_cons]; omega)
        (reach_passed horderly id nd _ child hid hstopped hchild)
      have hrunning : running = false := by
        have := congrArg Prod.snd hbadge
        simpa [Node.badge, hgone.parent] using this.symm
      have hb := ht.balance entry.child _ _ hkid
      simp [hrunning, ActorContext.tracks, hlookup] at hb
    · exact hgone

theorem orphan_farewell {ok : Tree T → NodeId × Action T → Prop} {tree : Tree T}
    (h : (machine path option).Reach ok tree) {id : NodeId} {nd : Node T} (hid : tree id = some nd)
    (hparent : nd.mbox.dispatcher.parent = none) : Farewell nd.mbox.path nd.mbox.log := by
  obtain ⟨_, _, _, hown⟩ := reachable_node h hid
  exact (Node.reachable_leaving hown).inv.farewell hparent

theorem descendants_orphaned {tree : Tree T} (h : (machine path option).Reach Orderly tree)
    {id : NodeId} {nd : Node T} (hid : tree id = some nd)
    (hparent : nd.mbox.dispatcher.parent = none) (below : NodeId) :
    ∀ x, tree (below ++ id) = some x → x.mbox.dispatcher.parent = none := by
  have hfamily := reach_family (fun _ _ ok => ok.1) h
  induction below with
  | nil =>
    intro x hx
    obtain rfl := Option.some.inj (hid.symm.trans hx)
    exact hparent
  | cons k below ih =>
    intro x hx
    cases hup : tree (below ++ id) with
    | none => exact absurd (hx.symm.trans (hfamily.closed k _ hup)) (by simp)
    | some y =>
      obtain ⟨_, _, _, hown⟩ := reachable_node h hup
      exact (reach_orphaned (fun _ _ ok => ok) h).below hown hup (ih y hup) hx

/-- Whoever was sent a `Terminate` has ended where all is quiet, with all its descendants. -/
theorem descendants_gone {tree : Tree T} (h : (machine path option).Reach Proper tree)
    (hq : Quiet tree) {id below : NodeId} {nd x : Node T} (hid : tree id = some nd)
    (hpushed : .pushedInternal .terminate ∈ nd.mbox.log) (hx : tree (below ++ id) = some x) :
    x.mbox.dispatcher.Gone x.mbox.terminated ∧ Farewell x.mbox.path x.mbox.log := by
  obtain ⟨depth, hdepth⟩ := reach_depth h
  have hgone := asked_gone h hq hdepth (depth + 1) id nd hid (by omega) hpushed
  have hparent := descendants_orphaned (reach_orderly h) hid hgone.parent below x hx
  refine ⟨?_, orphan_farewell h hx hparent⟩
  rcases (quiet_still h hq hx).rest with hfresh | hlive | hgone'
  · exact absurd hparent hfresh.parent
  · exact absurd hparent hlive.parent
  · exact hgone'

structure BottomUp (tree : Tree T) : Prop where
  once : ∀ id nd, tree id = some nd → nd.mbox.log.countP Event.leaves ≤ 1
  childrenFirst : ∀ id nd k child, tree id = some nd → .terminating ∈ nd.mbox.log →
    tree (k :: id) = some child → Farewell child.mbox.path child.mbox.log
  settled : Quiet tree → ∀ id nd below x, tree id = some nd →
    .pushedInternal .terminate ∈ nd.mbox.log → tree (below ++ id) = some x →
      x.mbox.dispatcher.Gone x.mbox.terminated ∧ Farewell x.mbox.path x.mbox.log

theorem bottom_up {tree : Tree T} (h : (machine path option).Reach Proper tree) :
    BottomUp tree where
  once id nd hid := by
    obtain ⟨_, _, _, hown⟩ := reachable_node h hid
    exact (Node.reachable_leaving hown).inv.count
  childrenFirst id nd k child hid hmem hchild :=
    orphan_farewell h hchild
      (reach_orphaned (fun _ _ ok => ok) (reach_orderly h) id nd hid hmem k child hchild)
  settled hq _ _ _ _ hid hpushed hx := descendants_gone h hq hid hpushed hx

def Peopled (ids : List NodeId) (tree : Tree T) (step : NodeId × Action T) : Prop :=
  ∀ e ∈ tree.events step, ∀ k ∈ e.newborn, k :: step.1 ∈ ids

instance (ids : List NodeId) (tree : Tree T) (step : NodeId × Action T) :
    Decidable (Peopled ids tree step) :=
  inferInstanceAs (Decidable (∀ e ∈ tree.events step, ∀ k ∈ e.newborn, k :: step.1 ∈ ids))

theorem reach_peopled {ids : List NodeId} (hroot : [] ∈ ids) {tree : Tree T}
    (h : (machine path option).Reach (Peopled ids) tree) :
    ∀ id nd, tree id = some nd → id ∈ ids := by
  refine h.invariant (P := fun tree : Tree T => ∀ id nd, tree id = some nd → id ∈ ids)
    (fun id nd hid => ?_) fun {tree tree' step} hr hs ok hstep => ?_
  · exact (start_some hid).1 ▸ hroot
  · obtain ⟨id, a⟩ := step
    obtain ⟨nd, nd', hof⟩ := step_of hr hstep
    intro other x hx
    rw [hof.spread] at hx
    by_cases hself : other = id
    · exact hself ▸ hs id nd hof.node
    · obtain ⟨x₀, hx₀, -⟩ | ⟨k, _, _, _, rfl, he⟩ := spread_grown hself hx
      · exact hs other x₀ hx₀
      · exact ok _ he k rfl

theorem ended_quiet : Quiet endedTree := by
  have hids : ∀ id nd, endedTree id = some nd → id ∈ [[], [0]] :=
    reach_peopled (by simp) (Reach.exec .start
      (by decide +kernel : sample.Allows (Peopled [[], [0]]) _ endingRun) endingRun_tree)
  have hroot : ∀ nd ∈ endedTree [], nd.Quiescent := by decide +kernel
  have hchild : ∀ nd ∈ endedTree [0], nd.Quiescent := by decide +kernel
  intro id nd hid
  have hmem := hids id nd hid
  simp only [List.mem_cons, List.not_mem_nil, or_false] at hmem
  rcases hmem with rfl | rfl
  · exact hroot nd hid
  · exact hchild nd hid

theorem bottom_up_ending : BottomUp endedTree ∧ ∀ id x, endedTree id = some x →
    x.mbox.dispatcher.Gone x.mbox.terminated ∧ Farewell x.mbox.path x.mbox.log := by
  have h : BottomUp endedTree := bottom_up (Reach.exec .start
    (by decide +kernel : sample.Allows Proper _ endingRun) endingRun_tree)
  have hroot : (endedTree []).isSome := by decide +kernel
  obtain ⟨root, hid⟩ := Option.isSome_iff_exists.mp hroot
  have hasked : ∀ nd ∈ endedTree [], .pushedInternal .terminate ∈ nd.mbox.log := by decide +kernel
  refine ⟨h, fun id x hx => h.settled ended_quiet [] root id x hid (hasked root hid) ?_⟩
  rwa [List.append_nil]

end Tree

end Ruactor
