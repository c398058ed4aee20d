import Ruactor.Farewell
import Ruactor.Tracking

/-!
# A terminated actor has no running child

`terminate` begins with an empty map, and an actor whose last `on_exit` creates no
child has none later. By the account of its children none of them is left.
-/

namespace Ruactor

open Machine

variable {T : Type} {path : ActorPath} {option : PropsOption} {parent : ParentRef}

def Barren (_ : Option ParentRef) (_ : ActorContext T) (events : List (Event T)) : Prop :=
  ∀ e ∈ events, e.attempts = false

theorem Barren.append {p p' : Option ParentRef} {c c' : ActorContext T}
    {events log : List (Event T)} (h : Barren p c events) (hlog : ∀ e ∈ log, e.attempts = false) :
    Barren p' c' (events ++ log) :=
  fun e he => (List.mem_append.mp he).elim (h e) (hlog e)

theorem barren_recorded :
    Cell.Recorded (fun op : ContextOp T => op.creates = false) Barren where
  op {p rt c events} op hop h := h.append (op.apply_barren rt c (ContextOp.target_eq_none hop)).log
  stopSelf h := h.append (by simp [Event.attempts])
  timeout {p rt c events} d h := h.append (c.armReceiveTimeout_barren rt d).log
  event he h := h.append (by simpa using (Event.routine_barren he).1)
  actor h := h

namespace Node

def bearsLast (nd : Node T) : Action T → Bool
  | .task i input =>
    (nd.tasks[i]?).any Task.leaves && input.calls.any fun cb => cb.ops.any ContextOp.creates
  | _ => false

theorem last_barren {nd nd' : Node T} {i n : Nat} {input : TaskInput T}
    {events : List (Event T)} (hi : nd.tasks[i]? = some (.looping n .terminating))
    (hphase : nd.mbox.Phase (.looping n .terminating))
    (hlast : nd.bearsLast (.task i input) = false) (hstep : nd.step (.task i input) = some nd')
    (hlog : nd'.mbox.log = nd.mbox.log ++ events) : ∀ e ∈ events, e.births = false := by
  obtain ⟨-, -, -, context, hcontext, -⟩ := hphase
  have hwithin : Cell.Within (fun op => op.creates = false) input.calls := by
    simpa [bearsLast, hi, Task.leaves, Cell.Within] using hlast
  cases step_move hstep with
  | reschedule hi' _ => simp [hi] at hi'
  | task hi' _ hr =>
    obtain rfl := Option.some.inj (hi.symm.trans hi')
    cases Mailbox.taskStep_move hr with
    | terminate hf =>
      have hj : Barren nd.mbox.dispatcher.parent context [] := List.forall_mem_nil _
      have ho := barren_recorded.terminateActor (fun hb => hb.append (by simp [Event.attempts]))
        (Mailbox.cell_records hwithin hcontext hj)
      obtain ⟨_, _, hbarren⟩ := Mailbox.finish_records hf ho
        (fun hb => hb.append (by simp [Event.attempts])) hlog
      exact fun e he => Event.births_of_attempts (hbarren e he)

theorem begins_childless {nd : Node T} {a : Action T} (h : nd.Logs a .terminating) :
    ∃ i input n context, a = .task i input ∧ nd.tasks[i]? = some (.looping n .terminating) ∧
      nd.mbox.Phase (.looping n .terminating) ∧ nd.mbox.dispatcher.context = some context ∧
      context.childrens.entries = [] := by
  cases h with
  | @task i input t _ hi hact hphase hl =>
    obtain ⟨n, rfl⟩ := Task.leaves_iff.mp (hl.terminating_leaves rfl)
    have hphase' := hphase
    obtain ⟨-, -, -, context, hcontext, -, -, hempty⟩ := hphase'
    exact ⟨i, input, n, context, rfl, hi, hphase, hcontext, hempty⟩
  | sent hs => cases hs

theorem closed_barren {nd nd' : Node T} {a : Action T} {events : List (Event T)}
    (hlast : nd.bearsLast a = false) (hstep : nd.step a = some nd')
    (hlog : nd'.mbox.log = nd.mbox.log ++ events) (hlogs : ∀ e ∈ events, nd.Logs a e)
    (hclosed : nd.mbox.terminated = true) : ∀ e ∈ events, e.births = false := by
  intro e he
  cases hlogs e he with
  | @task i input t _ hi hact hphase hl =>
    cases hl with
    | called _ _ _ hopen =>
      cases hleaves : t.leaves with
      | true =>
        obtain ⟨n, rfl⟩ := Task.leaves_iff.mp hleaves
        exact last_barren hi hphase hlast hstep hlog e he
      | false => exact absurd (hclosed.symm.trans (hopen hleaves)) (by simp)
    | _ => rfl
  | watchReturned _ _ => rfl
  | sent hs => cases e <;> first | rfl | cases hs

end Node

namespace Tree

/-- No child takes the place of another, and the last `on_exit` creates none. -/
def Orderly (tree : Tree T) (step : NodeId × Action T) : Prop :=
  Distinct tree step ∧ ∀ nd ∈ tree step.1, nd.bearsLast step.2 = false

instance (tree : Tree T) (step : NodeId × Action T) : Decidable (Orderly tree step) :=
  inferInstanceAs (Decidable (_ ∧ ∀ nd ∈ tree step.1, _ = _))

/-- Once `terminate` has begun, no child has a parent. -/
def Orphaned (tree : Tree T) : Prop :=
  ∀ id nd, tree id = some nd → .terminating ∈ nd.mbox.log →
    ∀ k child, tree (k :: id) = some child → child.mbox.dispatcher.parent = none

/-- A property of the node after the step that only the node's own steps can bring about. -/
theorem spread_back {tree : Tree T} {id other : NodeId} {nd x : Node T} {events : List (Event T)}
    {P : Node T → Prop} (deliver : ∀ {x msg}, P (x.deliver msg) → P x)
    (born : ∀ path name option, ¬ P (birth path name option)) (hself : other ≠ id)
    (hx : tree.spread id nd events other = some x) (hp : P x) :
    ∃ x₀, tree other = some x₀ ∧ P x₀ := by
  have back : ∀ x, tree.spread id nd events other = some x → P x →
      ∃ x₀, tree other = some x₀ ∧ P x₀ :=
    spread_keeps (fun _ hback hp => hback (deliver hp))
      (fun _ name option _ _ _ hp => absurd hp (born _ name option)) hself
      fun x₀ hx₀ hp => ⟨x₀, hx₀, hp⟩
  exact back x hx hp

theorem spread_kids_running {tree : Tree T} {id other : NodeId} {nd nd' : Node T}
    {events : List (Event T)} (hid : tree id = some nd)
    (hkin : Mailbox.Kin nd.letters nd'.letters nd.mbox nd'.mbox events) (hself : other ≠ id)
    {k : ChildId} {name : String}
    (hk : (tree.spread id nd' events).kids other k = some (name, true)) :
    ∃ name', tree.kids other k = some (name', true) := by
  by_cases hparent : ∃ k', id = k' :: other
  · obtain ⟨k', rfl⟩ := hparent
    rw [spread_kids_parent] at hk
    by_cases hk' : k = k'
    · subst hk'
      rw [Function.update_self, Option.some.injEq] at hk
      have hsome : nd'.mbox.dispatcher.parent.isSome := congrArg Prod.snd hk
      have hparent : nd.mbox.dispatcher.parent.isSome := by
        rcases hkin.parent with ⟨hsame, -⟩ | ⟨p, hp, -⟩
        · exact hsame ▸ hsome
        · simp [hp]
      exact ⟨nd.mbox.path.key, by simp [kids, hid, Node.badge, hparent]⟩
    · rw [Function.update_of_ne hk'] at hk
      exact ⟨name, hk⟩
  · rw [spread_kids_other tree nd' events hself fun k' hk' => hparent ⟨k', hk'⟩] at hk
    exact ⟨name, hk⟩

theorem kids_running {tree : Tree T} {id : NodeId} {k : ChildId} {name : String}
    (h : tree.kids id k = some (name, true)) :
    ∃ child, tree (k :: id) = some child ∧ child.mbox.dispatcher.parent ≠ none := by
  obtain ⟨child, hchild, hbadge⟩ := Option.map_eq_some_iff.mp h
  have hsome : child.mbox.dispatcher.parent.isSome := congrArg Prod.snd hbadge
  exact ⟨child, hchild, Option.isSome_iff_ne_none.mp hsome⟩

/-- The children of an actor that has ended have ended. -/
theorem Orphaned.below {tree : Tree T} (h : Orphaned tree) {id : NodeId} {nd child : Node T}
    (hown : (Node.machine path option parent).Reachable nd) (hid : tree id = some nd)
    (hgone : nd.mbox.dispatcher.parent = none) {k : ChildId} (hchild : tree (k :: id) = some child) :
    child.mbox.dispatcher.parent = none := by
  have hleft := ((Node.reachable_leaving hown).inv.farewell hgone).left
  exact h id nd hid hleft.terminating k child hchild

theorem Orphaned.step {tree tree' : Tree T} {id : NodeId} {a : Action T} {nd nd' : Node T}
    (h : Orphaned tree) (hof : tree.StepOf tree' id a nd nd') (htracked : AllTracked tree)
    (hlast : nd.bearsLast a = false) : Orphaned tree' := by
  intro other x hx hmem k child hchild
  rw [hof.spread] at hx hchild
  by_contra hparent
  have hkid : (tree.spread id nd' (tree.events (id, a))).kids other k =
      some (child.mbox.path.key, true) := by
    simp [kids, hchild, Node.badge, Option.isSome_iff_ne_none.mpr hparent]
  by_cases hself : other = id
  · subst hself
    rw [spread_self] at hx
    cases hx
    rw [spread_kids_self] at hkid
    have same : (∀ e ∈ tree.events (other, a), e.births = false) →
        tree.kids other k = some (child.mbox.path.key, true) := by
      intro hbarren
      rwa [foldl_bear_barren _ hbarren] at hkid
    rw [hof.kin.log] at hmem
    rcases List.mem_append.mp hmem with hbegun | hbegins
    · -- no child is created once `terminate` has begun
      obtain ⟨_, _, _, hown⟩ := hof.reachable
      obtain ⟨child₀, hchild₀, hne⟩ := kids_running (same fun e he => by
        simpa using fun hb => Node.births_before hown (hof.logs e he) hb hbegun)
      exact hne (h other nd hof.node hbegun k child₀ hchild₀)
    · -- the map is empty when it begins
      obtain ⟨i, input, n, context, rfl, hi, hphase, hcontext, hempty⟩ :=
        Node.begins_childless (hof.logs _ hbegins)
      have hbarren := Node.last_barren hi hphase hlast hof.step hof.kin.log
      obtain ⟨child₀, hchild₀, hne⟩ := kids_running (same hbarren)
      obtain ⟨entry, hentry, -⟩ := htracked other nd context k child₀ hof.node hcontext hchild₀ hne
      have hin := AList.mem_lookup_iff.mp hentry
      simp [hempty] at hin
  · obtain ⟨x₀, hx₀, hmem₀⟩ := spread_back (P := fun x => .terminating ∈ x.mbox.log)
      (fun h => by simpa [Node.deliver, Mailbox.pushInternal] using h)
      (by simp [birth, Node.deliver, Node.new, Mailbox.pushInternal, Mailbox.new]) hself hx hmem
    obtain ⟨name, hkid₀⟩ := spread_kids_running hof.node hof.kin hself hkid
    obtain ⟨child₀, hchild₀, hne⟩ := kids_running hkid₀
    exact hne (h other x₀ hx₀ hmem₀ k child₀ hchild₀)

theorem reach_orphaned {ok : Tree T → NodeId × Action T → Prop}
    (hok : ∀ tree step, ok tree step → Orderly tree step) {tree : Tree T}
    (h : (machine path option).Reach ok tree) : Orphaned tree := by
  refine h.invariant (P := Orphaned) ?_ fun {tree tree' step} hr hs allowed hstep => ?_
  · intro id nd hid hmem
    obtain ⟨-, rfl⟩ := start_some hid
    cases hmem
  obtain ⟨id, a⟩ := step
  obtain ⟨nd, nd', hof⟩ := step_of hr hstep
  have hfamily := reach_family (fun _ _ ok => (hok _ _ ok).1) hr
  exact hs.step hof hfamily.allTracked ((hok _ _ allowed).2 nd hof.node)

end Tree

end Ruactor
