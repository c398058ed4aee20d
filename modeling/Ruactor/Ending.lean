import Ruactor.BottomUp
import Ruactor.Progress

/-!
# The end of a whole tree

A step of a mailbox may push to its children and to its parent, so it may raise what they have
before them. A `ChildTerminate` is pushed once in the life of an actor, and a `Terminate` goes
down the tree: the measures of the deeper mailboxes stand behind those of the others. Without
new children the tree comes to rest, and whoever was sent a `Terminate` has then ended, with
all its descendants.
-/

namespace Ruactor

open Machine Weight Descent

variable {T : Type} {path : ActorPath} {option : PropsOption} {parent : ParentRef}

/-- The callbacks of the step create no child. -/
def Action.barren : Action T → Bool
  | .task _ input => input.calls.all fun cb => cb.ops.all fun op => !op.creates
  | _ => true

namespace Node

variable {nd nd' : Node T} {a : Action T}

theorem step_barren (h : (machine path option parent).Reachable nd) (ha : a.barren = true)
    (hstep : nd.step a = some nd') {events : List (Event T)}
    (hlog : nd'.mbox.log = nd.mbox.log ++ events) : ∀ e ∈ events, e.attempts = false := by
  obtain ⟨events', hlog', hlogs⟩ := step_logs h hstep
  obtain rfl := List.append_cancel_left (hlog.symm.trans hlog')
  intro e he
  cases hlogs e he with
  | watchReturned _ _ => rfl
  | sent hs => cases e <;> first | rfl | cases hs
  | @task i input t _ hi hact hphase hl =>
    cases hl with
    | called hcalls _ hparent _ =>
      have hwithin : Cell.Within (fun op => op.creates = false) input.calls := by
        simpa [Action.barren, Cell.Within] using ha
      have unwound : ∀ {p context} {log : List (Event T)}, Barren p context log →
          Barren p context (log ++ [.unwound]) := fun hb => hb.append (by simp [Event.attempts])
      have hnil : ∀ {p context}, Barren (T := T) p context [] := List.forall_mem_nil _
      cases step_move hstep with
      | reschedule hi' _ =>
        cases hi.symm.trans hi'
        cases hact
      | task hi' _ hr _ =>
        obtain rfl := Option.some.inj (hi.symm.trans hi')
        cases Mailbox.taskStep_move hr with
        | dead hnone => exact absurd hnone hparent
        | start _ hf =>
          have ho := barren_recorded.startActor
            (Mailbox.createContext_records (m := nd.mbox) hwithin hnil)
          obtain ⟨_, _, hbarren⟩ := Mailbox.finish_records hf ho unwound hlog
          exact hbarren e he
        | terminate hf =>
          obtain ⟨-, hactive⟩ := hphase
          obtain ⟨context, hcontext, -⟩ := hactive.context
          have ho := barren_recorded.terminateActor
            (fun hb => hb.append (by simp [Event.attempts]))
            (Mailbox.cell_records hwithin hcontext hnil)
          obtain ⟨_, _, hbarren⟩ := Mailbox.finish_records hf ho unwound hlog
          exact hbarren e he
        | @process n src msg r hf =>
          obtain ⟨-, hlive⟩ := hphase
          obtain ⟨context, hcontext, -⟩ := hlive.context
          have ho := barren_recorded.process
            (fun _ _ _ hb => hb.append (by simp [Event.attempts])) hlive.actor
            nd.mbox.numUserMessage src msg
            (Mailbox.cell_records hwithin hcontext hnil)
          obtain ⟨_, _, hbarren⟩ := Mailbox.finish_records hf ho unwound hlog
          exact hbarren e he
        | _ => cases hcalls
    | _ => rfl

/-- A notification of the parent takes a part of the actor's life. -/
theorem notifies_ages (hstep : nd.step a = some nd') {e : Event T} (h : nd.Logs a e)
    (he : e.notifies = true) : nd'.mbox.life nd'.tasks < nd.mbox.life nd.tasks := by
  cases h with
  | watchReturned _ _ => cases he
  | sent hs =>
    cases e <;> cases he
    cases hs
  | @task i input t _ hi hact hphase hl =>
    cases hl with
    | called _ hcalled _ _ =>
      cases e <;> cases he
      cases hcalled
    | notified hparent =>
      cases step_move hstep with
      | reschedule hi' _ => cases hi.symm.trans hi'
      | task hi' _ hr _ =>
        cases hi.symm.trans hi'
        cases Mailbox.taskStep_move hr with
        | orphan hnone => cases hnone.symm.trans hparent
        | notify _ =>
          simp only [Mailbox.life, hparent, Option.isNone_none, Option.isNone_some, if_true,
            Bool.false_eq_true, if_false]
          split_ifs <;> omega
    | _ => cases he

/-- What a push from outside leaves as it is. -/
def coarse : List (Node T → Nat) := measures.take 3

def fine : List (Node T → Nat) := measures.drop 3

theorem coarse_deliver {m : Node T → Nat} (hm : m ∈ coarse) (nd : Node T)
    (msg : InternalMessage) : m (nd.deliver msg) = m nd := by
  simp only [coarse, measures, List.take_succ_cons, List.take_zero, List.mem_cons,
    List.not_mem_nil, or_false] at hm
  rcases hm with rfl | rfl | rfl
  · rfl
  · rfl
  · simp [deliver, Mailbox.pushInternal, Mailbox.backlog, Client.offers]

end Node

namespace Tree

variable {tree tree' : Tree T} {id other : NodeId} {a : Action T} {nd nd' : Node T}
  {events : List (Event T)} {ids : List NodeId}

section Pushes

variable {α : Type} {f : Node T → α} (hf : ∀ nd msg, f (nd.deliver msg) = f nd)

include hf

theorem foldl_toChild_map {path : ActorPath} {k : ChildId}
    (hbarren : ∀ e ∈ events, e.births = false) (child : Option (Node T)) :
    (events.foldl (toChild path k) child).map f = child.map f := by
  induction events generalizing child with
  | nil => rfl
  | cons e events ih =>
    rw [List.foldl_cons, ih fun e' he' => hbarren e' (List.mem_cons_of_mem _ he')]
    have he := hbarren e List.mem_cons_self
    cases e with
    | childCreated _ _ _ _ => cases he
    | stopped k' =>
      simp only [toChild]
      split
      · cases child with
        | none => rfl
        | some nd => exact congrArg some (hf nd .terminate)
      · rfl
    | _ => rfl

theorem foldl_toParent_map {k : ChildId} (up : Option (Node T)) :
    (events.foldl (toParent k) up).map f = up.map f := by
  induction events generalizing up with
  | nil => rfl
  | cons e events ih =>
    rw [List.foldl_cons, ih]
    cases e with
    | notified p path =>
      cases p with
      | guard => rfl
      | actor =>
        cases up with
        | none => rfl
        | some nd => exact congrArg some (hf nd (.childTerminate path k))
    | _ => rfl

/-- The other nodes stay where they are, and keep what a push leaves as it is. -/
theorem spread_map (hbarren : ∀ e ∈ events, e.births = false) (hself : other ≠ id) :
    (tree.spread id nd events other).map f = (tree other).map f := by
  by_cases hchild : ∃ k, other = k :: id
  · obtain ⟨k, rfl⟩ := hchild
    rw [spread_child]
    exact foldl_toChild_map hf hbarren _
  by_cases hparent : ∃ k, id = k :: other
  · obtain ⟨k, rfl⟩ := hparent
    rw [spread_parent]
    exact foldl_toParent_map hf _
  · rw [spread_other tree nd events hself (fun k hk => hchild ⟨k, hk⟩)
      fun k hk => hparent ⟨k, hk⟩]

end Pushes

/-- A step that does not notify the parent changes nothing in the nodes that are no deeper. -/
theorem spread_same (hsilent : ∀ e ∈ events, e.notifies = false) (hself : other ≠ id)
    (hlength : other.length ≤ id.length) : tree.spread id nd events other = tree other := by
  by_cases hparent : ∃ k, id = k :: other
  · obtain ⟨k, rfl⟩ := hparent
    rw [spread_parent, foldl_toParent_silent k hsilent]
  · refine spread_other tree nd events hself (fun k hk => ?_) fun k hk => hparent ⟨k, hk⟩
    rw [hk, List.length_cons] at hlength
    omega

/-- The sum of a measure over the nodes `ids`. -/
def total (ids : List NodeId) (m : Node T → Nat) (tree : Tree T) : Nat :=
  weigh (fun id => ((tree id).map m).getD 0) ids

theorem total_follows {m : Node T → Nat} (hmem : id ∈ ids) (hid : tree id = some nd)
    (hid' : tree' id = some nd')
    (hothers : ∀ other ∈ ids, other ≠ id → (tree' other).map m = (tree other).map m) :
    (m nd' ≤ m nd → total ids m tree' ≤ total ids m tree) ∧
      (m nd' < m nd → total ids m tree' < total ids m tree) := by
  have hle : m nd' ≤ m nd → ∀ other ∈ ids,
      ((tree' other).map m).getD 0 ≤ ((tree other).map m).getD 0 := by
    intro h other hother
    by_cases hself : other = id
    · simpa [hself, hid, hid'] using h
    · rw [hothers other hother hself]
  exact ⟨fun h => weigh_mono (hle h),
    fun h => weigh_lt (hle h.le) hmem (by simpa [hid, hid'] using h)⟩

/-- What a push changes is counted for each depth. -/
def measures (ids : List NodeId) (depth : Nat) : List (Tree T → Nat) :=
  Node.coarse.map (total ids) ++
    (List.range (depth + 1)).flatMap fun d =>
      Node.fine.map (total (ids.filter fun id => id.length = d))

theorem step_below {depth : Nat} (hof : tree.StepOf tree' id a nd nd')
    (ha : a.inward = true) (hbarren : a.barren = true)
    (hids : ∀ id nd, tree id = some nd → id ∈ ids) (hdepth : ∀ id ∈ ids, id.length ≤ depth) :
    Below (measures ids depth) tree' tree := by
  obtain ⟨_, _, _, hown⟩ := hof.reachable
  have hbelow : Below (Node.coarse ++ Node.fine) nd' nd := Node.step_below hown ha hof.step
  have hbirths : ∀ e ∈ tree.events (id, a), e.births = false := fun e he =>
    Event.births_of_attempts (Node.step_barren hown hbarren hof.step hof.kin.log e he)
  have hmem := hids id nd hof.node
  have hid' : tree' id = some nd' := by rw [hof.spread, spread_self]
  have hcoarse : ∀ m ∈ Node.coarse, (m nd' ≤ m nd → total ids m tree' ≤ total ids m tree) ∧
      (m nd' < m nd → total ids m tree' < total ids m tree) := by
    intro m hm
    refine total_follows hmem hof.node hid' fun other _ hself => ?_
    rw [hof.spread]
    exact spread_map (Node.coarse_deliver hm) hbirths hself
  obtain hlow | ⟨hsame, hlow⟩ := hbelow.append_cases
  · exact .append_left (.lift hcoarse hlow)
  · refine .append_right ?_ ?_
    · intro g hg
      obtain ⟨m, hm, rfl⟩ := List.mem_map.mp hg
      exact (hcoarse m hm).1 (hsame m hm).le
    -- the life of the actor is what it was, so the parent has heard nothing
    have hsilent : ∀ e ∈ tree.events (id, a), e.notifies = false := by
      intro e he
      by_contra hne
      have hage := Node.notifies_ages hof.step (hof.logs e he) (by simpa using hne)
      have hlife : nd'.mbox.life nd'.tasks = nd.mbox.life nd.tasks :=
        hsame (fun nd => nd.mbox.life nd.tasks) (List.mem_cons_of_mem _ List.mem_cons_self)
      omega
    have hfar : ∀ other, other ≠ id → other.length ≤ id.length → tree' other = tree other := by
      intro other hself hlength
      rw [hof.spread]
      exact spread_same hsilent hself hlength
    obtain ⟨k, hk⟩ := Nat.exists_eq_add_of_le (hdepth id hmem)
    have hrange : List.range (depth + 1) =
        List.range id.length ++ id.length :: (List.range k).map (id.length + 1 + ·) := by
      rw [hk, Nat.add_assoc, List.range_add, Nat.add_comm k 1, List.range_add]
      simp [Nat.add_assoc]
    rw [hrange, List.flatMap_append, List.flatMap_cons]
    refine .append_right ?_ (.append_left (.lift ?_ hlow))
    · intro g hg
      obtain ⟨d, hd, hg⟩ := List.mem_flatMap.mp hg
      obtain ⟨m, -, rfl⟩ := List.mem_map.mp hg
      refine weigh_mono fun other hother => ?_
      have hlength : other.length < id.length := by
        obtain ⟨-, rfl⟩ : other ∈ ids ∧ other.length = d := by simpa using hother
        exact List.mem_range.mp hd
      have hself : other ≠ id := by
        rintro rfl
        exact lt_irrefl _ hlength
      rw [hfar other hself hlength.le]
    · intro m _
      refine total_follows (by simpa using hmem) hof.node hid' fun other hother hself => ?_
      have hlength : other ∈ ids ∧ other.length = id.length := by simpa using hother
      rw [hfar other hself hlength.2.le]

/-- The clock of somebody in the tree goes on. -/
def idle (tree : Tree T) (step : NodeId × Action T) : Prop := Proper tree step ∧ step.2.idle

end Tree

end Ruactor
