import Ruactor.Naming

/-!
# What `create_child` returns

Generated names and the names of `get_or_create_child` are keys of one map, and
`create_child` takes what it finds there. Generated names do not meet each other while
the offset has not wrapped around, so only a name that a program chose itself can be in
the way. A name is taken also where the new mailbox cannot be built.
-/

namespace Ruactor

open Machine

variable {T : Type} {path : ActorPath} {option : PropsOption} {parent : ParentRef}

namespace ActorContext

/-- The contexts after the operations `ops` of an actor. Children terminate in between,
and the dispatcher changes what has nothing to do with children. -/
inductive After : List (ContextOp T) → ActorContext T → Prop
  | new : After [] .new
  | op {ops c} (rt : Runtime) (op : ContextOp T) : After ops c →
      After (ops ++ [op]) (op.apply rt c).context
  | childTerminate {ops c} (key : String) : After ops c →
      After ops { c with childrens := c.childrens.erase key }
  | other {ops c c'} : After ops c → c'.created = c.created → c'.childrens = c.childrens →
      c'.nextNameOffset = c.nextNameOffset → After ops c'

end ActorContext

/-- It takes a name from the supply. -/
def ContextOp.generates : ContextOp T → Bool
  | .createChild _ _ => true
  | _ => false

/-- How the names of the map came about, after `ops`. -/
structure Supplied (ops : List (ContextOp T)) (c : ActorContext T) : Prop where
  entry : ∀ name e, c.childrens.lookup name = some e → e.child < c.created.length
  offset : ops.countP ContextOp.generates < 2 ^ 64 →
    c.nextNameOffset = ops.countP ContextOp.generates
  name : ops.countP ContextOp.generates < 2 ^ 64 →
    ∀ name e, c.childrens.lookup name = some e →
      (∃ k < ops.countP ContextOp.generates, name = base64 k "$") ∨
        ∃ messageType prop, .getOrCreateChild name messageType prop ∈ ops

section Supplied

variable {ops ops' : List (ContextOp T)} {c c' : ActorContext T}

theorem Supplied.other (h : Supplied ops c) (hcreated : c'.created = c.created)
    (hchildrens : ∀ name e, c'.childrens.lookup name = some e → c.childrens.lookup name = some e)
    (hoffset : c'.nextNameOffset = c.nextNameOffset) : Supplied ops c' := by
  refine ⟨fun name e he => ?_, fun hfew => ?_, fun hfew name e he => ?_⟩
  · rw [hcreated]
    exact h.entry name e (hchildrens name e he)
  · rw [hoffset]
    exact h.offset hfew
  · exact h.name hfew name e (hchildrens name e he)

/-- A name that was accounted for stays so when more operations follow. -/
theorem Supplied.old (h : Supplied ops c) (op : ContextOp T)
    (hfew : (ops ++ [op]).countP ContextOp.generates < 2 ^ 64) {name : String}
    {e : ChildContainer} (he : c.childrens.lookup name = some e) :
    (∃ k < (ops ++ [op]).countP ContextOp.generates, name = base64 k "$") ∨
      ∃ messageType prop, .getOrCreateChild name messageType prop ∈ ops ++ [op] := by
  rw [List.countP_append] at hfew ⊢
  obtain ⟨k, hk, rfl⟩ | ⟨messageType, prop, hmem⟩ :=
    h.name (Nat.lt_of_le_of_lt (Nat.le_add_right _ _) hfew) name e he
  · exact .inl ⟨k, Nat.lt_add_right _ hk, rfl⟩
  · exact .inr ⟨messageType, prop, List.mem_append_left _ hmem⟩

theorem ContextOp.apply_childrens (rt : Runtime) {op : ContextOp T} {name : String}
    {messageType : TypeId} (h : op.target c = some (name, messageType)) :
    (op.apply rt c).context.created = c.created ∧
        (op.apply rt c).context.childrens = c.childrens ∨
      (op.apply rt c).context.created = c.created ++ [name] ∧
        (op.apply rt c).context.childrens =
          c.childrens.insert name ⟨messageType, c.created.length⟩ := by
  obtain ⟨-, hb⟩ | ⟨-, hb⟩ | ⟨option, -, hb⟩ := op.apply_family rt c h
  · exact .inl ⟨hb.created, hb.childrens⟩
  · exact .inl ⟨hb.created, hb.childrens⟩
  · exact .inr ⟨hb.created, hb.childrens⟩

theorem Supplied.target (h : Supplied ops c) (rt : Runtime) {op : ContextOp T} {name : String}
    {messageType : TypeId} (htarget : op.target c = some (name, messageType))
    (hoffset : (ops ++ [op]).countP ContextOp.generates < 2 ^ 64 →
      (op.apply rt c).context.nextNameOffset = (ops ++ [op]).countP ContextOp.generates)
    (hname : (ops ++ [op]).countP ContextOp.generates < 2 ^ 64 →
      (∃ k < (ops ++ [op]).countP ContextOp.generates, name = base64 k "$") ∨
        ∃ messageType prop, .getOrCreateChild name messageType prop ∈ ops ++ [op]) :
    Supplied (ops ++ [op]) (op.apply rt c).context := by
  obtain ⟨hcreated, hchildrens⟩ | ⟨hcreated, hchildrens⟩ := op.apply_childrens rt htarget
  · refine ⟨?_, hoffset, fun hfew name' e he => ?_⟩
    · rw [hcreated, hchildrens]
      exact h.entry
    · exact h.old op hfew (hchildrens ▸ he)
  · have entered : ∀ {name' e}, (op.apply rt c).context.childrens.lookup name' = some e →
        name' = name ∧ e.child = c.created.length ∨ c.childrens.lookup name' = some e := by
      intro name' e he
      rw [hchildrens] at he
      by_cases hne : name' = name
      · subst hne
        rw [AList.lookup_insert] at he
        cases he
        exact .inl ⟨rfl, rfl⟩
      · rw [AList.lookup_insert_ne hne] at he
        exact .inr he
    refine ⟨fun name' e he => ?_, hoffset, fun hfew name' e he => ?_⟩
    · rw [hcreated, List.length_append]
      obtain ⟨-, hchild⟩ | hold := entered he
      · rw [hchild]
        exact Nat.lt_succ_self _
      · exact Nat.lt_succ_of_lt (h.entry name' e hold)
    · obtain ⟨rfl, -⟩ | hold := entered he
      · exact hname hfew
      · exact h.old op hfew hold

theorem Supplied.apply (h : Supplied ops c) (rt : Runtime) (op : ContextOp T) :
    Supplied (ops ++ [op]) (op.apply rt c).context := by
  cases htarget : op.target c with
  | none =>
    have hnone : op.generates = false := by cases op <;> first | rfl | cases htarget
    have hcount : (ops ++ [op]).countP ContextOp.generates = ops.countP ContextOp.generates := by
      simp [List.countP_append, hnone]
    have hb := op.apply_barren rt c htarget
    have hsame := h.other hb.created (by simp [hb.childrens]) (op.apply_offset rt c htarget)
    exact ⟨hsame.entry, by rw [hcount]; exact hsame.offset, fun hfew name e he =>
      h.old op hfew (hb.childrens ▸ he)⟩
  | some target =>
    obtain ⟨name, messageType⟩ := target
    cases op with
    | createChild messageType' prop =>
      cases htarget
      have hcount : (ops ++ [ContextOp.createChild (T := T) messageType prop]).countP
          ContextOp.generates = ops.countP ContextOp.generates + 1 := by
        simp [List.countP_append, ContextOp.generates]
      have hmove : (c.createChild rt messageType prop).2.context.nextNameOffset =
          if c.nextNameOffset + 1 < 2 ^ 64 then c.nextNameOffset + 1 else 0 :=
        c.randomName.2.getOrCreateChild_offset rt c.randomName.1 messageType prop
      refine h.target rt rfl (fun hfew => ?_) fun hfew => .inl ?_
      · rw [hcount] at hfew ⊢
        refine hmove.trans ?_
        rw [h.offset (Nat.lt_of_succ_lt hfew), if_pos hfew]
      · rw [hcount] at hfew ⊢
        refine ⟨ops.countP ContextOp.generates, Nat.lt_succ_self _, ?_⟩
        change base64 c.nextNameOffset "$" = _
        rw [h.offset (Nat.lt_of_succ_lt hfew)]
    | getOrCreateChild name' messageType' prop =>
      cases htarget
      have hcount : (ops ++ [ContextOp.getOrCreateChild (T := T) name messageType prop]).countP
          ContextOp.generates = ops.countP ContextOp.generates := by
        simp [List.countP_append, ContextOp.generates]
      refine h.target rt rfl (fun hfew => ?_) fun hfew => .inr ⟨messageType, prop, by simp⟩
      rw [hcount] at hfew ⊢
      exact (c.getOrCreateChild_offset rt name messageType prop).trans (h.offset hfew)
    | _ => cases htarget

theorem ActorContext.After.supplied (h : c.After ops) : Supplied ops c := by
  induction h with
  | new => exact ⟨nofun, fun _ => rfl, fun _ => nofun⟩
  | op rt op _ ih => exact ih.apply rt op
  | childTerminate key _ ih => exact ih.other rfl (fun _ _ => ActorContext.lookup_of_erase) rfl
  | other _ hcreated hchildrens hoffset ih =>
    exact ih.other hcreated (fun _ _ => by simp [hchildrens]) hoffset

/-- A generated name meets only a name that was given to `get_or_create_child`. -/
theorem Supplied.generated (h : Supplied ops c)
    (hfew : ops.countP ContextOp.generates < 2 ^ 64)
    (hfound : c.childrens.lookup c.randomName.1 ≠ none) :
    ∃ messageType prop, .getOrCreateChild c.randomName.1 messageType prop ∈ ops := by
  obtain ⟨e, he⟩ := Option.ne_none_iff_exists'.mp hfound
  obtain ⟨k, hk, hname⟩ | hmem := h.name hfew _ e he
  · have hsame : base64 c.nextNameOffset "$" = base64 k "$" := hname
    rw [h.offset hfew] at hsame
    exact absurd (base64_injective hsame) (Nat.ne_of_gt hk)
  · exact hmem

end Supplied

namespace ActorContext

/-- `create_child` returns, with a child of its own that runs the props it was given, and the
children that are there keep their places. -/
structure Creates (c : ActorContext T) (rt : Runtime) (messageType : TypeId) (prop : Props) :
    Prop where
  returns : (c.createChild rt messageType prop).2.panics = false
  new : (c.createChild rt messageType prop).1 = some c.created.length ∧
    (c.createChild rt messageType prop).2.context.created = c.created ++ [c.randomName.1]
  props : ∃ found, (c.createChild rt messageType prop).2.log =
    [.childCreated c.created.length c.randomName.1 prop.option found]
  distinct : ∀ name e, c.childrens.lookup name = some e →
    some e.child ≠ (c.createChild rt messageType prop).1
  kept : ∀ name e, c.childrens.lookup name = some e →
    (c.createChild rt messageType prop).2.context.childrens.lookup name = some e

variable {ops : List (ContextOp T)} {c : ActorContext T} {rt : Runtime} {messageType : TypeId}
  {prop : Props}

theorem createChild_new {option : PropsOption} (hfree : c.childrens.lookup c.randomName.1 = none)
    (hmailbox : prop.mailbox = some option) : c.createChild rt messageType prop =
      (some c.created.length, c.randomName.2.insertChild rt c.randomName.1 messageType option) := by
  have hget : c.randomName.2.getChild c.randomName.1 messageType = none :=
    getChild_eq_none.mpr fun e he => absurd (hfree.symm.trans he) (by simp)
  simp only [createChild, getOrCreateChild, hget, hmailbox]
  rfl

theorem Creates.free (h : c.Creates rt messageType prop) (hafter : c.After ops) :
    c.childrens.lookup c.randomName.1 = none := by
  cases hfound : c.childrens.lookup c.randomName.1 with
  | none => rfl
  | some e =>
    have hkept := h.kept _ e hfound
    have htarget : (ContextOp.createChild (T := T) messageType prop).target c =
        some (c.randomName.1, messageType) := rfl
    obtain ⟨hsame, -⟩ | ⟨-, hchildrens⟩ := ContextOp.apply_childrens rt htarget
    · have hlength := congrArg List.length (hsame.symm.trans h.new.2)
      simp at hlength
    · have hlookup : (c.createChild rt messageType prop).2.context.childrens.lookup
          c.randomName.1 = some ⟨messageType, c.created.length⟩ := by
        rw [show (c.createChild rt messageType prop).2.context.childrens = _ from hchildrens,
          AList.lookup_insert]
      have hchild : e = ⟨messageType, c.created.length⟩ :=
        Option.some.inj (hkept.symm.trans hlookup)
      exact absurd (hafter.supplied.entry _ e hfound) (by simp [hchild])

theorem Creates.mailbox (h : c.Creates rt messageType prop) : prop.mailbox ≠ none := by
  intro hnone
  have hnew := h.new.2
  have htarget : (ContextOp.createChild (T := T) messageType prop).target c =
      some (c.randomName.1, messageType) := rfl
  have hsame : (c.createChild rt messageType prop).2.context.created = c.created := by
    obtain ⟨-, hb⟩ | ⟨-, hb⟩ | ⟨option, hsome, -⟩ := ContextOp.apply_family rt c htarget
    · exact hb.created
    · exact hb.created
    · exact absurd (hnone.symm.trans hsome) (by simp)
  have hlength := congrArg List.length (hsame.symm.trans hnew)
  simp at hlength

theorem create_child_creates (h : c.After ops) (rt : Runtime) (messageType : TypeId)
    (prop : Props) :
    (c.Creates rt messageType prop ↔
        c.childrens.lookup c.randomName.1 = none ∧ prop.mailbox ≠ none) ∧
      (ops.countP ContextOp.generates < 2 ^ 64 → c.childrens.lookup c.randomName.1 ≠ none →
        ∃ messageType' prop', .getOrCreateChild c.randomName.1 messageType' prop' ∈ ops) := by
  refine ⟨⟨fun hcreates => ⟨hcreates.free h, hcreates.mailbox⟩, ?_⟩, h.supplied.generated⟩
  rintro ⟨hfree, hmailbox⟩
  obtain ⟨option, hmailbox⟩ := Option.ne_none_iff_exists'.mp hmailbox
  obtain rfl := Props.mailbox_option hmailbox
  have hresult : c.createChild rt messageType prop = _ := createChild_new hfree hmailbox
  refine ⟨?_, ?_, ⟨(c.childrens.lookup c.randomName.1).map ChildContainer.child, ?_⟩,
    fun name e he => ?_, fun name e he => ?_⟩ <;> rw [hresult]
  · rfl
  · exact ⟨rfl, rfl⟩
  · rfl
  · exact fun hsame => Nat.ne_of_lt (h.supplied.entry name e he) (Option.some.inj hsame)
  · have hne : name ≠ c.randomName.1 := by
      rintro rfl
      exact absurd (hfree.symm.trans he) (by simp)
    exact (AList.lookup_insert_ne hne).trans he

theorem base64_zero : base64 0 "$" = "$a" := by
  unfold base64
  rfl

theorem create_child_beside : ∃ c : ActorContext Nat, c.After [.getOrCreateChild "a" 0 {}] ∧
    c.Creates ⟨0, 0, 0⟩ 0 {} := by
  refine ⟨_, .op ⟨0, 0, 0⟩ (.getOrCreateChild "a" 0 {}) .new, ?_⟩
  refine (create_child_creates (.op ⟨0, 0, 0⟩ (.getOrCreateChild "a" 0 {}) .new) _ _ _).1.mpr
    ⟨?_, by decide⟩
  change AList.lookup (base64 0 "$") _ = none
  rw [base64_zero]
  decide

/-- A program may well choose the name that the supply gives next. -/
theorem create_child_finds : ∃ c : ActorContext Nat, c.After [.getOrCreateChild "$a" 0 {}] ∧
    ¬ c.Creates ⟨0, 0, 0⟩ 0 {} := by
  refine ⟨_, .op ⟨0, 0, 0⟩ (.getOrCreateChild "$a" 0 {}) .new, fun hcreates => ?_⟩
  have hnew := hcreates.new.1
  change (getOrCreateChild _ _ (base64 0 "$") 0 {}).1 = _ at hnew
  rw [base64_zero] at hnew
  exact absurd hnew (by decide)

end ActorContext

/-! The contexts of an actor are of this kind, at rest and inside its callbacks. -/

theorem ActorContext.After.runOps {ops : List (ContextOp T)} {c : ActorContext T}
    (h : c.After ops) (rt : Runtime) (ops' : List (ContextOp T)) :
    (runOps rt c ops').context.After (ops ++ ops') := by
  induction ops' generalizing ops rt c with
  | nil => simpa [Ruactor.runOps] using h
  | cons op ops' ih => simpa [Ruactor.runOps] using ih (.op rt op h) _

def HasHistory (_ : Option ParentRef) (c : ActorContext T) (_ : List (Event T)) : Prop :=
  ∃ ops, c.After ops

theorem historic_recorded : Cell.Recorded (T := T) (fun _ => True) HasHistory where
  op op _ h := by
    obtain ⟨ops, h⟩ := h
    exact ⟨_, .op _ op h⟩
  stopSelf h := h
  timeout d h := by
    obtain ⟨ops, h⟩ := h
    exact ⟨ops, .other h rfl rfl rfl⟩
  event _ h := h
  actor h := by
    obtain ⟨ops, h⟩ := h
    exact ⟨ops, .other h rfl rfl rfl⟩

namespace Mailbox

def Historic (m : Mailbox T) : Prop := ∃ ops, (m.dispatcher.context.getD .new).After ops

theorem finish_historic {m : Mailbox T} {next : Task T} {o : Outcome (Cell T)} {r : TaskStep T}
    (h : m.finish next o = some r) (ho : o.Ensures
      (Cell.Records (fun _ => True) HasHistory m.log)
      (Cell.Records (fun _ => True) HasHistory m.log)) : r.mbox.Historic := by
  obtain ⟨c, hc, hm, -⟩ | ⟨c, hc, hm, -⟩ := finish_ensures h ho
  all_goals
    obtain ⟨context, hcontext, ops, hafter⟩ := hc.context
    rw [hm]
    exact ⟨ops, by simpa [commit, emit, hcontext] using hafter⟩

/-- A step without callbacks does no more to the context than `After` allows. -/
theorem Move.aside {m : Mailbox T} {input : TaskInput T} {t : Task T} {r : TaskStep T}
    (move : m.Move input t r) (hphase : m.Phase t) (hcalls : t.calls = false)
    (hserved : r.mbox.Served) : m.Served ∧ ∀ ops, (m.dispatcher.context.getD .new).After ops →
      (r.mbox.dispatcher.context.getD .new).After ops := by
  have served : ∀ {context}, m.dispatcher.context = some context → m.Served :=
    fun hcontext hnone => absurd (hnone.symm.trans hcontext) (by simp)
  cases move with
  | suspend hcontext _ | popUnstashed _ hcontext _ =>
    refine ⟨served hcontext, fun ops hafter => ?_⟩
    rw [hcontext] at hafter
    exact .other hafter rfl rfl rfl
  | childGone hcontext _ =>
    refine ⟨served hcontext, fun ops hafter => ?_⟩
    rw [hcontext] at hafter
    exact .childTerminate _ hafter
  | childLast hcontext _ _ =>
    refine ⟨served hcontext, fun ops hafter => ?_⟩
    rw [hcontext] at hafter
    exact .other (.childTerminate _ hafter) rfl rfl rfl
  | notify _ => exact ⟨fun hnone => absurd hnone hphase.2.2, fun _ => id⟩
  | reply => exact absurd hphase.2.1 (hserved rfl)
  | dead _ | start _ _ | terminate _ | process _ => cases hcalls
  | _ => exact ⟨hserved, fun _ => id⟩

theorem Move.historic {m : Mailbox T} {input : TaskInput T} {t : Task T} {r : TaskStep T}
    (move : m.Move input t r) (hphase : m.Phase t) (h : m.Historic) : r.mbox.Historic := by
  have hwithin : Cell.Within (T := T) (fun _ => True) input.calls :=
    fun _ _ _ _ => trivial
  cases hcalls : t.calls with
  | false =>
    by_cases hserved : r.mbox.Served
    · obtain ⟨ops, hafter⟩ := h
      exact ⟨ops, (move.aside hphase hcalls hserved).2 ops hafter⟩
    · have hnone : r.mbox.dispatcher.context = none := (Classical.not_imp.mp hserved).1
      exact ⟨[], by rw [hnone]; exact .new⟩
  | true =>
    cases move with
    | start _ hf =>
      exact finish_historic hf (historic_recorded.startActor (createContext_records hwithin h))
    | terminate hf =>
      obtain ⟨-, -, -, context, hcontext, -⟩ := hphase
      rw [Historic, hcontext] at h
      exact finish_historic hf (historic_recorded.terminateActor (fun hg => hg)
        (cell_records hwithin hcontext h))
    | process hf =>
      obtain ⟨context, hcontext, -⟩ := hphase.2.context
      rw [Historic, hcontext] at h
      exact finish_historic hf (historic_recorded.process (fun _ _ _ hg => hg) hphase.2.actor _ _ _
        (cell_records hwithin hcontext h))
    | dead _ => exact h
    | _ => cases hcalls

end Mailbox

namespace Node

theorem historic_owned : Owned path option parent anyTask (Mailbox.Phase (T := T))
    (fun _ _ => True) (fun _ => True) Mailbox.Historic where
  start := ⟨trivial, [], .new⟩
  env henv := by
    refine ⟨fun h => ?_, id, fun _ _ => id⟩
    rw [Mailbox.Historic, henv.dispatcher]
    exact h
  acquire _ := ⟨id, id⟩
  move move _ _ hphase _ h :=
    ⟨move.historic hphase h, fun _ _ => ⟨fun _ => trivial, fun _ => trivial⟩⟩

theorem reachable_after {nd : Node T} (h : (machine path option parent).Reachable nd) :
    ∃ ops, (nd.mbox.dispatcher.context.getD .new).After ops :=
  (historic_owned.reachable (fun hr => (reachable_phase hr).loc) h).inv

end Node

end Ruactor
