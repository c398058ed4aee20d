import Ruactor.Registry

/-!
# Message types of actors

An actor has one message type. It is the type of every call that has found or created the
actor, and that of its entry in the registry.
-/

namespace Ruactor

open Machine

variable {T : Type}

def SystemCall.messageType : SystemCall → Option TypeId
  | .getActor _ messageType | .createActor _ messageType _ | .getOrCreateActor _ messageType _ =>
    some messageType
  | .childTerminate _ _ => none

def Answer.child : Answer → Option ChildId
  | .found child => child
  | .ok child => some child
  | .errExists _ | .removed => none

def Point.child : Point → Option ChildId
  | .got found | .matching found => found
  | .leaving answer | .returned answer => answer.child
  | _ => none

/-- The operation has found or created the actor at this message type. -/
def Operation.yields (op : Operation) (messageType : TypeId) (child : ChildId) : Prop :=
  op.call.messageType = some messageType ∧ op.point.child = some child

theorem Operation.acquired_yields {op : Operation} {mode : LockMode} (hwants : op.wants = some mode)
    (messageType : TypeId) (child : ChildId) :
    op.acquired.yields messageType child ↔ op.yields messageType child := by
  obtain ⟨call, point⟩ := op
  cases point <;> cases hwants <;> cases call <;> rfl

namespace ActorSystem

variable {s s' : ActorSystem T} {i : Nat} {op op' : Operation} {path : ActorPath} {child : ChildId}
  {messageType : TypeId} {typeOf : ChildId → TypeId}

def HasType (s : ActorSystem T) (child : ChildId) (messageType : TypeId) : Prop :=
  ∃ op ∈ s.operations, op.yields messageType child

structure Typed (s : ActorSystem T) (typeOf : ChildId → TypeId) : Prop where
  yielded : ∀ op ∈ s.operations, ∀ messageType child, op.yields messageType child →
    child < s.instances.length ∧ typeOf child = messageType
  entry : ∀ path any, s.actors.lookup path = some any →
    any.child < s.instances.length ∧ typeOf any.child = any.messageType
  known : ∀ child < s.instances.length, s.HasType child (typeOf child)

theorem HasType.goto (h : s.HasType child messageType) (hop : s.operations[i]? = some op)
    (hops : s'.operations = s.operations.set i op')
    (hkeeps : op.yields messageType child → op'.yields messageType child) :
    s'.HasType child messageType := by
  obtain ⟨o, ho, hyields⟩ := h
  obtain ⟨j, hj⟩ := List.mem_iff_getElem?.mp ho
  have hlength : i < s.operations.length := (List.getElem?_eq_some_iff.mp hop).1
  by_cases hji : j = i
  · subst hji
    obtain rfl := Option.some.inj (hop.symm.trans hj)
    exact ⟨op', hops ▸ List.mem_set hlength op', hkeeps hyields⟩
  · refine ⟨o, List.mem_of_getElem? (i := j) ?_, hyields⟩
    rw [hops, List.getElem?_set_ne (Ne.symm hji), hj]

theorem Typed.goto (h : s.Typed typeOf) (hop : s.operations[i]? = some op)
    (hops : s'.operations = s.operations.set i op') (hinstances : s'.instances = s.instances)
    (hactors : ∀ path any, s'.actors.lookup path = some any → s.actors.lookup path = some any)
    (hkeeps : ∀ messageType child, op.yields messageType child → op'.yields messageType child)
    (hnew : ∀ messageType child, op'.yields messageType child → op.yields messageType child ∨
      child < s.instances.length ∧ typeOf child = messageType) : s'.Typed typeOf := by
  refine ⟨fun o ho messageType child hyields => ?_, fun path any hany => ?_, fun child hlt => ?_⟩
  · rw [hinstances]
    rcases List.mem_or_eq_of_mem_set (hops ▸ ho) with hold | rfl
    · exact h.yielded o hold messageType child hyields
    · exact (hnew messageType child hyields).elim
        (h.yielded op (List.mem_of_getElem? hop) messageType child) id
  · rw [hinstances]
    exact h.entry path any (hactors path any hany)
  · exact (h.known child (hinstances ▸ hlt)).goto hop hops (hkeeps _ child)

theorem Typed.extend (h : s.Typed typeOf) {new : List Operation}
    (hops : s'.operations = s.operations ++ new)
    (hinstances : s'.instances.length = s.instances.length) (hactors : s'.actors = s.actors)
    (hnew : ∀ op ∈ new, ∀ messageType child, ¬ op.yields messageType child) : s'.Typed typeOf := by
  refine ⟨fun o ho messageType child hyields => ?_, fun path any hany => ?_, fun child hlt => ?_⟩
  · rw [hinstances]
    rcases List.mem_append.mp (hops ▸ ho) with hold | ho
    · exact h.yielded o hold messageType child hyields
    · exact absurd hyields (hnew o ho messageType child)
  · rw [hinstances]
    exact h.entry path any (hactors ▸ hany)
  · obtain ⟨o, ho, hyields⟩ := h.known child (hinstances ▸ hlt)
    exact ⟨o, by rw [hops]; exact List.mem_append_left _ ho, hyields⟩

theorem Typed.insert (h : s.Typed typeOf) (hop : s.operations[i]? = some op)
    (hpoint : op.point = .inserting) (hcall : op.call.messageType = some messageType)
    (option : PropsOption) (hcall' : op'.call = op.call)
    (hpoint' : op'.point = .leaving (.ok s.instances.length)) :
    Typed ((s.create path messageType option).goto i op')
      (Function.update typeOf s.instances.length messageType) := by
  have hlength : ((s.create path messageType option).goto i op').instances.length =
      s.instances.length + 1 := by simp [ActorSystem.goto, create]
  have old : ∀ {c}, c < s.instances.length →
      Function.update typeOf s.instances.length messageType c = typeOf c :=
    fun hlt => Function.update_of_ne (Nat.ne_of_lt hlt) _ _
  have hyields : op'.yields messageType s.instances.length :=
    ⟨by rw [hcall', hcall], by rw [hpoint']; rfl⟩
  have hi : i < s.operations.length := (List.getElem?_eq_some_iff.mp hop).1
  refine ⟨fun o ho m c hc => ?_, fun p any hany => ?_, fun c hlt => ?_⟩
  · rw [hlength]
    rcases List.mem_or_eq_of_mem_set ho with hold | rfl
    · obtain ⟨hlt, htype⟩ := h.yielded o hold m c hc
      exact ⟨Nat.lt_succ_of_lt hlt, by rw [old hlt, htype]⟩
    · obtain rfl := Option.some.inj (hyields.1.symm.trans hc.1)
      obtain rfl := Option.some.inj (hyields.2.symm.trans hc.2)
      exact ⟨Nat.lt_succ_self _, Function.update_self _ _ _⟩
  · rw [hlength]
    change (s.actors.insert path _).lookup p = some any at hany
    by_cases hp : p = path
    · subst hp
      rw [AList.lookup_insert] at hany
      cases hany
      exact ⟨by simp, Function.update_self _ _ _⟩
    · rw [AList.lookup_insert_ne hp] at hany
      obtain ⟨hlt, htype⟩ := h.entry p any hany
      exact ⟨Nat.lt_succ_of_lt hlt, by rw [old hlt, htype]⟩
  · rw [hlength] at hlt
    by_cases hc : c = s.instances.length
    · subst hc
      rw [Function.update_self]
      exact ⟨op', List.mem_set hi op', hyields⟩
    · have hold : c < s.instances.length := Nat.lt_of_le_of_ne (Nat.le_of_lt_succ hlt) hc
      rw [old hold]
      refine (h.known c hold).goto hop rfl fun hno => ?_
      obtain ⟨-, hchild⟩ := hno
      simp [Point.child, hpoint] at hchild

theorem find_entry (h : s.find path messageType = some child) :
    ∃ any, s.actors.lookup path = some any ∧ any.messageType = messageType ∧ any.child = child := by
  simp only [find] at h
  split at h
  next any hany =>
    split at h
    next htype => exact ⟨any, hany, htype, Option.some.inj h⟩
    · cases h
  · cases h

theorem Typed.access (h : s.Typed typeOf) (hop : s.operations[i]? = some op)
    (hacc : s.Access i op s' op') : ∃ typeOf', Typed (s'.goto i op') typeOf' := by
  cases hacc with
  | lookUp hcall =>
    refine ⟨typeOf, h.goto hop rfl rfl (fun _ _ => id) (fun m c hc => ?_) fun m c hc => .inr ?_⟩
    · cases hc.2
    · obtain ⟨hm, hc⟩ := hc
      obtain ⟨any, hany, rfl, rfl⟩ := find_entry hc
      obtain ⟨hlt, htype⟩ := h.entry _ any hany
      refine ⟨hlt, htype.trans ?_⟩
      rcases hcall with rfl | ⟨_, rfl⟩ <;> exact Option.some.inj hm
  | nested | found _ | hit | miss | exist _ _ | absent _ _ | leave =>
    exact ⟨typeOf, h.goto hop rfl rfl (fun _ _ => id) (fun _ _ => id) fun _ _ => .inl⟩
  | insert hcall =>
    refine ⟨_, h.insert hop rfl ?_ _ rfl rfl⟩
    rcases hcall with rfl | rfl <;> rfl
  | @remove path sender =>
    refine ⟨typeOf, h.goto hop rfl rfl (fun p any hany => ?_) (fun _ _ => id) fun _ _ => .inl⟩
    change (s.actors.erase path).lookup p = some any at hany
    by_cases hp : p = path
    · subst hp
      simp at hany
    · rwa [AList.lookup_erase_ne hp] at hany

theorem Move.typed {a : SystemAction T} (move : s.Move a s') (h : s.Typed typeOf) :
    ∃ typeOf', s'.Typed typeOf' := by
  cases move with
  | @call call _ =>
    refine ⟨typeOf, h.extend rfl rfl rfl fun op hop m c hc => ?_⟩
    rw [List.mem_singleton.mp hop] at hc
    cases call <;> cases hc.2
  | request _ _ _ => exact ⟨typeOf, h.yielded, h.entry, h.known⟩
  | grant hop hwants _ =>
    exact ⟨typeOf, h.goto hop rfl rfl (fun _ _ => id)
      (fun m c => (Operation.acquired_yields hwants m c).mpr)
      fun m c hc => .inl ((Operation.acquired_yields hwants m c).mp hc)⟩
  | access hop _ hacc => exact h.access hop hacc
  | actor _ _ =>
    refine ⟨typeOf, h.extend rfl (List.length_set) rfl fun op hop m c hc => ?_⟩
    obtain ⟨e, -, he⟩ := List.mem_filterMap.mp hop
    split at he
    · cases he
      cases hc.1
    · cases he

theorem reachable_typed (h : (machine ∅ []).Reachable s) : ∃ typeOf, s.Typed typeOf := by
  refine h.invariant (P := fun s : ActorSystem T => ∃ typeOf, s.Typed typeOf) ?_
    fun _ ⟨_, hs⟩ _ hstep => (step_move hstep).typed hs
  exact ⟨fun _ => 0, List.forall_mem_nil _, fun _ _ hany => (by cases hany),
    fun _ hlt => absurd hlt (Nat.not_lt_zero _)⟩

theorem Typed.hasType_iff (h : s.Typed typeOf) (hlt : child < s.instances.length) :
    s.HasType child messageType ↔ messageType = typeOf child := by
  constructor
  · rintro ⟨op, hop, hyields⟩
    exact (h.yielded op hop messageType child hyields).2.symm
  · rintro rfl
    exact h.known child hlt

end ActorSystem

end Ruactor
