import Ruactor.Finality
import Ruactor.Guards

/-!
# One actor for a path

An actor is present from its insertion until its `ChildTerminate` has been carried out. The
map has the actors that are present and no others: an actor notifies the guard once, and a
path is free when an actor is inserted under it.
-/

namespace Ruactor

open Machine

variable {T : Type}

/-- A notification by this actor. -/
def Operation.informs (child : ChildId) (op : Operation) : Bool :=
  match op.call with
  | .childTerminate _ sender => decide (sender = child)
  | _ => false

/-- It has been carried out. -/
def Operation.told (child : ChildId) (op : Operation) : Bool :=
  match op.point with
  | .leaving _ | .returned _ => op.informs child
  | _ => false

def Event.notice : Event T → Bool
  | .notified .guard _ => true
  | _ => false

namespace ActorSystem

variable {s s' : ActorSystem T} {i : Nat} {op op' : Operation} {path : ActorPath} {child : ChildId}

/-- The actor was created at the path and has not sent its `ChildTerminate`. -/
structure Present (s : ActorSystem T) (path : ActorPath) (child : ChildId) : Prop where
  created : ∃ nd, s.instances[child]? = some nd ∧ nd.mbox.path = path
  untold : s.operations.any (Operation.told child) = false

/-- The map has the actors that are present, and a path is free where an actor is inserted. -/
structure Registered (s : ActorSystem T) : Prop where
  node : ∀ (child : ChildId) (nd : Node T), s.instances[child]? = some nd →
    ∃ path option, (Node.machine path option .guard).Reachable nd
  sender : ∀ op ∈ s.operations, ∀ path child, op.call = .childTerminate path child →
    ∃ nd, s.instances[child]? = some nd ∧ nd.mbox.path = path
  once : ∀ (child : ChildId) (nd : Node T), s.instances[child]? = some nd →
    s.operations.countP (Operation.informs child) = nd.mbox.log.countP Event.notice
  entry : ∀ path child, (∃ any, s.actors.lookup path = some any ∧ any.child = child) ↔
    s.Present path child
  free : ∀ op ∈ s.operations, op.point = .inserting → ∀ path, op.call.creates = some path →
    s.actors.lookup path = none

theorem informs_of_told (h : op.told child = true) : op.informs child = true := by
  unfold Operation.told at h
  split at h
  · exact h
  · exact h
  · cases h

theorem countP_set (hop : s.operations[i]? = some op) {p : Operation → Bool}
    (hp : p op' = p op) : (s.operations.set i op').countP p = s.operations.countP p := by
  obtain ⟨before, after, hsplit, hset⟩ := set_split hop
  rw [hset, hsplit]
  simp [List.countP_cons, hp]

theorem any_set (hop : s.operations[i]? = some op) {p : Operation → Bool}
    (hp : p op' = p op) : (s.operations.set i op').any p = s.operations.any p := by
  obtain ⟨before, after, hsplit, hset⟩ := set_split hop
  rw [hset, hsplit]
  simp [hp]

theorem Registered.informs_unborn (h : s.Registered) (hnd : s.instances[child]? = none)
    (hop : op ∈ s.operations) : op.informs child = false := by
  unfold Operation.informs
  split
  next path sender hcall =>
    obtain ⟨nd, hsender, -⟩ := h.sender op hop path sender hcall
    rw [decide_eq_false_iff_not]
    rintro rfl
    cases hnd.symm.trans hsender
  · rfl

theorem Registered.informs_le (h : s.Registered) (child : ChildId) :
    s.operations.countP (Operation.informs child) ≤ 1 := by
  cases hnd : s.instances[child]? with
  | none =>
    rw [List.countP_eq_zero.mpr fun op hop => by simp [h.informs_unborn hnd hop]]
    exact Nat.zero_le 1
  | some nd =>
    obtain ⟨path, option, hr⟩ := h.node child nd hnd
    have honce := (Node.reachable_final hr).once
    have hle : nd.mbox.log.countP Event.notice ≤ nd.mbox.log.countP Event.notifies := by
      refine List.countP_mono_left fun e _ he => ?_
      cases e <;> first | rfl | cases he
    rw [h.once child nd hnd]
    omega

/-- Two operations do not have the lock at once, if one of them writes. -/
theorem Booked.alone (h : s.Booked) {j : Nat} {mode : LockMode} (hi : .write ∈ s.holds i)
    (hj : mode ∈ s.holds j) : j = i := by
  have hmem := h.mem_held.mpr hj
  rw [RwLock.held_of_write (h.mem_held.mpr hi)] at hmem
  cases List.mem_singleton.mp hmem
  rfl

/-- After the insertion no operation is about to insert. -/
theorem Booked.uninserting (h : s.Booked) (hop : s.operations[i]? = some op)
    (hpoint : op.point = .inserting) (hpoint' : op'.point ≠ .inserting) :
    ∀ o ∈ s.operations.set i op', o.point ≠ .inserting := by
  intro o ho hinserting
  have hwrites : ∀ {n : Nat} {o : Operation}, s.operations[n]? = some o → o.point = .inserting →
      .write ∈ s.holds n := by
    intro n o ho hpoint
    rw [holds_of_get ho, Operation.holds, hpoint]
    exact List.mem_singleton_self _
  obtain ⟨j, hj⟩ := List.mem_iff_getElem?.mp ho
  by_cases hji : j = i
  · rw [hji, List.getElem?_set_self (List.getElem?_eq_some_iff.mp hop).1] at hj
    cases hj
    exact hpoint' hinserting
  · rw [List.getElem?_set_ne (Ne.symm hji)] at hj
    exact hji (h.alone (hwrites hop hpoint) (hwrites hj hinserting))

theorem informs_congr (hcall : op'.call = op.call) (child : ChildId) :
    op'.informs child = op.informs child := by
  rw [Operation.informs, Operation.informs, hcall]

theorem Registered.sender_set (h : s.Registered) (hop : s.operations[i]? = some op)
    (hcall : op'.call = op.call) : ∀ o ∈ s.operations.set i op', ∀ path child,
      o.call = .childTerminate path child →
        ∃ nd, s.instances[child]? = some nd ∧ nd.mbox.path = path := by
  intro o ho path child hinforms
  rcases List.mem_or_eq_of_mem_set ho with hold | rfl
  · exact h.sender o hold path child hinforms
  · exact h.sender op (List.mem_of_getElem? hop) path child (hcall ▸ hinforms)

/-- An operation goes on and leaves the map and the actors alone. -/
theorem Registered.goto (h : s.Registered) (hop : s.operations[i]? = some op)
    (hops : s'.operations = s.operations.set i op') (hactors : s'.actors = s.actors)
    (hinstances : s'.instances = s.instances) (hcall : op'.call = op.call)
    (htold : ∀ child, op'.told child = op.told child)
    (hfree : op'.point = .inserting → ∀ path, op'.call.creates = some path →
      s.actors.lookup path = none) : s'.Registered := by
  refine ⟨?_, ?_, fun child nd hnd => ?_, fun path child => ?_, fun o ho => ?_⟩
  · rw [hinstances]
    exact h.node
  · rw [hinstances, hops]
    exact h.sender_set hop hcall
  · rw [hops, countP_set hop (informs_congr hcall child)]
    exact h.once child nd (hinstances ▸ hnd)
  · have huntold : s'.operations.any (Operation.told child) =
        s.operations.any (Operation.told child) := by
      rw [hops]
      exact any_set hop (htold child)
    rw [hactors, h.entry]
    exact ⟨fun hp => ⟨hinstances ▸ hp.created, huntold ▸ hp.untold⟩,
      fun hp => ⟨hinstances ▸ hp.created, huntold ▸ hp.untold⟩⟩
  · rw [hactors]
    rcases List.mem_or_eq_of_mem_set (hops ▸ ho) with hold | rfl
    · exact h.free o hold
    · exact hfree

theorem Operation.informs_of_creates (h : op.call.creates = some path) (child : ChildId) :
    op.informs child = false := by
  unfold Operation.informs
  split
  next hcall => cases hcall ▸ h
  · rfl

theorem told_of_creates (h : op.call.creates = some path) (child : ChildId) :
    op.told child = false := by
  by_contra htold
  rw [Bool.not_eq_false] at htold
  exact absurd (informs_of_told htold) (by simp [Operation.informs_of_creates h])

theorem present_concat {new : Node T} {p : ActorPath}
    (hinstances : s'.instances = s.instances ++ [new]) (hpath : new.mbox.path = path)
    (htold : ∀ child, s'.operations.any (Operation.told child) =
      s.operations.any (Operation.told child))
    (hnew : s.operations.any (Operation.told s.instances.length) = false) :
    s'.Present p child ↔ s.Present p child ∨ child = s.instances.length ∧ p = path := by
  constructor
  · rintro ⟨⟨nd, hnd, hp⟩, huntold⟩
    rw [htold] at huntold
    rw [hinstances] at hnd
    rcases Pool.concat_get.mp hnd with hold | ⟨hchild, rfl⟩
    · exact .inl ⟨⟨nd, hold, hp⟩, huntold⟩
    · exact .inr ⟨hchild, hp.symm.trans hpath⟩
  · rintro (⟨⟨nd, hnd, hp⟩, huntold⟩ | ⟨rfl, rfl⟩)
    · exact ⟨⟨nd, hinstances ▸ Pool.concat_get.mpr (.inl hnd), hp⟩, (htold child).trans huntold⟩
    · refine ⟨⟨new, ?_, hpath⟩, (htold _).trans hnew⟩
      rw [hinstances]
      exact Pool.concat_get.mpr (.inr ⟨rfl, rfl⟩)

theorem Registered.insert (h : s.Registered) (hbooked : s.Booked)
    (hop : s.operations[i]? = some op) (hpoint : op.point = .inserting)
    (hcreates : op.call.creates = some path) (messageType : TypeId) (option : PropsOption)
    (hcall : op'.call = op.call) (hpoint' : op'.point ≠ .inserting) :
    Registered ((s.create path messageType option).goto i op') := by
  have hcreates' : op'.call.creates = some path := hcall ▸ hcreates
  have hfree : s.actors.lookup path = none :=
    h.free op (List.mem_of_getElem? hop) hpoint path hcreates
  have hunborn : s.instances[s.instances.length]? = none := List.getElem?_eq_none (Nat.le_refl _)
  refine ⟨fun child nd hnd => ?_, fun o ho p child hinforms => ?_, fun child nd hnd => ?_,
    fun p child => ?_, fun o ho hinserting => ?_⟩
  · rcases Pool.concat_get.mp hnd with hold | ⟨-, rfl⟩
    · exact h.node child nd hold
    · exact ⟨path, option, .step (a := .deliver .created) .start trivial rfl⟩
  · obtain ⟨nd, hnd, hpath⟩ := h.sender_set hop hcall o ho p child hinforms
    exact ⟨nd, Pool.concat_get.mpr (.inl hnd), hpath⟩
  · change (s.operations.set i op').countP _ = _
    rw [countP_set hop (informs_congr hcall child)]
    rcases Pool.concat_get.mp hnd with hold | ⟨rfl, rfl⟩
    · exact h.once child nd hold
    · rw [List.countP_eq_zero.mpr fun o ho => by simp [h.informs_unborn hunborn ho]]
      rfl
  · have htold : ∀ child, (s.operations.set i op').any (Operation.told child) =
        s.operations.any (Operation.told child) := by
      intro child
      exact any_set hop ((told_of_creates hcreates' child).trans
        (told_of_creates hcreates child).symm)
    have hnew : s.operations.any (Operation.told s.instances.length) = false := by
      rw [List.any_eq_false]
      intro o ho hto
      exact absurd (informs_of_told hto) (by simp [h.informs_unborn hunborn ho])
    have hpresent : ((s.create path messageType option).goto i op').Present p child ↔
        s.Present p child ∨ child = s.instances.length ∧ p = path :=
      present_concat rfl rfl htold hnew
    rw [hpresent, ← h.entry]
    change (∃ any, (s.actors.insert path _).lookup p = some any ∧ _) ↔ _
    by_cases hp : p = path
    · subst hp
      rw [AList.lookup_insert]
      simp [hfree, eq_comm]
    · simp [AList.lookup_insert_ne hp, hp]
  · exact absurd hinserting (hbooked.uninserting hop hpoint hpoint' o ho)

/-- While an actor's `ChildTerminate` is carried out, the entry is that of the actor. -/
theorem Registered.present (h : s.Registered) (hop : s.operations[i]? = some op)
    (hcall : op.call = .childTerminate path child) (hpoint : op.point = .removing) :
    s.Present path child := by
  obtain ⟨before, after, hsplit, -⟩ := set_split hop
  have hinforms : op.informs child = true := by simp [Operation.informs, hcall]
  have hle := h.informs_le child
  refine ⟨h.sender op (List.mem_of_getElem? hop) path child hcall, ?_⟩
  rw [List.any_eq_false]
  intro o ho htold
  have hothers : before.countP (Operation.informs child) = 0 ∧
      after.countP (Operation.informs child) = 0 := by
    rw [hsplit, List.countP_append, List.countP_cons_of_pos hinforms] at hle
    omega
  rw [hsplit] at ho
  rcases List.mem_append.mp ho with ho | ho
  · exact List.countP_eq_zero.mp hothers.1 o ho (informs_of_told htold)
  · rcases List.mem_cons.mp ho with rfl | ho
    · rw [Operation.told, hpoint] at htold
      cases htold
    · exact List.countP_eq_zero.mp hothers.2 o ho (informs_of_told htold)

theorem present_remove (hop : s.operations[i]? = some op)
    (hcall : op.call = .childTerminate path child) (hpoint : op.point = .removing)
    (hcall' : op'.call = op.call) {answer : Answer} (hpoint' : op'.point = .leaving answer)
    (hinstances : s'.instances = s.instances) (hops : s'.operations = s.operations.set i op')
    {p : ActorPath} {c : ChildId} : s'.Present p c ↔ s.Present p c ∧ c ≠ child := by
  have hlength : i < s.operations.length := (List.getElem?_eq_some_iff.mp hop).1
  have htold : ∀ c, op'.told c = decide (child = c) := by
    intro c
    simp [Operation.told, Operation.informs, hpoint', hcall', hcall]
  have hbefore : ∀ c, op.told c = false := by
    intro c
    simp [Operation.told, hpoint]
  constructor
  · rintro ⟨hcreated, huntold⟩
    have hne : c ≠ child := by
      rintro rfl
      rw [hops, List.any_eq_false] at huntold
      exact huntold op' (List.mem_set hlength op') (by simp [htold])
    refine ⟨⟨hinstances ▸ hcreated, ?_⟩, hne⟩
    rw [hops, any_set hop (by simp [htold, hbefore, Ne.symm hne])] at huntold
    exact huntold
  · rintro ⟨⟨hcreated, huntold⟩, hne⟩
    refine ⟨hinstances ▸ hcreated, ?_⟩
    rw [hops, any_set hop (by simp [htold, hbefore, Ne.symm hne])]
    exact huntold

theorem Registered.remove (h : s.Registered) (hop : s.operations[i]? = some op)
    (hcall : op.call = .childTerminate path child) (hpoint : op.point = .removing)
    (hcall' : op'.call = op.call) {answer : Answer} (hpoint' : op'.point = .leaving answer) :
    Registered ({ s with actors := s.actors.erase path }.goto i op') := by
  obtain ⟨any, hany, hchild⟩ := (h.entry path child).mpr (h.present hop hcall hpoint)
  refine ⟨h.node, h.sender_set hop hcall', fun c nd hnd => ?_, fun p c => ?_,
    fun o ho hinserting p hcreates => ?_⟩
  · change (s.operations.set i op').countP _ = _
    rw [countP_set hop (informs_congr hcall' c)]
    exact h.once c nd hnd
  · have hpresent : Present ({ s with actors := s.actors.erase path }.goto i op') p c ↔
        s.Present p c ∧ c ≠ child :=
      present_remove hop hcall hpoint hcall' hpoint' (by rfl) (by rfl)
    rw [hpresent, ← h.entry]
    change (∃ any, (s.actors.erase path).lookup p = some any ∧ _) ↔ _
    by_cases hp : p = path
    · subst hp
      rw [AList.lookup_erase, hany]
      simp [hchild, eq_comm]
    · -- the actor is at no other path
      rw [AList.lookup_erase_ne hp]
      refine ⟨fun hentry => ⟨hentry, ?_⟩, And.left⟩
      rintro rfl
      obtain ⟨nd, hnd, hpath⟩ := ((h.entry p c).mp hentry).created
      obtain ⟨nd', hnd', hpath'⟩ := h.sender op (List.mem_of_getElem? hop) path c hcall
      cases hnd.symm.trans hnd'
      exact hp (hpath.symm.trans hpath')
  · rcases List.mem_or_eq_of_mem_set ho with hold | rfl
    · have hfree := h.free o hold hinserting p hcreates
      by_cases hp : p = path
      · subst hp
        exact AList.lookup_erase _ _
      · exact (AList.lookup_erase_ne hp).trans hfree
    · cases hpoint'.symm.trans hinserting

theorem get_created {nd nd' : Node T} {a : Action T}
    (hnd : s.instances[child]? = some nd) (hstep : nd.step a = some nd') {p : ActorPath}
    {c : ChildId} : (∃ x, (s.instances.set child nd')[c]? = some x ∧ x.mbox.path = p) ↔
      ∃ x, s.instances[c]? = some x ∧ x.mbox.path = p := by
  have hpath := (Node.step_move hstep).path
  have hlength : child < s.instances.length := (List.getElem?_eq_some_iff.mp hnd).1
  by_cases hc : c = child
  · subst hc
    rw [List.getElem?_set_self hlength, hnd]
    simp [hpath]
  · rw [List.getElem?_set_ne (Ne.symm hc)]

/-- What an actor sends to the guard in a step. -/
theorem mem_notices {nd nd' : Node T} {a : Action T} {option : PropsOption} {parent : ParentRef}
    (hr : (Node.machine path option parent).Reachable nd) (hstep : nd.step a = some nd')
    (hop : op ∈ notices child (nd'.mbox.log.drop nd.mbox.log.length)) :
    op = ⟨.childTerminate nd.mbox.path child, .writing⟩ := by
  obtain ⟨events, hlog, hlogs⟩ := Node.step_logs hr hstep
  rw [hlog, List.drop_left] at hop
  obtain ⟨e, he, hnotice⟩ := List.mem_filterMap.mp hop
  cases e with
  | notified parent key =>
    cases parent with
    | actor => cases hnotice
    | guard =>
      cases hnotice
      cases hlogs _ he with
      | task _ _ _ htask =>
        cases htask with
        | notified _ => rfl
        | called _ hcalled _ _ => cases hcalled
      | sent hsent => cases hsent
  | _ => cases hnotice

theorem notices_informs (child c : ChildId) (events : List (Event T)) :
    (notices child events).countP (Operation.informs c) =
      if child = c then events.countP Event.notice else 0 := by
  induction events with
  | nil => simp [notices]
  | cons e events ih =>
    have hskip : e.notice = false → notices child (e :: events) = notices child events := by
      intro he
      cases e with
      | notified parent key =>
        cases parent with
        | actor => rfl
        | guard => cases he
      | _ => rfl
    cases he : e.notice with
    | false => rw [hskip he, ih, List.countP_cons_of_neg (by simp [he])]
    | true =>
      cases e with
      | notified parent key =>
        cases parent with
        | actor => cases he
        | guard =>
          have hnotices : notices child (.notified .guard key :: events) =
              ⟨.childTerminate key child, .writing⟩ :: notices child events := rfl
          rw [hnotices, List.countP_cons, ih, List.countP_cons_of_pos he]
          by_cases hc : child = c <;> simp [Operation.informs, hc]
      | _ => cases he

theorem any_told_append (new : List Operation) (hnew : ∀ op ∈ new, ∀ c, op.told c = false)
    (c : ChildId) : (s.operations ++ new).any (Operation.told c) =
      s.operations.any (Operation.told c) := by
  have hquiet : new.any (Operation.told c) = false :=
    List.any_eq_false.mpr fun op hop => by simp [hnew op hop]
  rw [List.any_append, hquiet, Bool.or_false]

theorem Registered.actor (h : s.Registered) {nd nd' : Node T} {a : Action T}
    (hnd : s.instances[child]? = some nd) (hstep : nd.step a = some nd') :
    Registered { s with
      instances := s.instances.set child nd'
      operations := s.operations ++ notices child (nd'.mbox.log.drop nd.mbox.log.length) } := by
  have hlength : child < s.instances.length := (List.getElem?_eq_some_iff.mp hnd).1
  obtain ⟨path, option, hr⟩ := h.node child nd hnd
  obtain ⟨events, hlog⟩ := (Node.step_move hstep).log
  refine ⟨fun c x hx => ?_, fun o ho p c hcall => ?_, fun c x hx => ?_, fun p c => ?_,
    fun o ho hinserting => ?_⟩
  · by_cases hc : c = child
    · subst hc
      cases (List.getElem?_set_self hlength).symm.trans hx
      exact ⟨path, option, .step hr trivial hstep⟩
    · exact h.node c x (by rwa [List.getElem?_set_ne (Ne.symm hc)] at hx)
  · rw [get_created hnd hstep]
    rcases List.mem_append.mp ho with hold | hnew
    · exact h.sender o hold p c hcall
    · rw [mem_notices hr hstep hnew] at hcall
      cases hcall
      exact ⟨nd, hnd, rfl⟩
  · rw [List.countP_append, notices_informs, hlog, List.drop_left]
    by_cases hc : c = child
    · subst hc
      cases (List.getElem?_set_self hlength).symm.trans hx
      rw [if_pos rfl, hlog, List.countP_append, h.once c nd hnd]
    · rw [if_neg (Ne.symm hc)]
      exact h.once c x (by rwa [List.getElem?_set_ne (Ne.symm hc)] at hx)
  · have htold := any_told_append (s := s) (notices child _) (fun o ho c => by
      rw [mem_notices hr hstep ho]
      rfl) c
    rw [h.entry]
    exact ⟨fun hp => ⟨(get_created hnd hstep).mpr hp.created, htold.trans hp.untold⟩,
      fun hp => ⟨(get_created hnd hstep).mp hp.created, htold.symm.trans hp.untold⟩⟩
  · rcases List.mem_append.mp ho with hold | hnew
    · exact h.free o hold hinserting
    · rw [mem_notices hr hstep hnew] at hinserting
      cases hinserting

theorem Registered.call (h : s.Registered) {call : SystemCall}
    (hcall : ∀ path sender, call ≠ .childTerminate path sender) :
    Registered { s with operations := s.operations ++ [⟨call, call.start⟩] } := by
  have hinforms : ∀ c, Operation.informs c ⟨call, call.start⟩ = false := by
    intro c
    cases call with
    | childTerminate path sender => exact absurd rfl (hcall path sender)
    | _ => rfl
  have htold : ∀ op ∈ [(⟨call, call.start⟩ : Operation)], ∀ c, op.told c = false := by
    intro op hop c
    rw [List.mem_singleton.mp hop]
    by_contra hto
    rw [Bool.not_eq_false] at hto
    exact absurd (informs_of_told hto) (by simp [hinforms])
  refine ⟨h.node, fun o ho p c hinforms => ?_, fun c nd hnd => ?_, fun p c => ?_,
    fun o ho hinserting => ?_⟩
  · rcases List.mem_append.mp ho with hold | hnew
    · exact h.sender o hold p c hinforms
    · cases List.mem_singleton.mp hnew
      exact absurd hinforms (hcall p c)
  · rw [List.countP_append, List.countP_singleton, hinforms]
    exact h.once c nd hnd
  · rw [h.entry]
    exact ⟨fun hp => ⟨hp.created, (any_told_append _ htold c).trans hp.untold⟩,
      fun hp => ⟨hp.created, (any_told_append _ htold c).symm.trans hp.untold⟩⟩
  · rcases List.mem_append.mp ho with hold | hnew
    · exact h.free o hold hinserting
    · cases List.mem_singleton.mp hnew
      cases call <;> cases hinserting

theorem Operation.acquired_told {mode : LockMode} (hwants : op.wants = some mode)
    (child : ChildId) :
    op.acquired.told child = op.told child := by
  obtain ⟨call, point⟩ := op
  cases point <;> cases hwants <;> cases call <;> rfl

theorem Operation.acquired_point {mode : LockMode} (hwants : op.wants = some mode) :
    op.acquired.point ≠ .inserting := by
  obtain ⟨call, point⟩ := op
  cases point <;> cases hwants <;> cases call <;> nofun

theorem Registered.access (h : s.Registered) (hbooked : s.Booked)
    (hop : s.operations[i]? = some op) (hacc : s.Access i op s' op') :
    Registered (s'.goto i op') := by
  have hfits := hbooked.fits op (List.mem_of_getElem? hop)
  cases hacc with
  | lookUp hcall => exact h.goto hop rfl rfl rfl rfl (fun _ => rfl) nofun
  | nested => exact h.goto hop rfl rfl rfl rfl (fun _ => rfl) nofun
  | @found call found houter =>
    refine h.goto hop rfl rfl rfl rfl (fun c => ?_) nofun
    cases call <;> first | rfl | cases hfits
  | @hit call child =>
    refine h.goto hop rfl rfl rfl rfl (fun c => ?_) nofun
    cases call <;> first | rfl | cases hfits
  | miss => exact h.goto hop rfl rfl rfl rfl (fun _ => rfl) nofun
  | @exist call path hcreates hsome =>
    refine h.goto hop rfl rfl rfl rfl (fun c => ?_) nofun
    rw [told_of_creates hcreates, told_of_creates hcreates]
  | @absent call path hcreates hnone =>
    refine h.goto hop rfl rfl rfl rfl (fun _ => rfl) fun _ p hp => ?_
    cases hcreates.symm.trans hp
    exact hnone
  | @insert call path messageType option hcall =>
    have hcreates : call.creates = some path := by
      obtain rfl | rfl := hcall <;> rfl
    exact h.insert hbooked hop rfl hcreates messageType option rfl nofun
  | remove => exact h.remove hop rfl rfl rfl rfl
  | leave => exact h.goto hop rfl rfl rfl rfl (fun _ => rfl) nofun

theorem Move.registered {a : SystemAction T} (move : s.Move a s') (hbooked : s.Booked)
    (h : s.Registered) : s'.Registered := by
  cases move with
  | call hcall => exact h.call hcall
  | @request i op mode hop _ _ =>
    obtain ⟨hlength, hget⟩ := List.getElem?_eq_some_iff.mp hop
    refine h.goto hop ?_ rfl rfl rfl (fun _ => rfl) (h.free op (List.mem_of_getElem? hop))
    rw [← hget, List.set_getElem_self]
  | grant hop hwants _ =>
    exact h.goto hop rfl rfl rfl rfl (Operation.acquired_told hwants)
      (absurd · (Operation.acquired_point hwants))
  | access hop _ hacc => exact h.access hbooked hop hacc
  | actor hnd hstep => exact h.actor hnd hstep

theorem reachable_registered (h : (machine ∅ []).Reachable s) : s.Registered := by
  refine h.invariant (P := Registered) ?_ fun hr hs _ hstep =>
    (step_move hstep).registered (reachable_booked hr) hs
  refine ⟨fun c nd hnd => ?_, List.forall_mem_nil _, fun c nd hnd => ?_, fun p c => ?_,
    List.forall_mem_nil _⟩
  · cases hnd
  · cases hnd
  · constructor
    · rintro ⟨any, hany, -⟩
      cases hany
    · rintro ⟨⟨nd, hnd, -⟩, -⟩
      cases hnd

theorem Registered.present_of_silent (h : s.Registered) {nd : Node T}
    (hnd : s.instances[child]? = some nd) (hsilent : ∀ e ∈ nd.mbox.log, e.notice = false) :
    s.Present nd.mbox.path child := by
  refine ⟨⟨nd, hnd, rfl⟩, ?_⟩
  have hnone : s.operations.countP (Operation.informs child) = 0 := by
    rw [h.once child nd hnd]
    exact List.countP_eq_zero.mpr fun e he => by simp [hsilent e he]
  rw [List.any_eq_false]
  exact fun o ho htold => List.countP_eq_zero.mp hnone o ho (informs_of_told htold)

theorem Registered.present_unique (h : s.Registered) {child' : ChildId}
    (hp : s.Present path child) (hp' : s.Present path child') : child = child' := by
  obtain ⟨any, hany, rfl⟩ := (h.entry path child).mpr hp
  obtain ⟨any', hany', rfl⟩ := (h.entry path child').mpr hp'
  cases hany.symm.trans hany'
  rfl

/-- In every run, for every path: one actor at most is present, and the map has an entry for
it and for no other. So the entry that a `ChildTerminate` removes is that of its sender. An
actor whose dispatcher has not notified the guard is present. -/
theorem registry_unique (h : (machine ∅ [] : Machine (ActorSystem T) _).Reachable s) :
    (∀ path child child', s.Present path child → s.Present path child' → child = child') ∧
    (∀ path child, (∃ any, s.actors.lookup path = some any ∧ any.child = child) ↔
      s.Present path child) ∧
    (∀ path, s.actors.lookup path = none ↔ ∀ child, ¬ s.Present path child) ∧
    (∀ (i : Nat) (path : ActorPath) (child : ChildId),
      s.operations[i]? = some ⟨.childTerminate path child, .removing⟩ →
      ∃ any, s.actors.lookup path = some any ∧ any.child = child) ∧
    ∀ (child : ChildId) (nd : Node T), s.instances[child]? = some nd →
      (∀ e ∈ nd.mbox.log, e.notice = false) → s.Present nd.mbox.path child := by
  have hregistered := reachable_registered h
  have hentry := hregistered.entry
  refine ⟨fun path child child' => hregistered.present_unique, hentry,
    fun path => ⟨fun hnone child hp => ?_, fun habsent => ?_⟩, fun i path child hop =>
      (hentry path child).mpr (hregistered.present hop rfl rfl),
    fun child nd => hregistered.present_of_silent⟩
  · obtain ⟨any, hany, -⟩ := (hentry path child).mpr hp
    cases hnone.symm.trans hany
  · cases hlookup : s.actors.lookup path with
    | none => rfl
    | some any => exact absurd ((hentry path any.child).mp ⟨any, hlookup, rfl⟩) (habsent _)

/-- The name of an actor that has ended is used again. -/
def recreatedRun : List (SystemAction Nat) :=
  .call (.createActor ⟨["user", "a"]⟩ 0 {}) :: List.replicate 5 (.proceed 0) ++
    (Action.client 0 :: Node.stopping ++
      Node.callbacks [⟨.create, [], false⟩, ⟨.onEnter, [], false⟩] ++ Node.turns 6 ++
      Node.callbacks [⟨.onExit, [], false⟩] ++ Node.turns 1).map (.actor 0) ++
    List.replicate 4 (.proceed 1) ++
    .call (.createActor ⟨["user", "a"]⟩ 0 {}) :: List.replicate 5 (.proceed 2)

def recreatedSystem : ActorSystem Nat :=
  (vacant.exec vacant.start recreatedRun).get (by decide +kernel)

theorem recreatedSystem_run : vacant.exec vacant.start recreatedRun = some recreatedSystem :=
  (Option.some_get _).symm

theorem registry_unique_recreated :
    (∃ any, recreatedSystem.actors.lookup ⟨["user", "a"]⟩ = some any ∧ any.child = 1) ∧
    ∀ child, recreatedSystem.Present ⟨["user", "a"]⟩ child → child = 1 := by
  have hunique := registry_unique (Reach.exec_reachable .start recreatedSystem_run)
  have hpresent : recreatedSystem.Present ⟨["user", "a"]⟩ 1 :=
    ⟨⟨recreatedSystem.instances[1]?.get (by decide +kernel), (Option.some_get _).symm,
      by decide +kernel⟩, by decide +kernel⟩
  exact ⟨(hunique.2.1 _ _).mpr hpresent, fun child hp => hunique.1 _ _ _ hp hpresent⟩

end ActorSystem

end Ruactor
