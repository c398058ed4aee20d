import Mathlib.Algebra.Ring.Nat
import Ruactor.Guards

/-!
# Getting or creating one actor

Calls of `get_or_create_actor` with one path and one message type. The lookup and the
creation are two critical sections. If no call looks up while another one is between the two,
all of them return one actor.
-/

namespace Ruactor

open Machine

variable {T : Type}

namespace Operation

/-- The steps that are before it, at most. -/
def remaining (op : Operation) : Nat :=
  match op.point with
  | .reading => 9
  | .getting => 8
  | .lookingUp => 7
  | .got _ => 6
  | .matching _ => 5
  | .writing => 4
  | .checking => 3
  | .inserting | .removing => 2
  | .leaving _ => 1
  | .returned _ => 0

/-- The call has not looked up yet. -/
def early (op : Operation) : Bool :=
  match op.point with
  | .reading | .getting | .lookingUp => true
  | _ => false

/-- The call has looked up and found nothing, and has created nothing yet. -/
def missed (op : Operation) : Bool :=
  match op.point with
  | .got none | .matching none | .writing | .checking | .inserting => true
  | _ => false

/-- What the call has found or created, is this actor. -/
def agrees (child : ChildId) (op : Operation) : Bool :=
  match op.point with
  | .got found | .matching found => decide (found = some child)
  | .leaving answer | .returned answer => decide (answer = .ok child)
  | _ => op.early

theorem agrees_of_early {op : Operation} (h : op.early = true) (child : ChildId) :
    op.agrees child = true := by
  obtain ⟨call, point⟩ := op
  cases point <;> first | rfl | cases h

theorem acquired_remaining {op : Operation} {mode : LockMode} (h : op.wants = some mode) :
    op.acquired.remaining < op.remaining := by
  obtain ⟨call, point⟩ := op
  cases point <;> cases h <;> cases call <;> simp [acquired, remaining]

theorem acquired_agrees {op : Operation} {mode : LockMode} {child : ChildId}
    (hwants : op.wants = some mode) (h : op.agrees child = true) :
    op.acquired.agrees child = true := by
  obtain ⟨call, point⟩ := op
  cases point <;> cases hwants <;> first | rfl | cases h

theorem acquired_open {path : ActorPath} {messageType : TypeId} {option : PropsOption}
    {mode : LockMode} {op : Operation}
    (hcall : op.call = .getOrCreateActor path messageType option) (hwants : op.wants = some mode) :
    op.acquired.early = op.early ∧ op.acquired.missed = op.missed := by
  obtain ⟨call, point⟩ := op
  cases hcall
  cases point <;> cases hwants <;> exact ⟨rfl, rfl⟩

end Operation

namespace ActorSystem

variable {s s' : ActorSystem T} {i : Nat} {op op' : Operation} {path : ActorPath}
  {messageType : TypeId}

/-- It falls with every step of an operation. -/
def rank (s : ActorSystem T) : Nat :=
  2 * (s.operations.map Operation.remaining).sum + (s.operations.length - s.lock.waiting.length)

theorem Access.remaining (h : s.Access i op s' op') : op'.remaining < op.remaining := by
  cases h <;> simp [Operation.remaining]

theorem sum_set (hop : s.operations[i]? = some op) (hlt : op'.remaining < op.remaining) :
    ((s.operations.set i op').map Operation.remaining).sum <
      (s.operations.map Operation.remaining).sum := by
  obtain ⟨before, after, hsplit, hset⟩ := set_split hop
  rw [hset, hsplit]
  simp only [List.map_append, List.map_cons, List.sum_append, List.sum_cons]
  omega

theorem Booked.waiting_lt (h : s.Booked) (hop : s.operations[i]? = some op)
    (hwaits : ∀ mode, (i, mode) ∉ s.lock.waiting) :
    s.lock.waiting.length < s.operations.length := by
  have hnodup : (i :: s.lock.waiting.map Prod.fst).Nodup := by
    rw [List.nodup_cons]
    refine ⟨fun hmem => ?_, h.queued⟩
    obtain ⟨⟨_, mode⟩, hr, rfl⟩ := List.mem_map.mp hmem
    exact hwaits mode hr
  have hsubset : i :: s.lock.waiting.map Prod.fst ⊆ List.range s.operations.length := by
    intro j hj
    rw [List.mem_range]
    rcases List.mem_cons.mp hj with rfl | hj
    · exact (List.getElem?_eq_some_iff.mp hop).1
    · obtain ⟨⟨_, mode⟩, hr, rfl⟩ := List.mem_map.mp hj
      obtain ⟨o, ho, -⟩ := h.waiting _ mode hr
      exact (List.getElem?_eq_some_iff.mp ho).1
  have hle := (List.subperm_of_subset hnodup hsubset).length_le
  rw [List.length_cons, List.length_map, List.length_range] at hle
  exact hle

theorem Booked.rank_lt (h : s.Booked) (hstep : s.step (.proceed i) = some s') :
    s'.rank < s.rank := by
  cases step_move hstep with
  | @request _ op mode hop hwants hwaits =>
    have hlt := h.waiting_lt hop fun mode' hmem => by
      cases hwants.symm.trans (h.wants_unique hop hmem)
      exact hwaits hmem
    simp only [rank, RwLock.request, List.length_append, List.length_singleton]
    omega
  | @grant _ op mode lock hop hwants hgrant =>
    obtain ⟨before, after, hsplit, hwaiting, -⟩ := RwLock.grant_some hgrant
    have hsum := sum_set hop (Operation.acquired_remaining hwants)
    simp only [rank, ActorSystem.goto, hsplit, hwaiting, List.length_set, List.length_append,
      List.length_cons]
    omega
  | @access _ op t op' hop _ hacc =>
    have hsum := sum_set hop hacc.remaining
    obtain ⟨hops, hlock⟩ := hacc.guards
    have hwaiting : t.lock.waiting = s.lock.waiting := by
      rcases hlock with ⟨hsame, -⟩ | ⟨mode, hrelease, -⟩
      · rw [hsame]
      · rw [hrelease]
        rfl
    simp only [rank, ActorSystem.goto, hops, hwaiting, List.length_set]
    omega

/-- The clients make these calls, and no actor ends. -/
def gathering (path : ActorPath) (messageType : TypeId) (s : ActorSystem T) :
    SystemAction T → Prop
  | .call (.getOrCreateActor p m _) => p = path ∧ m = messageType
  | .call _ => False
  | .proceed _ => True
  | .actor child action => ∀ nd ∈ s.instances[child]?, ∀ nd' ∈ nd.step action,
      notices child (nd'.mbox.log.drop nd.mbox.log.length) = []

/-- No call looks up between another one's lookup, which finds nothing, and its creation. -/
def undisturbed (s : ActorSystem T) : SystemAction T → Prop
  | .proceed i => ∀ op ∈ s.operations[i]?, op.point = .lookingUp →
      ∀ o ∈ s.operations, o.missed = false
  | _ => True

instance (s : ActorSystem Nat) (a : SystemAction Nat) :
    Decidable (gathering path messageType s a) :=
  match a with
  | .call (.getOrCreateActor _ _ _) => inferInstanceAs (Decidable (_ ∧ _))
  | .call (.getActor _ _) | .call (.createActor _ _ _) | .call (.childTerminate _ _) => isFalse id
  | .proceed _ => isTrue trivial
  | .actor child action => inferInstanceAs (Decidable (∀ nd ∈ s.instances[child]?,
      ∀ nd' ∈ nd.step action, notices child (nd'.mbox.log.drop nd.mbox.log.length) = []))

instance (s : ActorSystem T) (a : SystemAction T) : Decidable (undisturbed s a) :=
  match a with
  | .proceed i => inferInstanceAs (Decidable (∀ op ∈ s.operations[i]?, _))
  | .call _ | .actor _ _ => isTrue trivial

/-- Either there is the actor and the calls agree on it, or at most one call is about to
create it. -/
structure Gathered (path : ActorPath) (messageType : TypeId) (s : ActorSystem T) : Prop where
  calls : ∀ op ∈ s.operations, ∃ option, op.call = .getOrCreateActor path messageType option
  here : ∀ any, s.actors.lookup path = some any →
    any.messageType = messageType ∧ ∀ op ∈ s.operations, op.agrees any.child = true
  absent : s.actors.lookup path = none →
    (∀ op ∈ s.operations, op.early = true ∨ op.missed = true) ∧
      s.operations.countP Operation.missed ≤ 1

theorem Gathered.goto (h : s.Gathered path messageType) (hop : s.operations[i]? = some op)
    (hops : s'.operations = s.operations.set i op') (hactors : s'.actors = s.actors)
    (hcall : op'.call = op.call)
    (hhere : ∀ any, s.actors.lookup path = some any → op.agrees any.child = true →
      op'.agrees any.child = true)
    (habsent : s.actors.lookup path = none → op.early = true ∨ op.missed = true →
      (op'.early = true ∨ op'.missed = true) ∧
        (op'.missed = true → op.missed = true ∨ ∀ o ∈ s.operations, o.missed = false)) :
    s'.Gathered path messageType := by
  have hmem : op ∈ s.operations := List.mem_of_getElem? hop
  refine ⟨fun o ho => ?_, fun any hany => ?_, fun hnone => ?_⟩
  · rcases List.mem_or_eq_of_mem_set (hops ▸ ho) with hold | rfl
    · exact h.calls o hold
    · rw [hcall]
      exact h.calls op hmem
  · rw [hactors] at hany
    obtain ⟨htype, hagree⟩ := h.here any hany
    refine ⟨htype, fun o ho => ?_⟩
    rcases List.mem_or_eq_of_mem_set (hops ▸ ho) with hold | rfl
    · exact hagree o hold
    · exact hhere any hany (hagree op hmem)
  · rw [hactors] at hnone
    obtain ⟨hopen, hcount⟩ := h.absent hnone
    obtain ⟨hopen', hmissed⟩ := habsent hnone (hopen op hmem)
    refine ⟨fun o ho => ?_, ?_⟩
    · rcases List.mem_or_eq_of_mem_set (hops ▸ ho) with hold | rfl
      · exact hopen o hold
      · exact hopen'
    · obtain ⟨before, after, hsplit, hset⟩ := set_split hop
      rw [hops, hset, List.countP_append, List.countP_cons]
      rw [hsplit, List.countP_append, List.countP_cons] at hcount
      cases hm : op'.missed with
      | false =>
        simp only [Bool.false_eq_true, if_false]
        omega
      | true =>
        rcases hmissed hm with hold | hnone
        · rw [hold] at hcount
          omega
        · have hzero : s.operations.countP Operation.missed = 0 :=
            List.countP_eq_zero.mpr fun o ho => by simp [hnone o ho]
          rw [hsplit, List.countP_append, List.countP_cons] at hzero
          simp only [if_true]
          omega

/-- The one call that has missed creates the actor, and the others have not looked up. -/
theorem Gathered.insert (h : s.Gathered path messageType) (hop : s.operations[i]? = some op)
    (hpoint : op.point = .inserting) (option : PropsOption) (hcall : op'.call = op.call)
    (hpoint' : op'.point = .leaving (.ok s.instances.length)) :
    Gathered path messageType ((s.create path messageType option).goto i op') := by
  have hmem : op ∈ s.operations := List.mem_of_getElem? hop
  have hmissed : op.missed = true := by rw [Operation.missed, hpoint]
  have hnone : s.actors.lookup path = none := by
    cases hlookup : s.actors.lookup path with
    | none => rfl
    | some any =>
      have hagree := (h.here any hlookup).2 op hmem
      simp [Operation.agrees, Operation.early, hpoint] at hagree
  obtain ⟨hopen, hcount⟩ := h.absent hnone
  have hlookup : ((s.create path messageType option).goto i op').actors.lookup path =
      some ⟨messageType, s.instances.length⟩ := AList.lookup_insert _
  obtain ⟨before, after, hsplit, hset⟩ := set_split hop
  rw [hsplit, List.countP_append, List.countP_cons_of_pos hmissed] at hcount
  have hearly : ∀ o, o ∈ before ∨ o ∈ after → o.early = true := by
    intro o ho
    refine (hopen o (by simp [hsplit]; tauto)).resolve_right fun hm => ?_
    rcases ho with ho | ho
    · have hpos := List.countP_pos_iff.mpr ⟨o, ho, hm⟩
      omega
    · have hpos := List.countP_pos_iff.mpr ⟨o, ho, hm⟩
      omega
  have hops : ((s.create path messageType option).goto i op').operations =
      before ++ op' :: after := hset op'
  refine ⟨fun o ho => ?_, fun any hany => ?_, fun hgone => ?_⟩
  · rcases List.mem_or_eq_of_mem_set ho with hold | rfl
    · exact h.calls o hold
    · rw [hcall]
      exact h.calls op hmem
  · cases hlookup.symm.trans hany
    refine ⟨rfl, fun o ho => ?_⟩
    rw [hops] at ho
    rcases List.mem_append.mp ho with ho | ho
    · exact Operation.agrees_of_early (hearly o (.inl ho)) _
    · rcases List.mem_cons.mp ho with rfl | ho
      · simp [Operation.agrees, hpoint']
      · exact Operation.agrees_of_early (hearly o (.inr ho)) _
  · cases hlookup.symm.trans hgone

theorem Gathered.access (h : s.Gathered path messageType) (hop : s.operations[i]? = some op)
    (hacc : s.Access i op s' op') (ok : undisturbed s (.proceed i)) :
    Gathered path messageType (s'.goto i op') := by
  have hmem : op ∈ s.operations := List.mem_of_getElem? hop
  obtain ⟨option, hcall⟩ := h.calls op hmem
  cases hacc with
  | @lookUp call p m hpath =>
    have hfind : s.find p m = s.find path messageType := by
      rcases hpath with rfl | ⟨_, rfl⟩ <;> cases hcall
      rfl
    refine h.goto hop rfl rfl rfl (fun any hany _ => ?_) fun hnone _ => ?_
    · have hfound : s.find p m = some any.child := by
        rw [hfind, find, hany]
        exact if_pos (h.here any hany).1
      simp [Operation.agrees, hfound]
    · have hfound : s.find p m = none := by rw [hfind, find, hnone]
      refine ⟨.inr ?_, fun _ => .inr (ok _ hop rfl)⟩
      rw [hfound]
      rfl
  | @nested p m o found =>
    refine h.goto hop rfl rfl rfl (fun _ _ => id) fun _ hopen => ?_
    cases found with
    | none => exact ⟨.inr rfl, fun _ => .inl rfl⟩
    | some child => simp [Operation.early, Operation.missed] at hopen
  | found houter =>
    cases hcall
    cases houter
  | hit =>
    refine h.goto hop rfl rfl rfl (fun any _ hagree => ?_) fun _ hopen => ?_
    · simpa [Operation.agrees] using hagree
    · simp [Operation.early, Operation.missed] at hopen
  | miss =>
    refine h.goto hop rfl rfl rfl (fun any _ hagree => ?_) fun _ _ =>
      ⟨.inr rfl, fun _ => .inl rfl⟩
    simp [Operation.agrees] at hagree
  | exist hcreates hsome =>
    cases hcall
    cases hcreates
    obtain ⟨any, hany⟩ := Option.isSome_iff_exists.mp hsome
    have hagree := (h.here any hany).2 _ hmem
    simp [Operation.agrees, Operation.early] at hagree
  | absent hcreates hnone =>
    refine h.goto hop rfl rfl rfl (fun any _ hagree => ?_) fun _ _ =>
      ⟨.inr rfl, fun _ => .inl rfl⟩
    simp [Operation.agrees, Operation.early] at hagree
  | @insert call p m o hpath =>
    rcases hpath with rfl | rfl <;> cases hcall
    exact h.insert hop rfl option rfl rfl
  | remove => cases hcall
  | leave =>
    refine h.goto hop rfl rfl rfl (fun _ _ => id) fun _ hopen => ?_
    simp [Operation.early, Operation.missed] at hopen

theorem Move.gathered {a : SystemAction T} (move : s.Move a s') (h : s.Gathered path messageType)
    (hgathering : s.gathering path messageType a) (ok : undisturbed s a) :
    s'.Gathered path messageType := by
  cases move with
  | @call call hcall =>
    cases call with
    | getOrCreateActor p m option =>
      obtain ⟨rfl, rfl⟩ := hgathering
      refine ⟨fun o ho => ?_, fun any hany => ⟨(h.here any hany).1, fun o ho => ?_⟩,
        fun hnone => ⟨fun o ho => ?_, ?_⟩⟩
      · rcases List.mem_append.mp ho with hold | hnew
        · exact h.calls o hold
        · exact ⟨option, by rw [List.mem_singleton.mp hnew]⟩
      · rcases List.mem_append.mp ho with hold | hnew
        · exact (h.here any hany).2 o hold
        · rw [List.mem_singleton.mp hnew]
          rfl
      · rcases List.mem_append.mp ho with hold | hnew
        · exact (h.absent hnone).1 o hold
        · rw [List.mem_singleton.mp hnew]
          exact .inl rfl
      · rw [List.countP_append]
        exact (h.absent hnone).2
    | _ => cases hgathering
  | request _ _ _ => exact ⟨h.calls, h.here, h.absent⟩
  | @grant i op mode lock hop hwants _ =>
    obtain ⟨option, hcall⟩ := h.calls op (List.mem_of_getElem? hop)
    obtain ⟨hearly, hmissed⟩ := Operation.acquired_open hcall hwants
    refine h.goto hop rfl rfl rfl (fun _ _ => Operation.acquired_agrees hwants) fun _ hopen => ?_
    rw [hearly, hmissed]
    exact ⟨hopen, .inl⟩
  | access hop _ hacc => exact h.access hop hacc ok
  | actor hnd hstep =>
    rw [hgathering _ hnd _ hstep, List.append_nil]
    exact ⟨h.calls, h.here, h.absent⟩

theorem reach_gathered {actors : AList fun _ : ActorPath => ChildContainer}
    {instances : List (Node T)}
    (hentry : ∀ any, actors.lookup path = some any → any.messageType = messageType)
    (h : (machine actors instances).Reach
      (fun s a => gathering path messageType s a ∧ undisturbed s a) s) :
    s.Gathered path messageType := by
  refine h.invariant (P := Gathered path messageType) ?_ fun _ hs ok hstep =>
    (step_move hstep).gathered hs ok.1 ok.2
  exact ⟨List.forall_mem_nil _, fun any hany => ⟨hentry any hany, List.forall_mem_nil _⟩,
    fun _ => ⟨List.forall_mem_nil _, Nat.zero_le 1⟩⟩

/-- While no call looks up between the lookup of another one and its creation, and none asks
for the lock again behind a writer: all calls that have returned have returned the actor of
the registry; while one has not, one can proceed; and they cannot proceed forever. -/
theorem get_or_create_atomic {actors : AList fun _ : ActorPath => ChildContainer}
    {instances : List (Node T)}
    (hentry : ∀ any, actors.lookup path = some any → any.messageType = messageType)
    (h : (machine actors instances).Reach
      (fun s a => gathering path messageType s a ∧ undisturbed s a ∧ unnested s a) s) :
    (∃ child, ∀ op ∈ s.operations, ∀ answer, op.point = .returned answer →
      answer = .ok child ∧ s.actors.lookup path = some ⟨messageType, child⟩) ∧
    ((∃ op ∈ s.operations, op.pending = true) → ∃ i, s.CanProceed i) ∧
    ∀ i t, s.step (.proceed i) = some t → t.rank < s.rank := by
  have hbooked := reachable_booked h.reachable
  have hyielding := reach_yielding (h.mono fun _ _ ok => ok.2.2)
  have hgathered := reach_gathered hentry (h.mono fun _ _ ok => ⟨ok.1, ok.2.1⟩)
  refine ⟨?_, fun ⟨_, hmem, hpending⟩ => hbooked.live hyielding hmem hpending,
    fun i t => hbooked.rank_lt⟩
  cases hlookup : s.actors.lookup path with
  | none =>
    refine ⟨0, fun op hop answer hpoint => ?_⟩
    have hopen := (hgathered.absent hlookup).1 op hop
    simp [Operation.early, Operation.missed, hpoint] at hopen
  | some any =>
    obtain ⟨htype, hagree⟩ := hgathered.here any hlookup
    refine ⟨any.child, fun op hop answer hpoint => ?_⟩
    have hsame := hagree op hop
    rw [Operation.agrees, hpoint] at hsame
    exact ⟨of_decide_eq_true hsame, by rw [← htype]⟩

/-- Both calls look up before one of them creates. -/
def racingRun : List (SystemAction Nat) :=
  [.call (.getOrCreateActor ⟨["user", "a"]⟩ 0 {}), .call (.getOrCreateActor ⟨["user", "a"]⟩ 0 {})] ++
    List.replicate 5 (.proceed 0) ++ List.replicate 7 (.proceed 1) ++ List.replicate 7 (.proceed 0) ++
    List.replicate 4 (.proceed 1)

def racingSystem : ActorSystem Nat := (vacant.exec vacant.start racingRun).get (by decide +kernel)

theorem racingSystem_run : vacant.exec vacant.start racingRun = some racingSystem :=
  (Option.some_get _).symm

/-- The call that comes second to the creation returns an error. -/
theorem racing_not_atomic :
    vacant.Reach (fun s a => gathering ⟨["user", "a"]⟩ 0 s a ∧ unnested s a) racingSystem ∧
    racingSystem.operations.map Operation.point =
      [.returned (.ok 0), .returned (.errExists ⟨["user", "a"]⟩)] ∧
    ¬ ∃ child, ∀ op ∈ racingSystem.operations, ∀ answer, op.point = .returned answer →
      answer = .ok child := by
  have hpoints : racingSystem.operations.map Operation.point =
      [.returned (.ok 0), .returned (.errExists ⟨["user", "a"]⟩)] := by decide +kernel
  refine ⟨Reach.exec .start (by decide +kernel) racingSystem_run, hpoints, ?_⟩
  rintro ⟨child, hall⟩
  have hmem : .returned (.errExists ⟨["user", "a"]⟩) ∈
      racingSystem.operations.map Operation.point :=
    hpoints ▸ by simp
  obtain ⟨op, hop, hpoint⟩ := List.mem_map.mp hmem
  cases hall op hop _ hpoint

/-- The second call waits for its first lock until the other one has returned. -/
def gatheredRun : List (SystemAction Nat) :=
  [.call (.getOrCreateActor ⟨["user", "a"]⟩ 0 {}), .call (.getOrCreateActor ⟨["user", "a"]⟩ 0 {}),
    .proceed 1] ++ List.replicate 12 (.proceed 0) ++ List.replicate 6 (.proceed 1)

def gatheredSystem : ActorSystem Nat :=
  (vacant.exec vacant.start gatheredRun).get (by decide +kernel)

theorem gatheredSystem_run : vacant.exec vacant.start gatheredRun = some gatheredSystem :=
  (Option.some_get _).symm

theorem get_or_create_atomic_gathered :
    (∃ child, ∀ op ∈ gatheredSystem.operations, ∀ answer, op.point = .returned answer →
      answer = .ok child ∧ gatheredSystem.actors.lookup ⟨["user", "a"]⟩ = some ⟨0, child⟩) ∧
    ∀ op ∈ gatheredSystem.operations, op.pending = false := by
  have hrun : vacant.Reach (fun s a => gathering ⟨["user", "a"]⟩ 0 s a ∧ undisturbed s a ∧
      unnested s a) gatheredSystem :=
    Reach.exec .start (by decide +kernel) gatheredSystem_run
  exact ⟨(get_or_create_atomic (fun any hany => by cases hany) hrun).1, by decide +kernel⟩

end ActorSystem

end Ruactor
