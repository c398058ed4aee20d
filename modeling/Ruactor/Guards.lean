import Ruactor.Registry

/-!
# The guards of the registry

What the lock knows of its holders and of those who wait is what the program points of the
operations say. Only `get_or_create_actor_path` asks for the lock while it holds it. If no
writer waits when it does so, the operations never wait for each other in a circle.
-/

namespace Ruactor

open Machine

variable {T : Type}

namespace Operation

/-- The point is one of the function that was called. -/
def fits (op : Operation) : Bool :=
  match op.point, op.call with
  | .reading, .getOrCreateActor _ _ _ | .matching _, .getOrCreateActor _ _ _ => true
  | .getting, .getActor _ _ | .getting, .getOrCreateActor _ _ _ => true
  | .lookingUp, .getActor _ _ | .lookingUp, .getOrCreateActor _ _ _ => true
  | .got _, .getActor _ _ | .got _, .getOrCreateActor _ _ _ => true
  | .checking, .createActor _ _ _ | .checking, .getOrCreateActor _ _ _ => true
  | .inserting, .createActor _ _ _ | .inserting, .getOrCreateActor _ _ _ => true
  | .removing, .childTerminate _ _ => true
  | .writing, .getActor _ _ | .leaving _, .getActor _ _ => false
  | .writing, _ | .leaving _, _ | .returned _, _ => true
  | _, _ => false

theorem acquired_fits {op : Operation} (h : op.fits = true) : op.acquired.fits = true := by
  obtain ⟨call, point⟩ := op
  cases point <;> cases call <;> first | rfl | cases h

theorem acquired_holds {op : Operation} {mode : LockMode} (hfits : op.fits = true)
    (h : op.wants = some mode) : op.acquired.holds = mode :: op.holds := by
  obtain ⟨call, point⟩ := op
  cases point <;> cases h <;> cases call <;> first | rfl | cases hfits

theorem start_fits (call : SystemCall) : fits ⟨call, call.start⟩ = true := by
  cases call <;> rfl

theorem start_holds (call : SystemCall) : holds ⟨call, call.start⟩ = [] := by
  cases call <;> rfl

theorem pending_of_holds {op : Operation} {mode : LockMode} (h : mode ∈ op.holds) :
    op.pending = true := by
  obtain ⟨call, point⟩ := op
  cases point <;> first | rfl | cases h

/-- An operation that asks for the lock while it holds it, is a reader and wants to read. -/
theorem nested_reads {op : Operation} {mode mode' : LockMode} (hwants : op.wants = some mode)
    (hholds : mode' ∈ op.holds) : mode = .read ∧ mode' = .read := by
  obtain ⟨call, point⟩ := op
  cases point <;> cases hwants <;> cases call <;> cases hholds
  · exact ⟨rfl, rfl⟩
  · contradiction

end Operation

namespace ActorSystem

variable {s s' : ActorSystem T} {i : Nat} {op op' : Operation}

/-- The guards of the operation `i`. -/
def holds (s : ActorSystem T) (i : Nat) : List LockMode :=
  (s.operations[i]?.map Operation.holds).getD []

/-- The lock knows the operations. -/
structure Booked (s : ActorSystem T) : Prop where
  fits : ∀ op ∈ s.operations, op.fits = true
  held : ∀ i mode, s.lock.held.count (i, mode) = (s.holds i).count mode
  waiting : ∀ i mode, (i, mode) ∈ s.lock.waiting →
    ∃ op, s.operations[i]? = some op ∧ op.wants = some mode
  queued : s.lock.Queued

theorem Booked.mem_held (h : s.Booked) {mode : LockMode} :
    (i, mode) ∈ s.lock.held ↔ mode ∈ s.holds i := by
  rw [← List.count_pos_iff, h.held, List.count_pos_iff]

theorem holds_of_get (hop : s.operations[i]? = some op) : s.holds i = op.holds := by
  simp [holds, hop]

/-- The operations around the one that goes on. -/
theorem set_split (hop : s.operations[i]? = some op) :
    ∃ before after, s.operations = before ++ op :: after ∧
      ∀ op', s.operations.set i op' = before ++ op' :: after := by
  obtain ⟨before, after, hsplit, hadv⟩ := Pool.exists_split hop
  exact ⟨before, after, hsplit, fun op' => by simpa [Pool.advance] using hadv (some op') []⟩

theorem Booked.extend (h : s.Booked) {new : List Operation} (hlock : s'.lock = s.lock)
    (hops : s'.operations = s.operations ++ new)
    (hnew : ∀ op ∈ new, op.fits = true ∧ op.holds = []) : s'.Booked := by
  refine ⟨fun op hop => ?_, fun i mode => ?_, fun i mode hwaits => ?_, hlock ▸ h.queued⟩
  · rw [hops] at hop
    exact (List.mem_append.mp hop).elim (h.fits op) fun hmem => (hnew op hmem).1
  · have hsame : s'.holds i = s.holds i := by
      simp only [holds, hops, List.getElem?_append]
      split
      · rfl
      next hi =>
        rw [List.getElem?_eq_none (Nat.le_of_not_lt hi)]
        cases hop : new[i - s.operations.length]? with
        | none => rfl
        | some op => exact (hnew op (List.mem_of_getElem? hop)).2
    rw [hlock, hsame]
    exact h.held i mode
  · obtain ⟨op, hop, hwants⟩ := h.waiting i mode (hlock ▸ hwaits)
    refine ⟨op, ?_, hwants⟩
    rw [hops, List.getElem?_append_left (List.getElem?_eq_some_iff.mp hop).1]
    exact hop

theorem Booked.goto (h : s.Booked) (hop : s.operations[i]? = some op) (hfits : op'.fits = true)
    (hops : s'.operations = s.operations.set i op') (hqueued : s'.lock.Queued)
    (hwaiting : ∀ j mode, (j, mode) ∈ s'.lock.waiting → (j, mode) ∈ s.lock.waiting ∧ j ≠ i)
    (hself : ∀ mode, s'.lock.held.count (i, mode) = op'.holds.count mode)
    (hothers : ∀ j mode, j ≠ i → s'.lock.held.count (j, mode) = s.lock.held.count (j, mode)) :
    s'.Booked := by
  have hi : i < s.operations.length := (List.getElem?_eq_some_iff.mp hop).1
  refine ⟨fun o ho => ?_, fun j mode => ?_, fun j mode hwaits => ?_, hqueued⟩
  · rw [hops] at ho
    rcases List.mem_or_eq_of_mem_set ho with hold | rfl
    · exact h.fits o hold
    · exact hfits
  · by_cases hj : j = i
    · subst hj
      rw [hself, holds, hops, List.getElem?_set_self hi]
      rfl
    · rw [hothers j mode hj, h.held, holds, holds, hops, List.getElem?_set_ne (Ne.symm hj)]
  · obtain ⟨hold, hj⟩ := hwaiting j mode hwaits
    obtain ⟨o, ho, hwants⟩ := h.waiting j mode hold
    exact ⟨o, by rw [hops, List.getElem?_set_ne (Ne.symm hj), ho], hwants⟩

/-- What the steps that do not take the lock do to it. -/
theorem Access.guards (h : s.Access i op s' op') : s'.operations = s.operations ∧
    ((s'.lock = s.lock ∧ op'.holds = op.holds) ∨
      ∃ mode, s'.lock = s.lock.release i mode ∧ op.holds = mode :: op'.holds) := by
  cases h with
  | lookUp _ | exist _ _ | absent _ _ | insert _ | remove => exact ⟨rfl, .inl ⟨rfl, rfl⟩⟩
  | nested | hit | miss | leave => exact ⟨rfl, .inr ⟨_, rfl, rfl⟩⟩
  | found houter => exact ⟨rfl, .inr ⟨_, rfl, by simp [Operation.holds, houter]⟩⟩

theorem Access.fits (h : s.Access i op s' op') (hfits : op.fits = true) : op'.fits = true := by
  cases h with
  | @lookUp call _ _ hcall =>
    obtain rfl | ⟨option, rfl⟩ := hcall <;> rfl
  | @found call _ _ | @exist call _ _ _ | @absent call _ _ _ | @hit call _ | @miss call =>
    cases call <;> first | rfl | cases hfits
  | insert hcall => obtain rfl | rfl := hcall <;> rfl
  | nested | remove | leave => rfl

theorem notices_fits {child : ChildId} {events : List (Event T)} :
    ∀ op ∈ notices child events, op.fits = true ∧ op.holds = [] := by
  intro op hop
  obtain ⟨e, -, he⟩ := List.mem_filterMap.mp hop
  cases e with
  | notified parent path =>
    cases parent <;> cases he
    exact ⟨rfl, rfl⟩
  | _ => cases he

theorem Booked.wants_unique (h : s.Booked) (hop : s.operations[i]? = some op) {mode : LockMode}
    (hwaits : (i, mode) ∈ s.lock.waiting) : op.wants = some mode := by
  obtain ⟨o, ho, hwants⟩ := h.waiting i mode hwaits
  cases hop.symm.trans ho
  exact hwants

theorem Booked.request (h : s.Booked) (hop : s.operations[i]? = some op) {mode : LockMode}
    (hwants : op.wants = some mode) (hwaits : (i, mode) ∉ s.lock.waiting) :
    Booked { s with lock := s.lock.request i mode } := by
  refine ⟨h.fits, h.held, fun j mode' hmem => ?_, h.queued.request (fun mode' hmem => ?_) mode⟩
  · rcases List.mem_append.mp hmem with hold | hnew
    · exact h.waiting j mode' hold
    · cases List.mem_singleton.mp hnew
      exact ⟨op, hop, hwants⟩
  · cases hwants.symm.trans (h.wants_unique hop hmem)
    exact hwaits hmem

theorem Booked.grant (h : s.Booked) (hop : s.operations[i]? = some op) {mode : LockMode}
    (hwants : op.wants = some mode) {lock : RwLock Nat} (hgrant : s.lock.grant i mode = some lock) :
    Booked ({ s with lock := lock }.goto i op.acquired) := by
  have hfits := h.fits op (List.mem_of_getElem? hop)
  have hqueued := h.queued
  obtain ⟨before, after, hsplit, hwaiting, hheld, -⟩ := RwLock.grant_some hgrant
  refine h.goto hop (Operation.acquired_fits hfits) rfl (h.queued.grant hgrant)
    (fun j mode' hmem => ?_) (fun mode' => ?_) fun j mode' hj => ?_
  · change (j, mode') ∈ lock.waiting at hmem
    rw [hwaiting] at hmem
    refine ⟨?_, ?_⟩
    · rw [hsplit]
      exact (List.mem_append.mp hmem).elim (fun hmem => List.mem_append_left _ hmem) fun hmem =>
        List.mem_append_right _ (List.mem_cons_of_mem _ hmem)
    · rintro rfl
      rw [RwLock.Queued, hsplit, List.map_append, List.map_cons, List.nodup_middle,
        List.nodup_cons, ← List.map_append] at hqueued
      exact hqueued.1 (List.mem_map.mpr ⟨_, hmem, rfl⟩)
  · change lock.held.count (i, mode') = _
    rw [hheld, List.count_append, h.held, holds_of_get hop, Operation.acquired_holds hfits hwants]
    simp [List.count_cons]
  · change lock.held.count (j, mode') = _
    rw [hheld, List.count_append]
    simp [Ne.symm hj]

theorem Booked.access (h : s.Booked) (hop : s.operations[i]? = some op) (hwants : op.wants = none)
    (hacc : s.Access i op s' op') : Booked (s'.goto i op') := by
  obtain ⟨hops, hlock⟩ := hacc.guards
  have hfits := hacc.fits (h.fits op (List.mem_of_getElem? hop))
  have hwaiting : ∀ j mode, (j, mode) ∈ s.lock.waiting → (j, mode) ∈ s.lock.waiting ∧ j ≠ i := by
    refine fun j mode hmem => ⟨hmem, ?_⟩
    rintro rfl
    cases hwants.symm.trans (h.wants_unique hop hmem)
  have hgoto : (s'.goto i op').operations = s.operations.set i op' := by
    rw [ActorSystem.goto, hops]
  have hheld := h.held
  rcases hlock with ⟨hsame, hholds⟩ | ⟨mode, hrelease, hholds⟩
  · have hlock : (s'.goto i op').lock = s.lock := hsame
    refine h.goto hop hfits hgoto (hlock ▸ h.queued) (hlock ▸ hwaiting) (fun mode' => ?_)
      fun j mode' _ => by rw [hlock]
    rw [hlock, hheld, holds_of_get hop, hholds]
  · have hlock : (s'.goto i op').lock = s.lock.release i mode := hrelease
    have hcount : ∀ j mode', (s.lock.release i mode).held.count (j, mode') =
        (s.holds j).count mode' - if (i, mode) = (j, mode') then 1 else 0 := by
      intro j mode'
      rw [← hheld, RwLock.release, List.count_erase]
      simp
    refine h.goto hop hfits hgoto (hlock ▸ h.queued) (hlock ▸ hwaiting) (fun mode' => ?_)
      fun j mode' hj => ?_
    · rw [hlock, hcount, holds_of_get hop, hholds, List.count_cons]
      simp
    · rw [hlock, hcount, hheld]
      simp [Ne.symm hj]

theorem Move.booked {a : SystemAction T} (move : s.Move a s') (h : s.Booked) : s'.Booked := by
  cases move with
  | @call call _ =>
    refine h.extend rfl rfl fun op hop => ?_
    rw [List.mem_singleton.mp hop]
    exact ⟨Operation.start_fits call, Operation.start_holds call⟩
  | request hop hwants hwaits => exact h.request hop hwants hwaits
  | grant hop hwants hgrant => exact h.grant hop hwants hgrant
  | access hop hwants hacc => exact h.access hop hwants hacc
  | actor _ _ => exact h.extend rfl rfl notices_fits

theorem reachable_booked {actors : AList fun _ : ActorPath => ChildContainer}
    {instances : List (Node T)} (h : (machine actors instances).Reachable s) : s.Booked := by
  refine h.invariant (P := Booked) ?_ fun _ hs _ hstep => (step_move hstep).booked hs
  exact ⟨List.forall_mem_nil _, fun _ _ => rfl, fun _ _ => nofun, List.nodup_nil⟩

/-- A call that holds the lock asks for it again only while no writer waits. -/
def unnested (s : ActorSystem T) : SystemAction T → Prop
  | .proceed i => ∀ op ∈ s.operations[i]?, op.holds ≠ [] → ∀ mode ∈ op.wants,
      (i, mode) ∉ s.lock.waiting → ∀ r ∈ s.lock.waiting, r.2 = .read
  | _ => True

instance (s : ActorSystem T) (a : SystemAction T) : Decidable (unnested s a) :=
  match a with
  | .proceed i => inferInstanceAs (Decidable (∀ op ∈ s.operations[i]?, _))
  | .call _ | .actor _ _ => isTrue trivial

theorem Booked.yielding_request (h : s.Booked) (hop : s.operations[i]? = some op)
    {mode : LockMode} (hwants : op.wants = some mode) (hwaits : (i, mode) ∉ s.lock.waiting)
    (ok : unnested s (.proceed i)) (hy : s.lock.Yielding) :
    (s.lock.request i mode).Yielding := by
  refine hy.request ?_
  rintro ⟨held, hheld⟩ r hr
  have hholds : held ∈ op.holds := holds_of_get hop ▸ h.mem_held.mp hheld
  obtain ⟨rfl, rfl⟩ := Operation.nested_reads hwants hholds
  rcases List.mem_append.mp hr with hr | hr
  · -- a writer that held the lock would be alone
    obtain ⟨j, mode⟩ := r
    cases mode with
    | read => rfl
    | write =>
      rw [RwLock.held_of_write hr] at hheld
      cases List.mem_singleton.mp hheld
  · rw [ok op hop (List.ne_nil_of_mem hholds) .read hwants hwaits r hr]
    rfl

theorem Move.yielding {a : SystemAction T} (move : s.Move a s') (h : s.Booked)
    (ok : unnested s a) (hy : s.lock.Yielding) : s'.lock.Yielding := by
  cases move with
  | call _ | actor _ _ => exact hy
  | request hop hwants hwaits => exact h.yielding_request hop hwants hwaits ok hy
  | grant _ _ hgrant => exact hy.grant h.queued hgrant
  | access _ _ hacc =>
    obtain ⟨-, ⟨hsame, -⟩ | ⟨mode, hrelease, -⟩⟩ := hacc.guards
    · exact hsame ▸ hy
    · exact hrelease ▸ hy.release _ mode

/-- The operation can make its next step, and if it waits for the lock, it waits for nobody. -/
def CanProceed (s : ActorSystem T) (i : Nat) : Prop :=
  (s.step (.proceed i)).isSome ∧ ∀ mode, (i, mode) ∈ s.lock.waiting → s.lock.Ready i

theorem access_some (hfits : op.fits = true) (hwants : op.wants = none)
    (hpending : op.pending = true) : (s.access i op).isSome := by
  obtain ⟨call, point⟩ := op
  cases point with
  | matching found => cases found <;> rfl
  | got found => cases call <;> rfl
  | reading | getting | writing => cases hwants
  | returned answer => cases hpending
  | _ => cases call <;> first | rfl | cases hfits

theorem Booked.canProceed (h : s.Booked) (hop : s.operations[i]? = some op)
    (hpending : op.pending = true) (hwaits : ∀ mode, (i, mode) ∉ s.lock.waiting) :
    s.CanProceed i := by
  refine ⟨?_, fun mode hmem => absurd hmem (hwaits mode)⟩
  simp only [step, hop, proceed]
  split
  next hwants => exact access_some (h.fits op (List.mem_of_getElem? hop)) hwants hpending
  next mode _ =>
    rw [if_neg (hwaits mode)]
    rfl

theorem Booked.ready_canProceed (h : s.Booked) (hready : s.lock.Ready i) : s.CanProceed i := by
  refine ⟨?_, fun _ _ => hready⟩
  obtain ⟨mode, hmem, hgrant⟩ := hready.grant
  obtain ⟨op, hop, hwants⟩ := h.waiting i mode hmem
  simp [step, hop, proceed, hwants, hmem, hgrant]

theorem reach_yielding {actors : AList fun _ : ActorPath => ChildContainer}
    {instances : List (Node T)} (h : (machine actors instances).Reach unnested s) :
    s.lock.Yielding := by
  refine h.invariant (P := fun s : ActorSystem T => s.lock.Yielding) ?_ fun hr hs ok hstep =>
    (step_move hstep).yielding (reachable_booked hr.reachable) ok hs
  intro before i mode after hsplit
  simp [machine, RwLock.free] at hsplit

/-- While there is an operation that has not returned, one of them can proceed. -/
theorem Booked.live (h : s.Booked) (hy : s.lock.Yielding) (hmem : op ∈ s.operations)
    (hpending : op.pending = true) : ∃ i, s.CanProceed i := by
  by_contra hstuck
  have hall : ∀ {i op}, s.operations[i]? = some op → op.pending = true →
      ∃ mode, (i, mode) ∈ s.lock.waiting := by
    intro i op hop hpending
    by_contra hnone
    exact hstuck ⟨i, h.canProceed hop hpending fun mode hmem => hnone ⟨mode, hmem⟩⟩
  obtain ⟨i, hop⟩ := List.mem_iff_getElem?.mp hmem
  obtain ⟨mode, hwaits⟩ := hall hop hpending
  obtain ⟨j, hready⟩ := hy.ready (List.ne_nil_of_mem hwaits) fun r hr => by
    have hholds := h.mem_held.mp (show (r.1, r.2) ∈ s.lock.held from hr)
    cases hr' : s.operations[r.1]? with
    | none => simp [holds, hr'] at hholds
    | some o =>
      rw [holds_of_get hr'] at hholds
      exact hall hr' (Operation.pending_of_holds hholds)
  exact hstuck ⟨j, h.ready_canProceed hready⟩

/-- No operations wait for each other in a circle, and while there is one that has not
returned, one of them can proceed. -/
theorem registry_live {actors : AList fun _ : ActorPath => ChildContainer}
    {instances : List (Node T)} (h : (machine actors instances).Reach unnested s) :
    (∀ waiting, ¬ s.lock.Deadlock waiting) ∧
    ((∃ op ∈ s.operations, op.pending = true) → ∃ i, s.CanProceed i) := by
  have hbooked := reachable_booked h.reachable
  have hyielding := reach_yielding h
  exact ⟨hyielding.no_deadlock hbooked.queued,
    fun ⟨_, hmem, hpending⟩ => hbooked.live hyielding hmem hpending⟩

abbrev vacant : Machine (ActorSystem Nat) (SystemAction Nat) := machine ∅ []

/-- A writer comes between the two requests of `get_or_create_actor_path`. -/
def nestedRun : List (SystemAction Nat) :=
  [.call (.getOrCreateActor ⟨["user", "a"]⟩ 0 {}), .call (.createActor ⟨["user", "b"]⟩ 0 {}),
    .proceed 0, .proceed 0, .proceed 1, .proceed 0]

def nestedSystem : ActorSystem Nat := (vacant.exec vacant.start nestedRun).get (by decide +kernel)

theorem nestedSystem_run : vacant.exec vacant.start nestedRun = some nestedSystem :=
  (Option.some_get _).symm

/-- The reader waits behind the writer, which waits for the reader. -/
theorem nested_deadlock : vacant.Reachable nestedSystem ∧ nestedSystem.lock.Deadlock [0, 1] ∧
    ∀ i, ¬ nestedSystem.CanProceed i := by
  have hreach : vacant.Reachable nestedSystem := Reach.exec_reachable .start nestedSystem_run
  have hwaiting : nestedSystem.lock.waiting = [(1, .write), (0, .read)] := by decide +kernel
  have hheld : nestedSystem.lock.held = [(0, .read)] := by decide +kernel
  have hreader : nestedSystem.lock.WaitsFor 0 1 :=
    ⟨[(1, .write)], .read, [], .write, hwaiting, by simp, rfl⟩
  have hwriter : nestedSystem.lock.WaitsFor 1 0 :=
    ⟨[], .write, [(0, .read)], .read, hwaiting, by simp [hheld], rfl⟩
  have hqueued := (reachable_booked hreach).queued
  refine ⟨hreach, ⟨by simp, by simp [hreader, hwriter]⟩, ?_⟩
  rintro i ⟨hsome, hready⟩
  cases i with
  | zero => exact hreader.not_ready hqueued (hready .read (by simp [hwaiting]))
  | succ i =>
    cases i with
    | zero => exact hwriter.not_ready hqueued (hready .write (by simp [hwaiting]))
    | succ i =>
      have hlength : nestedSystem.operations.length = 2 := by decide +kernel
      have hnone : nestedSystem.operations[i + 1 + 1]? = none :=
        List.getElem?_eq_none (hlength ▸ Nat.le_add_left 2 i)
      simp [step, hnone] at hsome

/-- The writer comes after both requests. -/
def politeRun : List (SystemAction Nat) :=
  [.call (.getOrCreateActor ⟨["user", "a"]⟩ 0 {}), .call (.createActor ⟨["user", "b"]⟩ 0 {}),
    .proceed 0, .proceed 0, .proceed 0, .proceed 1]

def politeSystem : ActorSystem Nat := (vacant.exec vacant.start politeRun).get (by decide +kernel)

theorem politeSystem_run : vacant.exec vacant.start politeRun = some politeSystem :=
  (Option.some_get _).symm

theorem registry_live_polite : ¬ politeSystem.lock.Deadlock [0, 1] ∧ ∃ i, politeSystem.CanProceed i := by
  have hlive := registry_live (Reach.exec .start (by decide +kernel) politeSystem_run)
  exact ⟨hlive.1 [0, 1], hlive.2 (by decide +kernel)⟩

end ActorSystem

end Ruactor
