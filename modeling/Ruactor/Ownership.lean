import Ruactor.Moves

/-!
# The dispatcher has one user at a time

At most one task is between its spawning and its `running.store(false)`, and
none is while `running` is false. It follows that an assertion about the mailbox
can be handed on: it holds while nobody runs, the spawned task takes it over, and
no other thread can break it. `Owned` is that rule.
-/

namespace Ruactor

open Machine

variable {T : Type} {path : ActorPath} {option : PropsOption} {parent : ParentRef}

namespace Node

def Exclusive (nd : Node T) : Prop :=
  nd.tasks.countP Task.active ≤ nd.mbox.running.toNat

theorem schedule_exclusive {nd : Node T} (h : Exclusive nd) : Exclusive nd.schedule := by
  simp only [Exclusive, schedule] at h ⊢
  split
  · exact h
  next hr =>
    simp only [hr, Bool.toNat_false] at h
    simp [h, Task.active]

theorem move_exclusive {nd nd' : Node T} {a : Action T} (hm : Move nd a nd')
    (h : Exclusive nd) : Exclusive nd' := by
  cases hm with
  | call => exact h
  | tick => exact h
  | deliver => exact h
  | access _ _ hacc =>
    simp only [Exclusive, hacc.env.running]
    exact h
  | schedule _ _ => exact schedule_exclusive h
  | reschedule _ hs =>
    apply schedule_exclusive
    simpa [Exclusive, hs, Task.active] using h
  | @task i input before t after r _ hs hstep =>
    have move := Mailbox.taskStep_move hstep
    simp only [Exclusive, hs, List.countP_append, List.countP_cons] at h ⊢
    by_cases hstore : t = .storing
    · subst hstore
      cases move
      have hr : nd.mbox.running.toNat ≤ 1 := Bool.toNat_le _
      simp only [Task.active, if_true] at h
      change before.countP Task.active + (0 + after.countP Task.active) ≤ 0
      omega
    · rw [move.running hstore]
      cases hact : t.active with
      | true =>
        have hn : (r.next.toList.countP Task.active) ≤ 1 := by
          cases r.next <;> simp [List.countP_cons]; split <;> omega
        simp only [hact, if_true] at h
        omega
      | false =>
        have hn : r.next.toList.countP Task.active = 0 := by
          simpa using (move.inactive hact).2.2
        omega

theorem reach_exclusive {ok : Node T → Action T → Prop} {nd : Node T}
    (h : (machine path option parent).Reach ok nd) : Exclusive nd :=
  h.invariant (Nat.zero_le _) fun _ hs _ hstep => move_exclusive (step_move hstep) hs

theorem Exclusive.alone {nd : Node T} (h : Exclusive nd) {before after : List (Task T)}
    {t : Task T} (hs : nd.tasks = before ++ t :: after) (ht : t.active = true) :
    nd.mbox.running = true ∧ ∀ t' ∈ before ++ after, t'.active = false := by
  simp only [Exclusive, hs, List.countP_append, List.countP_cons, ht, if_true] at h
  have hr := Bool.toNat_le nd.mbox.running
  have hb : before.countP Task.active = 0 := by omega
  have ha : after.countP Task.active = 0 := by omega
  have hrun : nd.mbox.running.toNat = 1 := by omega
  rw [List.countP_eq_zero] at hb ha
  refine ⟨by simpa using hrun, ?_⟩
  intro t' ht'
  rcases List.mem_append.mp ht' with hm | hm
  · simpa using hb t' hm
  · simpa using ha t' hm

/-- For every interleaving, panics included, the dispatcher behind the
`UnsafeCell` is never used by two tasks at once. -/
theorem single_receive {nd : Node T} (h : (machine path option parent).Reachable nd) :
    nd.tasks.countP Task.active ≤ 1 ∧
      (nd.mbox.running = false → ∀ t ∈ nd.tasks, t.active = false) := by
  have he := reach_exclusive h
  refine ⟨Nat.le_trans he (Bool.toNat_le _), ?_⟩
  intro hr t ht
  simp only [Exclusive, hr, Bool.toNat_false, Nat.le_zero, List.countP_eq_zero] at he
  simpa using he t ht

theorem single_receive_stashing :
    stashingNode.tasks.countP Task.active ≤ 1 ∧
      (stashingNode.mbox.running = false → ∀ t ∈ stashingNode.tasks, t.active = false) :=
  single_receive (Reach.exec_reachable .start stashingNode_run)

def okTask (allowed : Mailbox T → Task T → TaskInput T → Prop) (nd : Node T) : Action T → Prop
  | .task i input => ∀ t, nd.tasks[i]? = some t → allowed nd.mbox t input
  | _ => True

instance okTask.decidable (allowed : Mailbox T → Task T → TaskInput T → Prop)
    [∀ m t input, Decidable (allowed m t input)] (nd : Node T) (a : Action T) :
    Decidable (okTask allowed nd a) :=
  match a with
  | .task i input =>
    match h : nd.tasks[i]? with
    | none => isTrue (by simp [okTask, h])
    | some t => decidable_of_iff (allowed nd.mbox t input) (by simp [okTask, h])
  | .call _ | .client _ | .deliver _ | .tick _ => isTrue trivial

/-- `Loc` is the assertion of the task that runs, at each of its program points,
`Rest` the one that holds while no task runs, and `Inv` the one that holds always,
also after a panic. `base` is what is already known of the task that runs. -/
structure Owned (path : ActorPath) (option : PropsOption) (parent : ParentRef)
    (allowed : Mailbox T → Task T → TaskInput T → Prop)
    (base Loc : Mailbox T → Task T → Prop) (Rest Inv : Mailbox T → Prop) : Prop where
  start : Rest (.new path option parent) ∧ Inv (.new path option parent)
  env : ∀ {m m'}, m.Env m' → (Inv m → Inv m') ∧ (Rest m → Rest m') ∧
    ∀ t, t.active = true → Loc m t → Loc m' t
  acquire : ∀ {m}, m.running = false → (Inv m → Inv { m with running := true }) ∧
    (Rest m → Loc { m with running := true } .spawned)
  move : ∀ {m input t r}, m.Move input t r → t.active = true → allowed m t input →
    base m t → Loc m t → Inv m → Inv r.mbox ∧ ∀ t' ∈ r.next,
      (t'.active = true → Loc r.mbox t') ∧ (t = .storing → Rest r.mbox)

structure Held (Loc : Mailbox T → Task T → Prop) (Rest Inv : Mailbox T → Prop) (nd : Node T) :
    Prop where
  loc : ∀ t ∈ nd.tasks, t.active = true → Loc nd.mbox t
  rest : nd.mbox.running = false → Rest nd.mbox
  inv : Inv nd.mbox

variable {allowed : Mailbox T → Task T → TaskInput T → Prop}
  {base Loc : Mailbox T → Task T → Prop} {Rest Inv : Mailbox T → Prop}

theorem Owned.schedule (rule : Owned path option parent allowed base Loc Rest Inv) {nd : Node T}
    (he : Exclusive nd) (h : Held Loc Rest Inv nd) : Held Loc Rest Inv nd.schedule := by
  simp only [Node.schedule]
  split
  · exact h
  next hr =>
    have hr : nd.mbox.running = false := by simpa using hr
    refine ⟨?_, fun hf => (by cases hf), (rule.acquire hr).1 h.inv⟩
    intro t ht hact
    rcases List.mem_append.mp ht with hm | hm
    · simp only [Exclusive, hr, Bool.toNat_false, Nat.le_zero, List.countP_eq_zero] at he
      exact absurd hact (he t hm)
    · rw [List.mem_singleton] at hm
      subst hm
      exact (rule.acquire hr).2 (h.rest hr)

theorem Owned.step (rule : Owned path option parent allowed base Loc Rest Inv) {nd nd' : Node T}
    {a : Action T} (he : Exclusive nd) (hbase : ∀ t ∈ nd.tasks, t.active = true → base nd.mbox t)
    (h : Held Loc Rest Inv nd) (ok : okTask allowed nd a) (hm : Move nd a nd') :
    Held Loc Rest Inv nd' := by
  have byEnv : ∀ {m' : Mailbox T} {clients}, nd.mbox.Env m' →
      Held Loc Rest Inv ⟨m', nd.tasks, clients⟩ := fun {m'} {_} henv =>
    ⟨fun t ht hact => (rule.env henv).2.2 t hact (h.loc t ht hact),
      fun hr => (rule.env henv).2.1 (h.rest (henv.running ▸ hr)), (rule.env henv).1 h.inv⟩
  cases hm with
  | call => exact ⟨h.loc, h.rest, h.inv⟩
  | access _ _ hacc => exact byEnv hacc.env
  | deliver => exact byEnv (.pushedInternal _)
  | tick => exact byEnv (.tick _)
  | schedule _ =>
    have hs := rule.schedule he h
    exact ⟨hs.loc, hs.rest, hs.inv⟩
  | @reschedule i input before after _ hs =>
    apply rule.schedule
    · simpa [Exclusive, hs, Task.active] using he
    · refine ⟨fun t ht => h.loc t ?_, h.rest, h.inv⟩
      rw [hs]
      exact List.mem_append.mpr ((List.mem_append.mp ht).imp_right (List.mem_cons_of_mem _))
  | @task i input before t after r hi hs hstep =>
    have move := Mailbox.taskStep_move hstep
    cases hact : t.active with
    | false =>
      obtain ⟨hmbox, -, hnext⟩ := move.inactive hact
      rw [hmbox]
      refine ⟨fun t' ht' hact' => ?_, h.rest, h.inv⟩
      simp only [List.mem_append, Option.mem_toList] at ht'
      rcases ht' with hm | hm | hm
      · exact h.loc t' (by simp [hs, hm]) hact'
      · exact absurd hact' (by simp [hnext t' hm])
      · exact h.loc t' (by simp [hs, hm]) hact'
    | true =>
      have hmem : t ∈ nd.tasks := by simp [hs]
      obtain ⟨hrun, hothers⟩ := he.alone hs hact
      obtain ⟨hinv, hown⟩ :=
        rule.move move hact (ok t hi) (hbase t hmem hact) (h.loc t hmem hact) h.inv
      refine ⟨fun t' ht' hact' => ?_, fun hr => ?_, hinv⟩
      · simp only [List.mem_append, Option.mem_toList] at ht'
        rcases ht' with hm | hm | hm
        · exact absurd hact' (by simp [hothers t' (by simp [hm])])
        · exact (hown t' hm).1 hact'
        · exact absurd hact' (by simp [hothers t' (by simp [hm])])
      · by_cases hstore : t = .storing
        · subst hstore
          cases move
          exact (hown _ rfl).2 rfl
        · simp [move.running hstore, hrun] at hr

theorem Owned.reach (rule : Owned path option parent allowed base Loc Rest Inv)
    (hbase : ∀ {nd : Node T}, (machine path option parent).Reachable nd →
      ∀ t ∈ nd.tasks, t.active = true → base nd.mbox t)
    {nd : Node T} (h : (machine path option parent).Reach (okTask allowed) nd) :
    Held Loc Rest Inv nd :=
  h.invariant ⟨fun _ ht => absurd ht List.not_mem_nil, fun _ => rule.start.1, rule.start.2⟩
    fun hr hs ok hstep =>
      rule.step (reach_exclusive hr) (hbase hr.reachable) hs ok (step_move hstep)

abbrev anyTask (_ : Mailbox T) (_ : Task T) (_ : TaskInput T) : Prop := True

theorem okTask_any (nd : Node T) (a : Action T) : okTask anyTask nd a := by
  cases a <;> simp [okTask]

theorem Owned.reachable (rule : Owned path option parent anyTask base Loc Rest Inv)
    (hbase : ∀ {nd : Node T}, (machine path option parent).Reachable nd →
      ∀ t ∈ nd.tasks, t.active = true → base nd.mbox t)
    {nd : Node T} (h : (machine path option parent).Reachable nd) : Held Loc Rest Inv nd :=
  rule.reach hbase (h.mono fun _ _ _ => okTask_any _ _)

end Node

end Ruactor
