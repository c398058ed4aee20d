import Ruactor.Ownership

/-!
# No lost wake-up

A message that was pushed is somebody's business until the queue is empty again:
of a task that has not ended, or of a caller whose compare-exchange is still to
come. The re-check of `receive` may go wrong on a stale read only where another
party has taken over.
-/

namespace Ruactor

open Machine

variable {T : Type} {path : ActorPath} {option : PropsOption} {parent : ParentRef}

namespace Node

/-- No task is spawned or unfinished, and no caller is between its push and the
end of its `schedule`. -/
def Quiescent (nd : Node T) : Prop :=
  nd.tasks = [] ∧ ∀ client ∈ nd.clients, client.pending = false

instance [DecidableEq T] (nd : Node T) : Decidable (Quiescent nd) :=
  inferInstanceAs (Decidable (_ ∧ _))

/-- The step ends an `actor_loop` call by unwinding. -/
def unwinds (nd : Node T) : Action T → Bool
  | .task i input =>
    match nd.tasks[i]? with
    | none => false
    | some t => t.active && ((nd.mbox.taskStep input t).map fun r => r.next.isNone).getD false
  | _ => false

structure Covered (nd : Node T) : Prop where
  held : nd.mbox.running = true → ∃ t ∈ nd.tasks, t.active = true
  internal : nd.mbox.internalQueue ≠ [] →
    (∃ t, t ∈ nd.tasks) ∨ ∃ c ∈ nd.clients, c.pending = true
  user : nd.mbox.messageQueue.items ≠ [] → nd.mbox.terminated = false →
    (∃ t ∈ nd.tasks, t ≠ .rechecking .readInternal) ∨ ∃ c ∈ nd.clients, c.pending = true

theorem Covered.of_active {nd : Node T} (h : ∃ t ∈ nd.tasks, t.active = true) : Covered nd := by
  obtain ⟨t, ht, hact⟩ := h
  refine ⟨fun _ => ⟨t, ht, hact⟩, fun _ => .inl ⟨t, ht⟩, fun _ _ => .inl ⟨t, ht, ?_⟩⟩
  rintro rfl
  cases hact

theorem Covered.of_pending {nd : Node T}
    (held : nd.mbox.running = true → ∃ t ∈ nd.tasks, t.active = true)
    (h : ∃ c ∈ nd.clients, c.pending = true) : Covered nd :=
  ⟨held, fun _ => .inr h, fun _ _ => .inr h⟩

theorem Covered.schedule {nd : Node T} {clients : List (Client T)}
    (held : nd.mbox.running = true → ∃ t ∈ nd.tasks, t.active = true) :
    Covered { nd.schedule with clients := clients } := by
  apply Covered.of_active
  simp only [Node.schedule]
  split
  next hr => exact held hr
  · exact ⟨.spawned, by simp, rfl⟩

theorem Covered.task {nd : Node T} (h : Covered nd) {input : TaskInput T}
    {before after : List (Task T)} {t : Task T} {r : TaskStep T}
    (hs : nd.tasks = before ++ t :: after) (move : nd.mbox.Move input t r)
    (hend : t.active = true → r.next ≠ none) :
    Covered ⟨r.mbox, before ++ (r.next.toList ++ after), nd.clients ++ r.clients⟩ := by
  have others : ∀ t', t' ∈ nd.tasks → t' ≠ t → t' ∈ before ++ (r.next.toList ++ after) := by
    intro t' ht' hne
    simp only [hs, List.mem_append, List.mem_cons] at ht' ⊢
    tauto
  have pending : (∃ c ∈ nd.clients, c.pending = true) →
      ∃ c ∈ nd.clients ++ r.clients, c.pending = true :=
    fun ⟨c, hc, hp⟩ => ⟨c, List.mem_append_left _ hc, hp⟩
  by_cases hstore : t = .storing
  · subst hstore
    cases move
    exact ⟨nofun, fun _ => .inl ⟨.rechecking .readUser, by simp⟩,
      fun _ _ => .inl ⟨.rechecking .readUser, by simp, by simp⟩⟩
  cases hact : t.active with
  | true =>
    -- a task that runs and does not end here runs on
    apply Covered.of_active
    obtain ⟨t', ht'⟩ := Option.ne_none_iff_exists'.mp (hend hact)
    exact ⟨t', by simp [ht'], move.active_next hact hstore t' ht'⟩
  | false =>
    have held : nd.mbox.running = true →
        ∃ t' ∈ before ++ (r.next.toList ++ after), t'.active = true := by
      intro hr
      obtain ⟨t', ht', hact'⟩ := h.held hr
      exact ⟨t', others t' ht' (by rintro rfl; simp [hact] at hact'), hact'⟩
    -- the re-check: a task gives up a queue only after reading that it is empty
    cases move with
    | someUser _ =>
      exact ⟨held, fun _ => .inl ⟨.rechecking .readTerminated, by simp⟩,
        fun _ _ => .inl ⟨.rechecking .readTerminated, by simp, by simp⟩⟩
    | noUser hq =>
      exact ⟨held, fun _ => .inl ⟨.rechecking .readInternal, by simp⟩, fun hn => absurd hq hn⟩
    | accepting _ =>
      exact ⟨held, fun _ => .inl ⟨.rechecking .scheduling, by simp⟩,
        fun _ _ => .inl ⟨.rechecking .scheduling, by simp, by simp⟩⟩
    | closed ht =>
      refine ⟨held, fun _ => .inl ⟨.rechecking .readInternal, by simp⟩, fun _ hf => ?_⟩
      exact absurd (ht.symm.trans hf) (by simp)
    | someInternal _ =>
      exact ⟨held, fun _ => .inl ⟨.rechecking .scheduling, by simp⟩,
        fun _ _ => .inl ⟨.rechecking .scheduling, by simp, by simp⟩⟩
    | done hq =>
      refine ⟨held, fun hn => absurd hq hn, fun hn hf => ?_⟩
      rcases h.user hn hf with ⟨t', ht', hne⟩ | hp
      · exact .inl ⟨t', others t' ht' hne, hne⟩
      · exact .inr (pending hp)
    | _ => cases hact

theorem Covered.step {nd nd' : Node T} {a : Action T} (h : Covered nd) (hm : Move nd a nd')
    (hend : nd.unwinds a = false) : Covered nd' := by
  cases hm with
  | call =>
    exact ⟨h.held, fun hn => (h.internal hn).imp_right fun ⟨c, hc, hp⟩ =>
        ⟨c, List.mem_append_left _ hc, hp⟩,
      fun hn ht => (h.user hn ht).imp_right fun ⟨c, hc, hp⟩ =>
        ⟨c, List.mem_append_left _ hc, hp⟩⟩
  | tick => exact ⟨h.held, h.internal, h.user⟩
  | deliver => exact .of_pending h.held ⟨.scheduling none, by simp [Node.deliver], rfl⟩
  | @access i before client after next mbox _ hs hacc =>
    have held : mbox.running = true → ∃ t ∈ nd.tasks, t.active = true :=
      fun hr => h.held (hacc.env.running ▸ hr)
    rcases hacc.queues with ⟨hi, hu⟩ | ⟨c, hnext, hpending⟩
    · have keep : (∃ c ∈ nd.clients, c.pending = true) →
          ∃ c ∈ before ++ (next.toList ++ after), c.pending = true := by
        rintro ⟨c, hmem, hp⟩
        refine ⟨c, ?_, hp⟩
        have : c ≠ client := by rintro rfl; simp [hacc.pending] at hp
        simp only [hs, List.mem_append, List.mem_cons] at hmem ⊢
        tauto
      refine ⟨held, fun hn => ?_, fun hn ht => ?_⟩
      · exact (h.internal (by rwa [hi] at hn)).imp_right keep
      · exact (h.user (by rwa [hu] at hn) (hacc.env.terminated ▸ ht)).imp_right keep
    · exact .of_pending held ⟨c, by simp [Option.mem_def.mp hnext], hpending⟩
  | schedule _ _ => exact .schedule h.held
  | @reschedule i input before after _ hs =>
    refine @Covered.schedule T { nd with tasks := before ++ after } _ ?_
    intro hr
    obtain ⟨t, ht, hact⟩ := h.held hr
    refine ⟨t, ?_, hact⟩
    have : t ≠ .rechecking .scheduling := by rintro rfl; cases hact
    simp only [hs, List.mem_append, List.mem_cons] at ht ⊢
    tauto
  | task hi hs hstep _ =>
    refine h.task hs (Mailbox.taskStep_move hstep) fun hact hn => ?_
    simp [unwinds, hi, hact, hstep, hn] at hend

/-- Every `actor_loop` call returns normally. -/
def returning (nd : Node T) (a : Action T) : Prop := nd.unwinds a = false

instance (nd : Node T) (a : Action T) : Decidable (returning nd a) :=
  inferInstanceAs (Decidable (_ = false))

theorem reach_covered {nd : Node T} (h : (machine path option parent).Reach returning nd) :
    Covered nd :=
  h.invariant ⟨fun hr => (Bool.false_ne_true hr).elim, fun hn => absurd rfl hn,
      fun hn => absurd rfl hn⟩
    fun _ hs ok hstep => hs.step (step_move hstep) ok

theorem Quiescent.nobody {nd : Node T} (hq : nd.Quiescent) :
    ¬ ∃ c ∈ nd.clients, c.pending = true := by
  rintro ⟨c, hmem, hp⟩
  simp [hq.2 c hmem] at hp

theorem Covered.internal_nil {nd : Node T} (h : Covered nd) (hq : Quiescent nd) :
    nd.mbox.internalQueue = [] := by
  by_contra hn
  rcases h.internal hn with ⟨t, ht⟩ | hp
  · simp [hq.1] at ht
  · exact hq.nobody hp

theorem Covered.user_nil {nd : Node T} (h : Covered nd) (hq : Quiescent nd)
    (ht : nd.mbox.terminated = false) : nd.mbox.messageQueue.items = [] := by
  by_contra hn
  rcases h.user hn ht with ⟨t, htask, -⟩ | hp
  · simp [hq.1] at htask
  · exact hq.nobody hp

theorem no_lost_wakeup {nd : Node T} (h : (machine path option parent).Reach returning nd)
    (hq : Quiescent nd) :
    nd.mbox.internalQueue = [] ∧
      (nd.mbox.messageQueue.items = [] ∨ nd.mbox.terminated = true) := by
  have hc := reach_covered h
  refine ⟨hc.internal_nil hq, ?_⟩
  cases ht : nd.mbox.terminated with
  | false => exact .inl (hc.user_nil hq ht)
  | true => exact .inr rfl

theorem no_lost_wakeup_stashing :
    stashingNode.mbox.internalQueue = [] ∧
      (stashingNode.mbox.messageQueue.items = [] ∨ stashingNode.mbox.terminated = true) :=
  no_lost_wakeup (Reach.exec .start (by decide +kernel) stashingNode_run) (by decide +kernel)

end Node

end Ruactor
