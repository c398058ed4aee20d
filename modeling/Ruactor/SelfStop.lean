import Ruactor.Stopping

/-!
# A stop from within

`stop_self` pushes a `Terminate` before the task goes on. The next time the task has
drained the internal queue it has met that message, so it takes no further message of
the actor.
-/

namespace Ruactor

open Machine

variable {T : Type} {path : ActorPath} {option : PropsOption} {parent : ParentRef}

namespace Mailbox

theorem mem_selfStops {log : List (Event T)} (h : .stopSelf ∈ log) :
    .stoppingSelf ∈ selfStops log :=
  List.mem_filterMap.mpr ⟨_, h, rfl⟩

theorem Move.stopSelf {m : Mailbox T} {input : TaskInput T} {t : Task T} {r : TaskStep T}
    (move : m.Move input t r) (hphase : m.Phase t) (h : .stopSelf ∈ r.mbox.log) :
    .stopSelf ∈ m.log ∨ t.calls = true ∧ .stoppingSelf ∈ r.clients := by
  obtain ⟨events, hlog, hlogs⟩ := move.logs hphase
  have fresh : ∀ log : List (Event T), r.mbox.log = m.log ++ log →
      (.stopSelf ∈ log → .stoppingSelf ∈ r.clients) →
      .stopSelf ∈ m.log ∨ t.calls = true ∧ .stoppingSelf ∈ r.clients := by
    intro log heq hstops
    obtain rfl := List.append_cancel_left (heq.symm.trans hlog)
    rw [heq] at h
    rcases List.mem_append.mp h with h | h
    · exact .inl h
    · cases hlogs _ h with
      | called hcalls _ _ _ => exact .inr ⟨hcalls, hstops h⟩
  cases move with
  | start _ hf | terminate hf | process hf =>
    obtain ⟨c, -, -, hm, -, hclients⟩ | ⟨c, -, -, hm, -, hclients⟩ := finish_cases hf
    · exact fresh c.log (by rw [hm]; rfl) fun hs => hclients ▸ mem_selfStops hs
    · refine fresh (c.log ++ [.unwound]) (by rw [hm]; simp [commit, emit]) fun hs => ?_
      exact hclients ▸ mem_selfStops (by simpa using hs)
  | dead _ => exact .inl h
  | _ =>
    rw [hlog] at h
    rcases List.mem_append.mp h with h | h
    · exact .inl h
    · cases hlogs _ h with
      | called hcalls _ _ _ => cases hcalls

theorem Env.stopSelf {m m' : Mailbox T} (h : m.Env m') :
    .stopSelf ∈ m'.log ↔ .stopSelf ∈ m.log := by
  obtain ⟨events, hlog, houter⟩ := h.outer
  rw [hlog, List.mem_append]
  refine ⟨fun hs => hs.elim id fun hs => ?_, .inl⟩
  cases houter _ hs

theorem Move.popUser_next {m : Mailbox T} {input : TaskInput T} {t : Task T} {r : TaskStep T}
    (move : m.Move input t r) {n : Nat} (h : r.next = some (.looping n .popUser)) :
    t = .looping n .popInternal ∧ r.mbox = m ∧
      (m.dispatcher.context = none ∨ m.internalQueue = []) := by
  cases move with
  | popNone hnone =>
    cases h
    exact ⟨rfl, rfl, hnone⟩
  | start _ hf | terminate hf | process hf =>
    obtain ⟨c, -, -, -, hn, -⟩ | ⟨c, -, -, -, hn, -⟩ := finish_cases hf <;>
      rw [hn] at h <;> cases h
  | _ => cases h

/-- A `stop_self` has closed the mailbox where the next message is taken. -/
def Halting (m : Mailbox T) (t : Task T) : Prop :=
  ∀ n, t = .looping n .popUser → .stopSelf ∈ m.log → m.terminated = true

end Mailbox

namespace Node

/-- The `Terminate` of a `stop_self` has been pushed, or its push is next. -/
def Urged (nd : Node T) : Prop :=
  .stopSelf ∈ nd.mbox.log →
    .stoppingSelf ∈ nd.clients ∨ .pushedInternal .terminate ∈ nd.mbox.log

theorem Access.stopSelf {m m' : Mailbox T} {client : Client T} {next : Option (Client T)}
    (h : m.Access client next m') (hc : client = .stoppingSelf) :
    .pushedInternal .terminate ∈ m'.log := by
  cases h with
  | stopSelf => exact List.mem_append_right _ (List.mem_singleton_self _)
  | _ => cases hc

theorem Move.urged {nd nd' : Node T} {a : Action T}
    (hr : (machine path option parent).Reachable nd) (hm : Move nd a nd') (h : Urged nd) :
    Urged nd' := by
  have keep : ∀ {clients : List (Client T)} {m : Mailbox T} {tasks : List (Task T)},
      (.stopSelf ∈ m.log → .stopSelf ∈ nd.mbox.log) → (∀ e ∈ nd.mbox.log, e ∈ m.log) →
      (.stoppingSelf ∈ nd.clients →
        .stoppingSelf ∈ clients ∨ .pushedInternal .terminate ∈ m.log) →
      Urged ⟨m, tasks, clients⟩ := by
    intro clients m tasks hstop hlog hclients hs
    rcases h (hstop hs) with hc | hp
    · exact hclients hc
    · exact .inr (hlog _ hp)
  have others : ∀ {before after : List (Client T)} {client : Client T}
      {next : Option (Client T)}, nd.clients = before ++ client :: after →
      client ≠ .stoppingSelf → .stoppingSelf ∈ nd.clients →
      .stoppingSelf ∈ before ++ (next.toList ++ after) := by
    intro before after client next hs hne hmem
    simp only [hs, List.mem_append, List.mem_cons] at hmem ⊢
    rcases hmem with hmem | hmem | hmem
    · exact .inl hmem
    · exact absurd hmem.symm hne
    · exact .inr (.inr hmem)
  cases hm with
  | call => exact keep id (fun _ => id) fun hc => .inl (List.mem_append_left _ hc)
  | tick => exact h
  | deliver =>
    refine keep (fun hs => by simpa [Mailbox.pushInternal] using hs)
      (fun _ => List.mem_append_left _) fun hc => .inl (List.mem_append_left _ hc)
  | @access i before client after next mbox _ hs hacc =>
    obtain ⟨events, hlog⟩ := hacc.env.log
    refine keep hacc.env.stopSelf.mp (fun e he => by simp [hlog, he]) fun hc => ?_
    by_cases hclient : client = .stoppingSelf
    · exact .inr (Access.stopSelf hacc hclient)
    · exact .inl (others hs hclient hc)
  | @schedule i before client after hs hpending =>
    have hclient : client ≠ .stoppingSelf := by
      rintro rfl
      cases hpending
    intro hstop
    change .stopSelf ∈ nd.schedule.mbox.log at hstop
    change _ ∨ .pushedInternal .terminate ∈ nd.schedule.mbox.log
    rw [schedule_log] at hstop ⊢
    exact (h hstop).imp_left (others hs hclient)
  | @reschedule i input before after _ _ =>
    intro hstop
    rw [schedule_log] at hstop ⊢
    rw [schedule_clients]
    exact h hstop
  | @task i input before t after r hi hs hstep _ =>
    have move := Mailbox.taskStep_move hstep
    obtain ⟨events, hlog⟩ := move.log
    intro hstop
    rcases move.stopSelf (phase_of_mem hr (List.mem_of_getElem? hi)) hstop with hold | ⟨-, hnew⟩
    · rcases h hold with hc | hp
      · exact .inl (List.mem_append_left _ hc)
      · exact .inr (by simp [hlog, hp])
    · exact .inl (List.mem_append_right _ hnew)

theorem reachable_urged {nd : Node T} (h : (machine path option parent).Reachable nd) :
    Urged nd :=
  h.invariant (fun hs => absurd hs List.not_mem_nil)
    fun hr hs _ hstep => (step_move hstep).urged hr hs

/-- A task that waits for its `stop_self` has not given up the dispatcher. -/
def Occupied (nd : Node T) : Prop :=
  (∃ c ∈ nd.clients, c.own = true) → nd.mbox.running = true

theorem Access.own {m m' : Mailbox T} {client : Client T} {next : Option (Client T)}
    (h : m.Access client next m') : ∀ c ∈ next, c.own = true → client.own = true := by
  intro c hc hown
  cases h with
  | stopSelf => rfl
  | refuse _ | full _ =>
    rename_i watch _
    cases watch <;> cases hc
    cases hown
  | _ =>
    cases hc <;> cases hown

theorem start_own (option : PropsOption) (call : Call T) : (call.start option).own = false := by
  cases call with
  | waitStop w =>
    simp only [Call.start]
    split <;> rfl
  | _ => rfl

theorem Move.occupied {nd nd' : Node T} {a : Action T} (he : Exclusive nd) (hm : Move nd a nd')
    (h : Occupied nd) : Occupied nd' := by
  rintro ⟨c, hc, hown⟩
  cases hm with
  | call =>
    rcases List.mem_append.mp hc with hc | hc
    · exact h ⟨c, hc, hown⟩
    · obtain rfl := List.mem_singleton.mp hc
      exact absurd (hown.symm.trans (start_own _ _)) (by simp)
  | tick => exact h ⟨c, hc, hown⟩
  | deliver =>
    rcases List.mem_append.mp hc with hc | hc
    · exact h ⟨c, hc, hown⟩
    · obtain rfl := List.mem_singleton.mp hc
      cases hown
  | schedule _ _ | reschedule _ _ => exact schedule_sets _
  | @access i before client after next mbox _ hs hacc =>
    refine hacc.env.running.trans (h ?_)
    simp only [List.mem_append, Option.mem_toList] at hc
    rcases hc with hc | hc | hc
    · exact ⟨c, by simp [hs, hc], hown⟩
    · exact ⟨client, by simp [hs], Access.own hacc c hc hown⟩
    · exact ⟨c, by simp [hs, hc], hown⟩
  | @task i input before t after r _ hs hstep hguard =>
    have move := Mailbox.taskStep_move hstep
    cases hact : t.active with
    | false =>
      obtain ⟨hmbox, hclients, -⟩ := move.inactive hact
      rw [hmbox]
      exact h ⟨c, by simpa [hclients] using hc, hown⟩
    | true =>
      have hnew : c ∈ r.clients := (List.mem_append.mp hc).resolve_left fun hold =>
        absurd (hguard hact c hold) (by simp [hown])
      by_cases hstore : t = .storing
      · subst hstore
        cases move
        cases hnew
      · exact (move.running hstore).trans (he.alone hs hact).1

theorem reachable_occupied {nd : Node T} (h : (machine path option parent).Reachable nd) :
    Occupied nd :=
  h.invariant (fun hc => by simp [machine, Node.new] at hc)
    fun hr hs _ hstep => (step_move hstep).occupied (reach_exclusive hr) hs

/-- Where a task takes the next message of the actor, a `stop_self` has closed the mailbox. -/
def Halted (nd : Node T) : Prop :=
  ∀ n, .looping n .popUser ∈ nd.tasks → .stopSelf ∈ nd.mbox.log → nd.mbox.terminated = true

theorem Move.halted {nd nd' : Node T} {a : Action T}
    (hr : (machine path option parent).Reachable nd) (hm : Move nd a nd') (h : Halted nd) :
    Halted nd' := by
  intro n hn hstop
  have scheduled : ∀ nd₀ : Node T, nd₀.mbox = nd.mbox → (∀ t ∈ nd₀.tasks, t ∈ nd.tasks) →
      .looping n .popUser ∈ nd₀.schedule.tasks → .stopSelf ∈ nd₀.schedule.mbox.log →
      nd₀.schedule.mbox.terminated = true := by
    intro nd₀ hmbox htasks hn hstop
    rw [schedule_log, hmbox] at hstop
    rw [schedule_terminated, hmbox]
    exact h n (htasks _ ((mem_schedule hn).resolve_right (by simp))) hstop
  cases hm with
  | call => exact h n hn hstop
  | tick => exact h n hn hstop
  | deliver => exact h n hn (by simpa [Node.deliver, Mailbox.pushInternal] using hstop)
  | access _ _ hacc =>
    exact hacc.env.terminated.trans (h n hn (hacc.env.stopSelf.mp hstop))
  | schedule _ _ => exact scheduled nd rfl (fun _ => id) hn hstop
  | @reschedule i input before after _ hs =>
    refine scheduled { nd with tasks := before ++ after } rfl (fun t ht => ?_) hn hstop
    rw [hs]
    exact List.mem_append.mpr ((List.mem_append.mp ht).imp_right (List.mem_cons_of_mem _))
  | @task i input before t after r hi hs hstep hguard =>
    have move := Mailbox.taskStep_move hstep
    have he := reach_exclusive hr
    have closed : nd.mbox.terminated = true → r.mbox.terminated = true :=
      fun hclosed => move.flag.elim (fun hsame => hsame.trans hclosed) id
    simp only [List.mem_append, Option.mem_toList] at hn
    by_cases hnext : r.next = some (.looping n .popUser)
    · -- the internal queue was seen empty, so the `Terminate` has been taken out of it
      obtain ⟨rfl, hmbox, hnone⟩ := move.popUser_next hnext
      rw [hmbox] at hstop ⊢
      have hphase := phase_of_mem hr (List.mem_of_getElem? hi)
      have hpushed := (reachable_urged hr hstop).resolve_left fun hown =>
        absurd (hguard rfl _ hown) (by simp [Client.own])
      rcases reachable_asked hr hpushed with hclosed | hqueue | ⟨n', hhand⟩
      · exact hclosed
      · rcases hnone with hnone | hnone
        · rcases hphase with hlive | hgone
          · obtain ⟨context, hcontext, -⟩ := hlive.context
            exact absurd (hnone.symm.trans hcontext) (by simp)
          · exact hgone.closed
        · simp [hnone] at hqueue
      · have hother := (he.alone hs rfl).2 _ (by simpa [hs] using hhand)
        cases hother
    · have hold : .looping n .popUser ∈ before ++ after := by
        rcases hn with hn | hn | hn
        · exact List.mem_append_left _ hn
        · exact absurd hn hnext
        · exact List.mem_append_right _ hn
      cases hact : t.active with
      | true => cases (he.alone hs hact).2 _ hold
      | false =>
        rw [(move.inactive hact).1] at hstop ⊢
        refine h n ?_ hstop
        rw [hs]
        exact List.mem_append.mpr ((List.mem_append.mp hold).imp_right (List.mem_cons_of_mem _))

theorem reachable_halted {nd : Node T} (h : (machine path option parent).Reachable nd) :
    Halted nd :=
  h.invariant (fun _ hn => absurd hn List.not_mem_nil)
    fun hr hs _ hstep => (step_move hstep).halted hr hs

theorem halting_of_mem {nd : Node T} (h : (machine path option parent).Reachable nd) {t : Task T}
    (ht : t ∈ nd.tasks) : nd.mbox.Halting t := by
  rintro n rfl hstop
  exact reachable_halted h n ht hstop

end Node

end Ruactor
