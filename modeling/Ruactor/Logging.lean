import Ruactor.Phases

/-!
# What a step can log

`Logs` says for each event which step can have logged it and what held before that
step. Invariants that relate the log to the state are proved from it.
-/

namespace Ruactor

open Machine

variable {T : Type} {path : ActorPath} {option : PropsOption} {parent : ParentRef}

/-- What a step that runs callbacks can log, apart from the beginning of `terminate`. -/
def Event.called : Event T → Bool
  | .stashed _ | .unstashedAll | .delivered _ _ _ | .unwound => true
  | e => e.routine || e.bookkeeping

def Event.sent : Event T → Bool
  | .pushed _ | .rejected _ | .pushedInternal _ => true
  | _ => false

/-- What other threads can log. -/
def Event.outer : Event T → Bool
  | .watchReturned _ => true
  | e => e.sent

theorem Mailbox.Env.outer {m m' : Mailbox T} (h : m.Env m') :
    ∃ events, m'.log = m.log ++ events ∧ ∀ e ∈ events, e.outer = true := by
  cases h with
  | same | tick _ => exact ⟨[], (List.append_nil _).symm, List.forall_mem_nil _⟩
  | rejected _ | watchReturned _ _ | pushed _ _ | pushedInternal _ =>
    exact ⟨_, rfl, by simp [Event.outer, Event.sent]⟩

namespace Cell

/-- The step began with the parent `p₀`, and logged `start` first. -/
def Spoken (start : List (Event T)) (p₀ p : Option ParentRef) (_ : ActorContext T)
    (events : List (Event T)) : Prop :=
  p = p₀ ∧ ∃ rest, events = start ++ rest ∧ ∀ e ∈ rest, e.called = true

variable {start events : List (Event T)} {p₀ p : Option ParentRef} {c c' : ActorContext T}

theorem Spoken.append (h : Spoken start p₀ p c events) (log : List (Event T))
    (hlog : ∀ e ∈ log, e.called = true) : Spoken start p₀ p c' (events ++ log) := by
  obtain ⟨hparent, rest, rfl, hrest⟩ := h
  refine ⟨hparent, rest ++ log, List.append_assoc _ _ _, fun e he => ?_⟩
  exact (List.mem_append.mp he).elim (hrest e) (hlog e)

theorem called_routine {e : Event T} (h : e.routine = true) : e.called = true := by
  cases e <;> first | rfl | cases h

theorem called_bookkeeping {e : Event T} (h : e.bookkeeping = true) : e.called = true := by
  cases e <;> first | rfl | cases h

theorem spoken_recorded (start : List (Event T)) (p₀ : Option ParentRef) :
    Recorded (fun _ => True) (Spoken start p₀) where
  op {p rt context log} op _ h := h.append _ fun e he => by
    obtain ⟨msg, -, rfl⟩ | ⟨-, rfl⟩ | hbook := ContextOp.apply_log he
    · rfl
    · rfl
    · exact called_bookkeeping hbook
  stopSelf h := h.append _ (by simp [Event.called, Event.bookkeeping])
  timeout {p rt context log} d h := h.append _ fun e he => by
    obtain rfl | ⟨handle, rfl⟩ := armReceiveTimeout_mem he <;> rfl
  event he h := h.append _ (by simpa using called_routine he)
  actor {p context events} h := by
    have hs : Spoken start p₀ p { context with actor := none } (events ++ []) :=
      h.append [] (List.forall_mem_nil _)
    simpa using hs

abbrev Speaks (start : List (Event T)) (p₀ : Option ParentRef) : Cell T → Prop :=
  Records (fun _ => True) (Spoken start p₀) []

theorem terminateActor_spoken {c : Cell T} {actor : InstanceId} (hlog : c.log = [])
    (hactor : c.disp.actor = some actor) (hcontext : c.disp.context ≠ none) :
    c.terminateActor.Ensures (Speaks [.terminating, .exited actor] c.disp.parent)
      (Speaks [.terminating, .exited actor] c.disp.parent) := by
  have rule := spoken_recorded (T := T) [.terminating, .exited actor] c.disp.parent
  simp only [terminateActor, hactor, lifecycleFuel, onExit]
  have hcall : ((c.takeActor.emit [.terminating]).call .onExit [.exited actor]).Ensures
      (Speaks [.terminating, .exited actor] c.disp.parent)
      (Speaks [.terminating, .exited actor] c.disp.parent) :=
    rule.call .onExit (fun _ _ _ _ => trivial)
      (fun context _ => ⟨rfl, [], by simp [emit, takeActor, hlog], List.forall_mem_nil _⟩) hcontext
  exact hcall.bind fun c hc => (rule.keeps.lifecycle _).1 c hc

end Cell

def Task.calls : Task T → Bool
  | .spawned | .looping _ .terminating | .looping _ (.processing _ _) => true
  | _ => false

def Task.leaves : Task T → Bool
  | .looping _ .terminating => true
  | _ => false

theorem Task.leaves_iff {t : Task T} : t.leaves = true ↔ ∃ n, t = .looping n .terminating := by
  constructor
  · intro h
    unfold leaves at h
    split at h
    · exact ⟨_, rfl⟩
    · cases h
  · rintro ⟨n, rfl⟩
    rfl

namespace Mailbox

inductive Logs (m : Mailbox T) : Task T → Event T → Prop
  | called {t e} : t.calls = true → e.called = true → m.dispatcher.parent ≠ none →
      (t.leaves = false → m.terminated = false) → Logs m t e
  | terminating {n} : Logs m (.looping n .terminating) .terminating
  | closed {n} : Logs m (.looping n (.internalMessage .terminate)) .closed
  | stopped {n rest k} : k ∈ rest → Logs m (.looping n (.stopping rest)) (.stopped k)
  | notified {n p} : m.dispatcher.parent = some p →
      Logs m (.looping n .notifying) (.notified p m.path)
  | answered {n w} : m.terminated = true →
      Logs m (.looping n (.internalMessage (.watch w))) (.replied w)
  | drained {w} : m.dispatcher.parent = none → Logs m .draining (.replied w)
  | replied {n w} : m.dispatcher.parent = none → Logs m (.looping n .replying) (.replied w)
  | dropped {n handle} : Logs m (.looping n .replying) (.dropped handle)

variable {m : Mailbox T}

theorem Logs.unsent {t : Task T} {e : Event T} (h : m.Logs t e) : e.sent = false := by
  cases h with
  | called _ hcalled _ _ => cases e <;> first | rfl | cases hcalled
  | _ => rfl

theorem finish_spoken {next : Task T} {o : Outcome (Cell T)} {r : TaskStep T}
    {start : List (Event T)} {p₀ : Option ParentRef} (h : m.finish next o = some r)
    (ho : o.Ensures (Cell.Speaks start p₀) (Cell.Speaks start p₀)) :
    r.mbox.dispatcher.parent = p₀ ∧ ∃ rest, r.mbox.log = m.log ++ (start ++ rest) ∧
      ∀ e ∈ rest, e.called = true := by
  obtain ⟨c, hc, hm, -⟩ | ⟨c, hc, hm, -⟩ := finish_ensures h ho
  · obtain ⟨context, -, hparent, rest, hrest, hcalled⟩ := hc.context
    rw [List.nil_append] at hrest
    rw [hm]
    exact ⟨hparent, rest, by rw [← hrest]; rfl, hcalled⟩
  · obtain ⟨context, -, hs⟩ := hc.context
    have hunwound : Cell.Spoken start p₀ c.disp.parent context ([] ++ c.log ++ [.unwound]) :=
      hs.append _ (by simp [Event.called])
    obtain ⟨hparent, rest, hrest, hcalled⟩ := hunwound
    rw [List.nil_append] at hrest
    rw [hm]
    exact ⟨hparent, rest, by rw [← hrest]; simp [commit, emit], hcalled⟩

theorem terminate_spoken {input : TaskInput T} {n : Nat} {r : TaskStep T}
    (hphase : m.Phase (.looping n .terminating))
    (hf : m.finish (.looping n .notifying) (m.cell input).terminateActor = some r) :
    r.mbox.dispatcher.parent = m.dispatcher.parent ∧ ∃ actor rest,
      r.mbox.log = m.log ++ .terminating :: .exited actor :: rest ∧
        ∀ e ∈ rest, e.called = true := by
  obtain ⟨-, -, hactor, context, hcontext, -⟩ := hphase
  obtain ⟨actor, hactor⟩ := Option.ne_none_iff_exists'.mp hactor
  obtain ⟨hparent, rest, hlog, hcalled⟩ := finish_spoken hf
    (Cell.terminateActor_spoken (c := m.cell input) rfl hactor (by simp [cell, hcontext]))
  exact ⟨hparent, actor, rest, hlog, hcalled⟩

theorem Move.logs {input : TaskInput T} {t : Task T} {r : TaskStep T}
    (move : m.Move input t r) (hphase : m.Phase t) :
    ∃ events, r.mbox.log = m.log ++ events ∧ ∀ e ∈ events, m.Logs t e := by
  have one : ∀ {e : Event T}, m.Logs t e → ∀ e' ∈ [e], m.Logs t e' := by
    intro e he e' he'
    exact List.mem_singleton.mp he' ▸ he
  cases move with
  | start hparent hf =>
    have hne : m.dispatcher.parent ≠ none := by simp [hparent]
    rcases hphase with hfresh | hlive | hgone
    · have ho : (m.cell input).startActor.Ensures (Cell.Speaks [] m.dispatcher.parent)
          (Cell.Speaks [] m.dispatcher.parent) :=
        (Cell.spoken_recorded [] m.dispatcher.parent).startActor
          (createContext_records (fun _ _ _ _ => trivial) ⟨rfl, [], rfl, List.forall_mem_nil _⟩)
      obtain ⟨-, rest, hlog, hcalled⟩ := finish_spoken hf ho
      exact ⟨rest, hlog, fun e he => .called rfl (hcalled e he) hne fun _ => hfresh.accepting⟩
    · -- a live actor is not started again
      obtain ⟨context, hcontext, -⟩ := hlive.context
      obtain ⟨actor, hactor⟩ := Option.ne_none_iff_exists'.mp hlive.actor
      rw [Cell.startActor_live (c := m.cell input) hcontext hactor] at hf
      obtain ⟨c, hc, -, hm, -⟩ | ⟨c, hc, -⟩ := finish_cases hf <;> cases hc
      exact ⟨[], by rw [hm]; rfl, List.forall_mem_nil _⟩
    · exact absurd hgone.parent hne
  | @process n src msg r hf =>
    obtain ⟨hopen, hlive⟩ := hphase
    obtain ⟨context, hcontext, -⟩ := hlive.context
    have ho : ((m.cell input).processMessage m.numUserMessage src msg).Ensures
        (Cell.Speaks [] m.dispatcher.parent) (Cell.Speaks [] m.dispatcher.parent) :=
      (Cell.spoken_recorded [] m.dispatcher.parent).process
        (fun _ _ _ h => h.append _ (by simp [Event.called])) hlive.actor _ _ _
        (cell_records (fun _ _ _ _ => trivial) hcontext ⟨rfl, [], rfl, List.forall_mem_nil _⟩)
    obtain ⟨-, rest, hlog, hcalled⟩ := finish_spoken hf ho
    exact ⟨rest, hlog, fun e he => .called rfl (hcalled e he) hlive.parent fun _ => hopen⟩
  | terminate hf =>
    obtain ⟨-, actor, rest, hlog, hcalled⟩ := terminate_spoken hphase hf
    have hparent : m.dispatcher.parent ≠ none := hphase.2.parent
    refine ⟨_, hlog, fun e he => ?_⟩
    simp only [List.mem_cons] at he
    rcases he with rfl | rfl | he
    · exact .terminating
    · exact .called rfl rfl hparent nofun
    · exact .called rfl (hcalled e he) hparent nofun
  | childUnwind hnone =>
    obtain ⟨context, hcontext, -⟩ := hphase.context
    exact absurd (hnone.symm.trans hcontext) (by simp)
  | closingUnwind hnone =>
    obtain ⟨-, -, -, context, hcontext, -⟩ := hphase
    exact absurd (hnone.symm.trans hcontext) (by simp)
  | userUnwind hopen hnone =>
    rcases hphase with hlive | hgone
    · obtain ⟨context, hcontext, -⟩ := hlive.context
      exact absurd (hnone.symm.trans hcontext) (by simp)
    · exact absurd (hopen.symm.trans hgone.closed) (by simp)
  | drainWatch _ => exact ⟨_, rfl, one (.drained hphase.parent)⟩
  | watchClosed ht => exact ⟨_, rfl, one (.answered ht)⟩
  | close => exact ⟨_, rfl, one .closed⟩
  | stop hpick => exact ⟨_, rfl, one (.stopped (List.mem_of_getElem? hpick))⟩
  | notify hparent => exact ⟨_, rfl, one (.notified hparent)⟩
  | reply =>
    refine ⟨_, rfl, fun e he => ?_⟩
    simp only [List.mem_append, List.mem_map] at he
    obtain ⟨w, -, rfl⟩ | ⟨handle, -, rfl⟩ := he
    · exact .replied hphase.2.1
    · exact .dropped
  | _ => exact ⟨[], (List.append_nil _).symm, List.forall_mem_nil _⟩

end Mailbox

namespace Node

inductive Logs (nd : Node T) : Action T → Event T → Prop
  | task {i input t e} : nd.tasks[i]? = some t → t.active = true → nd.mbox.Phase t →
      nd.mbox.Logs t e → Logs nd (.task i input) e
  | watchReturned {i w} : nd.clients[i]? = some (.watching w) → nd.mbox.terminated = true →
      Logs nd (.client i) (.watchReturned w)
  | sent {a e} : e.sent = true → Logs nd a e

theorem step_logs {nd nd' : Node T} {a : Action T}
    (h : (machine path option parent).Reachable nd) (hstep : nd.step a = some nd') :
    ∃ events, nd'.mbox.log = nd.mbox.log ++ events ∧ ∀ e ∈ events, nd.Logs a e := by
  have silent : ∀ {log : List (Event T)}, log = nd.mbox.log →
      ∃ events, log = nd.mbox.log ++ events ∧ ∀ e ∈ events, nd.Logs a e :=
    fun hlog => ⟨[], by simp [hlog], List.forall_mem_nil _⟩
  cases step_move hstep with
  | call | tick => exact silent rfl
  | schedule _ => exact silent (schedule_log nd)
  | reschedule _ _ => exact silent (schedule_log _)
  | deliver => exact ⟨_, rfl, fun e he => .sent (by rw [List.mem_singleton.mp he]; rfl)⟩
  | access hi _ hacc =>
    cases hacc with
    | accept _ | watch _ => exact silent rfl
    | unwatched ht =>
      exact ⟨_, rfl, fun e he => List.mem_singleton.mp he ▸ .watchReturned hi ht⟩
    | _ => exact ⟨_, rfl, fun e he => .sent (by rw [List.mem_singleton.mp he]; rfl)⟩
  | @task i input before t after r hi hs hr =>
    cases hact : t.active with
    | false =>
      obtain ⟨hm, -⟩ := (Mailbox.taskStep_move hr).inactive hact
      exact silent (by rw [hm])
    | true =>
      have hphase := (reachable_phase h).loc t (by simp [hs]) hact
      obtain ⟨events, hlog, hlogs⟩ := (Mailbox.taskStep_move hr).logs hphase
      exact ⟨events, hlog, fun e he => .task hi hact hphase (hlogs e he)⟩

end Node

end Ruactor
