import Ruactor.Resting
import Ruactor.Restarts

/-!
# Nobody is stuck

A caller can always make its step, and a task can make one when its callbacks return. So a
run that nobody can go on with has ended at rest: the queues are empty, and the callers of
`graceful_stop` and `wait_stop` have been answered.
-/

namespace Ruactor

open Machine

variable {T : Type} {path : ActorPath} {option : PropsOption} {parent : ParentRef}

/-- A callback that does nothing. -/
def Callback.quiet (site : Site) : Callback T := ⟨site, [], false⟩

namespace Cell

variable {c : Cell T} {context : ActorContext T} {actor : InstanceId}

theorem call_quiet {site : Site} {events : List (Event T)} {calls : List (Callback T)}
    (hcontext : c.disp.context = some context) (hcalls : c.calls = .quiet site :: calls) :
    c.call site events = .returned (c.ran context calls events []) := by
  simp [call, hcontext, hcalls, Callback.quiet, ran]

theorem checkBecome_idle (hcontext : c.disp.context = some context)
    (hactor : context.actor = none) (fuel : Nat) : checkBecome (fuel + 1) c = .returned c := by
  simp [checkBecome, hcontext, hactor]

/-- The callback is called, and asks for no transition. -/
theorem visit_quiet {site : Site} {events : List (Event T)} {calls : List (Callback T)}
    (hcontext : c.disp.context = some context) (hactor : context.actor = none)
    (hcalls : c.calls = .quiet site :: calls) (fuel : Nat) :
    (c.call site events).bind (checkBecome (fuel + 1)) =
      .returned (c.ran context calls events []) := by
  rw [call_quiet hcontext hcalls, Outcome.bind_returned]
  exact checkBecome_idle (c := c.ran context calls events []) rfl hactor fuel

theorem startActor_quiet (hcontext : c.disp.context = none) (hactor : c.disp.actor = none)
    (hcalls : c.calls = [.quiet .create, .quiet .onEnter]) :
    ∃ c', c.startActor = .returned c' ∧ c'.calls = [] := by
  simp only [startActor, createContext, hcontext, hactor, create, hcalls]
  simp only [Callback.quiet, if_true, Bool.false_eq_true, if_false, Outcome.bind_returned,
    lifecycleFuel, List.length_singleton, onEnter]
  have hidle : (ActorContext.new : ActorContext T).actor = none := rfl
  exact ⟨_, visit_quiet rfl hidle rfl 2, rfl⟩

theorem terminateActor_quiet (hcontext : c.disp.context = some context)
    (hidle : context.actor = none) (hactor : c.disp.actor = some actor)
    (hcalls : c.calls = [.quiet .onExit]) :
    ∃ c', c.terminateActor = .returned c' ∧ c'.calls = [] := by
  simp only [terminateActor, lifecycleFuel, hactor, hcalls, List.length_singleton, onExit]
  exact ⟨_, visit_quiet (c := c.takeActor.emit [.terminating]) hcontext hidle hcalls 2, rfl⟩

/-- All callbacks have been called, and `next` is the transition they ask for. -/
def Quiet (next : Option InstanceId) (o : Outcome (Cell T)) : Prop :=
  ∃ c context, o = .returned c ∧ c.calls = [] ∧ c.disp.context = some context ∧
    context.actor = next

theorem Quiet.call {site : Site} {events : List (Event T)}
    (hcontext : c.disp.context = some context) (hcalls : c.calls = [.quiet site]) :
    Quiet context.actor (c.call site events) :=
  ⟨_, context, call_quiet hcontext hcalls, rfl, rfl, rfl⟩

theorem Quiet.returned (hcontext : c.disp.context = some context) (hcalls : c.calls = []) :
    Quiet context.actor (.returned c) :=
  ⟨c, context, rfl, hcalls, hcontext, rfl⟩

/-- The alarm is set, or the dispatcher panics. -/
theorem attempt_quiet {d : Dispatcher T} (rt : Runtime) (hcontext : d.context = some context)
    (delay : Duration) :
    (∃ sites : List Site, Quiet context.actor ((⟨d, rt, sites.map .quiet, []⟩ : Cell T).attempt
      (context.scheduleReceiveTimeout rt delay))) ∨
    ∀ calls, (⟨d, rt, calls, []⟩ : Cell T).attempt (context.scheduleReceiveTimeout rt delay) =
      .panicked ⟨d, rt, calls, []⟩ := by
  by_cases hlate : Instant.overflows (rt.clock + delay) = true
  · refine .inr fun calls => ?_
    simp [attempt, ActorContext.scheduleReceiveTimeout, hlate, apply, ← hcontext]
  · refine .inl ⟨[], ?_⟩
    simp only [attempt, ActorContext.scheduleReceiveTimeout, hlate]
    exact ⟨_, _, rfl, rfl, rfl, rfl⟩

/-- The handler of a message calls one callback, or none. -/
theorem onMessage_quiet {d : Dispatcher T} (rt : Runtime) (hactor : d.actor = some actor)
    (hcontext : d.context = some context) (numMsg : Nat) (src : Source) (message : Message T) :
    (∃ sites : List Site,
      Quiet context.actor (onMessage numMsg src message ⟨d, rt, sites.map .quiet, []⟩)) ∨
    ∀ calls, onMessage numMsg src message ⟨d, rt, calls, []⟩ = .panicked ⟨d, rt, calls, []⟩ := by
  have touched : ∀ calls : List (Callback T),
      ((⟨d, rt, calls, []⟩ : Cell T).touch context).disp.context = some context ∧
        ((⟨d, rt, calls, []⟩ : Cell T).touch context).calls = calls := by
    intro calls
    obtain ⟨-, hsame, -, hcalls⟩ := touch_same context ⟨d, rt, calls, []⟩
    exact ⟨hsame.trans hcontext, hcalls⟩
  simp only [onMessage, hactor, hcontext]
  cases message with
  | user msg =>
    obtain ⟨hsame, hcalls⟩ := touched [.quiet .onMessage]
    exact .inl ⟨[.onMessage], .call hsame hcalls⟩
  | autoMessage message =>
    cases message
    exact .inl ⟨[], _, context, rfl, rfl, rfl, rfl⟩
  | timer key gen msg handle =>
    have asked : ∀ signal : Bool, ∃ sites : List Site, Quiet context.actor
        (let c := (⟨d, rt, sites.map .quiet, []⟩ : Cell T).touch context
        if signal then c.call .onMessage [.timerDelivered actor key gen msg handle]
        else .returned c) := by
      intro signal
      cases signal with
      | true =>
        obtain ⟨hsame, hcalls⟩ := touched [.quiet .onMessage]
        exact ⟨[.onMessage], .call hsame hcalls⟩
      | false =>
        obtain ⟨hsame, hcalls⟩ := touched []
        exact ⟨[], .returned hsame hcalls⟩
    exact .inl (asked _)
  | receiveTimeout exp handle =>
    cases htmout : context.receiveTimeout with
    | none => exact .inl ⟨[], .returned hcontext rfl⟩
    | some tmout =>
      dsimp only
      split_ifs
      · exact .inl ⟨[.onSystemMessage], .call hcontext rfl⟩
      · exact .inr fun _ => rfl
      -- the three others schedule the timeout again
      all_goals exact attempt_quiet rt hcontext _

theorem restart_quiet (hcontext : c.disp.context = some context) (hidle : context.actor = none)
    (hactor : c.disp.actor = some actor)
    (hcalls : c.calls = (restartSites none).map .quiet) :
    ∃ c', c.restart = .returned c' ∧ c'.calls = [] := by
  have hquiet : Ruactor.Quiet c.calls := by
    rw [hcalls]
    rintro _ (_ | ⟨_, _ | ⟨_, _ | ⟨_, ⟨⟩⟩⟩⟩) <;> exact ⟨rfl, List.not_mem_nil⟩
  have hvisited : c.Visited c.log (some actor) none [] :=
    ⟨hactor, ⟨context, hcontext, hidle⟩, hquiet, [], (List.append_nil _).symm, rfl⟩
  refine restart_returns hvisited ?_
  rw [hcalls]
  rfl

end Cell

namespace Mailbox

variable {m : Mailbox T} {input : TaskInput T} {t : Task T}

theorem finish_quiet {next : Task T} {o : Outcome (Cell T)}
    (h : ∃ c, o = .returned c ∧ c.calls = []) : (m.finish next o).isSome = true := by
  obtain ⟨c, rfl, hcalls⟩ := h
  simp [finish, hcalls]

theorem process_quiet (hlive : m.dispatcher.Live false) (numMsg : Nat) (src : Source)
    (msg : Message T) : ∃ (sites : List Site) (c : Cell T),
      (m.cell ⟨sites.map .quiet, 0⟩).processMessage numMsg src msg = .returned c ∧
        c.calls = [] := by
  obtain ⟨context, hcontext, hidle, -⟩ := hlive.context
  obtain ⟨actor, hactor⟩ := Option.ne_none_iff_exists'.mp hlive.actor
  rcases Cell.onMessage_quiet m.rt hactor hcontext numMsg src msg with
    ⟨sites, c, context', hc, hcalls, hcontext', hnext⟩ | hpanics
  · refine ⟨sites, c, ?_, hcalls⟩
    simp only [Cell.processMessage, cell, hc]
    exact Cell.checkBecome_idle hcontext' (hnext.trans hidle) _
  · have hrestart : ∃ c', (m.cell ⟨(Cell.restartSites none).map .quiet, 0⟩).restart = .returned c' ∧
        c'.calls = [] := Cell.restart_quiet hcontext hidle hactor rfl
    obtain ⟨c, hc, hcalls⟩ := hrestart
    refine ⟨Cell.restartSites none, c, ?_, hcalls⟩
    simp only [Cell.processMessage, cell, hpanics]
    exact hc

/-- There are callbacks with which the task makes its step. -/
theorem task_quiet (hphase : m.Phase t) (ht : t ≠ .rechecking .scheduling) :
    ∃ sites : List Site, (m.taskStep ⟨sites.map .quiet, 0⟩ t).isSome = true := by
  cases t with
  | spawned =>
    rcases hphase with hfresh | hlive | hgone
    · obtain ⟨parent, hparent⟩ := Option.ne_none_iff_exists'.mp hfresh.parent
      refine ⟨[.create, .onEnter], ?_⟩
      simp only [taskStep, hparent]
      exact finish_quiet (Cell.startActor_quiet hfresh.context hfresh.actor rfl)
    · obtain ⟨parent, hparent⟩ := Option.ne_none_iff_exists'.mp hlive.parent
      obtain ⟨context, hcontext, -⟩ := hlive.context
      obtain ⟨actor, hactor⟩ := Option.ne_none_iff_exists'.mp hlive.actor
      refine ⟨[], ?_⟩
      simp only [taskStep, hparent]
      exact finish_quiet ⟨_, Cell.startActor_live hcontext hactor, rfl⟩
    · exact ⟨[], by simp [taskStep, hgone.parent]⟩
  | draining =>
    refine ⟨[], ?_⟩
    simp only [taskStep]
    split
    · rfl
    · split <;> rfl
  | storing => exact ⟨[], rfl⟩
  | rechecking point =>
    cases point with
    | scheduling => exact absurd rfl ht
    | _ => exact ⟨[], rfl⟩
  | looping n stage =>
    cases stage with
    | terminating =>
      obtain ⟨-, hactive⟩ := hphase
      obtain ⟨context, hcontext, hidle, -⟩ := hactive.context
      obtain ⟨actor, hactor⟩ := Option.ne_none_iff_exists'.mp hactive.actor
      exact ⟨[.onExit], finish_quiet (Cell.terminateActor_quiet hcontext hidle hactor rfl)⟩
    | processing src msg =>
      obtain ⟨sites, hsites⟩ := process_quiet hphase.2 m.numUserMessage src msg
      exact ⟨sites, finish_quiet hsites⟩
    | internalMessage msg => exact ⟨[], rfl⟩
    | stopping rest =>
      cases rest with
      | nil => exact ⟨[], rfl⟩
      | cons child rest => exact ⟨[], rfl⟩
    | replying => exact ⟨[], rfl⟩
    | nextMessage | notifying | processed =>
      refine ⟨[], ?_⟩
      simp only [taskStep, stageStep]
      split <;> rfl
    | closing | popInternal =>
      refine ⟨[], ?_⟩
      simp only [taskStep, stageStep]
      split
      · rfl
      · split <;> rfl
    | popUser =>
      refine ⟨[], ?_⟩
      simp only [taskStep, stageStep]
      split
      · rfl
      split
      · rfl
      split
      · rfl
      · split <;> rfl

end Mailbox

namespace Node

variable {nd nd' : Node T}

/-- A step of a task or a caller in which callbacks neither put messages back nor end the
task. -/
def goesOn (nd : Node T) (a : Action T) : Prop := a.inward = true ∧ calm nd a

/-- The queues are empty, and nobody is there who could fill them. -/
structure Settled (nd : Node T) : Prop where
  rest : nd.AtRest
  internal : nd.mbox.internalQueue = []
  user : nd.mbox.messageQueue.items = [] ∨ nd.mbox.terminated = true

/-- A client acts, or a task whose callbacks do nothing. -/
def quiet : Action T → Bool
  | .client _ => true
  | .task _ input => input.calls.all fun cb => cb.ops.isEmpty && !cb.panics
  | .call _ | .deliver _ | .tick _ => false

theorem quiet_calls {i : Nat} {input : TaskInput T} (h : quiet (.task i input) = true) :
    ∀ cb ∈ input.calls, cb.ops = [] ∧ cb.panics = false := by
  simpa [quiet] using h

theorem quiet_goes {a : Action T} (h : quiet a = true) (nd : Node T) : goesOn nd a := by
  cases a with
  | client i => exact ⟨rfl, trivial⟩
  | task i input =>
    have hcalls := quiet_calls h
    refine ⟨?_, fun _ _ cb hcb _ => (hcalls cb hcb).2⟩
    simp only [Action.inward, List.all_eq_true]
    intro cb hcb
    simp [(hcalls cb hcb).1]
  | _ => cases h

theorem task_goes (h : (machine path option parent).Reachable nd) (hclients : nd.clients = [])
    {t : Task T} {tasks : List (Task T)} (htasks : nd.tasks = t :: tasks) :
    ∃ a, quiet a = true ∧ (nd.step a).isSome = true := by
  have hquiet : ∀ sites : List Site, quiet (.task 0 ⟨sites.map .quiet, 0⟩ : Action T) = true := by
    intro sites
    simp [quiet, Callback.quiet]
  by_cases ht : t = .rechecking .scheduling
  · exact ⟨.task 0 {}, hquiet [], by simp [step, htasks, ht]⟩
  · obtain ⟨sites, hsome⟩ := Mailbox.task_quiet (phase_of_mem h (by simp [htasks])) ht
    obtain ⟨r, hr⟩ := Option.isSome_iff_exists.mp hsome
    refine ⟨_, hquiet sites, ?_⟩
    simp [step, htasks, hclients, hr]

/-- Where somebody is left, somebody can go on. -/
theorem never_stuck (h : (machine path option parent).Reachable nd)
    (hstuck : ∀ a, quiet a = true → nd.step a = none) : nd.AtRest := by
  cases hclients : nd.clients with
  | cons client clients =>
    have hnone := hstuck (.client 0) rfl
    simp [step, hclients] at hnone
  | nil =>
    cases htasks : nd.tasks with
    | nil => exact ⟨htasks, hclients⟩
    | cons t tasks =>
      obtain ⟨a, ha, hsome⟩ := task_goes h hclients htasks
      simp [hstuck a ha] at hsome

theorem settled (h : (machine path option parent).Reach calm nd)
    (hstuck : ∀ a, goesOn nd a → nd.step a = none) : nd.Settled := by
  have hrest := never_stuck h.reachable fun a ha => hstuck a (quiet_goes ha nd)
  have hcovered := reach_covered (calm_reach h)
  refine ⟨hrest, hcovered.internal_nil hrest.quiescent, ?_⟩
  cases hopen : nd.mbox.terminated with
  | false => exact .inl (hcovered.user_nil hrest.quiescent hopen)
  | true => exact .inr rfl

/-- The clock goes on. -/
def idle (_ : Node T) (a : Action T) : Prop := a.idle

end Node

end Ruactor
