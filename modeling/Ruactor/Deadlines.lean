import Ruactor.Timeouts

/-!
# Deadlines

The deadline of an alarm is an instant, and the instants have an end. A timeout whose deadline
lies past it is set, but the call panics before there is an alarm. Whether it comes to that is
known before the step, from the clock and the operations of the callbacks.
-/

namespace Ruactor

open Machine

variable {T : Type} {path : ActorPath} {option : PropsOption} {parent : ParentRef}

/-- The timeout was set for an instant that there is not. -/
def Event.overrun : Event T → Bool
  | .timeoutSet d now => Instant.overflows (now + d)
  | _ => false

/-- Of the operations, which begin at `now`, one sets such a timeout. -/
def overruns : Instant → List (ContextOp T) → Bool
  | _, [] => false
  | now, .elapse d :: ops => overruns (now + d) ops
  | now, .setReceiveTimeout d :: ops => Instant.overflows (now + d) || overruns now ops
  | now, _ :: ops => overruns now ops

theorem dropHandle_inRange (old : Option Scheduled) :
    ∀ e ∈ (ActorContext.dropHandle old : List (Event T)), e.overrun = false := by
  intro e he
  obtain ⟨handle, rfl⟩ := dropHandle_mem he
  rfl

theorem armReceiveTimeout_inRange (rt : Runtime) (c : ActorContext T) (d : Duration) :
    ∀ e ∈ (c.armReceiveTimeout rt d).log, e.overrun = false :=
  List.forall_mem_cons.mpr ⟨rfl, dropHandle_inRange _⟩

theorem ContextOp.apply_inRange {rt : Runtime} {c : ActorContext T} {op : ContextOp T}
    {ops : List (ContextOp T)} (h : overruns rt.clock (op :: ops) = false) :
    overruns (op.apply rt c).rt.clock ops = false ∧
      ∀ e ∈ (op.apply rt c).log, e.overrun = false := by
  cases op with
  | setReceiveTimeout d =>
    simp only [overruns, Bool.or_eq_false_iff] at h
    obtain ⟨hd, hops⟩ := h
    simp only [apply, ActorContext.setReceiveTimeout, ActorContext.scheduleReceiveTimeout, hd,
      Bool.false_eq_true, if_false]
    exact ⟨hops, List.forall_mem_cons.mpr ⟨hd, armReceiveTimeout_inRange _ _ _⟩⟩
  | startSingleTimer name d msg =>
    simp only [apply, ActorContext.startSingleTimer]
    split
    · exact ⟨h, List.forall_mem_singleton.mpr rfl⟩
    · exact ⟨h, List.forall_mem_cons.mpr ⟨rfl, List.forall_mem_cons.mpr
        ⟨rfl, dropHandle_inRange _⟩⟩⟩
  | createChild messageType prop | getOrCreateChild name messageType prop =>
    simp only [apply, ActorContext.createChild, ActorContext.getOrCreateChild]
    split
    · exact ⟨h, List.forall_mem_nil _⟩
    all_goals exact ⟨h, List.forall_mem_singleton.mpr rfl⟩
  | cancelTimer _ | cancelReceiveTimeout =>
    exact ⟨h, List.forall_mem_cons.mpr ⟨rfl, dropHandle_inRange _⟩⟩
  | transit | elapse _ => exact ⟨h, List.forall_mem_nil _⟩
  | stash _ | unstashAll | stopSelf => exact ⟨h, List.forall_mem_singleton.mpr rfl⟩

theorem runOps_inRange {ops rest : List (ContextOp T)} {rt : Runtime} {c : ActorContext T}
    (h : overruns rt.clock (ops ++ rest) = false) :
    overruns (runOps rt c ops).rt.clock rest = false ∧
      ∀ e ∈ (runOps rt c ops).log, e.overrun = false := by
  induction ops generalizing rt c with
  | nil => exact ⟨h, List.forall_mem_nil _⟩
  | cons op ops ih =>
    obtain ⟨hops, hlog⟩ := op.apply_inRange (c := c) h
    obtain ⟨hrest, hlogs⟩ := ih (c := (op.apply rt c).context) hops
    exact ⟨hrest, List.forall_mem_append.mpr ⟨hlog, hlogs⟩⟩

namespace Cell

/-- No timeout was set for an instant that there is not, and none will be. -/
structure Punctual (c : Cell T) : Prop where
  ops : overruns c.rt.clock (effects c.calls) = false
  log : ∀ e ∈ c.log, e.overrun = false

variable {c : Cell T}

theorem Punctual.apply (h : c.Punctual) {e : Effect T} (hclock : e.rt.clock = c.rt.clock)
    (hlog : ∀ e' ∈ e.log, e'.overrun = false) : (c.apply e).Punctual where
  ops := by
    change overruns e.rt.clock _ = false
    rw [hclock]
    exact h.ops
  log := List.forall_mem_append.mpr ⟨h.log, hlog⟩

theorem Punctual.call (h : c.Punctual) {site : Site} (hsite : site ≠ .create) {e : Event T}
    (he : e.overrun = false) : (c.call site [e]).Ensures Punctual Punctual := by
  apply call_ensures
  · exact fun _ => h
  rintro context cb calls - hcalls rfl
  have hops := h.ops
  rw [hcalls, effects_cons hsite] at hops
  obtain ⟨hrest, hlog⟩ := runOps_inRange (c := context) hops
  have hran : (c.ran context calls [e] cb.ops).Punctual := by
    refine ⟨hrest, List.forall_mem_append.mpr ⟨?_, hlog⟩⟩
    exact List.forall_mem_append.mpr ⟨h.log, List.forall_mem_singleton.mpr he⟩
  exact ⟨fun _ => hran, fun _ => hran⟩

theorem Punctual.create (h : c.Punctual) : c.create.Ensures Punctual Punctual := by
  apply create_ensures
  intro cb calls hcalls hsite
  have hops := h.ops
  rw [hcalls, effects_create calls hsite] at hops
  exact ⟨fun _ => ⟨hops, List.forall_mem_append.mpr ⟨h.log, by simp [Event.overrun]⟩⟩,
    fun _ => ⟨hops, h.log⟩⟩

theorem punctual_lasts : Lasts (T := T) Punctual where
  context h _ := h
  exit h := h.call (by decide) rfl
  enter h _ := h.call (by decide) rfl
  install h _ _ := ⟨h.ops, List.forall_mem_append.mpr ⟨h.log, List.forall_mem_singleton.mpr rfl⟩⟩
  create h := h.create
  take h := ⟨h.ops, h.log⟩

theorem Punctual.touch (h : c.Punctual) (context : ActorContext T) :
    (c.touch context).Punctual := by
  have hlog : ∀ e ∈ c.log ++ [.received c.rt.clock], e.overrun = false :=
    List.forall_mem_append.mpr ⟨h.log, List.forall_mem_singleton.mpr rfl⟩
  simp only [Cell.touch]
  split <;> exact ⟨h.ops, hlog⟩

theorem processMessage_punctual (h : c.Punctual) {actor : InstanceId} {context : ActorContext T}
    (hactor : c.disp.actor = some actor) (hcontext : c.disp.context = some context) (numMsg : Nat)
    (src : Source) (message : Message T) :
    (processMessage numMsg src message c).Ensures Punctual Punctual := by
  refine punctual_lasts.processMessage ?_
  obtain ⟨o, ho, hhandling⟩ := onMessage_handling hactor hcontext numMsg src message
  rw [ho]
  cases hhandling with
  | user | timer _ _ => exact (h.touch context).call (by decide) rfl
  | stale => exact h.touch context
  | poisonPill => exact h.apply rfl (List.forall_mem_singleton.mpr rfl)
  | unset _ | failed _ _ _ => exact h
  | expired _ _ _ _ => exact h.call (by decide) rfl
  | early _ _ _ _ | again _ => exact h.apply rfl (armReceiveTimeout_inRange _ _ _)

end Cell

namespace Mailbox

def Punctual (m : Mailbox T) : Prop := ∀ e ∈ m.log, e.overrun = false

/-- The deadline that the processing of a message computes. -/
def nextAlarm (m : Mailbox T) : Message T → Option Instant
  | .receiveTimeout exp _ => do
    let context ← m.dispatcher.context
    let tmout ← context.receiveTimeout
    Cell.nextDeadline m.dispatcher.lastMessageTimestamp m.rt.clock m.numUserMessage exp tmout
  | _ => none

theorem nextAlarm_eq {m : Mailbox T} {context : ActorContext T} {tmout : Duration}
    (hcontext : m.dispatcher.context = some context) (htmout : context.receiveTimeout = some tmout)
    (exp : Instant) (handle : Scheduled) :
    m.nextAlarm (.receiveTimeout exp handle) = Cell.nextDeadline m.setting.stamp
      m.setting.rt.clock m.numUserMessage exp tmout := by
  simp [nextAlarm, hcontext, htmout, setting]

/-- The deadlines that a step computes for the timeout are instants. -/
def InRange (m : Mailbox T) (t : Task T) (input : TaskInput T) : Prop :=
  overruns m.rt.clock (effects input.calls) = false ∧
    ∀ msg ∈ t.message, ∀ deadline ∈ m.nextAlarm msg, deadline < Instant.limit

instance (m : Mailbox T) (t : Task T) (input : TaskInput T) : Decidable (m.InRange t input) :=
  inferInstanceAs (Decidable (_ ∧ ∀ msg ∈ t.message, ∀ deadline ∈ m.nextAlarm msg, _ < _))

variable {m m' : Mailbox T} {input : TaskInput T} {t : Task T} {r : TaskStep T}

theorem InRange.cell (h : m.InRange t input) : (m.cell input).Punctual :=
  ⟨h.1, List.forall_mem_nil _⟩

theorem finish_punctual {next : Task T} {o : Outcome (Cell T)} (h : m.Punctual)
    (hf : m.finish next o = some r) (ho : o.Ensures Cell.Punctual Cell.Punctual) :
    r.mbox.Punctual := by
  obtain ⟨c, hc, hm, -⟩ | ⟨c, hc, hm, -⟩ := finish_ensures hf ho
  · rw [hm]
    exact List.forall_mem_append.mpr ⟨h, hc.log⟩
  · rw [hm]
    refine List.forall_mem_append.mpr ⟨List.forall_mem_append.mpr ⟨h, hc.log⟩, ?_⟩
    exact List.forall_mem_singleton.mpr rfl

theorem Logs.inRange {e : Event T} (h : m.Logs t e) (ht : t.calls = false) :
    e.overrun = false := by
  cases h with
  | called hcalls _ _ _ => exact absurd (hcalls.symm.trans ht) (by simp)
  | _ => rfl

theorem Move.punctual (move : m.Move input t r) (hphase : m.Phase t) (ok : m.InRange t input)
    (h : m.Punctual) : r.mbox.Punctual := by
  cases hcalls : t.calls with
  | true =>
    cases move with
    | start _ hf =>
      refine finish_punctual h hf (Cell.punctual_lasts.startActor ?_)
      simp only [Cell.createContext]
      split <;> exact ⟨ok.1, List.forall_mem_nil _⟩
    | terminate hf =>
      refine finish_punctual h hf (Cell.punctual_lasts.terminateActor ?_)
      exact ⟨ok.1, List.forall_mem_singleton.mpr rfl⟩
    | process hf =>
      obtain ⟨context, hcontext, -⟩ := hphase.2.context
      obtain ⟨actor, hactor⟩ := Option.ne_none_iff_exists'.mp hphase.2.actor
      exact finish_punctual h hf (Cell.processMessage_punctual ok.cell hactor hcontext _ _ _)
    | dead _ => exact h
    | _ => cases hcalls
  | false =>
    obtain ⟨events, hlog, hlogs⟩ := move.logs hphase
    rw [Punctual, hlog]
    exact List.forall_mem_append.mpr ⟨h, fun e he => (hlogs e he).inRange hcalls⟩

theorem Env.punctual (henv : m.Env m') (h : m.Punctual) : m'.Punctual := by
  cases henv with
  | same | tick _ => exact h
  | rejected _ | watchReturned _ _ | pushed _ _ | pushedInternal _ =>
    exact List.forall_mem_append.mpr ⟨h, List.forall_mem_singleton.mpr rfl⟩

end Mailbox

namespace Node

theorem punctual_owned : Owned path option parent (Mailbox.InRange (T := T)) Mailbox.Phase
    (fun _ _ => True) (fun _ => True) Mailbox.Punctual where
  start := ⟨trivial, List.forall_mem_nil _⟩
  env henv := ⟨henv.punctual, id, fun _ _ => id⟩
  acquire _ := ⟨id, id⟩
  move move _ ok hphase _ h :=
    ⟨move.punctual hphase ok h, fun _ _ => ⟨fun _ => trivial, fun _ => trivial⟩⟩

theorem reach_punctual {nd : Node T}
    (h : (machine path option parent).Reach (okTask Mailbox.InRange) nd) : nd.mbox.Punctual :=
  (punctual_owned.reach (fun hr => (reachable_phase hr).loc) h).inv

end Node

end Ruactor
