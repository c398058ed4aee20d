import Ruactor.Callbacks
import Ruactor.Wakeup

/-!
# The life of a dispatcher

A dispatcher is fresh, live or gone while nobody uses it. `closed` is the flag
`terminated`: a live actor that is closed waits for its children. The program
points of `terminate` lie between live and gone. It follows that every
`expect("must")` on the way finds a context, so an `actor_loop` call can only
unwind through a callback outside `catch_unwind`.
-/

namespace Ruactor

open Machine

variable {T : Type} {path : ActorPath} {option : PropsOption} {parent : ParentRef}

namespace Dispatcher

structure Fresh (d : Dispatcher T) (closed : Bool) : Prop where
  parent : d.parent ≠ none
  actor : d.actor = none
  context : d.context = none
  watcher : d.watcher = []
  accepting : closed = false

/-- There is an actor, no transition is pending, and the context satisfies `P`. -/
structure Active (d : Dispatcher T) (P : ActorContext T → Prop) : Prop where
  parent : d.parent ≠ none
  actor : d.actor ≠ none
  context : ∃ context, d.context = some context ∧ context.actor = none ∧ P context

/-- Closed if and only if suspended, and suspended only while there are children. -/
def Waiting (closed : Bool) (context : ActorContext T) : Prop :=
  context.suspendReason.isSome = closed ∧ (closed = true → context.childrens.entries ≠ [])

def Live (d : Dispatcher T) (closed : Bool) : Prop := d.Active (Waiting closed)

structure Gone (d : Dispatcher T) (closed : Bool) : Prop where
  parent : d.parent = none
  context : d.context = none
  watcher : d.watcher = []
  closed : closed = true

def Rest (d : Dispatcher T) (closed : Bool) : Prop :=
  d.Fresh closed ∨ d.Live closed ∨ d.Gone closed

def Phase (d : Dispatcher T) (closed : Bool) : Task T → Prop
  | .spawned | .storing => d.Rest closed
  | .draining => d.Gone closed
  | .looping _ stage =>
    match stage with
    | .nextMessage | .internalMessage _ => d.Live closed
    | .popInternal | .popUser => d.Live closed ∨ d.Gone closed
    | .closing => closed = true ∧
        d.Active fun context => context.suspendReason.isSome → context.childrens.entries ≠ []
    | .stopping _ => closed = true ∧ d.Live true
    | .terminating => closed = true ∧
        d.Active fun context => context.suspendReason = none ∧ context.childrens.entries = []
    | .notifying => closed = true ∧ d.parent ≠ none ∧ d.context ≠ none
    | .replying => closed = true ∧ d.parent = none ∧ d.context ≠ none
    | .processing _ _ | .processed => closed = false ∧ d.Live false
  | .rechecking _ => True

end Dispatcher

namespace Mailbox

def Phase (m : Mailbox T) (t : Task T) : Prop := m.dispatcher.Phase m.terminated t

def Rest (m : Mailbox T) : Prop := m.dispatcher.Rest m.terminated

theorem Env.dispatcher {m m' : Mailbox T} (h : Env m m') : m'.dispatcher = m.dispatcher := by
  cases h <;> rfl

theorem finish_ensures {m : Mailbox T} {next : Task T} {o : Outcome (Cell T)} {r : TaskStep T}
    {P Q : Cell T → Prop} (h : m.finish next o = some r) (ho : o.Ensures P Q) :
    (∃ c, P c ∧ r.mbox = m.commit c ∧ r.next = some next) ∨
      ∃ c, Q c ∧ r.mbox = (m.commit c).emit [.unwound] ∧ r.next = none := by
  obtain ⟨c, rfl, -, hm, hn, -⟩ | ⟨c, rfl, -, hm, hn, -⟩ := finish_cases h
  · exact .inl ⟨c, ho, hm, hn⟩
  · exact .inr ⟨c, ho, hm, hn⟩

theorem Ready.active {d : Dispatcher T} {reason : Option SuspendReason}
    {calls : List (Callback T)} {c : Cell T} (h : c.Ready d reason calls) (hp : d.parent ≠ none) :
    c.disp.Active fun context => context.suspendReason = reason := by
  obtain ⟨context, hcontext, hreason⟩ := h.framed.context
  obtain ⟨context', hcontext', hactor⟩ := h.settled
  obtain rfl : context = context' := Option.some.inj (hcontext.symm.trans hcontext')
  exact ⟨h.framed.parent ▸ hp, h.staffed, context, hcontext, hactor, hreason⟩

theorem start_live {m : Mailbox T} {input : TaskInput T} (hp : m.dispatcher.parent ≠ none)
    (h : m.Rest) : (m.cell input).startActor.Ensures (fun c => c.disp.Live m.terminated)
      fun _ => ¬ Calm input.calls := by
  rcases h with hf | hl | hg
  · refine (Cell.startActor_fresh hf.context hf.actor).mono (fun c hc => ?_) fun _ => id
    obtain ⟨hparent, hactor, context, hcontext, hnone, hreason⟩ := Ready.active hc hf.parent
    exact ⟨hparent, hactor, context, hcontext, hnone, by simp [hreason, hf.accepting],
      fun hcl => by simp [hf.accepting] at hcl⟩
  · obtain ⟨context, hcontext, -⟩ := hl.context
    obtain ⟨actor, hactor⟩ := Option.ne_none_iff_exists'.mp hl.actor
    rw [Cell.startActor_live (c := m.cell input) hcontext hactor]
    exact hl
  · exact absurd hg.parent hp

theorem process_live {m : Mailbox T} {input : TaskInput T} (h : m.dispatcher.Live false)
    (numMsg : Nat) (src : Source) (msg : Message T) :
    ((m.cell input).processMessage numMsg src msg).Ensures (fun c => c.disp.Live false)
      fun _ => ¬ Calm input.calls := by
  obtain ⟨context, hcontext, -, hw⟩ := h.context
  refine (Cell.processMessage_ready hcontext h.actor numMsg src msg).mono (fun c hc => ?_)
    fun _ => id
  obtain ⟨hparent, hactor, context', hcontext', hnone, hreason⟩ := Ready.active hc h.parent
  exact ⟨hparent, hactor, context', hcontext', hnone, by rw [hreason]; exact hw.1, nofun⟩

theorem terminate_phase {m : Mailbox T} {input : TaskInput T} {context : ActorContext T}
    (hp : m.dispatcher.parent ≠ none) (hcontext : m.dispatcher.context = some context) :
    (m.cell input).terminateActor.Ensures
      (fun c => c.disp.parent ≠ none ∧ c.disp.context ≠ none) fun _ => ¬ Calm input.calls := by
  refine (Cell.terminateActor_framed (c := m.cell input) hcontext).mono (fun c hc => ?_)
    fun _ => id
  obtain ⟨context', hcontext', -⟩ := hc.context
  exact ⟨hc.parent ▸ hp, by simp [hcontext']⟩

/-- The next batch has a context to work with, or will be given one. -/
def Served (m : Mailbox T) : Prop := m.dispatcher.context = none → m.dispatcher.parent ≠ none

def setting (m : Mailbox T) : Cell.Setting :=
  ⟨m.dispatcher.parent, m.dispatcher.lastMessageTimestamp, m.rt⟩

theorem cell_follows {allowed : ContextOp T → Prop}
    {J : Cell.Setting → ActorContext T → List (Event T) → Prop} {log : List (Event T)}
    {m : Mailbox T} {input : TaskInput T} {context : ActorContext T}
    (hwithin : Cell.Within allowed input.calls) (hcontext : m.dispatcher.context = some context)
    (hj : J m.setting context log) : (m.cell input).Follows allowed J log :=
  ⟨hwithin, context, hcontext, by simpa [Mailbox.cell, Cell.setting, setting] using hj⟩

theorem createContext_follows {allowed : ContextOp T → Prop}
    {J : Cell.Setting → ActorContext T → List (Event T) → Prop} {log : List (Event T)}
    {m : Mailbox T} {input : TaskInput T} (hwithin : Cell.Within allowed input.calls)
    (hj : J m.setting (m.dispatcher.context.getD .new) log) :
    (m.cell input).createContext.Follows allowed J log := by
  cases hcontext : m.dispatcher.context with
  | some context =>
    rw [hcontext] at hj
    simpa [Cell.createContext, Mailbox.cell, hcontext] using cell_follows hwithin hcontext hj
  | none =>
    rw [hcontext] at hj
    simp only [Cell.createContext, Mailbox.cell, hcontext]
    exact ⟨hwithin, .new, rfl, by simpa [Cell.setting, setting] using hj⟩

theorem cell_records {allowed : ContextOp T → Prop}
    {J : Option ParentRef → ActorContext T → List (Event T) → Prop} {log : List (Event T)}
    {m : Mailbox T} {input : TaskInput T} {context : ActorContext T}
    (hwithin : Cell.Within allowed input.calls) (hcontext : m.dispatcher.context = some context)
    (hj : J m.dispatcher.parent context log) : (m.cell input).Records allowed J log :=
  ⟨hwithin, context, hcontext, by simpa [Mailbox.cell] using hj⟩

theorem createContext_records {allowed : ContextOp T → Prop}
    {J : Option ParentRef → ActorContext T → List (Event T) → Prop} {log : List (Event T)}
    {m : Mailbox T} {input : TaskInput T} (hwithin : Cell.Within allowed input.calls)
    (hj : J m.dispatcher.parent (m.dispatcher.context.getD .new) log) :
    (m.cell input).createContext.Records allowed J log :=
  have hf : (m.cell input).createContext.Follows allowed (fun s => J s.parent) log :=
    createContext_follows hwithin hj
  ⟨hf.within, hf.context⟩

/-- The step logs what its callbacks have logged, and that one of them has unwound. -/
theorem finish_events {P Q : Cell T → Prop} {m : Mailbox T} {next : Task T}
    {o : Outcome (Cell T)} {r : TaskStep T} {events : List (Event T)}
    (h : m.finish next o = some r) (ho : o.Ensures P Q) (hlog : r.mbox.log = m.log ++ events) :
    (∃ c, P c ∧ events = c.log) ∨ ∃ c, Q c ∧ events = c.log ++ [.unwound] := by
  obtain ⟨c, hc, hm, -⟩ | ⟨c, hc, hm, -⟩ := finish_ensures h ho
  · exact .inl ⟨c, hc, List.append_cancel_left (hlog.symm.trans (by rw [hm]; rfl))⟩
  · refine .inr ⟨c, hc, List.append_cancel_left (hlog.symm.trans ?_)⟩
    rw [hm]
    simp [commit, emit]

theorem finish_records {allowed : ContextOp T → Prop}
    {J : Option ParentRef → ActorContext T → List (Event T) → Prop} {m : Mailbox T}
    {next : Task T} {o : Outcome (Cell T)} {r : TaskStep T} {events : List (Event T)}
    (h : m.finish next o = some r)
    (ho : o.Ensures (Cell.Records allowed J []) (Cell.Records allowed J []))
    (hunwound : ∀ {p context log}, J p context log → J p context (log ++ [.unwound]))
    (hlog : r.mbox.log = m.log ++ events) : ∃ p context, J p context events := by
  obtain ⟨c, hc, rfl⟩ | ⟨c, hc, rfl⟩ := finish_events h ho hlog
  · obtain ⟨context, -, hj⟩ := hc.context
    exact ⟨_, context, hj⟩
  · obtain ⟨context, -, hj⟩ := hc.context
    exact ⟨_, context, hunwound hj⟩

theorem withContext_live {m : Mailbox T} {closed : Bool} {context : ActorContext T}
    (h : m.dispatcher.Live closed) (hactor : context.actor = none)
    (hw : Dispatcher.Waiting closed context) : (m.withContext context).dispatcher.Live closed :=
  ⟨h.parent, h.actor, context, rfl, hactor, hw⟩

theorem move_phase {m : Mailbox T} {input : TaskInput T} {t : Task T} {r : TaskStep T}
    (move : m.Move input t r) (h : m.Phase t) : ∀ t' ∈ r.next, r.mbox.Phase t' := by
  intro t' ht'
  cases move with
  | childUnwind _ | closingUnwind _ | userUnwind _ _ | done _ => cases ht'
  | someUser _ | noUser _ | accepting _ | closed _ | someInternal _ | store =>
    cases ht'
    trivial
  | dead hp =>
    cases ht'
    rcases h with hf | hl | hg
    · exact absurd hp hf.parent
    · exact absurd hp hl.parent
    · exact hg
  | start hp hf =>
    obtain ⟨c, hc, hm, hn⟩ | ⟨c, -, -, hn⟩ := finish_ensures hf (start_live (by simp [hp]) h)
    · rw [hn] at ht'
      cases ht'
      rw [hm]
      exact hc
    · simp [hn] at ht'
  | drained _ =>
    cases ht'
    exact .inr (.inr h)
  | drainWatch _ | drain _ _ | nextMessage _ | created | stopped | stop _ =>
    cases ht'
    first | exact h | exact .inl h | exact .inl (h.1 ▸ h.2)
  | noContext hnone =>
    obtain ⟨context, hcontext, -⟩ := h.context
    exact absurd (hnone.symm.trans hcontext) (by simp)
  | popNone _ =>
    cases ht'
    exact h
  | popInternal hcontext _ =>
    cases ht'
    rcases h with hl | hg
    · exact hl
    · exact absurd (hg.context.symm.trans hcontext) (by simp)
  | watchClosed _ =>
    cases ht'
    exact .inl h
  | watch _ =>
    cases ht'
    exact .inl ⟨h.parent, h.actor, h.context⟩
  | close =>
    cases ht'
    obtain ⟨hparent, hactor, context, hcontext, hnone, hw⟩ := h
    exact ⟨rfl, hparent, hactor, context, hcontext, hnone, fun hs => hw.2 (hw.1 ▸ hs)⟩
  | childLast hcontext hreason hempty =>
    cases ht'
    obtain ⟨hparent, hactor, context, hcontext', hnone, hw⟩ := h
    obtain rfl := Option.some.inj (hcontext.symm.trans hcontext')
    exact ⟨hw.1 ▸ hreason, hparent, hactor, _, rfl, hnone, rfl, hempty⟩
  | childGone hcontext hgo =>
    cases ht'
    obtain ⟨context, hcontext', hnone, hw⟩ := h.context
    obtain rfl := Option.some.inj (hcontext.symm.trans hcontext')
    exact .inl (withContext_live h hnone ⟨hw.1, fun hcl he => hgo ⟨hw.1.trans hcl, he⟩⟩)
  | childless hcontext hempty =>
    cases ht'
    obtain ⟨hclosed, hparent, hactor, context, hcontext', hnone, hw⟩ := h
    obtain rfl := Option.some.inj (hcontext.symm.trans hcontext')
    exact ⟨hclosed, hparent, hactor, _, hcontext, hnone, by simpa [hempty] using hw, hempty⟩
  | suspend hcontext hchildren =>
    cases ht'
    obtain ⟨hclosed, hparent, hactor, context, hcontext', hnone, hw⟩ := h
    obtain rfl := Option.some.inj (hcontext.symm.trans hcontext')
    exact ⟨hclosed, hparent, hactor, _, rfl, hnone, rfl, fun _ => hchildren⟩
  | terminate hf =>
    obtain ⟨hclosed, hparent, -, context, hcontext, -⟩ := h
    obtain ⟨c, hc, hm, hn⟩ | ⟨c, -, -, hn⟩ := finish_ensures hf (terminate_phase hparent hcontext)
    · rw [hn] at ht'
      cases ht'
      rw [hm]
      exact ⟨hclosed, hc⟩
    · simp [hn] at ht'
  | orphan hp => exact absurd hp h.2.1
  | notify _ =>
    cases ht'
    exact ⟨h.1, rfl, h.2.2⟩
  | reply =>
    cases ht'
    exact .inr ⟨h.2.1, rfl, rfl, h.1⟩
  | terminated _ =>
    cases ht'
    exact .inr h
  | popUnstashed hopen hcontext _ =>
    cases ht'
    rcases h with hl | hg
    · obtain ⟨context, hcontext', hnone, hw⟩ := hl.context
      obtain rfl := Option.some.inj (hcontext.symm.trans hcontext')
      exact ⟨hopen, withContext_live (hopen ▸ hl) hnone (hopen ▸ hw)⟩
    · exact absurd (hopen.symm.trans hg.closed) (by simp)
  | idle _ _ _ _ =>
    cases ht'
    exact .inr h
  | popUser hopen _ _ _ _ =>
    cases ht'
    rcases h with hl | hg
    · exact ⟨hopen, hopen ▸ hl⟩
    · exact absurd (hopen.symm.trans hg.closed) (by simp)
  | process hf =>
    obtain ⟨c, hc, hm, hn⟩ | ⟨c, -, -, hn⟩ := finish_ensures hf (process_live h.2 _ _ _)
    · rw [hn] at ht'
      cases ht'
      rw [hm]
      exact ⟨h.1, hc⟩
    · simp [hn] at ht'
  | cutOff _ =>
    cases ht'
    exact .inr (.inl (h.1 ▸ h.2))
  | goOn _ =>
    cases ht'
    change m.dispatcher.Live m.terminated
    rw [h.1]
    exact h.2

end Mailbox

namespace Node

theorem phase_owned : Owned path option parent anyTask (fun _ _ => True)
    (Mailbox.Phase (T := T)) Mailbox.Rest (fun _ => True) where
  start := ⟨.inl ⟨by simp [Mailbox.new], rfl, rfl, rfl, rfl⟩, trivial⟩
  env henv := by
    simp only [Mailbox.Rest, Mailbox.Phase, henv.dispatcher, henv.terminated]
    exact ⟨id, id, fun _ _ => id⟩
  acquire _ := ⟨id, id⟩
  move {m input t r} move _ _ _ h _ := by
    refine ⟨trivial, fun t' ht' => ⟨fun _ => Mailbox.move_phase move h t' ht', ?_⟩⟩
    rintro rfl
    cases move
    exact h

theorem reachable_phase {nd : Node T} (h : (machine path option parent).Reachable nd) :
    Held Mailbox.Phase Mailbox.Rest (fun _ => True) nd :=
  phase_owned.reachable (fun _ _ _ _ => trivial) h

theorem phase_of_mem {nd : Node T} (h : (machine path option parent).Reachable nd) {t : Task T}
    (ht : t ∈ nd.tasks) : nd.mbox.Phase t := by
  cases hact : t.active with
  | true => exact (reachable_phase h).loc t ht hact
  | false =>
    cases t with
    | rechecking _ => trivial
    | _ => cases hact

end Node

end Ruactor
