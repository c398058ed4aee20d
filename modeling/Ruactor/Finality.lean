import Ruactor.Farewell
import Ruactor.Library.History
import Ruactor.Lifecycle

/-!
# Termination is final

Nothing is handed to an actor whose mailbox is closed. After the parent has been
notified nothing of the actor runs again: the parent is the last of the variables that
guard the dispatcher to be cleared, and no callback is called without it.
-/

namespace Ruactor

open Machine History

variable {T : Type} {path : ActorPath} {option : PropsOption} {parent : ParentRef}

def Event.handles (e : Event T) : Bool := e.receiver.isSome

/-- A callback is called, or an actor object comes into use. -/
def Event.invokes : Event T → Bool
  | .created _ | .installed _ | .entered _ | .exited _ => true
  | e => e.handles

def Event.closes : Event T → Bool
  | .closed => true
  | _ => false

theorem Event.handles_called {e : Event T} (h : e.handles = true) : e.called = true := by
  cases e <;> first | rfl | cases h

theorem Event.called_notifies {e : Event T} (h : e.called = true) : e.notifies = false := by
  cases e <;> first | rfl | cases h

theorem Event.called_leaves {e : Event T} (h : e.called = true) : e.leaves = false := by
  cases e <;> first | rfl | cases h

theorem Event.bookkeeping_handles {e : Event T} (h : e.bookkeeping = true) :
    e.handles = false := by
  cases e <;> first | rfl | cases h

theorem ContextOp.apply_handles {rt : Runtime} {context : ActorContext T} {op : ContextOp T} :
    ∀ e ∈ (op.apply rt context).log, e.handles = false := by
  intro e he
  obtain ⟨msg, -, rfl⟩ | ⟨-, rfl⟩ | hbook := apply_log he
  · rfl
  · rfl
  · exact Event.bookkeeping_handles hbook

namespace Cell

/-- No message was handed to an actor in this step. -/
def Unhandled (_ : Setting) (_ : ActorContext T) (events : List (Event T)) : Prop :=
  ∀ e ∈ events, e.handles = false

theorem Unhandled.append {s s' : Setting} {context context' : ActorContext T}
    {events more : List (Event T)} (h : Unhandled s context events)
    (hmore : ∀ e ∈ more, e.handles = false) : Unhandled s' context' (events ++ more) := by
  intro e he
  exact (List.mem_append.mp he).elim (h e) (hmore e)

theorem unhandled_following : Following (T := T) (fun _ => True) Unhandled where
  op _ _ h := h.append ContextOp.apply_handles
  event {s e context events} he h := h.append fun e' he' => by
    obtain rfl := List.mem_singleton.mp he'
    cases e' <;> first | rfl | cases he
  created h := h.append (by simp [Event.handles, Event.receiver])
  actor h := h

end Cell

namespace Mailbox

variable {m m' : Mailbox T}

theorem finish_unhandled {next : Task T} {o : Outcome (Cell T)} {r : TaskStep T}
    {events : List (Event T)} (h : m.finish next o = some r)
    (ho : o.Ensures (Cell.Follows (fun _ => True) Cell.Unhandled [])
      (Cell.Follows (fun _ => True) Cell.Unhandled []))
    (hlog : r.mbox.log = m.log ++ events) : ∀ e ∈ events, e.handles = false := by
  obtain ⟨c, ⟨-, context, -, hc⟩, rfl⟩ | ⟨c, ⟨-, context, -, hc⟩, rfl⟩ := finish_events h ho hlog
  · exact hc
  · have hunwound : Cell.Unhandled c.setting context ([] ++ c.log ++ [.unwound]) :=
      hc.append (by simp [Event.handles, Event.receiver])
    exact hunwound

/-- Only `process_message` hands a message to an actor. -/
theorem Move.unhandled {input : TaskInput T} {t : Task T} {r : TaskStep T}
    {events : List (Event T)} (move : m.Move input t r) (hphase : m.Phase t)
    (hbusy : ∀ n src msg, t ≠ .looping n (.processing src msg))
    (hlog : r.mbox.log = m.log ++ events) : ∀ e ∈ events, e.handles = false := by
  have rule := Cell.unhandled_following (T := T)
  have quiet : t.calls = false → ∀ e ∈ events, e.handles = false := by
    intro hcalls e he
    obtain ⟨events', hlog', hlogs⟩ := move.logs hphase
    obtain rfl := List.append_cancel_left (hlog.symm.trans hlog')
    cases hlogs e he with
    | called hcalls' _ _ _ => exact absurd (hcalls.symm.trans hcalls') (by simp)
    | _ => rfl
  cases move with
  | start _ hf =>
    exact finish_unhandled hf (rule.startActor
      (createContext_follows (fun _ _ _ _ => trivial) (List.forall_mem_nil _))) hlog
  | terminate hf =>
    obtain ⟨-, -, -, context, hcontext, -⟩ := hphase
    exact finish_unhandled hf (rule.terminateActor (c := m.cell input)
      (fun h => h.append (by simp [Event.handles, Event.receiver]))
      ⟨fun _ _ _ _ => trivial, context, hcontext, List.forall_mem_nil _⟩) hlog
  | process _ => exact absurd rfl (hbusy _ _ _)
  | dead _ =>
    obtain rfl : events = [] := List.self_eq_append_right.mp hlog
    exact List.forall_mem_nil _
  | _ => exact quiet rfl

/-- The step of a task that hands a message to the actor finds the mailbox open, and does
not close it. -/
theorem Move.handles_open {input : TaskInput T} {t : Task T} {r : TaskStep T}
    {events : List (Event T)} {e : Event T} (move : m.Move input t r) (hphase : m.Phase t)
    (hlog : r.mbox.log = m.log ++ events) (he : e ∈ events) (hhandles : e.handles = true) :
    m.terminated = false ∧ ∀ e' ∈ events, e'.closes = false := by
  obtain ⟨events', hlog', hlogs⟩ := move.logs hphase
  obtain rfl := List.append_cancel_left (hlog.symm.trans hlog')
  have hl : t.leaves = false := by
    cases hl : t.leaves with
    | false => rfl
    | true =>
      -- `terminate` itself calls `on_exit` and what transitions ask for
      obtain ⟨n, rfl⟩ := Task.leaves_iff.mp hl
      exact absurd (move.unhandled hphase nofun hlog e he) (by simp [hhandles])
  have hcalled := Event.handles_called hhandles
  cases hlogs e he with
  | called hcalls _ _ hopen =>
    refine ⟨hopen hl, fun e' he' => ?_⟩
    cases hlogs e' he' with
    | called _ hcalled' _ _ => cases e' <;> first | rfl | cases hcalled'
    | closed => cases hcalls
    | _ => rfl
  | dropped | _ => cases hhandles

structure Final (m : Mailbox T) : Prop where
  once : m.log.countP Event.notifies + m.dispatcher.parent.toList.length ≤ 1
  closed : .closed ∈ m.log ↔ m.terminated = true
  left : Lawful (fun before e => e.leaves = true → .closed ∈ before) m.log
  handled : Lawful (Never Event.closes Event.handles) m.log
  invoked : Lawful (Never Event.notifies Event.invokes) m.log

theorem countP_notifies {events : List (Event T)} (h : ∀ e ∈ events, e.notifies = false) :
    events.countP Event.notifies = 0 := by
  rw [List.countP_eq_zero]
  intro e he
  simp [h e he]

theorem Final.open (h : m.Final) (hopen : m.terminated = false) :
    ∀ e ∈ m.log, e.closes = false := by
  intro e he
  cases e with
  | closed => exact absurd (hopen.symm.trans (h.closed.mp he)) (by simp)
  | _ => rfl

theorem Final.orphan (h : m.Final) {e : Event T} (he : e ∈ m.log) (hnotifies : e.notifies = true) :
    m.dispatcher.parent = none := by
  have hpos : 0 < m.log.countP Event.notifies := List.countP_pos_iff.mpr ⟨e, he, hnotifies⟩
  have honce := h.once
  cases hparent : m.dispatcher.parent with
  | none => rfl
  | some p =>
    simp only [hparent, Option.toList_some, List.length_singleton] at honce
    omega

theorem Move.closes {input : TaskInput T} {t : Task T} {r : TaskStep T} (move : m.Move input t r)
    (h : r.mbox.terminated = true) : m.terminated = true ∨ .closed ∈ r.mbox.log := by
  cases move with
  | close => exact .inr (List.mem_append_right _ (List.mem_singleton_self _))
  | start _ hf | terminate hf | process hf =>
    obtain ⟨c, -, -, hm, -⟩ | ⟨c, -, -, hm, -⟩ := finish_cases hf <;> rw [hm] at h <;> exact .inl h
  | _ => exact .inl h

theorem Move.final {input : TaskInput T} {t : Task T} {r : TaskStep T}
    (move : m.Move input t r) (hphase : m.Phase t) (h : m.Final) : r.mbox.Final := by
  obtain ⟨events, hkin⟩ := move.kin hphase []
  have hlog := hkin.log
  have hlogs : ∀ e ∈ events, m.Logs t e := by
    obtain ⟨events', hlog', hlogs⟩ := move.logs hphase
    obtain rfl := List.append_cancel_left (hlog.symm.trans hlog')
    exact hlogs
  refine ⟨?_, ⟨fun hclosed => ?_, fun hterminated => ?_⟩, ?_, ?_, ?_⟩
  · have honce := h.once
    rw [hlog, List.countP_append]
    rcases hkin.parent with ⟨hsame, hquiet⟩ | ⟨p, hp, hgone, rfl⟩
    · rw [countP_notifies hquiet, hsame]
      omega
    · simp only [hp, hgone, Option.toList_some, Option.toList_none, List.length_singleton,
        List.length_nil, List.countP_singleton, Event.notifies, if_true] at honce ⊢
      omega
  · rw [hlog] at hclosed
    rcases List.mem_append.mp hclosed with hclosed | hclosed
    · exact move.flag.elim (fun hsame => hsame.trans (h.closed.mp hclosed)) id
    · cases hlogs _ hclosed with
      | called _ hcalled _ _ => cases hcalled
      | closed =>
        cases move
        rfl
  · rcases move.closes hterminated with hold | hnew
    · rw [hlog]
      exact List.mem_append_left _ (h.closed.mpr hold)
    · exact hnew
  · rw [hlog]
    refine h.left.append fun before e after heq hleaves => List.mem_append_left _ ?_
    cases hlogs e (by simp [heq]) with
    | called _ hcalled _ _ =>
      exact absurd (hleaves.symm.trans (Event.called_leaves hcalled)) (by simp)
    | terminating => exact h.closed.mpr hphase.1
    | _ => cases hleaves
  · rw [hlog]
    refine h.handled.append fun before e after heq hhandles e' he' => ?_
    obtain ⟨hopen, hevents⟩ := move.handles_open hphase hlog (by simp [heq]) hhandles
    rcases List.mem_append.mp he' with he' | he'
    · exact h.open hopen e' he'
    · exact hevents e' (by simp [heq, he'])
  · rw [hlog]
    refine h.invoked.append fun before e after heq hinvokes e' he' => ?_
    cases hlogs e (by simp [heq]) with
    | called hcalls _ hparent _ =>
      cases hnotifies : e'.notifies with
      | false => rfl
      | true =>
        rcases List.mem_append.mp he' with he' | he'
        · exact absurd (h.orphan he' hnotifies) hparent
        · cases hlogs e' (by simp [heq, he']) with
          | called _ hcalled _ _ =>
            exact absurd (hnotifies.symm.trans (Event.called_notifies hcalled)) (by simp)
          | notified _ => cases hcalls
          | _ => cases hnotifies
    | _ => cases hinvokes

theorem Env.final (henv : m.Env m') (h : m.Final) : m'.Final := by
  obtain ⟨events, hlog, houter⟩ := henv.outer
  have hquiet : ∀ e ∈ events, e.notifies = false ∧ e.handles = false ∧ e.invokes = false ∧
      e.leaves = false := by
    intro e he
    have ho := houter e he
    cases e <;> first | exact ⟨rfl, rfl, rfl, rfl⟩ | cases ho
  refine ⟨?_, ⟨fun hclosed => ?_, fun hterminated => ?_⟩, ?_, ?_, ?_⟩
  · rw [hlog, List.countP_append, countP_notifies fun e he => (hquiet e he).1, henv.dispatcher]
    exact h.once
  · rw [hlog] at hclosed
    rcases List.mem_append.mp hclosed with hclosed | hclosed
    · exact henv.terminated.trans (h.closed.mp hclosed)
    · cases houter _ hclosed
  · rw [hlog]
    exact List.mem_append_left _ (h.closed.mpr (henv.terminated.symm.trans hterminated))
  · rw [hlog]
    exact h.left.append_of_mem fun e he _ hleaves => absurd hleaves (by simp [(hquiet e he).2.2.2])
  · rw [hlog]
    exact h.handled.append_of_mem fun e he _ hhandles =>
      absurd hhandles (by simp [(hquiet e he).2.1])
  · rw [hlog]
    exact h.invoked.append_of_mem fun e he _ hinvokes =>
      absurd hinvokes (by simp [(hquiet e he).2.2.1])

end Mailbox

namespace Node

theorem final_owned : Owned path option parent anyTask (Mailbox.Phase (T := T))
    (fun _ _ => True) (fun _ => True) Mailbox.Final where
  start := ⟨trivial, Nat.le_refl 1, by simp [Mailbox.new], lawful_nil, lawful_nil, lawful_nil⟩
  env henv := ⟨henv.final, id, fun _ _ => id⟩
  acquire _ := ⟨fun h => ⟨h.once, h.closed, h.left, h.handled, h.invoked⟩, fun _ => trivial⟩
  move move _ _ hphase _ h :=
    ⟨move.final hphase h, fun _ _ => ⟨fun _ => trivial, fun _ => trivial⟩⟩

theorem reachable_final {nd : Node T} (h : (machine path option parent).Reachable nd) :
    nd.mbox.Final :=
  (final_owned.reachable (fun h => (reachable_phase h).loc) h).inv

/-- Nothing is handed to an actor that has begun `terminate`. -/
theorem unhandled_after {nd : Node T} (h : (machine path option parent).Reachable nd)
    {before after : List (Event T)} (hlog : nd.mbox.log = before ++ .terminating :: after) :
    ∀ e ∈ after, e.handles = false := by
  have hfinal := reachable_final h
  obtain ⟨earlier, later, rfl⟩ :=
    List.append_of_mem (hfinal.left before .terminating after hlog rfl)
  have hclosed : nd.mbox.log = earlier ++ .closed :: (later ++ .terminating :: after) := by
    simpa using hlog
  have hnone := hfinal.handled.never hclosed rfl
  exact fun e he => hnone e (by simp [he])

/-- In every run: nothing is handed to the actor after `close`; `terminate` is begun once;
the parent is notified once, after the last `on_exit` of that `terminate`; and after that
no callback is called and no actor comes into being. -/
theorem termination_final {nd : Node T} (h : (machine path option parent).Reachable nd) :
    (∀ before after, nd.mbox.log = before ++ .closed :: after →
      ∀ e ∈ after, e.handles = false) ∧
    nd.mbox.log.countP Event.leaves ≤ 1 ∧ nd.mbox.log.countP Event.notifies ≤ 1 ∧
    ∀ before p key after, nd.mbox.log = before ++ .notified p key :: after →
      Left before ∧ ∀ e ∈ after, e.invokes = false := by
  have hfinal := reachable_final h
  have hleaving := (reachable_leaving h).inv
  have honce := hfinal.once
  refine ⟨fun before after hlog => hfinal.handled.never hlog rfl, hleaving.count, by omega, ?_⟩
  intro before p key after hlog
  refine ⟨?_, hfinal.invoked.never hlog rfl⟩
  have horphan := hfinal.orphan (e := .notified p key) (by simp [hlog]) rfl
  obtain ⟨before', p', after', hlog', hleft, -⟩ := hleaving.farewell horphan
  have hbefore : before' = before := before_unique (p := Event.notifies) (hlog'.symm.trans hlog)
    rfl rfl (hlog' ▸ by omega)
  exact hbefore ▸ hleft

def watching (w : ReplyTo) : List (Action Nat) :=
  [.call (.watch w), .client 0, .client 0, .client 0]

/-- The watcher 7 comes before the actor is stopped. The watcher 8 reads the flag before
that and pushes its message when the actor has ended. -/
def endedRun : List (Action Nat) :=
  sending (.user 1) ++ watching 7 ++ stopping ++ [.call (.watch 8), .client 0] ++
    callbacks [⟨.create, [], false⟩, ⟨.onEnter, [], false⟩] ++ turns 6 ++
    callbacks [⟨.onExit, [], false⟩] ++ turns 8 ++ [.client 0, .client 0] ++ turns 7

def endedNode : Node Nat := (sample.exec sample.start endedRun).get (by decide +kernel)

theorem endedNode_run : sample.exec sample.start endedRun = some endedNode :=
  (Option.some_get _).symm

theorem termination_final_ended :
    (∀ before after, endedNode.mbox.log = before ++ .closed :: after →
      ∀ e ∈ after, e.handles = false) ∧
    endedNode.mbox.log.countP Event.leaves ≤ 1 ∧ endedNode.mbox.log.countP Event.notifies ≤ 1 ∧
    ∀ before p key after, endedNode.mbox.log = before ++ .notified p key :: after →
      Left before ∧ ∀ e ∈ after, e.invokes = false :=
  termination_final (Reach.exec_reachable .start endedNode_run)

end Node

end Ruactor
