import Ruactor.Alarms

/-!
# The handles of the timers

Each call of `after_func` gives out a handle, and the handle is dropped when its owner is. A
handle that was given out has been dropped, once, or the context holds it, once: no timer is
forgotten and none is cancelled twice, whatever panics.
-/

namespace Ruactor

open Machine

variable {T : Type} {path : ActorPath} {option : PropsOption} {parent : ParentRef}

/-- The handles that were dropped. -/
def drops (log : List (Event T)) : List Scheduled :=
  log.filterMap fun
    | .dropped handle => some handle
    | _ => none

@[simp] theorem drops_append (log log' : List (Event T)) :
    drops (log ++ log') = drops log ++ drops log' := List.filterMap_append

theorem drops_dropHandle (old : Option Scheduled) :
    drops (ActorContext.dropHandle old : List (Event T)) = old.toList := by
  cases old <;> rfl

theorem issued_dropHandle (old : Option Scheduled) :
    issued (ActorContext.dropHandle old : List (Event T)) = [] := by
  cases old <;> rfl

theorem drops_map_dropped (handles : List Scheduled) :
    drops (handles.map .dropped : List (Event T)) = handles := by
  induction handles with
  | nil => rfl
  | cons handle handles ih => simp [drops]

theorem issued_map_dropped (handles : List Scheduled) :
    issued (handles.map .dropped : List (Event T)) = [] :=
  issued_nil fun e he => by
    obtain ⟨handle, -, rfl⟩ := List.mem_map.mp he
    rfl

/-- The events that neither give out a handle nor drop one. -/
def Event.balanced : Event T → Bool
  | .afterFunc _ _ _ | .dropped _ => false
  | _ => true

theorem drops_nil {events : List (Event T)} (h : ∀ e ∈ events, e.balanced = true) :
    drops events = [] := by
  rw [drops, List.filterMap_eq_nil_iff]
  intro e he
  have hbalanced := h e he
  cases e <;> first | rfl | cases hbalanced

theorem issued_balanced {events : List (Event T)} (h : ∀ e ∈ events, e.balanced = true) :
    issued events = [] :=
  issued_nil fun e he => by
    have hbalanced := h e he
    cases e <;> first | rfl | cases hbalanced

/-- An entry is found under its key, or stays when the key is erased. -/
theorem lookup_kerase_perm {β : Type} (f : β → Scheduled) (name : String)
    (l : List (Sigma fun _ : String => β)) :
    (((l.dlookup name).map f).toList ++ (l.kerase name).map fun e => f e.2).Perm
      (l.map fun e => f e.2) := by
  induction l with
  | nil => rfl
  | cons e l ih =>
    obtain ⟨key, b⟩ := e
    by_cases h : name = key
    · subst h
      simp
    · rw [List.dlookup_cons_ne _ _ h, List.kerase_cons_ne h, List.map_cons, List.map_cons]
      exact List.perm_middle.trans (ih.cons _)

theorem perm_exchange {α : Type} (l middle l' : List α) :
    (l ++ (middle ++ l')).Perm (l' ++ (middle ++ l)) := by
  rw [← List.append_assoc l']
  exact List.perm_append_comm.trans (List.perm_append_comm.append_right l)

namespace ActorContext

theorem erase_handles (c : ActorContext T) (name : String) :
    (((c.timer.lookup name).map TimerMessage.scheduled).toList ++
      ({ c with timer := c.timer.erase name } : ActorContext T).handles).Perm c.handles := by
  have hperm := lookup_kerase_perm TimerMessage.scheduled name c.timer.entries
  simp only [handles, ← List.append_assoc]
  exact hperm.append_right _

theorem insert_handles (c : ActorContext T) (name : String) (info : TimerMessage) :
    (((c.timer.lookup name).map TimerMessage.scheduled).toList ++
      ({ c with timer := c.timer.insert name info } : ActorContext T).handles).Perm
        (info.scheduled :: c.handles) := by
  have hperm := c.erase_handles name
  simp only [handles, AList.entries_insert, List.map_cons, List.cons_append]
  exact List.perm_middle.trans (hperm.cons _)

end ActorContext

namespace Cell

/-- What was given out is what was dropped and what is held. -/
def Ledger (_ : Option ParentRef) (context : ActorContext T) (log : List (Event T)) : Prop :=
  (issued log).Perm (drops log ++ context.handles)

variable {p p' : Option ParentRef} {context context' : ActorContext T}
  {log events : List (Event T)}

theorem Ledger.same (h : Ledger p context log) (hevents : ∀ e ∈ events, e.balanced = true)
    (hhandles : context'.handles = context.handles) : Ledger p' context' (log ++ events) := by
  simpa [Ledger, drops_nil hevents, issued_balanced hevents, hhandles] using h

/-- Some handles change hands: what is new is given out, what is old is dropped. -/
theorem Ledger.change (h : Ledger p context log)
    (hperm : (drops events ++ context'.handles).Perm (issued events ++ context.handles)) :
    Ledger p' context' (log ++ events) := by
  have hleft : (drops log ++ (issued events ++ context.handles)).Perm
      (issued events ++ (drops log ++ context.handles)) := List.perm_append_comm_assoc _ _ _
  simp only [Ledger, issued_append, drops_append, List.append_assoc] at h ⊢
  calc List.Perm (issued log ++ issued events) (issued events ++ issued log) :=
        List.perm_append_comm
    List.Perm _ (issued events ++ (drops log ++ context.handles)) := h.append_left _
    List.Perm _ (drops log ++ (issued events ++ context.handles)) := hleft.symm
    List.Perm _ (drops log ++ (drops events ++ context'.handles)) := hperm.symm.append_left _

/-- The alarm is set: its handle is new, and the old one is dropped. -/
theorem Ledger.rearm (h : Ledger p context log) (rt : Runtime) (d : Duration) :
    Ledger p' (context.armReceiveTimeout rt d).context
      (log ++ (context.armReceiveTimeout rt d).log) := by
  refine h.change ?_
  have hdrops : drops (context.armReceiveTimeout rt d).log =
      context.scheduledReceiveTimeout.toList := drops_dropHandle _
  have hissued : issued (context.armReceiveTimeout rt d).log = [rt.handles] := by
    change rt.handles :: issued (ActorContext.dropHandle context.scheduledReceiveTimeout) = _
    rw [issued_dropHandle]
  rw [hdrops, hissued]
  exact perm_exchange context.scheduledReceiveTimeout.toList _ [rt.handles]

/-- The new timer has a handle of its own, and that of the old one is dropped. -/
theorem Ledger.insert (h : Ledger p context log) (rt : Runtime) (name : String) (gen : Nat)
    (d : Duration) (msg : T) : Ledger p' (context.insertTimer rt name gen d msg).context
      (log ++ (context.insertTimer rt name gen d msg).log) := by
  refine h.change ?_
  have hdrops : drops (context.insertTimer rt name gen d msg).log =
      ((context.timer.lookup name).map TimerMessage.scheduled).toList := drops_dropHandle _
  have hissued : issued (context.insertTimer rt name gen d msg).log = [rt.handles] := by
    change rt.handles :: issued (ActorContext.dropHandle _) = _
    rw [issued_dropHandle]
  rw [hdrops, hissued]
  exact context.insert_handles name ⟨gen, rt.handles⟩

theorem Ledger.op (h : Ledger p context log) (rt : Runtime) (op : ContextOp T) :
    Ledger p (op.apply rt context).context (log ++ (op.apply rt context).log) := by
  cases op with
  | transit | elapse d => exact h.same (List.forall_mem_nil _) rfl
  | stash msg | unstashAll | stopSelf => exact h.same (List.forall_mem_singleton.mpr rfl) rfl
  | createChild messageType prop | getOrCreateChild name messageType prop =>
    simp only [ContextOp.apply, ActorContext.createChild, ActorContext.getOrCreateChild]
    split
    · exact h.same (List.forall_mem_nil _) rfl
    · exact h.same (List.forall_mem_singleton.mpr rfl) rfl
    · exact h.same (List.forall_mem_singleton.mpr rfl) rfl
  | startSingleTimer name d msg =>
    simp only [ContextOp.apply, ActorContext.startSingleTimer]
    split
    · exact h.same (List.forall_mem_singleton.mpr rfl) rfl
    have hnext : Ledger p context.nextTimerGen.2 log := h
    exact hnext.insert rt name _ d msg
  | cancelTimer name =>
    refine h.change ?_
    have hdrops : drops (context.cancelTimer rt name).log =
        ((context.timer.lookup name).map TimerMessage.scheduled).toList := drops_dropHandle _
    have hissued : issued (context.cancelTimer rt name).log = [] := issued_dropHandle _
    simp only [ContextOp.apply, hdrops, hissued]
    exact context.erase_handles name
  | setReceiveTimeout d =>
    have hset : Ledger p { context with receiveTimeout := some d }
        (log ++ [.timeoutSet d rt.clock]) := h.same (List.forall_mem_singleton.mpr rfl) rfl
    simp only [ContextOp.apply, ActorContext.setReceiveTimeout,
      ActorContext.scheduleReceiveTimeout]
    split
    · exact hset
    · have hrearm : Ledger p _ _ := hset.rearm rt d
      simpa using hrearm
  | cancelReceiveTimeout =>
    refine h.change ?_
    have hdrops : drops (context.cancelReceiveTimeout rt).log =
        context.scheduledReceiveTimeout.toList := drops_dropHandle _
    have hissued : issued (context.cancelReceiveTimeout rt).log = [] := issued_dropHandle _
    simp only [ContextOp.apply, hdrops, hissued]
    simpa [ActorContext.cancelReceiveTimeout, ActorContext.handles] using List.perm_append_comm

theorem ledger_recorded : Recorded (T := T) (fun _ => True) Ledger where
  op op _ h := h.op _ op
  stopSelf h := h.same (List.forall_mem_singleton.mpr rfl) rfl
  timeout d h := h.rearm _ d
  event {p e context log} he h := by
    refine h.same (List.forall_mem_singleton.mpr ?_) rfl
    cases e <;> first | rfl | cases he
  actor h := h

end Cell

namespace Mailbox

def held (m : Mailbox T) : List Scheduled :=
  (m.dispatcher.context.map ActorContext.handles).getD []

def Ledger (m : Mailbox T) : Prop :=
  Cell.Ledger m.dispatcher.parent (m.dispatcher.context.getD .new) m.log

theorem held_eq (m : Mailbox T) : m.held = (m.dispatcher.context.getD .new).handles := by
  cases hcontext : m.dispatcher.context <;> simp [held, hcontext]
  rfl

variable {m m' : Mailbox T}

theorem finish_ledger {next : Task T} {o : Outcome (Cell T)} {r : TaskStep T}
    (h : m.finish next o = some r)
    (ho : o.Ensures (Cell.Records (fun _ => True) Cell.Ledger m.log)
      (Cell.Records (fun _ => True) Cell.Ledger m.log)) : r.mbox.Ledger := by
  obtain ⟨c, hc, hm, -⟩ | ⟨c, hc, hm, -⟩ := finish_ensures h ho
  · obtain ⟨context, hcontext, hj⟩ := hc.context
    rw [hm]
    simpa [Ledger, commit, hcontext] using hj
  · obtain ⟨context, hcontext, hj⟩ := hc.context
    rw [hm]
    have hunwound : Cell.Ledger c.disp.parent context (m.log ++ c.log ++ [.unwound]) :=
      hj.same (List.forall_mem_singleton.mpr rfl) rfl
    simpa [Ledger, commit, emit, hcontext] using hunwound

theorem Ledger.later (h : m.Ledger) {events : List (Event T)} (hlog : m'.log = m.log ++ events)
    (hevents : ∀ e ∈ events, e.balanced = true) (hheld : m'.held = m.held) : m'.Ledger := by
  rw [Ledger, hlog]
  exact h.same hevents (by rw [← held_eq, ← held_eq, hheld])

theorem Move.ledger {input : TaskInput T} {t : Task T} {r : TaskStep T} (move : m.Move input t r)
    (hphase : m.Phase t) (h : m.Ledger) : r.mbox.Ledger := by
  have changed : ∀ {context context' : ActorContext T}, m.dispatcher.context = some context →
      context'.handles = context.handles → (m.withContext context').Ledger :=
    fun hcontext hhandles => h.later (List.append_nil _).symm (List.forall_mem_nil _)
      (by simp [held, withContext, hcontext, hhandles])
  cases move with
  | start hparent hf =>
    exact finish_ledger hf (Cell.ledger_recorded.startActor
      (createContext_records (fun _ _ _ _ => trivial) h))
  | terminate hf =>
    obtain ⟨-, -, -, context, hcontext, -⟩ := hphase
    rw [Ledger, hcontext] at h
    exact finish_ledger hf (Cell.ledger_recorded.terminateActor
      (fun hj => hj.same (List.forall_mem_singleton.mpr rfl) rfl)
      (cell_records (fun _ _ _ _ => trivial) hcontext h))
  | process hf =>
    obtain ⟨-, -, hactor, context, hcontext, -⟩ := hphase
    rw [Ledger, hcontext] at h
    exact finish_ledger hf (Cell.ledger_recorded.process
      (fun _ _ _ hj => hj.same (List.forall_mem_singleton.mpr rfl) rfl) hactor _ _ _
      (cell_records (fun _ _ _ _ => trivial) hcontext h))
  | childLast hcontext _ _ | childGone hcontext _ | suspend hcontext _
  | popUnstashed _ hcontext _ => exact changed hcontext rfl
  | reply =>
    have hreplied : ∀ e ∈ m.dispatcher.watcher.map (Event.replied (T := T)),
        e.balanced = true := by
      intro e he
      obtain ⟨w, -, rfl⟩ := List.mem_map.mp he
      rfl
    refine Cell.Ledger.change h ?_
    rw [drops_append, issued_append, drops_nil hreplied, issued_balanced hreplied,
      drops_map_dropped, issued_map_dropped, ← held_eq m]
    exact .of_eq (List.append_nil _)
  | drainWatch _ | watchClosed _ | close | stop _ | childUnwind _ | closingUnwind _
  | userUnwind _ _ | notify _ => exact h.later rfl (by simp [Event.balanced]) rfl
  | _ => exact h.later (List.append_nil _).symm (List.forall_mem_nil _) rfl

theorem Env.ledger (henv : m.Env m') (h : m.Ledger) : m'.Ledger := by
  cases henv with
  | same | tick _ => exact h.later (List.append_nil _).symm (List.forall_mem_nil _) rfl
  | rejected _ | watchReturned _ _ | pushed _ _ | pushedInternal _ =>
    exact h.later rfl (List.forall_mem_singleton.mpr rfl) rfl

end Mailbox

namespace Node

theorem reachable_ledger {nd : Node T} (h : (machine path option parent).Reachable nd) :
    nd.mbox.Ledger := by
  refine h.invariant (P := fun nd : Node T => nd.mbox.Ledger) (by exact List.Perm.nil)
    fun {nd nd' a} hr hs _ hstep => ?_
  cases step_move hstep with
  | call => exact hs
  | access _ _ hacc => exact hacc.env.ledger hs
  | schedule _ _ | reschedule _ _ =>
    simp only [schedule]
    split <;> exact hs
  | deliver => exact (Mailbox.Env.pushedInternal _).ledger hs
  | tick => exact (Mailbox.Env.tick _).ledger hs
  | task hi _ hr' _ =>
    exact (Mailbox.taskStep_move hr').ledger (phase_of_mem hr (List.mem_of_getElem? hi)) hs

theorem held_not_dropped {nd : Node T} (h : (machine path option parent).Reachable nd) :
    (drops nd.mbox.log ++ nd.mbox.held).Nodup := by
  have hledger : (issued nd.mbox.log).Perm (drops nd.mbox.log ++ nd.mbox.held) :=
    nd.mbox.held_eq ▸ reachable_ledger h
  obtain ⟨_, -, hnumbered⟩ := reachable_numbered h
  exact hledger.nodup_iff.mp hnumbered.nodup

/-- Every handle that was given out was dropped, once, or the context holds it, once, and no
other handle is dropped or held: for every run, panics included. -/
theorem handles_accounted {nd : Node T} (h : (machine path option parent).Reachable nd) :
    (issued nd.mbox.log).Perm (drops nd.mbox.log ++ nd.mbox.held) ∧
      (drops nd.mbox.log ++ nd.mbox.held).Nodup :=
  ⟨nd.mbox.held_eq ▸ reachable_ledger h, held_not_dropped h⟩

/-- One timer is started twice, another one is cancelled, and the receive timeout is set. -/
def handlingRun : List (Action Nat) :=
  sending (.user 1) ++ callbacks [⟨.create, [], false⟩, ⟨.onEnter, [], false⟩] ++ turns 3 ++
    callbacks [⟨.onMessage, [.startSingleTimer "a" 5 7, .startSingleTimer "b" 5 8,
      .startSingleTimer "a" 9 7, .cancelTimer "b", .setReceiveTimeout 3], false⟩]

def handlingNode : Node Nat := (sample.exec sample.start handlingRun).get (by decide +kernel)

theorem handlingNode_run : sample.exec sample.start handlingRun = some handlingNode :=
  (Option.some_get _).symm

theorem handles_accounted_handling :
    issued handlingNode.mbox.log = [0, 1, 2, 3] ∧ handlingNode.mbox.held = [2, 3] ∧
      (issued handlingNode.mbox.log).Perm
        (drops handlingNode.mbox.log ++ handlingNode.mbox.held) ∧
      (drops handlingNode.mbox.log ++ handlingNode.mbox.held).Nodup :=
  ⟨by decide +kernel, by decide +kernel,
    handles_accounted (Reach.exec_reachable .start handlingNode_run)⟩

end Node

end Ruactor
