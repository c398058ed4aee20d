import Ruactor.Inversion
import Ruactor.Library.Simulation
import Ruactor.Scheduler

/-!
# A mailbox and the scheduler it shares

The actor of the mailbox calls `after_func` and drops its handles, other actors do the same,
and the thread of the scheduler runs the actions, which send to the mailbox. A callback is
one step of the node. What it asks of the scheduler follows step by step, between the steps
of the others, and the task waits for it; the event times are read when the callback runs.

The thread of the scheduler does not wait here for the send that it has begun: the model has
the runs of the source and more.
-/

namespace Ruactor

open Machine

variable {T : Type} {path : ActorPath} {option : PropsOption} {parent : ParentRef}

/-- A task that the node has pushed: the node knows it by its handle, the scheduler by its
flag. -/
structure Link (T : Type) where
  handle : Scheduled
  flag : Scheduled
  msg : Message T
  deriving DecidableEq, Repr

/-- `requests` are the pushes and drops that the node has still to make, oldest first. -/
structure Clockwork (T : Type) where
  node : Node T
  scheduler : Scheduler
  requests : List (Event T)
  links : List (Link T)

/-- The task that the thread is about to run. -/
def Scheduler.next (s : Scheduler) : Option SchedulerTask :=
  match s.thread with
  | .popped now task => if s.isActive task ∧ task.eventTime < now then some task else none
  | _ => none

namespace Clockwork

/-- `other` is a step of another owner of timers, or the `Close` of the system. -/
inductive Action (T : Type)
  | node (a : Ruactor.Action T)
  | request (i : Nat)
  | thread (pick : Nat)
  | other (a : Scheduler.Action)
  | tick (d : Duration)
  deriving DecidableEq, Repr

def new (path : ActorPath) (option : PropsOption) (parent : ParentRef) : Clockwork T :=
  ⟨.new path option parent, .new, [], []⟩

/-- Alarms come from the scheduler, time passes for all, and the task that runs waits for
what its callback asks. -/
def admits (w : Clockwork T) : Ruactor.Action T → Bool
  | .tick _ => false
  | .call c => ((c.start w.node.mbox.option).message.bind Message.handle).isNone
  | .task i _ => w.requests.isEmpty || ((w.node.tasks[i]?).map Task.active) != some true
  | _ => true

/-- `Instant::now() + d`, read in each call of `after_func`. -/
def reads (now : Instant) (events : List (Event T)) : List Scheduler.Action :=
  (alarms events).map fun alarm => .afterFunc (alarm.1 - now)

/-- The event times of the calls of the node that have not pushed yet. -/
def calls (w : Clockwork T) : List Instant := (alarms w.requests).map Prod.fst

def nodeStep (w : Clockwork T) (a : Ruactor.Action T) : Option (Clockwork T) :=
  (w.node.step a).bind fun nd =>
    let events := nd.mbox.log.drop w.node.mbox.log.length
    let now := w.node.mbox.rt.clock
    (Scheduler.machine.exec w.scheduler
      (reads now events ++ [.tick (nd.mbox.rt.clock - now)])).map fun s =>
        ⟨nd, s, w.requests ++ events.filter fun e => !e.balanced, w.links⟩

def requestStep (w : Clockwork T) (i : Nat) : Option (Clockwork T) :=
  match w.requests with
  | .afterFunc handle eventTime msg :: rest =>
    if w.scheduler.calls[i]? = some eventTime then
      (w.scheduler.step (.push i)).map fun s =>
        ⟨w.node, s, rest, w.links ++ [⟨handle, w.scheduler.handles, msg⟩]⟩
    else none
  | .dropped handle :: rest =>
    (w.links.find? fun link => link.handle = handle).bind fun link =>
      (w.scheduler.step (.drop link.flag)).map fun s => ⟨w.node, s, rest, w.links⟩
  | _ => none

/-- The action of a task of the node is `self_ref.send`. -/
def threadStep (w : Clockwork T) (pick : Nat) : Option (Clockwork T) :=
  (w.scheduler.step (.thread pick)).bind fun s =>
    match w.scheduler.next.bind fun task => w.links.find? fun link => link.flag = task.cancelled with
    | none => some { w with scheduler := s }
    | some link => (w.node.step (.call (.send link.msg))).map fun nd =>
        { w with scheduler := s, node := nd }

/-- Others own the handles that the node does not, and leave the node's calls to it. -/
def foreign (w : Clockwork T) : Scheduler.Action → Bool
  | .drop flag => !(w.links.any fun link => link.flag = flag)
  | .push i => (w.scheduler.calls[i]?).all fun t => w.calls.count t < w.scheduler.calls.count t
  | .afterFunc _ | .close => true
  | .tick _ | .thread _ => false

def step (w : Clockwork T) : Action T → Option (Clockwork T)
  | .node a => if w.admits a then w.nodeStep a else none
  | .request i => w.requestStep i
  | .thread pick => w.threadStep pick
  | .other a =>
    if w.foreign a then (w.scheduler.step a).map fun s => { w with scheduler := s } else none
  | .tick d =>
    (w.node.step (.tick d)).bind fun nd =>
      (w.scheduler.step (.tick d)).map fun s => { w with node := nd, scheduler := s }

def machine (path : ActorPath) (option : PropsOption) (parent : ParentRef) :
    Machine (Clockwork T) (Action T) := ⟨.new path option parent, step⟩

end Clockwork

namespace Scheduler

/-- Reading the clock and the passing of time touch no flag and no task. -/
def Action.passive : Action → Bool
  | .afterFunc _ | .tick _ => true
  | _ => false

theorem exec_passive {s s' : Scheduler} {as : List Action} (hpassive : ∀ a ∈ as, a.passive = true)
    (h : machine.exec s as = some s') :
    s'.handles = s.handles ∧ s'.cancelled = s.cancelled ∧ s'.log = s.log := by
  induction as generalizing s with
  | nil =>
    cases h
    exact ⟨rfl, rfl, rfl⟩
  | cons a as ih =>
    obtain ⟨t, hstep, hrest⟩ := Option.bind_eq_some_iff.mp h
    have ht := ih (fun a' ha' => hpassive a' (List.mem_cons_of_mem _ ha')) hrest
    have ha := hpassive a List.mem_cons_self
    cases step_move hstep <;> first | exact ht | cases ha

/-- A step of the thread runs the task that is next, or none. -/
theorem thread_runs {s s' : Scheduler} {pick : Nat} (h : s.step (.thread pick) = some s') :
    s'.handles = s.handles ∧ s'.cancelled = s.cancelled ∧
      runs s'.log = runs s.log ++ (s.next.map SchedulerTask.cancelled).toList ∧
      ∀ task ∈ s.next, task.cancelled ∈ s.cancelled := by
  cases step_move h with
  | run hthread hflag hdue =>
    simp [next, hthread, isActive, hflag, hdue, runs]
  | skip hthread hflag => simp [next, hthread, isActive, hflag]
  | putBack hthread hflag hdue => simp [next, hthread, isActive, hflag, hdue, runs]
  | drain hthread _ | exhausted hthread _ => simp [next, hthread, runs]
  | drainedAll hthread _ | closed hthread _ | keep hthread _ | discard hthread _
  | readNow hthread | pop hthread _ _ => simp [next, hthread]

theorem reachable_step {s s' : Scheduler} {a : Action} (h : machine.Reachable s)
    (hstep : s.step a = some s') : machine.Reachable s' :=
  .step (a := a) h trivial hstep

theorem reachable_bounded {s : Scheduler} (h : machine.Reachable s) :
    ∀ flag ∈ s.cancelled, flag < s.handles := by
  refine h.invariant (P := fun s => ∀ flag ∈ s.cancelled, flag < s.handles)
    (List.forall_mem_nil _) fun {s s' a} _ hs _ hstep flag hflag => ?_
  cases step_move hstep with
  | push _ => exact Nat.lt_succ_of_lt (hs flag hflag)
  | drop hbound _ =>
    rcases List.mem_append.mp hflag with hold | hnew
    · exact hs flag hold
    · exact List.mem_singleton.mp hnew ▸ hbound
  | _ => exact hs flag hflag

end Scheduler

namespace Clockwork

/-- What ties the node to the scheduler. Each handle that was given out has its task, or the
push is still to come. -/
structure Geared (path : ActorPath) (option : PropsOption) (parent : ParentRef)
    (w : Clockwork T) : Prop where
  node : (Node.machine path option parent).Reach Node.inverted w.node
  scheduler : Scheduler.machine.Reachable w.scheduler
  requests : ∀ e ∈ w.requests, e ∈ w.node.mbox.log
  issued : issued w.node.mbox.log = w.links.map Link.handle ++ issued w.requests
  armed : ∀ link ∈ w.links, ∃ t, .afterFunc link.handle t link.msg ∈ w.node.mbox.log
  flags : (w.links.map Link.flag).Nodup
  bound : ∀ link ∈ w.links, link.flag < w.scheduler.handles
  dropped : ∀ link ∈ w.links, link.flag ∈ w.scheduler.cancelled →
    .dropped link.handle ∈ w.node.mbox.log
  fired : ∀ handle ∈ w.node.fired, ∃ link ∈ w.links, link.handle = handle ∧
    link.flag ∈ Scheduler.runs w.scheduler.log

theorem geared_new : Geared path option parent (new path option parent : Clockwork T) where
  node := .start
  scheduler := .start
  requests := List.forall_mem_nil _
  issued := rfl
  armed := List.forall_mem_nil _
  flags := List.nodup_nil
  bound := List.forall_mem_nil _
  dropped := List.forall_mem_nil _
  fired := List.forall_mem_nil _

variable {w w' : Clockwork T}

theorem inverted_of_silent {nd : Node T} {a : Ruactor.Action T}
    (hmsg : ∀ msg ∈ a.message nd.mbox.option, msg.handle = none) : Node.inverted nd a := by
  intro msg hmem handle hhandle
  rw [hmsg msg hmem] at hhandle
  cases hhandle

/-- The node moves on, and no alarm goes off. -/
theorem Geared.node_step (h : Geared path option parent w) {a : Ruactor.Action T} {nd : Node T}
    (hmsg : ∀ msg ∈ a.message w.node.mbox.option, msg.handle = none)
    (hstep : w.node.step a = some nd) :
    ∃ events, nd.mbox.log = w.node.mbox.log ++ events ∧
      (Node.machine path option parent).Reach Node.inverted nd ∧
      ∀ handle ∈ nd.fired, handle ∈ w.node.fired := by
  have move := Node.step_move hstep
  obtain ⟨events, hlog⟩ := move.log
  refine ⟨events, hlog, .step h.node (inverted_of_silent hmsg) hstep, fun handle hfired => ?_⟩
  · obtain ⟨msg, hmem, hhandle⟩ := List.mem_filterMap.mp hfired
    rcases List.mem_append.mp ((move.offers h.node.reachable).mem_iff.mp hmem) with hold | hnew
    · exact List.mem_filterMap.mpr ⟨msg, hold, hhandle⟩
    · rw [hmsg msg (Option.mem_toList.mp hnew)] at hhandle
      cases hhandle

theorem admits_message {a : Ruactor.Action T} (h : w.admits a = true) :
    ∀ msg ∈ a.message w.node.mbox.option, msg.handle = none := by
  intro msg hmsg
  cases a with
  | call c =>
    simp only [Ruactor.Action.message, Option.mem_def] at hmsg
    simpa [admits, hmsg] using h
  | _ => cases hmsg

theorem issued_filter (events : List (Event T)) :
    issued (events.filter fun e => !e.balanced) = issued events := by
  rw [Ruactor.issued, List.filterMap_filter, Ruactor.issued]
  congr 1
  funext e
  cases e <;> rfl

theorem passive_reads (now : Instant) (events : List (Event T)) (d : Duration) :
    ∀ a ∈ reads now events ++ [.tick d], a.passive = true := by
  intro a ha
  rcases List.mem_append.mp ha with hread | htick
  · obtain ⟨alarm, -, rfl⟩ := List.mem_map.mp hread
    rfl
  · rw [List.mem_singleton.mp htick]
    rfl

theorem Geared.nodeStep (h : Geared path option parent w) {a : Ruactor.Action T}
    (hadmits : w.admits a = true) (hstep : w.nodeStep a = some w') :
    Geared path option parent w' := by
  obtain ⟨nd, hnode, hrest⟩ := Option.bind_eq_some_iff.mp hstep
  obtain ⟨s, hexec, rfl⟩ := Option.map_eq_some_iff.mp hrest
  obtain ⟨events, hlog, hreach, hfired⟩ := h.node_step (admits_message hadmits) hnode
  obtain ⟨hhandles, hcancelled, hslog⟩ := Scheduler.exec_passive (passive_reads _ _ _) hexec
  have hdrop : nd.mbox.log.drop w.node.mbox.log.length = events := by simp [hlog]
  have hold : ∀ e ∈ w.node.mbox.log, e ∈ nd.mbox.log := by simp +contextual [hlog]
  simp only [hdrop]
  exact
    { node := hreach
      scheduler := Reach.exec_reachable h.scheduler hexec
      requests := fun e he => by
        rcases List.mem_append.mp he with hmem | hmem
        · exact hold e (h.requests e hmem)
        · exact hlog ▸ List.mem_append_right _ (List.mem_filter.mp hmem).1
      issued := by
        rw [hlog, issued_append, issued_append, issued_filter, h.issued, List.append_assoc]
      armed := fun link hlink => (h.armed link hlink).imp fun t => hold _
      flags := h.flags
      bound := hhandles ▸ h.bound
      dropped := fun link hlink hflag => hold _ (h.dropped link hlink (hcancelled ▸ hflag))
      fired := fun handle hmem => hslog ▸ h.fired handle (hfired handle hmem) }

theorem Geared.requestStep (h : Geared path option parent w) {i : Nat}
    (hstep : w.requestStep i = some w') : Geared path option parent w' := by
  simp only [Clockwork.requestStep] at hstep
  split at hstep
  next handle eventTime msg rest hrequests =>
    split at hstep
    · obtain ⟨s, hpush, rfl⟩ := Option.map_eq_some_iff.mp hstep
      have hreach : Scheduler.machine.Reachable s := Scheduler.reachable_step h.scheduler hpush
      cases Scheduler.step_move hpush
      refine
        { node := h.node
          scheduler := hreach
          requests := fun e he => h.requests e (hrequests ▸ List.mem_cons_of_mem _ he)
          issued := ?_
          armed := ?_
          flags := ?_
          bound := ?_
          dropped := ?_
          fired := fun handle' hfired => ?_ }
      · rw [h.issued, hrequests, List.map_append, List.append_assoc]
        rfl
      · refine List.forall_mem_append.mpr ⟨h.armed, List.forall_mem_singleton.mpr ?_⟩
        exact ⟨eventTime, h.requests _ (by simp [hrequests])⟩
      · rw [List.map_append]
        refine List.nodup_append.mpr ⟨h.flags, List.nodup_singleton _, ?_⟩
        rintro flag hflag flag' hflag' rfl
        obtain ⟨link, hlink, rfl⟩ := List.mem_map.mp hflag
        exact absurd (h.bound link hlink) (Nat.not_lt.mpr (List.mem_singleton.mp hflag').ge)
      · refine List.forall_mem_append.mpr ⟨fun link hlink => ?_, List.forall_mem_singleton.mpr ?_⟩
        · exact Nat.lt_succ_of_lt (h.bound link hlink)
        · exact Nat.lt_succ_self _
      · refine List.forall_mem_append.mpr ⟨h.dropped, List.forall_mem_singleton.mpr fun hflag => ?_⟩
        -- the flag of a task that is pushed has never been set
        exact absurd (Scheduler.reachable_bounded h.scheduler _ hflag) (Nat.lt_irrefl _)
      · obtain ⟨link, hlink, hhandle, hran⟩ := h.fired handle' hfired
        refine ⟨link, List.mem_append_left _ hlink, hhandle, ?_⟩
        simpa [Scheduler.runs] using hran
    · cases hstep
  next handle rest hrequests =>
    obtain ⟨link, hfind, hrest⟩ := Option.bind_eq_some_iff.mp hstep
    obtain ⟨s, hdrop, rfl⟩ := Option.map_eq_some_iff.mp hrest
    have hreach : Scheduler.machine.Reachable s := Scheduler.reachable_step h.scheduler hdrop
    have hmem : link ∈ w.links := List.mem_of_find?_eq_some hfind
    have hhandle : link.handle = handle := by simpa using List.find?_some hfind
    cases Scheduler.step_move hdrop
    refine
      { node := h.node
        scheduler := hreach
        requests := fun e he => h.requests e (hrequests ▸ List.mem_cons_of_mem _ he)
        issued := ?_
        armed := h.armed
        flags := h.flags
        bound := h.bound
        dropped := fun link' hlink' hflag => ?_
        fired := fun handle' hfired => ?_ }
    · rw [h.issued, hrequests]
      rfl
    · rcases List.mem_append.mp hflag with hold | hnew
      · exact h.dropped link' hlink' hold
      · have hsame := List.inj_on_of_nodup_map h.flags hlink' hmem (List.mem_singleton.mp hnew)
        rw [hsame, hhandle]
        exact h.requests _ (by simp [hrequests])
    · obtain ⟨link', hlink', hhandle', hran⟩ := h.fired handle' hfired
      refine ⟨link', hlink', hhandle', ?_⟩
      simpa [Scheduler.runs] using hran
  · cases hstep

/-- The action that runs is that of an alarm whose handle was dropped, and it has not run
before. -/
theorem Geared.sends (h : Geared path option parent w) {pick : Nat} {s : Scheduler}
    {task : SchedulerTask} {link : Link T} (hstep : w.scheduler.step (.thread pick) = some s)
    (htask : w.scheduler.next = some task) (hlink : link ∈ w.links)
    (hflag : link.flag = task.cancelled) : Node.inverted w.node (.call (.send link.msg)) := by
  obtain ⟨hhandles, hcancelled, hruns, hset⟩ := Scheduler.thread_runs hstep
  obtain ⟨t, harmed⟩ := h.armed link hlink
  obtain ⟨_, -, hnumbered⟩ := Node.reachable_numbered h.node.reachable
  have hcarried := hnumbered.carried _ _ _ harmed
  rintro msg hmsg handle hhandle
  obtain rfl : link.msg = msg := Option.some.inj hmsg
  obtain rfl : link.handle = handle := Option.some.inj (hcarried.symm.trans hhandle)
  refine ⟨?_, fun hfired => ?_, h.dropped link hlink (hflag ▸ hset task htask)⟩
  · exact List.mem_map.mpr ⟨(t, link.msg), List.mem_filterMap.mpr ⟨_, harmed, rfl⟩, rfl⟩
  · obtain ⟨link', hlink', hhandle', hran⟩ := h.fired _ hfired
    have hnodup : (w.links.map Link.handle).Nodup := by
      have hissued := hnumbered.nodup
      rw [h.issued] at hissued
      exact (List.nodup_append.mp hissued).1
    obtain rfl : link' = link := List.inj_on_of_nodup_map hnodup hlink' hlink hhandle'
    have honce := (Scheduler.runs_once (Scheduler.reachable_step h.scheduler hstep)).1
    rw [hruns, htask] at honce
    exact (List.nodup_append.mp honce).2.2 _ hran _ (by simp [hflag]) rfl

theorem Geared.threadStep (h : Geared path option parent w) {pick : Nat}
    (hstep : w.threadStep pick = some w') : Geared path option parent w' := by
  obtain ⟨s, hthread, hrest⟩ := Option.bind_eq_some_iff.mp hstep
  obtain ⟨hhandles, hcancelled, hruns, -⟩ := Scheduler.thread_runs hthread
  have hreach : Scheduler.machine.Reachable s := Scheduler.reachable_step h.scheduler hthread
  have hmore : ∀ flag ∈ Scheduler.runs w.scheduler.log, flag ∈ Scheduler.runs s.log :=
    fun flag hflag => hruns ▸ List.mem_append_left _ hflag
  have still : Geared path option parent { w with scheduler := s } :=
    { h with
      scheduler := hreach
      bound := hhandles ▸ h.bound
      dropped := hcancelled ▸ h.dropped
      fired := fun handle hfired => by
        obtain ⟨link, hlink, hhandle, hran⟩ := h.fired handle hfired
        exact ⟨link, hlink, hhandle, hmore _ hran⟩ }
  split at hrest
  · cases hrest
    exact still
  next link hnext =>
    obtain ⟨nd, hnode, rfl⟩ := Option.map_eq_some_iff.mp hrest
    obtain ⟨task, htask, hfind⟩ := Option.bind_eq_some_iff.mp hnext
    have hlink : link ∈ w.links := List.mem_of_find?_eq_some hfind
    have hflag : link.flag = task.cancelled := by simpa using List.find?_some hfind
    have hsend := h.sends hthread htask hlink hflag
    have move := Node.step_move hnode
    have hoffers := move.offers h.node.reachable
    cases hnode
    refine { still with node := .step h.node hsend rfl, fired := fun handle hfired => ?_ }
    obtain ⟨msg, hmem, hhandle⟩ := List.mem_filterMap.mp hfired
    rcases List.mem_append.mp (hoffers.mem_iff.mp hmem) with hold | hnew
    · exact still.fired handle (List.mem_filterMap.mpr ⟨msg, hold, hhandle⟩)
    · obtain rfl : link.msg = msg := Option.some.inj (Option.mem_toList.mp hnew)
      refine ⟨link, hlink, ?_, ?_⟩
      · obtain ⟨t, harmed⟩ := h.armed link hlink
        obtain ⟨_, -, hnumbered⟩ := Node.reachable_numbered h.node.reachable
        exact Option.some.inj ((hnumbered.carried _ _ _ harmed).symm.trans hhandle)
      · rw [hruns, htask]
        simp [hflag]

/-- What others do at the scheduler runs nothing and sets no flag of the node. -/
theorem Geared.otherStep (h : Geared path option parent w) {a : Scheduler.Action} {s : Scheduler}
    (hforeign : w.foreign a = true) (hstep : w.scheduler.step a = some s) :
    Geared path option parent { w with scheduler := s } := by
  have hreach := Scheduler.reachable_step h.scheduler hstep
  cases Scheduler.step_move hstep with
  | afterFunc | close | tick => exact { h with scheduler := hreach }
  | push _ =>
    refine { h with
      scheduler := hreach
      bound := fun link hlink => Nat.lt_succ_of_lt (h.bound link hlink)
      fired := fun handle hfired => ?_ }
    obtain ⟨link, hlink, hhandle, hran⟩ := h.fired handle hfired
    exact ⟨link, hlink, hhandle, by simpa [Scheduler.runs] using hran⟩
  | @drop flag _ _ =>
    have hother : ∀ link ∈ w.links, link.flag ≠ flag := by simpa [foreign] using hforeign
    refine { h with
      scheduler := hreach
      dropped := fun link hlink hflag => ?_
      fired := fun handle hfired => ?_ }
    · rcases List.mem_append.mp hflag with hold | hnew
      · exact h.dropped link hlink hold
      · exact absurd (List.mem_singleton.mp hnew) (hother link hlink)
    · obtain ⟨link, hlink, hhandle, hran⟩ := h.fired handle hfired
      exact ⟨link, hlink, hhandle, by simpa [Scheduler.runs] using hran⟩
  | _ => cases hforeign

theorem reachable_geared (h : (machine path option parent).Reachable w) :
    Geared path option parent w := by
  refine h.invariant geared_new fun {w w' a} _ hw _ hstep => ?_
  cases a with
  | node a =>
    simp only [machine, step] at hstep
    split at hstep
    · exact hw.nodeStep ‹_› hstep
    · cases hstep
  | request i => exact hw.requestStep hstep
  | thread pick => exact hw.threadStep hstep
  | other a =>
    simp only [machine, step] at hstep
    split at hstep
    · obtain ⟨s, hs, rfl⟩ := Option.map_eq_some_iff.mp hstep
      exact hw.otherStep ‹_› hs
    · cases hstep
  | tick d =>
    cases hstep
    exact { hw with
      node := .step (a := .tick d) hw.node nofun rfl
      scheduler := Scheduler.reachable_step (a := .tick d) hw.scheduler rfl }

/-- What the node sees of a step is a step of its own, in which no alarm goes off before its
handle was dropped, or nothing. -/
theorem Geared.step_node (h : Geared path option parent w) {a : Action T}
    (hstep : w.step a = some w') :
    w'.node = w.node ∨ ∃ b, Node.inverted w.node b ∧ w.node.step b = some w'.node := by
  cases a with
  | node a =>
    simp only [step] at hstep
    split at hstep
    next hadmits =>
      obtain ⟨nd, hnode, hrest⟩ := Option.bind_eq_some_iff.mp hstep
      obtain ⟨s, -, rfl⟩ := Option.map_eq_some_iff.mp hrest
      exact .inr ⟨a, inverted_of_silent (admits_message hadmits), hnode⟩
    · cases hstep
  | request i =>
    simp only [step, Clockwork.requestStep] at hstep
    split at hstep
    · split at hstep
      · obtain ⟨s, -, rfl⟩ := Option.map_eq_some_iff.mp hstep
        exact .inl rfl
      · cases hstep
    · obtain ⟨link, -, hrest⟩ := Option.bind_eq_some_iff.mp hstep
      obtain ⟨s, -, rfl⟩ := Option.map_eq_some_iff.mp hrest
      exact .inl rfl
    · cases hstep
  | thread pick =>
    obtain ⟨s, hthread, hrest⟩ := Option.bind_eq_some_iff.mp hstep
    split at hrest
    · cases hrest
      exact .inl rfl
    next link hnext =>
      obtain ⟨nd, hnode, rfl⟩ := Option.map_eq_some_iff.mp hrest
      obtain ⟨task, htask, hfind⟩ := Option.bind_eq_some_iff.mp hnext
      have hflag : link.flag = task.cancelled := by simpa using List.find?_some hfind
      exact .inr ⟨_, h.sends hthread htask (List.mem_of_find?_eq_some hfind) hflag, hnode⟩
  | other a =>
    simp only [step] at hstep
    split at hstep
    · obtain ⟨s, -, rfl⟩ := Option.map_eq_some_iff.mp hstep
      exact .inl rfl
    · cases hstep
  | tick d =>
    cases hstep
    exact .inr ⟨.tick d, nofun, rfl⟩

theorem refines_node : Refines (machine (T := T) path option parent)
    (Node.machine path option parent) (fun _ _ => True) Node.inverted node :=
  .of_step rfl fun hr _ _ hstep => (reachable_geared hr).step_node hstep

/-- The actor sets a receive timeout and starts a timer twice. The scheduler throws the timeout
and the second start away and runs the first, whose message comes too late. -/
def restartRun : List (Action Nat) :=
  (Node.sending (.user 1) ++ Node.callbacks [⟨.create, [], false⟩,
    ⟨.onEnter, [.setReceiveTimeout 3, .startSingleTimer "a" 5 7, .startSingleTimer "a" 5 8],
      false⟩]).map .node ++
    List.replicate 4 (.request 0) ++ [.tick 9] ++ List.replicate 10 (.thread 0) ++
    (List.replicate 3 (Ruactor.Action.client 0) ++ Node.turns 3 ++
      Node.callbacks [⟨.onMessage, [], false⟩] ++ Node.turns 6).map .node

abbrev sample : Machine (Clockwork Nat) (Action Nat) := machine ⟨["user", "a"]⟩ {} .guard

def restartClock : Clockwork Nat := (sample.exec sample.start restartRun).get (by decide +kernel)

theorem restartClock_run : sample.exec sample.start restartRun = some restartClock :=
  (Option.some_get _).symm

/-- The scheduler as it is is one of the schedulers that run each action that they are given at
most once: what holds of a mailbox under all of these holds under it. -/
theorem scheduler_adversarial (h : (machine path option parent).Reachable w) :
    (Node.machine path option parent).Reach Node.adversarial w.node :=
  (refines_node.reach h).mono Node.inverted_adversarial

theorem scheduler_adversarial_restart :
    (Node.machine ⟨["user", "a"]⟩ {} .guard).Reach Node.adversarial restartClock.node :=
  scheduler_adversarial (Reach.exec_reachable .start restartClock_run)

/-- An alarm goes off only when its handle was dropped before, and is not held any more. -/
theorem fired_abandoned (h : (machine path option parent).Reachable w) :
    ∀ handle ∈ w.node.fired,
      .dropped handle ∈ w.node.mbox.log ∧ handle ∉ w.node.mbox.held := by
  have hreach := refines_node.reach h
  intro handle hfired
  have hdropped := Node.fired_dropped hreach handle hfired
  refine ⟨hdropped, fun hheld => ?_⟩
  have hnodup := Node.held_not_dropped hreach.reachable
  exact (List.nodup_append.mp hnodup).2.2 handle (mem_drops.mpr hdropped) handle hheld rfl

theorem fired_abandoned_restart :
    restartClock.node.fired = [1] ∧ .dropped 1 ∈ restartClock.node.mbox.log ∧
      1 ∉ restartClock.node.mbox.held :=
  have hfired : restartClock.node.fired = [1] := by decide +kernel
  ⟨hfired, fired_abandoned (Reach.exec_reachable .start restartClock_run) 1 (by simp [hfired])⟩

/-- `start_single_timer` never has an effect: while no generation has come twice, no message of
a timer reaches a handler. -/
theorem timers_never_ring (h : (machine path option parent).Reachable w)
    (hfew : w.node.mbox.log.countP Event.starts ≤ 2 ^ 32) : rung w.node.mbox.log = [] :=
  Node.rung_nil (refines_node.reach h) hfew

theorem timers_never_ring_restart :
    (accepted restartClock.node.mbox.log).length = 2 ∧ rung restartClock.node.mbox.log = [] :=
  ⟨by decide +kernel,
    timers_never_ring (Reach.exec_reachable .start restartClock_run) (by decide +kernel)⟩

/-- A receive timeout that is set once, and never again, never comes. -/
theorem timeout_never_comes (h : (machine path option parent).Reachable w)
    (hone : w.node.mbox.log.countP Event.rearms ≤ 1) :
    w.node.mbox.log.countP Event.systemic = 0 :=
  Node.systemic_zero (refines_node.reach h) hone

theorem timeout_never_comes_restart :
    restartClock.node.mbox.log.countP Event.rearms = 1 ∧
      restartClock.node.mbox.log.countP Event.systemic = 0 :=
  have hone : restartClock.node.mbox.log.countP Event.rearms = 1 := by decide +kernel
  ⟨hone, timeout_never_comes (Reach.exec_reachable .start restartClock_run) hone.le⟩

end Clockwork

end Ruactor
