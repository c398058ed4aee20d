import Ruactor.Library.Simulation
import Ruactor.Family

/-!
# One sequential process behind each mailbox

A `Worker` is what the threads of a mailbox are meant to look like: one process that takes
from two queues, and callers that push. It has no flag `running`, no pool of tasks, no
compare-exchange and no batch limit. Between two messages it may rest for as long as it
likes.

Each step of a node is a step of its worker or none, so a node does nothing that the
worker cannot do.
-/

namespace Ruactor

open Machine

variable {T : Type} {path : ActorPath} {option : PropsOption} {parent : ParentRef}

/-- `waiting` is before a message or a first look at the queues, `gone` after a panic that
nobody caught. -/
inductive Place (T : Type)
  | waiting
  | draining
  | working (stage : Stage T)
  | gone
  deriving DecidableEq, Repr

/-- The worker's place while this task runs. -/
def Task.place : Task T → Place T
  | .draining => .draining
  | .looping _ stage => .working stage
  | .spawned | .storing | .rechecking _ => .waiting

def Place.after : Option (Task T) → Place T
  | none => .gone
  | some t => t.place

/-- A caller has nothing left to do once it has pushed. -/
def Client.settled : Client T → Option (Client T)
  | .scheduling watch => Node.afterSend watch
  | .schedulingSelf => none
  | client => some client

def PropsOption.unbatched (option : PropsOption) : PropsOption := { option with throughput := 0 }

/-- The mailbox without the flag that guards its tasks, and without the batch limit. -/
def Mailbox.asleep (m : Mailbox T) : Mailbox T :=
  { m with running := false, option := m.option.unbatched }

structure Worker (T : Type) where
  mbox : Mailbox T
  place : Place T
  clients : List (Client T)

namespace Worker

inductive Action (T : Type)
  | call (call : Call T)
  | client (i : Nat)
  | work (input : TaskInput T)
  | rest
  | deliver (msg : InternalMessage)
  | tick (d : Duration)
  deriving DecidableEq, Repr

def new (path : ActorPath) (option : PropsOption) (parent : ParentRef) : Worker T :=
  ⟨.new path option parent, .waiting, []⟩

def clientStep (m : Mailbox T) : Client T → Option (Mailbox T × Option (Client T))
  | .checking msg watch =>
    if m.terminated then some (m.emit [.rejected msg], Node.afterSend watch)
    else some (m, some (.pushing msg watch))
  | .pushing msg watch =>
    match m.pushUser msg with
    | .ok m => some (m, Node.afterSend watch)
    | .error m => some (m, Node.afterSend watch)
  | .pushingInternal msg watch => some (m.pushInternal msg, Node.afterSend watch)
  | .watching replyTo =>
    if m.terminated then some (m.emit [.watchReturned replyTo], none)
    else some (m, some (.pushingInternal (.watch replyTo) none))
  | .stoppingSelf => some (m.pushInternal .terminate, none)
  | .scheduling _ | .schedulingSelf => none

def after (w : Worker T) (r : TaskStep T) : Worker T :=
  ⟨r.mbox, Place.after r.next, w.clients ++ r.clients⟩

/-- One step of `actor_loop`, which starts again from `waiting`. -/
def work (w : Worker T) (input : TaskInput T) : Option (Worker T) :=
  match w.place with
  | .waiting => (w.mbox.taskStep input .spawned).map w.after
  | .draining => (w.mbox.taskStep input .draining).map w.after
  | .working .processed => some { w with place := .working .nextMessage }
  | .working stage => (w.mbox.stageStep input 0 stage).map w.after
  | .gone => none

def step (w : Worker T) : Action T → Option (Worker T)
  | .call call => some { w with clients := w.clients ++ [call.start w.mbox.option] }
  | .client i =>
    (w.clients[i]?).bind fun client =>
      (clientStep w.mbox client).map fun (m, next) =>
        ⟨m, w.place, Pool.advance w.clients i next⟩
  | .work input => if w.clients.any Client.own then none else w.work input
  | .rest =>
    match w.place with
    | .working .processed => some { w with place := .waiting }
    | _ => none
  | .deliver msg => some { w with mbox := w.mbox.pushInternal msg }
  | .tick d => some { w with mbox := { w.mbox with
      rt := { w.mbox.rt with clock := w.mbox.rt.clock + d } } }

def machine (path : ActorPath) (option : PropsOption) (parent : ParentRef) :
    Machine (Worker T) (Action T) := ⟨.new path option parent, step⟩

theorem work_stage {w : Worker T} {input : TaskInput T} {stage : Stage T}
    (h : stage ≠ .processed) (hp : w.place = .working stage) :
    w.work input = (w.mbox.stageStep input 0 stage).map w.after := by
  rw [work, hp]
  cases stage with
  | processed => exact absurd rfl h
  | _ => rfl

end Worker

namespace Mailbox

variable {m : Mailbox T} {input : TaskInput T}

/-- What a step shows of itself: not the count, and not the flag. -/
def seen (r : TaskStep T) : Mailbox T × Place T × List (Client T) :=
  (r.mbox.asleep, Place.after r.next, r.clients)

theorem finish_seen (m : Mailbox T) (next next' : Task T) (h : next'.place = next.place)
    (o : Outcome (Cell T)) :
    (m.asleep.finish next' o).map seen = (m.finish next o).map seen := by
  cases o with
  | stuck => rfl
  | returned c =>
    simp only [finish]
    split
    · simp [seen, Place.after, h, commit, asleep, PropsOption.unbatched]
    · rfl
  | panicked c =>
    simp only [finish]
    split <;> rfl

/-- Neither the count of the batch nor the flag has a part in a step before the end of a
message. -/
theorem stageStep_seen (n : Nat) {stage : Stage T} (h : stage ≠ .processed) :
    (m.asleep.stageStep input 0 stage).map seen = (m.stageStep input n stage).map seen := by
  have hflag : m.asleep.terminated = m.terminated := rfl
  cases stage with
  | processed => exact absurd rfl h
  | terminating => exact finish_seen m (.looping n .notifying) (.looping 0 .notifying) rfl _
  | processing src msg => exact finish_seen m (.looping n .processed) (.looping 0 .processed) rfl _
  | replying => rfl
  | nextMessage | notifying =>
    simp only [stageStep, asleep]
    split <;> rfl
  | internalMessage msg =>
    cases msg with
    | created | terminate => rfl
    | watch w =>
      simp only [stageStep, onInternalMessage, hflag]
      by_cases ht : m.terminated = true
      · simp only [if_pos ht]
        rfl
      · simp only [if_neg ht]
        rfl
    | childTerminate path k =>
      simp only [stageStep, onInternalMessage, asleep]
      split
      · rfl
      · split <;> rfl
  | popInternal | closing =>
    simp only [stageStep, asleep]
    split
    · rfl
    · split <;> rfl
  | stopping rest =>
    simp only [stageStep, asleep]
    split
    · rfl
    · split <;> rfl
  | popUser =>
    simp only [stageStep, hflag]
    by_cases ht : m.terminated = true
    · simp only [if_pos ht]
      rfl
    · simp only [if_neg ht, asleep]
      split
      · rfl
      · split
        · rfl
        · split <;> rfl

theorem Move.sameOption {t : Task T} {r : TaskStep T} (move : m.Move input t r) :
    r.mbox.option = m.option := by
  cases move with
  | start _ hf | terminate hf | process hf =>
    obtain ⟨c, -, -, hm, -⟩ | ⟨c, -, -, hm, -⟩ := finish_cases hf <;> rw [hm] <;> rfl
  | _ => rfl

/-- A step of a mailbox that is asleep leaves it asleep. -/
theorem Move.asleep {t : Task T} {r : TaskStep T} (move : m.asleep.Move input t r)
    (ht : t ≠ .storing) : r.mbox.asleep = r.mbox := by
  have hrunning : r.mbox.running = false := move.running ht
  have hoption : r.mbox.option = m.option.unbatched := move.sameOption
  obtain ⟨mbox, next, clients⟩ := r
  cases mbox
  simp only at hrunning hoption
  subst hrunning hoption
  rfl

/-- The first step of a batch, and the steps of a batch that finds no parent. -/
theorem taskStep_seen {t : Task T} (h : t = .spawned ∨ t = .draining) :
    (m.asleep.taskStep input t).map seen = (m.taskStep input t).map seen := by
  rcases h with rfl | rfl
  · simp only [taskStep, asleep]
    split
    · rfl
    · exact finish_seen m (.looping 0 .nextMessage) (.looping 0 .nextMessage) rfl _
  · simp only [taskStep, asleep]
    split
    · rfl
    · split <;> rfl

/-- A step that is seen alike leaves the worker alike. -/
theorem after_of_seen {w : Worker T} {o : Option (TaskStep T)} {t : Task T} {r : TaskStep T}
    (ho : ∀ r', o = some r' → m.asleep.Move input t r') (ht : t ≠ .storing)
    (h : o.map seen = some (seen r)) :
    o.map w.after = some ⟨r.mbox.asleep, Place.after r.next, w.clients ++ r.clients⟩ := by
  obtain ⟨r', rfl, hseen⟩ := Option.map_eq_some_iff.mp h
  simp only [seen, Prod.mk.injEq, (ho r' rfl).asleep ht] at hseen
  obtain ⟨hmbox, hplace, hclients⟩ := hseen
  simp [Worker.after, hmbox, hplace, hclients]

end Mailbox

theorem push_eq_ok {q queue : MessageQueue T} {msg : Message T} (hsize : queue.size = q.size)
    (hitems : queue.items = q.items ++ [msg]) : q.push msg = .ok queue := by
  have hroom : ∀ n ∈ q.size, q.items.length < n := by
    intro n hn
    have hwithin := queue.within n (hsize ▸ hn)
    simp only [hitems, List.length_append, List.length_singleton] at hwithin
    omega
  obtain ⟨size, items, within⟩ := queue
  obtain rfl : size = q.size := hsize
  obtain rfl : items = q.items ++ [msg] := hitems
  exact dif_pos hroom

theorem push_eq_error {q : MessageQueue T} {msg : Message T}
    (h : ¬ ∀ n ∈ q.size, q.items.length < n) : q.push msg = .error msg :=
  dif_neg h

namespace Node

def place (nd : Node T) : Place T :=
  match nd.tasks.find? Task.active with
  | some t => t.place
  | none => if nd.mbox.running then .gone else .waiting

/-- The process that the tasks of the node are together. -/
def worker (nd : Node T) : Worker T :=
  ⟨nd.mbox.asleep, nd.place, nd.clients.filterMap Client.settled⟩

theorem place_idle {nd : Node T} (h : ∀ t ∈ nd.tasks, t.active = false) :
    nd.place = if nd.mbox.running then .gone else .waiting := by
  have hnone : nd.tasks.find? Task.active = none := by
    simpa [List.find?_eq_none] using h
  simp [place, hnone]

theorem place_busy {nd : Node T} {before after : List (Task T)} {t : Task T}
    (hs : nd.tasks = before ++ t :: after) (ht : t.active = true)
    (hbefore : ∀ t' ∈ before, t'.active = false) : nd.place = t.place := by
  have hnone : before.find? Task.active = none := by
    simpa [List.find?_eq_none] using hbefore
  have hfind : nd.tasks.find? Task.active = some t := by
    simp [hs, List.find?_append, hnone, ht]
  simp [place, hfind]

theorem idle_of_resting {nd : Node T} (he : Exclusive nd) (hr : nd.mbox.running = false) :
    ∀ t ∈ nd.tasks, t.active = false := by
  simpa [Exclusive, hr, List.countP_eq_zero] using he

/-- A task that is spawned takes the worker's place before a message. -/
theorem schedule_worker {nd : Node T} (he : Exclusive nd) : nd.schedule.worker = nd.worker := by
  simp only [schedule]
  split
  · rfl
  next hr =>
    have hr : nd.mbox.running = false := by simpa using hr
    have hidle := idle_of_resting he hr
    have hplace : nd.place = .waiting := by simp [place_idle hidle, hr]
    rw [worker, worker, hplace, place_busy (t := .spawned) rfl rfl hidle]
    rfl

theorem filterMap_settled_cons (client : Client T) (clients : List (Client T)) :
    (client :: clients).filterMap Client.settled =
      client.settled.toList ++ clients.filterMap Client.settled := by
  cases h : client.settled <;> simp [h]

theorem toList_settled (next : Option (Client T)) :
    next.toList.filterMap Client.settled = (next.bind Client.settled).toList := by
  cases next with
  | none => rfl
  | some client => simp [filterMap_settled_cons]

theorem afterSend_settled (watch : Option ReplyTo) :
    ((afterSend watch).bind Client.settled : Option (Client T)) = afterSend watch := by
  cases watch <;> rfl

theorem settled_of_access {m m' : Mailbox T} {client : Client T} {next : Option (Client T)}
    (h : m.Access client next m') : client.settled = some client := by
  cases h <;> rfl

/-- A caller's access is the same for the worker. -/
theorem clientStep_worker {m m' : Mailbox T} {client : Client T} {next : Option (Client T)}
    (h : m.Access client next m') :
    Worker.clientStep m.asleep client = some (m'.asleep, next.bind Client.settled) := by
  have hflag : m.asleep.terminated = m.terminated := rfl
  cases h with
  | accept ht | watch ht => simp [Worker.clientStep, hflag, ht, Client.settled]
  | refuse ht =>
    simp only [Worker.clientStep, hflag, if_pos ht, afterSend_settled]
    rfl
  | unwatched ht =>
    simp only [Worker.clientStep, hflag, if_pos ht]
    rfl
  | @push msg watch queue hsize hitems =>
    have hpush : m.asleep.messageQueue.push msg = .ok queue := push_eq_ok hsize hitems
    simp only [Worker.clientStep, Mailbox.pushUser, hpush]
    rfl
  | @full msg watch hfull =>
    have hpush : m.asleep.messageQueue.push msg = .error msg := push_eq_error hfull
    simp only [Worker.clientStep, Mailbox.pushUser, hpush, afterSend_settled]
    rfl
  | pushInternal | stopSelf => rfl

/-- A task between its spawning and its end is one step of the worker from the next. -/
theorem taskStep_worker {nd : Node T} {t : Task T} {input : TaskInput T} {r : TaskStep T}
    (ht : t.active = true) (hstore : t ≠ .storing) (hplace : nd.place = t.place)
    (hstep : nd.mbox.taskStep input t = some r)
    (hown : ∀ c ∈ nd.clients, c.own = false) :
    ∃ b, nd.worker.step b = some ⟨r.mbox.asleep, Place.after r.next,
      nd.worker.clients ++ r.clients⟩ := by
  have hfree : nd.worker.clients.any Client.own = false := by
    simp only [worker, List.any_eq_false, List.mem_filterMap]
    rintro c ⟨c', hc', hsettled⟩
    cases c' with
    | scheduling watch =>
      cases watch <;> cases hsettled
      exact Bool.false_ne_true
    | schedulingSelf => cases hsettled
    | stoppingSelf => exact absurd (hown _ hc') (by simp [Client.own])
    | _ =>
      cases hsettled
      exact Bool.false_ne_true
  have hwork : nd.worker.step (.work input) = nd.worker.work input := by
    simp [Worker.step, hfree]
  have hclients : nd.worker.clients = nd.clients.filterMap Client.settled := rfl
  cases t with
  | storing => exact absurd rfl hstore
  | rechecking _ => cases ht
  | spawned =>
    have hseen : (nd.mbox.asleep.taskStep input .spawned).map Mailbox.seen = _ :=
      Mailbox.taskStep_seen (.inl rfl)
    have hwait : nd.worker.place = .waiting := hplace
    refine ⟨.work input, ?_⟩
    rw [hwork, Worker.work, hwait]
    exact Mailbox.after_of_seen (fun r' => Mailbox.taskStep_move) nofun
      (hseen.trans (congrArg _ hstep))
  | draining =>
    have hseen : (nd.mbox.asleep.taskStep input .draining).map Mailbox.seen = _ :=
      Mailbox.taskStep_seen (.inr rfl)
    have hdrain : nd.worker.place = .draining := hplace
    refine ⟨.work input, ?_⟩
    rw [hwork, Worker.work, hdrain]
    exact Mailbox.after_of_seen (fun r' => Mailbox.taskStep_move) nofun
      (hseen.trans (congrArg _ hstep))
  | looping n stage =>
    have hworking : nd.worker.place = .working stage := hplace
    by_cases hprocessed : stage = .processed
    · -- the worker rests where a batch is cut off
      subst hprocessed
      cases Mailbox.taskStep_move hstep with
      | cutOff _ =>
        refine ⟨.rest, ?_⟩
        simp only [Worker.step, hworking, List.append_nil]
        rfl
      | goOn _ =>
        refine ⟨.work input, ?_⟩
        rw [hwork, Worker.work, hworking]
        simp only [List.append_nil]
        rfl
    · refine ⟨.work input, ?_⟩
      rw [hwork, Worker.work_stage hprocessed hworking]
      exact Mailbox.after_of_seen (t := .looping 0 stage) (fun r' => Mailbox.stageStep_move) nofun
        ((Mailbox.stageStep_seen n hprocessed).trans (congrArg _ hstep))

theorem worker_of_idle {nd nd' : Node T} {before after : List (Task T)} {t : Task T}
    (next : Option (Task T)) (hs : nd.tasks = before ++ t :: after) (ht : t.active = false)
    (hnext : ∀ t' ∈ next, t'.active = false) (hmbox : nd'.mbox = nd.mbox)
    (htasks : nd'.tasks = before ++ (next.toList ++ after)) (hclients : nd'.clients = nd.clients) :
    nd'.worker = nd.worker := by
  have hfind : nd'.tasks.find? Task.active = nd.tasks.find? Task.active := by
    have hnone : next.toList.find? Task.active = none := by
      simpa [List.find?_eq_none] using hnext
    simp [hs, htasks, List.find?_append, ht, hnone]
  simp only [worker, place, hmbox, hfind, hclients]

theorem store_worker {nd : Node T} {before after : List (Task T)}
    (h : ∀ t ∈ before ++ after, t.active = false) (hplace : nd.place = .waiting) :
    worker ⟨{ nd.mbox with running := false }, before ++ .rechecking .readUser :: after,
      nd.clients⟩ = nd.worker := by
  have hidle : ∀ t ∈ before ++ .rechecking .readUser :: after, t.active = false := by
    intro t ht
    rcases List.mem_append.mp ht with hmem | hmem
    · exact h t (List.mem_append_left _ hmem)
    · rcases List.mem_cons.mp hmem with rfl | hmem
      · rfl
      · exact h t (List.mem_append_right _ hmem)
  have hwaiting : place (⟨{ nd.mbox with running := false },
      before ++ .rechecking .readUser :: after, nd.clients⟩ : Node T) = .waiting :=
    place_idle hidle
  rw [worker, worker, hplace, hwaiting]
  rfl

/-- What a task leaves behind is where the worker stands. -/
theorem place_after {nd : Node T} {before after : List (Task T)} {t : Task T}
    {input : TaskInput T} {r : TaskStep T} (he : Exclusive nd)
    (hs : nd.tasks = before ++ t :: after) (ht : t.active = true) (hstore : t ≠ .storing)
    (move : nd.mbox.Move input t r) (clients : List (Client T)) :
    place ⟨r.mbox, before ++ (r.next.toList ++ after), clients⟩ = Place.after r.next := by
  obtain ⟨hrunning, hothers⟩ := he.alone hs ht
  cases hnext : r.next with
  | some t' =>
    exact place_busy rfl (move.active_next ht hstore t' hnext)
      fun t' ht' => hothers t' (List.mem_append_left _ ht')
  | none =>
    rw [place_idle hothers, move.running hstore, hrunning]
    rfl

/-- Each step of the node is a step of its worker, or none. -/
theorem step_worker {nd nd' : Node T} {a : Action T} (he : Exclusive nd) (hm : Move nd a nd') :
    nd'.worker = nd.worker ∨ ∃ b, nd.worker.step b = some nd'.worker := by
  cases hm with
  | @call c =>
    right
    refine ⟨.call c, ?_⟩
    have hstart : (c.start nd.mbox.option).settled = some (c.start nd.mbox.option) := by
      cases c with
      | waitStop w =>
        simp only [Call.start]
        split <;> rfl
      | _ => rfl
    simp only [Worker.step, worker, List.filterMap_append, filterMap_settled_cons, hstart]
    rfl
  | @access i before client after next mbox _ hs hacc =>
    right
    refine ⟨.client (before.filterMap Client.settled).length, ?_⟩
    have hclients : nd.worker.clients =
        before.filterMap Client.settled ++ client :: after.filterMap Client.settled := by
      simp [worker, hs, settled_of_access hacc]
    have hplace : (⟨mbox, nd.tasks, before ++ (next.toList ++ after)⟩ : Node T).place =
        nd.place := by
      simp only [place, hacc.env.running]
    have hmbox : nd.worker.mbox = nd.mbox.asleep := rfl
    simp only [Worker.step, hclients, hmbox, List.getElem?_append_right (Nat.le_refl _),
      Nat.sub_self, List.getElem?_cons_zero, Option.bind_some, clientStep_worker hacc,
      Option.map_some, Pool.advance_at, ← toList_settled]
    simp [worker, hplace]
  | @schedule i before client after hs hpending =>
    left
    have hsettled : (before ++ (client.scheduled.toList ++ after)).filterMap Client.settled =
        nd.clients.filterMap Client.settled := by
      rw [hs, List.filterMap_append, List.filterMap_append, List.filterMap_append,
        filterMap_settled_cons, toList_settled]
      cases client with
      | scheduling watch => cases watch <;> rfl
      | schedulingSelf => rfl
      | _ => cases hpending
    have hsched := schedule_worker he
    simp only [worker, Worker.mk.injEq] at hsched ⊢
    exact ⟨hsched.1, hsched.2.1, hsettled⟩
  | @reschedule i input before after _ hs =>
    left
    have he' : Exclusive { nd with tasks := before ++ after } := by
      simpa [Exclusive, hs, Task.active] using he
    rw [schedule_worker he']
    exact worker_of_idle none hs rfl (fun _ hnone => by cases hnone) rfl rfl rfl
  | @task i input before t after r hi hs hstep hown =>
    have move := Mailbox.taskStep_move hstep
    cases ht : t.active with
    | false =>
      left
      obtain ⟨hmbox, hclients, hnext⟩ := move.inactive ht
      exact worker_of_idle r.next hs ht hnext hmbox rfl (by simp [hclients])
    | true =>
      obtain ⟨hrunning, hothers⟩ := he.alone hs ht
      have hplace : nd.place = t.place :=
        place_busy hs ht fun t' ht' => hothers t' (List.mem_append_left _ ht')
      by_cases hstore : t = .storing
      · -- the flag is given back, and the worker is still before its next message
        subst hstore
        cases move
        left
        simpa using store_worker hothers hplace
      · obtain ⟨b, hb⟩ := taskStep_worker ht hstore hplace hstep (hown ht)
        right
        refine ⟨b, hb.trans ?_⟩
        have hclients : r.clients.filterMap Client.settled = r.clients :=
          (List.filterMap_congr fun c hc => by rw [move.clients c hc]; rfl).trans
            List.filterMap_some
        simp only [worker, List.filterMap_append, hclients]
        rw [← place_after he hs ht hstore move]
  | @deliver msg =>
    right
    refine ⟨.deliver msg, ?_⟩
    have hnone : ([.scheduling none] : List (Client T)).filterMap Client.settled = [] := rfl
    simp only [worker, deliver, List.filterMap_append, hnone, List.append_nil]
    rfl
  | tick =>
    right
    exact ⟨.tick _, rfl⟩

theorem refines_worker : Refines (machine (T := T) path option parent)
    (Worker.machine path option.unbatched parent) (fun _ _ => True) (fun _ _ => True) worker :=
  .of_step rfl fun hr _ _ hstep =>
    (step_worker (reach_exclusive hr) (step_move hstep)).imp_right
      fun ⟨b, hb⟩ => ⟨b, trivial, hb⟩

/-- A run of the threads is a run of the one process, and all that the threads show of it
is the same: its log, its queues, its dispatcher, and whether it is closed. -/
theorem acts_as_worker {nd : Node T} (h : (machine path option parent).Reachable nd) :
    (Worker.machine path option.unbatched parent).Reachable nd.worker ∧
      nd.worker.mbox.log = nd.mbox.log ∧
      nd.worker.mbox.internalQueue = nd.mbox.internalQueue ∧
      nd.worker.mbox.messageQueue = nd.mbox.messageQueue ∧
      nd.worker.mbox.dispatcher = nd.mbox.dispatcher ∧
      nd.worker.mbox.terminated = nd.mbox.terminated :=
  ⟨refines_worker.reach h, rfl, rfl, rfl, rfl, rfl⟩

theorem acts_as_worker_stashing :
    (Worker.machine ⟨["user", "a"]⟩ (PropsOption.unbatched {}) .guard).Reachable
        stashingNode.worker ∧
      stashingNode.worker.mbox.log = stashingNode.mbox.log :=
  have hworker := acts_as_worker (Reach.exec_reachable .start stashingNode_run)
  ⟨hworker.1, hworker.2.1⟩

end Node

end Ruactor
