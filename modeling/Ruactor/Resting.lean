import Ruactor.Library.Descent
import Ruactor.Library.Weight
import Ruactor.Phases
import Ruactor.Summons

/-!
# A mailbox comes to rest

While no call is made and nothing comes from other mailboxes, the tasks and callers of a
mailbox make finitely many steps, whatever they do and in whatever order: the callbacks may
do everything but call `unstash_all`, and may panic. The measures, in this order: a task that
has unwound leaves a mailbox where no task will ever run; then the life of the actor, the
messages that wait for a handler, the steps of the callers, the internal messages, and the
points of the tasks. A `receive` task can lead to another one, so the rank of a point depends
on what the task can find in the queues.
-/

namespace Ruactor

open Machine Weight Descent

variable {T : Type} {path : ActorPath} {option : PropsOption} {parent : ParentRef}

def ContextOp.unstashes : ContextOp T → Bool
  | .unstashAll => true
  | _ => false

/-- A step of a task or a caller whose callbacks do not call `unstash_all`. -/
def Action.inward : Action T → Bool
  | .client _ => true
  | .task _ input => input.calls.all fun cb => cb.ops.all fun op => !op.unstashes
  | .call _ | .deliver _ | .tick _ => false

/-- Time passes. -/
def Action.idle : Action T → Prop
  | .tick _ => True
  | _ => False

/-- The steps that are before a caller, at most. -/
def Client.remaining : Client T → Nat
  | .checking _ _ => 6
  | .pushing _ _ => 5
  | .pushingInternal _ watch => if watch.isSome then 5 else 2
  | .scheduling watch => if watch.isSome then 4 else 1
  | .watching _ => 3
  | .stoppingSelf => 2
  | .schedulingSelf => 1

/-- The message that a caller may still push for a handler. -/
def Client.offers : Client T → Nat
  | .checking _ _ | .pushing _ _ => 1
  | _ => 0

namespace Task

def holds : Task T → Nat
  | .looping _ (.processing _ _) => 1
  | _ => 0

def notifies : Task T → Bool
  | .looping _ .notifying => true
  | _ => false

/-- The children that are still to be stopped. -/
def children : Task T → Nat
  | .looping _ (.stopping rest) => rest.length
  | _ => 0

/-- Where the task stands. `storing` and the rechecks are high where they can lead to a new
task, and `popUser` where it can lead to these. -/
def rank (m : Mailbox T) : Task T → Nat
  | .looping _ (.internalMessage _) => 40
  | .looping _ .closing => 39
  | .looping _ (.stopping _) => 38
  | .looping _ .terminating => 37
  | .looping _ .notifying => 36
  | .looping _ .replying => 35
  | .looping _ .popInternal => if m.dispatcher.parent.isNone then 31 else 9
  | .looping _ .processed => 30
  | .looping _ .popUser =>
    if m.dispatcher.parent.isNone ∨ m.internalQueue ≠ [] then 29 else 8
  | .storing =>
    if m.messageQueue.items ≠ [] ∧ m.terminated = false ∨ m.internalQueue ≠ [] then 16 else 6
  | .rechecking .readUser =>
    if m.messageQueue.items ≠ [] ∧ m.terminated = false ∨ m.internalQueue ≠ [] then 15 else 5
  | .rechecking .readTerminated =>
    if m.terminated = false ∨ m.internalQueue ≠ [] then 14 else 4
  | .rechecking .readInternal => if m.internalQueue ≠ [] then 13 else 3
  | .rechecking .scheduling => 12
  | .spawned => 11
  | .draining | .looping _ .nextMessage => 10
  | .looping _ (.processing _ _) => 7

end Task

def Dispatcher.unstashed (d : Dispatcher T) : Nat :=
  (d.context.map fun context => context.unstashed.length).getD 0

namespace Cell

variable {c : Cell T} {n : Nat}

theorem op_unstashed {rt : Runtime} {context : ActorContext T} {op : ContextOp T}
    (h : op.unstashes = false) : (op.apply rt context).context.unstashed = context.unstashed := by
  cases op with
  | unstashAll => cases h
  | stash _ => rfl
  | _ => exact (ContextOp.apply_quiet rt context (by simp) (by simp)).2.2

/-- Nothing has been put back, and nothing will be. -/
def Kept (n : Nat) (c : Cell T) : Prop :=
  Within (fun op => op.unstashes = false) c.calls ∧ c.disp.unstashed = n

theorem kept_stays (n : Nat) : Stays (Kept (T := T) n) where
  call {c site events} _ h := by
    refine call_ensures (fun _ => h) fun context cb calls hcontext hcalls _ => ?_
    obtain ⟨hwithin, hunstashed⟩ := h
    rw [hcalls] at hwithin
    have hops := runOps_keeps (I := fun _ after _ => after.unstashed = context.unstashed) cb.ops
      c.rt (fun op hop _ _ _ hsame =>
        (op_unstashed (hwithin cb List.mem_cons_self op hop)).trans hsame) [] rfl
    have hran : Kept n (c.ran context calls events cb.ops) := by
      refine ⟨fun cb' hcb' => hwithin cb' (List.mem_cons_of_mem _ hcb'), ?_⟩
      rw [← hunstashed]
      simp [Dispatcher.unstashed, hcontext, ran, Cell.apply, hops]
    exact ⟨fun _ => hran, fun _ => hran⟩
  create {c c' cb} h hcalls _ hcontext := by
    refine ⟨fun cb' hcb' => h.1 cb' (hcalls ▸ List.mem_cons_of_mem _ hcb'), ?_⟩
    rw [Dispatcher.unstashed, hcontext]
    exact h.2
  same h hcontext hcalls := by
    refine ⟨hcalls ▸ h.1, ?_⟩
    rw [Dispatcher.unstashed, hcontext]
    exact h.2
  other h hcontext hcontext' hcalls := by
    refine ⟨hcalls ▸ h.1, ?_⟩
    rw [← h.2]
    simp [Dispatcher.unstashed, hcontext, hcontext']

end Cell

namespace Mailbox

variable {m m' : Mailbox T} {input : TaskInput T} {t : Task T} {r : TaskStep T}

/-- The life that an actor has before it, with these tasks. -/
def life (m : Mailbox T) (tasks : List (Task T)) : Nat :=
  if m.dispatcher.parent.isNone then 0
  else if tasks.any Task.notifies then 1
  else if m.dispatcher.actor.isSome then 2
  else 3

/-- The messages that wait for a handler. -/
def backlog (m : Mailbox T) : Nat := m.messageQueue.items.length + m.dispatcher.unstashed

/-- A mailbox where a task can find no more. -/
structure Calmer (m m' : Mailbox T) : Prop where
  parent : m'.dispatcher.parent = m.dispatcher.parent
  internal : m.internalQueue = [] → m'.internalQueue = []
  user : m.messageQueue.items = [] → m'.messageQueue.items = []
  closed : m.terminated = true → m'.terminated = true

theorem Calmer.rank_le (h : m.Calmer m') (t : Task T) : t.rank m' ≤ t.rank m := by
  obtain ⟨hparent, hinternal, huser, hclosed⟩ := h
  have hopen : m'.terminated = false → m.terminated = false := by
    intro hopen
    by_contra hne
    rw [hclosed (by simpa using hne)] at hopen
    cases hopen
  unfold Task.rank
  rw [hparent]
  split <;> grind

/-- What a step of the task gains: one measure gets smaller, and none in front of it greater. -/
inductive Gain (m : Mailbox T) (t : Task T) (r : TaskStep T) : Prop
  | unwound : r.mbox.running = m.running → r.next = none → Gain m t r
  | aged : r.mbox.life r.next.toList < m.life [t] → Gain m t r
  | handled : r.mbox.life r.next.toList ≤ m.life [t] →
      r.mbox.backlog + weigh Task.holds r.next.toList < m.backlog + t.holds → Gain m t r
  | popped : r.mbox.life r.next.toList ≤ m.life [t] →
      r.mbox.backlog + weigh Task.holds r.next.toList ≤ m.backlog + t.holds →
      r.clients = [] → r.mbox.internalQueue.length < m.internalQueue.length → Gain m t r
  | moved : r.mbox.life r.next.toList ≤ m.life [t] →
      r.mbox.backlog + weigh Task.holds r.next.toList ≤ m.backlog + t.holds →
      r.clients = [] → r.mbox.internalQueue = m.internalQueue → m.Calmer r.mbox →
      weigh (Task.rank r.mbox) r.next.toList < t.rank m → Gain m t r
  | stopped : r.mbox.life r.next.toList ≤ m.life [t] →
      r.mbox.backlog + weigh Task.holds r.next.toList ≤ m.backlog + t.holds →
      r.clients = [] → r.mbox.internalQueue = m.internalQueue → m.Calmer r.mbox →
      weigh (Task.rank r.mbox) r.next.toList ≤ t.rank m →
      weigh Task.children r.next.toList < t.children → Gain m t r

/-- A step that runs callbacks leaves the queue alone, and what was put back. -/
theorem finish_backlog {next : Task T} {o : Outcome (Cell T)}
    (ho : o.Ensures (Cell.Kept m.dispatcher.unstashed) (Cell.Kept m.dispatcher.unstashed))
    (hf : m.finish next o = some r) : r.mbox.backlog = m.backlog := by
  obtain ⟨c, hc, hm, -⟩ | ⟨c, hc, hm, -⟩ := finish_ensures hf ho <;>
    rw [hm] <;> exact congrArg (_ + ·) hc.2

theorem life_le {tasks tasks' : List (Task T)}
    (hparent : m'.dispatcher.parent = m.dispatcher.parent)
    (hactor : m'.dispatcher.actor = m.dispatcher.actor)
    (hnotifies : tasks'.any Task.notifies = tasks.any Task.notifies) :
    m'.life tasks' ≤ m.life tasks := by
  rw [life, life, hparent, hactor, hnotifies]

theorem finish_unwound {next : Task T} {o : Outcome (Cell T)} (hf : m.finish next o = some r)
    (hnone : r.next = none) : m.Gain t r := .unwound (finish_running hf) hnone

theorem Active.life_eq {P : ActorContext T → Prop} (h : m.dispatcher.Active P)
    {tasks : List (Task T)} (hidle : tasks.any Task.notifies = false) : m.life tasks = 2 := by
  have hactor : m.dispatcher.actor.isSome := Option.isSome_iff_ne_none.mpr h.actor
  simp [life, h.parent, hidle, hactor]

theorem start_gain {n : Nat} (hphase : m.Rest) (hparent : m.dispatcher.parent ≠ none)
    (hf : m.finish (.looping n .nextMessage) (m.cell input).startActor = some r) :
    m.Gain .spawned r := by
  obtain ⟨c, hreturned, hm, hn⟩ | ⟨c, -, -, hn⟩ :=
    finish_ensures hf (start_live hparent hphase)
  · rcases hphase with hfresh | hlive | hgone
    · refine .aged ?_
      have hafter : r.mbox.dispatcher.Live m.terminated := by
        rw [hm]
        exact hreturned
      rw [Active.life_eq hafter (by rw [hn]; rfl)]
      simp [life, hfresh.parent, hfresh.actor, Task.notifies]
    · obtain ⟨context, hcontext, -⟩ := hlive.context
      obtain ⟨actor, hactor⟩ := Option.ne_none_iff_exists'.mp hlive.actor
      rw [Cell.startActor_live (c := m.cell input) hcontext hactor] at hf
      obtain ⟨c, ho, -, hm, -, hclients⟩ | ⟨c, ho, -⟩ := finish_cases hf
      · cases ho
        refine .moved ?_ ?_ hclients ?_ ?_ ?_
        · rw [hm, hn]
          exact life_le rfl rfl rfl
        · rw [hm, hn]
          exact Nat.le_refl _
        · rw [hm]
          rfl
        · rw [hm]
          exact ⟨rfl, id, id, id⟩
        · rw [hn]
          simp [Task.rank]
      · cases ho
    · exact absurd hgone.parent hparent
  · exact finish_unwound hf hn

theorem Move.gain (move : m.Move input t r) (hphase : m.Phase t) (ht : t.active = true)
    (hinput : Cell.Within (fun op => op.unstashes = false) input.calls) : m.Gain t r := by
  have hkept : Cell.Kept m.dispatcher.unstashed (m.cell input) := ⟨hinput, rfl⟩
  cases move with
  | someUser _ | noUser _ | accepting _ | closed _ | someInternal _ | done _ => cases ht
  | @start parent r hparent hf =>
    exact start_gain hphase (by simp [hparent]) hf
  | @terminate n r hf =>
    obtain ⟨-, hactive⟩ := hphase
    obtain ⟨context, hcontext, -⟩ := hactive.context
    obtain ⟨c, hc, hm, hn⟩ | ⟨c, -, -, hn⟩ :=
      finish_ensures hf (Cell.terminateActor_framed (c := m.cell input) hcontext)
    · refine .aged ?_
      rw [Active.life_eq hactive rfl, hn, life, hm]
      have hparent : c.disp.parent = m.dispatcher.parent := hc.parent
      simp [commit, hparent, hactive.parent, Task.notifies]
    · exact finish_unwound hf hn
  | @process n src msg r hf =>
    obtain ⟨hopen, hlive⟩ := hphase
    have hbacklog := finish_backlog ((Cell.kept_stays _).processMessage hkept _ src msg) hf
    obtain ⟨c, hc, hm, hn⟩ | ⟨c, -, -, hn⟩ := finish_ensures hf (process_live hlive _ src msg)
    · refine .handled ?_ ?_
      · have hafter : r.mbox.dispatcher.Live false := by
          rw [hm]
          exact hc
        rw [Active.life_eq hlive rfl, Active.life_eq hafter (by rw [hn]; rfl)]
      · rw [hbacklog, hn]
        simp [Task.holds]
    · exact finish_unwound hf hn
  | @notify n parent hparent =>
    refine .aged ?_
    simp [life, hparent, Task.notifies]
  | drainWatch hitems | drain hitems _ | popInternal _ hitems =>
    refine .popped (life_le rfl rfl rfl) (Nat.le_refl _) rfl ?_
    simp [hitems, emit]
  | @stop n rest child hpick =>
    refine .stopped (life_le rfl rfl rfl) (Nat.le_refl _) rfl rfl ⟨rfl, id, id, id⟩
      (Nat.le_refl _) ?_
    obtain ⟨hlt, -⟩ := List.getElem?_eq_some_iff.mp hpick
    simp only [Option.toList, weigh_cons, weigh_nil, Task.children, List.length_eraseIdx]
    split <;> omega
  | childUnwind _ | closingUnwind _ | userUnwind _ _ => exact .unwound rfl rfl
  | noContext hnone =>
    obtain ⟨context, hcontext, -⟩ := hphase.context
    cases hnone.symm.trans hcontext
  | @orphan n hparent =>
    refine .moved ?_ (Nat.le_refl _) rfl rfl ⟨rfl, id, id, id⟩ (by simp [Task.rank])
    simp [life, hparent]
  | drained hitems =>
    refine .moved (life_le rfl rfl rfl) (Nat.le_refl _) rfl rfl ⟨rfl, id, id, id⟩ ?_
    simp [Task.rank, hitems, show m.terminated = true from hphase.closed]
  | popNone hnone =>
    refine .moved (life_le rfl rfl rfl) (Nat.le_refl _) rfl rfl ⟨rfl, id, id, id⟩ ?_
    have hempty : m.dispatcher.parent = none ∨ m.internalQueue = [] := by
      refine hnone.imp_left fun hnone => ?_
      rcases hphase with hlive | hgone
      · obtain ⟨context, hcontext, -⟩ := hlive.context
        cases hnone.symm.trans hcontext
      · exact hgone.parent
    simp only [Option.toList, weigh_cons, weigh_nil, Task.rank, Option.isNone_iff_eq_none]
    grind
  | reply =>
    refine .moved (life_le rfl rfl rfl) ?_ rfl rfl ⟨rfl, id, id, id⟩ ?_
    · simp [backlog, Dispatcher.unstashed, Task.holds]
    · simp [Task.rank, hphase.2.1]
  | terminated hclosed =>
    refine .moved (life_le rfl rfl rfl) (Nat.le_refl _) rfl rfl ⟨rfl, id, id, id⟩ ?_
    simp only [Option.toList, weigh_cons, weigh_nil, Task.rank]
    grind
  | idle _ _ _ hitems =>
    refine .moved (life_le rfl rfl rfl) (Nat.le_refl _) rfl rfl ⟨rfl, id, id, id⟩ ?_
    simp only [Option.toList, weigh_cons, weigh_nil, Task.rank]
    grind
  | popUnstashed _ hcontext hunstashed =>
    refine .moved (life_le rfl rfl rfl) ?_ rfl rfl ⟨rfl, id, id, id⟩ ?_
    · simp only [backlog, Dispatcher.unstashed, withContext, hcontext, hunstashed, Option.map_some,
        Option.getD_some, List.length_cons, Option.toList, weigh_cons, weigh_nil, Task.holds]
      omega
    · simp only [Option.toList, weigh_cons, weigh_nil, Task.rank]
      grind
  | popUser _ _ _ hitems _ =>
    refine .moved (life_le rfl rfl rfl) ?_ rfl rfl ⟨rfl, id, ?_, id⟩ ?_
    · simp only [backlog, hitems, List.length_cons, Option.toList, weigh_cons, weigh_nil,
        Task.holds]
      omega
    · simp [hitems]
    · simp only [Option.toList, weigh_cons, weigh_nil, Task.rank]
      grind
  | nextMessage _ =>
    refine .moved (life_le rfl rfl rfl) (Nat.le_refl _) rfl rfl ⟨rfl, id, id, id⟩ ?_
    simp [Task.rank, hphase.parent]
  | childLast hcontext _ _ | childGone hcontext _ | suspend hcontext _ =>
    refine .moved (life_le rfl rfl rfl) ?_ rfl rfl ⟨rfl, id, id, id⟩ ?_
    · simp [backlog, Dispatcher.unstashed, withContext, hcontext, Task.holds]
    · simp only [Option.toList, weigh_cons, weigh_nil, Task.rank]
      grind
  | close =>
    refine .moved (life_le rfl rfl rfl) (Nat.le_refl _) rfl rfl ⟨rfl, id, id, fun _ => rfl⟩ ?_
    simp [Task.rank]
  | dead _ | watchClosed _ | watch _ | created | childless _ _ | stopped | cutOff _ | goOn _
  | store =>
    refine .moved (life_le rfl rfl rfl) (Nat.le_refl _) rfl rfl ⟨rfl, id, id, id⟩ ?_
    simp only [Option.toList, weigh_cons, weigh_nil, Task.rank, emit]
    grind

/-- A task that rechecks gets on, and changes nothing. -/
theorem Move.recheck (move : m.Move input t r) (ht : t.active = false) :
    weigh (Task.rank m) r.next.toList < t.rank m := by
  cases move with
  | someUser _ | noUser _ | accepting _ | closed _ | someInternal _ | done _ =>
    simp only [Option.toList, weigh_cons, weigh_nil, Task.rank]
    grind
  | _ => cases ht

/-- The calls that a callback leaves behind are those of `stop_self`. -/
theorem Move.offers (move : m.Move input t r) : weigh Client.offers r.clients = 0 := by
  have hself : ∀ log : List (Event T), weigh Client.offers (selfStops log) = 0 := by
    intro log
    refine weigh_eq_zero.mpr fun c hc => ?_
    obtain ⟨e, -, he⟩ := List.mem_filterMap.mp hc
    cases e <;> cases he
    rfl
  cases move with
  | start _ hf | terminate hf | process hf =>
    obtain ⟨c, -, -, -, -, hclients⟩ | ⟨c, -, -, -, -, hclients⟩ := finish_cases hf <;>
      rw [hclients, hself]
  | _ => rfl

theorem Access.remaining {client : Client T} {next : Option (Client T)}
    (h : m.Access client next m') : weigh Client.remaining next.toList < client.remaining := by
  cases h with
  | @refuse msg watch _ | @full msg watch _ =>
    cases watch <;> simp [Node.afterSend, Client.remaining]
  | @push msg watch _ _ _ | @pushInternal msg watch => cases watch <;> simp [Client.remaining]
  | _ => simp [Client.remaining]

theorem Access.backlog {client : Client T} {next : Option (Client T)}
    (h : m.Access client next m') :
    m'.backlog + weigh Client.offers next.toList ≤ m.backlog + client.offers := by
  cases h with
  | @refuse msg watch _ | @full msg watch _ =>
    cases watch <;> simp [Node.afterSend, Client.offers, Mailbox.backlog, emit]
  | @push msg watch _ _ hitems =>
    simp only [Mailbox.backlog, hitems, List.length_append, List.length_singleton, Option.toList,
      weigh_cons, weigh_nil, Client.offers]
    omega
  | pushInternal | stopSelf => exact Nat.le_refl _
  | _ => simp [Client.offers, Mailbox.backlog, emit]

end Mailbox

namespace Node

variable {nd nd' : Node T} {a : Action T}

/-- None when a task has unwound: the mailbox is marked as running, and nobody runs. -/
def alive (nd : Node T) : Nat :=
  if nd.mbox.running ∧ ∀ t ∈ nd.tasks, t.active = false then 0 else 1

def measures : List (Node T → Nat) :=
  [alive, fun nd => nd.mbox.life nd.tasks,
    fun nd => nd.mbox.backlog + weigh Task.holds nd.tasks + weigh Client.offers nd.clients,
    fun nd => weigh Client.remaining nd.clients, fun nd => nd.mbox.internalQueue.length,
    fun nd => weigh (Task.rank nd.mbox) nd.tasks, fun nd => weigh Task.children nd.tasks]

theorem alive_le (nd : Node T) : nd.alive ≤ 1 := by
  unfold alive
  split <;> omega

theorem alive_of_mem {t : Task T} (hmem : t ∈ nd.tasks) (ht : t.active = true) :
    nd.alive = 1 := by
  refine if_neg fun ⟨_, hidle⟩ => ?_
  rw [hidle t hmem] at ht
  cases ht

theorem alive_mono (h : nd.mbox.running = true → (∀ t ∈ nd.tasks, t.active = false) →
    nd'.mbox.running = true ∧ ∀ t ∈ nd'.tasks, t.active = false) : nd'.alive ≤ nd.alive := by
  by_cases hidle : nd.mbox.running = true ∧ ∀ t ∈ nd.tasks, t.active = false
  · rw [alive, if_pos (h hidle.1 hidle.2)]
    exact Nat.zero_le _
  · have hone : nd.alive = 1 := if_neg hidle
    rw [hone]
    exact alive_le nd'

theorem schedule_alive (nd : Node T) : nd.schedule.alive ≤ nd.alive := by
  refine alive_mono fun hrunning hidle => ?_
  rw [schedule, if_pos hrunning]
  exact ⟨hrunning, hidle⟩

/-- Where a task may be spawned, nothing but its point is new. -/
theorem schedule_weigh (nd : Node T) :
    weigh Task.holds nd.schedule.tasks = weigh Task.holds nd.tasks ∧
      nd.schedule.mbox.life nd.schedule.tasks = nd.mbox.life nd.tasks ∧
      nd.schedule.mbox.backlog = nd.mbox.backlog ∧
      nd.schedule.mbox.internalQueue = nd.mbox.internalQueue ∧
      weigh (Task.rank nd.schedule.mbox) nd.schedule.tasks ≤
        weigh (Task.rank nd.mbox) nd.tasks + 11 := by
  unfold schedule
  split
  · exact ⟨rfl, rfl, rfl, rfl, Nat.le_add_right _ _⟩
  · refine ⟨by simp [Task.holds], ?_, rfl, rfl, ?_⟩
    · simp [Mailbox.life, Task.notifies]
    · rw [weigh_append]
      refine Nat.add_le_add_right (weigh_mono fun t _ => ?_) _
      exact Mailbox.Calmer.rank_le ⟨rfl, id, id, id⟩ t

theorem access_below {before after : List (Client T)} {client : Client T}
    {next : Option (Client T)} {mbox : Mailbox T} (hs : nd.clients = before ++ client :: after)
    (hacc : nd.mbox.Access client next mbox) :
    Below measures ⟨mbox, nd.tasks, before ++ (next.toList ++ after)⟩ nd := by
  have hbacklog := hacc.backlog
  have hremaining := hacc.remaining
  refine .skip ?_ (.skip ?_ (.skip ?_ (.here ?_)))
  · exact alive_mono fun hrunning hidle => ⟨hacc.env.running.trans hrunning, hidle⟩
  · exact Mailbox.life_le (by rw [hacc.env.dispatcher]) (by rw [hacc.env.dispatcher]) rfl
  · simp only [hs, weigh_append, weigh_cons]
    omega
  · simp only [hs, weigh_append, weigh_cons]
    omega

theorem schedule_below {before after : List (Client T)} {client : Client T}
    (hs : nd.clients = before ++ client :: after) (hpending : client.pending = true) :
    Below measures { nd.schedule with clients := before ++ (client.scheduled.toList ++ after) }
      nd := by
  obtain ⟨hholds, hlife, hbacklog, -, -⟩ := nd.schedule_weigh
  have hclient : weigh Client.offers client.scheduled.toList = 0 ∧
      weigh Client.remaining client.scheduled.toList < client.remaining := by
    cases client with
    | scheduling watch =>
      cases watch <;> simp [Client.scheduled, afterSend, Client.offers, Client.remaining]
    | schedulingSelf => simp [Client.scheduled, Client.remaining]
    | _ => cases hpending
  refine .skip ?_ (.skip hlife.le (.skip ?_ (.here ?_)))
  · exact nd.schedule_alive
  · simp only [hs, weigh_append, weigh_cons, hholds, hbacklog]
    omega
  · simp only [hs, weigh_append, weigh_cons]
    omega

theorem reschedule_below {before after : List (Task T)}
    (hs : nd.tasks = before ++ .rechecking .scheduling :: after) :
    Below measures { nd with tasks := before ++ after }.schedule nd := by
  obtain ⟨hholds, hlife, hbacklog, hinternal, hrank⟩ :=
    ({ nd with tasks := before ++ after } : Node T).schedule_weigh
  have hclients := schedule_clients { nd with tasks := before ++ after }
  refine .skip ?_ (.skip ?_ (.skip ?_ (.skip ?_ (.skip ?_ (.here ?_)))))
  · refine (schedule_alive _).trans (alive_mono fun hrunning hidle => ⟨hrunning, fun t ht => ?_⟩)
    refine hidle t ?_
    rw [hs]
    rcases List.mem_append.mp ht with h | h
    · exact List.mem_append_left _ h
    · exact List.mem_append_right _ (List.mem_cons_of_mem _ h)
  · rw [hlife]
    exact Mailbox.life_le rfl rfl (by simp [hs, Task.notifies])
  · simp only [hs, hholds, hbacklog, hclients, weigh_append, weigh_cons, Task.holds]
    omega
  · rw [hclients]
  · rw [hinternal]
  · simp only [hs, weigh_append, weigh_cons, Task.rank] at hrank ⊢
    omega

theorem inactive_quiet {t : Task T} (ht : t.active = false) :
    t.holds = 0 ∧ t.notifies = false ∧ t.children = 0 := by
  cases t with
  | rechecking => exact ⟨rfl, rfl, rfl⟩
  | _ => cases ht

/-- A task that rechecks makes a step. -/
theorem recheck_below {before after : List (Task T)} {t : Task T} {input : TaskInput T}
    {r : TaskStep T} (hs : nd.tasks = before ++ t :: after) (ht : t.active = false)
    (move : nd.mbox.Move input t r) :
    Below measures ⟨r.mbox, before ++ (r.next.toList ++ after), nd.clients ++ r.clients⟩ nd := by
  obtain ⟨hmbox, hclients, hnext⟩ := move.inactive ht
  obtain ⟨hholds, hnotifies, -⟩ := inactive_quiet ht
  have hrank := move.recheck ht
  have hquiet : weigh Task.holds r.next.toList = 0 ∧ r.next.toList.any Task.notifies = false := by
    refine ⟨weigh_eq_zero.mpr fun t' ht' => ?_, List.any_eq_false.mpr fun t' ht' => ?_⟩
    · exact (inactive_quiet (hnext t' (Option.mem_toList.mp ht'))).1
    · simp [(inactive_quiet (hnext t' (Option.mem_toList.mp ht'))).2.1]
  refine .skip ?_ (.skip ?_ (.skip ?_ (.skip ?_ (.skip ?_ (.here ?_)))))
  · refine alive_mono fun hrunning hidle => ⟨hmbox ▸ hrunning, fun t' ht' => ?_⟩
    simp only [List.mem_append, Option.mem_toList] at ht'
    rcases ht' with hold | hnew | hold
    · exact hidle t' (by simp [hs, hold])
    · exact hnext t' hnew
    · exact hidle t' (by simp [hs, hold])
  · rw [hmbox]
    exact Mailbox.life_le rfl rfl (by simp [hs, hnotifies, hquiet.2])
  · simp only [hmbox, hclients, List.append_nil, hs, weigh_append, weigh_cons, hholds, hquiet.1]
    omega
  · rw [hclients, List.append_nil]
  · rw [hmbox]
  · simp only [hmbox, hs, weigh_append, weigh_cons]
    omega

/-- The task that has the dispatcher makes a step. -/
theorem active_below {before after : List (Task T)} {t : Task T} {r : TaskStep T}
    (hs : nd.tasks = before ++ t :: after) (ht : t.active = true) (he : Exclusive nd)
    (hoffers : weigh Client.offers r.clients = 0) (gain : nd.mbox.Gain t r) :
    Below measures ⟨r.mbox, before ++ (r.next.toList ++ after), nd.clients ++ r.clients⟩ nd := by
  obtain ⟨hrunning, hothers⟩ := he.alone hs ht
  have halive : nd.alive = 1 := alive_of_mem (by simp [hs]) ht
  have hle : alive ⟨r.mbox, before ++ (r.next.toList ++ after), nd.clients ++ r.clients⟩ ≤
      nd.alive := by
    rw [halive]
    exact alive_le _
  have quiet : ∀ t' ∈ before ++ after, t'.holds = 0 ∧ t'.notifies = false ∧ t'.children = 0 :=
    fun t' ht' => inactive_quiet (hothers t' ht')
  have hany : before.any Task.notifies = false ∧ after.any Task.notifies = false :=
    ⟨List.any_eq_false.mpr fun t' ht' => by simp [quiet t' (List.mem_append_left _ ht')],
      List.any_eq_false.mpr fun t' ht' => by simp [quiet t' (List.mem_append_right _ ht')]⟩
  have hlife : nd.mbox.life nd.tasks = nd.mbox.life [t] := by
    simp [Mailbox.life, hs, hany]
  have hlife' : r.mbox.life (before ++ (r.next.toList ++ after)) = r.mbox.life r.next.toList := by
    simp only [Mailbox.life, List.any_append, hany, Bool.false_or, Bool.or_false]
  have hholds : weigh Task.holds before = 0 ∧ weigh Task.holds after = 0 :=
    ⟨weigh_eq_zero.mpr fun t' ht' => (quiet t' (List.mem_append_left _ ht')).1,
      weigh_eq_zero.mpr fun t' ht' => (quiet t' (List.mem_append_right _ ht')).1⟩
  have hrank : nd.mbox.Calmer r.mbox →
      weigh (Task.rank r.mbox) before + weigh (Task.rank r.mbox) after ≤
        weigh (Task.rank nd.mbox) before + weigh (Task.rank nd.mbox) after := by
    intro hcalmer
    exact Nat.add_le_add (weigh_mono fun t' _ => hcalmer.rank_le t')
      (weigh_mono fun t' _ => hcalmer.rank_le t')
  cases gain with
  | unwound hrun hnone =>
    refine .here ?_
    have hidle :
        alive ⟨r.mbox, before ++ (r.next.toList ++ after), nd.clients ++ r.clients⟩ = 0 := by
      refine if_pos ⟨hrun.trans hrunning, ?_⟩
      simpa [hnone] using hothers
    rw [hidle, halive]
    exact Nat.one_pos
  | aged h =>
    refine .skip hle (.here ?_)
    rwa [hlife, hlife']
  | handled h hbacklog =>
    refine .skip hle (.skip (by rwa [hlife, hlife']) (.here ?_))
    simp only [hs, weigh_append, weigh_cons, hholds, hoffers]
    omega
  | popped h hbacklog hclients hinternal =>
    refine .skip hle (.skip (by rwa [hlife, hlife']) (.skip ?_ (.skip ?_ (.here hinternal))))
    · simp only [hs, weigh_append, weigh_cons, hholds, hoffers]
      omega
    · rw [hclients, List.append_nil]
  | moved h hbacklog hclients hinternal hcalmer hpoint =>
    refine .skip hle (.skip (by rwa [hlife, hlife']) (.skip ?_ (.skip ?_ (.skip ?_ (.here ?_)))))
    · simp only [hs, weigh_append, weigh_cons, hholds, hoffers]
      omega
    · rw [hclients, List.append_nil]
    · rw [hinternal]
    · have hquiet := hrank hcalmer
      simp only [hs, weigh_append, weigh_cons]
      omega
  | stopped h hbacklog hclients hinternal hcalmer hpoint hchildren =>
    refine .skip hle (.skip (by rwa [hlife, hlife']) (.skip ?_ (.skip ?_ (.skip ?_ (.skip ?_
      (.here ?_))))))
    · simp only [hs, weigh_append, weigh_cons, hholds, hoffers]
      omega
    · rw [hclients, List.append_nil]
    · rw [hinternal]
    · have hquiet := hrank hcalmer
      simp only [hs, weigh_append, weigh_cons]
      omega
    · simp only [hs, weigh_append, weigh_cons]
      omega

theorem step_below (h : (machine path option parent).Reachable nd) (ha : a.inward = true)
    (hstep : nd.step a = some nd') : Below measures nd' nd := by
  cases step_move hstep with
  | call | deliver | tick => cases ha
  | access _ hs hacc => exact access_below hs hacc
  | schedule hs hpending => exact schedule_below hs hpending
  | reschedule _ hs => exact reschedule_below hs
  | @task i input before t after r hi hs hr _ =>
    have move := Mailbox.taskStep_move hr
    cases ht : t.active with
    | false => exact recheck_below hs ht move
    | true =>
      have hinput : Cell.Within (fun op => op.unstashes = false) input.calls := by
        simpa [Action.inward, Cell.Within] using ha
      exact active_below hs ht (reach_exclusive h) move.offers
        (move.gain (phase_of_mem h (List.mem_of_getElem? hi)) ht hinput)

/-- The clock is in no measure. -/
theorem tick_measures (ha : a.idle) (hstep : nd.step a = some nd') :
    ∀ m ∈ measures, m nd' = m nd := by
  cases step_move hstep with
  | tick =>
    intro m hm
    simp only [measures, List.mem_cons, List.not_mem_nil, or_false] at hm
    rcases hm with rfl | rfl | rfl | rfl | rfl | rfl | rfl <;> rfl
  | _ => cases ha

/-- While nothing comes from outside and nobody calls `unstash_all`, no run goes on for ever,
however the clock goes. -/
theorem comes_to_rest : WellFounded ((machine (T := T) path option parent).Goes
    (fun _ _ => True) (fun _ a => a.inward = true) fun _ a => a.idle) :=
  goes_wf (fun _ _ _ => trivial) (fun h ha hstep => step_below h ha hstep)
    fun ha hstep => tick_measures ha hstep

end Node

end Ruactor
