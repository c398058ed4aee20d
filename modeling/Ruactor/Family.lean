import Ruactor.Kinship

/-!
# Families in the tree

The account of `Ruactor.Kinship`, kept by every step of a node and by every step of
the tree. The notifications on the way to an actor are those in its internal queue
and the one that its task has taken out.
-/

namespace Ruactor

open Machine

variable {T : Type} {path : ActorPath} {option : PropsOption} {parent : ParentRef}

def Task.letters : Task T → List (ActorPath × ChildId)
  | .looping _ (.internalMessage msg) => msg.letter.toList
  | _ => []

def Client.letter : Client T → Option (ActorPath × ChildId)
  | .pushingInternal msg _ => msg.letter
  | _ => none

namespace Mailbox

def letters (m : Mailbox T) : List (ActorPath × ChildId) :=
  m.internalQueue.filterMap InternalMessage.letter

/-- The map of an actor that has terminated is dropped with its context. -/
def Linked (m : Mailbox T) (letters : List (ActorPath × ChildId)) (kids : Kids) : Prop :=
  m.Served → (m.dispatcher.context.getD .new).Tracked letters kids

/-- What a step does to the family, with the notifications before and after it. -/
structure Kin (before after : List (ActorPath × ChildId)) (m m' : Mailbox T)
    (events : List (Event T)) : Prop where
  log : m'.log = m.log ++ events
  parent : (m'.dispatcher.parent = m.dispatcher.parent ∧ ∀ e ∈ events, e.notifies = false) ∨
    ∃ p, m.dispatcher.parent = some p ∧ m'.dispatcher.parent = none ∧
      events = [.notified p m.path]
  fresh : ∀ {kids}, m.Linked before kids → ∀ k name option found,
    .childCreated k name option found ∈ events → kids k = none
  linked : ∀ {kids}, (∀ e ∈ events, e.overwrites = false) → m.Linked before kids →
    m'.Linked after (events.foldl bear kids)

variable {m m' : Mailbox T} {before after : List (ActorPath × ChildId)} {events : List (Event T)}

theorem Kin.quiet (hlog : m'.log = m.log ++ events)
    (hevents : ∀ e ∈ events, e.births = false ∧ e.notifies = false)
    (hparent : m'.dispatcher.parent = m.dispatcher.parent)
    (hnone : m.dispatcher.context = none → m'.dispatcher.context = none)
    (hcreated : (m'.dispatcher.context.getD .new).created =
      (m.dispatcher.context.getD .new).created)
    (hchildrens : (m'.dispatcher.context.getD .new).childrens =
      (m.dispatcher.context.getD .new).childrens)
    (hperm : after.Perm before) : Kin before after m m' events where
  log := hlog
  parent := .inl ⟨hparent, fun e he => (hevents e he).2⟩
  fresh _ k name option found hmem := absurd (hevents _ hmem).1 (by simp [Event.births])
  linked _ h hserved := by
    rw [foldl_bear_barren _ fun e he => (hevents e he).1]
    exact (h fun hn => hparent ▸ hserved (hnone hn)).perm hperm hcreated hchildrens

theorem Kin.gone (hlog : m'.log = m.log ++ events)
    (hevents : ∀ e ∈ events, e.births = false ∧ e.notifies = false)
    (hparent : m'.dispatcher.parent = m.dispatcher.parent)
    (hgone : m'.dispatcher.context = none ∧ m'.dispatcher.parent = none) :
    Kin before after m m' events where
  log := hlog
  parent := .inl ⟨hparent, fun e he => (hevents e he).2⟩
  fresh _ k name option found hmem := absurd (hevents _ hmem).1 (by simp [Event.births])
  linked _ _ hserved := absurd hgone.2 (hserved hgone.1)

/-- What a step does to the map and to the notifications, whatever the children are. -/
inductive Change (before after : List (ActorPath × ChildId)) (m m' : Mailbox T)
    (events : List (Event T)) : Prop
  | same : (m'.Served → m.Served) → after.Perm before → (∀ e ∈ events, e.births = false) →
      (m'.dispatcher.context.getD .new).created = (m.dispatcher.context.getD .new).created →
      (m'.dispatcher.context.getD .new).childrens = (m.dispatcher.context.getD .new).childrens →
      Change before after m m' events
  | grow : m.Served → after.Perm before →
      (m.dispatcher.context.getD .new).Grows (m'.dispatcher.context.getD .new) events →
      Change before after m m' events
  | erase {p : ActorPath} {k : ChildId} : m.Served → before.Perm ((p, k) :: after) → events = [] →
      (m'.dispatcher.context.getD .new).created = (m.dispatcher.context.getD .new).created →
      (m'.dispatcher.context.getD .new).childrens =
        (m.dispatcher.context.getD .new).childrens.erase p.key → Change before after m m' events
  | gone : ¬ m'.Served → (∀ e ∈ events, e.births = false) → Change before after m m' events

structure Bond (before after : List (ActorPath × ChildId)) (m m' : Mailbox T)
    (events : List (Event T)) : Prop extends Kin before after m m' events where
  change : Change before after m m' events

theorem Bond.quiet (hlog : m'.log = m.log ++ events)
    (hevents : ∀ e ∈ events, e.births = false ∧ e.notifies = false)
    (hparent : m'.dispatcher.parent = m.dispatcher.parent)
    (hnone : m.dispatcher.context = none → m'.dispatcher.context = none)
    (hcreated : (m'.dispatcher.context.getD .new).created =
      (m.dispatcher.context.getD .new).created)
    (hchildrens : (m'.dispatcher.context.getD .new).childrens =
      (m.dispatcher.context.getD .new).childrens)
    (hperm : after.Perm before) : Bond before after m m' events where
  toKin := .quiet hlog hevents hparent hnone hcreated hchildrens hperm
  change := .same (fun hserved hn => hparent ▸ hserved (hnone hn)) hperm
    (fun e he => (hevents e he).1) hcreated hchildrens

theorem Bond.gone (hlog : m'.log = m.log ++ events)
    (hevents : ∀ e ∈ events, e.births = false ∧ e.notifies = false)
    (hparent : m'.dispatcher.parent = m.dispatcher.parent)
    (hgone : m'.dispatcher.context = none ∧ m'.dispatcher.parent = none) :
    Bond before after m m' events where
  toKin := .gone hlog hevents hparent hgone
  change := .gone (fun hserved => hserved hgone.1 hgone.2) fun e he => (hevents e he).1

theorem Env.dispatcher_kin (h : m.Env m') : ∃ events, m'.log = m.log ++ events ∧
    ∀ e ∈ events, e.attempts = false ∧ e.notifies = false := by
  cases h with
  | same | tick _ => exact ⟨[], (List.append_nil _).symm, List.forall_mem_nil _⟩
  | rejected _ | watchReturned _ _ | pushed _ _ | pushedInternal _ =>
    exact ⟨_, rfl, by simp [Event.attempts, Event.notifies]⟩

theorem Env.bond (h : m.Env m') (hperm : after.Perm before) :
    ∃ events, Bond before after m m' events := by
  obtain ⟨events, hlog, hevents⟩ := h.dispatcher_kin
  have hd := h.dispatcher
  have hbarren : ∀ e ∈ events, e.births = false ∧ e.notifies = false :=
    fun e he => (hevents e he).imp_left Event.births_of_attempts
  exact ⟨events, .quiet hlog hbarren (by rw [hd]) (by rw [hd]; exact id) (by rw [hd]) (by rw [hd])
    hperm⟩

theorem Kin.account {context : ActorContext T}
    (h : ActorContext.Account before m.dispatcher.parent (m.dispatcher.context.getD .new)
      m'.dispatcher.parent context events)
    (hserved : m.Served) (hcontext : m'.dispatcher.context = some context)
    (hlog : m'.log = m.log ++ events) : Kin before before m m' events where
  log := hlog
  parent := .inl ⟨h.parent, h.silent⟩
  fresh hl k name option found hmem := (hl hserved).unborn (h.fresh k name option found hmem)
  linked {kids} hdistinct hl _ := by
    rw [hcontext]
    exact h.tracked kids (hl hserved) hdistinct

theorem Bond.growing {context : ActorContext T}
    (h : ActorContext.Growing m.dispatcher.parent (m.dispatcher.context.getD .new)
      m'.dispatcher.parent context events)
    (hserved : m.Served) (hcontext : m'.dispatcher.context = some context)
    (hlog : m'.log = m.log ++ events) : Bond before before m m' events where
  toKin := .account (h.account before) hserved hcontext hlog
  change := .grow hserved (.refl _) (by rw [hcontext]; exact h.2)

abbrev Grown (m : Mailbox T) : Cell T → Prop :=
  Cell.Records (fun _ => True) (ActorContext.Growing m.dispatcher.parent
    (m.dispatcher.context.getD .new)) []

theorem finish_bond {next : Task T} {o : Outcome (Cell T)} {r : TaskStep T}
    (h : m.finish next o = some r) (hserved : m.Served) (ho : o.Ensures m.Grown m.Grown)
    (letters : List (ActorPath × ChildId)) : ∃ events, Bond letters letters m r.mbox events := by
  obtain ⟨c, hc, hm, -⟩ | ⟨c, hc, hm, -⟩ := finish_ensures h ho
  · obtain ⟨context, hcontext, hgrowing⟩ := hc.context
    exact ⟨c.log, .growing (by simpa [hm, commit] using hgrowing) hserved
      (by simpa [hm, commit] using hcontext) (by rw [hm]; rfl)⟩
  · obtain ⟨context, hcontext, hgrowing⟩ := hc.context
    have hunwound := hgrowing.barren [.unwound]
      (by simp [Event.births, Event.notifies]) rfl rfl
    exact ⟨c.log ++ [.unwound], .growing (by simpa [hm, commit, emit] using hunwound) hserved
      (by simpa [hm, commit, emit] using hcontext) (by rw [hm]; simp [commit, emit])⟩

theorem Kin.erased {p : ActorPath} {k : ChildId} {context context' : ActorContext T}
    (hcontext : m.dispatcher.context = some context)
    (hcreated : context'.created = context.created)
    (hchildrens : context'.childrens = context.childrens.erase p.key) :
    Kin (before ++ (p, k) :: after) (before ++ after) m (m.withContext context') [] where
  log := (List.append_nil _).symm
  parent := .inl ⟨rfl, List.forall_mem_nil _⟩
  fresh _ _ _ _ _ hmem := absurd hmem List.not_mem_nil
  linked {kids} _ h _ := by
    have ht := h fun hn => absurd (hn.symm.trans hcontext) (by simp)
    rw [hcontext, Option.getD_some] at ht
    exact (ht.perm List.perm_middle.symm rfl rfl).erase hcreated hchildrens

theorem Bond.erased {p : ActorPath} {k : ChildId} {context context' : ActorContext T}
    (hcontext : m.dispatcher.context = some context)
    (hcreated : context'.created = context.created)
    (hchildrens : context'.childrens = context.childrens.erase p.key) :
    Bond (before ++ (p, k) :: after) (before ++ after) m (m.withContext context') [] where
  toKin := .erased hcontext hcreated hchildrens
  change := .erase (fun hn => absurd (hn.symm.trans hcontext) (by simp)) List.perm_middle rfl
    (by rw [hcontext]; exact hcreated) (by rw [hcontext]; exact hchildrens)

theorem Move.bond {input : TaskInput T} {t : Task T} {r : TaskStep T}
    (move : m.Move input t r) (hphase : m.Phase t) (others : List (ActorPath × ChildId)) :
    ∃ events, Bond (m.letters ++ (t.letters ++ others))
      (r.mbox.letters ++ (r.next.toList.flatMap Task.letters ++ others)) m r.mbox events := by
  have unlogged : ∀ {log : List (Event T)}, log = log ++ [] := (List.append_nil _).symm
  have finished : ∀ {next o}, m.finish next o = some r → next.letters = [] → m.Served →
      o.Ensures m.Grown m.Grown → ∃ events, Bond (m.letters ++ others)
        (r.mbox.letters ++ (r.next.toList.flatMap Task.letters ++ others)) m r.mbox events := by
    intro next o hf hnext hserved ho
    obtain ⟨events, hbond⟩ := finish_bond hf hserved ho (m.letters ++ others)
    have hletters : r.mbox.letters = m.letters ∧ r.next.toList.flatMap Task.letters = [] := by
      obtain ⟨c, -, -, hm, hn, -⟩ | ⟨c, -, -, hm, hn, -⟩ := finish_cases hf
      · rw [hm, hn]
        exact ⟨rfl, by simpa using hnext⟩
      · rw [hm, hn]
        exact ⟨rfl, rfl⟩
    rw [hletters.1, hletters.2]
    exact ⟨events, hbond⟩
  cases move with
  | drained _ | nextMessage _ | popNone _ | created | stopped | childless _ _ | orphan _
  | terminated _ | idle _ _ _ _ | popUser _ _ _ _ _ | cutOff _ | goOn _ | store | someUser _
  | noUser _ | accepting _ | closed _ | someInternal _ | done _ | noContext _ | dead _
  | watch _ =>
    exact ⟨[], .quiet unlogged (List.forall_mem_nil _) rfl id rfl rfl (.refl _)⟩
  | watchClosed _ | close | stop _ =>
    exact ⟨_, .quiet rfl (by simp [Event.births, Event.notifies]) rfl id rfl rfl (.refl _)⟩
  | closingUnwind _ | userUnwind _ _ =>
    exact ⟨[.unwound], .quiet rfl (by simp [Event.births, Event.notifies]) rfl id rfl rfl
      (.refl _)⟩
  | childUnwind hnone =>
    obtain ⟨context, hcontext, -⟩ := hphase.context
    exact absurd (hnone.symm.trans hcontext) (by simp)
  | drainWatch _ =>
    exact ⟨_, .gone rfl (by simp [Event.births, Event.notifies]) rfl
      ⟨hphase.context, hphase.parent⟩⟩
  | drain _ _ =>
    exact ⟨[], .gone unlogged (List.forall_mem_nil _) rfl ⟨hphase.context, hphase.parent⟩⟩
  | popInternal _ hqueue =>
    refine ⟨[], .quiet unlogged (List.forall_mem_nil _) rfl id rfl rfl ?_⟩
    simp only [letters, Task.letters, hqueue, Option.toList_some, List.flatMap_cons,
      List.flatMap_nil, List.append_nil, List.nil_append, List.filterMap_cons]
    cases hletter : InternalMessage.letter _ with
    | none => exact .refl _
    | some letter => exact List.perm_middle
  | suspend hcontext _ | popUnstashed _ hcontext _ =>
    exact ⟨[], .quiet unlogged (List.forall_mem_nil _) rfl (by simp [hcontext])
      (by simp [withContext, hcontext]) (by simp [withContext, hcontext]) (.refl _)⟩
  | childLast hcontext _ _ | childGone hcontext _ =>
    exact ⟨[], .erased hcontext rfl rfl⟩
  | start hparent hf =>
    have hserved : m.Served := fun _ => by simp [hparent]
    exact finished hf rfl hserved ((ActorContext.growing_recorded _ _).startActor
      (createContext_records (fun _ _ _ _ => trivial) ⟨rfl, .refl⟩))
  | terminate hf =>
    obtain ⟨-, -, -, context, hcontext, -⟩ := hphase
    have hserved : m.Served := fun hn => absurd (hn.symm.trans hcontext) (by simp)
    refine finished hf rfl hserved ((ActorContext.growing_recorded _ _).terminateActor
      (fun h => h.barren _ (by simp [Event.births, Event.notifies]) rfl rfl)
      (cell_records (fun _ _ _ _ => trivial) hcontext ?_))
    rw [hcontext]
    exact ⟨rfl, .refl⟩
  | process hf =>
    obtain ⟨context, hcontext, -⟩ := hphase.2.context
    have hserved : m.Served := fun hn => absurd (hn.symm.trans hcontext) (by simp)
    refine finished hf rfl hserved ((ActorContext.growing_recorded _ _).process
      (fun _ _ _ h => h.barren _ (by simp [Event.births, Event.notifies]) rfl rfl) hphase.2.actor
      _ _ _ (cell_records (fun _ _ _ _ => trivial) hcontext ?_))
    rw [hcontext]
    exact ⟨rfl, .refl⟩
  | notify hparent =>
    have hserved : m.Served := fun hn => absurd hn hphase.2.2
    refine ⟨_, ⟨rfl, .inr ⟨_, hparent, rfl, rfl⟩, by simp, fun _ hl _ => hl hserved⟩, ?_⟩
    exact .same (fun _ => hserved) (.refl _) (by simp [Event.births]) rfl rfl
  | reply =>
    refine ⟨_, .gone rfl ?_ rfl ⟨rfl, hphase.2.1⟩⟩
    simp only [List.mem_append, List.mem_map]
    rintro e (⟨w, -, rfl⟩ | ⟨handle, -, rfl⟩) <;> exact ⟨rfl, rfl⟩

theorem Move.kin {input : TaskInput T} {t : Task T} {r : TaskStep T}
    (move : m.Move input t r) (hphase : m.Phase t) (others : List (ActorPath × ChildId)) :
    ∃ events, Kin (m.letters ++ (t.letters ++ others))
      (r.mbox.letters ++ (r.next.toList.flatMap Task.letters ++ others)) m r.mbox events :=
  (move.bond hphase others).imp fun _ h => h.toKin

theorem Linked.perm {kids : Kids} (h : m.Linked before kids) (hperm : after.Perm before) :
    m.Linked after kids :=
  fun hserved => (h hserved).perm hperm rfl rfl

theorem Change.perm {before' after' : List (ActorPath × ChildId)}
    (h : Change before after m m' events) (hbefore : before'.Perm before)
    (hafter : after'.Perm after) : Change before' after' m m' events := by
  cases h with
  | same hserved hperm hevents hcreated hchildrens =>
    exact .same hserved ((hafter.trans hperm).trans hbefore.symm) hevents hcreated hchildrens
  | grow hserved hperm hgrows =>
    exact .grow hserved ((hafter.trans hperm).trans hbefore.symm) hgrows
  | erase hserved hperm hevents hcreated hchildrens =>
    exact .erase hserved ((hbefore.trans hperm).trans (hafter.symm.cons _)) hevents hcreated
      hchildrens
  | gone hgone hevents => exact .gone hgone hevents

theorem Bond.perm {before' after' : List (ActorPath × ChildId)} (h : Bond before after m m' events)
    (hbefore : before'.Perm before) (hafter : after'.Perm after) :
    Bond before' after' m m' events where
  log := h.log
  parent := h.parent
  fresh hl := h.fresh (hl.perm hbefore.symm)
  linked hdistinct hl := (h.linked hdistinct (hl.perm hbefore.symm)).perm hafter
  change := h.change.perm hbefore hafter

theorem Move.clients {input : TaskInput T} {t : Task T} {r : TaskStep T}
    (move : m.Move input t r) : ∀ c ∈ r.clients, c = .stoppingSelf := by
  have stops : ∀ {log : List (Event T)}, ∀ c ∈ selfStops log, c = .stoppingSelf := by
    intro log c hc
    obtain ⟨e, -, he⟩ := List.mem_filterMap.mp hc
    cases e <;> cases he
    rfl
  cases move with
  | start _ hf | terminate hf | process hf =>
    obtain ⟨c, -, -, -, -, hclients⟩ | ⟨c, -, -, -, -, hclients⟩ := finish_cases hf <;>
      exact hclients ▸ stops
  | _ => exact List.forall_mem_nil _

end Mailbox

namespace Node

def letters (nd : Node T) : List (ActorPath × ChildId) :=
  nd.mbox.letters ++ nd.tasks.flatMap Task.letters

/-- Callers push no notifications: those come from the tasks of the children. -/
def Plain (nd : Node T) : Prop := ∀ c ∈ nd.clients, c.letter = none

theorem afterSend_plain {watch : Option ReplyTo} :
    ∀ c ∈ (afterSend watch : Option (Client T)), c.letter = none := by
  cases watch <;> simp [afterSend, Client.letter]

theorem Access.plain {m m' : Mailbox T} {client : Client T} {next : Option (Client T)}
    (h : m.Access client next m') : ∀ c ∈ next, c.letter = none := by
  cases h with
  | refuse _ | full _ => exact afterSend_plain
  | _ => simp [Client.letter, InternalMessage.letter]

theorem scheduled_plain {client : Client T} : ∀ c ∈ client.scheduled, c.letter = none := by
  cases client with
  | scheduling watch => exact afterSend_plain
  | _ => nofun

theorem start_plain (option : PropsOption) (call : Call T) : (call.start option).letter = none := by
  cases call with
  | waitStop w =>
    simp only [Call.start]
    split <;> rfl
  | _ => rfl

theorem Move.plain {nd nd' : Node T} {a : Action T} (move : Move nd a nd') (h : Plain nd) :
    Plain nd' := by
  have replaced : ∀ {before after : List (Client T)} {client : Client T}
      {next : Option (Client T)}, nd.clients = before ++ client :: after →
      (∀ c ∈ next, c.letter = none) → ∀ c ∈ before ++ (next.toList ++ after), c.letter = none := by
    intro before after client next hs hnext c hc
    simp only [List.mem_append, Option.mem_toList] at hc
    rcases hc with hc | hc | hc
    · exact h c (by simp [hs, hc])
    · exact hnext c hc
    · exact h c (by simp [hs, hc])
  cases move with
  | @call c =>
    intro client hclient
    rcases List.mem_append.mp hclient with hclient | hclient
    · exact h client hclient
    · obtain rfl := List.mem_singleton.mp hclient
      exact start_plain _ c
  | access _ hs hacc => exact replaced hs (Access.plain hacc)
  | schedule hs _ => exact replaced hs scheduled_plain
  | reschedule _ _ =>
    simp only [Plain, Node.schedule]
    split <;> exact h
  | task _ _ hr _ =>
    intro client hclient
    rcases List.mem_append.mp hclient with hclient | hclient
    · exact h client hclient
    · rw [(Mailbox.taskStep_move hr).clients client hclient]
      rfl
  | deliver =>
    intro client hclient
    rcases List.mem_append.mp hclient with hclient | hclient
    · exact h client hclient
    · obtain rfl := List.mem_singleton.mp hclient
      rfl
  | tick => exact h

theorem reachable_plain {nd : Node T} (h : (machine path option parent).Reachable nd) :
    Plain nd :=
  h.invariant (fun _ hc => absurd hc List.not_mem_nil)
    fun _ hs _ hstep => (step_move hstep).plain hs

theorem schedule_letters (nd : Node T) : nd.schedule.letters = nd.letters := by
  simp only [letters, Node.schedule]
  split
  · rfl
  · simp [Mailbox.letters, Task.letters]

theorem schedule_bond (nd : Node T) (letters : List (ActorPath × ChildId)) :
    Mailbox.Bond letters letters nd.mbox nd.schedule.mbox [] := by
  have hlog := (List.append_nil nd.mbox.log).symm
  simp only [Node.schedule]
  split <;> exact .quiet hlog (List.forall_mem_nil _) rfl id rfl rfl (.refl _)

theorem step_bond {nd nd' : Node T} {a : Action T}
    (h : (machine path option parent).Reachable nd) (ha : ∀ msg, a ≠ .deliver msg)
    (hstep : nd.step a = some nd') :
    ∃ events, Mailbox.Bond nd.letters nd'.letters nd.mbox nd'.mbox events := by
  cases step_move hstep with
  | call => exact Mailbox.Env.bond .same (.refl _)
  | tick => exact Mailbox.Env.bond (.tick _) (.refl _)
  | deliver => exact absurd rfl (ha _)
  | @access i before client after next mbox _ hs hacc =>
    refine hacc.env.bond (List.Perm.of_eq ?_)
    have hplain : client.letter = none := reachable_plain h client (by simp [hs])
    cases hacc with
    | pushInternal =>
      simp only [letters, Mailbox.letters, Mailbox.pushInternal, List.filterMap_append]
      simp only [Client.letter] at hplain
      simp [hplain]
    | stopSelf => simp [letters, Mailbox.letters, Mailbox.pushInternal, InternalMessage.letter]
    | _ => rfl
  | schedule _ _ =>
    refine ⟨[], (schedule_bond nd nd.letters).perm (.refl _) (.of_eq ?_)⟩
    exact schedule_letters nd
  | @reschedule i input before after hi hs =>
    have hletters : nd.letters = ({ nd with tasks := before ++ after } : Node T).letters := by
      simp [letters, hs, Task.letters]
    rw [schedule_letters, ← hletters]
    exact ⟨[], schedule_bond { nd with tasks := before ++ after } nd.letters⟩
  | @task i input before t after r hi hs hr _ =>
    obtain ⟨events, hbond⟩ := (Mailbox.taskStep_move hr).bond
      (phase_of_mem h (by simp [hs]))
      (before.flatMap Task.letters ++ after.flatMap Task.letters)
    refine ⟨events, hbond.perm ?_ ?_⟩
    · simp only [letters, hs, List.flatMap_append, List.flatMap_cons]
      exact List.Perm.append_left _ (List.perm_append_comm_assoc _ _ _)
    · simp only [letters, List.flatMap_append]
      exact List.Perm.append_left _ (List.perm_append_comm_assoc _ _ _)

theorem step_kin {nd nd' : Node T} {a : Action T}
    (h : (machine path option parent).Reachable nd) (ha : ∀ msg, a ≠ .deliver msg)
    (hstep : nd.step a = some nd') :
    ∃ events, Mailbox.Kin nd.letters nd'.letters nd.mbox nd'.mbox events :=
  (step_bond h ha hstep).imp fun _ h => h.toKin

end Node

end Ruactor
