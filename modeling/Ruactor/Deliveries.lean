import Ruactor.Phases
import Ruactor.Stashing

/-!
# The delivery order

A user message is in the message queue, in the hands of the task that took it out,
in `stash` or in `unstashed`. Batches, other tasks, restarts and transitions move
no message between the four, so the order of the log is kept across all of them.
-/

namespace Ruactor

open Machine

variable {T : Type} {path : ActorPath} {option : PropsOption} {parent : ParentRef}

def users (items : List (Message T)) : List T :=
  items.filterMap fun
    | .user msg => some msg
    | _ => none

theorem users_cons (msg : Message T) (items : List (Message T)) :
    users (msg :: items) = Cell.inHand .queue .queue msg ++ users items := by
  cases msg <;> simp [users, Cell.inHand]

def Task.inHand (origin : Source) : Task T → List T
  | .looping _ (.processing src msg) => Cell.inHand origin src msg
  | _ => []

@[simp] theorem Task.inHand_processing (n : Nat) (origin src : Source) (msg : Message T) :
    (Task.looping n (.processing src msg)).inHand origin = Cell.inHand origin src msg := rfl

def Task.busy : Task T → Bool
  | .looping _ (.processing _ _) => true
  | _ => false

theorem Task.inHand_idle {t : Task T} (h : t.busy = false) (origin : Source) :
    t.inHand origin = [] := by
  cases t with
  | looping n stage => cases stage <;> first | rfl | cases h
  | _ => rfl

namespace Mailbox

/-- The context that the next batch works with. A mailbox that has neither a
context nor a parent is not served any more. -/
structure Stored (m : Mailbox T) (t : Task T) : Prop where
  queued : pushes m.log = firsts m.log ++ (t.inHand .queue ++ users m.messageQueue.items)
  holding : (m.dispatcher.context = none → m.dispatcher.parent ≠ none) →
    Holding m.log (m.dispatcher.context.getD .new) (t.inHand .unstashed)
  first : ∀ n msg, t = .looping n (.processing .queue msg) →
    (m.dispatcher.context.getD .new).unstashed = []

theorem Stored.quiet {m m' : Mailbox T} {t t' : Task T} (h : Stored m t)
    (ht : t.busy = false) (ht' : t'.busy = false) {events : List (Event T)}
    (hlog : m'.log = m.log ++ events) (hquiet : ∀ e ∈ events, e.quiet = true)
    (hqueue : m'.messageQueue.items = m.messageQueue.items)
    (hcontext : (m'.dispatcher.context = none → m'.dispatcher.parent ≠ none) →
      (m.dispatcher.context = none → m.dispatcher.parent ≠ none) ∧
      (m'.dispatcher.context.getD .new).stash = (m.dispatcher.context.getD .new).stash ∧
      (m'.dispatcher.context.getD .new).unstashed = (m.dispatcher.context.getD .new).unstashed) :
    Stored m' t' := by
  have hs := sameRecords_append m.log hquiet
  rw [← hlog] at hs
  have hq := h.queued
  have hh := h.holding
  simp only [Task.inHand_idle ht] at hq hh
  refine ⟨?_, fun hserved => ?_, ?_⟩
  · rw [hs.pushes, hs.firsts, hqueue, Task.inHand_idle ht']
    exact hq
  · obtain ⟨hserved, hstash, hunstashed⟩ := hcontext hserved
    rw [Task.inHand_idle ht']
    exact (hh hserved).same hs hstash hunstashed
  · rintro n msg rfl
    cases ht'

theorem Stored.next {m : Mailbox T} {t t' : Task T} (h : Stored m t) (ht : t.busy = false)
    (ht' : t'.busy = false) : Stored m t' :=
  h.quiet ht ht' (List.append_nil _).symm (by simp) rfl fun hserved => ⟨hserved, rfl, rfl⟩

theorem Stored.withContext {m : Mailbox T} {t t' : Task T} {context context' : ActorContext T}
    (h : Stored m t) (ht : t.busy = false) (ht' : t'.busy = false)
    (hcontext : m.dispatcher.context = some context) (hstash : context'.stash = context.stash)
    (hunstashed : context'.unstashed = context.unstashed) :
    Stored (m.withContext context') t' :=
  h.quiet ht ht' (List.append_nil _).symm (by simp) rfl
    fun _ => ⟨by simp [hcontext], by simp [hcontext, Mailbox.withContext, hstash],
      by simp [hcontext, Mailbox.withContext, hunstashed]⟩

theorem commit_stored {m : Mailbox T} {c : Cell T} {t : Task T}
    (h : c.Stocked (users m.messageQueue.items) m.log) (ht : t.busy = false) :
    Stored (m.commit c) t := by
  obtain ⟨context, hcontext, hs⟩ := h.context
  refine ⟨?_, fun _ => ?_, ?_⟩
  · rw [Task.inHand_idle ht]
    exact hs.queued
  · rw [Task.inHand_idle ht]
    simpa [commit, hcontext] using hs.holding
  · rintro n msg rfl
    cases ht

theorem finish_stored {m : Mailbox T} {next : Task T} {o : Outcome (Cell T)} {r : TaskStep T}
    (h : m.finish next o = some r) (hnext : next.busy = false)
    (ho : o.Ensures (Cell.Stocked (users m.messageQueue.items) m.log)
      (Cell.Stocked (users m.messageQueue.items) m.log)) :
    Legal r.mbox.log ∧ ∀ t' ∈ r.next, Stored r.mbox t' := by
  obtain ⟨c, hc, hm, hn⟩ | ⟨c, hc, hm, hn⟩ := finish_ensures h ho
  · rw [hm, hn]
    obtain ⟨_, -, hs⟩ := hc.context
    refine ⟨hs.legal, ?_⟩
    rintro t' ⟨⟩
    exact commit_stored hc hnext
  · rw [hm, hn]
    obtain ⟨_, -, hs⟩ := hc.context
    exact ⟨hs.legal.snoc trivial, nofun⟩

theorem Stored.cell {m : Mailbox T} {t : Task T} (input : TaskInput T) (h : Stored m t)
    (hl : Legal m.log) (ht : t.busy = false) {context : ActorContext T}
    (hcontext : m.dispatcher.context = some context) :
    (m.cell input).Stocked (users m.messageQueue.items) m.log := by
  have hq := h.queued
  have hh := h.holding (by simp [hcontext])
  simp only [Task.inHand_idle ht, hcontext, Option.getD_some] at hq hh
  exact cell_records (fun _ _ _ _ => trivial) hcontext ⟨hl, hq, hh⟩

theorem Stored.fresh {m : Mailbox T} {input : TaskInput T} (h : Stored m .spawned)
    (hl : Legal m.log) (hp : m.dispatcher.parent ≠ none) :
    (m.cell input).createContext.Stocked (users m.messageQueue.items) m.log := by
  have hh := h.holding fun _ => hp
  exact createContext_records (fun _ _ _ _ => trivial) ⟨hl, h.queued, hh⟩

theorem Stored.taken {m : Mailbox T} {n : Nat} {src : Source} {msg : Message T}
    {input : TaskInput T} (h : Stored m (.looping n (.processing src msg))) (hl : Legal m.log)
    {context : ActorContext T} (hcontext : m.dispatcher.context = some context) :
    (m.cell input).Taken m.log (users m.messageQueue.items) src msg := by
  have hh := h.holding (by simp [hcontext])
  simp only [hcontext, Option.getD_some] at hh
  refine ⟨by simpa [Mailbox.cell] using hl, by simpa [Mailbox.cell] using h.queued, context,
    hcontext, by simpa [Mailbox.cell] using hh, ?_⟩
  rintro rfl
  simpa [hcontext] using h.first n msg rfl

theorem Env.quiet {m m' : Mailbox T} (h : m.Env m') :
    (∃ events, m'.log = m.log ++ events ∧ (∀ e ∈ events, e.quiet = true) ∧
      m'.messageQueue.items = m.messageQueue.items) ∨
    ∃ msg, m'.log = m.log ++ [.pushed msg] ∧
      m'.messageQueue.items = m.messageQueue.items ++ [msg] := by
  cases h with
  | same => exact .inl ⟨[], by simp, by simp, rfl⟩
  | rejected msg => exact .inl ⟨[.rejected msg], rfl, by simp [Event.quiet], rfl⟩
  | watchReturned w _ => exact .inl ⟨[.watchReturned w], rfl, by simp [Event.quiet], rfl⟩
  | pushed _ hitems => exact .inr ⟨_, rfl, hitems⟩
  | pushedInternal msg => exact .inl ⟨[.pushedInternal msg], rfl, by simp [Event.quiet], rfl⟩
  | tick d => exact .inl ⟨[], by simp, by simp, rfl⟩

theorem Stored.env {m m' : Mailbox T} {t : Task T} (h : Stored m t) (henv : m.Env m') :
    Stored m' t := by
  have hd := henv.dispatcher
  obtain ⟨events, hlog, hquiet, hitems⟩ | ⟨msg, hlog, hitems⟩ := henv.quiet
  · have hs := sameRecords_append m.log hquiet
    rw [← hlog] at hs
    refine ⟨?_, fun hserved => ?_, ?_⟩
    · rw [hs.pushes, hs.firsts, hitems]
      exact h.queued
    · rw [hd] at hserved ⊢
      exact (h.holding hserved).same hs rfl rfl
    · rw [hd]
      exact h.first
  · have hr : released m'.log = released m.log := by rw [hlog]; exact released_snoc _ rfl
    have hp : pushes m'.log = pushes m.log ++ users [msg] := by
      rw [hlog]
      cases msg <;> simp [pushes, users]
    have hf : firsts m'.log = firsts m.log := by simp [hlog, firsts]
    have ha : again m'.log = again m.log := by simp [hlog, again]
    have hst : stashings m'.log = stashings m.log := by simp [hlog, stashings]
    refine ⟨?_, fun hserved => ?_, ?_⟩
    · have hu : users m'.messageQueue.items = users m.messageQueue.items ++ users [msg] := by
        rw [hitems, users, List.filterMap_append]
        rfl
      rw [hp, hf, hu, h.queued]
      simp
    · rw [hd] at hserved ⊢
      have hh := h.holding hserved
      exact ⟨by rw [hr, ha, hh.unstashed], by rw [hst, hr, hh.stash]⟩
    · rw [hd]
      exact h.first

theorem Env.legal {m m' : Mailbox T} (henv : m.Env m') (h : Legal m.log) : Legal m'.log := by
  obtain ⟨events, hlog, hquiet, -⟩ | ⟨msg, hlog, -⟩ := henv.quiet
  · rw [hlog]
    exact (sameRecords_append m.log hquiet).legal h
  · rw [hlog]
    exact h.snoc trivial

theorem move_stored {m : Mailbox T} {input : TaskInput T} {t : Task T} {r : TaskStep T}
    (move : m.Move input t r) (hact : t.active = true) (base : m.Phase t) (h : Stored m t)
    (hl : Legal m.log) : Legal r.mbox.log ∧ ∀ t' ∈ r.next, Stored r.mbox t' := by
  have same : ∀ {t'}, t.busy = false → t'.busy = false →
      Legal m.log ∧ ∀ u ∈ some t', Stored m u := by
    intro t' ht ht'
    refine ⟨hl, ?_⟩
    rintro u ⟨⟩
    exact h.next ht ht'
  have event : ∀ {m' : Mailbox T} {t'} {events : List (Event T)}, t.busy = false →
      t'.busy = false → m'.log = m.log ++ events → (∀ e ∈ events, e.quiet = true) →
      m'.messageQueue = m.messageQueue →
      m'.dispatcher.context = m.dispatcher.context →
      (m.dispatcher.context ≠ none ∨ m'.dispatcher.parent = m.dispatcher.parent) →
      Legal m'.log ∧ ∀ u ∈ some t', Stored m' u := by
    intro m' t' events ht ht' hlog hquiet hqueue hcontext hserved
    refine ⟨hlog ▸ (sameRecords_append m.log hquiet).legal hl, ?_⟩
    rintro u ⟨⟩
    refine h.quiet ht ht' hlog hquiet (by rw [hqueue]) fun hs => ⟨fun hnone => ?_, ?_⟩
    · rcases hserved with hsome | hp
      · exact absurd hnone hsome
      · exact hp ▸ hs (hcontext.trans hnone)
    · rw [hcontext]
      exact ⟨rfl, rfl⟩
  cases move with
  | someUser _ | noUser _ | accepting _ | closed _ | someInternal _ | done _ => cases hact
  | dead _ | drained _ | noContext _ | nextMessage _ | popNone _ | created | stopped
  | childless _ _ | orphan _ | terminated _ | idle _ _ _ _ | cutOff _ | goOn _ =>
    exact same rfl rfl
  | childUnwind _ | closingUnwind _ | userUnwind _ _ =>
    exact ⟨hl.snoc trivial, fun _ hnone => by cases hnone⟩
  | start hp hf =>
    exact finish_stored hf rfl ((stock_recorded _).startActor (h.fresh hl (by simp [hp])))
  | drainWatch _ | watchClosed _ | stop _ =>
    exact event rfl rfl rfl (by simp [Event.quiet]) rfl rfl (.inr rfl)
  | drain _ _ | popInternal _ _ | watch _ | store =>
    exact event rfl rfl (List.append_nil _).symm (by simp) rfl rfl (.inr rfl)
  | close => exact event rfl rfl rfl (by simp [Event.quiet]) rfl rfl (.inr rfl)
  | childLast hcontext _ _ | childGone hcontext _ | suspend hcontext _ =>
    refine ⟨hl, ?_⟩
    rintro t' ⟨⟩
    exact h.withContext rfl rfl hcontext rfl rfl
  | terminate hf =>
    obtain ⟨-, -, -, context, hcontext, -⟩ := base
    exact finish_stored hf rfl ((stock_recorded _).terminateActor
      (fun hs => hs.same (sameRecords_snoc _ rfl) rfl rfl) (h.cell input hl rfl hcontext))
  | notify _ =>
    exact event rfl rfl rfl (by simp [Event.quiet]) rfl rfl (.inl base.2.2)
  | reply =>
    have hquiet : ∀ e ∈ (m.dispatcher.watcher.map Event.replied ++
        ((m.dispatcher.context.map ActorContext.handles).getD []).map Event.dropped :
          List (Event T)), e.quiet = true := by
      intro e he
      simp only [List.mem_append, List.mem_map] at he
      rcases he with ⟨_, -, rfl⟩ | ⟨_, -, rfl⟩ <;> rfl
    refine ⟨(sameRecords_append m.log hquiet).legal hl, ?_⟩
    rintro t' ⟨⟩
    -- the context is gone with its stash, and nothing is delivered any more
    exact h.quiet rfl rfl rfl hquiet rfl fun hs => absurd base.2.1 (hs rfl)
  | @popUnstashed n context msg rest _ hcontext hu =>
    refine ⟨hl, ?_⟩
    rintro t' ⟨⟩
    have hq := h.queued
    have hh := h.holding (by simp [hcontext])
    simp only [Task.inHand, hcontext, Option.getD_some] at hq hh
    have hfront : released m.log = again m.log ++ ([msg] ++ rest) := by
      rw [hh.unstashed, hu]
      rfl
    exact ⟨hq, fun _ => ⟨hfront, hh.stash⟩, fun _ _ heq => by cases heq⟩
  | @popUser n context msg queue _ hcontext hu hitems _ =>
    refine ⟨hl, ?_⟩
    rintro t' ⟨⟩
    have hq := h.queued
    have hh := h.holding (by simp [hcontext])
    simp only [Task.inHand, hcontext, Option.getD_some] at hq hh
    refine ⟨?_, fun _ => ⟨?_, ?_⟩, ?_⟩
    · rw [hq, hitems, users_cons]
      rfl
    · simp only [hcontext, Option.getD_some, Task.inHand_processing]
      rw [hh.unstashed]
      cases msg <;> rfl
    · simpa [hcontext] using hh.stash
    · intro _ _ _
      simpa [hcontext] using hu
  | process hf =>
    obtain ⟨-, -, hactor, context, hcontext, -⟩ := base
    exact finish_stored hf rfl (Cell.processMessage_stocked (h.taken hl hcontext) hactor _)

end Mailbox

namespace Node

theorem stored_owned : Owned path option parent anyTask (Mailbox.Phase (T := T))
    Mailbox.Stored (fun m => m.Stored .storing) (fun m => Legal m.log) where
  start := ⟨⟨rfl, fun _ => ⟨rfl, rfl⟩, nofun⟩, legal_nil⟩
  env henv := ⟨henv.legal, fun h => h.env henv, fun _ _ h => h.env henv⟩
  acquire _ := ⟨id, fun h => ⟨h.queued, h.holding, nofun⟩⟩
  move {m input t r} move hact _ base h hl := by
    obtain ⟨hlegal, hnext⟩ := Mailbox.move_stored move hact base h hl
    refine ⟨hlegal, fun t' ht' => ⟨fun _ => hnext t' ht', ?_⟩⟩
    rintro rfl
    cases move
    exact ⟨h.queued, h.holding, h.first⟩

theorem reachable_legal {nd : Node T} (h : (machine path option parent).Reachable nd) :
    Legal nd.mbox.log :=
  (stored_owned.reachable (fun h => (reachable_phase h).loc) h).inv

/-- At every moment the first deliveries are the pushes from the front, the other
deliveries are the released stashings from the front, and a first delivery finds
no released message waiting. -/
theorem delivery_order {nd : Node T} (h : (machine path option parent).Reachable nd) :
    (∀ earlier, earlier <+: nd.mbox.log → firsts earlier <+: pushes earlier ∧
      again earlier <+: released earlier ∧ released earlier <+: stashings earlier) ∧
    ∀ before i msg after, nd.mbox.log = before ++ .delivered i .queue msg :: after →
      again before = released before :=
  ⟨fun _ he => ((reachable_legal h).earlier he).prefixes,
    fun before _ _ after hs => (reachable_legal h before _ after hs).2⟩

theorem delivery_order_stashing :
    (∀ earlier, earlier <+: stashingNode.mbox.log → firsts earlier <+: pushes earlier ∧
      again earlier <+: released earlier ∧ released earlier <+: stashings earlier) ∧
    ∀ before i msg after, stashingNode.mbox.log = before ++ .delivered i .queue msg :: after →
      again before = released before :=
  delivery_order (Reach.exec_reachable .start stashingNode_run)

end Node

end Ruactor
