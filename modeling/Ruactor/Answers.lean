import Ruactor.Finality
import Ruactor.Panics

/-!
# No watcher is lost

A `Watch` that was pushed is in the queue, with the task, in the list of watchers, or it
has been answered. When an actor has terminated and everything is quiet the first three
are empty.
-/

namespace Ruactor

open Machine

variable {T : Type} {path : ActorPath} {option : PropsOption} {parent : ParentRef}

def InternalMessage.watcher : InternalMessage → Option ReplyTo
  | .watch w => some w
  | _ => none

def asked (log : List (Event T)) : List ReplyTo :=
  log.filterMap fun
    | .pushedInternal msg => msg.watcher
    | _ => none

def replies (log : List (Event T)) : List ReplyTo :=
  log.filterMap fun
    | .replied w => some w
    | _ => none

def Task.watchers : Task T → List ReplyTo
  | .looping _ (.internalMessage msg) => msg.watcher.toList
  | _ => []

@[simp] theorem asked_append (log log' : List (Event T)) :
    asked (log ++ log') = asked log ++ asked log' := List.filterMap_append

@[simp] theorem replies_append (log log' : List (Event T)) :
    replies (log ++ log') = replies log ++ replies log' := List.filterMap_append

theorem asked_nil {events : List (Event T)} (h : ∀ e ∈ events, e.sent = false) :
    asked events = [] := by
  rw [asked, List.filterMap_eq_nil_iff]
  intro e he
  cases e with
  | pushedInternal msg => cases h _ he
  | _ => rfl

theorem replies_nil {events : List (Event T)} (h : ∀ w, .replied w ∉ events) :
    replies events = [] := by
  rw [replies, List.filterMap_eq_nil_iff]
  intro e he
  cases e with
  | replied w => exact absurd he (h w)
  | _ => rfl

namespace Mailbox

/-- The watchers that have no answer yet, while `t` is the task that runs. -/
def waiting (m : Mailbox T) (t : Task T) : List ReplyTo :=
  t.watchers ++ (m.internalQueue.filterMap InternalMessage.watcher ++ m.dispatcher.watcher)

def Answering (m : Mailbox T) (t : Task T) : Prop :=
  ∀ w, (asked m.log).count w = (replies m.log).count w + (m.waiting t).count w

variable {m m' : Mailbox T} {t t' : Task T}

/-- The watchers of `answered` get their answers in the step. -/
theorem Answering.step (h : m.Answering t) {events : List (Event T)} {answered : List ReplyTo}
    (hlog : m'.log = m.log ++ events) (hasked : asked events = [])
    (hreplies : replies events = answered)
    (hwaiting : (m.waiting t).Perm (answered ++ m'.waiting t')) : m'.Answering t' := by
  intro w
  have hw := h w
  rw [hwaiting.count_eq, List.count_append] at hw
  simp only [hlog, asked_append, replies_append, hasked, hreplies, List.append_nil,
    List.count_append]
  omega

theorem Answering.same (h : m.Answering t) (hlog : m'.log = m.log)
    (hwaiting : m'.waiting t' = m.waiting t) : m'.Answering t' := by
  have hnone : m'.log = m.log ++ [] := by rw [hlog, List.append_nil]
  exact h.step hnone rfl rfl (.of_eq hwaiting.symm)

theorem Answering.called (h : m.Answering t) {events : List (Event T)}
    (hlog : m'.log = m.log ++ events) (hlogs : ∀ e ∈ events, m.Logs t e) (ht : t.calls = true)
    (hwaiting : m'.waiting t' = m.waiting t) : m'.Answering t' := by
  refine h.step hlog (asked_nil fun e he => (hlogs e he).unsent) (replies_nil fun w hw => ?_)
    (.of_eq hwaiting.symm)
  cases hlogs _ hw with
  | called _ hcalled _ _ => cases hcalled
  | answered _ | drained _ | replied _ => cases ht

/-- Callbacks that return leave the list of watchers alone. -/
theorem watcher_kept {input : TaskInput T} {next : Task T} {o : Outcome (Cell T)} {r : TaskStep T}
    (hcalm : Calm input.calls) (hf : m.finish next o = some r)
    (ho : o.Ensures (fun c => c.disp.watcher = m.dispatcher.watcher) fun _ => ¬ Calm input.calls) :
    r.next = some next ∧ r.mbox.internalQueue = m.internalQueue ∧
      r.mbox.dispatcher.watcher = m.dispatcher.watcher := by
  obtain ⟨c, hc, hm, hn⟩ | ⟨c, hc, -⟩ := finish_ensures hf ho
  · exact ⟨hn, by rw [hm]; rfl, by rw [hm]; exact hc⟩
  · exact absurd hcalm hc

theorem startActor_watcher {input : TaskInput T} (hparent : m.dispatcher.parent ≠ none)
    (h : m.Rest) : (m.cell input).startActor.Ensures
      (fun c => c.disp.watcher = m.dispatcher.watcher) fun _ => ¬ Calm input.calls := by
  rcases h with hf | hl | hg
  · exact (Cell.startActor_fresh hf.context hf.actor).mono (fun _ hc => hc.framed.watcher)
      fun _ => id
  · obtain ⟨context, hcontext, -⟩ := hl.context
    obtain ⟨actor, hactor⟩ := Option.ne_none_iff_exists'.mp hl.actor
    rw [Cell.startActor_live (c := m.cell input) hcontext hactor]
    rfl
  · exact absurd hg.parent hparent

theorem Move.answering {input : TaskInput T} {r : TaskStep T} (move : m.Move input t r)
    (hact : t.active = true) (hcalm : Calm input.calls) (hphase : m.Phase t)
    (h : m.Answering t) : ∀ t' ∈ r.next, r.mbox.Answering t' := by
  have finished : ∀ {next o}, m.finish next o = some r → t.calls = true → t.watchers = [] →
      next.watchers = [] →
      o.Ensures (fun c => c.disp.watcher = m.dispatcher.watcher) (fun _ => ¬ Calm input.calls) →
      ∀ t' ∈ r.next, r.mbox.Answering t' := by
    intro next o hf hcalls ht hnext ho t' ht'
    obtain ⟨hn, hqueue, hwatcher⟩ := watcher_kept hcalm hf ho
    obtain ⟨events, hlog, hlogs⟩ := move.logs hphase
    obtain rfl := Option.some.inj (hn.symm.trans ht')
    exact h.called hlog hlogs hcalls (by simp [waiting, ht, hnext, hqueue, hwatcher])
  intro t' ht'
  cases move with
  | start hparent hf =>
    exact finished hf rfl rfl rfl (startActor_watcher (by simp [hparent]) hphase) t' ht'
  | process hf =>
    obtain ⟨-, -, hactor, context, hcontext, -⟩ := hphase
    exact finished hf rfl rfl rfl ((Cell.processMessage_ready (c := m.cell input) hcontext hactor
      _ _ _).mono (fun _ hc => hc.framed.watcher) fun _ => id) t' ht'
  | terminate hf =>
    obtain ⟨-, -, -, context, hcontext, -⟩ := hphase
    exact finished hf rfl rfl rfl ((Cell.terminateActor_framed (c := m.cell input) hcontext).mono
      (fun _ hc => hc.watcher) fun _ => id) t' ht'
  | childUnwind _ | closingUnwind _ | userUnwind _ _ => cases ht'
  | someUser _ | noUser _ | accepting _ | closed _ | someInternal _ | done _ => cases hact
  | drainWatch hqueue =>
    cases ht'
    refine h.step rfl rfl rfl (.of_eq ?_)
    simp only [waiting, Task.watchers, hqueue]
    rfl
  | @drain msg rest hqueue hnot =>
    cases ht'
    have hnone : msg.watcher = none := by
      cases msg with
      | watch w => exact absurd rfl (hnot w)
      | _ => rfl
    exact h.same rfl (by simp [waiting, Task.watchers, hqueue, hnone])
  | @popInternal n context msg rest _ hqueue =>
    cases ht'
    refine h.same rfl ?_
    cases msg <;> simp [waiting, Task.watchers, hqueue, InternalMessage.watcher,
      List.filterMap_cons]
  | watchClosed _ =>
    cases ht'
    exact h.step rfl rfl rfl (.refl _)
  | @watch n w _ =>
    cases ht'
    refine h.step (List.append_nil _).symm rfl (rfl : _ = []) ?_
    have hperm := @List.perm_append_comm _ [w]
      (m.internalQueue.filterMap InternalMessage.watcher ++ m.dispatcher.watcher)
    simpa [waiting, Task.watchers, InternalMessage.watcher] using hperm
  | reply =>
    cases ht'
    refine h.step rfl (asked_nil fun e he => ?_) (?_ : _ = m.dispatcher.watcher) ?_
    · simp only [List.mem_append, List.mem_map] at he
      obtain ⟨w, -, rfl⟩ | ⟨handle, -, rfl⟩ := he <;> rfl
    · simp [replies, List.filterMap_append, List.filterMap_map]
    · simpa [waiting, Task.watchers] using List.perm_append_comm
  | close | stop _ | notify _ =>
    cases ht'
    exact h.step rfl rfl rfl (.refl _)
  | _ =>
    cases ht'
    exact h

theorem Env.answering (henv : m.Env m') (h : m.Answering t) : m'.Answering t := by
  cases henv with
  | same | tick _ => exact h
  | rejected _ | watchReturned _ _ | pushed _ _ => exact h.step rfl rfl rfl (.refl _)
  | pushedInternal msg =>
    intro w
    have hw := h w
    simp only [waiting, pushInternal, List.count_append, List.filterMap_append, asked_append,
      replies_append] at hw ⊢
    have hmsg : asked [(.pushedInternal msg : Event T)] =
        [msg].filterMap InternalMessage.watcher := by cases msg <;> rfl
    rw [hmsg]
    simp only [replies, List.filterMap_cons, List.filterMap_nil, List.count_nil] at hw ⊢
    omega

end Mailbox

namespace Node

theorem answering_owned : Owned path option parent (fun _ _ input => Calm input.calls)
    (Mailbox.Phase (T := T)) Mailbox.Answering (fun m => m.Answering .storing)
    (fun _ => True) where
  start := ⟨fun _ => rfl, trivial⟩
  env henv := ⟨id, henv.answering, fun _ _ => henv.answering⟩
  acquire _ := ⟨id, id⟩
  move {m input t r} move hact hcalm hphase h _ := by
    refine ⟨trivial, fun t' ht' => ⟨fun _ => move.answering hact hcalm hphase h t' ht', ?_⟩⟩
    rintro rfl
    cases move
    exact h

/-- Each `Watch` that was pushed has one answer. -/
theorem watchers_answered {nd : Node T} (h : (machine path option parent).Reach calm nd)
    (hq : Quiescent nd) (hleft : .terminating ∈ nd.mbox.log) :
    (asked nd.mbox.log).Perm (replies nd.mbox.log) := by
  have hcovered := reach_covered (calm_reach h)
  have hidle : nd.mbox.running = false := by
    by_contra hr
    obtain ⟨t, hmem, -⟩ := hcovered.held (by simpa using hr)
    simp [hq.1] at hmem
  have hparent := (reachable_leaving h.reachable).rest hidle hleft
  have hwatcher : nd.mbox.dispatcher.watcher = [] := by
    rcases (reachable_phase h.reachable).rest hidle with hf | hl | hg
    · exact hf.watcher
    · exact absurd hparent hl.parent
    · exact hg.watcher
  have hrest := (answering_owned.reach (fun h => (reachable_phase h).loc) h).rest hidle
  refine List.perm_iff_count.mpr fun w => ?_
  simpa [Mailbox.waiting, Task.watchers, hcovered.internal_nil hq, hwatcher] using hrest w

theorem watchers_answered_ended :
    (asked endedNode.mbox.log).Perm (replies endedNode.mbox.log) :=
  watchers_answered (Reach.exec .start (by decide +kernel) endedNode_run) (by decide +kernel)
    (by decide +kernel)

end Node

end Ruactor
