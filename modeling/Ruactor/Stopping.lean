import Ruactor.Kinship
import Ruactor.Logging

/-!
# Stopping the children

A `Terminate` that was pushed is in the queue, or with the task, or it has closed the
mailbox. A closed mailbox has stopped every child that is left in its map, once the
loop over the map is through.
-/

namespace Ruactor

open Machine

variable {T : Type} {path : ActorPath} {option : PropsOption} {parent : ParentRef}

namespace Mailbox

/-- Each child in the map of a closed mailbox has been stopped, or it is in `rest`. -/
def StoppedBut (m : Mailbox T) (rest : List ChildId) : Prop :=
  m.terminated = true → ∀ context name entry, m.dispatcher.context = some context →
    context.childrens.lookup name = some entry →
      entry.child ∈ rest ∨ .stopped entry.child ∈ m.log

def Stopping (m : Mailbox T) : Task T → Prop
  | .looping _ stage =>
    match stage with
    | .closing | .terminating | .notifying | .replying => True
    | .stopping rest => m.StoppedBut rest
    | _ => m.StoppedBut []
  | _ => m.StoppedBut []

def StopsClosed (m : Mailbox T) : Prop := ∀ k, .stopped k ∈ m.log → m.terminated = true

variable {m m' : Mailbox T} {rest : List ChildId}

theorem StoppedBut.same (h : m.StoppedBut rest) (hterminated : m'.terminated = m.terminated)
    (hcontext : ∀ context', m'.dispatcher.context = some context' → ∃ context,
      m.dispatcher.context = some context ∧ ∀ name entry,
        context'.childrens.lookup name = some entry → context.childrens.lookup name = some entry)
    (hlog : ∀ k, .stopped k ∈ m.log → .stopped k ∈ m'.log) : m'.StoppedBut rest := by
  intro hclosed context' name entry hcontext' hlookup
  obtain ⟨context, hsome, hsub⟩ := hcontext context' hcontext'
  exact (h (hterminated ▸ hclosed) context name entry hsome (hsub name entry hlookup)).imp_right
    (hlog _)

theorem StoppedBut.of_open (h : m.terminated = false) : m.StoppedBut rest :=
  fun hclosed => absurd (h.symm.trans hclosed) (by simp)

theorem mem_eraseIdx_or {rest : List ChildId} {i : Nat} {k child : ChildId} (hk : k ∈ rest)
    (hi : rest[i]? = some child) : k = child ∨ k ∈ rest.eraseIdx i := by
  obtain ⟨j, hj⟩ := List.mem_iff_getElem?.mp hk
  by_cases hij : j = i
  · subst hij
    exact .inl (Option.some.inj (hj.symm.trans hi))
  · exact .inr (List.mem_eraseIdx_iff_getElem?.mpr ⟨j, hij, hj⟩)

theorem Move.stopping {input : TaskInput T} {t : Task T} {r : TaskStep T}
    (move : m.Move input t r) (hact : t.active = true) (hphase : m.Phase t) (h : m.Stopping t) :
    ∀ t' ∈ r.next, t'.active = true → r.mbox.Stopping t' := by
  have keep : ∀ {m' : Mailbox T}, m'.terminated = m.terminated →
      m'.dispatcher.context = m.dispatcher.context →
      (∀ k, .stopped k ∈ m.log → .stopped k ∈ m'.log) → m.StoppedBut [] → m'.StoppedBut [] :=
    fun hterminated hcontext hlog hs => hs.same hterminated
      (fun context' hcontext' => ⟨context', hcontext ▸ hcontext', fun _ _ => id⟩) hlog
  intro t' ht' hact'
  cases move with
  | childUnwind _ | closingUnwind _ | userUnwind _ _ => cases ht'
  | someUser _ | noUser _ | accepting _ | closed _ | someInternal _ | done _ => cases hact
  | store =>
    cases ht'
    cases hact'
  | close | childless _ _ | childLast _ _ _ | notify _ | orphan _ =>
    cases ht'
    trivial
  | terminate hf =>
    obtain ⟨c, -, -, -, hn, -⟩ | ⟨c, -, -, -, hn, -⟩ := finish_cases hf <;>
      rw [hn] at ht' <;> cases ht'
    trivial
  | start hparent hf =>
    rcases hphase with hfresh | hlive | hgone
    · obtain ⟨c, -, -, hm, hn, -⟩ | ⟨c, -, -, -, hn, -⟩ := finish_cases hf <;>
        rw [hn] at ht' <;> cases ht'
      exact hm ▸ StoppedBut.of_open hfresh.accepting
    · obtain ⟨context, hcontext, -⟩ := hlive.context
      obtain ⟨actor, hactor⟩ := Option.ne_none_iff_exists'.mp hlive.actor
      rw [Cell.startActor_live (c := m.cell input) hcontext hactor] at hf
      obtain ⟨c, hc, -, hm, hn, -⟩ | ⟨c, hc, -⟩ := finish_cases hf <;> cases hc
      rw [hn] at ht'
      cases ht'
      exact hm ▸ keep rfl rfl (fun _ => List.mem_append_left _) h
    · exact absurd hgone.parent (by simp [hparent])
  | process hf =>
    obtain ⟨c, -, -, hm, hn, -⟩ | ⟨c, -, -, -, hn, -⟩ := finish_cases hf <;>
      rw [hn] at ht' <;> cases ht'
    exact hm ▸ StoppedBut.of_open hphase.1
  | suspend hcontext _ =>
    cases ht'
    intro _ context name entry hcontext' hlookup
    cases hcontext'
    exact .inl (List.mem_map.mpr ⟨_, AList.mem_lookup_iff.mp hlookup, rfl⟩)
  | stop hpick =>
    cases ht'
    intro hclosed context name entry hcontext hlookup
    rcases h hclosed context name entry hcontext hlookup with hrest | hlog
    · rcases mem_eraseIdx_or hrest hpick with rfl | herased
      · exact .inr (List.mem_append_right _ (List.mem_singleton_self _))
      · exact .inl herased
    · exact .inr (List.mem_append_left _ hlog)
  | childGone hcontext _ =>
    cases ht'
    refine StoppedBut.same h rfl (fun context' hcontext' => ⟨_, hcontext, ?_⟩) fun _ => id
    cases hcontext'
    exact fun _ _ => ActorContext.lookup_of_erase
  | reply =>
    cases ht'
    intro _ context name entry hcontext
    cases hcontext
  | popUnstashed hopen _ _ =>
    cases ht'
    exact StoppedBut.of_open hopen
  | drainWatch _ | watchClosed _ =>
    cases ht'
    exact keep rfl rfl (fun _ => List.mem_append_left _) h
  | _ =>
    cases ht'
    exact h

theorem Move.stopsClosed {input : TaskInput T} {t : Task T} {r : TaskStep T}
    (move : m.Move input t r) (hphase : m.Phase t) (h : m.StopsClosed) : r.mbox.StopsClosed := by
  obtain ⟨events, hlog, hlogs⟩ := move.logs hphase
  have closed : m.terminated = true → r.mbox.terminated = true :=
    fun hclosed => move.flag.elim (fun hsame => hsame.trans hclosed) id
  intro k hk
  rw [hlog] at hk
  rcases List.mem_append.mp hk with hk | hk
  · exact closed (h k hk)
  · cases hlogs _ hk with
    | called _ hcalled _ _ => cases hcalled
    | stopped _ => exact closed hphase.1

theorem Move.terminate_queued {input : TaskInput T} {t : Task T} {r : TaskStep T}
    (move : m.Move input t r) (hphase : m.Phase t) (h : .terminate ∈ m.internalQueue) :
    r.mbox.terminated = true ∨ .terminate ∈ r.mbox.internalQueue ∨
      ∃ n, r.next = some (.looping n (.internalMessage .terminate)) := by
  cases move with
  | drainWatch _ | drain _ _ => exact .inl hphase.closed
  | popInternal _ hqueue =>
    rw [hqueue] at h
    rcases List.mem_cons.mp h with rfl | h
    · exact .inr (.inr ⟨_, rfl⟩)
    · exact .inr (.inl h)
  | start _ hf | terminate hf | process hf =>
    obtain ⟨c, -, -, hm, -⟩ | ⟨c, -, -, hm, -⟩ := finish_cases hf <;> rw [hm] <;>
      exact .inr (.inl h)
  | _ => exact .inr (.inl h)

theorem Env.unstopped (h : m.Env m') : ∀ k, .stopped k ∈ m'.log → .stopped k ∈ m.log := by
  cases h with
  | same | tick _ => exact fun _ => id
  | rejected _ | watchReturned _ _ | pushed _ _ | pushedInternal _ =>
    intro k hk
    rcases List.mem_append.mp hk with hk | hk
    · exact hk
    · simp at hk

end Mailbox

namespace Node

theorem stopping_owned : Owned path option parent anyTask (Mailbox.Phase (T := T))
    Mailbox.Stopping (fun m => m.StoppedBut []) Mailbox.StopsClosed where
  start := ⟨.of_open rfl, nofun⟩
  env {m m'} henv := by
    obtain ⟨events, hlog⟩ := henv.log
    have keep : ∀ {rest}, m.StoppedBut rest → m'.StoppedBut rest := fun hs =>
      hs.same henv.terminated (fun context hcontext =>
        ⟨context, henv.dispatcher ▸ hcontext, fun _ _ => id⟩) fun k hk => by simp [hlog, hk]
    refine ⟨fun h k hk => henv.terminated.trans (h k (henv.unstopped k hk)), keep, ?_⟩
    intro t _ ht
    cases t with
    | looping n stage => cases stage <;> first | trivial | exact keep ht
    | _ => exact keep ht
  acquire _ := ⟨id, id⟩
  move move hact _ hphase h hs := by
    refine ⟨move.stopsClosed hphase hs, fun t' ht' => ⟨move.stopping hact hphase h t' ht', ?_⟩⟩
    rintro rfl
    cases move
    exact h

theorem reachable_stopping {nd : Node T} (h : (machine path option parent).Reachable nd) :
    Held Mailbox.Stopping (fun m => m.StoppedBut []) Mailbox.StopsClosed nd :=
  stopping_owned.reachable (fun hr => (reachable_phase hr).loc) h

/-- A `Terminate` that was pushed has closed the mailbox, or it will. -/
def Asked (nd : Node T) : Prop :=
  .pushedInternal .terminate ∈ nd.mbox.log → nd.mbox.terminated = true ∨
    .terminate ∈ nd.mbox.internalQueue ∨ ∃ n, .looping n (.internalMessage .terminate) ∈ nd.tasks

theorem Asked.schedule {nd : Node T} (h : Asked nd) : Asked nd.schedule := by
  simp only [Node.schedule]
  split
  · exact h
  · intro hpushed
    rcases h hpushed with hqueue | hclosed | ⟨n, hhand⟩
    · exact .inl hqueue
    · exact .inr (.inl hclosed)
    · exact .inr (.inr ⟨n, List.mem_append_left _ hhand⟩)

theorem Asked.task {nd : Node T} (h : Asked nd) {input : TaskInput T}
    {before after : List (Task T)} {t : Task T} {r : TaskStep T}
    (hs : nd.tasks = before ++ t :: after) (move : nd.mbox.Move input t r)
    (hphase : nd.mbox.Phase t) :
    Asked ⟨r.mbox, before ++ (r.next.toList ++ after), nd.clients ++ r.clients⟩ := by
  obtain ⟨events, hlog, hlogs⟩ := move.logs hphase
  intro hpushed
  have hold : .pushedInternal .terminate ∈ nd.mbox.log := by
    have hp : .pushedInternal .terminate ∈ nd.mbox.log ++ events := hlog ▸ hpushed
    rcases List.mem_append.mp hp with hp | hp
    · exact hp
    · cases hlogs _ hp with
      | called _ hcalled _ _ => cases hcalled
  rcases h hold with hclosed | hqueue | ⟨n, hhand⟩
  · exact .inl (move.flag.elim (fun hsame => hsame.trans hclosed) id)
  · rcases move.terminate_queued hphase hqueue with hclosed | hqueue | ⟨n, hnext⟩
    · exact .inl hclosed
    · exact .inr (.inl hqueue)
    · exact .inr (.inr ⟨n, by simp [hnext]⟩)
  · rw [hs] at hhand
    rcases List.mem_append.mp hhand with hmem | hmem
    · exact .inr (.inr ⟨n, List.mem_append_left _ hmem⟩)
    · rcases List.mem_cons.mp hmem with rfl | hmem
      · cases move
        exact .inl rfl
      · exact .inr (.inr ⟨n, by simp [hmem]⟩)

theorem reachable_asked {nd : Node T} (h : (machine path option parent).Reachable nd) :
    Asked nd := by
  refine h.invariant (fun hpushed => absurd hpushed List.not_mem_nil)
    fun {nd nd' a} hr hs _ hstep => ?_
  have pushed : ∀ {msg : InternalMessage} {clients : List (Client T)},
      Asked ⟨nd.mbox.pushInternal msg, nd.tasks, clients⟩ := by
    intro msg clients hpushed
    rcases List.mem_append.mp hpushed with hpushed | hpushed
    · exact (hs hpushed).imp_right fun h => h.imp_left (List.mem_append_left _)
    · simp only [List.mem_singleton, Event.pushedInternal.injEq] at hpushed
      exact .inr (.inl (hpushed ▸ List.mem_append_right _ (List.mem_singleton_self _)))
  have same : ∀ {clients : List (Client T)} {m : Mailbox T}, m.terminated = nd.mbox.terminated →
      m.internalQueue = nd.mbox.internalQueue →
      (.pushedInternal .terminate ∈ m.log → .pushedInternal .terminate ∈ nd.mbox.log) →
      Asked ⟨m, nd.tasks, clients⟩ := by
    intro clients m hterminated hqueue hlog hpushed
    rw [hterminated, hqueue]
    exact hs (hlog hpushed)
  cases step_move hstep with
  | call | tick => exact hs
  | deliver => exact pushed
  | access _ _ hacc =>
    cases hacc with
    | pushInternal | stopSelf => exact pushed
    | accept _ | watch _ => exact same rfl rfl id
    | _ => exact same rfl rfl fun hp => by simpa [Mailbox.emit] using hp
  | schedule _ => exact hs.schedule
  | @reschedule i input before after _ hs' =>
    refine Asked.schedule fun hpushed => ?_
    refine (hs hpushed).imp_right fun h => h.imp_right ?_
    rintro ⟨n, hhand⟩
    simp only [hs', List.mem_append, List.mem_cons, reduceCtorEq, false_or] at hhand
    exact ⟨n, List.mem_append.mpr hhand⟩
  | @task i input before t after r hi hs' hr' =>
    exact hs.task hs' (Mailbox.taskStep_move hr') (phase_of_mem hr (by simp [hs']))

end Node

end Ruactor
