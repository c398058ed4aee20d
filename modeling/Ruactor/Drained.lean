import Ruactor.Graceful

/-!
# What a graceful stop delivers

A mailbox that is asked to stop by pills alone is closed because of the first of them.
The task has processed what was pushed before that pill, and takes nothing more.
-/

namespace Ruactor

open Machine History

variable {T : Type} {path : ActorPath} {option : PropsOption} {parent : ParentRef}

/-- The call sends a `Terminate`. -/
def Call.terminates (option : PropsOption) : Call T → Bool
  | .stop => true
  | .waitStop _ => !option.gracefulStop
  | _ => false

theorem Client.scheduled_watching {client c : Client T} (h : c ∈ client.scheduled) :
    ∃ w, c = .watching w := by
  cases client with
  | scheduling watch =>
    cases watch <;> cases h
    exact ⟨_, rfl⟩
  | _ => cases h

namespace Mailbox

variable {m m' : Mailbox T}

theorem Move.stopsSelf {input : TaskInput T} {t : Task T} {r : TaskStep T} (move : m.Move input t r)
    (h : .stoppingSelf ∈ r.clients) : .stopSelf ∈ r.mbox.log := by
  have stops : ∀ {log : List (Event T)}, .stoppingSelf ∈ selfStops log → .stopSelf ∈ log := by
    intro log hmem
    obtain ⟨e, he, hc⟩ := List.mem_filterMap.mp hmem
    cases e <;> cases hc
    exact he
  cases move with
  | start _ hf | terminate hf | process hf =>
    obtain ⟨c, -, -, hm, -, hclients⟩ | ⟨c, -, -, hm, -, hclients⟩ := finish_cases hf
    · rw [hm]
      exact List.mem_append_right _ (stops (hclients ▸ h))
    · rw [hm]
      exact List.mem_append_left _ (List.mem_append_right _ (stops (hclients ▸ h)))
  | _ => cases h

/-- A mailbox that is closed, or about to be, has been sent a `Terminate`. -/
def Bidden (m : Mailbox T) : Prop :=
  m.terminated = true ∨ .terminate ∈ m.internalQueue → .pushedInternal .terminate ∈ m.log

def InHand (m : Mailbox T) (t : Task T) : Prop :=
  ∀ n, t = .looping n (.internalMessage .terminate) → .pushedInternal .terminate ∈ m.log

theorem Move.bidden {input : TaskInput T} {t : Task T} {r : TaskStep T} (move : m.Move input t r)
    (hhand : m.InHand t) (h : m.Bidden) : r.mbox.Bidden ∧ ∀ t' ∈ r.next, r.mbox.InHand t' := by
  obtain ⟨events, hlog⟩ := move.log
  have later : ∀ {e : Event T}, e ∈ m.log → e ∈ r.mbox.log := fun he => by simp [hlog, he]
  have keep : r.mbox.terminated = m.terminated →
      (.terminate ∈ r.mbox.internalQueue → .terminate ∈ m.internalQueue) → r.mbox.Bidden :=
    fun hflag hqueue hasked => later (h (hasked.imp hflag.symm.trans hqueue))
  cases move with
  | close =>
    have hpushed := later (hhand _ rfl)
    exact ⟨fun _ => hpushed, fun _ _ _ _ => hpushed⟩
  | @popInternal n context msg rest _ hqueue =>
    refine ⟨keep rfl fun hmem => hqueue ▸ List.mem_cons_of_mem _ hmem, ?_⟩
    rintro t' ⟨⟩ n' ht'
    cases ht'
    exact h (.inr (by simp [hqueue]))
  | start _ hf | terminate hf | process hf =>
    obtain ⟨c, -, -, hm, hn, -⟩ | ⟨c, -, -, hm, hn, -⟩ := finish_cases hf <;>
      refine ⟨keep (by rw [hm]; rfl) (by rw [hm]; exact id), fun t' ht' => ?_⟩ <;>
      rw [hn] at ht' <;> cases ht'
    exact nofun
  | drainWatch hqueue | drain hqueue _ =>
    refine ⟨keep rfl fun hmem => hqueue ▸ List.mem_cons_of_mem _ hmem, ?_⟩
    rintro t' ⟨⟩
    exact nofun
  | done _ | childUnwind _ | closingUnwind _ | userUnwind _ _ => exact ⟨keep rfl id, nofun⟩
  | _ =>
    refine ⟨keep rfl id, ?_⟩
    rintro t' ⟨⟩
    exact nofun

theorem Env.bidden (henv : m.Env m') (h : m.Bidden) : m'.Bidden := by
  cases henv with
  | same | tick _ => exact h
  | rejected _ | watchReturned _ _ | pushed _ _ =>
    exact fun hasked => List.mem_append_left _ (h hasked)
  | pushedInternal msg =>
    rintro (hclosed | hqueue)
    · exact List.mem_append_left _ (h (.inl hclosed))
    · rcases List.mem_append.mp hqueue with hqueue | hnew
      · exact List.mem_append_left _ (h (.inr hqueue))
      · exact List.mem_append_right _ (by simpa using hnew)

end Mailbox

namespace Node

theorem bidden_owned : Owned path option parent anyTask (fun (_ : Mailbox T) _ => True)
    Mailbox.InHand (fun _ => True) Mailbox.Bidden where
  start := ⟨trivial, by simp [Mailbox.Bidden, Mailbox.new]⟩
  env henv := by
    obtain ⟨events, hlog⟩ := henv.log
    exact ⟨henv.bidden, id, fun t _ h n ht => by simp [hlog, h n ht]⟩
  acquire _ := ⟨id, fun _ => nofun⟩
  move move _ _ _ h hb := by
    obtain ⟨hbidden, hnext⟩ := move.bidden h hb
    exact ⟨hbidden, fun t' ht' => ⟨fun _ => hnext t' ht', fun _ => trivial⟩⟩

/-- The step asks the actor to stop by a pill, or not at all. -/
def graceful (nd : Node T) : Action T → Prop
  | .call call => call.terminates nd.mbox.option = false
  | .deliver msg => msg ≠ .terminate
  | .task i input => okTask (fun _ _ input =>
      Calm input.calls ∧ Cell.Within (fun op => op ≠ .stopSelf) input.calls) nd (.task i input)
  | _ => True

instance [DecidableEq T] (calls : List (Callback T)) :
    Decidable (Cell.Within (fun op => op ≠ .stopSelf) calls) :=
  inferInstanceAs (Decidable (∀ cb ∈ calls, ∀ op ∈ cb.ops, op ≠ .stopSelf))

instance [DecidableEq T] (nd : Node T) (a : Action T) : Decidable (graceful nd a) :=
  match a with
  | .call _ => inferInstanceAs (Decidable (_ = false))
  | .deliver msg => inferInstanceAs (Decidable (msg ≠ .terminate))
  | .task i input => okTask.decidable (fun _ _ input =>
      Calm input.calls ∧ Cell.Within (fun op => op ≠ .stopSelf) input.calls) nd (.task i input)
  | .client _ | .tick _ => isTrue trivial

theorem graceful_drawn (nd : Node T) (a : Action T) (ok : graceful nd a) :
    calm nd a ∧ okTask (fun _ _ input =>
      True → Cell.Within (fun op => op ≠ .stopSelf) input.calls) nd a := by
  cases a with
  | task i input => exact ⟨fun t hi => (ok t hi).1, fun t hi _ => (ok t hi).2⟩
  | _ => exact ⟨trivial, trivial⟩

/-- A `Terminate` comes from a pill that was processed. -/
structure Willed (nd : Node T) : Prop where
  clients : ∀ watch, .pushingInternal .terminate watch ∉ nd.clients
  own : .stoppingSelf ∈ nd.clients → .stopSelf ∈ nd.mbox.log
  pushed : .pushedInternal .terminate ∈ nd.mbox.log → .stopSelf ∈ nd.mbox.log

theorem start_willed {option : PropsOption} {call : Call T}
    (h : call.terminates option = false) (watch : Option ReplyTo) :
    call.start option ≠ .pushingInternal .terminate watch := by
  cases call with
  | stop => cases h
  | waitStop w =>
    have hoption : option.gracefulStop = true := by simpa [Call.terminates] using h
    simp [Call.start, hoption]
  | _ => simp [Call.start]

theorem Access.willed {m m' : Mailbox T} {client : Client T} {next : Option (Client T)}
    (h : m.Access client next m') : ∀ c ∈ next,
      c ≠ .stoppingSelf ∧ ∀ watch, c ≠ .pushingInternal .terminate watch := by
  intro c hc
  cases h with
  | refuse _ | full _ =>
    rename_i watch _
    cases watch <;> cases hc
    exact ⟨nofun, nofun⟩
  | unwatched _ => cases hc
  | _ =>
    cases hc
    exact ⟨nofun, nofun⟩

theorem Access.pushes_terminate {m m' : Mailbox T} {client : Client T} {next : Option (Client T)}
    (h : m.Access client next m') (hpushed : .pushedInternal .terminate ∈ m'.log) :
    .pushedInternal .terminate ∈ m.log ∨ client = .stoppingSelf ∨
      ∃ watch, client = .pushingInternal .terminate watch := by
  cases h with
  | @pushInternal msg watch =>
    rcases List.mem_append.mp hpushed with hold | hnew
    · exact .inl hold
    · obtain rfl : .terminate = msg := by simpa using hnew
      exact .inr (.inr ⟨watch, rfl⟩)
  | stopSelf => exact .inr (.inl rfl)
  | accept _ | watch _ => exact .inl hpushed
  | _ => exact .inl (by simpa [Mailbox.emit] using hpushed)

theorem Move.willed {nd nd' : Node T} {a : Action T}
    (hr : (machine path option parent).Reachable nd) (ok : graceful nd a) (hm : Move nd a nd')
    (h : Willed nd) : Willed nd' := by
  cases hm with
  | tick => exact ⟨h.clients, h.own, h.pushed⟩
  | @call c =>
    refine ⟨fun watch hmem => ?_, fun hmem => h.own ?_, h.pushed⟩
    · rcases List.mem_append.mp hmem with hold | hnew
      · exact h.clients watch hold
      · exact start_willed ok watch (List.mem_singleton.mp hnew).symm
    · refine (List.mem_append.mp hmem).resolve_right fun hnew => ?_
      have hown := start_own nd.mbox.option c
      rw [← List.mem_singleton.mp hnew] at hown
      cases hown
  | @deliver msg =>
    have hne : msg ≠ .terminate := ok
    refine ⟨fun watch hmem => h.clients watch ?_, fun hmem => ?_, fun hpushed => ?_⟩
    · simpa [Node.deliver] using hmem
    · exact List.mem_append_left _ (h.own (by simpa [Node.deliver] using hmem))
    · refine List.mem_append_left _ (h.pushed ?_)
      simpa [Node.deliver, Mailbox.pushInternal, hne.symm] using hpushed
  | @access i before client after next mbox _ hs hacc =>
    have hclient : client ∈ nd.clients := by simp [hs]
    have others : ∀ {c}, c ∈ before ++ (next.toList ++ after) →
        c ∈ nd.clients ∨ c ∈ next := by
      intro c hc
      simp only [List.mem_append, Option.mem_toList] at hc
      rcases hc with hc | hc | hc
      · exact .inl (by simp [hs, hc])
      · exact .inr hc
      · exact .inl (by simp [hs, hc])
    have later := hacc.env.stopSelf.mpr
    refine ⟨fun watch hmem => ?_, fun hmem => later ?_, fun hpushed => later ?_⟩
    · rcases others hmem with hold | hnew
      · exact h.clients watch hold
      · exact (Access.willed hacc _ hnew).2 watch rfl
    · exact h.own ((others hmem).resolve_right fun hnew => (Access.willed hacc _ hnew).1 rfl)
    · rcases Access.pushes_terminate hacc hpushed with hold | rfl | ⟨watch, rfl⟩
      · exact h.pushed hold
      · exact h.own hclient
      · exact absurd hclient (h.clients watch)
  | @schedule i before client after hs hpending =>
    have others : ∀ {c}, c ∈ before ++ (client.scheduled.toList ++ after) →
        c ∈ nd.clients ∨ ∃ w, c = .watching w := by
      intro c hc
      simp only [List.mem_append, Option.mem_toList] at hc
      rcases hc with hc | hc | hc
      · exact .inl (by simp [hs, hc])
      · exact .inr (Client.scheduled_watching hc)
      · exact .inl (by simp [hs, hc])
    have hlog := schedule_log nd
    refine ⟨fun watch hmem => ?_, fun hmem => ?_, fun hpushed => ?_⟩
    · rcases others hmem with hold | ⟨w, hw⟩
      · exact h.clients watch hold
      · cases hw
    · refine hlog.symm ▸ h.own ((others hmem).resolve_right ?_)
      rintro ⟨w, hw⟩
      cases hw
    · exact hlog.symm ▸ h.pushed (hlog ▸ hpushed)
  | reschedule _ _ =>
    refine ⟨fun watch => ?_, fun hmem => ?_, fun hpushed => ?_⟩
    · rw [schedule_clients]
      exact h.clients watch
    · rw [schedule_clients] at hmem
      rw [schedule_log]
      exact h.own hmem
    · rw [schedule_log] at hpushed ⊢
      exact h.pushed hpushed
  | @task i input before t after r hi hs hstep _ =>
    have move := Mailbox.taskStep_move hstep
    obtain ⟨events, hlog, hlogs⟩ := move.logs (phase_of_mem hr (List.mem_of_getElem? hi))
    have later : .stopSelf ∈ nd.mbox.log → .stopSelf ∈ r.mbox.log := fun hs => by simp [hlog, hs]
    refine ⟨fun watch hmem => ?_, fun hmem => ?_, fun hpushed => ?_⟩
    · rcases List.mem_append.mp hmem with hold | hnew
      · exact h.clients watch hold
      · cases move.clients _ hnew
    · rcases List.mem_append.mp hmem with hold | hnew
      · exact later (h.own hold)
      · exact move.stopsSelf hnew
    · have hmem : .pushedInternal .terminate ∈ nd.mbox.log ++ events := hlog ▸ hpushed
      rcases List.mem_append.mp hmem with hold | hnew
      · exact later (h.pushed hold)
      · cases (hlogs _ hnew).unsent

theorem reach_willed {nd : Node T} (h : (machine path option parent).Reach graceful nd) :
    Willed nd :=
  h.invariant ⟨fun _ => List.not_mem_nil, fun hmem => absurd hmem List.not_mem_nil,
    fun hmem => absurd hmem List.not_mem_nil⟩
    fun hr hs ok hstep => (step_move hstep).willed hr.reachable ok hs

theorem firsts_nil {events : List (Event T)} (h : ∀ e ∈ events, e.handles = false) :
    firsts events = [] := by
  rw [firsts, List.filterMap_eq_nil_iff]
  intro e he
  have hnone := h e he
  cases e <;> first | rfl | cases hnone

/-- What the actor has been given, by what was pushed before the first pill. -/
theorem reach_given {nd : Node T} (h : (machine path option parent).Reach graceful nd)
    {before after : List (Event T)} (hlog : nd.mbox.log = before ++ .pushed .poisonPill :: after)
    (hfirst : .pushed .poisonPill ∉ before) :
    ∃ done, done <+: accepted before ∧ firsts nd.mbox.log = users done ∧
      (handed nd.mbox.log).Sublist (done.filterMap Message.seen) ∧
      (nd.mbox.terminated = true ∨ Quiescent nd → done = accepted before) := by
  have hcalm := h.mono fun nd a ok => (graceful_drawn nd a ok).1
  obtain ⟨t, done, hdrawn, hstored, hflowing, hidle⟩ := reach_drawn True (h.mono graceful_drawn)
  have haccepted : done ++ (t.taken ++ nd.mbox.messageQueue.items) =
      accepted before ++ .poisonPill :: accepted after := by
    rw [← hdrawn.accepted, hlog, accepted_append]
    rfl
  have hnone : .poisonPill ∉ accepted before := fun hmem => hfirst (mem_accepted.mp hmem)
  have hfirsts : firsts nd.mbox.log = users done := by
    have hqueued := hstored.queued
    rw [← users_accepted, hdrawn.accepted, users_append, users_append, Task.users_taken] at hqueued
    exact (List.append_cancel_right hqueued).symm
  have hhanded : (handed nd.mbox.log).Sublist (done.filterMap Message.seen) := by
    have hflow := hflowing.flow.handed
    rw [hdrawn.accepted, @List.filterMap_append _ _ done] at hflow
    exact (List.append_sublist_append_right _).mp hflow
  -- a closed mailbox has been closed because of a pill
  have hclosed : nd.mbox.terminated = true → .poisonPill ∈ done := by
    intro hclosed
    have hbidden := (bidden_owned.reachable (fun _ _ _ _ => trivial) h.reachable).inv (.inl hclosed)
    exact hdrawn.met trivial ((reach_willed h).pushed hbidden)
  by_cases hmet : .poisonPill ∈ done
  · obtain ⟨-, -, earlier, rfl, hearlier⟩ := hdrawn.last hmet
    obtain rfl : earlier = accepted before :=
      first_unique (by simpa using haccepted) hearlier hnone
    refine ⟨_, List.prefix_rfl, ?_, ?_, fun _ => rfl⟩
    · rw [hfirsts, users_append]
      exact List.append_nil _
    · rw [List.filterMap_append] at hhanded
      simpa [List.filterMap_cons, Message.seen] using hhanded
  · refine ⟨done, prefix_of_not_mem haccepted hmet, hfirsts, hhanded, ?_⟩
    rintro (hterminated | hq)
    · exact absurd (hclosed hterminated) hmet
    · obtain rfl := hidle hq.1
      have hwaits : .poisonPill ∈ nd.mbox.messageQueue.items := by
        have hmem : .poisonPill ∈ done ++ (Task.storing.taken ++ nd.mbox.messageQueue.items) := by
          simp [haccepted]
        simpa [hmet, Task.taken] using hmem
      by_cases hterminated : nd.mbox.terminated = true
      · exact absurd (hclosed hterminated) hmet
      · have hempty := (reach_covered (calm_reach hcalm)).user_nil hq (by simpa using hterminated)
        simp [hempty] at hwaits

/-- The actor is given what was pushed before the first pill, from the front, and nothing
that was pushed after it. It has been given all of that when `terminate` begins, and where
nothing runs any more. -/
theorem graceful_stop_prefix {nd : Node T} (h : (machine path option parent).Reach graceful nd)
    {before after : List (Event T)} (hlog : nd.mbox.log = before ++ .pushed .poisonPill :: after)
    (hfirst : .pushed .poisonPill ∉ before) :
    firsts nd.mbox.log <+: pushes before ∧
    (handed nd.mbox.log).Sublist ((accepted before).filterMap Message.seen) ∧
    (∀ earlier later, nd.mbox.log = earlier ++ .terminating :: later →
      firsts earlier = pushes before) ∧
    (Quiescent nd → firsts nd.mbox.log = pushes before) := by
  obtain ⟨done, hdone, hfirsts, hhanded, hall⟩ := reach_given h hlog hfirst
  have hcomplete : nd.mbox.terminated = true ∨ Quiescent nd →
      firsts nd.mbox.log = pushes before := fun hend => by
    rw [hfirsts, hall hend, users_accepted]
  refine ⟨?_, hhanded.trans (hdone.sublist.filterMap _), ?_, fun hq => hcomplete (.inr hq)⟩
  · rw [hfirsts, ← users_accepted]
    exact hdone.filterMap _
  · intro earlier later hterminating
    have hfinal := reachable_final h.reachable
    have hclosed : nd.mbox.terminated = true := hfinal.closed.mp <| by
      rw [hterminating]
      exact List.mem_append_left _ (hfinal.left _ _ _ hterminating rfl)
    have hnone : firsts (.terminating :: later) = [] :=
      firsts_nil (List.forall_mem_cons.mpr ⟨rfl, unhandled_after h.reachable hterminating⟩)
    have happend : firsts (earlier ++ .terminating :: later) =
        firsts earlier ++ firsts (.terminating :: later) := List.filterMap_append
    rw [← hcomplete (.inl hclosed), hterminating, happend, hnone, List.append_nil]

theorem graceful_stop_prefix_pill :
    firsts pillNode.mbox.log <+: [1] ∧
    (handed pillNode.mbox.log).Sublist [.user 1] ∧
    (∀ earlier later, pillNode.mbox.log = earlier ++ .terminating :: later →
      firsts earlier = [1]) ∧
    (Quiescent pillNode → firsts pillNode.mbox.log = [1]) :=
  graceful_stop_prefix (Reach.exec .start (by decide +kernel) pillNode_run)
    (show pillNode.mbox.log =
      [.pushed (.user 1)] ++ .pushed .poisonPill :: pillNode.mbox.log.drop 2 by decide +kernel)
    (by decide +kernel)

end Node

end Ruactor
