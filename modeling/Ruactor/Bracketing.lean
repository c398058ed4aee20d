import Ruactor.Lifecycle
import Ruactor.Phases

/-!
# Nested transitions

`check_become`, `on_exit` and `on_enter` call each other. As long as no `on_exit`
asks for a transition, `on_exit` comes back with nothing pending, and the induction
over the nesting goes through: one instance is entered at a time, and it is exited
before its successor is entered. An `on_exit` that does ask has the successor
exited before it was entered.
-/

namespace Ruactor

open Machine

variable {T : Type} {path : ActorPath} {option : PropsOption} {parent : ParentRef}

/-- Callbacks return, and no `on_exit` calls `transit`. -/
def Orderly (calls : List (Callback T)) : Prop :=
  ∀ cb ∈ calls, cb.panics = false ∧ (cb.site = .onExit → ContextOp.transit ∉ cb.ops)

instance [DecidableEq T] (calls : List (Callback T)) : Decidable (Orderly calls) :=
  inferInstanceAs (Decidable (∀ cb ∈ calls, _ ∧ (_ → _)))

/-- The log is accepted with the result `l`, and a pending instance is a new one. -/
structure Alive (l : Life) (rt : Runtime) (context : ActorContext T) (log : List (Event T)) :
    Prop where
  life : life log = some l
  bound : ∀ i ∈ l.instances, i < rt.actors
  pending : ∀ i, context.actor = some i → i < rt.actors ∧ i ∉ l.instances

theorem Event.bookkeeping_unwatched {e : Event T} (h : e.bookkeeping = true) : e.unwatched := by
  cases e <;> first | exact fun _ => rfl | cases h

theorem ContextOp.apply_unwatched (rt : Runtime) (context : ActorContext T) (op : ContextOp T) :
    ∀ e ∈ (op.apply rt context).log, e.unwatched := by
  intro e he
  obtain ⟨msg, -, rfl⟩ | ⟨-, rfl⟩ | hbook := apply_log he
  · exact fun _ => rfl
  · exact fun _ => rfl
  · exact Event.bookkeeping_unwatched hbook

theorem ContextOp.apply_actor (rt : Runtime) (context : ActorContext T) {op : ContextOp T}
    (h : op ≠ .transit) : (op.apply rt context).context.actor = context.actor ∧
      (op.apply rt context).rt.actors = rt.actors :=
  (op.apply_frame rt context).actor h

theorem Alive.apply {l : Life} {rt : Runtime} {context : ActorContext T} {log : List (Event T)}
    (h : Alive l rt context log) (op : ContextOp T) :
    Alive l (op.apply rt context).rt (op.apply rt context).context
      (log ++ (op.apply rt context).log) := by
  have hlife := (life_unwatched log (op.apply_unwatched rt context)).trans h.life
  by_cases hop : op = .transit
  · subst hop
    refine ⟨hlife, fun i hi => Nat.lt_succ_of_lt (h.bound i hi), ?_⟩
    rintro i ⟨⟩
    exact ⟨Nat.lt_succ_self _, fun hi => Nat.lt_irrefl _ (h.bound _ hi)⟩
  · obtain ⟨hactor, hactors⟩ := op.apply_actor rt context hop
    exact ⟨hlife, hactors ▸ h.bound, by rw [hactor, hactors]; exact h.pending⟩

theorem runOps_alive {l : Life} {rt : Runtime} {context : ActorContext T} {log : List (Event T)}
    (h : Alive l rt context log) (ops : List (ContextOp T)) :
    Alive l (runOps rt context ops).rt (runOps rt context ops).context
      (log ++ (runOps rt context ops).log) :=
  runOps_keeps ops rt (fun op _ _ _ _ h => h.apply op) log h

theorem runOps_settled {rt : Runtime} {context : ActorContext T} {ops : List (ContextOp T)}
    (h : ContextOp.transit ∉ ops) (hnone : context.actor = none) :
    (runOps rt context ops).context.actor = none :=
  runOps_keeps (I := fun _ context' _ => context'.actor = none) ops rt
    (fun op hop {rt' context' _} hn =>
      ((op.apply_actor rt' context' fun he => h (he ▸ hop)).1).trans hn) [] hnone

namespace Cell

structure Living (log : List (Event T)) (l : Life) (c : Cell T) : Prop where
  alive : ∃ context, c.disp.context = some context ∧ Alive l c.rt context (log ++ c.log)
  orderly : Orderly c.calls

/-- One instance is entered, and it is the actor of the dispatcher. -/
def Entered (log : List (Event T)) (c : Cell T) : Prop :=
  ∃ past actor, c.Living log ⟨past, some actor, none⟩ ∧ c.disp.actor = some actor

variable {log : List (Event T)}

theorem Living.call {l : Life} {c : Cell T} (h : c.Living log l) (site : Site) {e : Event T}
    (l' : Life) (he : l.step e = some l') (hi : l'.instances = l.instances) :
    (c.call site [e]).Ensures
      (fun c' => c'.Living log l' ∧ c'.disp.actor = c.disp.actor ∧
        (site = .onExit → c.Settled → c'.Settled)) fun _ => False := by
  obtain ⟨context, hcontext, halive⟩ := h.alive
  apply call_ensures
  · intro hnone
    exact absurd (hnone.symm.trans hcontext) (by simp)
  rintro context' cb calls hcontext' hcalls rfl
  obtain rfl := Option.some.inj (hcontext.symm.trans hcontext')
  obtain ⟨hreturns, hexit⟩ := h.orderly cb (by simp [hcalls])
  refine ⟨fun _ => ⟨⟨⟨_, rfl, ?_⟩, ?_⟩, rfl, ?_⟩, fun hp => by simp [hreturns] at hp⟩
  · have hstep : Alive l' c.rt context (log ++ c.log ++ [e]) := by
      refine ⟨?_, hi ▸ halive.bound, hi ▸ halive.pending⟩
      rw [life_snoc, halive.life]
      exact he
    simpa [Cell.ran, Cell.apply, emit] using runOps_alive hstep cb.ops
  · intro cb' hcb'
    exact h.orderly cb' (hcalls ▸ List.mem_cons_of_mem _ hcb')
  · rintro hsite ⟨context', hcontext'', hnone⟩
    obtain rfl := Option.some.inj (hcontext.symm.trans hcontext'')
    exact ⟨_, rfl, runOps_settled (hexit hsite) hnone⟩

theorem onExit_living {past : List InstanceId} {actor : InstanceId} {next : Option InstanceId}
    {c : Cell T} (h : c.Living log ⟨past, some actor, next⟩) (hs : c.Settled) (fuel : Nat) :
    (onExit fuel (some actor) c).Ensures
      (fun c' => c'.Living log ⟨past ++ [actor], none, next⟩ ∧ c'.disp.actor = c.disp.actor ∧
        c'.Settled) fun _ => False := by
  cases fuel with
  | zero => trivial
  | succ fuel =>
    simp only [onExit]
    refine (h.call .onExit ⟨past ++ [actor], none, next⟩ ?_ ?_).bind ?_
    · simp [Life.step]
    · simp [Life.instances]
    · rintro c' ⟨hliving, hactor, hsettled⟩
      exact checkBecome_settled (hsettled rfl hs) ⟨hliving, hactor, hsettled rfl hs⟩ fuel

theorem lifecycle_entered (fuel : Nat) :
    (∀ c : Cell T, c.Entered log → (checkBecome fuel c).Ensures (Entered log) fun _ => False) ∧
    (∀ past actor (c : Cell T), c.Living log ⟨past, none, some actor⟩ →
      c.disp.actor = some actor → (onEnter fuel c).Ensures (Entered log) fun _ => False) := by
  induction fuel with
  | zero => simp [checkBecome, onEnter]
  | succ fuel ih =>
    obtain ⟨ihBecome, ihEnter⟩ := ih
    refine ⟨?_, fun past actor c h hactor => ?_⟩
    · rintro c ⟨past, actor, h, hactor⟩
      obtain ⟨context, hcontext, halive⟩ := h.alive
      simp only [checkBecome, hcontext]
      split
      · exact ⟨past, actor, h, hactor⟩
      next new hnew =>
        obtain ⟨hlt, hfresh⟩ := halive.pending new hnew
        have hinstalled : (c.install context new).Living log ⟨past, some actor, some new⟩ := by
          refine ⟨⟨_, rfl, ?_, ?_, fun _ hnone => by cases hnone⟩, h.orderly⟩
          · simp only [install, ← List.append_assoc]
            rw [life_snoc, halive.life]
            simp [Life.step, hfresh]
          · intro i hi
            simp only [Life.instances, Option.toList_some, List.mem_append, List.mem_singleton]
              at hi
            rcases hi with hi | rfl | rfl
            · exact halive.bound i (by simp [Life.instances, hi])
            · exact halive.bound i (by simp [Life.instances])
            · exact hlt
        rw [hactor]
        refine (onExit_living hinstalled ⟨_, rfl, rfl⟩ fuel).bind ?_
        rintro c' ⟨hliving, hactor', -⟩
        exact ihEnter (past ++ [actor]) new c' hliving hactor'
    · simp only [onEnter, hactor]
      refine (h.call .onEnter ⟨past, some actor, none⟩ ?_ ?_).bind ?_
      · simp [Life.step]
      · simp [Life.instances]
      · rintro c' ⟨hliving, hactor', -⟩
        exact ihBecome c' ⟨past, actor, hliving, hactor'.trans hactor⟩

theorem create_enter {past : List InstanceId} {c : Cell T} (h : c.Living log ⟨past, none, none⟩) :
    (c.create.bind fun c => onEnter c.lifecycleFuel c).Ensures (Entered log) fun _ => False := by
  refine Outcome.Ensures.bind (P := fun c' => ∃ actor, c'.Living log ⟨past, none, some actor⟩ ∧
    c'.disp.actor = some actor) (create_ensures fun cb calls hcalls _ => ?_) ?_
  · obtain ⟨context, hcontext, halive⟩ := h.alive
    have horderly := h.orderly
    rw [hcalls] at horderly
    refine ⟨fun _ => ⟨c.rt.actors, ⟨⟨context, hcontext, ?_, ?_, ?_⟩, ?_⟩, rfl⟩, fun hp => ?_⟩
    · have hnew : c.rt.actors ∉ past := fun hi =>
        Nat.lt_irrefl _ (halive.bound _ (by simpa [Life.instances] using hi))
      have hsplit : log ++ (c.log ++ [.created c.rt.actors, .installed c.rt.actors]) =
          log ++ c.log ++ [.created c.rt.actors] ++ [.installed c.rt.actors] := by simp
      rw [hsplit, life_snoc, life_snoc, halive.life]
      simp [Life.step, Life.instances, hnew]
    · intro i hi
      simp only [Life.instances, Option.toList_none, Option.toList_some, List.nil_append,
        List.mem_append, List.mem_singleton] at hi
      rcases hi with hi | rfl
      · exact Nat.lt_succ_of_lt (halive.bound i (by simpa [Life.instances] using hi))
      · exact Nat.lt_succ_self _
    · intro i hi
      obtain ⟨hlt, hfresh⟩ := halive.pending i hi
      refine ⟨Nat.lt_succ_of_lt hlt, fun hmem => ?_⟩
      simp only [Life.instances, Option.toList_none, Option.toList_some, List.nil_append,
        List.mem_append, List.mem_singleton] at hmem
      rcases hmem with hmem | rfl
      · exact hfresh (by simpa [Life.instances] using hmem)
      · exact Nat.lt_irrefl _ hlt
    · exact fun cb' hcb' => horderly cb' (List.mem_cons_of_mem _ hcb')
    · have hreturns := (horderly cb List.mem_cons_self).1
      simp [hreturns] at hp
  · rintro c' ⟨actor, hliving, hactor⟩
    exact (lifecycle_entered _).2 past actor c' hliving hactor

theorem startActor_entered {past : List InstanceId} {c : Cell T}
    (h : c.createContext.Living log ⟨past, c.disp.actor, none⟩) :
    c.startActor.Ensures (Entered log) fun _ => False := by
  have hactor : c.createContext.disp.actor = c.disp.actor := by
    simp only [createContext]
    split <;> rfl
  simp only [startActor]
  split
  next hnone =>
    rw [← hactor, hnone] at h
    exact create_enter h
  next actor hsome =>
    rw [← hactor, hsome] at h
    exact ⟨past, actor, h, hsome⟩

theorem terminateActor_exited {past : List InstanceId} {actor : InstanceId} {c : Cell T}
    (h : c.Living log ⟨past, some actor, none⟩) (hactor : c.disp.actor = some actor)
    (hs : c.Settled) :
    c.terminateActor.Ensures
      (fun c' => c'.Living log ⟨past ++ [actor], none, none⟩ ∧ c'.disp.actor = none)
      fun _ => False := by
  have htake : (c.takeActor.emit [.terminating]).Living log ⟨past, some actor, none⟩ := by
    obtain ⟨context, hcontext, halive⟩ := h.alive
    refine ⟨⟨context, hcontext, ?_, halive.bound, halive.pending⟩, h.orderly⟩
    simp only [emit, takeActor, ← List.append_assoc]
    rw [life_snoc, halive.life]
    rfl
  simp only [terminateActor, hactor]
  exact (onExit_living htake hs _).mono (fun c' hc => ⟨hc.1, hc.2.1⟩) fun _ => id

theorem Living.touch {l : Life} {c : Cell T} (h : c.Living log l) (context : ActorContext T) :
    (c.touch context).Living log l ∧ (c.touch context).disp.actor = c.disp.actor := by
  obtain ⟨context', hcontext, halive⟩ := h.alive
  have hlife : life (log ++ (c.log ++ [.received c.rt.clock])) = some l := by
    rw [← List.append_assoc, life_snoc, halive.life]
    rfl
  simp only [Cell.touch]
  split <;> exact ⟨⟨⟨context', hcontext, hlife, halive.bound, halive.pending⟩, h.orderly⟩, rfl⟩

theorem Living.apply {l : Life} {c : Cell T} {context : ActorContext T} {e : Effect T}
    (h : c.Living log l) (hcontext : c.disp.context = some context)
    (hactor : e.context.actor = context.actor) (hactors : e.rt.actors = c.rt.actors)
    (hlog : ∀ e' ∈ e.log, e'.unwatched) : (c.apply e).Living log l := by
  obtain ⟨context', hcontext', halive⟩ := h.alive
  obtain rfl := Option.some.inj (hcontext.symm.trans hcontext')
  refine ⟨⟨_, rfl, ?_, ?_, ?_⟩, h.orderly⟩
  · simp only [Cell.apply, ← List.append_assoc]
    rw [life_unwatched _ hlog]
    exact halive.life
  · simpa [Cell.apply, hactors] using halive.bound
  · simpa [Cell.apply, hactors, hactor] using halive.pending

theorem onMessage_entered {c : Cell T} (h : c.Entered log) (numMsg : Nat) (src : Source)
    (message : Message T) :
    (onMessage numMsg src message c).Ensures (Entered log) (· = c) := by
  obtain ⟨past, actor, hliving, hactor⟩ := h
  obtain ⟨context, hcontext, -⟩ := hliving.alive
  obtain ⟨htouch, htouched⟩ := hliving.touch context
  have handle : ∀ {c' : Cell T} {site e}, c'.Living log ⟨past, some actor, none⟩ →
      c'.disp.actor = c.disp.actor → Life.step ⟨past, some actor, none⟩ e =
        some ⟨past, some actor, none⟩ →
      (c'.call site [e]).Ensures (Entered log) (· = c) := by
    intro c' site e hc' hsame he
    refine (hc'.call site _ he rfl).mono (fun c'' hc'' => ?_) fun _ => False.elim
    exact ⟨past, actor, hc''.1, (hc''.2.1.trans hsame).trans hactor⟩
  obtain ⟨o, ho, hhandling⟩ := onMessage_handling hactor hcontext numMsg src message
  rw [ho]
  cases hhandling with
  | user | timer _ _ => exact handle htouch htouched (by simp [Life.step])
  | stale => exact ⟨past, actor, htouch, htouched.trans hactor⟩
  | poisonPill =>
    refine ⟨past, actor, hliving.apply hcontext rfl rfl fun e he => ?_, hactor⟩
    obtain rfl := List.mem_singleton.mp he
    exact fun _ => rfl
  | unset _ => exact ⟨past, actor, hliving, hactor⟩
  | failed _ _ _ => exact rfl
  | expired _ _ _ _ => exact handle hliving rfl (by simp [Life.step])
  | early _ _ _ _ | again _ =>
    refine ⟨past, actor, hliving.apply hcontext rfl rfl fun e he => ?_, hactor⟩
    obtain rfl | ⟨handle, rfl⟩ := armReceiveTimeout_mem he <;> exact fun _ => rfl

theorem restart_entered {c : Cell T} (h : c.Entered log) (hs : c.Settled) :
    c.restart.Ensures (Entered log) fun _ => False := by
  obtain ⟨past, actor, hliving, hactor⟩ := h
  have htake : c.takeActor.Living log ⟨past, some actor, none⟩ := ⟨hliving.alive, hliving.orderly⟩
  simp only [restart, hactor]
  refine (onExit_living htake hs _).bind ?_
  rintro c' ⟨hc', -⟩
  exact create_enter hc'

theorem processMessage_entered {c : Cell T} (h : c.Entered log) (hs : c.Settled) (numMsg : Nat)
    (src : Source) (message : Message T) :
    (processMessage numMsg src message c).Ensures (Entered log) fun _ => False := by
  have hm := onMessage_entered h numMsg src message
  simp only [processMessage]
  split
  next he =>
    rw [he] at hm
    exact (lifecycle_entered _).1 _ hm
  next he =>
    rw [he] at hm
    obtain rfl : _ = c := hm
    exact restart_entered h hs
  · trivial

end Cell

namespace Mailbox

/-- Between two steps the installed instances are those that were exited and the
actor of the dispatcher, which is entered. -/
def Lived (m : Mailbox T) (past : List InstanceId) : Prop :=
  life m.log = some ⟨past, m.dispatcher.actor, none⟩ ∧
    (∀ i ∈ past ++ m.dispatcher.actor.toList, i < m.rt.actors) ∧
    (m.dispatcher.parent = none → m.dispatcher.actor = none)

theorem Lived.same {m m' : Mailbox T} {past : List InstanceId} (h : m.Lived past)
    {events : List (Event T)} (hlog : m'.log = m.log ++ events) (hu : ∀ e ∈ events, e.unwatched)
    (hactor : m'.dispatcher.actor = m.dispatcher.actor)
    (hactors : m'.rt.actors = m.rt.actors)
    (hparent : m'.dispatcher.parent = none →
      m.dispatcher.parent = none ∨ m.dispatcher.actor = none) : m'.Lived past := by
  obtain ⟨hlife, hbound, hgone⟩ := h
  refine ⟨?_, by rw [hactor, hactors]; exact hbound, fun hp => ?_⟩
  · rw [hlog, life_unwatched _ hu, hactor]
    exact hlife
  · rw [hactor]
    exact (hparent hp).elim hgone id

theorem Lived.living {m : Mailbox T} {past : List InstanceId} (h : m.Lived past)
    (input : TaskInput T) (ho : Orderly input.calls) {context : ActorContext T}
    (hcontext : m.dispatcher.context = some context) (hnone : context.actor = none) :
    (m.cell input).Living m.log ⟨past, m.dispatcher.actor, none⟩ := by
  refine ⟨⟨context, hcontext, ?_, ?_, ?_⟩, ho⟩
  · simpa [Mailbox.cell] using h.1
  · simpa [Life.instances, Mailbox.cell] using h.2.1
  · simp [hnone]

theorem commit_lived {m : Mailbox T} {past : List InstanceId} {actor : Option InstanceId}
    {c : Cell T} (h : c.Living m.log ⟨past, actor, none⟩) (hactor : c.disp.actor = actor)
    (hgone : c.disp.parent = none → actor = none) : (m.commit c).Lived past := by
  obtain ⟨context, -, halive⟩ := h.alive
  subst hactor
  refine ⟨halive.life, fun i hi => ?_, hgone⟩
  have hi : i ∈ past ++ c.disp.actor.toList := hi
  exact halive.bound i (by simpa [Life.instances] using hi)

theorem finish_lived {m : Mailbox T} {next : Task T} {o : Outcome (Cell T)} {r : TaskStep T}
    (h : m.finish next o = some r) {Q : Cell T → Prop}
    (ho : o.Ensures (fun c => ∃ past, (m.commit c).Lived past) fun c => False ∧ Q c) :
    ∃ past, r.mbox.Lived past := by
  obtain ⟨c, hc, hm, -⟩ | ⟨c, hc, -⟩ := finish_ensures h ho
  · exact hm ▸ hc
  · exact hc.1.elim

theorem Env.lived {m m' : Mailbox T} (henv : m.Env m') {past : List InstanceId}
    (h : m.Lived past) : m'.Lived past := by
  cases henv with
  | same => exact h
  | rejected msg | watchReturned w _ | pushed _ _ | pushedInternal msg =>
    exact h.same rfl (by simp [Event.unwatched, Life.step]) rfl rfl .inl
  | tick d => exact h.same (List.append_nil _).symm (by simp) rfl rfl .inl

theorem move_lived {m : Mailbox T} {input : TaskInput T} {t : Task T} {r : TaskStep T}
    (move : m.Move input t r) (ho : Orderly input.calls) (base : m.Phase t)
    (hexited : ∀ n, t = .looping n .notifying → m.dispatcher.actor = none)
    (h : ∃ past, m.Lived past) : ∃ past, r.mbox.Lived past := by
  obtain ⟨past, h⟩ := h
  cases move with
  | start hp hf =>
    have hparent : m.dispatcher.parent ≠ none := by simp [hp]
    have hliving : (m.cell input).createContext.Living m.log ⟨past, m.dispatcher.actor, none⟩ := by
      cases hcontext : m.dispatcher.context with
      | none =>
        refine ⟨⟨.new, ?_, ?_, ?_, nofun⟩, ?_⟩
        · simp [Cell.createContext, Mailbox.cell, hcontext]
        · simpa [Cell.createContext, Mailbox.cell, hcontext] using h.1
        · simpa [Cell.createContext, Mailbox.cell, hcontext, Life.instances] using h.2.1
        · simpa [Cell.createContext, Mailbox.cell, hcontext] using ho
      | some context =>
        have hnone : context.actor = none := by
          rcases base with hf | hl | hg
          · simp [hf.context] at hcontext
          · obtain ⟨context', hcontext', hnone, -⟩ := hl.context
            exact Option.some.inj (hcontext'.symm.trans hcontext) ▸ hnone
          · simp [hg.context] at hcontext
        simpa [Cell.createContext, Mailbox.cell, hcontext] using
          h.living input ho hcontext hnone
    refine finish_lived hf (((Cell.startActor_entered hliving).and
      (start_live hparent base)).mono ?_ fun _ => id)
    rintro c ⟨⟨past', actor, hc, hactor⟩, hlive⟩
    exact ⟨past', commit_lived hc hactor fun hp => absurd hp hlive.parent⟩
  | terminate hf =>
    obtain ⟨-, hparent, hactor, context, hcontext, hnone, -⟩ := base
    obtain ⟨actor, hactor⟩ := Option.ne_none_iff_exists'.mp hactor
    have hliving := h.living input ho hcontext hnone
    rw [hactor] at hliving
    refine finish_lived hf (((Cell.terminateActor_exited hliving hactor
      ⟨context, hcontext, hnone⟩).and (terminate_phase hparent hcontext)).mono ?_ fun _ => id)
    rintro c ⟨⟨hc, hnone⟩, -⟩
    exact ⟨_, commit_lived hc hnone fun _ => rfl⟩
  | process hf =>
    obtain ⟨-, hlive⟩ := base
    obtain ⟨context, hcontext, hnone, -⟩ := hlive.context
    obtain ⟨actor, hactor⟩ := Option.ne_none_iff_exists'.mp hlive.actor
    have hliving := h.living input ho hcontext hnone
    rw [hactor] at hliving
    refine finish_lived hf (((Cell.processMessage_entered ⟨past, actor, hliving, hactor⟩
      ⟨context, hcontext, hnone⟩ _ _ _).and (process_live hlive _ _ _)).mono ?_ fun _ => id)
    rintro c ⟨⟨past', actor', hc, hactor'⟩, hlive'⟩
    exact ⟨past', commit_lived hc hactor' fun hp => absurd hp hlive'.parent⟩
  | notify _ =>
    exact ⟨past, h.same rfl (by simp [Event.unwatched, Life.step]) rfl rfl
      fun _ => .inr (hexited _ rfl)⟩
  | reply =>
    refine ⟨past, h.same rfl (fun e he => ?_) rfl rfl .inl⟩
    simp only [List.mem_append, List.mem_map] at he
    rcases he with ⟨_, -, rfl⟩ | ⟨_, -, rfl⟩ <;> exact fun _ => rfl
  | drainWatch _ | watchClosed _ | stop _ | close | childUnwind _ | closingUnwind _
  | userUnwind _ _ =>
    exact ⟨past, h.same rfl (by simp [Event.unwatched, Life.step]) rfl rfl .inl⟩
  | _ => exact ⟨past, h.same (List.append_nil _).symm (by simp) rfl rfl .inl⟩

theorem move_exited {m : Mailbox T} {input : TaskInput T} {t : Task T} {r : TaskStep T}
    (move : m.Move input t r) (ho : Orderly input.calls) (base : m.Phase t)
    (h : ∃ past, m.Lived past) {n : Nat} (hn : r.next = some (.looping n .notifying)) :
    r.mbox.dispatcher.actor = none := by
  cases move with
  | terminate hf =>
    obtain ⟨past, h⟩ := h
    obtain ⟨-, -, hactor, context, hcontext, hnone, -⟩ := base
    obtain ⟨actor, hactor⟩ := Option.ne_none_iff_exists'.mp hactor
    have hliving := h.living input ho hcontext hnone
    rw [hactor] at hliving
    obtain ⟨c, hc, hm, -⟩ | ⟨c, hc, -⟩ := finish_ensures hf
      (Cell.terminateActor_exited hliving hactor ⟨context, hcontext, hnone⟩)
    · rw [hm]
      exact hc.2
    · exact hc.elim
  | start _ hf | process hf =>
    obtain ⟨_, -, -, -, hnext, -⟩ | ⟨_, -, -, -, hnext, -⟩ := finish_cases hf <;>
      rw [hnext] at hn <;> cases hn
  | _ => cases hn

end Mailbox

namespace Node

abbrev orderly : Node T → Action T → Prop := okTask fun _ _ input => Orderly input.calls

theorem lived_owned : Owned path option parent (fun _ _ input => Orderly input.calls)
    (Mailbox.Phase (T := T)) (fun m t => ∀ n, t = .looping n .notifying → m.dispatcher.actor = none)
    (fun _ => True) (fun m => ∃ past, m.Lived past) where
  start := ⟨trivial, [], rfl, List.forall_mem_nil _, fun _ => rfl⟩
  env henv := by
    refine ⟨fun ⟨past, h⟩ => ⟨past, henv.lived h⟩, id, fun t _ h n ht => ?_⟩
    rw [henv.dispatcher]
    exact h n ht
  acquire _ := ⟨id, fun _ _ => nofun⟩
  move move _ ho base hexited h :=
    ⟨Mailbox.move_lived move ho base hexited h, fun t' ht' =>
      ⟨fun _ _ hn => Mailbox.move_exited move ho base h (hn ▸ ht'), fun _ => trivial⟩⟩

/-- The lifecycle calls are `enter(a0) exit(a0) enter(a1) exit(a1) ...` with pairwise
different instances, and a message goes to the instance that is entered. -/
theorem lifecycle_bracketed {nd : Node T} (h : (machine path option parent).Reach orderly nd) :
    ∃ past,
      nd.mbox.log.filter Event.bracket = brackets past nd.mbox.dispatcher.actor ∧
      installations nd.mbox.log = past ++ nd.mbox.dispatcher.actor.toList ∧
      (past ++ nd.mbox.dispatcher.actor.toList).Nodup ∧
      (∀ before e after i, nd.mbox.log = before ++ e :: after → e.receiver = some i →
        ∃ earlier, before.filter Event.bracket = brackets earlier (some i)) ∧
      (nd.mbox.dispatcher.parent = none → nd.mbox.dispatcher.actor = none) := by
  obtain ⟨past, hlife, -, hgone⟩ := (lived_owned.reach (fun h => (reachable_phase h).loc) h).inv
  have hb := life_bracketed hlife
  have hi : Life.instances ⟨past, nd.mbox.dispatcher.actor, none⟩ =
      past ++ nd.mbox.dispatcher.actor.toList := by simp [Life.instances]
  exact ⟨past, hb.brackets, hi ▸ hb.installations, hi ▸ hb.distinct, hb.messages, hgone⟩

/-- The handler of the only message asks for a transition, and a `stop` follows. -/
def transitRun : List (Action Nat) :=
  sending (.user 1) ++ callbacks [⟨.create, [], false⟩, ⟨.onEnter, [], false⟩] ++ turns 3 ++
    callbacks [⟨.onMessage, [.transit], false⟩, ⟨.onExit, [], false⟩, ⟨.onEnter, [], false⟩] ++
    stopping ++ turns 5 ++ callbacks [⟨.onExit, [], false⟩] ++ turns 2

def transitNode : Node Nat := (sample.exec sample.start transitRun).get (by decide +kernel)

theorem transitNode_run : sample.exec sample.start transitRun = some transitNode :=
  (Option.some_get _).symm

theorem lifecycle_bracketed_transit :
    ∃ past,
      transitNode.mbox.log.filter Event.bracket = brackets past transitNode.mbox.dispatcher.actor ∧
      installations transitNode.mbox.log =
        past ++ transitNode.mbox.dispatcher.actor.toList ∧
      (past ++ transitNode.mbox.dispatcher.actor.toList).Nodup ∧
      (∀ before e after i, transitNode.mbox.log = before ++ e :: after → e.receiver = some i →
        ∃ earlier, before.filter Event.bracket = brackets earlier (some i)) ∧
      (transitNode.mbox.dispatcher.parent = none → transitNode.mbox.dispatcher.actor = none) :=
  lifecycle_bracketed (Reach.exec .start (by decide +kernel) transitNode_run)

/-- The first `on_exit` asks for another transition. -/
def exitTransitRun : List (Action Nat) :=
  sending (.user 1) ++ callbacks [⟨.create, [], false⟩, ⟨.onEnter, [], false⟩] ++ turns 3 ++
    callbacks [⟨.onMessage, [.transit], false⟩, ⟨.onExit, [.transit], false⟩,
      ⟨.onExit, [], false⟩, ⟨.onEnter, [], false⟩, ⟨.onEnter, [], false⟩]

def exitTransitNode : Node Nat := (sample.exec sample.start exitTransitRun).get (by decide +kernel)

theorem exitTransitNode_run : sample.exec sample.start exitTransitRun = some exitTransitNode :=
  (Option.some_get _).symm

/-- The instance 1 is exited and was never entered; the instance 2 is entered twice. -/
theorem exit_transit_unbalanced :
    sample.Reach returning exitTransitNode ∧
      exitTransitNode.mbox.log.filter Event.bracket =
        [.entered 0, .exited 0, .exited 1, .entered 2, .entered 2] ∧
      ∀ past current, exitTransitNode.mbox.log.filter Event.bracket ≠ brackets past current := by
  have htrace : exitTransitNode.mbox.log.filter Event.bracket =
      [.entered 0, .exited 0, .exited 1, .entered 2, .entered 2] := by decide +kernel
  refine ⟨Reach.exec .start (by decide +kernel) exitTransitNode_run, htrace, ?_⟩
  intro past current heq
  have hexited : Event.exited 1 ∈ brackets (T := Nat) past current := heq ▸ htrace ▸ by decide
  have hentered : Event.entered 1 ∈ exitTransitNode.mbox.log.filter Event.bracket :=
    heq ▸ brackets_entered hexited
  rw [htrace] at hentered
  exact absurd hentered (by decide)

end Node

end Ruactor
