import Ruactor.Callbacks
import Ruactor.DeliveryLog

/-!
# Stashing and the delivery log

`Holding` ties the two stashing queues of a context to the log: callbacks, restarts
and transitions change queue and log together. A delivery is legal when its
message was at the front of the queue it was taken from.
-/

namespace Ruactor

variable {T : Type}

/-- `inHand` was taken from `unstashed` and is not delivered yet. -/
structure Holding (log : List (Event T)) (context : ActorContext T) (inHand : List T) : Prop where
  unstashed : released log = again log ++ (inHand ++ context.unstashed)
  stash : stashings log = released log ++ context.stash

theorem Holding.same {log log' : List (Event T)} {context context' : ActorContext T}
    {inHand : List T} (h : Holding log context inHand) (hs : SameRecords log log')
    (hstash : context'.stash = context.stash)
    (hunstashed : context'.unstashed = context.unstashed) : Holding log' context' inHand := by
  constructor
  · rw [hs.released, hs.again, hunstashed]
    exact h.unstashed
  · rw [hs.stashings, hs.released, hstash]
    exact h.stash

theorem Event.bookkeeping_quiet {e : Event T} (h : e.bookkeeping = true) : e.quiet = true := by
  cases e <;> first | rfl | cases h

theorem armReceiveTimeout_quiet (rt : Runtime) (context : ActorContext T) (d : Duration) :
    ∀ e ∈ (context.armReceiveTimeout rt d).log, e.quiet = true := by
  intro e he
  obtain rfl | ⟨handle, rfl⟩ := armReceiveTimeout_mem he <;> rfl

theorem ContextOp.apply_quiet (rt : Runtime) (context : ActorContext T) {op : ContextOp T}
    (hstash : ∀ msg, op ≠ .stash msg) (hunstash : op ≠ .unstashAll) :
    (∀ e ∈ (op.apply rt context).log, e.quiet = true) ∧
      (op.apply rt context).context.stash = context.stash ∧
      (op.apply rt context).context.unstashed = context.unstashed := by
  refine ⟨fun e he => ?_, (op.apply_frame rt context).stash hstash hunstash⟩
  obtain ⟨msg, hop, -⟩ | ⟨hop, -⟩ | hbook := apply_log he
  · exact absurd hop (hstash msg)
  · exact absurd hop hunstash
  · exact Event.bookkeeping_quiet hbook

theorem ContextOp.apply_holding {log : List (Event T)} {context : ActorContext T}
    (op : ContextOp T) (rt : Runtime) (hl : Legal log)
    (h : Holding log context []) :
    Legal (log ++ (op.apply rt context).log) ∧
      pushes (log ++ (op.apply rt context).log) = pushes log ∧
      firsts (log ++ (op.apply rt context).log) = firsts log ∧
      Holding (log ++ (op.apply rt context).log) (op.apply rt context).context [] := by
  by_cases hstash : ∃ msg, op = .stash msg
  · obtain ⟨msg, rfl⟩ := hstash
    have hr : released (log ++ [.stashed msg]) = released log := released_snoc log rfl
    have ha : again (log ++ [.stashed msg]) = again log := by simp [again]
    have hs : stashings (log ++ [.stashed msg]) = stashings log ++ [msg] := by simp [stashings]
    refine ⟨hl.snoc trivial, by simp [apply, ActorContext.stashMessage, pushes],
      by simp [apply, ActorContext.stashMessage, firsts], ?_, ?_⟩
    · simpa [apply, ActorContext.stashMessage, hr, ha] using h.unstashed
    · simp [apply, ActorContext.stashMessage, hr, hs, h.stash]
  by_cases hunstash : op = .unstashAll
  · subst hunstash
    have ha : again (log ++ [.unstashedAll]) = again log := by simp [again]
    have hs : stashings (log ++ [.unstashedAll]) = stashings log := by simp [stashings]
    refine ⟨hl.snoc trivial, by simp [apply, ActorContext.unstashAll, pushes],
      by simp [apply, ActorContext.unstashAll, firsts], ?_, ?_⟩
    · simp [apply, ActorContext.unstashAll, ActorContext.unstashLoop_eq, ha, h.stash, h.unstashed]
    · simp [apply, ActorContext.unstashAll, hs]
  · obtain ⟨hquiet, hs, hu⟩ :=
      apply_quiet rt context (fun msg he => hstash ⟨msg, he⟩) hunstash
    have hsame := sameRecords_append log hquiet
    exact ⟨hsame.legal hl, hsame.pushes, hsame.firsts, h.same hsame hs hu⟩

/-- `queued` is what was pushed to the message queue and not taken out. -/
structure Stock (queued : List T) (_ : Option ParentRef) (context : ActorContext T)
    (log : List (Event T)) : Prop where
  legal : Legal log
  queued : pushes log = firsts log ++ queued
  holding : Holding log context []

theorem Stock.same {queued : List T} {p p' : Option ParentRef} {context context' : ActorContext T}
    {log log' : List (Event T)} (h : Stock queued p context log) (hs : SameRecords log log')
    (hstash : context'.stash = context.stash)
    (hunstashed : context'.unstashed = context.unstashed) : Stock queued p' context' log' :=
  ⟨hs.legal h.legal, by rw [hs.pushes, hs.firsts]; exact h.queued,
    h.holding.same hs hstash hunstashed⟩

theorem stock_recorded (queued : List T) : Cell.Recorded (fun _ => True) (Stock queued) where
  op {p rt context log} op _ h := by
    obtain ⟨hl, hp, hf, hh⟩ := op.apply_holding rt h.legal h.holding
    exact ⟨hl, by rw [hp, hf]; exact h.queued, hh⟩
  stopSelf {p context log} h := h.same (sameRecords_snoc log rfl) rfl rfl
  timeout {p rt context log} d h :=
    h.same (sameRecords_append log (armReceiveTimeout_quiet rt context d)) rfl rfl
  event {p e context log} he h := by
    have hquiet : e.quiet = true := by cases e <;> first | rfl | cases he
    exact h.same (sameRecords_snoc log hquiet) rfl rfl
  actor {p context log} h := h.same (.refl log) rfl rfl

namespace Cell

abbrev Stocked (queued : List T) : List (Event T) → Cell T → Prop :=
  Records (fun _ => True) (Stock queued)

variable {log : List (Event T)} {queued : List T}

/-- The user message of `message`, if it was taken out of `origin`. -/
def inHand (origin src : Source) : Message T → List T
  | .user msg => if src = origin then [msg] else []
  | _ => []

/-- `message` was taken out of `src`, and the handler has not been called. -/
structure Taken (log : List (Event T)) (queued : List T) (src : Source) (message : Message T)
    (c : Cell T) : Prop where
  legal : Legal (log ++ c.log)
  queued : pushes (log ++ c.log) = firsts (log ++ c.log) ++ (inHand .queue src message ++ queued)
  holding : ∃ context, c.disp.context = some context ∧
    Holding (log ++ c.log) context (inHand .unstashed src message) ∧
      (src = .queue → context.unstashed = [])

theorem Taken.stocked {src : Source} {message : Message T} {c : Cell T}
    (h : Taken log queued src message c) (hm : ∀ msg, message ≠ .user msg) :
    Stocked queued log c := by
  obtain ⟨context, hcontext, hh, -⟩ := h.holding
  have hnone : ∀ origin, inHand origin src message = [] := by
    intro origin
    cases message with
    | user msg => exact absurd rfl (hm msg)
    | _ => rfl
  have hq := h.queued
  rw [hnone] at hh hq
  exact ⟨fun _ _ _ _ => trivial, context, hcontext, h.legal, hq, hh⟩

theorem Taken.touch {src : Source} {message : Message T} {c : Cell T}
    (h : Taken log queued src message c) (context : ActorContext T) :
    Taken log queued src message (c.touch context) := by
  obtain ⟨hlog, hcontext, -⟩ := touch_same context c
  have hs : SameRecords (log ++ c.log) (log ++ (c.touch context).log) := by
    rw [hlog, ← List.append_assoc]
    exact sameRecords_snoc _ rfl
  obtain ⟨context', hsome, hh, hfirst⟩ := h.holding
  exact ⟨hs.legal h.legal, by rw [hs.pushes, hs.firsts]; exact h.queued,
    context', hcontext.trans hsome, hh.same hs rfl rfl, hfirst⟩

theorem Taken.deliver {src : Source} {msg : T} {c : Cell T}
    (h : Taken log queued src (.user msg) c) (actor : InstanceId) :
    (c.call .onMessage [.delivered actor src msg]).Ensures (Stocked queued log)
      (Stocked queued log) := by
  obtain ⟨context', hsome, hh, hfirst⟩ := h.holding
  refine (stock_recorded queued).call .onMessage (fun _ _ _ _ => trivial)
    (fun context hcontext => ?_) (by simp [hsome])
  obtain rfl := Option.some.inj (hsome.symm.trans hcontext)
  rw [← List.append_assoc]
  have hr : released (log ++ c.log ++ [.delivered actor src msg]) = released (log ++ c.log) :=
    released_snoc _ rfl
  have hp : pushes (log ++ c.log ++ [.delivered actor src msg]) = pushes (log ++ c.log) := by
    simp [pushes]
  have hs : stashings (log ++ c.log ++ [.delivered actor src msg]) = stashings (log ++ c.log) := by
    simp [stashings]
  cases src with
  | queue =>
    have hq : pushes (log ++ c.log) = firsts (log ++ c.log) ++ ([msg] ++ queued) := h.queued
    have hu : context'.unstashed = [] := hfirst rfl
    have hf : firsts (log ++ c.log ++ [.delivered actor .queue msg]) =
        firsts (log ++ c.log) ++ [msg] := by simp [firsts]
    have ha : again (log ++ c.log ++ [.delivered actor .queue msg]) = again (log ++ c.log) := by
      simp [again]
    have hwait : again (log ++ c.log) = released (log ++ c.log) := by
      simpa [hu, inHand] using hh.unstashed.symm
    refine ⟨h.legal.snoc ⟨?_, hwait⟩, ?_, ?_, ?_⟩
    · rw [hq, ← List.append_assoc]
      exact List.prefix_append _ _
    · rw [hp, hf, hq, List.append_assoc]
    · rw [hr, ha, hh.unstashed]
      rfl
    · rw [hs, hr, hh.stash]
  | unstashed =>
    have hq : pushes (log ++ c.log) = firsts (log ++ c.log) ++ queued := h.queued
    have hf : firsts (log ++ c.log ++ [.delivered actor .unstashed msg]) =
        firsts (log ++ c.log) := by simp [firsts]
    have ha : again (log ++ c.log ++ [.delivered actor .unstashed msg]) =
        again (log ++ c.log) ++ [msg] := by simp [again]
    have hnext : released (log ++ c.log) =
        again (log ++ c.log) ++ [msg] ++ context'.unstashed := by
      simpa [inHand] using hh.unstashed
    refine ⟨h.legal.snoc ?_, ?_, ?_, ?_⟩
    · rw [LegalNext, hnext]
      exact List.prefix_append _ _
    · rw [hp, hf, hq]
    · rw [hr, ha, hnext]
      rfl
    · rw [hs, hr, hh.stash]

theorem processMessage_stocked {c : Cell T} {src : Source} {message : Message T}
    (h : Taken log queued src message c) (hactor : c.disp.actor ≠ none) (numMsg : Nat) :
    (processMessage numMsg src message c).Ensures (Stocked queued log)
      (Stocked queued log) := by
  obtain ⟨actor, hactor⟩ := Option.ne_none_iff_exists'.mp hactor
  obtain ⟨context, hcontext, -⟩ := h.holding
  refine (stock_recorded queued).processMessage hactor (by simp [hcontext]) ?_ h.stocked
  rintro msg context rfl
  exact (h.touch context).deliver actor

end Cell

end Ruactor
