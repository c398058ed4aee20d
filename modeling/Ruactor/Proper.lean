import Ruactor.Bracketing
import Ruactor.Naming
import Ruactor.Orphans
import Ruactor.Panics

/-!
# Proper trees

In a proper step callbacks return, children are made by `create_child`, in fewer than
`2 ^ 64` calls for each actor, and `on_exit` neither creates a child nor transits.
Proper steps are orderly: generated names are distinct, and the last `on_exit` is the
only callback of `terminate`.
-/

namespace Ruactor

open Machine

variable {T : Type} {path : ActorPath} {option : PropsOption} {parent : ParentRef}

def ContextOp.transits : ContextOp T → Bool
  | .transit => true
  | _ => false

namespace Callback

def proper (cb : Callback T) : Bool :=
  !cb.panics && cb.ops.all (fun op => !op.explicit) &&
    (decide (cb.site ≠ .onExit) || cb.ops.all fun op => !(op.creates || op.transits))

variable {cb : Callback T}

theorem proper_panics (h : cb.proper = true) : cb.panics = false := by
  simp only [proper, Bool.and_eq_true, Bool.not_eq_true'] at h
  exact h.1.1

theorem proper_explicit (h : cb.proper = true) : ∀ op ∈ cb.ops, op.explicit = false := by
  simp only [proper, Bool.and_eq_true, List.all_eq_true, Bool.not_eq_true'] at h
  exact h.1.2

theorem proper_exit (h : cb.proper = true) (hsite : cb.site = .onExit) :
    ∀ op ∈ cb.ops, op.creates = false ∧ op.transits = false := by
  simp only [proper, Bool.and_eq_true, hsite] at h
  simpa using h.2

end Callback

def Action.proper : Action T → Bool
  | .task _ input => input.calls.all Callback.proper
  | _ => true

namespace Mailbox

theorem terminate_single {m : Mailbox T} {input : TaskInput T} {n : Nat} {r : TaskStep T}
    (hphase : m.Phase (.looping n .terminating)) (hproper : input.calls.all Callback.proper = true)
    (hf : m.finish (.looping n .notifying) (m.cell input).terminateActor = some r) :
    ∃ cb, input.calls = [cb] ∧ cb.site = .onExit := by
  obtain ⟨-, -, hactor, context, hcontext, hnone, -⟩ := hphase
  obtain ⟨actor, hactor⟩ := Option.ne_none_iff_exists'.mp hactor
  have hactor' : (m.cell input).disp.actor = some actor := hactor
  rw [List.all_eq_true] at hproper
  have ho : (m.cell input).terminateActor.Ensures
      (fun c => ∃ cb, input.calls = cb :: c.calls ∧ cb.site = .onExit) fun _ => False := by
    simp only [Cell.terminateActor, hactor', Cell.lifecycleFuel, Cell.onExit]
    refine Outcome.Ensures.bind
      (P := fun c => (∃ cb, input.calls = cb :: c.calls ∧ cb.site = .onExit) ∧ c.Settled)
      (Cell.call_ensures ?_ ?_) fun c hc => Cell.checkBecome_settled hc.2 hc.1 _
    · intro hnone'
      exact absurd (hnone'.symm.trans hcontext) (by simp)
    · intro context' cb calls hcontext' hcalls hsite
      have hcb := hproper cb (by
        have hmem : input.calls = cb :: calls := hcalls
        simp [hmem])
      refine ⟨fun _ => ⟨⟨cb, hcalls, hsite⟩, _, rfl, runOps_settled ?_ ?_⟩, fun hp => ?_⟩
      · intro htransit
        exact absurd (Callback.proper_exit hcb hsite _ htransit).2 (by simp [ContextOp.transits])
      · obtain rfl := Option.some.inj (hcontext.symm.trans hcontext')
        exact hnone
      · simp [Callback.proper_panics hcb] at hp
  obtain ⟨c, hc, hcalls, -⟩ | ⟨c, hc, -⟩ := finish_cases hf
  · rw [hc] at ho
    obtain ⟨cb, hinput, hsite⟩ := ho
    exact ⟨cb, by rw [hinput, hcalls], hsite⟩
  · rw [hc] at ho
    exact ho.elim

end Mailbox

namespace Node

theorem proper_bearsLast {nd nd' : Node T} {a : Action T}
    (h : (machine path option parent).Reachable nd) (hproper : a.proper = true)
    (hstep : nd.step a = some nd') : nd.bearsLast a = false := by
  cases step_move hstep with
  | @task i input before t after r hi hs hr =>
    cases hleaves : t.leaves with
    | false => simp [bearsLast, hi, hleaves]
    | true =>
      obtain ⟨n, rfl⟩ := Task.leaves_iff.mp hleaves
      have hphase := (reachable_phase h).loc _ (List.mem_of_getElem? hi) rfl
      cases Mailbox.taskStep_move hr with
      | terminate hf =>
        obtain ⟨cb, hcalls, hsite⟩ := Mailbox.terminate_single hphase hproper hf
        have hcb : cb.proper = true := by simpa [Action.proper, hcalls] using hproper
        simp only [bearsLast, hcalls, List.any_cons, List.any_nil, Bool.or_false,
          Bool.and_eq_false_iff, List.any_eq_false]
        exact .inr fun op hop => by simp [(Callback.proper_exit hcb hsite op hop).1]
  | reschedule hi _ => simp [bearsLast, hi, Task.leaves]
  | _ => rfl

end Node

namespace Tree

def Proper (tree : Tree T) (step : NodeId × Action T) : Prop :=
  step.2.proper = true ∧ ∀ nd ∈ tree step.1,
    nd.mbox.log.countP Event.attempts + (tree.events step).countP Event.attempts < 2 ^ 64

instance (tree : Tree T) (step : NodeId × Action T) : Decidable (Proper tree step) :=
  inferInstanceAs (Decidable (_ ∧ ∀ nd ∈ tree step.1, _ < _))

theorem Proper.implicit {tree : Tree T} {id : NodeId} {a : Action T} {nd : Node T}
    (h : Proper tree (id, a)) : Node.okTask Mailbox.Implicit nd a := by
  cases a with
  | task i input =>
    intro t _ cb hcb
    exact Callback.proper_explicit (List.all_eq_true.mp h.1 cb hcb)
  | _ => trivial

theorem proper_orderly {tree tree' : Tree T} {step : NodeId × Action T}
    (hr : (machine path option).Reach Proper tree) (hproper : Proper tree step)
    (hstep : tree.step step = some tree') : Orderly tree step := by
  obtain ⟨id, a⟩ := step
  obtain ⟨nd, nd', hof⟩ := step_of hr hstep
  obtain ⟨_, _, _, hown⟩ := hof.reachable
  constructor
  · intro e he
    have hid : tree' id = some nd' := by rw [hof.spread, spread_self]
    have hgrown : Grown (Node.okTask Mailbox.Implicit) nd' :=
      reach_grown (fun ok _ => ok.implicit) (fun _ _ => trivial) (.step hr hproper hstep) id nd' hid
    obtain ⟨_, _, _, hreach⟩ := hgrown
    have hlog := hof.kin.log
    refine (Node.reach_clean hreach).distinct ?_ e (by simp [hlog, he])
    rw [hlog, List.countP_append]
    exact hproper.2 nd hof.node
  · intro x hx
    obtain rfl := Option.some.inj (hof.node.symm.trans hx)
    exact Node.proper_bearsLast hown hproper.1 hof.step

theorem reach_orderly {tree : Tree T} (h : (machine path option).Reach Proper tree) :
    (machine path option).Reach Orderly tree := by
  induction h with
  | start => exact .start
  | step prior ok hstep ih => exact .step ih (proper_orderly prior ok hstep) hstep

end Tree

end Ruactor
