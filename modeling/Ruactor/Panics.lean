import Ruactor.Phases

/-!
# Panics and the `running` flag

`receive` clears `running` only when `actor_loop` returns. A panic in a message
handler is caught and the actor is replaced; a panic in `Props::create`,
`on_enter` or `on_exit` unwinds through `receive`, and the mailbox is never
served again.
-/

namespace Ruactor

open Machine

variable {T : Type} {path : ActorPath} {option : PropsOption} {parent : ParentRef}

namespace Node

/-- No callback that the step calls outside `catch_unwind` panics. -/
abbrev calm : Node T → Action T → Prop := okTask fun _ _ input => Calm input.calls

theorem calm_returning {nd nd' : Node T} {a : Action T}
    (h : (machine path option parent).Reachable nd) (ok : calm nd a)
    (hstep : nd.step a = some nd') : returning nd a := by
  have hphase := (reachable_phase h).loc
  cases step_move hstep with
  | @task i input before t after r hi hs hr =>
    simp only [returning, unwinds, hi, hr]
    cases hact : t.active with
    | false => simp
    | true =>
      have hloc := hphase t (by simp [hs]) hact
      have hcalm : Calm input.calls := ok t hi
      have unwound : ∀ {next o} {P : Cell T → Prop}, nd.mbox.finish next o = some r →
          o.Ensures P (fun _ => ¬ Calm input.calls) → r.next ≠ none := by
        intro next o P hf ho
        obtain ⟨c, -, -, hn⟩ | ⟨c, hc, -⟩ := Mailbox.finish_ensures hf ho
        · simp [hn]
        · exact absurd hcalm hc
      have hsome : r.next ≠ none := by
        cases Mailbox.taskStep_move hr with
        | start hp hf => exact unwound hf (Mailbox.start_live (by simp [hp]) hloc)
        | terminate hf =>
          obtain ⟨-, hparent, -, context, hcontext, -⟩ := hloc
          exact unwound hf (Mailbox.terminate_phase hparent hcontext)
        | process hf => exact unwound hf (Mailbox.process_live hloc.2 _ _ _)
        | childUnwind hnone =>
          obtain ⟨context, hcontext, -⟩ := hloc.context
          exact absurd (hnone.symm.trans hcontext) (by simp)
        | closingUnwind hnone =>
          obtain ⟨-, -, -, context, hcontext, -⟩ := hloc
          exact absurd (hnone.symm.trans hcontext) (by simp)
        | userUnwind hopen hnone =>
          rcases hloc with hl | hg
          · obtain ⟨context, hcontext, -⟩ := hl.context
            exact absurd (hnone.symm.trans hcontext) (by simp)
          · exact absurd (hopen.symm.trans hg.closed) (by simp)
        | done _ => cases hact
        | _ => simp
      simpa [Option.isSome_iff_ne_none] using hsome
  | reschedule hi _ => simp [returning, unwinds, hi, Task.active]
  | _ => rfl

theorem calm_reach {nd : Node T} (h : (machine path option parent).Reach calm nd) :
    (machine path option parent).Reach returning nd := by
  induction h with
  | start => exact .start
  | step prior ok hstep ih => exact .step ih (calm_returning prior.reachable ok hstep) hstep

def Wedged (nd : Node T) : Prop :=
  nd.mbox.running = true ∧ ∀ t ∈ nd.tasks, t.active = false

theorem unwound_wedged {nd nd' : Node T} {a : Action T} (he : Exclusive nd)
    (hu : nd.unwinds a = true) (hstep : nd.step a = some nd') : Wedged nd' := by
  cases step_move hstep with
  | @task i input before t after r hi hs hr =>
    simp only [unwinds, hi, hr, Option.map_some, Option.getD_some, Bool.and_eq_true,
      Option.isNone_iff_eq_none] at hu
    obtain ⟨hrun, hothers⟩ := he.alone hs hu.1
    refine ⟨?_, by simpa [hu.2] using hothers⟩
    have hne : t ≠ .storing := by
      rintro rfl
      cases hr
      cases hu.2
    exact ((Mailbox.taskStep_move hr).running hne).trans hrun
  | reschedule hi _ => simp [unwinds, hi, Task.active] at hu
  | _ => cases hu

theorem schedule_running {nd : Node T} (h : nd.mbox.running = true) : nd.schedule = nd := by
  simp [schedule, h]

/-- Nothing that anybody does later brings a wedged mailbox back. -/
theorem wedged_step {nd nd' : Node T} {a : Action T} (h : Wedged nd)
    (hstep : nd.step a = some nd') : Wedged nd' := by
  obtain ⟨hrun, hidle⟩ := h
  cases step_move hstep with
  | call | deliver | tick => exact ⟨hrun, hidle⟩
  | access _ _ hacc => exact ⟨hacc.env.running.trans hrun, hidle⟩
  | schedule _ =>
    rw [schedule_running hrun]
    exact ⟨hrun, hidle⟩
  | @reschedule i input before after _ hs =>
    have hsame : ({ nd with tasks := before ++ after } : Node T).schedule =
        { nd with tasks := before ++ after } := schedule_running hrun
    rw [hsame]
    refine ⟨hrun, fun t ht => hidle t ?_⟩
    simp only [hs, List.mem_append, List.mem_cons] at ht ⊢
    tauto
  | @task i input before t after r _ hs hr =>
    have move := Mailbox.taskStep_move hr
    have hact := hidle t (by simp [hs])
    obtain ⟨hmbox, -, hnext⟩ := move.inactive hact
    refine ⟨hmbox ▸ hrun, fun t' ht' => ?_⟩
    simp only [List.mem_append, Option.mem_toList] at ht'
    rcases ht' with hm | hm | hm
    · exact hidle t' (by simp [hs, hm])
    · exact hnext t' hm
    · exact hidle t' (by simp [hs, hm])

end Node

end Ruactor
