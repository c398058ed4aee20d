/-!
# Deterministic step machines under a schedule

A machine moves by actions; every choice of the environment and of the
interleaving is part of the action, so a run is a list of actions. `Reach ok`
collects the states of the runs whose steps all satisfy `ok`, a condition on
the state before the step and on the action.
-/

universe u v

structure Machine (σ : Type u) (α : Type v) where
  start : σ
  step : σ → α → Option σ

namespace Machine

variable {σ : Type u} {α : Type v} (M : Machine σ α)

def exec : σ → List α → Option σ
  | s, [] => some s
  | s, a :: as => (M.step s a).bind fun t => exec t as

theorem exec_append (s : σ) (as bs : List α) :
    M.exec s (as ++ bs) = (M.exec s as).bind fun t => M.exec t bs := by
  induction as generalizing s with
  | nil => rfl
  | cons a as ih =>
    simp only [List.cons_append, exec, Option.bind_assoc]
    congr 1
    funext t
    exact ih t

theorem exec_snoc (s : σ) (as : List α) (a : α) :
    M.exec s (as ++ [a]) = (M.exec s as).bind fun t => M.step t a := by
  rw [exec_append]
  congr 1
  funext t
  simp [exec]

inductive Reach (ok : σ → α → Prop) : σ → Prop
  | start : Reach ok M.start
  | step {s t : σ} {a : α} : Reach ok s → ok s a → M.step s a = some t → Reach ok t

abbrev Reachable (s : σ) : Prop := M.Reach (fun _ _ => True) s

/-- Every step of the run satisfies the condition, and no step is refused. -/
def Allows (ok : σ → α → Prop) : σ → List α → Prop
  | _, [] => True
  | s, a :: as => ok s a ∧ (M.step s a).elim False fun t => Allows ok t as

instance Allows.decidable (ok : σ → α → Prop) [∀ s a, Decidable (ok s a)] :
    ∀ (as : List α) (s : σ), Decidable (M.Allows ok s as)
  | [], _ => isTrue trivial
  | a :: as, s =>
    match h : M.step s a with
    | none => isFalse fun hs => by simp [Allows, h] at hs
    | some t =>
      have := Allows.decidable ok as t
      decidable_of_iff (ok s a ∧ M.Allows ok t as) (by simp [Allows, h])

variable {M} {ok : σ → α → Prop} {s t : σ}

theorem Reach.invariant {P : σ → Prop} (start : P M.start)
    (preserved : ∀ {s t a}, M.Reach ok s → P s → ok s a → M.step s a = some t → P t)
    (hs : M.Reach ok s) : P s := by
  induction hs with
  | start => exact start
  | step prior allowed move ih => exact preserved prior ih allowed move

theorem Reach.mono {weaker : σ → α → Prop} (hw : ∀ s a, ok s a → weaker s a)
    (hs : M.Reach ok s) : M.Reach weaker s := by
  induction hs with
  | start => exact .start
  | step _ allowed move ih => exact .step ih (hw _ _ allowed) move

theorem Reach.reachable (hs : M.Reach ok s) : M.Reachable s :=
  hs.mono fun _ _ _ => trivial

theorem Reach.exec (hs : M.Reach ok s) {as : List α} (allowed : M.Allows ok s as)
    (run : M.exec s as = some t) : M.Reach ok t := by
  induction as generalizing s with
  | nil =>
    cases run
    exact hs
  | cons a as ih =>
    obtain ⟨u, move, rest⟩ := Option.bind_eq_some_iff.mp run
    have hu : ok s a ∧ M.Allows ok u as := by simpa [Allows, move] using allowed
    exact ih (.step hs hu.1 move) hu.2 rest

theorem Reach.exec_reachable (hs : M.Reachable s) {as : List α}
    (run : M.exec s as = some t) : M.Reachable t := by
  induction as generalizing s with
  | nil =>
    cases run
    exact hs
  | cons a as ih =>
    obtain ⟨u, move, rest⟩ := Option.bind_eq_some_iff.mp run
    exact ih (.step hs trivial move) rest

end Machine
