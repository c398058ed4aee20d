import Ruactor.Library.Machine

/-!
# Simulation between two machines

Each step of one machine is answered by a run of another, which may be empty. The first
machine then reaches nothing that the second one does not: what holds of all states of the
second one holds of the states of the first that stand for them.
-/

universe u v w x

namespace Machine

variable {σ : Type u} {α : Type v} {τ : Type w} {β : Type x}

/-- `related` holds at the start and is kept by each allowed step of `M`, for a run of `N`
that is allowed in its turn. -/
structure Simulation (M : Machine σ α) (N : Machine τ β) (ok : σ → α → Prop)
    (allowed : τ → β → Prop) (related : σ → τ → Prop) : Prop where
  start : related M.start N.start
  step : ∀ {s s' t a}, M.Reach ok s → N.Reach allowed t → related s t → ok s a →
    M.step s a = some s' →
    ∃ bs t', N.Allows allowed t bs ∧ N.exec t bs = some t' ∧ related s' t'

variable {M : Machine σ α} {N : Machine τ β} {ok : σ → α → Prop} {allowed : τ → β → Prop}
  {related : σ → τ → Prop}

theorem Allows.append {t t' : τ} {bs cs : List β} (h : N.Allows allowed t bs)
    (hexec : N.exec t bs = some t') (h' : N.Allows allowed t' cs) :
    N.Allows allowed t (bs ++ cs) := by
  induction bs generalizing t with
  | nil =>
    cases hexec
    exact h'
  | cons b bs ih =>
    obtain ⟨u, hstep, hrest⟩ := Option.bind_eq_some_iff.mp hexec
    have hu : allowed t b ∧ N.Allows allowed u bs := by simpa [Allows, hstep] using h
    exact ⟨hu.1, by simpa [hstep] using ih hu.2 hrest⟩

theorem allows_of_exec (hall : ∀ t b, allowed t b) {t t' : τ} {bs : List β}
    (hexec : N.exec t bs = some t') : N.Allows allowed t bs := by
  induction bs generalizing t with
  | nil => trivial
  | cons b bs ih =>
    obtain ⟨u, hstep, hrest⟩ := Option.bind_eq_some_iff.mp hexec
    exact ⟨hall t b, by simpa [hstep] using ih hrest⟩

theorem allows_one {t t' : τ} {b : β} (hok : allowed t b) (hstep : N.step t b = some t') :
    N.Allows allowed t [b] := by
  simp [Allows, hok, hstep]

theorem exec_one (t : τ) (b : β) : N.exec t [b] = N.step t b := by
  simp [exec]

theorem Simulation.reach (sim : Simulation M N ok allowed related) {s : σ}
    (h : M.Reach ok s) : ∃ t, N.Reach allowed t ∧ related s t := by
  induction h with
  | start => exact ⟨N.start, .start, sim.start⟩
  | step prior hok hstep ih =>
    obtain ⟨t, ht, hrelated⟩ := ih
    obtain ⟨bs, t', hallows, hexec, hrelated'⟩ := sim.step prior ht hrelated hok hstep
    exact ⟨t', ht.exec hallows hexec, hrelated'⟩

/-- A refinement mapping: the abstract state is a function of the concrete one. -/
abbrev Refines (M : Machine σ α) (N : Machine τ β) (ok : σ → α → Prop)
    (allowed : τ → β → Prop) (f : σ → τ) : Prop :=
  Simulation M N ok allowed fun s t => f s = t

theorem Refines.reach {f : σ → τ} (sim : Refines M N ok allowed f) {s : σ}
    (h : M.Reach ok s) : N.Reach allowed (f s) := by
  obtain ⟨t, ht, rfl⟩ := Simulation.reach sim h
  exact ht

/-- A refinement mapping takes runs to runs, from any state that is reached. -/
theorem Refines.exec {f : σ → τ} (sim : Refines M N ok allowed f) {s s' : σ} (h : M.Reach ok s)
    {as : List α} (hallows : M.Allows ok s as) (hexec : M.exec s as = some s') :
    ∃ bs, N.Allows allowed (f s) bs ∧ N.exec (f s) bs = some (f s') := by
  induction as generalizing s with
  | nil =>
    cases hexec
    exact ⟨[], trivial, rfl⟩
  | cons a as ih =>
    obtain ⟨u, hstep, hrest⟩ := Option.bind_eq_some_iff.mp hexec
    have hu : ok s a ∧ M.Allows ok u as := by simpa [Allows, hstep] using hallows
    obtain ⟨bs, _, hbs, hrun, rfl⟩ := sim.step h (sim.reach h) rfl hu.1 hstep
    obtain ⟨cs, hcs, hrun'⟩ := ih (.step h hu.1 hstep) hu.2 hrest
    exact ⟨bs ++ cs, hbs.append hrun hcs, by rw [exec_append, hrun, Option.bind_some, hrun']⟩

/-- The usual case: a step is answered by one step, or by none. -/
theorem Refines.of_step {f : σ → τ} (start : f M.start = N.start)
    (step : ∀ {s s' a}, M.Reach ok s → N.Reach allowed (f s) → ok s a → M.step s a = some s' →
      f s' = f s ∨ ∃ b, allowed (f s) b ∧ N.step (f s) b = some (f s')) :
    Refines M N ok allowed f where
  start := start
  step {s s' t a} hs ht hrelated hok hstep := by
    subst hrelated
    rcases step hs ht hok hstep with hsame | ⟨b, hb, hnext⟩
    · exact ⟨[], f s, trivial, rfl, hsame⟩
    · exact ⟨[b], f s', allows_one hb hnext, (exec_one _ _).trans hnext, rfl⟩

end Machine
