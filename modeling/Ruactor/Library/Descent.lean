import Mathlib.Order.WellFounded
import Ruactor.Library.Machine

/-!
# Descent

A state is below another one when it is smaller in the first of a list of measures in which
the two differ. A step may raise every measure that stands behind one that it lowers. Where
a machine's own steps go down and its free steps change no measure, every run of both makes
finitely many own steps.
-/

universe u v

namespace Descent

variable {σ : Type u} {m : σ → Nat} {ms ms' : List (σ → Nat)} {s s' : σ}

def Below : List (σ → Nat) → σ → σ → Prop
  | [], _, _ => False
  | m :: ms, s', s => m s' < m s ∨ m s' = m s ∧ Below ms s' s

theorem Below.here (h : m s' < m s) : Below (m :: ms) s' s := .inl h

theorem Below.skip (h : m s' ≤ m s) (hbelow : Below ms s' s) : Below (m :: ms) s' s :=
  h.lt_or_eq.imp_right fun heq => ⟨heq, hbelow⟩

theorem Below.append_left (h : Below ms s' s) : Below (ms ++ ms') s' s := by
  induction ms with
  | nil => exact h.elim
  | cons m ms ih => exact h.imp_right fun ⟨heq, hbelow⟩ => ⟨heq, ih hbelow⟩

theorem Below.append_right (h : ∀ m ∈ ms, m s' ≤ m s) (hbelow : Below ms' s' s) :
    Below (ms ++ ms') s' s := by
  induction ms with
  | nil => exact hbelow
  | cons m ms ih =>
    rw [List.forall_mem_cons] at h
    exact .skip h.1 (ih h.2)

theorem Below.append_cases (h : Below (ms ++ ms') s' s) :
    Below ms s' s ∨ (∀ m ∈ ms, m s' = m s) ∧ Below ms' s' s := by
  induction ms with
  | nil => exact .inr ⟨List.forall_mem_nil _, h⟩
  | cons m ms ih =>
    rcases h with hlt | ⟨heq, hrest⟩
    · exact .inl (.inl hlt)
    · obtain hbelow | ⟨hsame, hbelow⟩ := ih hrest
      · exact .inl (.inr ⟨heq, hbelow⟩)
      · exact .inr ⟨List.forall_mem_cons.mpr ⟨heq, hsame⟩, hbelow⟩

theorem Below.congr {u : σ} (h : Below ms s' u) (hsame : ∀ m ∈ ms, m u = m s) :
    Below ms s' s := by
  induction ms with
  | nil => exact h.elim
  | cons m ms ih =>
    rw [List.forall_mem_cons] at hsame
    rw [Below, ← hsame.1]
    exact h.imp_right fun ⟨heq, hbelow⟩ => ⟨heq, ih hbelow hsame.2⟩

/-- A part of a whole goes down, and the measures of the whole follow those of the part. -/
theorem Below.lift {τ : Type v} {g : (σ → Nat) → τ → Nat} {t t' : τ}
    (hg : ∀ m ∈ ms, (m s' ≤ m s → g m t' ≤ g m t) ∧ (m s' < m s → g m t' < g m t))
    (h : Below ms s' s) : Below (ms.map g) t' t := by
  induction ms with
  | nil => exact h.elim
  | cons m ms ih =>
    rw [List.forall_mem_cons] at hg
    rcases h with hlt | ⟨heq, hrest⟩
    · exact .here (hg.1.2 hlt)
    · exact .skip (hg.1.1 heq.le) (ih hg.2 hrest)

theorem below_wf (ms : List (σ → Nat)) : WellFounded (Below ms) := by
  induction ms with
  | nil => exact ⟨fun s => ⟨s, fun _ h => h.elim⟩⟩
  | cons m ms ih =>
    have hlex : WellFounded (Prod.Lex (· < ·) (Below ms)) :=
      WellFounded.prod_lex Nat.lt_wfRel.wf ih
    refine Subrelation.wf (fun {s' s} h => ?_) (InvImage.wf (fun s => (m s, s)) hlex)
    rcases h with h | ⟨heq, h⟩
    · exact .left _ _ h
    · change Prod.Lex _ _ (m s', s') (m s, s)
      rw [heq]
      exact .right _ h

end Descent

namespace Machine

variable {σ : Type u} {α : Type v} {M : Machine σ α} {ok own free : σ → α → Prop} {s t : σ}

/-- The machine gets from `s` to `t` by free steps alone. -/
inductive Waits (M : Machine σ α) (free : σ → α → Prop) (s : σ) : σ → Prop
  | refl : Waits M free s s
  | step {t u : σ} {a : α} : Waits M free s t → free t a → M.step t a = some u → Waits M free s u

theorem Waits.keeps {I : σ → Prop}
    (keeps : ∀ {s t a}, I s → free s a → M.step s a = some t → I t) (h : M.Waits free s t)
    (hs : I s) : I t := by
  induction h with
  | refl => exact hs
  | step _ hfree hstep ih => exact keeps ih hfree hstep

theorem Waits.reach (h : M.Waits free s t) (hok : ∀ s a, free s a → ok s a)
    (hs : M.Reach ok s) : M.Reach ok t :=
  h.keeps (fun hs hfree hstep => .step hs (hok _ _ hfree) hstep) hs

/-- The machine goes from `s` to `t` by a step of its own, with any free steps before it. -/
def Goes (M : Machine σ α) (ok own free : σ → α → Prop) (t s : σ) : Prop :=
  M.Reach ok s ∧ ∃ u a, M.Waits free s u ∧ own u a ∧ M.step u a = some t

/-- The measures may depend on where the run starts. -/
theorem goes_wf_from (hok : ∀ s a, free s a → ok s a)
    (h : ∀ s, M.Reach ok s → ∃ ms, ∃ I : σ → Prop, I s ∧
      (∀ {s t a}, M.Reach ok s → I s → own s a → M.step s a = some t →
        I t ∧ Descent.Below ms t s) ∧
      ∀ {s t a}, I s → free s a → M.step s a = some t → I t ∧ ∀ m ∈ ms, m t = m s) :
    WellFounded (M.Goes ok own free) := by
  refine ⟨fun s => ⟨s, fun t hgoes => ?_⟩⟩
  obtain ⟨ms, I, hs, keeps, waits⟩ := h s hgoes.1
  have descends : ∀ {s t}, I s → M.Goes ok own free t s → I t ∧ Descent.Below ms t s := by
    rintro s t hs ⟨hr, u, a, hwaits, hown, hstep⟩
    have hu : I u ∧ ∀ m ∈ ms, m u = m s :=
      hwaits.keeps (I := fun u => I u ∧ ∀ m ∈ ms, m u = m s) (fun hi hfree hstep => by
        obtain ⟨ht, hsame⟩ := waits hi.1 hfree hstep
        exact ⟨ht, fun m hm => (hsame m hm).trans (hi.2 m hm)⟩) ⟨hs, fun _ _ => rfl⟩
    obtain ⟨ht, hbelow⟩ := keeps (hwaits.reach hok hr) hu.1 hown hstep
    exact ⟨ht, hbelow.congr hu.2⟩
  have all : ∀ s, I s → Acc (M.Goes ok own free) s := by
    intro s hs
    induction s using (Descent.below_wf ms).induction with
    | _ s ih =>
      refine ⟨s, fun t hgoes => ?_⟩
      obtain ⟨ht, hbelow⟩ := descends hs hgoes
      exact ih t hbelow ht
  exact all t (descends hs hgoes).1

theorem goes_wf {ms : List (σ → Nat)} (hok : ∀ s a, free s a → ok s a)
    (h : ∀ {s t a}, M.Reach ok s → own s a → M.step s a = some t → Descent.Below ms t s)
    (waits : ∀ {s t a}, free s a → M.step s a = some t → ∀ m ∈ ms, m t = m s) :
    WellFounded (M.Goes ok own free) :=
  goes_wf_from hok fun _ _ => ⟨ms, fun _ => True, trivial,
    fun hr _ hown hstep => ⟨trivial, h hr hown hstep⟩,
    fun _ hfree hstep => ⟨trivial, waits hfree hstep⟩⟩

end Machine
