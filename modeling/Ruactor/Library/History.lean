import Mathlib.Data.List.Induction

/-!
# Laws of a log

A log is the list of the events of a run, the newest at the end. A law says of an
event whether it may come next; a log is lawful when each of its events could.
-/

universe u v

namespace History

variable {ε : Type u} {next : List ε → ε → Prop} {log : List ε}

def Lawful (next : List ε → ε → Prop) (log : List ε) : Prop :=
  ∀ before e after, log = before ++ e :: after → next before e

theorem lawful_nil : Lawful next [] := by
  intro before e after h
  simp at h

theorem Lawful.earlier {earlier : List ε} (h : Lawful next log) (hp : earlier <+: log) :
    Lawful next earlier := by
  obtain ⟨later, rfl⟩ := hp
  intro before e after heq
  exact h before e (after ++ later) (by simp [heq])

theorem Lawful.snoc {e : ε} (h : Lawful next log) (he : next log e) :
    Lawful next (log ++ [e]) := by
  intro before e' after heq
  rcases List.eq_nil_or_concat after with rfl | ⟨after, last, rfl⟩
  · obtain ⟨rfl, hlast⟩ := List.append_inj' heq rfl
    cases hlast
    exact he
  · have heq : log ++ [e] = (before ++ e' :: after) ++ [last] := by simpa using heq
    exact h before e' after (List.append_inj' heq rfl).1

/-- The events of one step, each of them lawful after the ones before it. -/
theorem Lawful.append {events : List ε} (h : Lawful next log)
    (hevents : ∀ before e after, events = before ++ e :: after → next (log ++ before) e) :
    Lawful next (log ++ events) := by
  induction events using List.reverseRecOn with
  | nil => simpa using h
  | append_singleton events e ih =>
    have hlog : Lawful next (log ++ events) := ih fun before e' after heq =>
      hevents before e' (after ++ [e]) (by simp [heq])
    have hlast : next (log ++ events) e := hevents events e [] rfl
    simpa using hlog.snoc hlast

theorem Lawful.append_of_mem {events : List ε} (h : Lawful next log)
    (hevents : ∀ e ∈ events, ∀ before, next before e) : Lawful next (log ++ events) :=
  h.append fun before e after heq => hevents e (by simp [heq]) (log ++ before)

/-- An event that came later was lawful at its own moment. -/
theorem Lawful.later {before after : List ε} {first e : ε} (h : Lawful next log)
    (hlog : log = before ++ first :: after) (he : e ∈ after) :
    ∃ middle, next (before ++ first :: middle) e := by
  obtain ⟨middle, rest, rfl⟩ := List.append_of_mem he
  exact ⟨middle, h _ e rest (by simp [hlog])⟩

/-- `forbidden` events do not come after a `stop` event. -/
def Never (stop forbidden : ε → Bool) (before : List ε) (e : ε) : Prop :=
  forbidden e = true → ∀ e' ∈ before, stop e' = false

theorem Lawful.never {stop forbidden : ε → Bool} {before after : List ε} {first : ε}
    (h : Lawful (Never stop forbidden) log) (hlog : log = before ++ first :: after)
    (hstop : stop first = true) : ∀ e ∈ after, forbidden e = false := by
  intro e he
  obtain ⟨middle, hnever⟩ := h.later hlog he
  cases hf : forbidden e with
  | false => rfl
  | true => exact absurd (hnever hf first (by simp)) (by simp [hstop])

/-- Of two places in a log one is earlier, unless they are the same. -/
theorem trichotomy {before before' after after' : List ε} {e e' : ε}
    (hlog : before ++ e :: after = before' ++ e' :: after') :
    (∃ middle, before' = before ++ e :: middle ∧ after = middle ++ e' :: after') ∨
    (before = before' ∧ e = e' ∧ after = after') ∨
    ∃ middle, before = before' ++ e' :: middle ∧ after' = middle ++ e :: after := by
  rcases List.append_eq_append_iff.mp hlog with ⟨mid, hbefore, hafter⟩ | ⟨mid, hbefore, hafter⟩
  · cases mid with
    | nil =>
      obtain ⟨rfl, rfl⟩ := List.cons.inj hafter
      exact .inr (.inl ⟨by simpa using hbefore.symm, rfl, rfl⟩)
    | cons x mid =>
      obtain ⟨rfl, rfl⟩ := List.cons.inj hafter
      exact .inl ⟨mid, hbefore, rfl⟩
  · cases mid with
    | nil =>
      obtain ⟨rfl, rfl⟩ := List.cons.inj hafter
      exact .inr (.inl ⟨by simpa using hbefore, rfl, rfl⟩)
    | cons x mid =>
      obtain ⟨rfl, rfl⟩ := List.cons.inj hafter
      exact .inr (.inr ⟨mid, hbefore, rfl⟩)

/-- An event of a kind that occurs once stands at one place in the log. -/
theorem before_unique {p : ε → Bool} {before before' after after' : List ε} {e e' : ε}
    (hlog : before ++ e :: after = before' ++ e' :: after') (he : p e = true) (he' : p e' = true)
    (hcount : (before ++ e :: after).countP p ≤ 1) : before = before' := by
  rcases trichotomy hlog with ⟨mid, -, rfl⟩ | ⟨h, -⟩ | ⟨mid, rfl, -⟩
  · simp only [List.countP_append, List.countP_cons, he, he', if_true] at hcount
    omega
  · exact h
  · simp only [List.countP_append, List.countP_cons, he, he', if_true] at hcount
    omega

/-- So does the first occurrence of any event. -/
theorem first_unique {before before' after after' : List ε} {e : ε}
    (hlog : before ++ e :: after = before' ++ e :: after') (h : e ∉ before) (h' : e ∉ before') :
    before = before' := by
  rcases trichotomy hlog with ⟨mid, rfl, -⟩ | ⟨hsame, -⟩ | ⟨mid, rfl, -⟩
  · simp at h'
  · exact hsame
  · simp at h

/-- What stands before a list that does not contain the event stands before the event. -/
theorem prefix_of_not_mem {before after done rest : List ε} {e : ε}
    (hlog : done ++ rest = before ++ e :: after) (h : e ∉ done) : done <+: before := by
  rcases List.append_eq_append_iff.mp hlog with ⟨mid, hbefore, -⟩ | ⟨mid, hdone, hafter⟩
  · exact ⟨mid, hbefore.symm⟩
  · cases mid with
    | nil => exact ⟨[], by simpa using hdone⟩
    | cons x mid =>
      obtain ⟨rfl, -⟩ := List.cons.inj hafter
      exact absurd (by simp [hdone]) h

/-- What one reading of a log finds, a wider reading finds in the same order. -/
theorem filterMap_sublist {β : Type v} {f g : ε → Option β}
    (h : ∀ e b, f e = some b → g e = some b) (log : List ε) :
    (log.filterMap f).Sublist (log.filterMap g) := by
  induction log with
  | nil => exact .refl _
  | cons e log ih =>
    cases hf : f e with
    | some b =>
      rw [List.filterMap_cons_some hf, List.filterMap_cons_some (h e b hf)]
      exact ih.cons_cons b
    | none =>
      rw [List.filterMap_cons_none hf]
      cases hg : g e with
      | none => simpa only [List.filterMap_cons_none hg] using ih
      | some b =>
        rw [List.filterMap_cons_some hg]
        exact ih.cons b

/-- The `counted` events after the first `stop` event. -/
def countSince (stop counted : ε → Bool) : List ε → Nat
  | [] => 0
  | e :: log => if stop e then log.countP counted else countSince stop counted log

section CountSince

variable {stop counted : ε → Bool}

theorem countSince_append (log more : List ε) : countSince stop counted (log ++ more) =
    if log.any stop then countSince stop counted log + more.countP counted
    else countSince stop counted more := by
  induction log with
  | nil => rfl
  | cons e log ih => cases he : stop e <;> simp [countSince, he, ih]

theorem countSince_le (log : List ε) : countSince stop counted log ≤ log.countP counted := by
  induction log with
  | nil => exact Nat.le_refl 0
  | cons e log ih =>
    have hle : log.countP counted ≤ (e :: log).countP counted :=
      (List.sublist_cons_self e log).countP_le
    cases he : stop e with
    | true => simpa [countSince, he] using hle
    | false => simpa [countSince, he] using Nat.le_trans ih hle

theorem countSince_eq_zero {log : List ε} (h : log.any stop = false) :
    countSince stop counted log = 0 := by
  have happend := @countSince_append _ stop counted log []
  simpa [h, countSince] using happend

theorem countSince_append_le (log more : List ε) : countSince stop counted (log ++ more) ≤
    countSince stop counted log + more.countP counted := by
  rw [countSince_append]
  split
  · exact Nat.le_refl _
  · exact Nat.le_trans (countSince_le more) (Nat.le_add_left _ _)

/-- Uncounted events change nothing. -/
theorem countSince_later (log : List ε) {more : List ε}
    (h : ∀ e ∈ more, counted e = false) :
    countSince stop counted (log ++ more) = countSince stop counted log := by
  have hnone : more.countP counted = 0 := List.countP_eq_zero.mpr fun e he => by simp [h e he]
  rw [countSince_append]
  split
  · rw [hnone, Nat.add_zero]
  next hany =>
    have hzero : countSince stop counted log = 0 := countSince_eq_zero (by simpa using hany)
    rw [hzero]
    exact Nat.le_zero.mp (hnone ▸ countSince_le more)

/-- No `stop` event has more after it than the first one. -/
theorem countP_le_countSince {log before after : List ε} {e : ε}
    (hlog : log = before ++ e :: after) (he : stop e = true) :
    after.countP counted ≤ countSince stop counted log := by
  rw [hlog, countSince_append]
  split
  · exact Nat.le_trans ((List.sublist_cons_self e after).countP_le) (Nat.le_add_left _ _)
  · simp [countSince, he]

end CountSince

end History
