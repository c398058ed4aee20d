import Mathlib.Data.List.MinMax
import Mathlib.Data.List.Perm.Basic

/-!
# Taking least elements out of a collection

`Extracted` is the state of a loop that takes an element with the least key again and
again: what was taken, in this order, and what is left. A loop that stops at the first
element from a bound on has taken exactly what is below the bound.
-/

universe u v

structure Extracted {α : Type u} {β : Type v} [LinearOrder β] (key : α → β)
    (all taken left : List α) : Prop where
  perm : all.Perm (taken ++ left)
  sorted : taken.Pairwise fun a b => key a ≤ key b
  below : ∀ a ∈ taken, ∀ b ∈ left, key a ≤ key b

namespace Extracted

variable {α : Type u} {β : Type v} [LinearOrder β] {key : α → β} {all taken left : List α}

theorem start (all : List α) : Extracted key all [] all :=
  ⟨.refl _, .nil, nofun⟩

theorem congr {left' : List α} (h : Extracted key all taken left) (hperm : left.Perm left') :
    Extracted key all taken left' :=
  ⟨h.perm.trans (hperm.append_left _), h.sorted, fun a ha b hb =>
    h.below a ha b (hperm.mem_iff.mpr hb)⟩

theorem take {a : α} {rest : List α} (h : Extracted key all taken (a :: rest))
    (hleast : ∀ b ∈ rest, key a ≤ key b) : Extracted key all (taken ++ [a]) rest := by
  refine ⟨by simpa using h.perm, List.pairwise_append.mpr ⟨h.sorted, ?_, ?_⟩, ?_⟩
  · exact List.pairwise_singleton _ _
  · intro b hb c hc
    rw [List.mem_singleton.mp hc]
    exact h.below b hb a List.mem_cons_self
  · intro b hb c hc
    rcases List.mem_append.mp hb with hb | hb
    · exact h.below b hb c (List.mem_cons_of_mem _ hc)
    · rw [List.mem_singleton.mp hb]
      exact hleast c hc

theorem exists_least {l : List α} (h : l ≠ []) :
    ∃ (i : Nat) (a : α), l[i]? = some a ∧ ∀ b ∈ l, key a ≤ key b := by
  cases hmin : l.argmin key with
  | none => exact absurd (List.argmin_eq_none.mp hmin) h
  | some a =>
    obtain ⟨i, hi⟩ := List.mem_iff_getElem?.mp (List.argmin_mem hmin)
    exact ⟨i, a, hi, fun b hb => List.le_of_mem_argmin hb hmin⟩

/-- When the loop stops at the bound, the chosen elements are parted by it. -/
theorem chosen {bound : β} {p : α → Bool} (h : Extracted key all taken left)
    (htaken : ∀ a ∈ taken, p a = true → key a < bound) (hleft : ∀ a ∈ left, bound ≤ key a) :
    (taken.filter p).Perm (all.filter fun a => p a && decide (key a < bound)) ∧
      (left.filter p).Perm (all.filter fun a => p a && decide (bound ≤ key a)) := by
  have htake : taken.filter (fun a => p a && decide (key a < bound)) = taken.filter p :=
    List.filter_congr fun a ha => by
      cases hp : p a with
      | false => rfl
      | true => simpa using htaken a ha hp
  have hrest : left.filter (fun a => p a && decide (bound ≤ key a)) = left.filter p :=
    List.filter_congr fun a ha => by simp [hleft a ha]
  have hnone : left.filter (fun a => p a && decide (key a < bound)) = [] := by
    rw [List.filter_eq_nil_iff]
    exact fun a ha => by simp [hleft a ha]
  have hnone' : taken.filter (fun a => p a && decide (bound ≤ key a)) = [] := by
    rw [List.filter_eq_nil_iff]
    exact fun a ha => by simpa using htaken a ha
  refine ⟨(List.Perm.symm ?_), (List.Perm.symm ?_)⟩
  · simpa [htake, hnone] using h.perm.filter fun a => p a && decide (key a < bound)
  · simpa [hrest, hnone'] using h.perm.filter fun a => p a && decide (bound ≤ key a)

end Extracted
