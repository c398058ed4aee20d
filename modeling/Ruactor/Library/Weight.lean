/-!
# Weights of lists

The weight of a list is the sum of what its members weigh. Where values are moved between
places and are never copied, the places together get no heavier, whatever the weights are.
-/

universe u v

namespace Weight

variable {α : Type u} {β : Type v} {w : α → Nat} {l l' : List α}

def weigh (w : α → Nat) : List α → Nat
  | [] => 0
  | x :: l => w x + weigh w l

@[simp] theorem weigh_nil : weigh w [] = 0 := rfl

@[simp] theorem weigh_cons (x : α) : weigh w (x :: l) = w x + weigh w l := rfl

@[simp] theorem weigh_append : weigh w (l ++ l') = weigh w l + weigh w l' := by
  induction l with
  | nil => exact (Nat.zero_add _).symm
  | cons x l ih => rw [List.cons_append, weigh_cons, weigh_cons, ih, Nat.add_assoc]

theorem weigh_mono {w' : α → Nat} (h : ∀ x ∈ l, w x ≤ w' x) : weigh w l ≤ weigh w' l := by
  induction l with
  | nil => exact Nat.le_refl _
  | cons x l ih =>
    rw [List.forall_mem_cons] at h
    exact Nat.add_le_add h.1 (ih h.2)

theorem weigh_lt {w' : α → Nat} (h : ∀ x ∈ l, w x ≤ w' x) {x : α} (hx : x ∈ l)
    (hlt : w x < w' x) : weigh w l < weigh w' l := by
  induction l with
  | nil => cases hx
  | cons y l ih =>
    rw [List.forall_mem_cons] at h
    rcases List.mem_cons.mp hx with rfl | hx
    · exact Nat.add_lt_add_of_lt_of_le hlt (weigh_mono h.2)
    · exact Nat.add_lt_add_of_le_of_lt h.1 (ih h.2 hx)

theorem weigh_pos : 0 < weigh w l ↔ ∃ x ∈ l, 0 < w x := by
  induction l with
  | nil => simp
  | cons x l ih => simp only [weigh_cons, Nat.add_pos_iff_pos_or_pos, ih, List.mem_cons,
      or_and_right, exists_or, exists_eq_left]

theorem weigh_eq_zero : weigh w l = 0 ↔ ∀ x ∈ l, w x = 0 := by
  induction l with
  | nil => simp
  | cons x l ih => simp [← ih]

theorem weigh_flatMap_nil {f : β → List α} {l : List β} (h : ∀ b ∈ l, f b = []) :
    weigh w (l.flatMap f) = 0 := by
  rw [List.flatMap_eq_nil_iff.mpr h, weigh_nil]

theorem weigh_flatMap_le {f g : β → List α} (h : ∀ b, weigh w (f b) ≤ weigh w (g b)) (l : List β) :
    weigh w (l.flatMap f) ≤ weigh w (l.flatMap g) := by
  induction l with
  | nil => simp
  | cons b l ih =>
    rw [List.flatMap_cons, List.flatMap_cons, weigh_append, weigh_append]
    exact Nat.add_le_add (h b) ih

end Weight
