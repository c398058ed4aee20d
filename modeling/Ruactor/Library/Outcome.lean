/-!
# Computations that may panic

A panic keeps the state it leaves behind. `stuck` is no behaviour of the program
that is modelled: it marks a computation that was given the wrong inputs.
`Ensures P Q` is partial correctness with a postcondition for each way out.
-/

inductive Outcome (α : Type)
  | returned (a : α)
  | panicked (a : α)
  | stuck

namespace Outcome

variable {α : Type}

def bind (o : Outcome α) (f : α → Outcome α) : Outcome α :=
  match o with
  | returned a => f a
  | panicked a => .panicked a
  | stuck => .stuck

/-- `P` holds where the computation returned, `Q` where it unwound. -/
def Ensures (P Q : α → Prop) : Outcome α → Prop
  | returned a => P a
  | panicked a => Q a
  | stuck => True

@[simp] theorem bind_returned (a : α) (f : α → Outcome α) : (returned a).bind f = f a := rfl

@[simp] theorem ensures_returned (P Q : α → Prop) (a : α) : (returned a).Ensures P Q ↔ P a :=
  Iff.rfl

@[simp] theorem ensures_stuck (P Q : α → Prop) : (stuck : Outcome α).Ensures P Q := trivial

theorem Ensures.bind {P P' Q : α → Prop} {o : Outcome α} {f : α → Outcome α}
    (ho : o.Ensures P Q) (hf : ∀ a, P a → (f a).Ensures P' Q) : (o.bind f).Ensures P' Q := by
  cases o with
  | returned a => exact hf a ho
  | panicked a => exact ho
  | stuck => trivial

theorem Ensures.mono {P P' Q Q' : α → Prop} {o : Outcome α} (ho : o.Ensures P Q)
    (hp : ∀ a, P a → P' a) (hq : ∀ a, Q a → Q' a) : o.Ensures P' Q' := by
  cases o with
  | returned a => exact hp a ho
  | panicked a => exact hq a ho
  | stuck => trivial

theorem Ensures.and {P P' Q Q' : α → Prop} {o : Outcome α} (h : o.Ensures P Q)
    (h' : o.Ensures P' Q') : o.Ensures (fun a => P a ∧ P' a) fun a => Q a ∧ Q' a := by
  cases o with
  | returned a => exact ⟨h, h'⟩
  | panicked a => exact ⟨h, h'⟩
  | stuck => trivial

theorem Ensures.bind_congr {P Q : α → Prop} {o : Outcome α} {f g : α → Outcome α}
    (ho : o.Ensures P Q) (h : ∀ a, P a → f a = g a) : o.bind f = o.bind g := by
  cases o with
  | returned a => exact h a ho
  | panicked a => rfl
  | stuck => rfl

end Outcome
