import Ruactor.Creation
import Ruactor.Library.Supply

/-!
# Generated names

`base64` makes at most eleven calls for an offset of 64 bits, and the offset can be read
back from its result. `random_name` gives the names of all offsets in turn, so no name
comes twice in a run of an actor before all of them have been given.
-/

namespace Ruactor

open Machine

variable {T : Type} {path : ActorPath} {option : PropsOption} {parent : ParentRef}

/-- `base64`, where `depth` bounds the calls. -/
def base64Within : Nat → Nat → String → Option String
  | 0, _, _ => none
  | depth + 1, l, s =>
    let s := s.push (base64Chars[l &&& 63]?.getD '~')
    let next := l >>> 6
    if next = 0 then some s else base64Within depth next s

theorem base64_step (l : Nat) (s : String) :
    base64 l s = if l < 64 then s.push (base64Digit l)
      else base64 (l / 64) (s.push (base64Digit l)) := by
  have hlast : l / 64 = 0 ↔ l < 64 := Nat.div_eq_zero_iff_lt (by decide)
  rw [base64]
  simp only [base64Digit, Nat.shiftRight_eq_div_pow, Nat.reducePow, hlast]

theorem base64Within_step (depth l : Nat) (s : String) :
    base64Within (depth + 1) l s = if l < 64 then some (s.push (base64Digit l))
      else base64Within depth (l / 64) (s.push (base64Digit l)) := by
  have hlast : l / 64 = 0 ↔ l < 64 := Nat.div_eq_zero_iff_lt (by decide)
  rw [base64Within]
  simp only [base64Digit, Nat.shiftRight_eq_div_pow, Nat.reducePow, hlast]

theorem base64Within_eq (depth l : Nat) (s : String) :
    base64Within (depth + 1) l s =
      if l < 64 ^ (depth + 1) then some (base64 l s) else none := by
  induction depth generalizing l s with
  | zero =>
    rw [base64Within_step, base64_step, base64Within, Nat.zero_add, Nat.pow_one]
    by_cases hlast : l < 64
    · rw [if_pos hlast, if_pos hlast, if_pos hlast]
    · rw [if_neg hlast, if_neg hlast]
  | succ depth ih =>
    have hdiv : l / 64 < 64 ^ (depth + 1) ↔ l < 64 ^ (depth + 1 + 1) := by
      rw [Nat.div_lt_iff_lt_mul (by decide), Nat.pow_succ 64 (depth + 1)]
    rw [base64Within_step, base64_step, ih]
    by_cases hlast : l < 64
    · have hpow : 64 ≤ 64 ^ (depth + 1 + 1) := Nat.le_self_pow (by omega) 64
      rw [if_pos hlast, if_pos hlast, if_pos (Nat.lt_of_lt_of_le hlast hpow)]
    · rw [if_neg hlast, if_neg hlast]
      simp only [hdiv]

theorem base64_terminates {l : Nat} (h : l < 2 ^ 64) (s : String) :
    base64Within 11 l s = some (base64 l s) := by
  have hlt : l < 64 ^ (10 + 1) := Nat.lt_trans h (by decide)
  rw [base64Within_eq, if_pos hlt]

example : base64Within 11 69 "$" = some "$fb" := by decide

/-- The offset that a name was generated from. -/
def generatedOffset (name : String) : Nat := base64Value (name.toList.drop 1)

theorem generatedOffset_base64 (l : Nat) : generatedOffset (base64 l "$") = l := by
  rw [generatedOffset, base64_toList]
  exact base64Value_digits l

theorem generated_injective : Function.Injective fun l => base64 l "$" :=
  fun _ _ => base64_injective

/-- The names that `random_name` gives in an operation. -/
def ContextOp.drawn (c : ActorContext T) : ContextOp T → List String
  | .createChild _ _ => [c.randomName.1]
  | _ => []

namespace ActorContext

/-- A run of a context with the operations `ops`, in which `random_name` gave `names`. What
else happens to the context leaves the offset as it is. -/
inductive Draws (start : ActorContext T) :
    List (ContextOp T) → List String → ActorContext T → Prop
  | start : Draws start [] [] start
  | op {ops names c} (rt : Runtime) (op : ContextOp T) : Draws start ops names c →
      Draws start (ops ++ [op]) (names ++ op.drawn c) (op.apply rt c).context
  | other {ops names c c'} : Draws start ops names c →
      c'.nextNameOffset = c.nextNameOffset → Draws start ops names c'

variable {start c : ActorContext T} {ops : List (ContextOp T)} {names : List String}

theorem drawn_cases (rt : Runtime) (c : ActorContext T) (op : ContextOp T) :
    (op.generates = true ∧ op.drawn c = [base64 c.nextNameOffset "$"] ∧
      (op.apply rt c).context.nextNameOffset = Supply.next (2 ^ 64) c.nextNameOffset) ∨
    (op.generates = false ∧ op.drawn c = [] ∧
      (op.apply rt c).context.nextNameOffset = c.nextNameOffset) := by
  cases op with
  | createChild messageType prop =>
    exact .inl ⟨rfl, rfl, c.randomName.2.getOrCreateChild_offset rt _ messageType prop⟩
  | getOrCreateChild name messageType prop =>
    exact .inr ⟨rfl, rfl, c.getOrCreateChild_offset rt name messageType prop⟩
  | _ => exact .inr ⟨rfl, rfl, ContextOp.apply_offset rt c rfl⟩

/-- The names of a run are those of a supply that began where the run did. -/
theorem Draws.supply (hstart : start.nextNameOffset < 2 ^ 64) (h : start.Draws ops names c) :
    c.nextNameOffset = (start.nextNameOffset + ops.countP ContextOp.generates) % 2 ^ 64 ∧
      names = Supply.taken (fun l => base64 l "$") (2 ^ 64) start.nextNameOffset
        (ops.countP ContextOp.generates) := by
  induction h with
  | start => exact ⟨(Nat.mod_eq_of_lt hstart).symm, rfl⟩
  | @op ops names c rt op _ ih =>
    obtain ⟨hoffset, hnames⟩ := ih
    rw [List.countP_append, List.countP_singleton]
    obtain ⟨hgenerates, hdrawn, hnext⟩ | ⟨hgenerates, hdrawn, hsame⟩ := drawn_cases rt c op
    · rw [hgenerates, if_pos rfl, Supply.taken_succ, hdrawn, hnext, ← hnames, hoffset,
        Supply.next_mod (by decide)]
      exact ⟨rfl, rfl⟩
    · rw [hgenerates, if_neg (by decide), Nat.add_zero, hdrawn, hsame, List.append_nil]
      exact ⟨hoffset, hnames⟩
  | other _ hsame ih => exact ⟨hsame.trans ih.1, ih.2⟩

theorem Draws.nodup_iff (hstart : start.nextNameOffset < 2 ^ 64) (h : start.Draws ops names c) :
    names.length = ops.countP ContextOp.generates ∧ (names.Nodup ↔ names.length ≤ 2 ^ 64) := by
  obtain ⟨-, hnames⟩ := h.supply hstart
  have hlength : names.length = ops.countP ContextOp.generates := by
    rw [hnames, Supply.taken_length]
  rw [hlength, hnames]
  exact ⟨rfl, Supply.taken_nodup generated_injective (by decide) _⟩

theorem After.draws (h : c.After ops) : ∃ names, Draws ActorContext.new ops names c := by
  induction h with
  | new => exact ⟨[], .start⟩
  | op rt op _ ih =>
    obtain ⟨names, hdraws⟩ := ih
    exact ⟨_, .op rt op hdraws⟩
  | childTerminate key _ ih =>
    obtain ⟨names, hdraws⟩ := ih
    exact ⟨names, .other hdraws rfl⟩
  | other _ _ _ hoffset ih =>
    obtain ⟨names, hdraws⟩ := ih
    exact ⟨names, .other hdraws hoffset⟩

end ActorContext

/-- `base64` terminates and can be inverted, and the names that `random_name` gives in a run
are different from each other for as long as there are offsets left. -/
theorem generated_names_distinct :
    (∀ l < 2 ^ 64, ∀ s, base64Within 11 l s = some (base64 l s)) ∧
    (∀ l, generatedOffset (base64 l "$") = l) ∧
    (∀ m n, m ≠ n → base64 m "$" ≠ base64 n "$") ∧
    ∀ (T : Type) (start c : ActorContext T) (ops : List (ContextOp T)) (names : List String),
      start.nextNameOffset < 2 ^ 64 → start.Draws ops names c →
        names.length = ops.countP ContextOp.generates ∧
          (names.Nodup ↔ names.length ≤ 2 ^ 64) := by
  refine ⟨fun l hl s => base64_terminates hl s, generatedOffset_base64, fun m n hne hsame => ?_,
    fun T start c ops names hstart hdraws => hdraws.nodup_iff hstart⟩
  exact hne (generated_injective hsame)

theorem generated_names_two : ∃ (c : ActorContext Nat) (names : List String),
    ActorContext.new.Draws [.createChild 0 {}, .createChild 0 {}] names c ∧ names.Nodup := by
  have hnone : (.new : ActorContext Nat).Draws [] [] .new := .start
  have hdraws := (hnone.op ⟨0, 0, 0⟩ (.createChild 0 {})).op ⟨0, 0, 0⟩ (.createChild 0 {})
  obtain ⟨hlength, hnodup⟩ := generated_names_distinct.2.2.2 _ _ _ _ _ (Nat.two_pow_pos 64) hdraws
  refine ⟨_, _, hdraws, hnodup.mpr ?_⟩
  rw [hlength]
  decide

/-- The contexts of an actor are of this kind, at rest and between its callbacks. -/
theorem Node.reachable_draws {nd : Node T} (h : (machine path option parent).Reachable nd) :
    ∃ ops names, ActorContext.new.Draws ops names (nd.mbox.dispatcher.context.getD .new) := by
  obtain ⟨ops, hafter⟩ := reachable_after h
  exact ⟨ops, hafter.draws⟩

end Ruactor
