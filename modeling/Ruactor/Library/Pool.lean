/-!
# Pools of threads

A pool is a list of program counters. One thread moves at a time: its new
counter takes its place, a thread that has ended leaves the pool, and threads
that were spawned stand at the end.
-/

universe u

namespace Pool

variable {τ : Type u}

def advance (pool : List τ) (i : Nat) : Option τ → List τ
  | some t => pool.set i t
  | none => pool.eraseIdx i

/-- The pool around a thread is the same before and after the thread's move. -/
theorem exists_split {pool : List τ} {i : Nat} {t : τ} (ht : pool[i]? = some t) :
    ∃ before after, pool = before ++ t :: after ∧
      ∀ next spawned, advance (pool ++ spawned) i next =
        before ++ (next.toList ++ (after ++ spawned)) := by
  obtain ⟨hi, rfl⟩ := List.getElem?_eq_some_iff.mp ht
  refine ⟨pool.take i, pool.drop (i + 1), ?_, ?_⟩
  · rw [List.getElem_cons_drop, List.take_append_drop]
  · intro next spawned
    have hd : (pool ++ spawned).drop (i + 1) = pool.drop (i + 1) ++ spawned :=
      List.drop_append_of_le_length hi
    have hk : (pool ++ spawned).take i = pool.take i :=
      List.take_append_of_le_length (Nat.le_of_lt hi)
    cases next with
    | none => simp [advance, List.eraseIdx_eq_take_drop_succ, hd, hk]
    | some t =>
      simp only [advance, List.set_eq_take_append_cons_drop, List.length_append, hd, hk]
      rw [if_pos (by omega)]
      simp

theorem advance_at (before after : List τ) (t : τ) (next : Option τ) :
    advance (before ++ t :: after) before.length next = before ++ (next.toList ++ after) := by
  cases next with
  | none => simp [advance, List.eraseIdx_append_of_length_le]
  | some t' => simp [advance, List.set_append_right]

/-! Where a thread of the pool comes from. -/

theorem set_get {pool : List τ} {t t' : τ} {i j : Nat} (h : (pool.set i t)[j]? = some t') :
    j = i ∧ t' = t ∨ j ≠ i ∧ pool[j]? = some t' := by
  by_cases hj : i = j
  · subst hj
    rw [List.getElem?_set_self'] at h
    obtain ⟨_, -, rfl⟩ := Option.map_eq_some_iff.mp h
    exact .inl ⟨rfl, rfl⟩
  · rw [List.getElem?_set_ne hj] at h
    exact .inr ⟨Ne.symm hj, h⟩

theorem concat_get {pool : List τ} {t new : τ} {i : Nat} :
    (pool ++ [new])[i]? = some t ↔ pool[i]? = some t ∨ i = pool.length ∧ t = new := by
  grind

end Pool
