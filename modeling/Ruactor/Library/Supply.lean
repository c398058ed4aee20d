import Mathlib.Data.List.Nodup
import Mathlib.Data.Nat.ModEq

/-!
# Names from a counter that wraps around

A supply gives the name of its counter, which runs through the numbers below `N` in a
circle. If names are injective, none comes again before all `N` of them have been given.
-/

universe u

namespace Supply

variable {α : Type u} {name : Nat → α} {N start k : Nat}

def next (N k : Nat) : Nat := if k + 1 < N then k + 1 else 0

/-- The first `n` names, from `start` on. -/
def taken (name : Nat → α) (N start n : Nat) : List α :=
  (List.range n).map fun k => name ((start + k) % N)

theorem next_mod (hN : 0 < N) (k : Nat) : next N (k % N) = (k + 1) % N := by
  have hlt := Nat.mod_lt k hN
  rw [next, ← Nat.mod_add_mod k N 1]
  split
  next hinside => rw [Nat.mod_eq_of_lt hinside]
  next hlast =>
    have hfull : k % N + 1 = N := by omega
    rw [hfull, Nat.mod_self]

theorem taken_succ (name : Nat → α) (N start n : Nat) :
    taken name N start (n + 1) = taken name N start n ++ [name ((start + n) % N)] := by
  simp [taken, List.range_succ]

theorem taken_length (name : Nat → α) (N start n : Nat) : (taken name N start n).length = n := by
  simp [taken]

/-- Two places of the circle that are less than a round apart. -/
theorem same_place {j : Nat} (hj : j < N) (hk : k < N)
    (h : (start + j) % N = (start + k) % N) : j = k :=
  Nat.ModEq.eq_of_lt_of_lt (Nat.ModEq.add_left_cancel' start h) hj hk

theorem taken_nodup (hname : Function.Injective name) (hN : 0 < N) (n : Nat) :
    (taken name N start n).Nodup ↔ n ≤ N := by
  rw [taken, List.nodup_map_iff_inj_on List.nodup_range]
  constructor
  · intro hinj
    -- the name that comes after a round is the first one again
    by_contra hmore
    have hN' : N < n := Nat.lt_of_not_le hmore
    have hzero : N = 0 := by
      apply hinj N (List.mem_range.mpr hN') 0 (List.mem_range.mpr (Nat.zero_lt_of_lt hN'))
      rw [Nat.add_mod_right, Nat.add_zero]
    omega
  · intro hle j hj k hk hsame
    have hj' : j < N := Nat.lt_of_lt_of_le (List.mem_range.mp hj) hle
    have hk' : k < N := Nat.lt_of_lt_of_le (List.mem_range.mp hk) hle
    exact same_place hj' hk' (hname hsame)

end Supply
