import Mathlib.Logic.Function.Iterate
import Mathlib.Tactic.SplitIfs
import Ruactor.Hierarchy

/-!
# Levels of a path

Each branch of `at_level` keeps the components up to the level, so the levels of a path are
the paths on the way from its root down to it. They are reached from below by `parent` and
printed as its ancestors, and a path has no other ancestors.
-/

namespace Ruactor

open Segments

namespace ActorPath

variable {p q : ActorPath} {k : Nat}

theorem root_tokens (p : ActorPath) : p.root.tokens = p.tokens.take 1 := by
  simp only [root]
  split_ifs with hone hempty
  · rw [List.take_of_length_le (Nat.le_of_eq hone)]
  · rfl
  · have hnil : p.tokens = [] := by simpa using hempty
    rw [hnil, List.take_nil]

theorem atLevel_tokens (p : ActorPath) (hk : 1 ≤ k) :
    (p.atLevel k).tokens = p.tokens.take k := by
  simp only [atLevel]
  split_ifs with hout htop hparent
  · have hlength : p.tokens.length ≤ k := by
      rw [level] at hout
      omega
    rw [List.take_of_length_le hlength]
  · -- a path of one component is whole at every level
    have hlength : p.tokens.length = 1 := by simpa [isTopLevel] using htop
    rw [level] at hout
    omega
  · rw [parent_tokens, List.dropLast_eq_take, hparent, level]
  · rfl

theorem atLevel_level (p : ActorPath) (hk : 1 ≤ k) : (p.atLevel k).level = min k p.level := by
  rw [level, atLevel_tokens p hk, List.length_take, level]

theorem atLevel_atLevel (p : ActorPath) {j : Nat} (hj : 1 ≤ j) (hk : 1 ≤ k) :
    (p.atLevel j).atLevel k = p.atLevel (min j k) := by
  have hmin : 1 ≤ min j k := Nat.le_min.mpr ⟨hj, hk⟩
  apply ActorPath.ext
  rw [atLevel_tokens _ hk, atLevel_tokens p hj, atLevel_tokens p hmin, List.take_take, Nat.min_comm]

theorem iterate_parent_tokens (p : ActorPath) (n : Nat) :
    (parent^[n] p).tokens = p.tokens.take (p.level - n) := by
  induction n with
  | zero => exact (List.take_length).symm
  | succ n ih =>
    rw [Function.iterate_succ_apply', parent_tokens, ih, List.dropLast_eq_take, List.take_take,
      List.length_take, level]
    congr 1
    omega

theorem atLevel_eq_parent (p : ActorPath) (hk : 1 ≤ k) (hle : k ≤ p.level) :
    p.atLevel k = parent^[p.level - k] p := by
  apply ActorPath.ext
  rw [atLevel_tokens p hk, iterate_parent_tokens, Nat.sub_sub_self hle]

theorem atLevel_split (p : ActorPath) (hk : 1 ≤ k) (hlt : k < p.level) :
    ∃ x rest, p.tokens = (p.atLevel k).tokens ++ x :: rest := by
  have hlength : k < p.tokens.length := hlt
  refine ⟨p.tokens[k], p.tokens.drop (k + 1), ?_⟩
  rw [atLevel_tokens p hk, ← List.drop_eq_getElem_cons hlength, List.take_append_drop]

/-- Whatever is in the components: a path is printed behind what begins it. -/
theorem isAncestorOf_of_split (hne : p.tokens ≠ []) {x : String} {rest : List String}
    (h : q.tokens = p.tokens ++ x :: rest) : p.isAncestorOf q = true := by
  have hq : q.tokens ≠ [] := by simp [h]
  rw [isAncestorOf_iff_toString, toString_toList hne, toString_toList hq, parts_append h]
  exact marked_append_prefix _ _ _ _

theorem atLevel_isAncestorOf (p : ActorPath) (hk : 1 ≤ k) (hlt : k < p.level) :
    (p.atLevel k).isAncestorOf p = true := by
  obtain ⟨x, rest, hsplit⟩ := p.atLevel_split hk hlt
  refine isAncestorOf_of_split (fun hnil => ?_) hsplit
  have hlevel := p.atLevel_level hk
  rw [level, hnil, List.length_nil] at hlevel
  omega

theorem root_eq_atLevel (p : ActorPath) : p.root = p.atLevel 1 := by
  apply ActorPath.ext
  rw [root_tokens, atLevel_tokens p (Nat.le_refl 1)]

/-- Truncation at a level agrees with itself, with `parent`, with the printed hierarchy and
with `root`. -/
theorem levels_coherent (p : ActorPath) :
    (∀ j k, 1 ≤ j → 1 ≤ k → (p.atLevel j).atLevel k = p.atLevel (min j k)) ∧
    (∀ k, 1 ≤ k → k ≤ p.level → (p.atLevel k).level = k ∧
      p.atLevel k = parent^[p.level - k] p ∧
      (k < p.level → (p.atLevel k).isAncestorOf p = true)) ∧
    (p.isEmpty = false → p.root = p.atLevel 1) := by
  refine ⟨fun j k hj hk => p.atLevel_atLevel hj hk, fun k hk hle => ?_,
    fun _ => p.root_eq_atLevel⟩
  have hlevel : (p.atLevel k).level = k := by
    rw [p.atLevel_level hk, Nat.min_eq_left hle]
  exact ⟨hlevel, p.atLevel_eq_parent hk hle, p.atLevel_isAncestorOf hk⟩

example : (ofString "/acme/building/room/sensor").atLevel 2 = ofString "/acme/building" := by
  decide

end ActorPath

end Ruactor
