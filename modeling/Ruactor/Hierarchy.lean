import Ruactor.Library.Segments
import Ruactor.Path

/-!
# Printed paths

Printing and parsing are inverse on the paths whose components are not blank and have no
slash in them, and these are the paths that the parser gives. On them the relations between
paths agree with the component lists, but for the empty path: printed with a slash behind it
it has two, which no path begins with, and it is its own parent.
-/

namespace Ruactor

open Segments

/-- Not blank, and without a slash. -/
def Clean (s : String) : Prop := (trim s).isEmpty = false ∧ '/' ∉ s.toList

instance (s : String) : Decidable (Clean s) := inferInstanceAs (Decidable (_ ∧ _))

namespace ActorPath

variable {p q : ActorPath}

def Proper (p : ActorPath) : Prop := ∀ t ∈ p.tokens, Clean t

def parts (p : ActorPath) : List (List Char) := p.tokens.map String.toList

theorem parts_injective (h : p.parts = q.parts) : p = q := by
  have htokens := congrArg (List.map String.ofList) h
  simp only [parts, List.map_map, Function.comp_def, String.ofList_toList, List.map_id'] at htokens
  exact ActorPath.ext htokens

def Unmarked (p : ActorPath) : Prop := ∀ t ∈ p.tokens, '/' ∉ t.toList

theorem Unmarked.parts (h : p.Unmarked) : ∀ part ∈ p.parts, '/' ∉ part := by
  intro part hpart
  obtain ⟨t, ht, rfl⟩ := List.mem_map.mp hpart
  exact h t ht

theorem Unmarked.div {name : String} (h : p.Unmarked) (hname : '/' ∉ name.toList) :
    (p.div name).Unmarked := by
  intro t ht
  rcases List.mem_append.mp ht with ht | ht
  · exact h t ht
  · rwa [List.mem_singleton.mp ht]

theorem Proper.unmarked (h : p.Proper) : ∀ part ∈ p.parts, '/' ∉ part :=
  Unmarked.parts fun t ht => (h t ht).2

theorem toString_empty : toString ⟨[]⟩ = "/" := rfl

/-- The branches of the printer for one component and for more do the same. -/
theorem toString_toList (h : p.tokens ≠ []) : p.toString.toList = marked '/' p.parts := by
  obtain ⟨tokens⟩ := p
  rw [marked_eq_intercalate (by simpa [parts] using h)]
  cases tokens with
  | nil => exact absurd rfl h
  | cons t tokens =>
    cases tokens with
    | nil => simp [toString, level, parts]
    | cons next tokens =>
      have hlevel : compare (t :: next :: tokens).length 1 = .gt := by
        rw [Nat.compare_eq_gt]
        simp
      simp only [toString, level, hlevel, parts]
      rw [String.toList_append, String.toList_intercalate]
      rfl

theorem toString_injective_of_unmarked (hp : p.Unmarked) (hq : q.Unmarked) (hpne : p.tokens ≠ [])
    (hqne : q.tokens ≠ []) (h : p.toString = q.toString) : p = q := by
  have hmarked := congrArg String.toList h
  rw [toString_toList hpne, toString_toList hqne] at hmarked
  exact parts_injective (marked_injective hp.parts hq.parts hmarked)

theorem split_toString (h : p.Proper) (hne : p.tokens ≠ []) :
    split p.toString '/' = "" :: p.tokens := by
  rw [split, toString_toList hne, splitOn_marked h.unmarked]
  simp [parts, Function.comp_def]

theorem ofString_proper (s : String) : (ofString s).Proper := by
  intro t ht
  obtain ⟨hmem, hblank⟩ := List.mem_filter.mp ht
  obtain ⟨part, hpart, rfl⟩ := List.mem_map.mp hmem
  refine ⟨by simpa using hblank, ?_⟩
  rw [String.toList_ofList]
  exact not_mem_of_mem_splitOn hpart

theorem ofString_toString (h : p.Proper) : ofString p.toString = p := by
  obtain ⟨tokens⟩ := p
  cases tokens with
  | nil => rfl
  | cons t tokens =>
    rw [ofString, split_toString h (by simp), List.filter_cons_of_neg (by decide)]
    congr 1
    exact List.filter_eq_self.mpr fun x hx => by simp [(h x hx).1]

theorem toString_injective (hp : p.Proper) (hq : q.Proper) (h : p.toString = q.toString) :
    p = q := by
  rw [← ofString_toString hp, h, ofString_toString hq]

/-- The parser gives the proper paths, and printing and parsing are inverse on them. -/
theorem parse_print :
    (∀ p : ActorPath, p.Proper → ofString p.toString = p) ∧
    (∀ p : ActorPath, (∃ s, ofString s = p) ↔ p.Proper) ∧
    (∀ s, ofString (ofString s).toString = ofString s) ∧
    ∀ s s', (ofString s).toString = (ofString s').toString → ofString s = ofString s' := by
  refine ⟨fun p => ofString_toString, fun p => ⟨?_, fun h => ⟨p.toString, ofString_toString h⟩⟩,
    fun s => ofString_toString (ofString_proper s), fun s s' =>
    toString_injective (ofString_proper s) (ofString_proper s')⟩
  rintro ⟨s, rfl⟩
  exact ofString_proper s

theorem parts_append {x : String} {rest : List String} (h : q.tokens = p.tokens ++ x :: rest) :
    q.parts = p.parts ++ x.toList :: rest.map String.toList := by
  simp [parts, h]

theorem tokens_of_parts {part : List Char} {rest : List (List Char)}
    (h : q.parts = p.parts ++ part :: rest) : ∃ x rest, q.tokens = p.tokens ++ x :: rest := by
  have hq := congrArg (List.map String.ofList) h
  simp only [parts, List.map_append, List.map_map, Function.comp_def, String.ofList_toList,
    List.map_id', List.map_cons] at hq
  exact ⟨_, _, hq⟩

theorem isAncestorOf_iff_toString : p.isAncestorOf q = true ↔
    p.toString.toList ++ ['/'] <+: q.toString.toList := by
  rw [isAncestorOf, startsWith, String.toList_append]
  exact List.isPrefixOf_iff_prefix

theorem isAncestorOf_iff (hp : p.Proper) (hq : q.Proper) (hne : p.tokens ≠ []) :
    p.isAncestorOf q = true ↔ ∃ x rest, q.tokens = p.tokens ++ x :: rest := by
  rw [isAncestorOf_iff_toString, toString_toList hne]
  cases hempty : q.tokens with
  | nil =>
    obtain rfl : q = ⟨[]⟩ := ActorPath.ext hempty
    constructor
    · intro hprefix
      have hlength := hprefix.length_le
      rw [marked_eq_intercalate (by simpa [parts] using hne)] at hlength
      simp [toString_empty] at hlength
    · rintro ⟨x, rest, hsplit⟩
      simp at hsplit
  | cons t tokens =>
    rw [toString_toList (by simp [hempty]), marked_prefix hp.unmarked hq.unmarked, ← hempty]
    constructor
    · rintro ⟨part, rest, hparts⟩
      exact tokens_of_parts hparts
    · rintro ⟨x, rest, hsplit⟩
      exact ⟨_, _, parts_append hsplit⟩

/-- No path begins with two slashes: its first component would be empty. -/
theorem empty_not_ancestor (hq : q.Proper) : isAncestorOf ⟨[]⟩ q = false := by
  rw [← Bool.not_eq_true, isAncestorOf_iff_toString]
  intro hprefix
  cases hempty : q.tokens with
  | nil =>
    obtain rfl : q = ⟨[]⟩ := ActorPath.ext hempty
    simp [toString_empty] at hprefix
  | cons t tokens =>
    have hmarked : (toString ⟨[]⟩).toList = marked '/' [[]] := rfl
    rw [hmarked, toString_toList (by simp [hempty]),
      marked_prefix (by simp) hq.unmarked] at hprefix
    obtain ⟨part, rest, hparts⟩ := hprefix
    have hfirst : t.toList = [] := by
      simp only [parts, hempty, List.map_cons, List.cons_append] at hparts
      exact (List.cons.inj hparts).1
    have hclean := (hq t (by simp [hempty])).1
    rw [String.toList_eq_nil_iff.mp hfirst] at hclean
    exact absurd hclean (by decide)

theorem parent_tokens (p : ActorPath) : p.parent.tokens = p.tokens.dropLast := by
  rw [parent]
  split
  · rw [List.dropLast_eq_take]
  next hlength =>
    cases htokens : p.tokens with
    | nil => rfl
    | cons t tokens =>
      obtain rfl : tokens = [] := by
        rw [htokens, List.length_cons] at hlength
        exact List.eq_nil_of_length_eq_zero (by omega)
      rfl

theorem isParentOf_iff (hne : p.tokens ≠ []) :
    p.isParentOf q = true ↔ ∃ x, q.tokens = p.tokens ++ [x] := by
  rw [isParentOf, decide_eq_true_iff]
  constructor
  · rintro rfl
    rw [parent_tokens] at hne ⊢
    have hq : q.tokens ≠ [] := by
      rintro hq
      simp [hq] at hne
    exact ⟨q.tokens.getLast hq, (List.dropLast_concat_getLast hq).symm⟩
  · rintro ⟨x, hsplit⟩
    apply ActorPath.ext
    rw [parent_tokens, hsplit, List.dropLast_concat]

/-- The relations between two paths are those of the tree. -/
structure Related (p q : ActorPath) : Prop where
  ancestor : p.isAncestorOf q = true ↔ p.tokens <+: q.tokens ∧ p.tokens ≠ q.tokens
  descendant : q.isDescendantOf p = true ↔ p.isAncestorOf q = true
  parent : p.isParentOf q = true ↔ ∃ x, q.tokens = p.tokens ++ [x]
  child : p.isParentOf q = true ↔ q.isChildOf p = true
  nested : p.isParentOf q = true → p.isAncestorOf q = true
  irreflexive : p = q → p.isAncestorOf q = false ∧ q.isDescendantOf p = false ∧
    p.isParentOf q = false ∧ q.isChildOf p = false

theorem proper_prefix_iff :
    p.tokens <+: q.tokens ∧ p.tokens ≠ q.tokens ↔ ∃ x rest, q.tokens = p.tokens ++ x :: rest := by
  constructor
  · rintro ⟨⟨tail, htail⟩, hne⟩
    cases tail with
    | nil => exact absurd (by simpa using htail) hne
    | cons x rest => exact ⟨x, rest, htail.symm⟩
  · rintro ⟨x, rest, hsplit⟩
    rw [hsplit]
    exact ⟨List.prefix_append _ _, by simp⟩

theorem isChildOf_eq (p q : ActorPath) : q.isChildOf p = p.isParentOf q := by
  rw [isChildOf, isParentOf, decide_eq_decide]
  exact eq_comm

/-- They are exactly where the first path is not empty. -/
theorem relations_agree (s t : String) :
    Related (ofString s) (ofString t) ↔ (ofString s).isEmpty = false := by
  have hp := ofString_proper s
  have hq := ofString_proper t
  generalize ofString s = p at hp ⊢
  generalize ofString t = q at hq ⊢
  constructor
  · intro h
    rw [← Bool.not_eq_true]
    intro hempty
    obtain rfl : p = ⟨[]⟩ := ActorPath.ext (List.isEmpty_iff.mp hempty)
    have hnone := empty_not_ancestor hq
    cases htokens : q.tokens with
    | nil =>
      obtain rfl : q = ⟨[]⟩ := ActorPath.ext htokens
      exact absurd (h.irreflexive rfl).2.2.1 (by decide)
    | cons x tokens =>
      have hancestor := h.ancestor.mpr ⟨List.nil_prefix, by simp [htokens]⟩
      simp [hnone] at hancestor
  · intro hempty
    have hne : p.tokens ≠ [] := by
      rintro hnil
      simp [isEmpty, hnil] at hempty
    have hancestor := isAncestorOf_iff hp hq hne
    have hparent := isParentOf_iff (q := q) hne
    refine ⟨hancestor.trans proper_prefix_iff.symm, Iff.rfl, hparent, by rw [isChildOf_eq], ?_, ?_⟩
    · rw [hancestor, hparent]
      rintro ⟨x, hsplit⟩
      exact ⟨x, [], hsplit⟩
    · rintro rfl
      have hself : p.isAncestorOf p = false := by
        rw [← Bool.not_eq_true, hancestor]
        rintro ⟨x, rest, hsplit⟩
        simp at hsplit
      have hself' : p.isParentOf p = false := by
        rw [← Bool.not_eq_true, hparent]
        rintro ⟨x, hsplit⟩
        simp at hsplit
      exact ⟨hself, hself, hself', (isChildOf_eq p p).trans hself'⟩

/-- The empty path is no ancestor of a path of which it is the parent, and it is its own
parent. -/
theorem empty_unrelated :
    (ofString "/").isAncestorOf (ofString "/acme") = false ∧
    (ofString "/").isParentOf (ofString "/acme") = true ∧
    (ofString "/").isParentOf (ofString "/") = true ∧
    ¬ Related (ofString "/") (ofString "/acme") ∧ ¬ Related (ofString "/") (ofString "/") := by
  refine ⟨by decide, by decide, by decide, fun h => ?_, fun h => ?_⟩
  · exact absurd (h.nested (by decide)) (by decide)
  · exact absurd (h.irreflexive rfl).2.2.1 (by decide)

end ActorPath

end Ruactor
