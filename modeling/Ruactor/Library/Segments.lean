/-!
# Lists cut at a separator

A list of parts, each of them behind a separator, can be split into the parts again, if no
part has the separator in it.
-/

universe u

namespace Segments

variable {α : Type u} {sep : α} {parts others : List (List α)}

def marked (sep : α) (parts : List (List α)) : List α := parts.flatMap (sep :: ·)

theorem marked_cons (sep : α) (part : List α) (parts : List (List α)) :
    marked sep (part :: parts) = sep :: (part ++ marked sep parts) := by
  simp [marked]

theorem marked_append (sep : α) (parts others : List (List α)) :
    marked sep (parts ++ others) = marked sep parts ++ marked sep others := by
  simp [marked]

theorem marked_eq_intercalate (h : parts ≠ []) :
    marked sep parts = sep :: [sep].intercalate parts := by
  induction parts with
  | nil => exact absurd rfl h
  | cons part parts ih =>
    cases parts with
    | nil => simp [marked]
    | cons next parts =>
      rw [marked_cons, ih (by simp), List.intercalate_cons_cons]
      simp

theorem marked_append_prefix (sep : α) (parts : List (List α)) (part : List α)
    (rest : List (List α)) : marked sep parts ++ [sep] <+: marked sep (parts ++ part :: rest) := by
  refine ⟨part ++ marked sep rest, ?_⟩
  rw [marked_append, marked_cons]
  simp

variable [BEq α] [LawfulBEq α]

theorem splitOn_marked (h : ∀ part ∈ parts, sep ∉ part) :
    (marked sep parts).splitOn sep = [] :: parts := by
  cases parts with
  | nil => simp [marked]
  | cons part parts =>
    have hne : part :: parts ≠ [] := by simp
    have hfirst := List.splitOn_append_cons_self (a := sep) [] ([sep].intercalate (part :: parts))
    rw [marked_eq_intercalate hne, ← List.nil_append (sep :: _), hfirst,
      List.splitOn_intercalate sep h hne, List.splitOn_nil]
    rfl

theorem not_mem_of_mem_splitOn {l part : List α} (h : part ∈ l.splitOn sep) : sep ∉ part := by
  induction l generalizing part with
  | nil =>
    rw [List.splitOn_nil, List.mem_singleton] at h
    simp [h]
  | cons x l ih =>
    rw [List.splitOn_cons_eq_if_modifyHead] at h
    split at h
    · rcases List.mem_cons.mp h with rfl | h
      · simp
      · exact ih h
    next hx =>
      cases hl : l.splitOn sep with
      | nil => exact absurd hl (List.splitOn_ne_nil sep l)
      | cons first rest =>
        rw [hl, List.modifyHead_cons] at h
        rcases List.mem_cons.mp h with rfl | h
        · intro hmem
          rcases List.mem_cons.mp hmem with rfl | hmem
          · simp at hx
          · exact ih (hl ▸ List.mem_cons_self) hmem
        · exact ih (hl ▸ List.mem_cons_of_mem _ h)

theorem marked_injective (h : ∀ part ∈ parts, sep ∉ part) (h' : ∀ part ∈ others, sep ∉ part)
    (heq : marked sep parts = marked sep others) : parts = others := by
  have hsplit := congrArg (List.splitOn sep) heq
  rw [splitOn_marked h, splitOn_marked h'] at hsplit
  exact (List.cons.inj hsplit).2

/-- Up to a separator the marked parts begin with others exactly where the parts do, with one
more part at least. -/
theorem marked_prefix (h : ∀ part ∈ parts, sep ∉ part) (h' : ∀ part ∈ others, sep ∉ part) :
    marked sep parts ++ [sep] <+: marked sep others ↔
      ∃ part rest, others = parts ++ part :: rest := by
  constructor
  · rintro ⟨tail, htail⟩
    have hsplit := congrArg (List.splitOn sep) htail
    rw [List.append_assoc, List.singleton_append, List.splitOn_append_cons_self,
      splitOn_marked h, splitOn_marked h', List.cons_append] at hsplit
    obtain ⟨part, rest, hrest⟩ := List.exists_cons_of_ne_nil (List.splitOn_ne_nil sep tail)
    exact ⟨part, rest, by rw [← (List.cons.inj hsplit).2, hrest]⟩
  · rintro ⟨part, rest, rfl⟩
    exact marked_append_prefix sep parts part rest

end Segments
