import Mathlib.Data.List.Basic

/-! Words that are paths: segments between separators. -/

namespace SepPath

open List

variable {α : Type*} [BEq α] [LawfulBEq α] {sep : α} {word : List α}

theorem splitOn_of_notMem (free : sep ∉ word) : word.splitOn sep = [word] := by
  have single : [sep].intercalate [word] = word := intercalate_singleton
  rw [← single, splitOn_intercalate sep (by simpa using free) (cons_ne_nil _ _), single]

theorem splitOn_append (word rest : List α) :
    (word ++ sep :: rest).splitOn sep = word.splitOn sep ++ rest.splitOn sep :=
  splitOnP_append_cons word rest (beq_self_eq_true sep)

theorem splitOn_first (free : sep ∉ word) (rest : List α) :
    (word ++ sep :: rest).splitOn sep = word :: rest.splitOn sep := by
  rw [splitOn_append, splitOn_of_notMem free, singleton_append]

theorem splitOn_injective {word'} (same : word.splitOn sep = word'.splitOn sep) : word = word' := by
  have joined := congrArg [sep].intercalate same
  rwa [intercalate_splitOn, intercalate_splitOn] at joined

def descend {β : Type*} [DecidableEq β] (segment : β) : List β → Option (List β)
  | [] => none
  | first :: rest => if first = segment then some rest else none

/-- Stripping a longer base is stripping it and then one segment. -/
theorem isPrefixOf?_snoc {β : Type*} [DecidableEq β] [BEq β] [LawfulBEq β]
    (base path : List β) (segment : β) :
    (base ++ [segment]).isPrefixOf? path = (base.isPrefixOf? path).bind (descend segment) := by
  ext rest
  rw [isPrefixOf?_eq_some_iff_append_eq, Option.bind_eq_some_iff]
  constructor
  · rintro rfl
    refine ⟨segment :: rest, ?_, if_pos rfl⟩
    rw [isPrefixOf?_eq_some_iff_append_eq, List.append_assoc, singleton_append]
  · rintro ⟨rest', start, next⟩
    rw [isPrefixOf?_eq_some_iff_append_eq] at start
    cases rest' with
    | nil => contradiction
    | cons first rest' =>
      rw [descend] at next
      split at next
      case isTrue same =>
        cases next
        rw [← start, same, List.append_assoc, singleton_append]
      case isFalse => contradiction

end SepPath
