import Mathlib.Data.List.Nodup

/-! Lists with keys: changing and removing the element of a key. -/

namespace Keyed

open List

variable {α : Type*} (key : α → Nat)

/-- The element of a key. -/
def lookup (items : List α) (k : Nat) : Option α := items.find? fun item => key item = k

/-- The element of a key is changed. -/
def modify (items : List α) (k : Nat) (f : α → α) : List α :=
  items.map fun item => if key item = k then f item else item

/-- The element of a key is removed. -/
def remove (items : List α) (k : Nat) : List α := items.filter fun item => key item ≠ k

variable {key} {items : List α} {item : α} {k : Nat}

theorem mem_of_lookup (found : lookup key items k = some item) : item ∈ items ∧ key item = k :=
  ⟨mem_of_find?_eq_some found, by simpa using find?_some found⟩

theorem lookup_modify (found : lookup key items k = some item) {f}
    (same : ∀ other, key (f other) = key other) :
    lookup key (modify key items k f) k = some (f item) := by
  have keys : (fun other => decide (key other = k)) ∘ (fun other => if key other = k
    then f other else other) = fun other => decide (key other = k) := by
    funext other
    rw [Function.comp_apply]
    split
    · rw [same]
    · rfl
  rw [lookup] at found
  rw [lookup, modify, find?_map, keys, found, Option.map_some, if_pos (mem_of_lookup found).2]

theorem modify_of_forall_ne (others : ∀ other ∈ items, key other ≠ k) (f : α → α) :
    modify key items k f = items := by
  rw [modify]
  conv_rhs => rw [← List.map_id items]
  exact map_congr_left fun other listed => if_neg (others other listed)

theorem remove_of_forall_ne (others : ∀ other ∈ items, key other ≠ k) :
    remove key items k = items := by
  rw [remove, filter_eq_self]
  intro other listed
  simpa using others other listed

theorem key_ne {before after} (nodup : ((before ++ item :: after).map key).Nodup) :
    ∀ other ∈ before ++ after, key other ≠ key item := by
  intro other listed
  rw [map_append, map_cons, nodup_middle, nodup_cons, ← map_append] at nodup
  exact fun same => nodup.1 (same ▸ List.mem_map_of_mem listed)

/-- A list with different keys, split at an element that may change. -/
theorem split_at (nodup : (items.map key).Nodup) (found : lookup key items k = some item) :
    ∃ before after, items = before ++ item :: after ∧
      (∀ f, modify key items k f = before ++ f item :: after) ∧
      remove key items k = before ++ after := by
  obtain ⟨listed, rfl⟩ := mem_of_lookup found
  obtain ⟨before, after, rfl⟩ := append_of_mem listed
  have others := key_ne nodup
  rw [forall_mem_append] at others
  refine ⟨before, after, rfl, fun f => ?_, ?_⟩
  · have first := modify_of_forall_ne others.1 f
    have second := modify_of_forall_ne others.2 f
    rw [modify] at first second ⊢
    rw [map_append, map_cons, first, second, if_pos rfl]
  · have first := remove_of_forall_ne others.1
    have second := remove_of_forall_ne others.2
    rw [remove] at first second ⊢
    rw [filter_append, filter_cons_of_neg (by simp), first, second]

end Keyed
