import Mathlib.Computability.Language

/-! Languages of classes of symbols: membership by the first symbol. -/

namespace ClassLanguage

open Computability Language

variable {α : Type} {p : α → Prop} {l m : Language α} {a : α} {w : List α}

/-- The words of one symbol of a class. -/
def ofClass (p : α → Prop) : Language α := {w | ∃ a, p a ∧ w = [a]}

@[simp] theorem nil_mem_ofClass_mul : [] ∈ ofClass p * l ↔ False := by
  rw [mem_mul, iff_false]
  rintro ⟨_, ⟨a, -, rfl⟩, v, -, same⟩
  cases same

@[simp] theorem cons_mem_ofClass_mul : a :: w ∈ ofClass p * l ↔ p a ∧ w ∈ l := by
  rw [mem_mul]
  constructor
  · rintro ⟨_, ⟨b, holds, rfl⟩, v, rest, same⟩
    obtain ⟨rfl, rfl⟩ := List.cons.inj same
    exact ⟨holds, rest⟩
  · exact fun both => ⟨[a], ⟨a, both.1, rfl⟩, w, both.2, rfl⟩

theorem kstar_ofClass_mul : (ofClass p)∗ * l = l + ofClass p * ((ofClass p)∗ * l) := by
  conv_lhs => rw [← one_add_self_mul_kstar_eq_kstar, add_mul, one_mul, mul_assoc]

@[simp] theorem nil_mem_kstar_mul : [] ∈ (ofClass p)∗ * l ↔ [] ∈ l := by
  rw [kstar_ofClass_mul, mem_add, nil_mem_ofClass_mul, or_false]

@[simp] theorem cons_mem_kstar_mul :
    a :: w ∈ (ofClass p)∗ * l ↔ a :: w ∈ l ∨ p a ∧ w ∈ (ofClass p)∗ * l := by
  rw [kstar_ofClass_mul, mem_add, cons_mem_ofClass_mul, ← kstar_ofClass_mul]

@[simp] theorem cons_mem_ofClass : a :: w ∈ ofClass p ↔ p a ∧ w = [] := by
  rw [← mul_one (ofClass p), cons_mem_ofClass_mul, mem_one]

@[simp] theorem nil_mem_ofClass : [] ∈ ofClass p ↔ False := by
  rw [← mul_one (ofClass p), nil_mem_ofClass_mul]

@[simp] theorem cons_mem_kstar : a :: w ∈ (ofClass p)∗ ↔ p a ∧ w ∈ (ofClass p)∗ := by
  have here := @cons_mem_kstar_mul _ p 1 a w
  rwa [mul_one, mem_one, or_iff_right (List.cons_ne_nil a w)] at here

@[simp] theorem mem_opt_mul : w ∈ (1 + l) * m ↔ w ∈ m ∨ w ∈ l * m := by
  rw [add_mul, one_mul, mem_add]

end ClassLanguage
