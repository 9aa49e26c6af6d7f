import Qemu.Lib.GuardedRun
import Mathlib.Data.List.Forall2

/-! The calls that turn one registered list into another. -/

namespace MergeDiff

open GuardedRun List

variable {α : Type*}

/-- A change to what is registered. -/
inductive Call (α : Type*) where
  | del (a : α)
  | add (a : α)
  deriving DecidableEq

/-- The calls for the elements of only one list, where ties count as common. -/
def diff (before : α → α → Bool) : List α → List α → List (Call α)
  | [], [] => []
  | a :: old, [] => .del a :: diff before old []
  | [], b :: new => .add b :: diff before [] new
  | a :: old, b :: new =>
    if before a b then .del a :: diff before old (b :: new)
    else if before b a then .add b :: diff before (a :: old) new
    else diff before old new
termination_by old new => old.length + new.length

/-- What is registered after a call. -/
def applyCall [DecidableEq α] (held : List α) : Call α → List α
  | .del a => held.erase a
  | .add a => a :: held

def FindsIt (held : List α) : Call α → Prop
  | .del a => a ∈ held
  | .add _ => True

/-- What stands for a new element: itself, or an old tie. -/
def StandsFor (before : α → α → Bool) (old : List α) (a b : α) : Prop :=
  a = b ∨ (a ∈ old ∧ before a b = false ∧ before b a = false)

theorem StandsFor.cons {before old a b} (head : α) (stands : StandsFor before old a b) :
    StandsFor before (head :: old) a b :=
  stands.imp id fun found => ⟨mem_cons_of_mem head found.1, found.2⟩

/-- Entries that tie are equal, so the merge gives the new list itself. -/
theorem eq_of_standsFor {before : α → α → Bool} {old final new : List α}
    (stands : Forall₂ (StandsFor before old) final new)
    (ties : ∀ b ∈ new, ∀ a ∈ old, before a b = false → before b a = false → a = b) :
    final = new := by
  induction stands with
  | nil => rfl
  | cons head _ ih =>
    obtain ⟨here, others⟩ := forall_mem_cons.mp ties
    rw [ih others]
    rcases head with rfl | ⟨present, notFirst, notSecond⟩
    · rfl
    · rw [here _ present notFirst notSecond]

/-- The calls are possible in turn, and leave one for each new element. -/
theorem diff_leaves [DecidableEq α] (before : α → α → Bool) (old new : List α) {held extra}
    (reg : held.Perm (old ++ extra)) :
    Guarded applyCall FindsIt held (diff before old new) ∧
      ∃ final, Forall₂ (StandsFor before old) final new ∧
        (runFrom applyCall held (diff before old new)).Perm (final ++ extra) := by
  -- The walk's own induction; what is paired or added moves to the part that stays.
  induction old, new using diff.induct before generalizing held extra with
  | case1 =>
    simp only [diff]
    exact ⟨trivial, [], .nil, reg⟩
  | case2 a old ih =>
    have present : a ∈ held := reg.mem_iff.mpr (by simp)
    have rest : (held.erase a).Perm (old ++ extra) := by simpa using reg.erase a
    obtain ⟨guarded, final, stands, left⟩ := ih rest
    rw [diff]
    exact ⟨⟨present, guarded⟩, final, stands.imp fun _ _ => StandsFor.cons a, left⟩
  | case3 b new ih =>
    have more : (b :: held).Perm ([] ++ b :: extra) := reg.cons b
    obtain ⟨guarded, final, stands, left⟩ := ih more
    rw [diff]
    exact ⟨⟨trivial, guarded⟩, b :: final, .cons (.inl rfl) stands, left.trans perm_middle⟩
  | case4 a old b new first ih =>
    have present : a ∈ held := reg.mem_iff.mpr (by simp)
    have rest : (held.erase a).Perm (old ++ extra) := by simpa using reg.erase a
    obtain ⟨guarded, final, stands, left⟩ := ih rest
    rw [diff, if_pos first]
    exact ⟨⟨present, guarded⟩, final, stands.imp fun _ _ => StandsFor.cons a, left⟩
  | case5 a old b new notFirst second ih =>
    have more : (b :: held).Perm (a :: old ++ b :: extra) := (reg.cons b).trans perm_middle.symm
    obtain ⟨guarded, final, stands, left⟩ := ih more
    rw [diff, if_neg notFirst, if_pos second]
    exact ⟨⟨trivial, guarded⟩, b :: final, .cons (.inl rfl) stands, left.trans perm_middle⟩
  | case6 a old b new notFirst notSecond ih =>
    -- A tie stays registered as it was.
    have kept : held.Perm (old ++ a :: extra) := reg.trans perm_middle.symm
    obtain ⟨guarded, final, stands, left⟩ := ih kept
    rw [diff, if_neg notFirst, if_neg notSecond]
    have tie : StandsFor before (a :: old) a b :=
      .inr ⟨mem_cons_self, Bool.not_eq_true _ ▸ notFirst, Bool.not_eq_true _ ▸ notSecond⟩
    exact ⟨guarded, a :: final, .cons tie (stands.imp fun _ _ => StandsFor.cons a),
      left.trans perm_middle⟩

end MergeDiff
