import Mathlib.Data.List.Basic

/-! The best representative of a temp among its copies: `find_better_copy` of `tcg/optimize.c`. -/

namespace Qemu.Tcg

open List

/-- The flags of the temps, and the links between copies. -/
structure Copies (Temp : Type) where
  tempGlobal : Temp → Bool
  tempLocal : Temp → Bool
  nextCopy : Temp → Temp

variable {Temp : Type}

/-- The links lead from a temp through some copies to `ts`, which is not among them. -/
def Copies.Ring (c : Copies Temp) (ts : Temp) : Temp → List Temp → Prop
  | i, [] => c.nextCopy i = ts
  | i, copy :: rest => c.nextCopy i = copy ∧ copy ≠ ts ∧ c.Ring ts copy rest

/-- A temp of the ring of the highest kind there is: a global, a local temp, or `ts` itself. -/
def Copies.IsBest (c : Copies Temp) (ts : Temp) (copies : List Temp) (best : Temp) : Prop :=
  best ∈ ts :: copies ∧
    if ∃ i ∈ ts :: copies, c.tempGlobal i then c.tempGlobal best = true
    else if ∃ i ∈ ts :: copies, c.tempLocal i then c.tempLocal best = true
    else best = ts

variable [DecidableEq Temp]

/-- A loop of `find_better_copy`: the first copy that passes a test, before the links are back at
`ts`. -/
def Copies.search (c : Copies Temp) (ts : Temp) (test : Temp → Bool) : Nat →
    Temp → Option (Option Temp)
  | 0, _ => none
  | turns + 1, i =>
    if i = ts then some none
    else if test i then some (some i)
    else c.search ts test turns (c.nextCopy i)

/-- The second loop tests `ts` instead of the copy. -/
def findBetterCopy (c : Copies Temp) (turns : Nat) (ts : Temp) : Option Temp :=
  if c.tempGlobal ts then some ts
  else do
    match ← c.search ts c.tempGlobal turns (c.nextCopy ts) with
    | some i => return i
    | none =>
      if c.tempLocal ts then return ts
      else return (← c.search ts (fun _ => c.tempLocal ts) turns (c.nextCopy ts)).getD ts

variable {c : Copies Temp} {ts i : Temp} {copies : List Temp} {turns : Nat}

/-- Going round the ring finds the first copy that passes. -/
theorem Copies.Ring.search_eq (ring : c.Ring ts i copies) (test : Temp → Bool)
    (enough : copies.length < turns) :
    c.search ts test turns (c.nextCopy i) = some (copies.find? test) := by
  induction copies generalizing i turns with
  | nil =>
    obtain ⟨turns, rfl⟩ := Nat.exists_eq_add_of_lt enough
    rw [show c.nextCopy i = ts from ring, search, if_pos rfl, find?_nil]
  | cons copy rest ih =>
    obtain ⟨rfl, other, ring⟩ := ring
    obtain ⟨turns, rfl⟩ := Nat.exists_eq_succ_of_ne_zero (Nat.ne_zero_of_lt enough)
    rw [search, if_neg other, find?_cons]
    split
    · simp [*]
    · rw [ih ring (Nat.lt_of_succ_lt_succ enough)]
      simp [*]

/-- The result is the best representative unless a local temp would be, and `ts` is neither local
nor global. -/
theorem findBetterCopy_best_iff (c : Copies Temp) (ts : Temp) (copies : List Temp)
    (ring : c.Ring ts ts copies) (turns : Nat) (enough : copies.length < turns) :
    (∃ best, findBetterCopy c turns ts = some best ∧ c.IsBest ts copies best) ↔
      c.tempGlobal ts ∨ (∃ i ∈ copies, c.tempGlobal i) ∨ c.tempLocal ts ∨
          ∀ i ∈ copies, c.tempLocal i = false := by
  rw [findBetterCopy, ring.search_eq _ enough, ring.search_eq _ enough]
  by_cases global : c.tempGlobal ts
  · simp [global, Copies.IsBest]
  cases found : copies.find? c.tempGlobal with
  | some i =>
    have member := mem_of_find?_eq_some found
    have isGlobal := find?_some found
    refine iff_of_true ⟨i, by simp [global], ?_⟩ (.inr (.inl ⟨i, member, isGlobal⟩))
    exact ⟨mem_cons_of_mem
      _ member, by rw [if_pos ⟨i, mem_cons_of_mem _ member, isGlobal⟩]; exact isGlobal⟩
  | none =>
    rw [find?_eq_none] at found
    by_cases isLocal : c.tempLocal ts
    · simp_all [Copies.IsBest]
    · -- The second loop finds nothing, so that `ts` is returned.
      have nothing : copies.find? (fun _ => c.tempLocal ts) = none := by simp [isLocal]
      have noGlobal : ¬ ∃ i ∈ copies, c.tempGlobal i :=
        fun ⟨i, member, isGlobal⟩ => found i member isGlobal
      rw [nothing]
      simp [global, isLocal, Copies.IsBest, noGlobal]

/-- A temp that is neither global nor local, with a local copy. -/
def localCopy : Copies Bool := ⟨fun _ => false, id, not⟩

/-- The local copy is missed: the second loop tests the temp itself. -/
theorem findBetterCopy_misses_local : localCopy.Ring false false [true] ∧
    findBetterCopy localCopy 2 false = some false ∧ ¬ localCopy.IsBest false [true] false := by
  simp [Copies.Ring, localCopy, findBetterCopy, Copies.search, Copies.IsBest]

/-- A temp with a local copy, and a global one behind it. -/
def localAndGlobalCopy : Copies (Fin 3) := ⟨(· == 2), (· == 1), (· + 1)⟩

/-- The best representative is found behind the local one. -/
theorem findBetterCopy_best_global :
    ∃ best, findBetterCopy localAndGlobalCopy 3 0 = some best ∧
      localAndGlobalCopy.IsBest 0 [1, 2] best :=
  (findBetterCopy_best_iff localAndGlobalCopy 0 [1, 2] (by simp [Copies.Ring, localAndGlobalCopy]) 3
    (by decide)).mpr (.inr (.inl ⟨2, by decide, rfl⟩))

end Qemu.Tcg
