import Mathlib.Data.List.Nodup
import Mathlib.Data.List.Perm.Basic

/-! Association lists with distinct keys, in any order. -/

namespace Assoc

open List

variable {κ β : Type*} {entries : List (κ × β)} {key : κ} {value : β}

/-- No key has two entries. -/
def Distinct (entries : List (κ × β)) : Prop := (entries.map Prod.fst).Nodup

theorem Distinct.fresh {before rest : List (κ × β)} {entry : κ × β}
    (nodup : Distinct (before ++ entry :: rest)) : entry.1 ∉ before.map Prod.fst := by
  rw [Distinct, map_append] at nodup
  exact fun again => (nodup_append.mp nodup).2.2 _ again _ mem_cons_self rfl

/-- Put an entry before the first one whose key is a stop. -/
def insertBefore (stop : κ → Bool) (entry : κ × β) : List (κ × β) → List (κ × β)
  | [] => [entry]
  | other :: rest => if stop other.1 then entry :: other :: rest
      else other :: insertBefore stop entry rest

theorem insertBefore_perm (stop : κ → Bool) (entry : κ × β) (entries : List (κ × β)) :
    (insertBefore stop entry entries).Perm (entry :: entries) := by
  induction entries with
  | nil => exact List.Perm.refl _
  | cons other rest ih =>
    rw [insertBefore]
    split
    · exact List.Perm.refl _
    · exact (ih.cons other).trans (Perm.swap _ _ _)

theorem Distinct.insertBefore {stop} (nodup : Distinct entries)
    (fresh : key ∉ entries.map Prod.fst) : Distinct (insertBefore stop (key, value) entries) := by
  rw [Distinct, ((insertBefore_perm stop (key, value) entries).map Prod.fst).nodup_iff]
  exact nodup_cons.mpr ⟨fresh, nodup⟩

variable [DecidableEq κ]

/-- Give a key another value, in its place. -/
def replace (key : κ) (value : β) (entries : List (κ × β)) : List (κ × β) :=
  entries.map fun entry => if entry.1 = key then (key, value) else entry

/-- Take the entries of a key out. -/
def remove (key : κ) (entries : List (κ × β)) : List (κ × β) :=
  entries.filter fun entry => entry.1 ≠ key

theorem keys_replace : (replace key value entries).map Prod.fst = entries.map Prod.fst := by
  rw [replace, List.map_map]
  refine map_congr_left fun entry _ => ?_
  by_cases same : entry.1 = key
  · simp [same]
  · simp [same]

theorem Distinct.replace (nodup : Distinct entries) : Distinct (replace key value entries) := by
  rw [Distinct, keys_replace]
  exact nodup

theorem Distinct.remove (nodup : Distinct entries) : Distinct (remove key entries) :=
  nodup.sublist (filter_sublist.map _)

variable [BEq κ] [LawfulBEq κ]

@[simp] theorem lookup_cons (entry : κ × β) (entries : List (κ × β)) (key : κ) :
    (entry :: entries).lookup key = if key = entry.1 then some entry.2 else entries.lookup key := by
  rw [List.lookup_cons]
  by_cases same : key = entry.1
  · rw [if_pos same, beq_iff_eq.mpr same]
  · rw [if_neg same, beq_eq_false_iff_ne.mpr same]

theorem lookup_eq_none : entries.lookup key = none ↔ key ∉ entries.map Prod.fst := by
  induction entries with
  | nil => simp
  | cons entry entries ih =>
    rw [lookup_cons, map_cons, mem_cons, not_or]
    by_cases same : key = entry.1
    · simp [same]
    · simp [same, ih]

theorem isSome_lookup : (entries.lookup key).isSome ↔ key ∈ entries.map Prod.fst := by
  rw [← not_iff_not, ← lookup_eq_none, Option.not_isSome_iff_eq_none]

/-- With distinct keys, looking up is membership. -/
theorem lookup_eq_some (nodup : Distinct entries) : entries.lookup key = some value ↔
    (key, value) ∈ entries := by
  induction entries with
  | nil => simp
  | cons entry entries ih =>
    obtain ⟨fresh, nodup⟩ := nodup_cons.mp nodup
    rw [lookup_cons, mem_cons]
    by_cases same : key = entry.1
    · -- No other entry has this key.
      have other : (key, value) ∉ entries := fun mem => fresh (same ▸ mem_map_of_mem mem)
      simp only [same, if_true, Option.some.injEq]
      rw [← same, or_iff_left other, Prod.ext_iff]
      exact ⟨fun equal => ⟨same, equal.symm⟩, fun equal => equal.2.symm⟩
    · rw [if_neg same, ih nodup]
      refine (or_iff_right fun equal => same ?_).symm
      rw [← equal]

theorem mem_of_lookup (found : entries.lookup key = some value) : (key, value) ∈ entries := by
  induction entries with
  | nil => contradiction
  | cons entry entries ih =>
    rw [lookup_cons] at found
    split at found
    case isTrue same =>
      cases found
      rw [same]
      exact mem_cons_self
    case isFalse => exact mem_cons_of_mem _ (ih found)

theorem length_eq {γ : Type*} {others : List (κ × γ)} (nodup : Distinct entries)
    (distinct' : Distinct others)
    (same : ∀ key, (entries.lookup key).isSome ↔ (others.lookup key).isSome) :
    entries.length = others.length := by
  have keys : (entries.map Prod.fst).Perm (others.map Prod.fst) := by
    rw [perm_ext_iff_of_nodup nodup distinct']
    intro key
    rw [← isSome_lookup, ← isSome_lookup]
    exact same key
  simpa using keys.length_eq

theorem lookup_perm {others : List (κ × β)} (nodup : Distinct entries)
    (perm : others.Perm entries) : others.lookup key = entries.lookup key := by
  have distinct' : Distinct others := (perm.map Prod.fst).nodup_iff.mpr nodup
  ext value
  rw [lookup_eq_some nodup, lookup_eq_some distinct', perm.mem_iff]

/-- Replacing a key's value changes that key's answer only. -/
theorem lookup_replace (present : key ∈ entries.map Prod.fst) (other : κ) :
    (replace key value entries).lookup other = if other = key then some value
    else entries.lookup other := by
  induction entries with
  | nil => simp at present
  | cons entry entries ih =>
    rw [replace, map_cons, lookup_cons, lookup_cons]
    by_cases isKey : entry.1 = key
    · rw [if_pos isKey]
      by_cases same : other = key
      · simp [same]
      -- The rest of the list may have the key again, which other keys do not see.
      rw [if_neg same, if_neg same, if_neg (fun equal => same (equal.trans isKey))]
      by_cases again : key ∈ entries.map Prod.fst
      · rw [← replace, ih again, if_neg same]
      have unchanged : replace key value entries = entries := by
        rw [replace]
        refine (map_congr_left fun entry mem => ?_).trans (map_id _)
        exact if_neg fun (equal : entry.1 = key) => again (equal ▸ mem_map_of_mem mem)
      rw [← replace, unchanged]
    rw [if_neg isKey]
    have later : key ∈ entries.map Prod.fst := by
      rcases mem_cons.mp present with here | later
      · exact absurd here.symm isKey
      · exact later
    rw [← replace, ih later]
    by_cases here : other = entry.1
    · rw [if_pos here, if_neg (fun equal => isKey (here ▸ equal)), if_pos here]
    · rw [if_neg here, if_neg here]

theorem lookup_insertBefore {stop : κ → Bool} (fresh : key ∉ entries.map Prod.fst)
    (nodup : Distinct entries) (other : κ) :
    (insertBefore stop (key, value) entries).lookup other = if other = key then some value
    else entries.lookup other := by
  have distinct' : Distinct ((key, value) :: entries) := nodup_cons.mpr ⟨fresh, nodup⟩
  rw [lookup_perm distinct' (insertBefore_perm stop (key, value) entries), lookup_cons]

theorem lookup_remove (other : κ) :
    (remove key entries).lookup other = if other = key then none else entries.lookup other := by
  induction entries with
  | nil => simp [remove]
  | cons entry entries ih =>
    rw [remove, filter_cons]
    by_cases isKey : entry.1 = key
    · rw [if_neg (by simpa using isKey), ← remove, ih, lookup_cons]
      by_cases same : other = key
      · rw [if_pos same, if_pos same]
      · rw [if_neg same, if_neg same, if_neg (fun equal => same (equal.trans isKey))]
    · rw [if_pos (by simpa using isKey), lookup_cons, ← remove, ih, lookup_cons]
      by_cases here : other = entry.1
      · rw [if_pos here, if_neg (fun equal => isKey (here ▸ equal)), if_pos here]
      · rw [if_neg here, if_neg here]

/-- An entry and the rest are the whole table again. -/
theorem remove_perm (nodup : Distinct entries) (found : entries.lookup key = some value) :
    ((key, value) :: remove key entries).Perm entries := by
  induction entries with
  | nil => cases found
  | cons entry entries ih =>
    obtain ⟨fresh, nodup⟩ := nodup_cons.mp nodup
    rw [lookup_cons] at found
    split at found
    case isTrue same =>
      cases found
      have others : remove key entries = entries := by
        refine filter_eq_self.mpr fun other mem => decide_eq_true fun equal => fresh ?_
        rw [← same, ← equal]
        exact mem_map_of_mem mem
      rw [remove, filter_cons_of_neg (by simp [same]), ← remove, others, same]
    case isFalse other =>
      rw [remove, filter_cons_of_pos (by simpa using Ne.symm other), ← remove]
      exact (Perm.swap _ _ _).trans ((ih nodup found).cons entry)

end Assoc
