import Qemu.QObject.Flatten

/-! The loop at the root of flattening, which changes what it goes through. -/

namespace Qemu.Qmp

open Qemu.Util Assoc SepPath List Option

variable {σ : Type}

section Puts

variable {Holds : Nat → QDict σ → Prop}

def CountsPuts (Holds : Nat → QDict σ → Prop) : Prop :=
  ∀ n target key value, QObject.isFlat value = true → Holds n target →
    Holds (n + 1) (qdictPutObj target key value)

mutual

/-- Flattening a value puts as many flat values as it has leaves. -/
theorem flattenValue_puts (step : CountsPuts Holds) :
    ∀ (value : QObject σ) (key : CString) (n : Nat) (target : QDict σ), Holds n target →
      Holds (n + leafCount value) (flattenValue key target value)
  | .scalar _, key, n, target, holds | .qdict [], key, n, target, holds | .qlist [],
      key, n, target, holds => by
    rw [flattenValue, leafCount]
    · exact step n target key _ rfl holds
    all_goals simp
  | .qdict (entry :: rest), key, n, target, holds => by
    rw [flattenValue, leafCount]
    exact qdictFlattenQdict_puts step (entry :: rest) key n target holds
  | .qlist (elem :: rest), key, n, target, holds => by
    rw [flattenValue, leafCount]
    exact qdictFlattenQlist_puts step (elem :: rest) key 0 n target holds

theorem qdictFlattenQdict_puts (step : CountsPuts Holds) :
    ∀ (entries : QDict σ) (pre : CString) (n : Nat) (target : QDict σ), Holds n target →
      Holds (n + entryLeaves entries) (qdictFlattenQdict pre target entries)
  | [], pre, n, target, holds => by
    rw [qdictFlattenQdict, entryLeaves]
    exact holds
  | (key, value) :: rest, pre, n, target, holds => by
    rw [qdictFlattenQdict, entryLeaves, ← Nat.add_assoc]
    exact qdictFlattenQdict_puts step rest pre _ _ (flattenValue_puts step value _ n target holds)

theorem qdictFlattenQlist_puts (step : CountsPuts Holds) :
    ∀ (elems : List (QObject σ)) (pre : CString) (i n : Nat) (target : QDict σ), Holds n target →
      Holds (n + elemLeaves elems) (qdictFlattenQlist pre i target elems)
  | [], pre, i, n, target, holds => by
    rw [qdictFlattenQlist, elemLeaves]
    exact holds
  | value :: rest, pre, i, n, target, holds => by
    rw [qdictFlattenQlist, elemLeaves, ← Nat.add_assoc]
    exact qdictFlattenQlist_puts step rest pre _ _ _ (flattenValue_puts step value _ n target holds)

end

end Puts

/-- The loop goes round once for each entry, and for each leaf. -/
def pending : QDict σ → Nat
  | [] => 0
  | (_, value) :: rest => (if value.isFlat then 1 else 1 + leafCount value) + pending rest

theorem pending_le_rootSteps (qdict : QDict σ) : pending qdict ≤ rootSteps qdict := by
  induction qdict with
  | nil => exact le_rfl
  | cons entry rest ih =>
    rw [rootSteps, qdictSize] at ih ⊢
    rw [pending, entryLeaves, length_cons]
    split <;> omega

variable {value : QObject σ} {key : CString} {qdict : QDict σ}
    {wanted : CString → Option (QObject σ)}

theorem pending_replace {key} (flat : value.isFlat) (entries : QDict σ) :
    pending (replace key value entries) ≤ pending entries := by
  induction entries with
  | nil => exact le_rfl
  | cons entry rest ih =>
    rw [Assoc.replace, map_cons, ← Assoc.replace]
    by_cases same : entry.1 = key
    · rw [if_pos same, pending, pending, if_pos flat]
      split <;> omega
    · rw [if_neg same, pending, pending]
      omega

theorem pending_insertBefore {stop entry} (flat : entry.2.isFlat)
    (entries : QDict σ) : pending (insertBefore stop entry entries) = pending entries + 1 := by
  induction entries with
  | nil => simp only [insertBefore, pending, flat, if_true]
  | cons other rest ih =>
    rw [insertBefore]
    split
    · rw [pending, if_pos flat, Nat.add_comm]
    · rw [pending, pending, ih]
      omega

/-- All before the next entry of the loop is flat but the current entry, and the loop goes round a
bounded number of times from there. -/
structure Ahead (cur : CString) (next : Option CString) (n : Nat) (qdict : QDict σ) : Prop where
  distinct : Distinct qdict
  split : ∃ before rest, qdict = before ++ rest ∧ cur ∈ before.map Prod.fst ∧
    (∀ entry ∈ before, entry.1 ≠ cur → entry.2.isFlat = true) ∧
    qdictFirst rest = next ∧ pending rest ≤ n

/-- A new entry goes before the next one or after it. -/
theorem insertBefore_split {stop entry} (flat : entry.2.isFlat) (before rest : QDict σ) :
    ∃ before' rest', insertBefore stop entry (before ++ rest) = before' ++ rest' ∧
      (∀ other, other ∈ before → other ∈ before') ∧
        (∀ other ∈ before', other ∈ before ∨ other = entry) ∧
      qdictFirst rest' = qdictFirst rest ∧ pending rest' ≤ pending rest + 1 := by
  induction before with
  | nil =>
    cases rest with
    | nil => exact ⟨[entry], [], rfl, by simp, by simp, rfl, Nat.le_succ _⟩
    | cons first rest =>
      rw [nil_append, insertBefore]
      -- The new entry goes before the first that stops the walk.
      by_cases here : stop first.1 = true
      · rw [if_pos here]
        exact ⟨[entry], first :: rest, rfl, by simp, by simp, rfl, Nat.le_succ _⟩
      · rw [if_neg here]
        refine ⟨[], first :: insertBefore stop entry rest, rfl, by simp, by simp, rfl, ?_⟩
        rw [pending, pending, pending_insertBefore flat]
        omega
  | cons first before ih =>
    rw [cons_append, insertBefore]
    by_cases here : stop first.1 = true
    · rw [if_pos here]
      refine ⟨entry :: first :: before, rest, rfl, fun other mem =>
        mem_cons_of_mem _ mem, ?_, rfl, Nat.le_succ _⟩
      intro other mem
      rcases mem_cons.mp mem with same | mem
      · exact .inr same
      · exact .inl mem
    rw [if_neg here]
    obtain ⟨before', rest', split, kept, only, first_eq, few⟩ := ih
    refine ⟨first :: before', rest', by rw [split, cons_append], ?_, ?_, first_eq, few⟩
    · intro other mem
      rcases mem_cons.mp mem with same | mem
      · exact same ▸ mem_cons_self
      · exact mem_cons_of_mem _ (kept other mem)
    · intro other mem
      rcases mem_cons.mp mem with same | mem
      · exact .inl (same ▸ mem_cons_self)
      · exact (only other mem).imp_left (mem_cons_of_mem _)

/-- Putting a flat value leaves the next entry, with at most a step more. -/
theorem Ahead.put {cur next n qdict key} (flat : value.isFlat) (ahead : Ahead cur next n qdict) :
    Ahead cur next (n + 1) (qdictPutObj qdict key value) := by
  refine ⟨distinct_put ahead.distinct key value, ?_⟩
  obtain ⟨before, rest, rfl, current, flatBefore, first, few⟩ := ahead.split
  rw [qdictPutObj]
  -- An old key is replaced in place, a new one goes to its bucket.
  cases found : qdictGet (before ++ rest) key with
  | some old =>
    refine ⟨replace key value before, replace key value rest, map_append, ?_, ?_, ?_, ?_⟩
    · rw [keys_replace]
      exact current
    · intro entry mem other
      obtain ⟨old, inBefore, rfl⟩ := mem_map.mp mem
      by_cases same : old.1 = key
      · rw [if_pos same]
        exact flat
      · rw [if_neg same] at other ⊢
        exact flatBefore old inBefore other
    · rw [← first]
      cases rest with
      | nil => rfl
      | cons entry rest =>
        rw [Assoc.replace, map_cons]
        split
        · rename_i same
          exact congrArg some same.symm
        · rfl
    · exact Nat.le_succ_of_le (le_trans (pending_replace flat rest) few)
  | none =>
    obtain ⟨before', rest', split, kept, only, first', few'⟩ := @insertBefore_split σ
      (fun other => bucket key ≤ bucket other) (key, value) flat before rest
    refine ⟨before', rest', split, ?_, ?_, first'.trans first, by omega⟩
    · obtain ⟨entry, mem, same⟩ := mem_map.mp current
      exact same ▸ mem_map_of_mem (kept entry mem)
    · intro entry mem other
      rcases only entry mem with old | rfl
      · exact flatBefore entry old other
      · exact flat

/-- The loop is at an entry or the end, with flat values before. -/
structure LoopAt (cur : Option CString) (n : Nat) (qdict : QDict σ) : Prop where
  distinct : Distinct qdict
  split : ∃ before rest, qdict = before ++ rest ∧ (∀ entry ∈ before, entry.2.isFlat = true) ∧
    qdictFirst rest = cur ∧ pending rest ≤ n

/-- The iteration goes on to the entry behind a key. -/
theorem qdictNext_eq {before rest} (nodup : Distinct (before ++ (key, value) :: rest)) :
    qdictNext (before ++ (key, value) :: rest) key = qdictFirst rest := by
  have skipped : (before ++ (key, value) :: rest).dropWhile (fun entry => entry.1 ≠ key) =
      (key, value) :: rest := by
    rw [dropWhile_append_of_pos, dropWhile_cons_of_neg (by simp)]
    intro entry mem
    rw [decide_eq_true_eq]
    rintro rfl
    exact absurd (mem_map_of_mem mem) nodup.fresh
  rw [qdictNext, skipped, tail_cons]

/-- One round: the current entry is gone or flat, and the loop is at the next. -/
theorem LoopAt.round {n} (at_ : LoopAt (some key) (n + 1) qdict) : ∃ value, (key, value) ∈ qdict ∧
      (value.isFlat = true → LoopAt (qdictNext qdict key) n qdict) ∧
      (value.isFlat = false →
        LoopAt (qdictNext qdict key) n (qdictDel (flattenValue key qdict value) key)) := by
  obtain ⟨before, rest, rfl, flatBefore, first, few⟩ := at_.split
  cases rest with
  | nil => contradiction
  | cons entry rest =>
    obtain ⟨current, value⟩ := entry
    obtain rfl : current = key := some.inj first
    have next := qdictNext_eq at_.distinct
    rw [pending] at few
    refine ⟨value, mem_append_right _ mem_cons_self, fun flat => ?_, fun nested => ?_⟩
    · rw [if_pos flat] at few
      refine ⟨at_.distinct, before ++ [(current, value)],
        rest, by simp, fun entry mem => ?_, next.symm, by omega⟩
      rcases mem_append.mp mem with mem | same
      · exact flatBefore entry mem
      · obtain rfl := mem_singleton.mp same
        exact flat
    · rw [nested] at few
      simp only [Bool.false_eq_true, if_false] at few
      -- The values put keep the next entry in its place; then the current entry goes.
      have start : Ahead current (qdictFirst rest) (pending rest)
          (before ++ (current, value) :: rest) := by
        refine ⟨at_.distinct, before ++ [(current, value)],
          rest, by simp, by simp, fun entry mem other => ?_, rfl, le_rfl⟩
        rcases mem_append.mp mem with mem | same
        · exact flatBefore entry mem
        · obtain rfl := mem_singleton.mp same
          exact absurd rfl other
      have ahead := @flattenValue_puts σ (Ahead current (qdictFirst rest))
        (fun _ _ _ _ flat ahead => ahead.put flat) value current _ _ start
      refine ⟨ahead.distinct.remove, ?_⟩
      obtain ⟨before', rest', split, inBefore, flat', first', few'⟩ := ahead.split
      have notAfter : current ∉ rest'.map Prod.fst := by
        have nodup := ahead.distinct
        rw [Distinct, split, map_append] at nodup
        exact fun again => (nodup_append.mp nodup).2.2 _ inBefore _ again rfl
      refine ⟨remove current before', rest', ?_, fun entry mem => ?_,
        first'.trans next.symm, by omega⟩
      · rw [qdictDel, split, remove, filter_append]
        congr 1
        refine filter_eq_self.mpr fun entry mem => decide_eq_true fun same => notAfter ?_
        exact same ▸ mem_map_of_mem mem
      · rw [remove, mem_filter, decide_eq_true_eq] at mem
        exact flat' entry mem.1 mem.2

/-- What a dictionary amounts to: flat values, and others' leaves. -/
structure Amounts (wanted : CString → Option (QObject σ)) (qdict : QDict σ) : Prop where
  nested : ∀ entry ∈ qdict, entry.2.isFlat = false → DotFree entry.1 ∧ Built DotFree entry.2
  leaves : ∀ key leaf, wanted key = some leaf ↔
    qdictGet qdict key = some leaf ∧ leaf.isFlat = true ∨
      ∃ entry ∈ qdict, entry.2.isFlat = false ∧
        (below entry.1 key).bind (leafAt entry.2) = some leaf

/-- Flattening in place keeps what the dictionary amounts to. -/
theorem Amounts.flattenEntry (amounts : Amounts wanted qdict) (nodup : Distinct qdict)
    (mem : (key, value) ∈ qdict) (isNested : value.isFlat = false) :
    Amounts wanted (qdictDel (flattenValue key qdict value) key) := by
  obtain ⟨keyFree, built⟩ := amounts.nested _ mem isNested
  obtain ⟨distinct', found⟩ := flattenValue_spec built (fun _ free => free) key qdict nodup
  have get : ∀ other, qdictGet (qdictDel (flattenValue key qdict value) key) other =
      if other = key then none else ((below key other).bind (leafAt value)).or
          (qdictGet qdict other) := by
    intro other
    rw [← found]
    exact lookup_remove other
  have final : Distinct (qdictDel (flattenValue key qdict value) key) := distinct'.remove
  -- An entry that is still not flat was there before.
  have old : ∀ entry ∈ qdictDel (flattenValue key qdict value) key, entry.2.isFlat = false →
      entry.1 ≠ key ∧ entry ∈ qdict := by
    intro entry inNew stillNested
    have here := get entry.1
    rw [qdictGet, (lookup_eq_some final).mpr inNew] at here
    obtain ⟨other, here⟩ := ite_none_left_eq_some.mp here.symm
    refine ⟨other, ?_⟩
    cases leaf : (below key entry.1).bind (leafAt value) with
    | none =>
      rw [leaf, none_or] at here
      exact (lookup_eq_some nodup).mp here
    | some put =>
      rw [leaf, some_or] at here
      obtain ⟨path, _, found⟩ := bind_eq_some_iff.mp leaf
      rw [← some.inj here, isFlat_of_leafAt found] at stillNested
      contradiction
  refine ⟨fun entry inNew stillNested =>
    amounts.nested entry (old entry inNew stillNested).2 stillNested, ?_⟩
  intro other leaf
  constructor
  · intro isWanted
    rcases (amounts.leaves other leaf).mp isWanted with
      ⟨present, flat⟩ | ⟨entry, inOld, entryNested, below_⟩
    · -- A flat value stays, and a leaf put in its place is the same one.
      left
      have notKey : other ≠ key := by
        rintro rfl
        rw [qdictGet, (lookup_eq_some nodup).mpr mem] at present
        rw [← some.inj present, isNested] at flat
        contradiction
      rw [get, if_neg notKey]
      refine ⟨?_, flat⟩
      cases put : (below key other).bind (leafAt value) with
      | none => rw [none_or, present]
      | some leaf' =>
        have again := (amounts.leaves other leaf').mpr (.inr ⟨(key, value), mem, isNested, put⟩)
        rw [some_or, ← isWanted, again]
    by_cases same : entry.1 = key
    · have sameValue : entry.2 = value := by
        have left := (lookup_eq_some nodup).mpr inOld
        rw [same, (lookup_eq_some nodup).mpr mem] at left
        exact (some.inj left).symm
      rw [same, sameValue] at below_
      left
      have notKey : other ≠ key := by
        rintro rfl
        rw [below_eq_nil.mpr rfl, bind_some, leafAt, isNested] at below_
        contradiction
      obtain ⟨path, _, found⟩ := bind_eq_some_iff.mp below_
      rw [get, if_neg notKey, below_, some_or]
      exact ⟨rfl, isFlat_of_leafAt found⟩
    right
    refine ⟨entry, (lookup_eq_some final).mp ?_, entryNested, below_⟩
    have apart : below key entry.1 = none := by
      rw [below, pathOf_of_dotFree keyFree,
        pathOf_of_dotFree (amounts.nested entry inOld entryNested).1]
      cases start : ([key] : List CString).isPrefixOf? [entry.1] with
      | none => rfl
      | some rest =>
        rw [isPrefixOf?_eq_some_iff_append_eq] at start
        exact absurd (cons.inj start).1.symm same
    have here := get entry.1
    rw [if_neg same, apart, bind_none, none_or, qdictGet, qdictGet,
      (lookup_eq_some nodup).mpr inOld] at here
    exact here
  · rintro (⟨present, flat⟩ | ⟨entry, inNew, entryNested, below_⟩)
    · rw [get] at present
      obtain ⟨_, present⟩ := ite_none_left_eq_some.mp present
      cases put : (below key other).bind (leafAt value) with
      | none =>
        rw [put, none_or] at present
        exact (amounts.leaves other leaf).mpr (.inl ⟨present, flat⟩)
      | some leaf' =>
        rw [put, some_or] at present
        exact (amounts.leaves other leaf).mpr
          (.inr ⟨(key, value), mem, isNested, put.trans present⟩)
    · exact (amounts.leaves other leaf).mpr
        (.inr ⟨entry, (old entry inNew entryNested).2, entryNested, below_⟩)

/-- At the end of the loop every key has its final value. -/
theorem LoopAt.finished {n} (at_ : LoopAt none n qdict) (amounts : Amounts wanted qdict)
    (key) : qdictGet qdict key = wanted key := by
  obtain ⟨before, rest, rfl, flatBefore, first, _⟩ := at_.split
  have nothing : rest = [] := by
    cases rest with
    | nil => rfl
    | cons entry rest => contradiction
  rw [nothing, append_nil] at amounts ⊢
  ext leaf
  rw [amounts.leaves key leaf]
  constructor
  · intro present
    exact .inl ⟨present, flatBefore _ (mem_of_lookup present)⟩
  · rintro (⟨present, _⟩ | ⟨entry, mem, entryNested, _⟩)
    · exact present
    · rw [flatBefore entry mem] at entryNested
      contradiction

theorem LoopAt.of_zero {cur} (at_ : LoopAt cur 0 qdict) : cur = none := by
  obtain ⟨before, rest, _, _, rfl, few⟩ := at_.split
  cases rest with
  | nil => rfl
  | cons entry rest =>
    rw [pending] at few
    split at few <;> omega

/-- The loop over the root ends and lists every leaf. -/
theorem flattenRoot_spec {fuel cur} (at_ : LoopAt cur fuel qdict) (amounts : Amounts wanted qdict) :
    ∃ flat, flattenRoot fuel qdict cur = some flat ∧ Distinct flat ∧
        ∀ key, qdictGet flat key = wanted key := by
  induction fuel generalizing qdict cur with
  | zero =>
    obtain rfl := at_.of_zero
    exact ⟨qdict, by rw [flattenRoot], at_.distinct, at_.finished amounts⟩
  | succ fuel ih =>
    cases cur with
    | none => exact ⟨qdict, by rw [flattenRoot], at_.distinct, at_.finished amounts⟩
    | some key =>
      obtain ⟨value, mem, ifFlat, ifNested⟩ := at_.round
      have found : qdictGet qdict key = some value := (lookup_eq_some at_.distinct).mpr mem
      rw [flattenRoot]
      simp only [found, bind_eq_bind, bind_some]
      cases isFlat : value.isFlat with
      | true => exact ih (ifFlat isFlat) amounts
      | false => exact ih (ifNested isFlat) (amounts.flattenEntry at_.distinct mem isFlat)

/-- At the start the dictionary amounts to its own leaves. -/
theorem Amounts.start (built : Built DotFree (.qdict qdict)) :
    Amounts (fun key => leafUnder qdict (pathOf key)) qdict := by
  cases built with
  | qdict nodup keys values =>
    refine ⟨fun entry mem _ => ⟨keys entry mem, values entry mem⟩, fun key leaf => ?_⟩
    constructor
    · intro found
      cases path : pathOf key with
      | nil => exact absurd path (pathOf_ne_nil key)
      | cons segment rest =>
        rw [path, leafUnder, bind_eq_some_iff] at found
        obtain ⟨value, present, found⟩ := found
        have mem := (lookup_eq_some nodup).mp present
        have start : below segment key = some rest := by
          rw [below, pathOf_of_dotFree (keys _ mem), path, isPrefixOf?_eq_some_iff_append_eq]
          rfl
        cases isFlat : value.isFlat with
        | true =>
          left
          rw [leafAt_of_isFlat isFlat] at found
          split at found
          case isTrue empty =>
            cases found
            have same : key = segment := below_eq_nil.mp (by rw [start, empty])
            exact ⟨same ▸ present, isFlat⟩
          case isFalse => contradiction
        | false => exact .inr ⟨(segment, value), mem, isFlat, by rw [start]; exact found⟩
    · rintro (⟨present, flat⟩ | ⟨entry, mem, _, found⟩)
      · have mem := (lookup_eq_some nodup).mp present
        rw [pathOf_of_dotFree (keys _ mem), leafUnder, ← qdictGet, present,
          bind_some, leafAt, if_pos flat]
      · obtain ⟨path, start, found⟩ := bind_eq_some_iff.mp found
        rw [below, pathOf_of_dotFree (keys _ mem), isPrefixOf?_eq_some_iff_append_eq] at start
        rw [← start, singleton_append, leafUnder, (lookup_eq_some nodup).mpr mem, bind_some, found]

theorem qdictFlatten_spec (built : Built DotFree (.qdict qdict)) :
    ∃ flat, qdictFlatten qdict = some flat ∧ Distinct flat ∧
      ∀ key, qdictGet flat key = leafUnder qdict (pathOf key) := by
  have nodup : Distinct qdict := by
    cases built with
    | qdict nodup _ _ => exact nodup
  refine flattenRoot_spec ⟨nodup, [], qdict, rfl, by simp, rfl, pending_le_rootSteps qdict⟩
    (Amounts.start built)

end Qemu.Qmp
