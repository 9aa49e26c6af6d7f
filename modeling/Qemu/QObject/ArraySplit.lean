import Qemu.QObject.Flatten

/-! Arrays in flat dictionaries: splitting one off, and telling whether that works. -/

namespace Qemu.Qmp

open Qemu.Util Assoc List Option

variable {σ : Type} {src : QDict σ} {start key : CString} {cur : QDict σ}
    {p : CString} {i entries : Nat}

/-- What follows a prefix. -/
def strstart (str start : CString) : Option CString := start.isPrefixOf? str

/-- One entry in `qdict_extract_subqdict`: the new one and the rest. -/
def extractEntry (start : CString) (state : QDict σ × QDict σ)
    (entry : CString × QObject σ) : QDict σ × QDict σ :=
  match strstart entry.1 start with
  | some p => (qdictPutObj state.1 p entry.2, qdictDel state.2 entry.1)
  | none => state

/-- Move the entries with a prefix. -/
def qdictExtractSubqdict (src : QDict σ) (start : CString) : QDict σ × QDict σ :=
  src.foldl (extractEntry start) ([], src)

def intMax : Nat := 2 ^ 31 - 1

/-- The loop of `qdict_count_prefixed_entries`; -ERANGE on overflow. -/
def countPrefixed (start : CString) : QDict σ → Nat → Int
  | [], count => count
  | entry :: rest, count =>
    if (strstart entry.1 start).isSome then
      if count = intMax then -34 else countPrefixed start rest (count + 1)
    else countPrefixed start rest count

def qdictCountPrefixedEntries (src : QDict σ) (start : CString) : Int := countPrefixed start src 0

/-- The prefix of the entries of an array element. -/
def indexPrefix (i : Nat) : CString := formatSize i ++ ['.']

/-- The loop of `qdict_array_split` from an index on, with those left: the elements and the rest. -/
def arraySplitLoop : Nat → Nat → QDict σ → Option (List (QObject σ) × QDict σ)
  | 0, _, src => some ([], src)
  | left + 1, i, src =>
    match qdictGet src (formatSize i),
        decide (qdictCountPrefixedEntries src (indexPrefix i) ≠ 0) with
    | none, true =>
      let (subqdict, src) := qdictExtractSubqdict src (indexPrefix i)
      if ¬ qdictSize subqdict > 0 then none
      else (arraySplitLoop left (i + 1) src).map fun (dst, rest) => (.qdict subqdict :: dst, rest)
    | some subqobj, false =>
      (arraySplitLoop left (i + 1) (qdictDel src (formatSize i))).map fun (dst, rest) =>
        (subqobj :: dst, rest)
    | _, _ => some ([], src)

/-- The list and the rest, unless it asserts. -/
def qdictArraySplit (src : QDict σ) : Option (List (QObject σ) × QDict σ) :=
  arraySplitLoop (2 ^ 32 - 1) 0 src

/-- The first loop of `qdict_array_entries`: where it ends and how many entries it has counted, or
an error. -/
def arrayEntriesLoop (src : QDict σ) (subqdict : CString) : Nat → Nat → Nat → Except Int (Nat × Nat)
  | 0, i, entries => .ok (i, entries)
  | left + 1, i, entries =>
    let subqdictEntries := qdictCountPrefixedEntries src (subqdict ++ indexPrefix i)
    let subqobj := qdictGet src (subqdict ++ formatSize i)
    if subqdictEntries < 0 then .error subqdictEntries
    else if subqobj.isSome ∧ subqdictEntries ≠ 0 then .error (-22)
    else if ¬ subqobj.isSome ∧ subqdictEntries = 0 then .ok (i, entries)
    else arrayEntriesLoop src subqdict left (i + 1) (entries + if subqdictEntries ≠ 0
      then subqdictEntries.toNat else 1)

/-- Nothing if the assertion fails. -/
def qdictArrayEntries (src : QDict σ) (subqdict : CString) : Option Int :=
  if ¬ (subqdict = [] ∨ subqdict.getLast? = some '.') then none
  else
    match arrayEntriesLoop src subqdict intMax 0 0 with
    | .error code => some code
    | .ok (i, entries) =>
      let others := src.countP fun entry => (strstart entry.1 subqdict).isNone
      if qdictSize src ≠ entries + others then some (-22) else some i

theorem strstart_eq_some {rest} : strstart key start = some rest ↔ start ++ rest = key :=
  isPrefixOf?_eq_some_iff_append_eq

def under (start : CString) (src : QDict σ) : QDict σ :=
  src.filterMap fun entry => (strstart entry.1 start).map (·, entry.2)

theorem under_cons_some {entry p} (found : strstart entry.1 start = some p) :
    under start (entry :: src) = (p, entry.2) :: under start src := by
  rw [under, filterMap_cons, found]
  rfl

theorem under_cons_none {entry} (found : strstart entry.1 start = none) :
    under start (entry :: src) = under start src := by
  rw [under, filterMap_cons, found]
  rfl

theorem under_append (p q) : under (p ++ q) src = under q (under p src) := by
  rw [under, under, under, filterMap_filterMap]
  congr 1
  funext entry
  have both : strstart entry.1 (p ++ q) = (strstart entry.1 p).bind (strstart · q) := by
    ext rest
    rw [strstart_eq_some, bind_eq_some_iff]
    constructor
    · exact fun same => ⟨q ++ rest, strstart_eq_some.mpr (by rw [← same, append_assoc]),
        strstart_eq_some.mpr rfl⟩
    · rintro ⟨middle, first, second⟩
      rw [← strstart_eq_some.mp first, ← strstart_eq_some.mp second, append_assoc]
  rw [both]
  cases strstart entry.1 p <;> simp

/-- The count is that of the keys under the prefix, if it fits an `int`. -/
theorem qdictCountPrefixedEntries_eq (small : src.length ≤ intMax) :
    qdictCountPrefixedEntries src start = ((under start src).length : Int) := by
  have loop (count : Nat) (fits : count + src.length ≤ intMax) :
      countPrefixed start src count = ((count + (under start src).length : Nat) : Int) := by
    clear small
    induction src generalizing count with
    | nil => simp [countPrefixed, under]
    | cons entry rest ih =>
      rw [length_cons] at fits
      rw [countPrefixed]
      cases found : strstart entry.1 start with
      | none =>
        rw [under_cons_none found]
        exact ih count (by omega)
      | some p =>
        rw [isSome_some, if_pos rfl, if_neg (by omega), ih (count + 1) (by omega),
          under_cons_some found, length_cons]
        congr 1
        omega
  simpa [qdictCountPrefixedEntries] using loop 0 (by omega)

theorem keys_under : (under start src).map Prod.fst =
    (src.map Prod.fst).filterMap (strstart · start) := by
  rw [under, map_filterMap, filterMap_map]
  congr 1
  funext entry
  rw [Option.map_map]
  exact Option.map_id'

theorem distinct_under (nodup : Distinct src) : Distinct (under start src) := by
  rw [Distinct, keys_under]
  refine List.Nodup.filterMap (fun key key' rest found found' => ?_) nodup
  rw [← strstart_eq_some.mp found, ← strstart_eq_some.mp found']

theorem qdictPutObj_perm {dst : QDict σ} {value : QObject σ} (fresh : key ∉ dst.map Prod.fst) :
    (qdictPutObj dst key value).Perm ((key, value) :: dst) := by
  rw [qdictPutObj, qdictGet, lookup_eq_none.mpr fresh]
  exact insertBefore_perm _ _ _

/-- Extraction moves the entries with the prefix, and leaves the others. -/
theorem qdictExtractSubqdict_spec (nodup : Distinct src) :
    (qdictExtractSubqdict src start).1.Perm (under start src) ∧
      (qdictExtractSubqdict src start).2 = src.filter fun entry =>
          (strstart entry.1 start).isNone := by
  have loop (todo dst left : QDict σ) (nodup : Distinct (under start todo ++ dst)) :
      ∃ moved, todo.foldl (extractEntry start) (dst, left) =
        (moved, left.filter fun entry => !todo.any fun other =>
          (strstart other.1 start).isSome && other.1 == entry.1) ∧
        moved.Perm (under start todo ++ dst) := by
    induction todo generalizing dst left with
    | nil => exact ⟨dst, by simp, by simp [under]⟩
    | cons entry rest ih =>
      rw [foldl_cons]
      cases found : strstart entry.1 start with
      | none =>
        rw [under_cons_none found] at nodup ⊢
        obtain ⟨moved, folded, perm⟩ := ih dst left nodup
        exact ⟨moved, by simp [extractEntry, folded, found], perm⟩
      | some p =>
        rw [under_cons_some found, cons_append] at nodup ⊢
        obtain ⟨fresh, rest_distinct⟩ := nodup_cons.mp nodup
        rw [map_append, mem_append, not_or] at fresh
        have put : (qdictPutObj dst p entry.2).Perm ((p, entry.2) :: dst) :=
          qdictPutObj_perm fresh.2
        have moved_in : (under start rest ++ qdictPutObj dst p entry.2).Perm
          ((p, entry.2) :: (under start rest ++ dst)) :=
          (put.append_left _).trans perm_middle
        obtain ⟨moved, folded, perm⟩ := ih (qdictPutObj dst p entry.2) (qdictDel left entry.1)
          ((moved_in.map Prod.fst).nodup_iff.mpr nodup)
        refine ⟨moved, ?_, perm.trans moved_in⟩
        have step : extractEntry start (dst, left) entry =
            (qdictPutObj dst p entry.2, qdictDel left entry.1) := by
          rw [extractEntry, found]
        rw [step, folded, qdictDel, remove, List.filter_filter]
        congr 2
        funext other
        rw [any_cons, found]
        by_cases same : entry.1 = other.1
        · simp [same]
        · simp [same, Ne.symm same]
  obtain ⟨moved, folded, perm⟩ := loop src [] src (by simpa using distinct_under nodup)
  rw [qdictExtractSubqdict, folded]
  refine ⟨by simpa using perm, filter_congr fun entry mem => ?_⟩
  -- Whether an entry is moved depends on its key alone.
  cases found : strstart entry.1 start with
  | none =>
    simp only [isNone_none, Bool.not_eq_true', List.any_eq_false,
      Bool.and_eq_true, beq_iff_eq, not_and]
    rintro other - isSome same
    rw [same, found] at isSome
    cases isSome
  | some p =>
    simp only [isNone_some, Bool.not_eq_false', List.any_eq_true, Bool.and_eq_true, beq_iff_eq]
    exact ⟨entry, mem, by rw [found]; rfl, rfl⟩

/-- The entries under a prefix and the others are the whole dictionary. -/
theorem under_perm (start) (src : QDict σ) :
    ((under start src).map (fun entry => (start ++ entry.1, entry.2)) ++
      src.filter fun entry => (strstart entry.1 start).isNone).Perm src := by
  induction src with
  | nil => exact List.Perm.refl _
  | cons entry rest ih =>
    cases found : strstart entry.1 start with
    | none =>
      rw [under_cons_none found, filter_cons_of_pos (by rw [found]; rfl)]
      exact perm_middle.trans (ih.cons entry)
    | some p =>
      rw [under_cons_some found, filter_cons_of_neg (by rw [found]; simp), map_cons, cons_append,
        strstart_eq_some.mp found]
      exact ih.cons entry

theorem under_filter {keep : CString → Bool} (kept : ∀ rest, keep (start ++ rest)) :
    under start (src.filter fun entry => keep entry.1) = under start src := by
  induction src with
  | nil => rfl
  | cons entry rest ih =>
    cases found : strstart entry.1 start with
    | none =>
      rw [under_cons_none found, filter_cons]
      split
      · rw [under_cons_none found, ih]
      · exact ih
    | some p =>
      rw [under_cons_some found, filter_cons_of_pos
        (by rw [← strstart_eq_some.mp found]; exact kept p), under_cons_some found, ih]

theorem index_unique {i j rest rest'} (same : indexPrefix i ++ rest = indexPrefix j ++ rest') :
    i = j := by
  have paths := congrArg pathOf same
  simp only [indexPrefix, append_assoc, singleton_append,
    pathOf_first (formatSize_dotFree _)] at paths
  exact formatSize_injective (cons.inj paths).1

/-- The elements of a list from an index on, as the entries that they come from. -/
inductive Gathered : Nat → List (QObject σ) → QDict σ → Prop where
  | nil {i : Nat} : Gathered i [] []
  | value {i : Nat} {value : QObject σ} {dst : List (QObject σ)} {moved : QDict σ}
      (rest : Gathered (i + 1) dst moved) :
      Gathered i (value :: dst) ((formatSize i, value) :: moved)
  | entries {i : Nat} {sub : QDict σ} {dst : List (QObject σ)} {moved : QDict σ} (some_ : sub ≠ [])
      (rest : Gathered (i + 1) dst moved) :
      Gathered i (.qdict sub :: dst)
        (sub.map (fun entry => (indexPrefix i ++ entry.1, entry.2)) ++ moved)

/-- What is left of the array at an index, against its dictionary. -/
structure Reached (src : QDict σ) (p : CString) (i entries : Nat) (cur : QDict σ) : Prop where
  distinct : Distinct cur
  /-- Each index has an entry of its own. -/
  counted : i ≤ entries
  total : entries + cur.length + src.countP (fun entry => (strstart entry.1 p).isNone) = src.length
  objects : ∀ j, i ≤ j → ((qdictGet cur (formatSize j)).isSome ↔
    (qdictGet src (p ++ formatSize j)).isSome)
  dicts : ∀ j, i ≤ j → (under (indexPrefix j) cur).length = (under (p ++ indexPrefix j) src).length

/-- A round takes its index's entries out and leaves the later ones. -/
theorem Reached.next (reached : Reached src p i entries cur) {keep : CString → Bool}
    {n : Nat} (some_ : 0 < n) (values : ∀ j, i < j → keep (formatSize j))
    (dicts : ∀ j, i < j → ∀ rest, keep (indexPrefix j ++ rest))
    (gone : n + (cur.filter fun entry => keep entry.1).length = cur.length) :
    Reached src p (i + 1) (entries + n) (cur.filter fun entry => keep entry.1) where
  distinct := reached.distinct.sublist (filter_sublist.map _)
  counted := by have := reached.counted; omega
  total := by have := reached.total; omega
  objects j above := by
    rw [← reached.objects j (by omega), qdictGet, qdictGet, isSome_lookup, isSome_lookup,
      List.mem_map, List.mem_map]
    refine exists_congr fun entry => and_congr_left fun same => ?_
    rw [mem_filter, same, values j above, and_iff_left rfl]
  dicts j above := by rw [under_filter (dicts j above), reached.dicts j (by omega)]

/-- Both loops stop at an index, or one errs and the other has a rest. -/
theorem loops_agree (small : src.length < intMax) {left : Nat}
    (reached : Reached src p i entries cur) (room : i + left = intMax) :
    ∃ dst rest moved, arraySplitLoop (left + 2 ^ 31) i cur = some (dst, rest) ∧
      Gathered i dst moved ∧ (moved ++ rest).Perm cur ∧
      (arrayEntriesLoop src p left i entries = .error (-22) ∧ rest ≠ [] ∨
        arrayEntriesLoop src p left i entries = .ok (i + dst.length, entries + moved.length)) := by
  have total := reached.total
  have counted := reached.counted
  induction left generalizing i entries cur with
  | zero => omega
  | succ left ih =>
    have here := reached.objects i (Nat.le_refl i)
    have inside := reached.dicts i (Nat.le_refl i)
    have counts : qdictCountPrefixedEntries cur (indexPrefix i) =
      (under (indexPrefix i) cur).length := qdictCountPrefixedEntries_eq (by omega)
    have counts' : qdictCountPrefixedEntries src (p ++ indexPrefix i) =
        (under (indexPrefix i) cur).length := by
      rw [qdictCountPrefixedEntries_eq (by omega), inside]
    rw [show left + 1 + 2 ^ 31 = left + 2 ^ 31 +
      1 by omega, arraySplitLoop, arrayEntriesLoop, counts, counts']
    cases value : qdictGet cur (formatSize i) with
    | some subqobj =>
      rw [value] at here
      rcases Nat.eq_zero_or_pos (under (indexPrefix i) cur).length with none_ | some_
      · -- A value of its own is taken, and the next index is reached.
        have perm := remove_perm reached.distinct value
        have gone := perm.length_eq
        rw [length_cons] at gone
        have next :=
          @Reached.next _ _ _ _ _ _ reached (fun key => decide (key ≠ formatSize i)) 1 (by omega)
          (fun j above => decide_eq_true fun same => by have := formatSize_injective same; omega)
          (fun j _ rest => decide_eq_true fun same =>
            formatSize_dotFree i (by rw [← same]; simp [indexPrefix]))
          (by rw [← remove]; omega)
        obtain ⟨dst, rest, moved, split, gathered, all, agree⟩ :=
          ih next (by omega) next.total next.counted
        refine ⟨subqobj :: dst, rest, (formatSize i, subqobj) :: moved, ?_, .value gathered,
          (all.cons _).trans perm, ?_⟩
        · simp only [none_, Nat.cast_zero, ne_eq, not_true_eq_false, decide_false]
          rw [qdictDel, remove, split]
          rfl
        · simpa [none_, here.mp rfl, Nat.add_assoc, Nat.add_comm 1] using agree
      refine ⟨[], cur, [], ?_, .nil, List.Perm.refl _, .inl ⟨?_, ?_⟩⟩
      · simp [Nat.pos_iff_ne_zero.mp some_]
      · simp [here.mp rfl, Nat.pos_iff_ne_zero.mp some_]
      · rintro rfl
        cases value
    | none =>
      have absent : (qdictGet src (p ++ formatSize i)).isSome = false := by simpa [value] using here
      rcases Nat.eq_zero_or_pos (under (indexPrefix i) cur).length with none_ | some_
      · refine ⟨[], cur, [], ?_, .nil, List.Perm.refl _, .inr ?_⟩
        · simp [none_]
        · simp [none_, absent]
      -- The entries with the prefix are taken together.
      have nonzero : ((under (indexPrefix i) cur).length : Int) ≠ 0 := by omega
      have pos : ¬ ((under (indexPrefix i) cur).length : Int) < 0 := by omega
      obtain ⟨perm, left_⟩ := @qdictExtractSubqdict_spec _ cur (indexPrefix i) reached.distinct
      have parts := under_perm (indexPrefix i) cur
      have gone := parts.length_eq
      rw [length_append, length_map] at gone
      have next :=
        @Reached.next _ _ _ _ _ _ reached (fun key => (strstart key (indexPrefix i)).isNone) _ some_
        (fun j _ => isNone_iff_eq_none.mpr (eq_none_iff_forall_not_mem.mpr fun rest found =>
          formatSize_dotFree j (by rw [← strstart_eq_some.mp found]; simp [indexPrefix])))
        (fun j above rest => isNone_iff_eq_none.mpr
            (eq_none_iff_forall_not_mem.mpr fun rest' found => by
          have := index_unique (strstart_eq_some.mp found)
          omega)) gone
      obtain ⟨dst, rest, moved, split, gathered, all, agree⟩ :=
        ih next (by omega) next.total next.counted
      have size := perm.length_eq
      have filled : (qdictExtractSubqdict cur (indexPrefix i)).1 ≠ [] :=
        ne_nil_of_length_pos (by omega)
      refine ⟨_, rest, _, ?_, .entries filled gathered, ?_, ?_⟩
      · simp only [nonzero, ne_eq, not_false_eq_true, decide_true]
        rw [if_neg (by rw [qdictSize]; omega), left_, split]
        rfl
      · rw [append_assoc]
        exact ((perm.map _).append all).trans parts
      · simpa [ne_nil_of_length_pos some_, pos, absent, size, add_assoc, add_comm 1] using agree

/-- The result predicts the length of the list if nothing is left, and is -EINVAL otherwise; the
elements of the list and what is left are all that was there. -/
theorem qdictArrayEntries_predicts (src : QDict σ) (p : CString) (distinct : Distinct src)
    (small : src.length < intMax) (dotted : p = [] ∨ p.getLast? = some '.') :
    ∃ dst rest moved result, qdictArraySplit (qdictExtractSubqdict src p).1 = some (dst, rest) ∧
      Gathered 0 dst moved ∧ (moved ++ rest).Perm (qdictExtractSubqdict src p).1 ∧
        qdictArrayEntries src p = some result ∧
      (∀ n : Nat, result = n ↔ rest = [] ∧ dst.length = n) ∧ (result < 0 → result = -22) := by
  obtain ⟨perm, -⟩ := @qdictExtractSubqdict_spec _ src p distinct
  have parts := (under_perm p src).length_eq
  have same := perm.length_eq
  rw [length_append, length_map, ← countP_eq_length_filter] at parts
  -- The counting loop starts on what the splitting loop starts on.
  have reached : Reached src p 0 0 (qdictExtractSubqdict src p).1 := {
    distinct := (perm.map Prod.fst).nodup_iff.mpr (distinct_under distinct)
    counted := le_refl 0
    total := by omega
    objects := by
      intro j _
      rw [qdictGet, qdictGet, isSome_lookup, isSome_lookup, (perm.map Prod.fst).mem_iff,
        keys_under, mem_filterMap]
      simp [strstart_eq_some]
    dicts := by
      intro j _
      rw [under_append]
      exact (perm.filterMap _).length_eq }
  obtain ⟨dst, rest, moved, split, gathered, all, agree⟩ :=
    @loops_agree _ src _ p 0 0 small intMax reached (by omega)
  have sizes := all.length_eq
  rw [length_append] at sizes
  rw [qdictArrayEntries, if_neg (not_not.mpr dotted)]
  rcases agree with ⟨failed, filled⟩ | counted
  · rw [failed]
    refine ⟨dst, rest, moved, -22, split, gathered, all, rfl, fun n => ?_, fun _ => rfl⟩
    simp [filled]
  rw [counted]
  by_cases empty : rest = []
  · refine ⟨dst, rest, moved, dst.length, split, gathered, all, ?_, fun n => ?_,
      fun negative => by omega⟩
    · rw [empty, length_nil] at sizes
      simp [qdictSize]
      omega
    · simp [empty]
  have left_ := length_pos_iff.mpr empty
  refine ⟨dst, rest, moved, -22, split, gathered, all, ?_, fun n => ?_, fun _ => rfl⟩
  · simp [qdictSize]
    omega
  · simp [empty]

/-- An array of a value and a dictionary with one entry. -/
theorem qdictArrayEntries_predicts_pair :
    let src : QDict Nat := [(['0'], .scalar 7), (['1', '.', 'a'], .scalar 8)]
    ∃ dst rest moved result, qdictArraySplit (qdictExtractSubqdict src []).1 = some (dst, rest) ∧
      Gathered 0 dst moved ∧ (moved ++ rest).Perm (qdictExtractSubqdict src []).1 ∧
        qdictArrayEntries src [] = some result ∧
      (∀ n : Nat, result = n ↔ rest = [] ∧ dst.length = n) ∧ (result < 0 → result = -22) :=
  qdictArrayEntries_predicts _ [] (by simp [Distinct]) (by decide) (.inl rfl)

end Qemu.Qmp
