import Qemu.QObject.CrumpleLists
import Qemu.QObject.FlattenRoot

/-! Flattening and crumpling undo each other, but for empty dictionaries. -/

namespace Qemu.Qmp

open Qemu.Util Assoc SepPath List Option

variable {σ : Type} {src child : QDict σ} {pre : CString}
    {multiLevel : QDict σ} {result : QObject σ}

/-- An empty dictionary whose key another key goes on from. -/
def Clash (src : QDict σ) (key : CString) : Prop :=
  src.lookup key = some (.qdict []) ∧ Extends src key

theorem first_dot (key) : DotFree key ∨ ∃ pre suffix, key = pre ++ '.' :: suffix ∧ DotFree pre := by
  by_cases dot : '.' ∈ key
  · obtain ⟨pre, suffix, same, free⟩ := eq_append_cons_of_mem dot
    exact .inr ⟨pre, suffix, same, free⟩
  · exact .inl dot

/-- What crumpling some entries comes to, if it returns. -/
structure CrumplesTo (src : QDict σ) (result : QObject σ) : Prop where
  flat : ∀ entry ∈ src, entry.2.isFlat = true
  built : Built DotFree result
  nested : src ≠ [] → result.isFlat = false
  leaves : ∀ key leaf, leafUnder result.children (pathOf key) = some leaf ↔
    src.lookup key = some leaf ∧ ¬ Clash src key

theorem group_length_le (distinct : Distinct child)
    (lookup : ∀ suffix, child.lookup suffix = src.lookup (pre ++ '.' :: suffix)) :
    child.length ≤ src.length := by
  have subset : (child.map Prod.fst).map (pre ++ '.' :: ·) ⊆ src.map Prod.fst := by
    intro key mem
    obtain ⟨suffix, inChild, rfl⟩ := List.mem_map.mp mem
    rw [← isSome_lookup, ← lookup]
    exact isSome_lookup.mpr inChild
  have nodup : ((child.map Prod.fst).map (pre ++ '.' :: ·)).Nodup :=
    distinct.map fun suffix suffix' same => (List.cons.inj (append_cancel_left same)).2
  simpa using (subperm_of_subset nodup subset).length_le

theorem group_noPair (noPair : ∀ entry ∈ src, NoPair entry.1) (nodup : Distinct child)
    (lookup : ∀ suffix, child.lookup suffix = src.lookup (pre ++ '.' :: suffix)) :
    ∀ entry ∈ child, NoPair entry.1 := by
  intro entry mem
  have found := (lookup_eq_some nodup).mpr mem
  rw [lookup] at found
  have whole := noPair _ (mem_of_lookup found)
  rw [append_cons] at whole
  exact whole.suffix

theorem group_shorter {depth} (nodup : Distinct child)
    (short : ∀ entry ∈ src, entry.1.length < depth + 1)
    (lookup : ∀ suffix, child.lookup suffix = src.lookup (pre ++ '.' :: suffix)) :
    ∀ entry ∈ child, entry.1.length < depth := by
  intro entry mem
  have found := (lookup_eq_some nodup).mpr mem
  rw [lookup] at found
  have whole := short _ (mem_of_lookup found)
  rw [length_append, length_cons] at whole
  omega

/-- Two steps make crumpled groups, and values as they were. -/
structure Level (src multiLevel : QDict σ) : Prop where
  distinct : Distinct multiLevel
  few : multiLevel.length ≤ src.length
  free : ∀ key, (multiLevel.lookup key).isSome → DotFree key
  flat : ∀ entry ∈ src, entry.2.isFlat = true
  group : ∀ pre, DotFree pre → Extends src pre → ∃ child value, child ≠ [] ∧
    (∀ suffix, child.lookup suffix = src.lookup (pre ++ '.' :: suffix)) ∧ CrumplesTo child value ∧
    multiLevel.lookup pre = some value
  plain : ∀ pre, DotFree pre → ¬ Extends src pre → multiLevel.lookup pre = src.lookup pre
  mixed : ∀ pre value, DotFree pre → Extends src pre →
    src.lookup pre = some value → value = .qdict []

/-- The first two steps, if crumpling a group is right. -/
theorem level_of_steps {crumple twoLevel multiLevel}
    (two : TwoLevel src twoLevel) (multi : MultiLevel crumple twoLevel multiLevel)
    (flat : ∀ entry ∈ src, entry.2.isFlat) (groups : ∀ pre child value, Distinct child →
      (∀ suffix, child.lookup suffix = src.lookup (pre ++ '.' :: suffix)) →
      crumple child = .returns value → CrumplesTo child value) : Level src multiLevel where
  distinct := multi.distinct
  few := by
    have sizes : multiLevel.length = twoLevel.length := by
      refine length_eq multi.distinct two.distinct fun key => ?_
      cases found : twoLevel.lookup key with
      | none => rw [multi.absent key found]
      | some value =>
        obtain ⟨value', _, found'⟩ := multi.present key value found
        simp [found']
    exact sizes ▸ two.few
  free := by
    intro key present
    cases found : twoLevel.lookup key with
    | none =>
      rw [multi.absent key found] at present
      contradiction
    | some value => exact two.free _ (mem_of_lookup found)
  flat := flat
  group := by
    -- A group has been crumpled by the recursive call.
    intro pre free goesOn
    obtain ⟨child, present, nonempty, distinct, lookup⟩ := two.grouped pre free goesOn
    obtain ⟨value, crumpled, found⟩ := multi.present pre _ present
    rw [crumpleValue_qdict nonempty] at crumpled
    exact ⟨child, value, nonempty, lookup, groups pre child value distinct lookup crumpled, found⟩
  plain := by
    intro pre free notOn
    have plain := two.plain pre free notOn
    cases old : src.lookup pre with
    | none => exact multi.absent pre (plain.trans old)
    | some value =>
      obtain ⟨value', crumpled, found⟩ := multi.present pre value (plain.trans old)
      have valueFlat : value.isFlat := flat _ (mem_of_lookup old)
      rw [crumpleValue_flat valueFlat] at crumpled
      rw [found, Outcome.returns.inj crumpled]
  mixed := two.mixed

section

variable (level : Level src multiLevel)

include level

theorem Level.value_built {key value} (found : multiLevel.lookup key = some value) :
    Built DotFree value := by
  have free := level.free key (by rw [found]; rfl)
  by_cases goesOn : Extends src key
  · obtain ⟨child, value', _, _, crumples, found'⟩ := level.group key free goesOn
    obtain rfl : value' = value := Option.some.inj (found'.symm.trans found)
    exact crumples.built
  · rw [level.plain key free goesOn] at found
    have built_of_isFlat : Built Qemu.Qmp.DotFree value := by
      match value, (level.flat _ (mem_of_lookup found)) with
      | .scalar value, _ => exact .scalar value
      | .qdict [], _ => exact .qdict nodup_nil (by simp) (by simp)
      | .qlist [], _ => exact .qlist (Nat.zero_le _) (by simp)
    exact built_of_isFlat

/-- A level's result has dot-free keys throughout. -/
theorem Level.built (few : src.length ≤ 2 ^ 31)
    (same : ∀ key, result.children.lookup key = multiLevel.lookup key)
    (shape : result = .qdict multiLevel ∨ ∃ elems, result = .qlist elems ∧
      elems.length = multiLevel.length ∧ multiLevel ≠ []) :
    Built DotFree result := by
  rcases shape with rfl | ⟨elems, rfl, length, _⟩
  · refine .qdict level.distinct (fun entry mem => ?_) fun entry mem => ?_
    · exact level.free _ (isSome_lookup.mpr (List.mem_map_of_mem mem))
    · exact level.value_built ((lookup_eq_some level.distinct).mpr mem)
  have := level.few
  refine .qlist (by omega) fun elem mem => ?_
  obtain ⟨i, less, rfl⟩ := mem_iff_getElem.mp mem
  refine @Level.value_built σ src multiLevel level (formatSize i) _ ?_
  have element := lookup_indexed 0 i elems
  rw [Nat.zero_add, List.getElem?_eq_getElem less] at element
  rw [← same]
  exact element

/-- A nonempty level is a container. -/
theorem Level.nested (nodup : Distinct src)
    (same : ∀ key, result.children.lookup key = multiLevel.lookup key) (nonempty : src ≠ []) :
    result.isFlat = false := by
  by_contra isFlat
  have nothing := children_of_isFlat (by simpa using isFlat)
  have absent : ∀ pre, multiLevel.lookup pre = none := by
    intro pre
    rw [← same, nothing]
    rfl
  obtain ⟨entry, rest, src_eq⟩ := exists_cons_of_ne_nil nonempty
  have mem : entry ∈ src := src_eq ▸ mem_cons_self
  have notOn : ∀ pre, DotFree pre → ¬ Extends src pre := by
    intro pre free goesOn
    obtain ⟨_, _, _, _, _, found⟩ := level.group pre free goesOn
    rw [absent] at found
    contradiction
  rcases first_dot entry.1 with keyFree | ⟨pre, suffix, split, preFree⟩
  · have plain := level.plain entry.1 keyFree (notOn _ keyFree)
    rw [absent, (lookup_eq_some nodup).mpr mem] at plain
    contradiction
  · exact notOn pre preFree ⟨suffix, split ▸ List.mem_map_of_mem mem⟩

/-- A key without a dot is a leaf of its own. -/
theorem Level.leaf_single {key} (free : DotFree key) (leaf : QObject σ) :
    (multiLevel.lookup key).bind (leafAt · []) = some leaf ↔
    src.lookup key = some leaf ∧ ¬ Clash src key := by
  by_cases goesOn : Extends src key
  · -- A group is no leaf, and only an empty dictionary can have been there as well.
    obtain ⟨child, value, nonempty, _, crumples, found⟩ := level.group key free goesOn
    rw [found, bind_some, leafAt, crumples.nested nonempty]
    simp only [Bool.false_eq_true, if_false, reduceCtorEq, false_iff, not_and, not_not]
    intro old
    exact ⟨level.mixed key leaf free goesOn old ▸ old, goesOn⟩
  rw [level.plain key free goesOn]
  constructor
  · intro found
    obtain ⟨value, old, found⟩ := bind_eq_some_iff.mp found
    have valueFlat : value.isFlat := level.flat _ (mem_of_lookup old)
    rw [leafAt, if_pos valueFlat] at found
    exact ⟨found ▸ old, fun clash => goesOn clash.2⟩
  · rintro ⟨old, _⟩
    have leafFlat : leaf.isFlat := level.flat _ (mem_of_lookup old)
    rw [old, bind_some, leafAt, if_pos leafFlat]

/-- A key with a dot is a leaf of its prefix's group. -/
theorem Level.leaf_group (free : DotFree pre) (suffix) (leaf : QObject σ) :
    (multiLevel.lookup pre).bind (leafAt · (pathOf suffix)) = some leaf ↔
      src.lookup (pre ++ '.' :: suffix) = some leaf ∧ ¬ Clash src (pre ++ '.' :: suffix) := by
  by_cases goesOn : Extends src pre
  · obtain ⟨child, value, nonempty, lookup, crumples, found⟩ := level.group pre free goesOn
    -- Keys of a group go on as the keys that they come from.
    have group_extends : Extends child suffix ↔ Extends src (pre ++ '.' :: suffix) := by
      refine exists_congr fun rest => ?_
      rw [← isSome_lookup, ← isSome_lookup, lookup, List.append_assoc, List.cons_append]
    rw [found, bind_some, leafAt_of_not_isFlat (crumples.nested nonempty),
      crumples.leaves, Clash, Clash, lookup, group_extends]
  have absent : src.lookup (pre ++ '.' :: suffix) = none :=
    lookup_eq_none.mpr fun mem => goesOn ⟨suffix, mem⟩
  rw [level.plain pre free goesOn, absent]
  simp only [reduceCtorEq, false_and, iff_false]
  intro found
  obtain ⟨value, old, found⟩ := bind_eq_some_iff.mp found
  have valueFlat : value.isFlat := level.flat _ (mem_of_lookup old)
  rw [leafAt_of_isFlat valueFlat, if_neg (pathOf_ne_nil suffix)] at found
  contradiction

end

/-- What crumpling returns has the leaves of the flat dictionary. -/
theorem crumpleWithin_returned {depth} (nodup : Distinct src)
    (noPair : ∀ entry ∈ src, NoPair entry.1)
    (few : src.length ≤ 2 ^ 31) (ret : crumpleWithin depth src = .returns result) :
    CrumplesTo src result := by
  induction depth generalizing src result with
  | zero => contradiction
  | succ depth ih =>
    obtain ⟨twoLevel, split, multiLevel, crumpled, detected⟩ := crumpleWithin_succ.mp ret
    obtain ⟨flat, two⟩ := splitEntries_returned TwoLevel.start (by simp) nodup noPair split
    have multi := crumpleEntries_returned MultiLevel.start two.distinct crumpled
    obtain ⟨same, shape⟩ := detectList_returned multi.distinct detected
    -- A group has fewer and shorter keys without pairs, so that the induction applies.
    have level : Level src multiLevel :=
        level_of_steps two multi flat fun pre child value childDistinct lookup =>
      ih childDistinct (group_noPair noPair childDistinct lookup)
        (le_trans (group_length_le childDistinct lookup) few)
    refine ⟨flat, level.built few same shape, level.nested nodup same, fun key leaf => ?_⟩
    rcases first_dot key with keyFree | ⟨pre, suffix, rfl, preFree⟩
    · rw [pathOf_of_dotFree keyFree, leafUnder, same, level.leaf_single keyFree]
    · rw [pathOf_first preFree, leafUnder, same, level.leaf_group preFree]

variable [DecidableEq σ]

theorem qobjectIsEqual_flat {value : QObject σ} (flat : value.isFlat) :
    qobjectIsEqual value value := by
  match value, flat with
  | .scalar value, _ => simp [qobjectIsEqual]
  | .qdict [], _ => simp [qobjectIsEqual, entriesEqual]
  | .qlist [], _ => simp [qobjectIsEqual, qlistIsEqual]

/-- Flattening gives the entries back iff no empty dictionary is in the way. -/
theorem flatten_crumpled {flat dict : QDict σ} (nodup : Distinct src)
    (flat_distinct : Distinct flat) (crumples : CrumplesTo src (.qdict dict))
    (found : ∀ key, qdictGet flat key = leafUnder dict (pathOf key)) :
    qdictIsEqual flat src ↔ ∀ key, ¬ Clash src key := by
  have leaves : ∀ key leaf, flat.lookup key = some leaf ↔
      src.lookup key = some leaf ∧ ¬ Clash src key := by
    intro key leaf
    rw [← crumples.leaves key leaf]
    exact Iff.of_eq (congrArg (· = some leaf) (found key))
  rw [qdictIsEqual, qobjectIsEqual, Bool.and_eq_true, decide_eq_true_eq, entriesEqual_iff]
  constructor
  · rintro ⟨sizes, _⟩ key clash
    -- The keys that are left would be fewer.
    have missing : key ∉ flat.map Prod.fst := by
      intro mem
      obtain ⟨value, present⟩ := isSome_iff_exists.mp (isSome_lookup.mpr mem)
      exact ((leaves key value).mp present).2 clash
    have subset : key :: flat.map Prod.fst ⊆ src.map Prod.fst := by
      intro other mem
      rcases mem_cons.mp mem with rfl | mem
      · exact isSome_lookup.mp (by rw [clash.1]; rfl)
      · obtain ⟨value, present⟩ := isSome_iff_exists.mp (isSome_lookup.mpr mem)
        exact isSome_lookup.mp (by rw [((leaves other value).mp present).1]; rfl)
    have fewer := (subperm_of_subset (nodup_cons.mpr ⟨missing, flat_distinct⟩) subset).length_le
    rw [length_cons, length_map, length_map] at fewer
    rw [qdictSize, qdictSize] at sizes
    omega
  · intro apart
    have same : ∀ key, flat.lookup key = src.lookup key := by
      intro key
      ext leaf
      rw [leaves key leaf, and_iff_left (apart key)]
    refine ⟨length_eq flat_distinct nodup fun key => by rw [same], fun entry mem => ?_⟩
    have present : src.lookup entry.1 = some entry.2 :=
      same entry.1 ▸ (lookup_eq_some flat_distinct).mpr mem
    exact ⟨entry.2, present, qobjectIsEqual_flat (crumples.flat _ (mem_of_lookup present))⟩

end Qemu.Qmp
