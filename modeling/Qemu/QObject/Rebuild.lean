import Qemu.QObject.CrumpleFlatten

/-! Crumpling what flattening made of a dictionary gives the dictionary back. -/

namespace Qemu.Qmp

open Qemu.Util Assoc SepPath List Option Nat

variable {σ : Type}

section Rebuilt

/-- A key that survives both ways: not empty, without dots, and no index. -/
def NameKey (key : CString) : Prop := key ≠ [] ∧ DotFree key ∧ ¬ IsIndex key

theorem NameKey.dotFree {key} (name : NameKey key) : DotFree key := name.2.1

variable {value : QObject σ} {src : QDict σ} {pre : CString}

theorem Built.children_ne_nil (built : Built NameKey value) :
    ∀ entry ∈ value.children, entry.1 ≠ [] := by
  intro entry mem
  cases built with
  | scalar value => contradiction
  | qdict _ keys _ => exact (keys entry mem).1
  | qlist _ _ =>
    obtain ⟨_, j, _, isIndex⟩ := mem_of_mem_indexed mem
    exact isIndex ▸ formatSize_ne_nil j

theorem leafAt_segments {path leaf} (built : Built NameKey value)
    (found : leafAt value path = some leaf) : ∀ segment ∈ path, segment ≠ [] := by
  induction path generalizing value with
  | nil => exact fun segment mem => absurd mem not_mem_nil
  | cons first rest ih =>
    rw [leafAt, bind_eq_some_iff] at found
    obtain ⟨child, present, found⟩ := found
    have mem := mem_of_lookup present
    intro segment inPath
    rcases mem_cons.mp inPath with rfl | inRest
    · exact built.children_ne_nil _ mem
    · exact ih (built.child _ mem) found segment inRest

theorem noPair_of_segments {key} (nonempty : ∀ segment ∈ pathOf key, segment ≠ []) :
    NoPair key := by
  rintro ⟨before, after, rfl⟩
  refine nonempty [] ?_ rfl
  have split : before ++ ['.', '.'] ++ after = before ++ '.' :: ([] ++ '.' :: after) := by simp
  rw [split, pathOf, splitOn_append, splitOn_append, mem_append, mem_append]
  exact .inr (.inl (by rw [splitOn_nil]; exact mem_cons_self))

theorem Built.exists_leaf {okKey} (built : Built okKey value)
    (free : ∀ key, okKey key → DotFree key) :
    ∃ path leaf, leafAt value path = some leaf ∧ ∀ segment ∈ path, DotFree segment := by
  -- Into an object that is not flat, the path starts with any entry and goes on as in the entry.
  have step : ∀ {value : QObject σ}, Built okKey value → value.isFlat = false →
      (∀ entry ∈ value.children, ∃ path leaf, leafAt entry.2 path = some leaf ∧
        ∀ segment ∈ path, DotFree segment) →
      value.children ≠ [] → ∃ path leaf, leafAt value path = some leaf ∧
          ∀ segment ∈ path, DotFree segment := by
    intro value built nested each nonempty
    obtain ⟨entry, rest, children_eq⟩ := exists_cons_of_ne_nil nonempty
    have mem : entry ∈ value.children := children_eq ▸ mem_cons_self
    obtain ⟨path, leaf, found, segments⟩ := each entry mem
    refine ⟨entry.1 :: path, leaf, ?_, fun segment inPath => ?_⟩
    · rw [leafAt, (lookup_eq_some built.children_distinct).mpr mem, bind_some, found]
    · rcases mem_cons.mp inPath with rfl | inRest
      · exact built.children_dotFree free entry mem
      · exact segments segment inRest
  induction built with
  | scalar value => exact ⟨[], .scalar value, rfl, fun _ mem => absurd mem not_mem_nil⟩
  | @qdict entries nodup keys values ih =>
    cases entries with
    | nil => exact ⟨[], .qdict [], rfl, fun _ mem => absurd mem not_mem_nil⟩
    | cons entry rest => exact step (.qdict nodup keys values) rfl ih (cons_ne_nil _ _)
  | @qlist elems short values ih =>
    cases elems with
    | nil => exact ⟨[], .qlist [], rfl, fun _ mem => absurd mem not_mem_nil⟩
    | cons elem rest =>
      exact step (.qlist short values) rfl (fun entry mem => ih entry.2 (mem_of_mem_indexed mem).1)
        (cons_ne_nil _ _)

/-- Entries that are the leaves of an object, each under its path. -/
structure ListsLeaves (value : QObject σ) (src : QDict σ) : Prop where
  distinct : Distinct src
  lookup : ∀ key, src.lookup key = leafUnder value.children (pathOf key)

section

variable (lists : ListsLeaves value src)

include lists

theorem ListsLeaves.single (free : DotFree pre) :
    src.lookup pre = (value.children.lookup pre).bind (leafAt · []) := by
  rw [lists.lookup, pathOf_of_dotFree free, leafUnder]

theorem ListsLeaves.group (free : DotFree pre) (suffix) :
    src.lookup (pre ++ '.' :: suffix) = (value.children.lookup pre).bind
        (leafAt · (pathOf suffix)) := by
  rw [lists.lookup, pathOf_first free, leafUnder]

/-- A prefix is extended exactly where a container stands. -/
theorem ListsLeaves.extends_iff (built : Built NameKey value) (free : DotFree pre) :
    Extends src pre ↔ ∃ child, value.children.lookup pre = some child ∧ child.isFlat = false := by
  constructor
  · rintro ⟨suffix, mem⟩
    obtain ⟨leaf, found⟩ := isSome_iff_exists.mp (isSome_lookup.mpr mem)
    rw [lists.group free, bind_eq_some_iff] at found
    obtain ⟨child, present, found⟩ := found
    refine ⟨child, present, ?_⟩
    by_contra isFlat
    rw [leafAt_of_isFlat (by simpa using isFlat), if_neg (pathOf_ne_nil suffix)] at found
    contradiction
  · rintro ⟨child, present, nested⟩
    have exists_key : ∃ key leaf, leafAt ((pre, child).2) (pathOf key) = some leaf := by
      obtain ⟨path, leaf, found, segments⟩ :=
        (built.child _ (mem_of_lookup present)).exists_leaf (fun _ name => name.dotFree)
      have nonempty : path ≠ [] := by
        rintro rfl
        rw [leafAt, nested] at found
        contradiction
      refine ⟨['.'].intercalate path, leaf, ?_⟩
      rw [pathOf, splitOn_intercalate '.' segments nonempty, found]
    obtain ⟨key, leaf, found⟩ := exists_key
    refine ⟨key, isSome_lookup.mp ?_⟩
    rw [lists.group free, present, bind_some, found]
    rfl

/-- The listed leaves are a dictionary crumpling accepts. -/
theorem ListsLeaves.flatDict (built : Built NameKey value) : FlatDict src where
  distinct := lists.distinct
  flat := by
    intro entry mem
    have found := (lookup_eq_some lists.distinct).mpr mem
    rw [lists.lookup] at found
    cases path : pathOf entry.1 with
    | nil => exact absurd path (pathOf_ne_nil _)
    | cons segment rest =>
      rw [path, leafUnder, bind_eq_some_iff] at found
      obtain ⟨child, _, found⟩ := found
      exact isFlat_of_leafAt found
  noPair := by
    intro entry mem
    have found := (lookup_eq_some lists.distinct).mpr mem
    rw [lists.lookup] at found
    refine noPair_of_segments ?_
    cases path : pathOf entry.1 with
    | nil => exact absurd path (pathOf_ne_nil _)
    | cons segment rest =>
      rw [path, leafUnder, ← leafAt] at found
      exact leafAt_segments built found

theorem ListsLeaves.apart (built : Built NameKey value) (free : DotFree pre)
    (goesOn : Extends src pre) : src.lookup pre = none := by
  obtain ⟨child, present, nested⟩ := (lists.extends_iff built free).mp goesOn
  rw [lists.single free, present, bind_some, leafAt, nested]
  rfl

end

variable [DecidableEq σ]

/-- Crumpling the leaves of an object gives an equal object. -/
def Rebuilds (value : QObject σ) : Prop :=
  ∀ depth src, ListsLeaves value src → (∀ entry ∈ src, entry.1.length < depth) → 0 < depth →
    ∃ result, crumpleWithin depth src = .returns result ∧ qobjectIsEqual result value = true

/-- What is grouped under a segment is crumpled to what is there. -/
theorem crumpleValue_rebuilds {twoLevel depth grouped} (lists : ListsLeaves value src)
    (built : Built NameKey value) (two : TwoLevel src twoLevel)
    (short : ∀ entry ∈ src, entry.1.length < depth + 1)
    (each : ∀ entry ∈ value.children, entry.2.isFlat = false → Rebuilds entry.2)
    (present : twoLevel.lookup pre = some grouped) :
    ∃ child res, value.children.lookup pre = some child ∧
      crumpleValue (crumpleWithin depth) grouped = .returns res ∧ qobjectIsEqual res child := by
  have free : DotFree pre := two.free _ (mem_of_lookup present)
  by_cases goesOn : Extends src pre
  · obtain ⟨child, there, nested⟩ := (lists.extends_iff built free).mp goesOn
    obtain ⟨entries, present', nonempty, nodup, lookup⟩ := two.grouped pre free goesOn
    obtain rfl : grouped = .qdict entries := some.inj (present.symm.trans present')
    have lists' : ListsLeaves child entries := by
      refine ⟨nodup, fun key => ?_⟩
      rw [lookup, lists.group free, there, bind_some, leafAt_of_not_isFlat nested]
    have shorter := group_shorter nodup short lookup
    have pos : 0 < depth := by
      obtain ⟨entry, rest, entries_eq⟩ := exists_cons_of_ne_nil nonempty
      have := shorter entry (entries_eq ▸ mem_cons_self)
      omega
    obtain ⟨res, ret, equal⟩ := each _ (mem_of_lookup there) nested depth entries lists' shorter pos
    exact ⟨child, res, there, by rw [crumpleValue_qdict nonempty, ret], equal⟩
  rw [two.plain pre free goesOn, lists.single free, bind_eq_some_iff] at present
  obtain ⟨child, there, leaf⟩ := present
  have isFlat := isFlat_of_leafAt leaf
  rw [leafAt] at leaf
  split at leaf
  case isTrue => exact ⟨child, grouped, there, crumpleValue_flat isFlat,
    some.inj leaf ▸ qobjectIsEqual_flat (some.inj leaf ▸ isFlat)⟩
  case isFalse => contradiction

omit [DecidableEq σ] in
theorem twoLevel_present {twoLevel child} (lists : ListsLeaves value src)
    (built : Built NameKey value) (two : TwoLevel src twoLevel)
      (there : value.children.lookup pre = some child) :
    (twoLevel.lookup pre).isSome := by
  have free : DotFree pre :=
    built.children_dotFree (fun _ name => name.dotFree) _ (mem_of_lookup there)
  by_cases goesOn : Extends src pre
  · obtain ⟨entries, present, _⟩ := two.grouped pre free goesOn
    rw [present]
    rfl
  have isFlat : child.isFlat := by
    by_contra nested
    exact goesOn ((lists.extends_iff built free).mpr ⟨child, there, by simpa using nested⟩)
  rw [two.plain pre free goesOn, lists.single free, there, bind_some, leafAt, if_pos isFlat]
  rfl

theorem qobjectIsEqual_qdict {x y : QDict σ} (nodup : Distinct x) (distinct' : Distinct y)
    (keys : ∀ key, (x.lookup key).isSome ↔ (y.lookup key).isSome)
    (values : ∀ key a b, x.lookup key = some a → y.lookup key = some b → qobjectIsEqual a b) :
    qobjectIsEqual (.qdict x) (.qdict y) := by
  rw [qobjectIsEqual, Bool.and_eq_true, decide_eq_true_eq, entriesEqual_iff]
  refine ⟨length_eq nodup distinct' keys, fun entry mem => ?_⟩
  have here := (lookup_eq_some nodup).mpr mem
  obtain ⟨other, there⟩ := isSome_iff_exists.mp ((keys entry.1).mp (by rw [here]; rfl))
  exact ⟨other, there, values _ _ _ here there⟩

theorem qobjectIsEqual_qlist {x y : List (QObject σ)} (length : x.length = y.length)
    (values : ∀ key a b, (indexed 0 x).lookup key = some a → (indexed 0 y).lookup key = some b →
      qobjectIsEqual a b) : qobjectIsEqual (.qlist x) (.qlist y) := by
  rw [qobjectIsEqual, qlistIsEqual_iff, forall₂_iff_get]
  refine ⟨length, fun i less less' => values (formatSize i) _ _ ?_ ?_⟩
  · have element := lookup_indexed 0 i x
    rwa [zero_add, List.getElem?_eq_getElem less] at element
  · have element := lookup_indexed 0 i y
    rwa [zero_add, List.getElem?_eq_getElem less'] at element

/-- Crumpling the leaves of an object, if that works for everything in it. -/
theorem rebuilds_of_children (built : Built NameKey value)
    (container : value.isFlat = false ∨ value = .qdict [])
    (each : ∀ entry ∈ value.children, entry.2.isFlat = false → Rebuilds entry.2) :
    Rebuilds value := by
  intro depth src lists short pos
  obtain ⟨depth, rfl⟩ : ∃ d, depth = d + 1 := ⟨depth - 1, by omega⟩
  have flatDict := lists.flatDict built
  obtain ⟨twoLevel, split⟩ := splitEntries_returns TwoLevel.start flatDict
    fun pre free => lists.apart built free
  obtain ⟨_, two⟩ := splitEntries_returned TwoLevel.start (by simp)
    lists.distinct flatDict.noPair split
  obtain ⟨multiLevel, crumpled⟩ :=
      @crumpleEntries_returns σ twoLevel (crumpleWithin depth) [] fun entry mem => by
    obtain ⟨_, result, _, ret, _⟩ := crumpleValue_rebuilds lists built two short each
      ((lookup_eq_some two.distinct).mpr mem)
    exact ⟨result, ret⟩
  have multi := crumpleEntries_returned MultiLevel.start two.distinct crumpled
  rw [nil_append] at multi
  -- The level has the keys of the object, with equal values.
  have keys : ∀ key, (multiLevel.lookup key).isSome ↔ (value.children.lookup key).isSome := by
    intro key
    cases found : twoLevel.lookup key with
    | none =>
      rw [multi.absent key found]
      refine ⟨fun no => absurd no (by simp), fun there => ?_⟩
      obtain ⟨child, there⟩ := isSome_iff_exists.mp there
      have present := twoLevel_present lists built two there
      rw [found] at present
      contradiction
    | some grouped =>
      obtain ⟨result, _, present⟩ := multi.present key grouped found
      obtain ⟨child, _, there, _⟩ := crumpleValue_rebuilds lists built two short each found
      simp [present, there]
  have values : ∀ key a b, multiLevel.lookup key = some a → value.children.lookup key = some b →
      qobjectIsEqual a b = true := by
    intro key a b here there
    cases found : twoLevel.lookup key with
    | none =>
      rw [multi.absent key found] at here
      contradiction
    | some grouped =>
      obtain ⟨result, ret, present⟩ := multi.present key grouped found
      obtain ⟨child, result', there', returned', equal⟩ :=
        crumpleValue_rebuilds lists built two short each found
      obtain rfl : result = a := some.inj (present.symm.trans here)
      obtain rfl : child = b := some.inj (there'.symm.trans there)
      obtain rfl : result = result' := Outcome.returns.inj (ret.symm.trans returned')
      exact equal
  have finish (result : QObject σ) (detected : detectList multiLevel = .returns result) :
      crumpleWithin (depth + 1) src = .returns result :=
    crumpleWithin_succ.mpr ⟨twoLevel, split, multiLevel, crumpled, detected⟩
  cases built with
  | scalar value => rcases container with nested | same <;> contradiction
  | @qdict entries nodup names _ =>
    refine ⟨.qdict multiLevel, finish _ (detectList_names fun entry mem => ?_),
      qobjectIsEqual_qdict multi.distinct nodup keys values⟩
    have there := (keys entry.1).mp (isSome_lookup.mpr (List.mem_map_of_mem mem))
    obtain ⟨other, inEntries, same⟩ := List.mem_map.mp (isSome_lookup.mp there)
    exact same ▸ (names other inEntries).2.2
  | @qlist elems small _ =>
    have nonempty : 0 < elems.length := by
      rcases container with nested | same
      · cases elems with
        | nil => contradiction
        | cons elem rest => exact succ_pos _
      · contradiction
    obtain ⟨results, detected, length⟩ := detectList_indices multi.distinct small nonempty
      (fun key => (keys key).trans isSome_lookup_indexed)
    refine ⟨.qlist results, finish _ detected,
      qobjectIsEqual_qlist length fun key a b here there => ?_⟩
    refine values key a b ?_ there
    rw [← (detectList_returned multi.distinct detected).1]
    exact here

/-- A value of named keys is rebuilt from its leaves. -/
theorem rebuilds (built : Built NameKey value)
    (container : value.isFlat = false ∨ value = .qdict []) : Rebuilds value := by
  induction built with
  | scalar value => rcases container with nested | same <;> contradiction
  | qdict nodup keys values ih =>
    exact rebuilds_of_children (.qdict nodup keys values) container fun entry mem nested =>
      ih entry mem (.inl nested)
  | qlist short values ih =>
    exact rebuilds_of_children (.qlist short values) container fun entry mem nested =>
      ih entry.2 (mem_of_mem_indexed mem).1 (.inl nested)

end Rebuilt

variable {src : QDict σ}

theorem length_le_longestKey : ∀ entry ∈ src, entry.1.length ≤ longestKey src := by
  induction src with
  | nil => simp
  | cons first rest ih =>
    intro entry mem
    rw [longestKey, map_cons, foldr_cons]
    rcases mem_cons.mp mem with rfl | mem
    · exact le_max_left _ _
    · exact le_trans (ih entry mem) (le_max_right _ _)

theorem Built.mono {okKey okKey' : CString → Prop} {value : QObject σ} (built : Built okKey value)
    (weaker : ∀ key, okKey key → okKey' key) : Built okKey' value := by
  induction built with
  | scalar value => exact .scalar value
  | qdict nodup keys _ ih => exact .qdict nodup (fun entry mem => weaker _ (keys entry mem)) ih
  | qlist short _ ih => exact .qlist short ih

variable [DecidableEq σ]

/-- Flattening and crumpling gives an equal dictionary. -/
theorem qdictCrumple_flattened {dict : QDict σ} (built : Built NameKey (.qdict dict)) :
    ∃ flat, qdictFlatten dict = some flat ∧ ∃ res, qdictCrumple flat = .returns (.qdict res) ∧
      qobjectIsEqual (.qdict res) (.qdict dict) := by
  obtain ⟨flat, flattened, nodup, leaves⟩ :=
    qdictFlatten_spec (built.mono fun _ name => name.dotFree)
  refine ⟨flat, flattened, ?_⟩
  have container : (QObject.qdict dict).isFlat = false ∨ QObject.qdict dict = .qdict [] := by
    cases dict with
    | nil => exact .inr rfl
    | cons entry rest => exact .inl rfl
  have lists : ListsLeaves (.qdict dict) flat := ⟨nodup, leaves⟩
  obtain ⟨res, ret, equal⟩ := rebuilds built container (longestKey flat + 1) flat lists
    (fun entry mem => lt_succ_of_le (length_le_longestKey entry mem)) (succ_pos _)
  -- Only a dictionary is equal to one.
  cases res with
  | qdict res => exact ⟨res, ret, equal⟩
  | scalar value => simp [qobjectIsEqual] at equal
  | qlist elems => simp [qobjectIsEqual] at equal

theorem qdictFlatten_crumpled {src dict : QDict σ} (nodup : Distinct src)
    (noPair : ∀ entry ∈ src, NoPair entry.1)
    (few : src.length ≤ 2 ^ 31) (ret : qdictCrumple src = .returns (.qdict dict)) :
    ∃ flat, qdictFlatten dict = some flat ∧
        (qdictIsEqual flat src = true ↔ ∀ key, ¬ Clash src key) := by
  have crumples := crumpleWithin_returned nodup noPair few ret
  obtain ⟨flat, flattened, flatDistinct, leaves⟩ := qdictFlatten_spec crumples.built
  exact ⟨flat, flattened, flatten_crumpled nodup flatDistinct crumples leaves⟩

/-- Flattening and crumpling undo each other, but for an empty dictionary whose key another one goes
on from after a dot. -/
theorem qdictFlatten_crumple_inverse : (∀ dict : QDict σ, Built NameKey (.qdict dict) →
      ∃ flat, qdictFlatten dict = some flat ∧
        ∃ result, qdictCrumple flat = .returns (.qdict result) ∧
        qobjectIsEqual (.qdict result) (.qdict dict) = true) ∧
    (∀ src dict : QDict σ, Distinct src → (∀ entry ∈ src, NoPair entry.1) → src.length ≤ 2 ^ 31 →
      qdictCrumple src = .returns (.qdict dict) →
      ∃ flat, qdictFlatten dict = some flat ∧
        (qdictIsEqual flat src = true ↔ ∀ key, ¬ Clash src key)) :=
  ⟨fun _ => qdictCrumple_flattened, fun _ _ => qdictFlatten_crumpled⟩

/-- A dictionary with a dictionary, a list and an empty dictionary in it. -/
def sampleNested : QDict Nat :=
  [(['a'], .qdict [(['x'], .scalar 1), (['y'], .qlist [.scalar 2, .qdict []])]), (['b'], .scalar 3)]

theorem built_sampleNested : Built NameKey (.qdict sampleNested) := by
  have inner : Built NameKey (.qlist [.scalar 2, .qdict []] : QObject Nat) :=
    .qlist (by decide) (by simpa using ⟨.scalar 2, .qdict nodup_nil (by simp) (by simp)⟩)
  have outer :
      Built NameKey (.qdict [(['x'], .scalar 1), (['y'], .qlist [.scalar 2, .qdict []])] : QObject
          Nat) := by
    refine .qdict (nodup_iff_pairwise_ne.mpr (by decide)) ?_ (by simpa using ⟨.scalar 1, inner⟩)
    simp only [forall_mem_cons, NameKey, DotFree, IsIndex]
    decide
  refine .qdict (nodup_iff_pairwise_ne.mpr (by decide))
    ?_ (by simpa [sampleNested] using ⟨outer, .scalar 3⟩)
  simp only [sampleNested, forall_mem_cons, NameKey, DotFree, IsIndex]
  decide

def sampleFlat : QDict Nat :=
  [(['a', '.', 'x'], .scalar 1), (['a', '.', 'y', '.', '1'], .qdict []),
    (['a', '.', 'y', '.', '0'], .scalar 2), (['b'], .scalar 3)]

/-- Both ways at dictionaries with something in them. -/
theorem qdictFlatten_crumple_inverse_sample :
    (∃ flat, qdictFlatten sampleNested = some flat ∧
      ∃ result, qdictCrumple flat = .returns (.qdict result) ∧
      qobjectIsEqual (.qdict result) (.qdict sampleNested) = true) ∧
    ∃ flat, qdictFlatten sampleNested = some flat ∧
      (qdictIsEqual flat sampleFlat = true ↔ ∀ key, ¬ Clash sampleFlat key) := by
  refine ⟨qdictFlatten_crumple_inverse.1 sampleNested ?_, qdictFlatten_crumple_inverse.2 sampleFlat
    sampleNested ?_ ?_ ?_ ?_⟩
  · exact built_sampleNested
  · exact nodup_iff_pairwise_ne.mpr (by decide)
  · show ∀ entry ∈ sampleFlat, ¬ ['.', '.'] <:+: entry.1
    decide
  · decide
  · rfl

/-- An empty dictionary that is in the way of another key is lost. -/
theorem qdictFlatten_crumple_loses :
    qdictCrumple [(['d'], .qdict []), (['d', '.', 'b'], .scalar (1 : Nat))] =
      .returns (.qdict [(['d'], .qdict [(['b'], .scalar 1)])]) ∧
    qdictFlatten [(['d'], .qdict [(['b'], .scalar 1)])] = some [(['d', '.', 'b'], .scalar 1)] ∧
    qdictIsEqual [(['d', '.', 'b'], .scalar 1)] [(['d'], .qdict []), (['d', '.', 'b'], .scalar 1)] =
        false := by
  refine ⟨rfl, rfl, ?_⟩
  decide +kernel

end Qemu.Qmp
