import Qemu.Lib.SepPath
import Qemu.QObject.BlockQDict

/-! Flattening puts each value under its path. -/

namespace Qemu.Qmp

open Qemu.Util Assoc SepPath Option

variable {σ : Type} {key : CString} {okKey : CString → Prop} {value : QObject σ}
    {target : QDict σ} {pre : CString}

def pathOf (key : CString) : List CString := key.splitOn '.'

def indexed : Nat → List (QObject σ) → QDict σ
  | _, [] => []
  | i, elem :: rest => (formatSize i, elem) :: indexed (i + 1) rest

def QObject.children : QObject σ → QDict σ
  | .scalar _ => []
  | .qdict entries => entries
  | .qlist elems => indexed 0 elems

def leafAt : QObject σ → List CString → Option (QObject σ)
  | value, [] => if value.isFlat then some value else none
  | value, segment :: rest => (value.children.lookup segment).bind (leafAt · rest)

def leafUnder (entries : QDict σ) : List CString → Option (QObject σ)
  | [] => none
  | segment :: rest => (entries.lookup segment).bind (leafAt · rest)

/-- A well-formed object: distinct keys that are all right at every level, and lists that `int` can
index. -/
inductive Built (okKey : CString → Prop) : QObject σ → Prop where
  | scalar (value : σ) : Built okKey (.scalar value)
  | qdict {entries : QDict σ} (distinct : Distinct entries)
      (keys : ∀ entry ∈ entries, okKey entry.1)
      (values : ∀ entry ∈ entries, Built okKey entry.2) : Built okKey (.qdict entries)
  | qlist {elems : List (QObject σ)} (short : elems.length ≤ 2 ^ 31)
      (values : ∀ elem ∈ elems, Built okKey elem) : Built okKey (.qlist elems)

/-- A key without separators. -/
def DotFree (key : CString) : Prop := '.' ∉ key

theorem pathOf_of_dotFree (free : DotFree key) : pathOf key = [key] := splitOn_of_notMem free

theorem pathOf_ne_nil (key) : pathOf key ≠ [] := List.splitOn_ne_nil _ _

theorem pathOf_first {pre} (free : DotFree pre) (suffix) :
    pathOf (pre ++ '.' :: suffix) = pre :: pathOf suffix := splitOn_first free suffix

theorem pathOf_snoc {pre} (free : DotFree key) :
    pathOf (pre ++ '.' :: key) = pathOf pre ++ [key] := by
  rw [pathOf, splitOn_append, splitOn_of_notMem free]
  rfl

theorem pathOf_injective {other} (same : pathOf key = pathOf other) : key = other :=
  splitOn_injective same

theorem formatSize_dotFree (i) : DotFree (formatSize i) := by
  intro mem
  exact absurd rfl (isDigit_plain (isDigit_of_mem_formatSize mem)).2.2.2

theorem children_of_isFlat (flat : value.isFlat) : value.children = [] := by
  match value, flat with
  | .scalar _, _ | .qdict [], _ | .qlist [], _ => rfl

theorem leafAt_of_isFlat (flat : value.isFlat) (path) : leafAt value path = if path = []
    then some value else none := by
  cases path with
  | nil => rw [leafAt, if_pos flat, if_pos rfl]
  | cons segment rest =>
    rw [leafAt, children_of_isFlat flat, if_neg (List.cons_ne_nil _ _)]
    rfl

theorem leafAt_of_not_isFlat (nested : value.isFlat = false) (path) :
    leafAt value path = leafUnder value.children path := by
  cases path with
  | nil => simp [leafAt, nested, leafUnder]
  | cons segment rest => rw [leafAt, leafUnder]

theorem isFlat_of_leafAt {leaf path} (found : leafAt value path = some leaf) : leaf.isFlat := by
  induction path generalizing value with
  | nil =>
    rw [leafAt] at found
    split at found
    case isTrue flat => exact Option.some.inj found ▸ flat
    case isFalse => contradiction
  | cons segment rest ih =>
    rw [leafAt, bind_eq_some_iff] at found
    obtain ⟨child, _, found⟩ := found
    exact ih found

theorem mem_of_mem_indexed {i : Nat} {elems : List (QObject σ)} {entry : CString × QObject σ}
    (mem : entry ∈ indexed i elems) : entry.2 ∈ elems ∧ ∃ j ≥ i, entry.1 = formatSize j := by
  induction elems generalizing i with
  | nil => contradiction
  | cons elem rest ih =>
    rw [indexed, List.mem_cons] at mem
    rcases mem with rfl | mem
    · exact ⟨List.mem_cons_self, i, le_rfl, rfl⟩
    · obtain ⟨inRest, j, later, isIndex⟩ := ih mem
      exact ⟨List.mem_cons_of_mem _ inRest, j, by omega, isIndex⟩

theorem distinct_indexed (i) (elems : List (QObject σ)) : Distinct (indexed i elems) := by
  induction elems generalizing i with
  | nil => exact List.nodup_nil
  | cons elem rest ih =>
    refine List.nodup_cons.mpr ⟨fun again => ?_, ih (i + 1)⟩
    obtain ⟨entry, mem, same⟩ := List.mem_map.mp again
    obtain ⟨_, j, later, isIndex⟩ := mem_of_mem_indexed mem
    have := formatSize_injective (isIndex.symm.trans same)
    omega

theorem Built.children_distinct (built : Built okKey value) : Distinct value.children := by
  cases built with
  | scalar value => exact List.nodup_nil
  | qdict nodup _ _ => exact nodup
  | qlist _ _ => exact distinct_indexed 0 _

theorem Built.children_dotFree (built : Built okKey value) (free : ∀ key, okKey key → DotFree key) :
    ∀ entry ∈ value.children, DotFree entry.1 := by
  intro entry mem
  cases built with
  | scalar value => contradiction
  | qdict _ keys _ => exact free _ (keys entry mem)
  | qlist _ _ =>
    obtain ⟨_, j, _, isIndex⟩ := mem_of_mem_indexed mem
    exact isIndex ▸ formatSize_dotFree j

theorem Built.child (built : Built okKey value) :
    ∀ entry ∈ value.children, Built okKey entry.2 := by
  intro entry mem
  cases built with
  | scalar value => contradiction
  | qdict _ _ values => exact values entry mem
  | qlist _ values => exact values entry.2 (mem_of_mem_indexed mem).1

theorem qdictFlattenQlist_eq {i elems} (short : i + elems.length ≤ 2 ^ 31) :
    qdictFlattenQlist pre i target elems = qdictFlattenQdict pre target (indexed i elems) := by
  induction elems generalizing i target with
  | nil => rw [qdictFlattenQlist, indexed, qdictFlattenQdict]
  | cons elem rest ih =>
    rw [List.length_cons] at short
    rw [qdictFlattenQlist, indexed, qdictFlattenQdict, ih (by omega), formatInt_counter (by omega)]

/-- A container is flattened through its children. -/
theorem flattenValue_nested (built : Built okKey value)
    (nested : value.isFlat = false) : flattenValue key target value =
    qdictFlattenQdict key target value.children := by
  cases built with
  | scalar value => contradiction
  | @qdict entries _ _ _ =>
    cases entries with
    | nil => contradiction
    | cons entry rest => rw [flattenValue, QObject.children]
  | @qlist elems short _ =>
    cases elems with
    | nil => contradiction
    | cons elem rest => rw [flattenValue, QObject.children, qdictFlattenQlist_eq (by omega)]

theorem flattenValue_flat (flat : value.isFlat) : flattenValue key target value =
    qdictPutObj target key value := by
  unfold flattenValue
  split
  · contradiction
  · contradiction
  · rfl

/-- A key that is a path from another key on. -/
def below (pre key : CString) : Option (List CString) := (pathOf pre).isPrefixOf? (pathOf key)

theorem below_eq_nil : below pre key = some [] ↔ key = pre := by
  rw [below, List.isPrefixOf?_eq_some_iff_append_eq, List.append_nil]
  exact ⟨fun same => (pathOf_injective same).symm, fun same => same ▸ rfl⟩

theorem below_snoc {segment} (free : DotFree segment) :
    below (pre ++ '.' :: segment) key = (below pre key).bind (descend segment) := by
  rw [below, pathOf_snoc free, isPrefixOf?_snoc, below]

/-- Flattening a value leaves its leaves, and what was there. -/
def Leaves (key : CString) (value : QObject σ) : Prop :=
  ∀ target : QDict σ, Distinct target → Distinct (flattenValue key target value) ∧
    ∀ other, qdictGet (flattenValue key target value) other =
      ((below key other).bind (leafAt value)).or (qdictGet target other)

/-- Flattening entries leaves the leaves of each. -/
theorem qdictFlattenQdict_spec {entries : QDict σ} (nodup : Distinct entries)
    (free : ∀ entry ∈ entries, DotFree entry.1)
    (each : ∀ entry ∈ entries, Leaves (pre ++ '.' :: entry.1) entry.2)
    (target_distinct : Distinct target) :
    Distinct (qdictFlattenQdict pre target entries) ∧
      ∀ other, qdictGet (qdictFlattenQdict pre target entries) other =
        ((below pre other).bind (leafUnder entries)).or (qdictGet target other) := by
  induction entries generalizing target with
  | nil =>
    refine ⟨by rw [qdictFlattenQdict]; exact target_distinct, fun other => ?_⟩
    have none_ (path : List CString) : leafUnder ([] : QDict σ) path = none := by
      cases path <;> rfl
    rw [qdictFlattenQdict]
    cases below pre other with
    | none => rfl
    | some path => rw [bind_some, none_, none_or]
  | cons entry rest ih =>
    obtain ⟨fresh, nodup⟩ := List.nodup_cons.mp nodup
    obtain ⟨first_distinct, first⟩ := each entry List.mem_cons_self target target_distinct
    obtain ⟨rest_distinct, others⟩ :=
      ih nodup (fun other mem => free other (List.mem_cons_of_mem _ mem))
      (fun other mem => each other (List.mem_cons_of_mem _ mem)) first_distinct
    refine ⟨by rw [qdictFlattenQdict]; exact rest_distinct, fun other => ?_⟩
    rw [qdictFlattenQdict, others, first, below_snoc (free entry List.mem_cons_self)]
    -- The first segment of the path decides which entry the key belongs to.
    cases below pre other with
    | none => rfl
    | some path =>
      cases path with
      | nil => rfl
      | cons segment path =>
        simp only [bind_some, leafUnder, lookup_cons, descend]
        by_cases here : segment = entry.1
        · have absent : rest.lookup segment = none := lookup_eq_none.mpr (here ▸ fresh)
          rw [absent, if_pos here, if_pos here]
          rfl
        · rw [if_neg here, if_neg here]
          rfl

theorem leaves_of_isFlat (flat : value.isFlat) (key) : Leaves key value := by
  intro target nodup
  rw [flattenValue_flat flat]
  refine ⟨distinct_put nodup key value, fun other => ?_⟩
  rw [qdictGet_put nodup]
  by_cases same : other = key
  · rw [if_pos same, below_eq_nil.mpr same, bind_some, leafAt_of_isFlat flat, if_pos rfl, some_or]
  rw [if_neg same]
  cases path_eq : below key other with
  | none => rfl
  | some path =>
    have nonempty : path ≠ [] := fun empty => same (below_eq_nil.mp (empty ▸ path_eq))
    rw [bind_some, leafAt_of_isFlat flat, if_neg nonempty, none_or]

/-- If every child lists its leaves, so does the container. -/
theorem leaves_of_children (built : Built okKey value) (free : ∀ key, okKey key → DotFree key)
    (key) (each : ∀ entry ∈ value.children, ∀ key, Leaves key entry.2) : Leaves key value := by
  cases nested : value.isFlat with
  | true => exact leaves_of_isFlat nested key
  | false =>
    intro target nodup
    obtain ⟨distinct', found⟩ := qdictFlattenQdict_spec built.children_distinct
      (built.children_dotFree free) (fun entry mem => each entry mem (key ++ '.' :: entry.1)) nodup
    rw [flattenValue_nested built nested]
    refine ⟨distinct', fun other => ?_⟩
    rw [found]
    congr 2
    exact funext fun path => (leafAt_of_not_isFlat nested path).symm

theorem flattenValue_spec (built : Built okKey value) (free : ∀ key, okKey key → DotFree key)
    (key) : Leaves key value := by
  induction built generalizing key with
  | scalar value => exact leaves_of_isFlat rfl key
  | qdict nodup keys values ih => exact leaves_of_children (.qdict nodup keys values) free key ih
  | qlist short values ih =>
    exact leaves_of_children (.qlist short values) free key fun entry mem =>
      ih entry.2 (mem_of_mem_indexed mem).1

end Qemu.Qmp
