import Qemu.QObject.CrumpleSteps

/-! The last step of crumpling, which tells lists from dictionaries. -/

namespace Qemu.Qmp

open Qemu.Util Assoc SepPath Option

variable {σ : Type} {multiLevel : QDict σ} {elems : List (QObject σ)}

/-- A key that `qemu_strtoi64` takes for a number. -/
def IsIndex (key : CString) : Prop := (qemuStrtoi64 key).isSome = true

theorem listKeys_names {entries : QDict σ} {len max : Int} {isList : Option Bool}
    (names : ∀ entry ∈ entries, ¬ IsIndex entry.1) (known : isList.getD false = false) :
    ∃ isList', listKeys entries len max isList = .returns (len, max, isList') ∧
        isList'.getD false = false := by
  induction entries generalizing isList with
  | nil => exact ⟨isList, rfl, known⟩
  | cons entry rest ih =>
    obtain ⟨key, value⟩ := entry
    have notIndex : qemuStrtoi64 key = none := by
      simpa [IsIndex] using names _ List.mem_cons_self
    obtain ⟨isList', ret, known'⟩ :=
      @ih (some false) (fun entry mem => names entry (List.mem_cons_of_mem _ mem)) rfl
    refine ⟨isList', ?_, known'⟩
    rw [listKeys, notIndex]
    simp only [isSome_none, known, ne_eq, not_true_eq_false, if_false]
    exact ret

/-- Index keys are all counted, and the largest is found. -/
theorem listKeys_indices {entries : QDict σ} {len max : Int}
    {isList : Option Bool} {index : CString → Int}
    (indices : ∀ entry ∈ entries, qemuStrtoi64 entry.1 = some (index entry.1))
    (known : isList.getD true) :
    ∃ max' isList', listKeys entries len max isList =
      .returns (len + entries.length, max', isList') ∧
      (entries ≠ [] → isList' = some true) ∧ max ≤ max' ∧
        (∀ entry ∈ entries, index entry.1 ≤ max') ∧
      ∀ bound, max ≤ bound → (∀ entry ∈ entries, index entry.1 ≤ bound) → max' ≤ bound := by
  induction entries generalizing len max isList with
  | nil =>
    exact ⟨max, isList, by simp [listKeys], fun no => absurd rfl no, Int.le_refl _, by simp,
      fun bound below _ => below⟩
  | cons entry rest ih =>
    obtain ⟨key, value⟩ := entry
    have here : qemuStrtoi64 key = some (index key) := indices _ List.mem_cons_self
    set larger := if index key > max then index key else max with larger_eq
    have atLeast : max ≤ larger ∧ index key ≤ larger := by
      rw [larger_eq]
      split <;> omega
    obtain ⟨max', isList', ret, isTrue, order, all, least⟩ := @ih (len + 1) larger (some true)
      (fun entry mem => indices entry (List.mem_cons_of_mem _ mem)) rfl
    refine ⟨max', isList', ?_, fun _ =>
      ?_, by omega, fun entry mem => ?_, fun bound below others => ?_⟩
    · rw [listKeys, here]
      simp only [isSome_some, known, ne_eq, not_true_eq_false, if_false]
      rw [← larger_eq, ret, List.length_cons]
      congr 2
      omega
    · -- The first key settles it.
      cases rest with
      | nil => exact (Prod.mk.inj (Prod.mk.inj (Outcome.returns.inj ret)).2).2.symm
      | cons other rest => exact isTrue (List.cons_ne_nil _ _)
    · rcases List.mem_cons.mp mem with rfl | mem
      · exact Int.le_trans atLeast.2 order
      · exact all entry mem
    · refine least bound ?_ fun entry mem => others entry (List.mem_cons_of_mem _ mem)
      have first := others (key, value) List.mem_cons_self
      rw [larger_eq]
      split
      · exact first
      · exact below

theorem lookup_indexed (first i) (elems : List (QObject σ)) :
    (indexed first elems).lookup (formatSize (first + i)) = elems[i]? := by
  induction elems generalizing first i with
  | nil => rfl
  | cons elem rest ih =>
    rw [indexed, lookup_cons]
    cases i with
    | zero => rw [Nat.add_zero, if_pos rfl, List.getElem?_cons_zero]
    | succ i =>
      rw [if_neg fun same => by have := formatSize_injective same; omega,
        List.getElem?_cons_succ, ← ih (first + 1) i]
      congr 2
      omega

theorem isSome_lookup_indexed {key} :
    ((indexed 0 elems).lookup key).isSome ↔ ∃ i < elems.length, key = formatSize i := by
  constructor
  · intro present
    obtain ⟨value, found⟩ := isSome_iff_exists.mp present
    obtain ⟨_, i, _, isIndex⟩ := mem_of_mem_indexed (mem_of_lookup found)
    change key = formatSize i at isIndex
    rw [isIndex] at found
    have element := lookup_indexed 0 i elems
    rw [Nat.zero_add, found] at element
    exact ⟨i, (List.getElem?_eq_some_iff.mp element.symm).1, isIndex⟩
  · rintro ⟨i, less, rfl⟩
    have element := lookup_indexed 0 i elems
    rw [Nat.zero_add] at element
    rw [element, List.getElem?_eq_getElem less]
    rfl

/-- The list holds the entries of the indices in order. -/
theorem listElems_returned {i left} (ret : listElems multiLevel i left = .returns elems) :
    elems.length = left ∧ ∀ entry ∈ indexed i elems, multiLevel.lookup entry.1 = some entry.2 := by
  induction left generalizing i elems with
  | zero =>
    cases ret
    exact ⟨rfl, by simp [indexed]⟩
  | succ left ih =>
    rw [listElems] at ret
    split at ret
    case h_2 => contradiction
    case h_1 child found =>
      rw [Outcome.bind_eq_returns] at ret
      obtain ⟨rest, ret, same⟩ := ret
      cases same
      obtain ⟨length, others⟩ := ih ret
      refine ⟨by rw [List.length_cons, length], fun entry mem => ?_⟩
      rw [indexed] at mem
      rcases List.mem_cons.mp mem with rfl | mem
      · exact found
      · exact others entry mem

/-- The list is built when no index is missing. -/
theorem listElems_returns {i left}
    (present : ∀ j, i ≤ j → j < i + left → (multiLevel.lookup (formatSize j)).isSome) :
    ∃ elems, listElems multiLevel i left = .returns elems := by
  induction left generalizing i with
  | zero => exact ⟨[], rfl⟩
  | succ left ih =>
    obtain ⟨child, found⟩ := isSome_iff_exists.mp (present i le_rfl (by omega))
    obtain ⟨rest, ret⟩ := @ih (i + 1) fun j lower upper => present j (by omega) (by omega)
    refine ⟨child :: rest, ?_⟩
    rw [listElems, qdictGet, found]
    rw [ret]
    rfl

theorem indexed_lookup (distinct : Distinct multiLevel)
    (ret : listElems multiLevel 0 (qdictSize multiLevel) = .returns elems) (key) :
    (indexed 0 elems).lookup key = multiLevel.lookup key := by
  obtain ⟨length, found⟩ := listElems_returned ret
  have indexed_length : ∀ i, (indexed i elems).length = elems.length := by
    intro i
    clear ret length found
    induction elems generalizing i with
    | nil => rfl
    | cons elem rest ih => rw [indexed, List.length_cons, ih, List.length_cons]
  have subset : indexed 0 elems ⊆ multiLevel := fun entry mem => mem_of_lookup (found entry mem)
  have nodup : (indexed 0 elems).Nodup := (distinct_indexed 0 elems).of_map
  -- As many distinct entries, all of them there: a permutation.
  have perm : (indexed 0 elems).Perm multiLevel :=
    (List.subperm_of_subset nodup subset).perm_of_length_le
    (by rw [indexed_length, length, qdictSize])
  exact lookup_perm distinct perm

/-- Turning a dictionary into a list keeps every entry. -/
theorem detectList_returned {res : QObject σ} (nodup : Distinct multiLevel)
    (ret : detectList multiLevel = .returns res) :
    (∀ key, res.children.lookup key = multiLevel.lookup key) ∧
      (res = .qdict multiLevel ∨
        ∃ elems, res = .qlist elems ∧ elems.length = multiLevel.length ∧ multiLevel ≠ []) := by
  rw [detectList, Outcome.bind_eq_returns] at ret
  obtain ⟨isList, detected, ret⟩ := ret
  cases isList with
  | false =>
    cases ret
    exact ⟨fun _ => rfl, .inl rfl⟩
  | true =>
    simp only [if_true] at ret
    rw [Outcome.bind_eq_returns] at ret
    obtain ⟨elems, ret, same⟩ := ret
    cases same
    refine ⟨fun key => indexed_lookup nodup ret key,
      .inr ⟨elems, rfl, (listElems_returned ret).1, ?_⟩⟩
    -- No keys at all are no list.
    rintro rfl
    have nothing : qdictIsList ([] : QDict σ) = .returns false := rfl
    rw [nothing] at detected
    exact Bool.false_ne_true (Outcome.returns.inj detected)

/-- A dictionary without index keys stays one. -/
theorem detectList_names (names : ∀ entry ∈ multiLevel, ¬ IsIndex entry.1) :
    detectList multiLevel = .returns (.qdict multiLevel) := by
  obtain ⟨isList, ret, known⟩ := @listKeys_names σ multiLevel 0 (-1) none names rfl
  have detected : qdictIsList multiLevel = .returns false := by
    rw [qdictIsList, Outcome.bind_eq_returns]
    refine ⟨_, ret, ?_⟩
    simp only [Int.reduceNeg, Int.reduceAdd, ne_eq, not_true_eq_false, if_false]
    exact congrArg Outcome.returns known
  rw [detectList, Outcome.bind_eq_returns]
  exact ⟨false, detected, rfl⟩

/-- The indices up to a number give a list. -/
theorem detectList_indices {n : Nat} (nodup : Distinct multiLevel)
    (small : n ≤ 2 ^ 31) (pos : 0 < n)
    (keys : ∀ key, (multiLevel.lookup key).isSome ↔ ∃ i < n, key = formatSize i) :
    ∃ elems, detectList multiLevel = .returns (.qlist elems) ∧ elems.length = n := by
  have key_of : ∀ entry ∈ multiLevel, ∃ i < n, entry.1 = formatSize i := fun entry mem =>
    (keys entry.1).mp (isSome_lookup.mpr (List.mem_map_of_mem mem))
  have read : ∀ i < n, qemuStrtoi64 (formatSize i) = some (i : Int) := fun i less =>
    qemuStrtoi64_formatSize (by omega)
  -- There are as many entries as indices.
  have length : multiLevel.length = n := by
    have perm : (multiLevel.map Prod.fst).Perm ((List.range n).map formatSize) := by
      rw [List.perm_ext_iff_of_nodup nodup
        (List.nodup_range.map fun i j same => formatSize_injective same)]
      intro key
      rw [← isSome_lookup, keys, List.mem_map]
      simp only [List.mem_range, eq_comm]
    simpa using perm.length_eq
  obtain ⟨max', isList, ret, isTrue, _, all, least⟩ := @listKeys_indices σ multiLevel 0 (-1) none
    (fun key => (qemuStrtoi64 key).getD 0)
    (fun entry mem => by
      obtain ⟨i, less, same⟩ := key_of entry mem
      rw [same, read i less]
      rfl) rfl
  have nonempty : multiLevel ≠ [] := by
    rintro rfl
    rw [List.length_nil] at length
    omega
  have largest : max' = (n : Int) - 1 := by
    refine Int.le_antisymm (least _ (by omega) fun entry mem => ?_) ?_
    · obtain ⟨i, less, same⟩ := key_of entry mem
      rw [same, read i less, getD_some]
      omega
    · obtain ⟨value, found⟩ := isSome_iff_exists.mp
        ((keys (formatSize (n - 1))).mpr ⟨n - 1, by omega, rfl⟩)
      have := all _ (mem_of_lookup found)
      rw [read (n - 1) (by omega), getD_some] at this
      omega
  have detected : qdictIsList multiLevel = .returns true := by
    rw [qdictIsList, Outcome.bind_eq_returns]
    refine ⟨_, ret, ?_⟩
    rw [isTrue nonempty]
    exact if_neg (by rw [largest, length]; omega)
  obtain ⟨elems, found⟩ :=
      @listElems_returns σ multiLevel 0 (qdictSize multiLevel) (fun j _ upper => by
    rw [qdictSize, length] at upper
    exact (keys _).mpr ⟨j, by omega, rfl⟩)
  refine ⟨elems, ?_, by rw [(listElems_returned found).1, qdictSize, length]⟩
  rw [detectList, Outcome.bind_eq_returns]
  refine ⟨true, detected, ?_⟩
  simp only [if_true]
  rw [Outcome.bind_eq_returns]
  exact ⟨elems, found, rfl⟩

end Qemu.Qmp
