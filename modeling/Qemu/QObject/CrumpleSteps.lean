import Qemu.QObject.Flatten

/-! The steps of crumpling: splitting, grouping, telling lists apart. -/

namespace Qemu.Qmp

open Qemu.Util Assoc SepPath List Outcome

variable {σ : Type} {done twoLevel twoLevel' : QDict σ} {key : CString}
    {value : QObject σ} {rest : QDict σ}

/-- A key without a pair of dots. -/
def NoPair (key : CString) : Prop := ¬ ['.', '.'] <:+: key

theorem NoPair.suffix {pre key} (noPair : NoPair (pre ++ key)) : NoPair key :=
  fun pair => noPair (pair.trans (suffix_append pre key).isInfix)

/-- A key is split at its first dot. -/
theorem splitSeparator_spec {key} (noPair : NoPair key) : DotFree key ∧
    splitSeparator key = (key, none) ∨ ∃ pre suffix, key = pre ++ '.' :: suffix ∧ DotFree pre ∧
          splitSeparator key = (pre, some suffix) := by
  induction key with
  | nil => exact .inl ⟨not_mem_nil, rfl⟩
  | cons c rest ih =>
    by_cases dot : c = '.'
    · -- The next character is no dot.
      subst dot
      refine .inr ⟨[], rest, rfl, not_mem_nil, ?_⟩
      unfold splitSeparator
      split
      · contradiction
      · rename_i again
        obtain ⟨_, rfl⟩ := cons.inj again
        exact absurd (prefix_append ['.', '.'] _).isInfix noPair
      · rename_i same
        rw [(cons.inj same).2]
      · rename_i notDot same
        exact absurd (cons.inj same).1.symm notDot
    rw [splitSeparator.eq_4 c rest (fun _ isDot => absurd isDot dot) dot]
    rcases ih (@NoPair.suffix [c] rest noPair) with ⟨free, split⟩ | ⟨pre, suffix, rfl, free, split⟩
    · left
      rw [split]
      exact ⟨fun mem => (mem_cons.mp mem).elim (fun same => dot same.symm) free, rfl⟩
    · right
      rw [split]
      exact ⟨c :: pre, suffix, rfl, fun mem =>
        (mem_cons.mp mem).elim (fun same => dot same.symm) free, rfl⟩

theorem unescape_of_dotFree {key} (free : DotFree key) : unescape key = some key := by
  induction key with
  | nil => rfl
  | cons c rest ih =>
    have notDot : c ≠ '.' := fun same => free (same ▸ mem_cons_self)
    rw [unescape.eq_4 c rest (fun _ isDot => absurd isDot notDot) notDot, ih fun mem =>
      free (mem_cons_of_mem _ mem)]
    rfl

theorem qdictSplitFlatKey_spec {key} (noPair : NoPair key) : DotFree key ∧
    qdictSplitFlatKey key = some (key, none) ∨
      ∃ pre suffix, key = pre ++ '.' :: suffix ∧ DotFree pre ∧
          qdictSplitFlatKey key = some (pre, some suffix) := by
  rcases splitSeparator_spec noPair with ⟨free, split⟩ | ⟨pre, suffix, same, free, split⟩
  · left
    rw [qdictSplitFlatKey, split, unescape_of_dotFree free]
    exact ⟨free, rfl⟩
  · right
    rw [qdictSplitFlatKey, split, unescape_of_dotFree free]
    exact ⟨pre, suffix, same, free, rfl⟩

theorem first_dot_unique {pre pre' suffix suffix'} (free : DotFree pre) (free' : DotFree pre')
    (same : pre ++ '.' :: suffix = pre' ++ '.' :: suffix') : pre = pre' ∧ suffix = suffix' := by
  have paths := congrArg pathOf same
  rw [pathOf_first free, pathOf_first free'] at paths
  obtain ⟨samePre, sameSuffix⟩ := cons.inj paths
  exact ⟨samePre, pathOf_injective sameSuffix⟩

/-- Some key goes on after another one and a dot. -/
def Extends (src : QDict σ) (pre : CString) : Prop :=
  ∃ suffix, pre ++ '.' :: suffix ∈ src.map Prod.fst

/-- Entries to crumple: flat values, distinct keys, no pairs of dots. -/
structure FlatDict (src : QDict σ) : Prop where
  distinct : Distinct src
  flat : ∀ entry ∈ src, entry.2.isFlat = true
  noPair : ∀ entry ∈ src, NoPair entry.1

/-- What the first step makes of entries: those that go on after a dot are grouped by what is before
it. -/
structure TwoLevel (src twoLevel : QDict σ) : Prop where
  distinct : Distinct twoLevel
  few : twoLevel.length ≤ src.length
  free : ∀ entry ∈ twoLevel, DotFree entry.1
  grouped : ∀ pre, DotFree pre → Extends src pre →
    ∃ child, twoLevel.lookup pre = some (.qdict child) ∧ child ≠ [] ∧
    Distinct child ∧ ∀ suffix, child.lookup suffix = src.lookup (pre ++ '.' :: suffix)
  plain : ∀ pre, DotFree pre → ¬ Extends src pre → twoLevel.lookup pre = src.lookup pre
  mixed : ∀ pre value, DotFree pre → Extends src pre →
    src.lookup pre = some value → value = .qdict []

theorem eq_nil_of_isFlat {entries : QDict σ} (flat : (QObject.qdict entries).isFlat) :
    entries = [] := by
  cases entries with
  | nil => rfl
  | cons entry rest => contradiction

theorem lookup_snoc (fresh : key ∉ done.map Prod.fst) (other) :
    (done ++ [(key, value)]).lookup other = if other = key
    then some value else done.lookup other := by
  rw [lookup_append]
  by_cases same : other = key
  · rw [same, lookup_eq_none.mpr fresh, if_pos rfl, Option.none_or, Assoc.lookup_cons, if_pos rfl]
  · rw [if_neg same, Assoc.lookup_cons, if_neg same, lookup_nil, Option.or_none]

theorem extends_snoc {pre} :
    Extends (done ++ [(key, value)]) pre ↔ Extends done pre ∨
        ∃ suffix, key = pre ++ '.' :: suffix := by
  simp only [Extends, map_append, map_cons, map_nil, mem_append, mem_singleton, exists_or]
  exact or_congr_right (exists_congr fun _ => eq_comm)

theorem TwoLevel.start : TwoLevel ([] : QDict σ) [] := by
  have nothing : ∀ pre, ¬ Extends ([] : QDict σ) pre := fun pre ⟨_, mem⟩ => not_mem_nil mem
  exact ⟨nodup_nil, le_rfl, fun _ mem => absurd mem not_mem_nil,
    fun pre _ goesOn => absurd goesOn (nothing pre), fun _ _ _ => rfl, fun pre _ _ goesOn =>
      absurd goesOn (nothing pre)⟩

theorem length_put_le (qdict : QDict σ) (key) (value : QObject σ) :
    (qdictPutObj qdict key value).length ≤ qdict.length + 1 := by
  rw [qdictPutObj]
  split
  · rw [Assoc.replace, length_map]
    exact Nat.le_succ _
  · rw [(insertBefore_perm _ _ _).length_eq, length_cons]

theorem free_put (nodup : Distinct twoLevel) (free : ∀ entry ∈ twoLevel, DotFree entry.1)
    (keyFree : DotFree key) : ∀ entry ∈ qdictPutObj twoLevel key value, DotFree entry.1 := by
  intro entry mem
  have found := lookup_put nodup key entry.1 value
  rw [(lookup_eq_some (distinct_put nodup key value)).mpr mem] at found
  split at found
  case isTrue same => exact same ▸ keyFree
  case isFalse => exact free _ (mem_of_lookup found.symm)

/-- An entry without a dot stands for itself. -/
theorem TwoLevel.single (two : TwoLevel done twoLevel)
    (fresh : key ∉ done.map Prod.fst) (keyFree : DotFree key)
    (absent : twoLevel.lookup key = none) :
    TwoLevel (done ++ [(key, value)]) (qdictPutObj twoLevel key value) := by
  have notOn : ¬ Extends done key := by
    intro goesOn
    obtain ⟨child, present, _⟩ := two.grouped key keyFree goesOn
    rw [absent] at present
    contradiction
  -- A key without a dot does not go on after anything.
  have same : ∀ pre, Extends (done ++ [(key, value)]) pre ↔ Extends done pre := by
    intro pre
    rw [extends_snoc, or_iff_left]
    rintro ⟨suffix, rfl⟩
    exact keyFree (mem_append_right _ mem_cons_self)
  refine ⟨distinct_put two.distinct key value, ?_,
    free_put two.distinct two.free keyFree, ?_, ?_, ?_⟩
  · rw [length_append]
    exact le_trans (length_put_le _ _ _) (Nat.succ_le_succ two.few)
  · intro pre preFree goesOn
    rw [same] at goesOn
    obtain ⟨child, present, nonempty, nodup, lookup⟩ := two.grouped pre preFree goesOn
    have other : pre ≠ key := fun equal => notOn (equal ▸ goesOn)
    refine ⟨child, by rw [lookup_put two.distinct, if_neg other, present],
      nonempty, nodup, fun suffix => ?_⟩
    rw [lookup, lookup_snoc fresh, if_neg]
    rintro rfl
    exact keyFree (mem_append_right _ mem_cons_self)
  · intro pre preFree notExtended
    rw [same] at notExtended
    rw [lookup_put two.distinct, lookup_snoc fresh, two.plain pre preFree notExtended]
  · intro pre old preFree goesOn found
    rw [same] at goesOn
    rw [lookup_snoc fresh, if_neg fun (equal : pre = key) => notOn (equal ▸ goesOn)] at found
    exact two.mixed pre old preFree goesOn found

/-- An entry with a dot joins its group, which an empty dictionary may have started. -/
theorem TwoLevel.group {pre suffix : CString} {child : QDict σ} (two : TwoLevel done twoLevel)
    (flat : ∀ entry ∈ done, entry.2.isFlat) (fresh : pre ++ '.' :: suffix ∉ done.map Prod.fst)
    (preFree : DotFree pre)
    (present : twoLevel.lookup pre = some (.qdict child) ∨
      twoLevel.lookup pre = none ∧ child = []) :
    TwoLevel (done ++ [(pre ++ '.' :: suffix, value)])
      (qdictPutObj twoLevel pre (.qdict (qdictPutObj child suffix value))) := by
  have get :=
    fun other => lookup_put two.distinct pre other (.qdict (qdictPutObj child suffix value))
  -- The child has what went on after the prefix so far, and nothing else was there under the
  -- prefix.
  have before : Distinct child ∧ (∀ other, child.lookup other = done.lookup (pre ++ '.' :: other)) ∧
      ∀ old, done.lookup pre = some old → old = .qdict [] := by
    by_cases goesOn : Extends done pre
    · obtain ⟨child', present', _, nodup, lookup⟩ := two.grouped pre preFree goesOn
      have same : child = child' := by
        rcases present with present | ⟨absent, _⟩
        · rw [present'] at present
          exact (QObject.qdict.inj (Option.some.inj present)).symm
        · rw [present'] at absent
          contradiction
      exact same ▸ ⟨nodup, lookup, fun old => two.mixed pre old preFree goesOn⟩
    have plain := two.plain pre preFree goesOn
    have nothing : child = [] := by
      rcases present with present | ⟨_, empty⟩
      · rw [present] at plain
        exact eq_nil_of_isFlat (flat _ (mem_of_lookup plain.symm))
      · exact empty
    refine ⟨nothing ▸ nodup_nil, fun other => ?_, fun old found => ?_⟩
    · rw [nothing, lookup_nil]
      exact (lookup_eq_none.mpr fun mem => goesOn ⟨other, mem⟩).symm
    · rcases present with present | ⟨absent, _⟩
      · rw [plain, found, nothing] at present
        exact Option.some.inj present
      · rw [plain, found] at absent
        contradiction
  obtain ⟨childDistinct, childLookup, childMixed⟩ := before
  have grown : ∀ other, (qdictPutObj child suffix value).lookup other =
      (done ++ [(pre ++ '.' :: suffix, value)]).lookup (pre ++ '.' :: other) := by
    intro other
    rw [lookup_put childDistinct, lookup_snoc fresh, childLookup]
    simp
  have sameElsewhere : ∀ other, DotFree other → other ≠ pre →
      (Extends (done ++ [(pre ++ '.' :: suffix, value)]) other ↔ Extends done other) := by
    intro other otherFree differ
    rw [extends_snoc, or_iff_left]
    rintro ⟨rest, same⟩
    exact differ (first_dot_unique preFree otherFree same).1.symm
  refine ⟨distinct_put two.distinct pre _, ?_, free_put two.distinct two.free preFree, ?_, ?_, ?_⟩
  · rw [length_append]
    exact le_trans (length_put_le _ _ _) (Nat.succ_le_succ two.few)
  · intro other otherFree goesOn
    by_cases same : other = pre
    · refine ⟨qdictPutObj child suffix value, by rw [get, if_pos same], fun empty => ?_,
        distinct_put childDistinct suffix value, fun rest => by rw [grown, same]⟩
      have put := grown suffix
      rw [empty, lookup_snoc fresh, if_pos rfl] at put
      contradiction
    · rw [sameElsewhere other otherFree same] at goesOn
      obtain ⟨child', present', nonempty, nodup, lookup⟩ := two.grouped other otherFree goesOn
      refine ⟨child', by rw [get, if_neg same, present'], nonempty, nodup, fun rest => ?_⟩
      rw [lookup, lookup_snoc fresh, if_neg fun equal =>
        same (first_dot_unique otherFree preFree equal).1]
  · intro other otherFree notExtended
    have differ : other ≠ pre := by
      rintro rfl
      exact notExtended (extends_snoc.mpr (.inr ⟨suffix, rfl⟩))
    rw [sameElsewhere other otherFree differ] at notExtended
    rw [get, if_neg differ, lookup_snoc fresh, if_neg, two.plain other otherFree notExtended]
    rintro rfl
    exact otherFree (mem_append_right _ mem_cons_self)
  · intro other old otherFree goesOn found
    have notKey : other ≠ pre ++ '.' :: suffix := by
      rintro rfl
      exact otherFree (mem_append_right _ mem_cons_self)
    rw [lookup_snoc fresh, if_neg notKey] at found
    by_cases same : other = pre
    · exact childMixed old (same ▸ found)
    · exact two.mixed other old otherFree ((sameElsewhere other otherFree same).mp goesOn) found

theorem splitEntry_eq {parts} (flat : value.isFlat)
    (split : qdictSplitFlatKey key = some parts) : splitEntry twoLevel (key, value) =
    placeValue twoLevel value parts := by
  rw [splitEntry, split, flat]
  rfl

section

variable (two : TwoLevel done twoLevel)

include two

/-- One entry is added to its group. -/
theorem splitEntry_returned (flat : ∀ entry ∈ done, entry.2.isFlat)
    (fresh : key ∉ done.map Prod.fst) (noPair : NoPair key)
    (ret : splitEntry twoLevel (key, value) = .returns twoLevel') :
    value.isFlat ∧ TwoLevel (done ++ [(key, value)]) twoLevel' := by
  have valueFlat : value.isFlat := by
    by_contra nested
    rw [splitEntry, if_pos (by simpa using nested)] at ret
    contradiction
  refine ⟨valueFlat, ?_⟩
  rcases qdictSplitFlatKey_spec noPair with ⟨keyFree, split⟩ | ⟨pre, suffix, rfl, preFree, split⟩
  · rw [splitEntry_eq valueFlat split, placeValue] at ret
    split at ret
    · contradiction
    · rename_i absent
      cases ret
      exact two.single fresh keyFree absent
  rw [splitEntry_eq valueFlat split, placeValue] at ret
  split at ret
  · rename_i child present
    cases ret
    exact two.group flat fresh preFree (.inl present)
  · contradiction
  · rename_i absent
    cases ret
    exact two.group flat fresh preFree (.inr ⟨absent, rfl⟩)

/-- The first step takes an entry if nothing else is in its way. -/
theorem splitEntry_returns (src : FlatDict (done ++ (key, value) :: rest))
    (apart : ∀ pre, DotFree pre → Extends (done ++ (key, value) :: rest) pre →
      (done ++ (key, value) :: rest).lookup pre = none) :
    ∃ twoLevel', splitEntry twoLevel (key, value) = .returns twoLevel' := by
  have mem : (key, value) ∈ done ++ (key, value) :: rest := mem_append_right _ mem_cons_self
  have here := (lookup_eq_some src.distinct).mpr mem
  have more : ∀ pre, Extends done pre → Extends (done ++ (key, value) :: rest) pre := by
    rintro pre ⟨suffix, inDone⟩
    exact ⟨suffix, by rw [map_append]; exact mem_append_left _ inDone⟩
  rcases qdictSplitFlatKey_spec (src.noPair _ mem) with
    ⟨keyFree, split⟩ | ⟨pre, suffix, same, preFree, split⟩
  · rw [splitEntry_eq (src.flat _ mem) split, placeValue]
    -- A plain key must not be the prefix of a group.
    have notOn : ¬ Extends done key := by
      intro goesOn
      rw [apart key keyFree (more key goesOn)] at here
      contradiction
    have absent : qdictGet twoLevel key = none := by
      rw [qdictGet, two.plain key keyFree notOn]
      exact lookup_eq_none.mpr src.distinct.fresh
    rw [absent]
    exact ⟨_, rfl⟩
  rw [splitEntry_eq (src.flat _ mem) split, placeValue]
  by_cases goesOn : Extends done pre
  · obtain ⟨child, present, _⟩ := two.grouped pre preFree goesOn
    rw [qdictGet, present]
    exact ⟨_, rfl⟩
  have extended : Extends (done ++ (key, value) :: rest) pre :=
    ⟨suffix, same ▸ mem_map_of_mem mem⟩
  have absent : qdictGet twoLevel pre = none := by
    rw [qdictGet, two.plain pre preFree goesOn, lookup_eq_none]
    have nowhere := lookup_eq_none.mp (apart pre preFree extended)
    rw [map_append, mem_append, not_or] at nowhere
    exact nowhere.1
  rw [absent]
  exact ⟨_, rfl⟩

/-- The loop sorts every entry into its group. -/
theorem splitEntries_returned (flat : ∀ entry ∈ done, entry.2.isFlat)
    (nodup : Distinct (done ++ rest)) (noPair : ∀ entry ∈ rest, NoPair entry.1)
    (ret : rest.foldlM splitEntry twoLevel = .returns twoLevel') :
    (∀ entry ∈ done ++ rest, entry.2.isFlat) ∧ TwoLevel (done ++ rest) twoLevel' := by
  induction rest generalizing done twoLevel with
  | nil =>
    cases ret
    rw [append_nil]
    exact ⟨flat, two⟩
  | cons entry rest ih =>
    obtain ⟨key, value⟩ := entry
    rw [foldlM_cons, bind_eq_returns] at ret
    obtain ⟨next, first, ret⟩ := ret
    obtain ⟨isFlat, two'⟩ := splitEntry_returned two flat nodup.fresh (noPair _ mem_cons_self) first
    have res := @ih (done ++ [(key, value)]) next two'
      (fun entry mem => (mem_append.mp mem).elim (flat entry) fun same => by
        obtain rfl := mem_singleton.mp same
        exact isFlat)
      (by rwa [append_assoc, singleton_append])
      (fun entry mem => noPair entry (mem_cons_of_mem _ mem)) ret
    rwa [append_assoc, singleton_append] at res

/-- The loop succeeds if no prefix is a key itself. -/
theorem splitEntries_returns (src : FlatDict (done ++ rest))
    (apart : ∀ pre, DotFree pre → Extends (done ++ rest) pre → (done ++ rest).lookup pre = none) :
    ∃ twoLevel', rest.foldlM splitEntry twoLevel = .returns twoLevel' := by
  induction rest generalizing done twoLevel with
  | nil => exact ⟨twoLevel, rfl⟩
  | cons entry rest ih =>
    obtain ⟨key, value⟩ := entry
    have mem : (key, value) ∈ done ++ (key, value) :: rest := mem_append_right _ mem_cons_self
    obtain ⟨next, first⟩ := splitEntry_returns two src apart
    obtain ⟨_, two'⟩ := splitEntry_returned two
      (fun entry inDone => src.flat entry (mem_append_left _ inDone))
        src.distinct.fresh (src.noPair _ mem) first
    have shifted : done ++ (key, value) :: rest = (done ++ [(key, value)]) ++ rest := by simp
    rw [shifted] at src apart
    obtain ⟨twoLevel', ret⟩ := ih two' src apart
    exact ⟨twoLevel', by rw [foldlM_cons, bind_eq_returns]; exact ⟨next, first, ret⟩⟩

end

theorem crumpleWithin_succ {depth : Nat} {src : QDict σ} {result : QObject σ} :
    crumpleWithin (depth + 1) src = .returns result ↔
      ∃ twoLevel, src.foldlM splitEntry [] = .returns twoLevel ∧
      ∃ multiLevel, twoLevel.foldlM (crumpleEntry (crumpleWithin depth)) [] = .returns multiLevel ∧
        detectList multiLevel = .returns result := by
  simp only [crumpleWithin, bind_eq_returns]

variable {crumple : QDict σ → Outcome (QObject σ)} {multiLevel multiLevel' : QDict σ}

theorem crumpleValue_flat (flat : value.isFlat) : crumpleValue crumple value = .returns value := by
  unfold crumpleValue
  split
  · contradiction
  · rfl

theorem crumpleValue_qdict {entries} (nonempty : entries ≠ []) :
    crumpleValue crumple (.qdict entries) = crumple entries := by
  cases entries with
  | nil => contradiction
  | cons first rest => rfl

/-- What the second step makes of the entries so far. -/
structure MultiLevel (crumple : QDict σ → Outcome (QObject σ))
    (twoLevel multiLevel : QDict σ) : Prop where
  distinct : Distinct multiLevel
  absent : ∀ key, twoLevel.lookup key = none → multiLevel.lookup key = none
  present : ∀ key value, twoLevel.lookup key = some value →
    ∃ value', crumpleValue crumple value = .returns value' ∧ multiLevel.lookup key = some value'

theorem MultiLevel.start : MultiLevel crumple [] [] :=
  ⟨nodup_nil, fun _ _ => rfl, fun _ _ found => by contradiction⟩

/-- If the second step returns, then every value was crumpled. -/
theorem crumpleEntries_returned (multi : MultiLevel crumple done multiLevel)
    (nodup : Distinct (done ++ rest))
    (ret : rest.foldlM (crumpleEntry crumple) multiLevel = .returns multiLevel') :
    MultiLevel crumple (done ++ rest) multiLevel' := by
  induction rest generalizing done multiLevel with
  | nil =>
    cases ret
    rwa [append_nil]
  | cons entry rest ih =>
    obtain ⟨key, value⟩ := entry
    rw [foldlM_cons, bind_eq_returns] at ret
    obtain ⟨next, first, ret⟩ := ret
    rw [crumpleEntry, bind_eq_returns] at first
    obtain ⟨value', crumpled, put⟩ := first
    cases put
    have fresh := nodup.fresh
    have get := fun other => lookup_put multi.distinct key other value'
    -- The entries done so far grow by this one.
    have res := @ih (done ++ [(key, value)]) (qdictPutObj multiLevel key value')
      ⟨distinct_put multi.distinct key value', fun other absent => ?_, fun other old present => ?_⟩
      (by rwa [append_assoc, singleton_append]) ret
    · rwa [append_assoc, singleton_append] at res
    · rw [lookup_snoc fresh] at absent
      split at absent
      case isTrue => contradiction
      case isFalse differ => rw [get, if_neg differ, multi.absent other absent]
    · rw [lookup_snoc fresh] at present
      rw [get]
      split at present
      case isTrue same =>
        cases present
        exact ⟨value', crumpled, if_pos same⟩
      case isFalse differ =>
        rw [if_neg differ]
        exact multi.present other old present

theorem crumpleEntries_returns
    (each : ∀ entry ∈ rest, ∃ value', crumpleValue crumple entry.2 = .returns value') :
    ∃ multiLevel', rest.foldlM (crumpleEntry crumple) multiLevel = .returns multiLevel' := by
  induction rest generalizing multiLevel with
  | nil => exact ⟨multiLevel, rfl⟩
  | cons entry rest ih =>
    obtain ⟨value', crumpled⟩ := each entry mem_cons_self
    obtain ⟨multiLevel', ret⟩ := @ih (qdictPutObj multiLevel entry.1 value')
      (fun other mem => each other (mem_cons_of_mem _ mem))
    refine ⟨multiLevel', ?_⟩
    rw [foldlM_cons, bind_eq_returns]
    refine ⟨qdictPutObj multiLevel entry.1 value', ?_, ret⟩
    rw [crumpleEntry, bind_eq_returns]
    exact ⟨value', crumpled, rfl⟩

end Qemu.Qmp
