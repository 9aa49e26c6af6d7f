import Mathlib.Data.UInt
import Qemu.Util.HBitmapSearch

/-! Merging two hierarchical bitmaps stays inside the arrays, apart from a result that is shorter.
-/

namespace Qemu.Util

open WordBits Pyramid GuardedRun Nat Finset

variable {host : HostLong} {src dst : HBitmap host} {members dirty : Finset Nat} {first count : Nat}

/-- How a merge goes wrong: a write outside an array, a failed assertion or no end. -/
inductive MergeFault where
  | overrun
  | stuck

/-- Whether it writes a word outside an array. -/
def overruns {α : Type} : Except MergeFault α → Bool
  | .error .overrun => true
  | _ => false

/-- What `result` points to: `a` where all three pointers are the same. -/
inductive Target (host : HostLong) where
  | a
  | b
  | third (result : HBitmap host)

/-- The bitmap that is to hold the result. -/
def Target.bitmap (a b : HBitmap host) : Target host → HBitmap host
  | .a => a
  | .b => b
  | .third result => result

/-- The comparison `result == a`. -/
def Target.isA : Target host → Bool
  | .a => true
  | _ => false

/-- The comparison `result == b`. -/
def Target.isB : Target host → Bool
  | .b => true
  | _ => false

/-- The number of dirty items. -/
def hbitmapCount (hb : HBitmap host) : Nat := hb.count <<< hb.granularity % 2 ^ 64

/-- Whether two bitmaps can be merged. -/
def hbitmapCanMerge (a b : HBitmap host) : Bool := a.origSize = b.origSize

/-- `hbitmap_set` for an area, with its assertion checked first. -/
def setArea (dst : HBitmap host) (offset count : Int) : Except MergeFault (HBitmap host) :=
  let start := (offset % 2 ^ 64).toNat
  let count := (count % 2 ^ 64).toNat
  if count ≠ 0 ∧ ¬ lastItem start count >>> dst.granularity < dst.size then .error .stuck
  else
    match hbitmapSet dst start count with
    | some dst => .ok dst
    | none => .error .overrun

/-- The loop of `hbitmap_sparse_merge`, for at most a number of turns. -/
def hbitmapSparseMerge (src : HBitmap host) : Nat → Int → HBitmap host →
    Except MergeFault (HBitmap host)
  | 0, _, _ => .error .stuck
  | turns + 1, offset, dst =>
    match hbitmapNextDirtyArea src offset src.origSize (2 ^ 63 - 1 : Nat) with
    | none => .error .stuck
    | some none => .ok dst
    | some (some (offset, count)) => do
      let dst ← setArea dst offset count
      hbitmapSparseMerge src turns (offset + count) dst

/-- The sparse merge of an input, which is skipped where the input is the result. -/
def sparseMergeOther (turns : Nat) (isDst : Bool) (src dst : HBitmap host) :
    Except MergeFault (HBitmap host) :=
  if isDst then .ok dst else hbitmapSparseMerge src turns 0 dst

/-- The inner loop of the merge by words, each read before it is written, so an input may be the
result. -/
def mergeWords (a b : HBitmap host) (level : Nat) : Nat → Nat → HBitmap host →
    Except MergeFault (HBitmap host)
  | 0, _, result => .ok result
  | left + 1, j, result =>
    match a.word? level j, b.word? level j with
    | some wordA, some wordB =>
      if j < result.sizes level then mergeWords a b level left (j + 1)
        (result.setWord level j (wordA ||| wordB))
      else .error .overrun
    | _, _ => .error .stuck

/-- The outer loop of the merge by words, over the levels from the bottom up. -/
def mergeLevels (a b : HBitmap host) : Nat → HBitmap host → Except MergeFault (HBitmap host)
  | 0, result => .ok result
  | i + 1, result => do
    let result ← mergeWords a b i (a.sizes i) 0 result
    mergeLevels a b i result

/-- The union of two bitmaps, with the turns of a sparse merge. -/
def hbitmapMerge (turns : Nat) (a b : HBitmap host) (target : Target host) :
    Except MergeFault (Bool × HBitmap host) := do
  let result := target.bitmap a b
  if !hbitmapCanMerge a b || !hbitmapCanMerge a result then return (false, result)
  if !hbitmapCanMerge b result then throw .stuck
  if hbitmapCount a = 0 ∧ target.isB ∨ hbitmapCount b = 0 ∧ target.isA then return (true, result)
  if hbitmapCount a = 0 ∧ hbitmapCount b = 0 then return (true, hbitmapResetAll result)
  if a.granularity ≠ b.granularity then
    let result := if !target.isA && !target.isB then hbitmapResetAll result else result
    let result ← sparseMergeOther turns target.isA a result
    let result ← sparseMergeOther turns target.isB b result
    return (true, result)
  if a.size ≠ b.size then throw .stuck
  let result ← mergeLevels a b (host.bottom + 1) result
  match hbCountBetween result 0 ((result.size + 2 ^ 64 - 1) % 2 ^ 64) with
  | some count => return (true, { result with count := count })
  | none => throw .stuck

/-- Some item of a group of a granularity is dirty, from an offset on. -/
def DirtyIn (hb : HBitmap host) (offset granularity group : Nat) : Prop :=
  ∃ item, offset ≤ item ∧ item < hb.origSize ∧ item / 2 ^ granularity = group ∧
    hbitmapGet hb item = some true

/-- Each run of dirty items from an offset on ends before `size_t` is too small. -/
def RunsFit (hb : HBitmap host) (offset : Nat) : Prop :=
  ∀ item, offset ≤ item → item < hb.origSize → hbitmapGet hb item = some true →
    Unwrapped hb item hb.origSize

/-- The search for the end of a run wraps from each of its items, or from none. -/
theorem Holds.unwrapped_iff (holds : Holds src members) {item stop} (order : first ≤ item)
    (inside : item < src.origSize)
    (dirty : ∀ other, first ≤ other → other ≤ item → other / 2 ^ src.granularity ∈ members) :
    Unwrapped src first stop ↔ Unwrapped src item stop := by
  have bounded := holds.original
  have groups : first / 2 ^ src.granularity ≤ item / 2 ^ src.granularity :=
    Nat.div_le_div_right order
  -- The groups of the run are set.
  have shown : ∀ group, first / 2 ^ src.granularity ≤ group → group ≤ item / 2 ^ src.granularity →
      src.bit host.bottom group = true := by
    intro group lower upper
    have some_ : item + 1 - first ≠ 0 := by omega
    have inRange : first + (item + 1 - first) ≤ 2 ^ 64 := by omega
    have last : first + (item + 1 - first) - 1 = item := by omega
    have among : group ∈ groupsOf src.granularity first (item + 1 - first) := by
      rw [groupsOf_eq some_ inRange, lastItem_eq some_ inRange, last,
        shiftRight_eq_div_pow, shiftRight_eq_div_pow]
      exact mem_Icc.mpr ⟨lower, upper⟩
    obtain ⟨other, range, rfl⟩ := Finset.mem_image.mp among
    have mem := dirty other (mem_Ico.mp range).1 (by have := (mem_Ico.mp range).2; omega)
    exact (holds.bit_bottom (holds.word_lt (holds.within _ mem))).mpr mem
  constructor
  · intro unwrapped group lower inWord clear least
    refine unwrapped group (le_trans groups lower) inWord clear fun earlier after before => ?_
    rcases lt_or_ge earlier (item / 2 ^ src.granularity) with within | beyond
    · exact shown earlier after (le_of_lt within)
    · exact least earlier beyond before
  · intro unwrapped group lower inWord clear least
    have beyond : item / 2 ^ src.granularity ≤ group := by
      by_contra within
      rw [shown group lower (by omega)] at clear
      contradiction
    exact unwrapped group beyond inWord clear fun earlier after =>
      least earlier (le_trans groups after)

/-- Setting an area adds the groups it touches. -/
theorem setArea_holds (holds : Holds dst dirty) (inside : first + count ≤ dst.origSize) :
    ∃ dst', setArea dst first count = .ok dst' ∧ SameShape dst dst' ∧
      Holds dst' (dirty ∪ groupsOf dst.granularity first count) := by
  have bounded := holds.original
  have start_eq : ((first : Int) % 2 ^ 64).toNat = first := by omega
  have count_eq : ((count : Int) % 2 ^ 64).toNat = count := by omega
  rw [setArea]
  simp only [start_eq, count_eq]
  by_cases empty : count = 0
  · rw [if_neg (fun both => both.1 empty), empty, groupsOf, Nat.add_zero,
      Finset.Ico_self, Finset.image_empty, union_empty]
    exact ⟨dst, rfl, rfl, holds⟩
  have inRange : first + count ≤ 2 ^ 64 := by omega
  have last_eq := lastItem_eq empty inRange
  have within : lastItem first count >>> dst.granularity < dst.size := by
    rw [last_eq, shiftRight_eq_div_pow]
    exact holds.group_lt (by omega)
  have order : first >>> dst.granularity ≤ lastItem first count >>> dst.granularity := by
    rw [last_eq, shiftRight_eq_div_pow, shiftRight_eq_div_pow]
    exact Nat.div_le_div_right (by omega)
  obtain ⟨dst', set_, shape, rep, counted⟩ :=
    hbitmapSet_spec holds.toRepresents holds.counted (by omega) empty order within
  rw [if_neg (fun both => both.2 within), set_, groupsOf_eq empty inRange]
  exact ⟨dst', rfl, shape, holds.ofShape shape rep counted⟩

/-- A merge of areas adds the groups with dirty items, in no more turns than items, unless the end
of a run of dirty items wraps, where it gets stuck. -/
theorem hbitmapSparseMerge_spec (source : Holds src members) (turns : Nat) (holds : Holds dst dirty)
    (same : dst.origSize = src.origSize) (offset : Nat) :
    hbitmapSparseMerge src turns offset dst = .error .stuck ∧
        (RunsFit src offset → turns ≤ src.origSize - offset) ∨
      ∃ dst' dirty', hbitmapSparseMerge src turns offset dst = .ok dst' ∧
        RunsFit src offset ∧ SameShape dst dst' ∧
        Holds dst' dirty' ∧ ∀ group, group ∈ dirty' ↔ group ∈ dirty ∨
            DirtyIn src offset dst.granularity group := by
  have bounded := source.original
  induction turns generalizing dst dirty offset with
  | zero => exact .inl ⟨rfl, fun _ => Nat.zero_le _⟩
  | succ turns ih =>
    rw [hbitmapSparseMerge]
    by_cases clean : ∀ first, ¬ FirstDirty src offset (min src.origSize src.origSize) first
    · obtain ⟨done, none_⟩ := hbitmapNextDirtyArea_none source (show 0 < 2 ^ 63 - 1 by decide) clean
      rw [min_self] at none_
      rw [done]
      refine .inr ⟨dst, dirty, rfl, fun item after inside here =>
        absurd here (none_ item after inside), rfl, holds, fun group => ⟨.inl, ?_⟩⟩
      rintro (old | ⟨item, after, inside, _, here⟩)
      · exact old
      · exact absurd here (none_ item after inside)
    push Not at clean
    obtain ⟨first, found⟩ := clean
    have lower := found.after
    have before := found.before
    rcases hbitmapNextDirtyArea_first source (show 0 < 2 ^ 63 - 1 by decide) found
      (show _ = src.origSize by omega)
      with ⟨stuck, wrapped⟩ | ⟨ends, ⟨after, upper, run, last⟩, ret⟩
    · rw [stuck]
      exact .inl ⟨rfl, fun fit => absurd (fit first lower (by omega) found.dirty) wrapped⟩
    obtain ⟨dst', set_, shape, holds'⟩ :=
      setArea_holds holds (show first + (ends - first) ≤ dst.origSize by omega)
    have granularity : dst'.granularity = dst.granularity := by rw [shape]
    have origSize : dst'.origSize = src.origSize := by rw [shape, same]
    simp only [ret, set_, ← Int.natCast_add, Nat.add_sub_cancel' after]
    rcases ih holds' origSize ends with ⟨stuck, turns_⟩ | ⟨final, dirty', ok,
      fit, shape', held, union⟩
    · refine .inl ⟨stuck, fun fit => ?_⟩
      have := turns_ fun item later => fit item (by omega)
      rcases last with ⟨_, last⟩ | ⟨wrapped, _⟩
      · -- The area is not empty.
        have other : first ≠ ends := by
          rintro rfl
          exact last.elim (by omega) fun clear => clear ((source.get_true_iff first).mp found.dirty)
        omega
      · exact absurd (fit first lower (by omega) found.dirty) wrapped
    -- The search from the first item of the area did not wrap, as that from its end does not.
    have unwrapped : Unwrapped src first src.origSize := by
      rcases last with ⟨unwrapped, _⟩ | ⟨_, early, mem⟩
      · exact unwrapped
      refine (source.unwrapped_iff after early fun other lower upper => ?_).mpr
        (fit ends le_rfl early ((source.get_true_iff ends).mpr mem))
      rcases lt_or_ge other ends with inArea | atEnd
      · exact run other lower inArea
      · exact le_antisymm upper atEnd ▸ mem
    refine .inr ⟨final, dirty', ok, fun item reached inside here => ?_, ?_, held, fun group => ?_⟩
    · rcases lt_or_ge item ends with inArea | beyond
      · have later : first ≤ item :=
          Nat.le_of_not_lt fun early => found.least item reached early here
        exact (source.unwrapped_iff later inside fun other lower upper =>
          run other lower (by omega)).mp unwrapped
      · exact fit item beyond inside here
    · rw [SameShape, shape', shape]
    · rw [union, Finset.mem_union, or_assoc, granularity]
      refine or_congr_right ⟨?_, ?_⟩
      · rintro (new | ⟨item, reached, rest⟩)
        · obtain ⟨item, range, rfl⟩ := Finset.mem_image.mp new
          have bounds := mem_Ico.mp range
          exact ⟨item, by omega, by omega, rfl,
            (source.get_true_iff item).mpr (run item bounds.1 (by omega))⟩
        · exact ⟨item, by omega, rest⟩
      · rintro ⟨item, reached, inside, rfl, here⟩
        have later : first ≤ item := Nat.le_of_not_lt fun early =>
          found.least item reached early here
        rcases lt_or_ge item ends with inArea | beyond
        · exact .inl (mem_image_of_mem _ (mem_Ico.mpr ⟨later, by omega⟩))
        · exact .inr ⟨item, beyond, inside, rfl, here⟩

theorem sparseMergeOther_spec (source : Holds src members) (turns isDst) (holds : Holds dst dirty)
    (same : dst.origSize = src.origSize) :
    sparseMergeOther turns isDst src dst = .error .stuck ∧ isDst = false ∧
        (RunsFit src 0 → turns ≤ src.origSize) ∨
      ∃ dst' dirty', sparseMergeOther turns isDst src dst = .ok dst' ∧
        (isDst = false → RunsFit src 0) ∧ SameShape dst dst' ∧ Holds dst' dirty' ∧
        ∀ group, group ∈ dirty' ↔ group ∈ dirty ∨ isDst = false ∧
            DirtyIn src 0 dst.granularity group := by
  cases isDst with
  | true => exact .inr ⟨dst, dirty, rfl, nofun, rfl, holds, fun group => by simp⟩
  | false =>
    rcases hbitmapSparseMerge_spec source turns holds same 0 with
      ⟨stuck, turns_⟩ | ⟨dst', dirty', ok, fit, rest⟩
    · exact .inl ⟨stuck, rfl, turns_⟩
    · exact .inr ⟨dst', dirty', ok, fun _ => fit, by simpa using rest⟩

variable {a b result : HBitmap host}

/-- Some words are those of two bitmaps together; nothing else changes. -/
structure Merged (a b result result' : HBitmap host) (written : Nat → Nat → Prop) : Prop where
  frame : result' = { result with levels := result'.levels }
  new : ∀ level pos, written level pos →
    result'.levels level pos = a.levels level pos ||| b.levels level pos
  old : ∀ level pos, ¬ written level pos → result'.levels level pos = result.levels level pos

theorem Merged.trans {result' result'' written written' both}
    (first : Merged a b result result' written) (second : Merged a b result' result'' written')
    (either : ∀ level pos, both level pos ↔ written level pos ∨ written' level pos) :
    Merged a b result result'' both where
  frame := by rw [second.frame, first.frame]
  new := by
    intro level pos here
    by_cases later : written' level pos
    · exact second.new level pos later
    · rw [second.old level pos later,
        first.new level pos (((either level pos).mp here).resolve_right later)]
  old := by
    intro level pos other
    rw [either, not_or] at other
    rw [second.old level pos other.2, first.old level pos other.1]

/-- The loop writes all words of a level, or comes to the end of the result's array. -/
theorem mergeWords_spec {level} (same : b.sizes level = a.sizes level) {left j}
    (reads : j + left = a.sizes level) (start : j ≤ result.sizes level) :
    if a.sizes level ≤ result.sizes level then
      ∃ result', mergeWords a b level left j result = .ok result' ∧
        Merged a b result result' fun level' pos => level' = level ∧ j ≤ pos ∧ pos < a.sizes level
    else mergeWords a b level left j result = .error .overrun := by
  induction left generalizing j result with
  | zero =>
    rw [if_pos (by omega)]
    exact ⟨result, rfl, rfl, fun _ _ none_ => by omega, fun _ _ _ => rfl⟩
  | succ left ih =>
    have wordA : a.word? level j = some (a.levels level j) := if_pos (by omega)
    have wordB : b.word? level j = some (b.levels level j) := if_pos (by omega)
    simp only [mergeWords, wordA, wordB]
    by_cases inside : j < result.sizes level
    · rw [if_pos inside]
      have rest := @ih (result.setWord level j (a.levels level j ||| b.levels level j))
        (j + 1) (by omega) inside
      have one : Merged a b result (result.setWord level j (a.levels level j ||| b.levels level j))
          fun level' pos => level' = level ∧ pos = j := by
        refine ⟨rfl, ?_, fun _ _ other => if_neg other⟩
        rintro _ _ ⟨rfl, rfl⟩
        exact if_pos ⟨rfl, rfl⟩
      by_cases fits : a.sizes level ≤ result.sizes level
      · obtain ⟨result', ok, merged⟩ := (if_pos fits).mp rest
        rw [if_pos fits]
        exact ⟨result', ok, one.trans merged fun _ _ => by omega⟩
      · rw [if_neg fits]
        exact (if_neg fits).mp rest
    · rw [if_neg inside, if_neg (by omega)]

/-- The loop over the levels writes all words, or comes to a shorter array. -/
theorem mergeLevels_spec {levels} (same : ∀ level < levels, b.sizes level = a.sizes level) :
    if ∀ level < levels, a.sizes level ≤ result.sizes level then
      ∃ result', mergeLevels a b levels result = .ok result' ∧
        Merged a b result result' fun level pos => level < levels ∧ pos < a.sizes level
    else mergeLevels a b levels result = .error .overrun := by
  induction levels generalizing result with
  | zero =>
    rw [if_pos nofun]
    exact ⟨result, rfl, rfl, fun _ _ none_ => by omega, fun _ _ _ => rfl⟩
  | succ i ih =>
    have words := @mergeWords_spec host a b result i (same i (lt_succ_self _)) _ 0
      (Nat.zero_add _) (Nat.zero_le _)
    rw [mergeLevels]
    simp only [forall_lt_succ_right]
    split at words
    case isTrue fits =>
      -- This level is merged; those above it follow.
      obtain ⟨result₁, ok₁, first⟩ := words
      have rest := @ih result₁ fun level below => same level (lt_succ_of_lt below)
      have sizes : result₁.sizes = result.sizes := by rw [first.frame]
      simp only [ok₁, fits, and_true]
      rw [sizes] at rest
      split at rest
      case isTrue all =>
        obtain ⟨result₂, ok₂, second⟩ := rest
        rw [if_pos all]
        refine ⟨result₂, ok₂, first.trans second fun level pos => ?_⟩
        constructor
        · intro both
          rcases Nat.lt_succ_iff_lt_or_eq.mp both.1 with below | rfl
          · exact .inr ⟨below, both.2⟩
          · exact .inl ⟨rfl, Nat.zero_le _, both.2⟩
        · rintro (⟨rfl, _, inside⟩ | ⟨below, inside⟩)
          · exact ⟨lt_succ_self _, inside⟩
          · exact ⟨lt_succ_of_lt below, inside⟩
      case isFalse short =>
        rw [if_neg short]
        exact rest
    case isFalse short =>
      rw [if_neg fun both => short both.2, words]
      rfl

theorem Sized.sizes_le (sized : Sized a) (sized' : Sized result)
    (bottom : a.sizes host.bottom ≤ result.sizes host.bottom) {level left}
    (levels : level + left = host.bottom) : a.sizes level ≤ result.sizes level := by
  induction left generalizing level with
  | zero =>
    obtain rfl := levels
    exact bottom
  | succ left ih =>
    rw [sized.words level (by omega), sized'.words level (by omega), sized.bitsAt_eq (by omega),
      sized'.bitsAt_eq (by omega)]
    exact blocks_mono (ih (by omega))

/-- The two merges of areas, from the bitmap that they start with. -/
theorem sparseMerges_spec {start dirtyA dirtyB} (holdsA : Holds a dirtyA)
    (holdsB : Holds b dirtyB) (holds : Holds start dirty) (sameA : start.origSize = a.origSize)
    (sameB : start.origSize = b.origSize) (turns isA isB) :
    (sparseMergeOther turns isA a start >>= sparseMergeOther turns isB b) = .error .stuck ∧
        ((isA = false → RunsFit a 0) → (isB = false → RunsFit b 0) → turns ≤ start.origSize) ∨
      ∃ result dirty', (sparseMergeOther turns isA a start >>= sparseMergeOther turns isB b) =
        .ok result ∧ (isA = false → RunsFit a 0) ∧ (isB = false → RunsFit b 0) ∧
          SameShape start result ∧ Holds result dirty' ∧
        ∀ group, group ∈ dirty' ↔ (group ∈ dirty ∨ isA = false ∧
          DirtyIn a 0 start.granularity group) ∨
          isB = false ∧ DirtyIn b 0 start.granularity group := by
  rcases sparseMergeOther_spec holdsA turns isA holds sameA with
    ⟨stuck, other, turns_⟩ | ⟨middle, dirty₁, ok₁, fitA, shape₁, holds₁, union₁⟩
  · rw [stuck, sameA]
    exact .inl ⟨rfl, fun fitA _ => turns_ (fitA other)⟩
  have granularity : middle.granularity = start.granularity := by rw [shape₁]
  rcases sparseMergeOther_spec holdsB turns isB holds₁ (by rw [shape₁, sameB]) with
    ⟨stuck, other, turns_⟩ | ⟨result, dirty₂, ok₂, fitB, shape₂, holds₂, union₂⟩
  · rw [ok₁, sameB]
    exact .inl ⟨stuck, fun _ fitB => turns_ (fitB other)⟩
  · refine .inr ⟨result, dirty₂, by rw [ok₁]; exact ok₂, fitA, fitB, ?_, holds₂, fun group => ?_⟩
    · rw [SameShape, shape₂, shape₁]
    · rw [union₂, union₁, granularity]

theorem Target.start_holds (target : Target host) (holds : Holds (target.bitmap a b) dirty) :
    ∃ start, (if (!target.isA && !target.isB) = true then hbitmapResetAll (target.bitmap a b)
        else target.bitmap a b) = start ∧ SameShape (target.bitmap a b) start ∧
      Holds start (if target.isA || target.isB then dirty else ∅) := by
  cases target with
  | a => exact ⟨_, rfl, rfl, holds⟩
  | b => exact ⟨_, rfl, rfl, holds⟩
  | third => exact ⟨_, rfl, rfl, hbitmapResetAll_holds holds⟩

/-- A merge writes inside the result exactly if it writes no words, goes by areas, or the result is
as long. -/
theorem hbitmapMerge_inside_iff (target : Target host) {dirtyA dirtyB dirty : Finset Nat}
    (holdsA : Holds a dirtyA) (holdsB : Holds b dirtyB) (holds : Holds (target.bitmap a b) dirty)
    (mergeable : hbitmapCanMerge a b = true)
    (mergeableResult : hbitmapCanMerge a (target.bitmap a b) = true) :
    (∀ turns, overruns (hbitmapMerge turns a b target) = false) ↔
      (hbitmapCount a = 0 ∧ target.isB ∨ hbitmapCount b = 0 ∧ target.isA) ∨
      (hbitmapCount a = 0 ∧ hbitmapCount b = 0) ∨ a.granularity ≠ b.granularity ∨
      a.sizes host.bottom ≤ (target.bitmap a b).sizes host.bottom := by
  have sameB : a.origSize = b.origSize := of_decide_eq_true mergeable
  have sameR : a.origSize = (target.bitmap a b).origSize := of_decide_eq_true mergeableResult
  have last : hbitmapCanMerge b (target.bitmap a b) = true :=
    decide_eq_true (sameB.symm.trans sameR)
  simp only [hbitmapMerge, mergeable, mergeableResult, last, Bool.not_true, Bool.or_self,
    Bool.false_eq_true, if_false]
  by_cases early : hbitmapCount a = 0 ∧ target.isB ∨ hbitmapCount b = 0 ∧ target.isA
  · exact iff_of_true (fun _ => by rw [if_pos early]; rfl) (.inl early)
  by_cases empty : hbitmapCount a = 0 ∧ hbitmapCount b = 0
  · exact iff_of_true (fun _ => by rw [if_neg early, if_pos empty]; rfl) (.inr (.inl empty))
  simp only [early, empty, if_false, false_or]
  by_cases granularity : a.granularity = b.granularity
  · have size : a.size = b.size := by rw [holdsA.groups, holdsB.groups, sameB, granularity]
    have levels : (∀ level < host.bottom + 1, a.sizes level ≤ (target.bitmap a b).sizes level) ↔
        a.sizes host.bottom ≤ (target.bitmap a b).sizes host.bottom :=
      ⟨fun all => all _ (lt_succ_self _), fun bottom level below =>
        holdsA.sizes_le holds.toSized bottom (add_sub_of_le (le_of_lt_succ below))⟩
    have same : ∀ level < host.bottom + 1, b.sizes level = a.sizes level := fun level below => by
      rw [holdsB.words level (by omega), holdsA.words level (by omega),
        HBitmap.bitsAt, HBitmap.bitsAt, size]
    rw [← levels]
    simp only [granularity, size, ne_eq, not_true, if_false, false_or, forall_const]
    have loops := @mergeLevels_spec host a b (target.bitmap a b) _ same
    split at loops
    case isTrue fits =>
      obtain ⟨result, ok, _⟩ := loops
      refine iff_of_true ?_ fits
      -- What follows the loops writes no word.
      simp only [ok, bind, Except.bind]
      split
      · rfl
      · rfl
    case isFalse short =>
      rw [loops]
      exact iff_of_false (by simp [overruns, bind, Except.bind]) short
  simp only [granularity, ne_eq, not_false_iff, if_true, true_or, iff_true]
  intro turns
  obtain ⟨start, start_eq, shape, startHolds⟩ := target.start_holds holds
  have same : start.origSize = a.origSize := by rw [shape, sameR]
  rw [start_eq, ← bind_assoc]
  rcases sparseMerges_spec holdsA holdsB startHolds same (same.trans sameB) turns
      target.isA target.isB with
    ⟨stuck, _⟩ | ⟨result, _, merged, _⟩
  · rw [stuck]
    rfl
  · rw [merged]
    rfl

theorem exists_reached : ∃ a : HBitmap .bits64, runFrom Update.step (hbitmapAlloc .bits64 65 0)
    [.set 64 1] = some a :=
  Option.isSome_iff_exists.mp (by decide +kernel)

/-- Two bitmaps of 65 items, and one that counts them by 64 in one word. -/
theorem hbitmapMerge_overruns : ∃ a b result : HBitmap .bits64,
    runFrom Update.step (hbitmapAlloc .bits64 65 0) [.set 64 1] = some a ∧
      hbitmapAlloc .bits64 65 0 = some b ∧
      hbitmapAlloc .bits64 65 6 = some result ∧ hbitmapCanMerge a b = true ∧
        hbitmapCanMerge a result = true ∧ overruns (hbitmapMerge 0 a b (.third result)) = true := by
  obtain ⟨a, reached⟩ := exists_reached
  obtain ⟨b, allocated⟩ :=
    Option.isSome_iff_exists.mp (show (hbitmapAlloc .bits64 65 0).isSome by decide +kernel)
  obtain ⟨result, coarse⟩ :=
    Option.isSome_iff_exists.mp (show (hbitmapAlloc .bits64 65 6).isSome by decide +kernel)
  have facts : ∀ a ∈ runFrom Update.step (hbitmapAlloc .bits64 65 0) [.set 64 1],
    ∀ b ∈ hbitmapAlloc .bits64 65 0,
      ∀ result ∈ hbitmapAlloc .bits64 65 6, hbitmapCanMerge a b = true ∧
        hbitmapCanMerge a result = true ∧
        overruns (hbitmapMerge 0 a b (.third result)) = true := by decide +kernel
  exact ⟨a, b, result, reached, allocated, coarse, facts a reached b allocated result coarse⟩

/-- A second bitmap, of the same size, with items in another word. -/
theorem exists_reached_low :
    ∃ b : HBitmap .bits64, runFrom Update.step (hbitmapAlloc .bits64 65 0) [.set 3 2] = some b :=
  Option.isSome_iff_exists.mp (by decide +kernel)

/-- What the sample bitmaps have in common. -/
theorem samples_alike : ∀ a ∈ runFrom Update.step (hbitmapAlloc .bits64 65 0) [.set 64 1],
    ∀ b ∈ runFrom Update.step (hbitmapAlloc .bits64 65 0) [.set 3 2],
      hbitmapCanMerge a b = true ∧ a.granularity = b.granularity ∧
        hbitmapCount a = 1 ∧ hbitmapCount b = 2 := by decide +kernel

/-- Two different bitmaps are merged into the first. -/
theorem hbitmapMerge_inside_iff_two : ∃ a b : HBitmap .bits64,
    runFrom Update.step (hbitmapAlloc .bits64 65 0) [.set 64 1] = some a ∧
      runFrom Update.step (hbitmapAlloc .bits64 65 0) [.set 3 2] = some b ∧
      ∀ turns, overruns (hbitmapMerge turns a b .a) = false := by
  obtain ⟨a, reached⟩ := exists_reached
  obtain ⟨b, reached'⟩ := exists_reached_low
  obtain ⟨members, holds⟩ := reached_holds reached
  obtain ⟨members', holds'⟩ := reached_holds reached'
  obtain ⟨mergeable, -, -⟩ := samples_alike a reached b reached'
  exact ⟨a, b, reached, reached', (hbitmapMerge_inside_iff .a holds holds' holds mergeable
    (decide_eq_true rfl)).mpr (.inr (.inr (.inr le_rfl)))⟩

variable {dirtyA dirtyB : Finset Nat}

theorem Holds.dirtyIn_iff (holds : Holds a dirtyA) {item} (inside : item < a.origSize) :
    DirtyIn a 0 a.granularity (item / 2 ^ a.granularity) ↔ item / 2 ^ a.granularity ∈ dirtyA := by
  constructor
  · rintro ⟨other, _, _, same, here⟩
    exact same ▸ (holds.get_true_iff other).mp here
  · exact fun mem => ⟨item, Nat.zero_le _, inside, rfl, (holds.get_true_iff item).mpr mem⟩

theorem Holds.clean (holds : Holds a dirtyA) (none_ : hbitmapCount a = 0) (item : Nat) :
    hbitmapGet a item ≠ some true := by
  have room := le_trans (Nat.mul_le_mul_right (2 ^ a.granularity) (card_le_of_lt holds.within))
    holds.room
  rw [hbitmapCount, holds.counted, shiftLeft_eq, mod_eq_of_lt (by omega), mul_eq_zero,
    or_iff_left (Nat.two_pow_pos _).ne', Finset.card_eq_zero] at none_
  rw [Ne, holds.get_true_iff, none_]
  exact Finset.notMem_empty _

theorem Holds.count_eq_zero (holds : Holds a dirtyA) (none_ : a.size = 0) : hbitmapCount a = 0 := by
  have none_ : dirtyA.card ≤ 0 := none_ ▸ card_le_of_lt holds.within
  rw [hbitmapCount, holds.counted, le_zero.mp none_, Nat.zero_shiftLeft, zero_mod]

/-- A bitmap is the union of two, by groups of the granularity of the first. -/
structure IsUnion (a b result : HBitmap host) : Prop where
  coherent : Coherent result
  original : result.origSize = a.origSize
  granularity : result.granularity = a.granularity
  union : ∀ item < a.origSize, (hbitmapGet result item = some true ↔
    DirtyIn a 0 a.granularity (item / 2 ^ a.granularity) ∨
      DirtyIn b 0 a.granularity (item / 2 ^ a.granularity))

theorem Holds.isUnion (holds : Holds result dirty) (orig : result.origSize = a.origSize)
    (gran : result.granularity = a.granularity)
    (union : ∀ item < a.origSize, (item / 2 ^ a.granularity ∈ dirty ↔
      DirtyIn a 0 a.granularity (item / 2 ^ a.granularity) ∨
        DirtyIn b 0 a.granularity (item / 2 ^ a.granularity))) :
    IsUnion a b result :=
  ⟨holds.coherent, orig, gran, fun item inside => by
    rw [holds.get_true_iff, gran, union item inside]⟩

/-- Or-ing the levels of two bitmaps gives the union. -/
theorem mergeLevels_union (holdsA : Holds a dirtyA) (holdsB : Holds b dirtyB)
    (holds : Holds result dirty) (sizeB : b.size = a.size) (size : result.size = a.size) :
    ∃ result', mergeLevels a b (host.bottom + 1) result = .ok result' ∧
      result' = { result with levels := result'.levels } ∧
      Represents result' (dirtyA ∪ dirtyB) := by
  have sizesB : ∀ level ≤ host.bottom, b.sizes level = a.sizes level := fun level isLevel => by
    rw [holdsB.words level isLevel, holdsA.words level isLevel,
      HBitmap.bitsAt, HBitmap.bitsAt, sizeB]
  have sizes : ∀ level ≤ host.bottom, result.sizes level = a.sizes level := fun level isLevel => by
    rw [holds.words level isLevel, holdsA.words level isLevel, HBitmap.bitsAt, HBitmap.bitsAt, size]
  obtain ⟨result', ok, merged⟩ :=
    (if_pos fun level below => Nat.le_of_eq (sizes level (le_of_lt_succ below)).symm).mp
    (@mergeLevels_spec host a b result _ fun level below => sizesB level (le_of_lt_succ below))
  refine ⟨result', ok, merged.frame, holds.toRepresents.ofLevels merged.frame (fun group mem => ?_)
    fun level isLevel index inside => ?_⟩
  · rw [size]
    rcases Finset.mem_union.mp mem with left | right
    · exact holdsA.within group left
    · exact sizeB ▸ holdsB.within group right
  · rw [merged.frame, sizes level isLevel] at inside
    have shownA := holdsA.levels level isLevel index inside
    have shownB := holdsB.levels level isLevel index ((sizesB level isLevel).symm ▸ inside)
    rw [HBitmap.bit] at shownA shownB
    rw [HBitmap.bit, merged.new level _ ⟨lt_succ_of_le isLevel, inside⟩,
      BitVec.getLsbD_or, Bool.or_eq_true, shownA,
      shownB, coarsen, coarsen, coarsen, image_union, Finset.mem_union]
    exact or_or_distrib_right.symm

/-- A merge into a bitmap with the granularity of the first returns the union, but for two
granularities, where the end of a run of dirty items wraps on a 32-bit host and the merge gets
stuck. -/
theorem hbitmapMerge_union_iff (target : Target host) (holdsA : Holds a dirtyA)
    (holdsB : Holds b dirtyB) (holds : Holds (target.bitmap a b) dirty)
    (mergeable : hbitmapCanMerge a b = true)
    (mergeableResult : hbitmapCanMerge a (target.bitmap a b) = true)
    (granularity : (target.bitmap a b).granularity = a.granularity) :
    (∃ turns result, hbitmapMerge turns a b target = .ok (true, result) ∧ IsUnion a b result) ↔
      (a.granularity ≠ b.granularity → (target.isA = false → RunsFit a 0) ∧ RunsFit b 0) := by
  have sameB : a.origSize = b.origSize := of_decide_eq_true mergeable
  have sameR : a.origSize = (target.bitmap a b).origSize := of_decide_eq_true mergeableResult
  have last : hbitmapCanMerge b (target.bitmap a b) = true :=
    decide_eq_true (sameB.symm.trans sameR)
  simp only [hbitmapMerge, mergeable, mergeableResult, last, Bool.not_true, Bool.or_self,
    Bool.false_eq_true, if_false]
  by_cases early : hbitmapCount a = 0 ∧ target.isB ∨ hbitmapCount b = 0 ∧ target.isA
  · -- The result is an input, and the other one is clean.
    simp only [early, if_true]
    refine iff_of_true ⟨0, _, rfl, holds.isUnion sameR.symm granularity fun item inside => ?_⟩
      fun differ => ?_
    · rcases early with ⟨none_, isB⟩ | ⟨none_, isA⟩
      · rw [or_iff_right fun ⟨other, _, _, _, here⟩ => holdsA.clean none_ other here]
        cases target with
        | b => exact granularity ▸ (holds.dirtyIn_iff (sameB ▸ inside)).symm
        | a | third => contradiction
      · rw [or_iff_left fun ⟨other, _, _, _, here⟩ => holdsB.clean none_ other here]
        cases target with
        | a => exact (holds.dirtyIn_iff inside).symm
        | b | third => contradiction
    · rcases early with ⟨_, isB⟩ | ⟨none_, isA⟩
      · cases target with
        | b => exact absurd granularity.symm differ
        | a | third => contradiction
      · exact ⟨fun other => absurd (isA.symm.trans other) nofun, fun item _ _ here =>
          absurd here (holdsB.clean none_ item)⟩
  by_cases empty : hbitmapCount a = 0 ∧ hbitmapCount b = 0
  · refine iff_of_true ⟨0,
        _, by rw [if_neg early, if_pos empty]; rfl, (hbitmapResetAll_holds holds).isUnion sameR.symm
          granularity fun item inside => ?_⟩
      fun _ => ⟨fun _ item _ _ here => absurd here (holdsA.clean empty.1 item),
        fun item _ _ here => absurd here (holdsB.clean empty.2 item)⟩
    refine iff_of_false (Finset.notMem_empty _) ?_
    rintro (⟨other, _, _, _, here⟩ | ⟨other, _, _, _, here⟩)
    · exact holdsA.clean empty.1 other here
    · exact holdsB.clean empty.2 other here
  simp only [early, empty, if_false]
  by_cases same : a.granularity = b.granularity
  · have sizeB : b.size = a.size := by rw [holdsA.groups, holdsB.groups, sameB, same]
    have size : (target.bitmap a b).size =
      a.size := by rw [holdsA.groups, holds.groups, ← sameR, granularity]
    simp only [same, sizeB, ne_eq, not_true, if_false, false_implies, iff_true]
    obtain ⟨merged, ok, frame, represents⟩ := mergeLevels_union holdsA holdsB holds sizeB size
    -- Something is dirty, so there are groups.
    have some_ : merged.size ≠ 0 := by
      rw [frame, size]
      exact fun none_ => empty ⟨holdsA.count_eq_zero none_,
        holdsB.count_eq_zero (sizeB.trans none_)⟩
    have held : Holds { merged with count := (dirtyA ∪ dirtyB).card } (dirtyA ∪ dirtyB) :=
      holds.ofShape (by rw [SameShape, frame]) (represents.withCount _) rfl
    refine ⟨0, { merged with count := (dirtyA ∪ dirtyB).card }, ?_,
      held.isUnion ?_ ?_ fun item inside => ?_⟩
    · simp only [ok, bind, Except.bind, represents.count_all some_]
      rfl
    · rw [frame, sameR]
    · rw [frame, granularity]
    · rw [Finset.mem_union, holdsA.dirtyIn_iff inside]
      exact or_congr_right (same ▸ (holdsB.dirtyIn_iff (sameB ▸ inside)).symm)
  have isB : target.isB = false := by
    cases target with
    | b => exact absurd granularity.symm same
    | a | third => rfl
  obtain ⟨start, start_eq, shape, startHolds⟩ := target.start_holds holds
  have original : start.origSize = a.origSize := by rw [shape, sameR]
  have granularity' : start.granularity = a.granularity := by rw [shape, granularity]
  simp only [same, ne_eq, not_false_iff, if_true, true_implies, start_eq, ← bind_assoc]
  have merges := fun turns =>
    sparseMerges_spec holdsA holdsB startHolds original (original.trans sameB)
      turns target.isA target.isB
  constructor
  · rintro ⟨turns, result, returned, _⟩
    rcases merges turns with ⟨stuck, _⟩ | ⟨_, _, _, fitA, fitB, _⟩
    · rw [stuck] at returned
      contradiction
    · exact ⟨fitA, fitB isB⟩
  · rintro ⟨fitA, fitB⟩
    rcases merges (start.origSize + 1) with
      ⟨_, turns⟩ | ⟨result, dirty', ok, _, _, shape', held, union⟩
    · exact absurd (turns fitA fun _ => fitB) (not_succ_le_self _)
    refine ⟨_, result, by rw [ok]; rfl, held.isUnion (by rw [shape', original])
        (by rw [shape', granularity']) fun item inside => ?_⟩
    rw [union, granularity', isB]
    simp only [true_and]
    -- What the result holds already is the first input, which is then skipped.
    refine or_congr_left ?_
    cases target with
    | a => simpa [Target.isA, Target.bitmap] using (holds.dirtyIn_iff inside).symm
    | b => contradiction
    | third => simp [Target.isA]

/-- A dirty item beyond 32 bits is never merged into another granularity. -/
theorem hbitmapMerge_stuck : ∃ a b : HBitmap .bits32, hbitmapAlloc .bits32 (2 ^ 32 + 1) 1 = some a ∧
      runFrom Update.step (hbitmapAlloc .bits32 (2 ^ 32 + 1) 0) [.set (2 ^ 32) 1] = some b ∧
      hbitmapCanMerge a b = true ∧ ∀ turns result,
          hbitmapMerge turns a b .a ≠ .ok (true, result) := by
  obtain ⟨a, allocated, granularA, holdsA⟩ :=
    hbitmapAlloc_spec (show Accepted .bits32 (2 ^ 32 + 1) 1 by decide)
  obtain ⟨b, reached⟩ := Option.isSome_iff_exists.mp
    (show (runFrom Update.step (hbitmapAlloc .bits32 (2 ^ 32 + 1) 0)
      [.set (2 ^ 32) 1]).isSome by decide +kernel)
  have factsA : ∀ a ∈ hbitmapAlloc .bits32 (2 ^ 32 + 1) 1,
    a.origSize = 2 ^ 32 + 1 := by decide +kernel
  have factsB : ∀ b ∈ runFrom Update.step (hbitmapAlloc .bits32 (2 ^ 32 + 1) 0) [.set (2 ^ 32) 1],
      (b.origSize = 2 ^ 32 + 1 ∧ b.granularity = 0 ∧ hbitmapCount b ≠ 0) ∧
        hbitmapGet b (2 ^ 32) = some true ∧ b.bit HostLong.bits32.bottom (2 ^ 32) = true ∧
            b.bit HostLong.bits32.bottom (2 ^ 32 + 1) = false := by
    decide +kernel
  have sizeA := factsA a allocated
  obtain ⟨⟨sizeB, granularB, some_⟩, dirty, isSet, clear⟩ := factsB b reached
  obtain ⟨dirtyB, holdsB⟩ := reached_holds reached
  have mergeable : hbitmapCanMerge a b = true := decide_eq_true (sizeA.trans sizeB.symm)
  refine ⟨a, b, allocated, reached, mergeable, fun turns result returned => ?_⟩
  -- The bit after the one of the item is clear, in the same word, and its number does not fit.
  have unfit : ¬ RunsFit b 0 := by
    intro fit
    have fits := fit (2 ^ 32) (Nat.zero_le _) (by omega) dirty (2 ^ 32 + 1)
    rw [granularB, sizeB] at fits
    have small := fits (by decide) (by decide) clear fun earlier lower upper => by
      obtain rfl : earlier = 2 ^ 32 := by omega
      exact isSet
    exact absurd small (by decide)
  rcases hbitmapSparseMerge_spec holdsB turns holdsA (sizeA.trans sizeB.symm) 0 with
    ⟨stuck, _⟩ | ⟨_, _, _, fit, _⟩
  · have differ : ¬ a.granularity = b.granularity := by
      rw [granularA, granularB]
      decide
    change hbitmapSparseMerge b turns 0 a = .error .stuck at stuck
    have itself : hbitmapCanMerge a a = true := decide_eq_true rfl
    have other : hbitmapCanMerge b a = true := decide_eq_true (sizeB.trans sizeA.symm)
    simp [hbitmapMerge, Target.bitmap, Target.isA, Target.isB, mergeable, itself, other, some_,
      differ, sparseMergeOther, stuck, bind, Except.bind] at returned
  · exact unfit fit

/-- Two different bitmaps merged into the first give their union. -/
theorem hbitmapMerge_union_iff_two : ∃ a b : HBitmap .bits64,
    runFrom Update.step (hbitmapAlloc .bits64 65 0) [.set 64 1] = some a ∧
      runFrom Update.step (hbitmapAlloc .bits64 65 0) [.set 3 2] = some b ∧
      ∃ turns result, hbitmapMerge turns a b .a = .ok (true, result) ∧ IsUnion a b result := by
  obtain ⟨a, reached⟩ := exists_reached
  obtain ⟨b, reached'⟩ := exists_reached_low
  obtain ⟨members, holds⟩ := reached_holds reached
  obtain ⟨members', holds'⟩ := reached_holds reached'
  obtain ⟨mergeable, granularity, -⟩ := samples_alike a reached b reached'
  exact ⟨a, b, reached, reached', (hbitmapMerge_union_iff .a holds holds' holds mergeable
    (decide_eq_true rfl) rfl).mpr fun differ => absurd granularity differ⟩

end Qemu.Util
