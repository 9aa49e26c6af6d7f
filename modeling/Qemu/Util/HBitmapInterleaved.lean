import Qemu.Util.HBitmapRuns

/-! Iteration over a bitmap that changes in between. -/

namespace Qemu.Util

open WordBits Pyramid GuardedRun List Nat Option

variable {host : HostLong} {hb hb' : HBitmap host} {hbi hbi' : HBitmapIter host}
    {members alive : Finset Nat}

/-- A call in an iteration: the bitmap, and the item of `hbitmap_iter_next`. -/
structure Seen (host : HostLong) where
  hb : HBitmap host
  returned : Option Int

/-- What the calls so far have seen and left; `hbitmap_set` and `hbitmap_reset` may come between any
two calls of `hbitmap_iter_next`, as long as they return. -/
inductive Interleaved (hb₀ : HBitmap host) (hbi₀ : HBitmapIter host) :
    List (Seen host) → HBitmap host → HBitmapIter host → Prop where
  | start : Interleaved hb₀ hbi₀ [] hb₀ hbi₀
  | next {seen : List (Seen host)} {hb : HBitmap host} {hbi hbi' : HBitmapIter host} {item : Int}
      (before : Interleaved hb₀ hbi₀ seen hb hbi)
        (returned : hbitmapIterNext hb hbi = some (item, hbi')) :
      Interleaved hb₀ hbi₀ (seen ++ [⟨hb, some item⟩]) hb hbi'
  | set {seen : List (Seen host)} {hb hb' : HBitmap host}
      {hbi : HBitmapIter host} {start count : UInt64} (before : Interleaved hb₀ hbi₀ seen hb hbi)
        (returned : hbitmapSet hb start.toNat count.toNat = some hb') :
      Interleaved hb₀ hbi₀ (seen ++ [⟨hb, none⟩]) hb' hbi
  | reset {seen : List (Seen host)} {hb hb' : HBitmap host}
      {hbi : HBitmapIter host} {start count : UInt64} (before : Interleaved hb₀ hbi₀ seen hb hbi)
        (returned : hbitmapReset hb start.toNat count.toNat = some hb') :
      Interleaved hb₀ hbi₀ (seen ++ [⟨hb, none⟩]) hb' hbi

/-- The item of a call; `hbitmap_iter_next` marks the end with minus one. -/
def Seen.item? (call : Seen host) : Option Int := call.returned.filter (· ≠ -1)

/-- An item was set in the bitmap that a call found. -/
def Seen.Finds (call : Seen host) (item : Nat) : Prop := hbitmapGet call.hb item = some true

/-- `hbitmap_iter_next` passed an item: it returned a later one, or the end. -/
def Seen.Passes (call : Seen host) (item : Nat) : Prop :=
  ∃ returned, call.returned = some returned ∧ (returned = -1 ∨ (item : Int) < returned)

/-- What an iteration from a group on promises about the calls that were made. -/
structure Faithful (granularity first : Nat) (seen : List (Seen host)) : Prop where
  /-- Items are returned in order, and none twice. -/
  increasing : (seen.filterMap Seen.item?).Pairwise (· < ·)
  /-- An item that is returned is the first of a group, which is set at that moment. -/
  live : ∀ call ∈ seen, ∀ item ∈ call.item?, ∃ group ≥ first,
    item = ((group * 2 ^ granularity : Nat) : Int) ∧ call.Finds (group * 2 ^ granularity)
  /-- A group that is set from the start until it is passed was returned. -/
  complete : ∀ before call after, seen = before ++ call :: after → ∀ group ≥ first,
    call.Passes (group * 2 ^ granularity) →
    (∀ other ∈ before ++ [call], other.Finds (group * 2 ^ granularity)) →
    ∃ other ∈ before, other.returned = some ((group * 2 ^ granularity : Nat) : Int)

variable {seen : List (Seen host)} {granularity first frontier : Nat}

/-- How far an iteration is: the groups that stayed set, and the first still to come. -/
structure Progress (granularity first : Nat) (seen : List (Seen host))
    (hb : HBitmap host) (hbi : HBitmapIter host)
    (members alive : Finset Nat) (frontier : Nat) : Prop where
  holds : Holds hb members
  granular : hb.granularity = granularity
  fits : IterFits hb hbi alive frontier
  subset : alive ⊆ members
  onwards : first ≤ frontier
  stays : ∀ group ∈ members, (∀ call ∈ seen, call.Finds (group * 2 ^ granularity)) → group ∈ alive
  done : ∀ group ∈ alive, first ≤ group → group < frontier →
    ∃ call ∈ seen, call.returned = some ((group * 2 ^ granularity : Nat) : Int)
  below : ∀ item ∈ seen.filterMap Seen.item?, item < ((frontier * 2 ^ granularity : Nat) : Int)

theorem Holds.get_iff (holds : Holds hb members) {group} :
    hbitmapGet hb (group * 2 ^ hb.granularity) = some true ↔ group ∈ members := by
  have index : (group * 2 ^ hb.granularity) >>> hb.granularity = group := by
    rw [Nat.shiftRight_eq_div_pow, Nat.mul_div_cancel _ (Nat.two_pow_pos _)]
  by_cases within : group < hb.size
  · rw [hbitmapGet_spec holds.toRepresents (by rw [index]; exact within), index,
      Option.some.injEq, decide_eq_true_eq]
  -- Beyond the size, the assertion of the function fails, and no group is in the set.
  have fails : hbitmapGet hb (group * 2 ^ hb.granularity) = none := by
    rw [hbitmapGet, index, if_pos within]
  rw [fails]
  simp only [reduceCtorEq, false_iff]
  exact fun mem => within (holds.within group mem)

theorem IterFits.ofShape (fits : IterFits hb hbi alive frontier) (shape : SameShape hb hb') :
    IterFits hb' hbi alive frontier := by
  refine ⟨?_, ?_, fits.upper, fits.start, fits.stop, fits.later, fits.keeps⟩
  · rw [shape]
    exact fits.granularity
  · rw [shape]
    exact fits.inside

theorem Progress.alive_of_found
    (progress : Progress granularity first seen hb hbi members alive frontier) {group ret}
    (found : ∀ call ∈ seen ++ [⟨hb, ret⟩], call.Finds (group * 2 ^ granularity)) :
    group ∈ alive := by
  refine progress.stays group ?_ fun call known => found call (mem_append_left _ known)
  have now := found ⟨hb, ret⟩ (mem_append_right _ (mem_singleton_self _))
  rw [Seen.Finds, ← progress.granular] at now
  exact progress.holds.get_iff.mp now

/-- A change between two calls takes groups from the promise, never adds one. -/
theorem Progress.update (progress : Progress granularity first seen hb hbi members alive frontier)
    {update : Update} (res : update.apply hb = some hb')
    (ranged : ∀ size, update ≠ .truncate size) :
    ∃ members', Progress granularity first (seen ++ [⟨hb, none⟩]) hb' hbi members'
        (alive ∩ members') frontier := by
  obtain ⟨asserted, ordered⟩ := Update.of_returns res
  obtain ⟨hb'', members', result', holds', same, shape, _⟩ :=
    Update.apply_holds progress.holds asserted ordered
  obtain rfl : hb'' = hb' := Option.some.inj (result'.symm.trans res)
  refine ⟨members', holds', same.trans progress.granular,
    (progress.fits.mono Finset.inter_subset_left).ofShape (shape ranged),
    Finset.inter_subset_right, progress.onwards, ?_, ?_, ?_⟩
  · intro group mem found
    exact Finset.mem_inter.mpr ⟨progress.alive_of_found found, mem⟩
  · intro group mem lower upper
    obtain ⟨call, known, ret⟩ := progress.done group (Finset.mem_inter.mp mem).1 lower upper
    exact ⟨call, mem_append_left _ known, ret⟩
  · -- An update returns no item.
    intro item known
    simp only [filterMap_append, filterMap_cons, Seen.item?, filter_none,
      filterMap_nil, append_nil] at known
    exact progress.below item known

/-- A further call keeps what is promised, if it keeps it for itself. -/
theorem Faithful.snoc (faithful : Faithful granularity first seen) {call}
    (later : ∀ item ∈ call.item?, ∀ earlier ∈ seen.filterMap Seen.item?, earlier < item)
    (live : ∀ item ∈ call.item?, ∃ group ≥ first,
      item = ((group * 2 ^ granularity : Nat) : Int) ∧ call.Finds (group * 2 ^ granularity))
    (complete : ∀ group ≥ first, call.Passes (group * 2 ^ granularity) →
      (∀ other ∈ seen ++ [call], other.Finds (group * 2 ^ granularity)) →
      ∃ other ∈ seen, other.returned = some ((group * 2 ^ granularity : Nat) : Int)) :
    Faithful granularity first (seen ++ [call]) where
  increasing := by
    rw [filterMap_append, pairwise_append]
    refine ⟨faithful.increasing, ?_, fun earlier known item new => ?_⟩
    · cases ret : call.item? <;> simp [ret]
    · exact later item (by simpa using new) earlier known
  live := by
    intro other known
    rcases mem_append.mp known with known | new
    · exact faithful.live other known
    · obtain rfl := mem_singleton.mp new
      exact live
  complete := by
    intro before other after split group lower passes found
    have snoc_split : before = seen ∧ other = call ∨
        ∃ after', seen = before ++ other :: after' := by
      rcases eq_nil_or_concat after with rfl | ⟨after, other, rfl⟩
      · obtain ⟨same, ends⟩ := append_inj' split rfl
        exact .inl ⟨same.symm, (List.cons.inj ends).1.symm⟩
      · rw [concat_eq_append, ← List.cons_append, ← List.append_assoc] at split
        exact .inr ⟨after, (append_inj' split rfl).1⟩
    rcases snoc_split with ⟨rfl, rfl⟩ | ⟨after', split⟩
    · exact complete group lower passes found
    · exact faithful.complete before other after' split group lower passes found

theorem Faithful.update (faithful : Faithful granularity first seen) :
    Faithful granularity first (seen ++ [⟨hb, none⟩]) := by
  refine faithful.snoc (fun item ret => ?_) (fun item ret => ?_) fun group _ passes => ?_
  · simp [Seen.item?] at ret
  · simp [Seen.item?] at ret
  · obtain ⟨_, ret, _⟩ := passes
    contradiction

section

variable (progress : Progress granularity first seen hb hbi members alive frontier)
  (faithful : Faithful granularity first seen)

include progress faithful

/-- When nothing is left to come, the iteration was faithful. -/
theorem Progress.finish (spent : ∀ group ∈ alive, ¬ frontier ≤ group) :
    Progress granularity first (seen ++ [⟨hb, some (-1)⟩]) hb hbi members alive frontier ∧
      Faithful granularity first (seen ++ [⟨hb, some (-1)⟩]) := by
  have noItem : (⟨hb, some (-1)⟩ : Seen host).item? = none := rfl
  refine ⟨⟨progress.holds, progress.granular, progress.fits, progress.subset,
    progress.onwards, ?_, ?_, ?_⟩,
    faithful.snoc (fun item ret => ?_) (fun item ret => ?_) fun group lower _ found => ?_⟩
  · exact fun group mem found => progress.stays group mem fun call known =>
      found call (mem_append_left _ known)
  · intro group mem lower upper
    obtain ⟨call, known, ret⟩ := progress.done group mem lower upper
    exact ⟨call, mem_append_left _ known, ret⟩
  · intro item known
    simp only [filterMap_append, filterMap_cons, noItem, filterMap_nil, append_nil] at known
    exact progress.below item known
  · rw [noItem] at ret
    contradiction
  · rw [noItem] at ret
    contradiction
  · have mem := progress.alive_of_found found
    exact progress.done group mem lower (Nat.lt_of_not_le (spent group mem))

/-- The next set group, with none that stayed set before it. -/
theorem Progress.advance {group : Nat} (mem : group ∈ members) (reached : frontier ≤ group)
    (fits : IterFits hb hbi' alive (group + 1))
    (least : ∀ other ∈ alive, frontier ≤ other → group ≤ other) :
    Progress granularity first (seen ++ [⟨hb, some ((group * 2 ^ granularity : Nat) : Int)⟩]) hb
      hbi' members alive (group + 1) ∧ Faithful granularity first (seen ++
          [⟨hb, some ((group * 2 ^ granularity : Nat) : Int)⟩]) := by
  have pos := Nat.two_pow_pos granularity
  have item : (⟨hb, some ((group * 2 ^ granularity : Nat) : Int)⟩ : Seen host).item? =
      some ((group * 2 ^ granularity : Nat) : Int) := by
    rw [Seen.item?, filter_some, if_pos]
    exact decide_eq_true (by omega)
  refine ⟨⟨progress.holds, progress.granular, fits, progress.subset,
    le_succ_of_le (le_trans progress.onwards reached),
    ?_, ?_, ?_⟩, faithful.snoc (fun ret new earlier known => ?_) (fun ret new => ?_)
      fun other lower passes found => ?_⟩
  · exact fun group mem found => progress.stays group mem fun call known =>
      found call (mem_append_left _ known)
  · intro other otherMember lower upper
    by_cases before : other < frontier
    · obtain ⟨call, known, ret⟩ := progress.done other otherMember lower before
      exact ⟨call, mem_append_left _ known, ret⟩
    · -- From the frontier on, the only one that is not after the group is the group.
      have := least other otherMember (Nat.le_of_not_lt before)
      obtain rfl : other = group := by omega
      exact ⟨_, mem_append_right _ (mem_singleton_self _), rfl⟩
  · intro ret known
    rw [filterMap_append, mem_append] at known
    have larger : frontier * 2 ^ granularity ≤ (group + 1) * 2 ^ granularity :=
      mul_le_mul_right _ (by omega)
    have next : (group + 1) * 2 ^ granularity = group * 2 ^ granularity + 2 ^ granularity :=
      succ_mul _ _
    rcases known with known | new
    · have := progress.below ret known
      omega
    · simp only [filterMap_cons, item, filterMap_nil, mem_singleton] at new
      omega
  · rw [item, mem_some_iff] at new
    have := progress.below earlier known
    have := mul_le_mul_right (2 ^ granularity) reached
    omega
  · rw [item, mem_some_iff] at new
    refine ⟨group, le_trans progress.onwards reached, new.symm, ?_⟩
    rw [Seen.Finds, ← progress.granular]
    exact progress.holds.get_iff.mpr mem
  · obtain ⟨ret, same, isEnd | smaller⟩ := passes
    · rw [isEnd, Option.some.injEq] at same
      omega
    cases same
    have smaller : other < group := Nat.lt_of_mul_lt_mul_right (Int.ofNat_lt.mp smaller)
    have otherMember := progress.alive_of_found found
    refine progress.done other otherMember lower (Nat.lt_of_not_le fun reached => ?_)
    have := least other otherMember reached
    omega

end

variable {hb₀ : HBitmap host} {hbi₀ : HBitmapIter host}

/-- Progress and what is promised hold along every interleaving. -/
theorem Interleaved.progress (initial : Progress granularity first [] hb₀
    hbi₀ members members first) (run : Interleaved hb₀ hbi₀ seen hb hbi) :
    (∃ members alive frontier, Progress granularity first seen hb hbi members alive frontier) ∧
      Faithful granularity first seen := by
  induction run with
  | start => exact ⟨⟨members, members, first, initial⟩, List.Pairwise.nil, by simp, by simp⟩
  | @next seen hb hbi hbi' item before ret ih =>
    obtain ⟨⟨members, alive, frontier, progress⟩, faithful⟩ := ih
    rcases hbitmapIterNext_spec progress.holds.toRepresents progress.holds.room
        progress.subset progress.fits with
      ⟨res, spent⟩ | ⟨group, mem, hbi'', res, reached, fits, least⟩
    · -- The iterator is at its end.
      obtain ⟨rfl, rfl⟩ := Prod.mk.inj (Option.some.inj (ret.symm.trans res))
      obtain ⟨progress, faithful⟩ := progress.finish faithful spent
      exact ⟨⟨members, alive, frontier, progress⟩, faithful⟩
    · obtain ⟨rfl, rfl⟩ := Prod.mk.inj (Option.some.inj (ret.symm.trans res))
      rw [progress.granular]
      obtain ⟨progress, faithful⟩ := progress.advance faithful mem reached fits least
      exact ⟨⟨members, alive, group + 1, progress⟩, faithful⟩
  | @set seen hb hb' hbi start count before ret ih =>
    obtain ⟨⟨members, alive, frontier, progress⟩, faithful⟩ := ih
    obtain ⟨members', progress⟩ :=
      @Progress.update host hb hb' hbi members alive seen granularity first frontier progress
      (.set start count) ret (by simp)
    exact ⟨⟨members', _, frontier, progress⟩, faithful.update⟩
  | @reset seen hb hb' hbi start count before ret ih =>
    obtain ⟨⟨members, alive, frontier, progress⟩, faithful⟩ := ih
    obtain ⟨members', progress⟩ :=
      @Progress.update host hb hb' hbi members alive seen granularity first frontier progress
      (.reset start count) ret (by simp)
    exact ⟨⟨members', _, frontier, progress⟩, faithful.update⟩

/-- Iteration over a bitmap that changes: from any reachable bitmap and any item in it, however
calls and updates alternate, the items are promised ones and the next call returns. -/
theorem hbitmapIter_interleaved {size : Nat} {granularity : Int}
    {updates : List Update} {item : Nat}
    (reached : runFrom Update.step (hbitmapAlloc host size granularity) updates = some hb₀)
    (within : item >>> hb₀.granularity < hb₀.size) :
    ∃ hbi₀, hbitmapIterInit hb₀ item = some hbi₀ ∧ ∀ seen hb hbi, Interleaved hb₀ hbi₀ seen hb hbi →
      Faithful hb₀.granularity (item / 2 ^ hb₀.granularity) seen ∧
          (hbitmapIterNext hb hbi).isSome := by
  obtain ⟨members, holds⟩ := reached_holds reached
  obtain ⟨hbi₀, started, fits, _⟩ := hbitmapIterInit_spec holds.toRepresents within
  rw [Nat.shiftRight_eq_div_pow] at fits
  refine ⟨hbi₀, started, fun seen hb hbi run => ?_⟩
  obtain ⟨⟨members', alive, frontier, progress⟩, faithful⟩ := run.progress
    ⟨holds, rfl, fits, Finset.Subset.refl _, le_rfl, fun _ member _ => member,
      fun _ _ lower upper => absurd lower (Nat.not_le_of_lt upper), fun _ none_ => by simp at none_⟩
  refine ⟨faithful, ?_⟩
  rcases hbitmapIterNext_spec progress.holds.toRepresents progress.holds.room
      progress.subset progress.fits with
    ⟨result, _⟩ | ⟨_, _, _, result, _⟩
  · rw [result]
    rfl
  · rw [result]
    rfl

/-- An iteration from the second group on, after a run of updates. -/
theorem hbitmapIter_interleaved_sample :
    ∃ hb₀, runFrom Update.step (hbitmapAlloc .bits64 100 3) sampleUpdates = some hb₀ ∧
      9 >>> hb₀.granularity < hb₀.size ∧
      ∃ hbi₀, hbitmapIterInit hb₀ 9 = some hbi₀ ∧ ∀ seen hb hbi, Interleaved hb₀ hbi₀ seen hb hbi →
        Faithful hb₀.granularity (9 / 2 ^ hb₀.granularity) seen ∧
            (hbitmapIterNext hb hbi).isSome := by
  have returns : (runFrom Update.step (hbitmapAlloc .bits64 100 3) sampleUpdates).isSome :=
    by decide +kernel
  obtain ⟨hb₀, reached⟩ := Option.isSome_iff_exists.mp returns
  have within : ∀ hb ∈ runFrom Update.step (hbitmapAlloc .bits64 100 3) sampleUpdates,
      9 >>> hb.granularity < hb.size := by decide +kernel
  exact ⟨hb₀, reached, within hb₀ reached, hbitmapIter_interleaved reached (within hb₀ reached)⟩

end Qemu.Util
