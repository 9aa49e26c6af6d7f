import Qemu.Qcow2.RefcountAtomic

/-! The recursion of `update_refcount` and `alloc_refcount_block` ends, and a deeper one ends alike.
-/

namespace Qemu.Qcow2

open Option Nat Outcome

variable {g : Geometry} {s s' : State} {tryNew0 : Nat → Bool} {update : Update}

section Deeper

def Approximates {α : Type} (outcome deeper : Outcome α) : Prop :=
  ∀ result, outcome = some result → deeper = some result

theorem Approximates.refl {α : Type} (outcome : Outcome α) : Approximates outcome outcome :=
  fun _ => id

/-- A function that changes refcounts with more recursion. -/
def UpdateApproximates (update deeper : Update) : Prop :=
  ∀ s offset length addend decrease, Approximates (update s offset length addend decrease)
    (deeper s offset length addend decrease)

theorem Approximates.andThen {α β : Type} {outcome deeper : Outcome α}
    {next next' : α → State → Outcome β} (first : Approximates outcome deeper)
    (second : ∀ value s, Approximates (next value s) (next' value s)) :
    Approximates (outcome.andThen next) (deeper.andThen next') := by
  rintro ⟨ret, s'⟩ res
  rcases andThen_eq_some res with ⟨errno, failed, rfl⟩ | ⟨value, t, ended, res⟩
  · rw [first _ failed]
    rfl
  · rw [first _ ended]
    exact second value t _ res

theorem Approximates.ite {α : Type} {condition : Prop} [Decidable condition]
    {yes yes' no no' : Outcome α} (ifYes : Approximates yes yes') (ifNo : Approximates no no') :
    Approximates (if condition then yes else no) (if condition then yes' else no') := by
  split
  · exact ifYes
  · exact ifNo

variable {deeper : Update} (approximates : UpdateApproximates update deeper)

include approximates

/-- A deeper update gives the same answer where one was given. -/
theorem qcow2RefcountArea_approximates
    (s startOffset additionalClusters exactSize newRefblockIndex newRefblockOffset) : Approximates
      (qcow2RefcountArea g tryNew0 update s startOffset additionalClusters exactSize
        newRefblockIndex newRefblockOffset)
      (qcow2RefcountArea g tryNew0 deeper s startOffset additionalClusters exactSize
          newRefblockIndex newRefblockOffset) := by
  unfold qcow2RefcountArea
  refine .ite (.refl _) ?_
  split
  · exact .refl _
  refine .ite (.refl _) (.ite (.refl _) (.ite (.refl _) (.ite (.refl _) (.ite (.refl _) ?_))))
  dsimp only
  split
  · exact .refl _
  refine .ite (.refl _) fun outcome res => ?_
  -- Only the old table is freed by recursion.
  split at res
  · contradiction
  · rename_i freed
    rw [approximates _ _ _ _ _ _ freed]
    exact res

theorem allocRefcountBlock_approximates (s clusterIndex) :
    Approximates (allocRefcountBlock g tryNew0 update s clusterIndex)
      (allocRefcountBlock g tryNew0 deeper s clusterIndex) := by
  unfold allocRefcountBlock
  dsimp only
  split
  · exact .refl _
  refine (Approximates.refl _).andThen fun newBlock s => .ite (.refl _) (.andThen ?_ fun _ s => ?_)
  · exact .ite (.refl _) ((approximates _ _ _ _ _).andThen fun _ _ => .refl _)
  · exact .ite (.refl _) ((qcow2RefcountArea_approximates approximates _ _ _ _ _ _).andThen
      fun _ _ => .refl _)

/-- The loop's answer does not depend on spare depth. -/
theorem updateClusters_approximates {offset : Nat} {addend : BitVec 64}
    {decrease : Bool} (left clusterIndex)
    (loaded : Option (Nat × Nat)) (s) (result : Except (Errno × Nat) Unit × State)
    (ended : updateClusters g (allocRefcountBlock g tryNew0 update) offset addend decrease
      left clusterIndex loaded s = some result) :
    updateClusters g (allocRefcountBlock g tryNew0 deeper) offset addend decrease
      left clusterIndex loaded s = some result := by
  induction left generalizing clusterIndex loaded s with
  | zero => exact ended
  | succ left ih =>
    -- Only the allocation of a block depends on the depth.
    have found :
      Approximates (loadBlock g (allocRefcountBlock g tryNew0 update) loaded clusterIndex s)
        (loadBlock g (allocRefcountBlock g tryNew0 deeper) loaded clusterIndex s) := by
      rcases loaded with - | ⟨index, block⟩
      · exact allocRefcountBlock_approximates approximates s clusterIndex
      · exact .ite (.refl _) (allocRefcountBlock_approximates approximates s clusterIndex)
    rw [updateClusters] at ended ⊢
    rcases eq : loadBlock g (allocRefcountBlock g tryNew0 update) loaded clusterIndex
      s with - | ⟨errno | block, t⟩
    · rw [eq] at ended
      contradiction
    · rw [eq] at ended
      rw [found _ eq]
      exact ended
    rw [eq] at ended
    rw [found _ eq]
    dsimp only at ended ⊢
    split at ended
    · rename_i no
      rw [if_pos no]
      exact ended
    · rename_i yes
      rw [if_neg yes]
      exact ih _ _ _ ended

omit approximates in
theorem updateRefcount_approximates_succ (g) (tryNew0 : Nat → Bool) (depth) :
    UpdateApproximates (updateRefcount g tryNew0 depth) (updateRefcount g tryNew0 (depth + 1)) := by
  induction depth with
  | zero => exact fun _ _ _ _ _ _ none => by contradiction
  | succ depth ih =>
    intro s offset length addend decrease
    rw [updateRefcount, updateRefcount]
    refine .ite (.refl _) (.ite (.refl _) fun outcome ended => ?_)
    dsimp only at ended ⊢
    rcases loop : updateClusters g (allocRefcountBlock g tryNew0 (updateRefcount g tryNew0 depth))
      offset addend decrease
      ((offset + length.toNat - 1) / g.clusterSize - offset / g.clusterSize + 1)
          (offset / g.clusterSize) none s with
      - | ⟨⟨errno, cluster⟩ | _, t⟩
    · rw [loop] at ended
      contradiction
    · rw [loop] at ended
      rw [updateClusters_approximates ih _ _ _ _ _ loop]
      dsimp only at ended ⊢
      -- The undo after a failure recurses as well.
      rcases undo : updateRefcount g tryNew0 depth t offset
          (cluster * g.clusterSize - offset) addend (!decrease) with
        - | ⟨ret, undone⟩
      · rw [undo] at ended
        contradiction
      · rw [undo] at ended
        rw [ih _ _ _ _ _ _ undo]
        exact ended
    · rw [loop] at ended
      rw [updateClusters_approximates ih _ _ _ _ _ loop]
      exact ended

omit approximates in
theorem updateRefcount_approximates (g) (tryNew0 : Nat → Bool)
    {depth deeper} (le : depth ≤ deeper) :
    UpdateApproximates (updateRefcount g tryNew0 depth) (updateRefcount g tryNew0 deeper) := by
  induction deeper, le using le_induction with
  | base => exact fun _ _ _ _ _ _ => id
  | succ deeper _ ih => exact fun _ _ _ _ _ _ ended =>
      updateRefcount_approximates_succ _ _ _ _ _ _ _ _ _ (ih _ _ _ _ _ _ ended)

end Deeper

theorem freeing_ends (tryNew0 : Nat → Bool) (depth) {offset length indices} (pos : 0 < length)
    (readable : Readable g s) (safe : DiscardSafe s offset indices)
    (all : ∀ c, firstCluster g offset ≤ c → c < stopCluster g offset length →
      (indices (c / g.refcountBlockSize) ∧ c / g.refcountBlockSize < 2 ^ 32) ∧
        s.lookup (c / g.refcountBlockSize) ≠ none ∧ CanChange g 1#64 true (refcount g s c)) :
    updateRefcount g tryNew0 (depth + 1) s offset length 1#64 true ≠ none := by
  obtain ⟨s', res, _⟩ := updateRefcount_exact tryNew0 depth pos readable safe
    (fun c above below => (all c above below).1) (fun c above below => (all c above below).2.1)
    (fun c above below => (all c above below).2.2)
  rw [res]
  exact some_ne_none _

/-- Entering a block ends one level down. -/
theorem enterBlock_ne_none {C N u} (tryNew0 : Nat → Bool) (depth) (sound : Sound g s)
    (desc : Described g s (C / g.refcountBlockSize) N u)
    (free : refcount g s N = 0) (nonzero : N ≠ 0) :
    enterBlock g tryNew0 (updateRefcount g tryNew0 (depth + 1)) u C (C / g.refcountBlockSize)
        (N * g.clusterSize) ≠ none := by
  rw [enterBlock, Nat.mul_div_cancel _ g.clusterSize_pos]
  split
  · exact some_ne_none _
  rename_i large
  rw [desc.table.refcountTableSize] at large
  obtain ⟨indexLt, clusterLt⟩ := lt_blocksUsed g C N
  rcases qcow2RefcountArea_cases tryNew0 (updateRefcount g tryNew0 (depth + 1))
    sound desc (not_lt.mp large)
      indexLt clusterLt nonzero with ⟨_, other, area⟩ | ⟨total, tables, t,
        stop, plan, switched, area⟩
  · simp only [area, andThen, ne_eq, reduceCtorEq, not_false_eq_true]
  have larger := switched.larger plan sound free nonzero
  obtain ⟨safe, freeable⟩ := switched.freeable plan sound desc larger
  have pos : 0 < s.refcountTableSize * 8 := by
    have := sound.maxIndex_lt
    omega
  have ends := freeing_ends tryNew0 depth pos (larger.readable sound) safe
    fun c above below => freeable c ((sound.toLaid.tableAt_iff c).mpr ⟨above, below⟩)
  push_cast at ends
  obtain ⟨⟨ret, freed⟩, updated⟩ := ne_none_iff_exists'.mp ends
  simp only [area, updated, andThen, ne_eq, reduceCtorEq, not_false_eq_true]

/-- The creation of a missing block ends, if counting it elsewhere does. -/
theorem allocRefcountBlock_ne_none {depth C} (sound : Sound g s)
    (missing : s.lookup (C / g.refcountBlockSize) = none) (fits : C / g.refcountBlockSize < 2 ^ 32)
    (bound : max s.freeClusterIndex (s.refcountTableSize * g.refcountBlockSize) + (depth + 2) ≤
      2 ^ 32 * g.refcountBlockSize)
    (counts : ∀ N, s.freeClusterIndex ≤ N →
      N ≤ max s.freeClusterIndex (s.refcountTableSize * g.refcountBlockSize) →
      refcount g s N = 0 → (∀ c, s.freeClusterIndex ≤ c → c < N → refcount g s c ≠ 0) →
      N / g.refcountBlockSize ≠ C / g.refcountBlockSize →
      updateRefcount g tryNew0 (depth + 1) { s with
        freeClusterIndex := N + 1 } (N * g.clusterSize) g.clusterSize 1#64 false ≠ none) :
    allocRefcountBlock g tryNew0 (updateRefcount g tryNew0 (depth + 1)) s C ≠ none := by
  simp only [allocRefcountBlock, mod_eq_of_lt fits, missing]
  obtain ⟨⟨ret, t⟩, taken⟩ :=
    ne_none_iff_exists'.mp (allocClustersNoref_ne_none sound.toReadable g.clusterSize int64Max)
  obtain ⟨N, rfl, ⟨above, small⟩, unused, earlier, rfl | rfl⟩ :=
    allocClustersNoref_one sound.toReadable taken
  · simp [taken, andThen, reduceCtorEq]
  simp only [taken, andThen]
  split
  · exact some_ne_none _
  rename_i nonzero
  have pos : N ≠ 0 := by
    rintro rfl
    exact nonzero (zero_mul _)
  have limit : N ≤ max s.freeClusterIndex (s.refcountTableSize * g.refcountBlockSize) := small
  -- Counting the new block in another block takes one level more.
  have ends : describeBlock g (updateRefcount g tryNew0 (depth + 1))
    { s with freeClusterIndex := N + 1 } C (N * g.clusterSize) ≠ none := by
    rw [describeBlock]
    split
    · exact some_ne_none _
    rename_i elsewhere
    rw [inSameRefcountBlock_iff] at elsewhere
    obtain ⟨⟨errno | _, v⟩, updated⟩ :=
      ne_none_iff_exists'.mp (counts N above limit unused earlier elsewhere)
    all_goals
      simp [updated, andThen, reduceCtorEq]
  obtain ⟨⟨errno | _, u⟩, desc⟩ := ne_none_iff_exists'.mp ends
  · simp [desc, reduceCtorEq]
  · simp only [desc]
    have describes := describeBlock_ok (countLaw g tryNew0 (depth + 1)) sound unused (by omega) desc
    exact enterBlock_ne_none tryNew0 depth sound describes unused pos

variable {offset length : Nat} {addend : BitVec 64} {decrease : Bool}

/-- `update_refcount` ends, if the creation of a missing block ends. -/
theorem updateRefcount_ne_none {depth} (sound : Sound g s)
    (request : Request g s offset length addend decrease)
    (bound : max s.freeClusterIndex (s.refcountTableSize * g.refcountBlockSize) + (depth + 2) ≤
      2 ^ 32 * g.refcountBlockSize)
    (ends : ∀ stop mid, firstCluster g offset ≤ stop → stop < stopCluster g offset length →
      ChangedRange g s offset (fun _ => True) addend decrease (firstCluster g offset) stop mid →
      mid.lookup (stop / g.refcountBlockSize) = none →
      allocRefcountBlock g tryNew0 (updateRefcount g tryNew0 (depth + 1)) mid stop ≠ none) :
    updateRefcount g tryNew0 (depth + 2) s offset length addend decrease ≠ none := by
  have lt : firstCluster g offset < stopCluster g offset length :=
    firstCluster_lt_stopCluster request.positive
  have count : firstCluster g offset + (stopCluster g offset length - firstCluster g offset) =
    stopCluster g offset length := by omega
  have absent := request.lookup_ne sound.toReadable
  have safe : DiscardSafe s offset fun _ => True := fun i found => absurd found (absent i)
  have loopEnds : updateClusters g
    (allocRefcountBlock g tryNew0 (updateRefcount g tryNew0 (depth + 1))) offset addend
      decrease (stopCluster g offset length - firstCluster g offset)
        (firstCluster g offset) none s ≠ none :=
    updateClusters_ne_none sound.toReadable (fun _ _ none => by contradiction) safe
      (fun c above below => ⟨trivial, request.fits c above (count ▸ below)⟩)
      fun stop mid above below => ends stop mid above (count ▸ below)
  obtain ⟨⟨ended, after⟩, loop⟩ := ne_none_iff_exists'.mp loopEnds
  rw [updateRefcount_pos _ _ _ request.positive, loop]
  rcases updateClusters_undo depth (countLaw g tryNew0 (depth + 1))
    (freeLaw g tryNew0 (depth + 1)) sound request bound loop
    with ⟨rfl, _⟩ | ⟨errno, stop, leak, ret, undone, rfl, undo, _⟩
  · exact some_ne_none _
  · simp [undo]

/-- Counting one cluster ends, if the creation of its block ends. -/
theorem counting_ends {depth N} (sound : Sound g s) (unused : refcount g s N = 0)
    (hint : s.freeClusterIndex = N + 1)
    (bound : max s.freeClusterIndex (s.refcountTableSize * g.refcountBlockSize) + (depth + 2) ≤
      2 ^ 32 * g.refcountBlockSize)
    (ends : ∀ mid, Sound g mid → SameTable s mid → (∀ c, refcount g mid c = refcount g s c) →
      mid.freeClusterIndex = N + 1 → mid.lookup (N / g.refcountBlockSize) = none →
      allocRefcountBlock g tryNew0 (updateRefcount g tryNew0 (depth + 1)) mid N ≠ none) :
    updateRefcount g tryNew0 (depth + 2) s (N * g.clusterSize) g.clusterSize 1#64 false ≠ none := by
  have request := request_one sound unused (by omega)
  refine updateRefcount_ne_none sound request bound fun stop mid above below range missing => ?_
  rw [firstCluster_mul] at above range
  rw [stopCluster_mul] at below
  obtain rfl : stop = N := by omega
  have counts (c : Nat) : refcount g mid c =
    refcount g s c := by rw [range.refcount, if_neg (by omega)]
  exact ends mid (range.sound sound fun c above below => by omega) range.table counts
    ((range.hint_eq rfl (by decide)).trans hint) missing

/-- Counting a cluster that has a block, or that one of the same block follows. -/
theorem counting_ends_near {N} (tryNew0 : Nat → Bool) (depth) (sound : Sound g s)
    (unused : refcount g s N = 0) (hint : s.freeClusterIndex = N + 1)
    (bound : max s.freeClusterIndex (s.refcountTableSize * g.refcountBlockSize) + (depth + 2) ≤
      2 ^ 32 * g.refcountBlockSize)
    (near : s.lookup (N / g.refcountBlockSize) = none →
      (N + 1) / g.refcountBlockSize = N / g.refcountBlockSize) :
    updateRefcount g tryNew0 (depth + 2) s (N * g.clusterSize) g.clusterSize 1#64 false ≠ none := by
  refine counting_ends sound unused hint bound fun mid midSound table counts midHint missing => ?_
  refine allocRefcountBlock_ne_none midSound missing
    ?_ ?_ fun M above _ unusedM earlier elsewhere => ?_
  · rw [div_lt_iff_lt_mul g.refcountBlockSize_pos]
    omega
  · rw [midHint, table.refcountTableSize]
    omega
  · -- The next cluster is free as well, and it is of the same block.
    have same := near (table.lookup _ ▸ missing)
    have next : refcount g mid (N + 1) = 0 := refcount_of_none (same ▸ missing)
    obtain rfl : M = N + 1 := by
      by_contra other
      exact earlier (N + 1) (by omega) (by omega) next
    exact absurd same elsewhere

/-- Counting any free cluster that is found. -/
theorem counting_ends_far {N} (tryNew0 : Nat → Bool) (depth) (sound : Sound g s)
    (unused : refcount g s N = 0) (hint : s.freeClusterIndex = N + 1)
    (bound : max s.freeClusterIndex (s.refcountTableSize * g.refcountBlockSize) + (depth + 3) ≤
      2 ^ 32 * g.refcountBlockSize) :
    updateRefcount g tryNew0 (depth + 3) s (N * g.clusterSize) g.clusterSize 1#64 false ≠ none := by
  refine counting_ends sound unused hint bound fun mid midSound table counts midHint missing => ?_
  refine allocRefcountBlock_ne_none midSound missing
    ?_ ?_ fun M above limit unusedM earlier elsewhere => ?_
  · rw [div_lt_iff_lt_mul g.refcountBlockSize_pos]
    omega
  · rw [midHint, table.refcountTableSize]
    omega
  · rw [midHint, table.refcountTableSize] at limit
    refine counting_ends_near tryNew0 depth (midSound.hint (M + 1)) unusedM
      rfl ?_ fun missingM => ?_
    · show max (M + 1) (mid.refcountTableSize * g.refcountBlockSize) + (depth + 2) ≤ _
      rw [table.refcountTableSize]
      omega
    · -- The first free cluster of a block that is missing is its first one.
      have large := g.refcountBlockSize_ge
      have first : g.refcountBlockSize ∣ M := by
        by_contra inner
        obtain ⟨prev, rfl⟩ : ∃ prev, M = prev + 1 := ⟨M - 1, by omega⟩
        have same : (prev + 1) / g.refcountBlockSize = prev / g.refcountBlockSize := by
          rw [Nat.succ_div, if_neg inner, Nat.add_zero]
        by_cases before : prev = N
        · exact elsewhere (before ▸ same)
        · exact earlier prev (by omega) (by omega) (refcount_of_none (same ▸ missingM))
      rw [Nat.succ_div, if_neg, Nat.add_zero]
      intro next
      have := Nat.le_of_dvd (by decide) ((Nat.dvd_add_right first).mp next)
      omega

/-- Four levels of recursion are enough. -/
theorem updateRefcount_ends (tryNew0 : Nat → Bool) (depth) (sound : Sound g s)
    (request : Request g s offset length addend decrease)
    (bound : max s.freeClusterIndex (s.refcountTableSize * g.refcountBlockSize) + (depth + 4) ≤
      2 ^ 32 * g.refcountBlockSize) :
    updateRefcount g tryNew0 (depth + 4) s offset length addend decrease ≠ none := by
  refine updateRefcount_ne_none sound request bound fun stop mid above below range missing => ?_
  have hint := range.hint_le
  have size := range.table.refcountTableSize
  have midSound := range.sound sound fun c above' below' => request.apart c above' (by omega)
  refine allocRefcountBlock_ne_none midSound missing
    (request.fits stop above below) (by rw [size]; omega) fun N _ limit unused _ _ => ?_
  refine counting_ends_far tryNew0 depth (midSound.hint (N + 1)) unused rfl ?_
  show max (N + 1) (mid.refcountTableSize * g.refcountBlockSize) + (depth + 3) ≤ _
  rw [size] at limit ⊢
  omega

end Qemu.Qcow2
