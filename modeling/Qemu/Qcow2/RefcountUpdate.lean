import Qemu.Qcow2.RefcountView

/-! The loop of `update_refcount` changes a range up to where it stops. -/

namespace Qemu.Qcow2

open Int Nat Option

variable {g : Geometry} {s s' : State} {tryNew0 : Nat → Bool} {update : Update} {block : Nat}

theorem Outcome.andThen_eq_some {α β : Type} {outcome : Outcome α} {next : α → State → Outcome β}
    {ret : Except Errno β} (res : outcome.andThen next = some (ret, s')) :
    (∃ errno, outcome = some (.error errno, s') ∧ ret = .error errno) ∨
      ∃ value t, outcome = some (.ok value, t) ∧ next value t = some (ret, s') := by
  rcases outcome with - | ⟨errno | value, t⟩
  · contradiction
  · cases res
    exact .inl ⟨errno, rfl, rfl⟩
  · exact .inr ⟨value, t, rfl, res⟩

variable {cluster : Nat} {ret : Except Errno Nat}

/-- A new block is always reported as an error: the caller starts over. -/
theorem enterBlock_error {index newBlock}
    (res : enterBlock g tryNew0 update s cluster index newBlock = some (ret, s')) :
    ∃ errno, ret = .error errno := by
  unfold enterBlock at res
  split at res
  · obtain ⟨rfl, _⟩ := Prod.mk.inj (some.inj res)
    exact ⟨_, rfl⟩
  · rcases Outcome.andThen_eq_some res with ⟨errno, _, rfl⟩ | ⟨_, _, _, ends⟩
    · exact ⟨errno, rfl⟩
    · obtain ⟨rfl, _⟩ := Prod.mk.inj (some.inj ends)
      exact ⟨_, rfl⟩

/-- How an attempt to create a missing block ends. -/
theorem allocRefcountBlock_cases
    (missing : s.lookup (cluster / g.refcountBlockSize) = none)
    (fits : cluster / g.refcountBlockSize < 2 ^ 32)
    (res : allocRefcountBlock g tryNew0 update s cluster = some (ret, s')) :
    (∃ errno, allocClustersNoref g s g.clusterSize int64Max = some (.error errno, s') ∧
      ret = .error errno) ∨
      ∃ newBlock t, allocClustersNoref g s g.clusterSize int64Max = some (.ok newBlock, t) ∧
        ((newBlock = 0 ∧ s' = t ∧ ret = .error .eio) ∨
          newBlock ≠ 0 ∧
            ((∃ errno, describeBlock g update t cluster newBlock = some (.error errno, s') ∧
              ret = .error errno) ∨
              ∃ u, describeBlock g update t cluster newBlock = some (.ok (), u) ∧
                enterBlock g tryNew0 update u.cacheFlush cluster
                  (cluster / g.refcountBlockSize) newBlock = some (ret, s'))) := by
  simp only [allocRefcountBlock, mod_eq_of_lt fits, missing] at res
  rcases Outcome.andThen_eq_some res with failed | ⟨newBlock, t, taken, res⟩
  · exact .inl failed
  refine .inr ⟨newBlock, t, taken, ?_⟩
  split at res
  · cases res
    exact .inl ⟨‹_›, rfl, rfl⟩
  · refine .inr ⟨‹_›, ?_⟩
    rcases Outcome.andThen_eq_some res with failed | ⟨_, u, desc, entered⟩
    · exact .inl failed
    · exact .inr ⟨u, desc, entered⟩

theorem allocRefcountBlock_missing
    (missing : s.lookup (cluster / g.refcountBlockSize) = none)
    (fits : cluster / g.refcountBlockSize < 2 ^ 32)
    (res : allocRefcountBlock g tryNew0 update s cluster = some (ret, s')) :
    ∃ errno, ret = .error errno := by
  rcases allocRefcountBlock_cases missing fits res with ⟨errno, _, rfl⟩ | ⟨_, _, _, ends⟩
  · exact ⟨errno, rfl⟩
  · rcases ends with ⟨_, _, rfl⟩ | ⟨_, ⟨errno, _, rfl⟩ | ⟨_, _, entered⟩⟩
    · exact ⟨_, rfl⟩
    · exact ⟨errno, rfl⟩
    · exact enterBlock_error entered

/-- The refcounts of the clusters from `first` to before `stop` have been changed. -/
structure ChangedRange (g : Geometry) (s : State) (offset : Nat) (indices : Nat → Prop)
    (addend : BitVec 64) (decrease : Bool) (first stop : Nat) (s' : State) : Prop where
  table : SameTable s s'
  refcount : ∀ c, refcount g s' c =
    if first ≤ c ∧ c < stop then changed addend decrease (refcount g s c) else refcount g s c
  there : ∀ c, first ≤ c → c < stop → s.lookup (c / g.refcountBlockSize) ≠ none
  possible : ∀ c, first ≤ c → c < stop → CanChange g addend decrease (Qcow2.refcount g s c)
  /-- Blocks with other indices are left alone, if they are written back. -/
  others : ∀ other, (∀ i, s.lookup i = some other → ¬ indices i) → s.dirty other = none →
    s'.block other = s.block other ∧ s'.dirty other = none
  safe : DiscardSafe s' offset indices
  hint_le : s'.freeClusterIndex ≤ s.freeClusterIndex
  hint_eq : decrease = false → addend ≠ 0#64 → s'.freeClusterIndex = s.freeClusterIndex

variable {offset : Nat} {indices : Nat → Prop} {addend : BitVec 64} {decrease : Bool}

theorem ChangedRange.nothing (safe : DiscardSafe s offset indices) (cluster) :
    ChangedRange g s offset indices addend decrease cluster cluster s where
  table := .refl s
  refcount c := (if_neg (by omega)).symm
  there c _ _ := by omega
  possible c _ _ := by omega
  others _ _ clean := ⟨rfl, clean⟩
  safe := safe
  hint_le := le_rfl
  hint_eq _ _ := rfl

/-- One turn before others. -/
theorem ChangedRange.cons {stop t} (inside : indices (cluster / g.refcountBlockSize))
    (found : s.lookup (cluster / g.refcountBlockSize) = some block)
    (possible : CanChange g addend decrease (Qcow2.refcount g s cluster))
    (turn : Turned g s offset cluster (changed addend decrease (Qcow2.refcount g s cluster))
      indices t) (rest : ChangedRange g t offset indices addend decrease (cluster + 1) stop s')
    (le : cluster < stop) : ChangedRange g s offset indices addend decrease cluster stop s' where
  table := turn.table.trans rest.table
  refcount c := by
    rw [rest.refcount, turn.refcount]
    by_cases here : c = cluster
    · subst here
      rw [if_neg (by omega), if_pos rfl, if_pos ⟨le_rfl, le⟩]
    · rw [if_neg here]
      by_cases inside : cluster ≤ c ∧ c < stop
      · rw [if_pos (by omega), if_pos inside]
      · rw [if_neg (by omega), if_neg inside]
  there c above below := by
    by_cases here : c = cluster
    · rw [here, found]
      exact some_ne_none _
    · exact turn.table.lookup _ ▸ rest.there c (by omega) below
  possible c above below := by
    by_cases here : c = cluster
    · exact here ▸ possible
    · have later := rest.possible c (by omega) below
      rwa [turn.refcount, if_neg here] at later
  others other absent clean := by
    obtain ⟨block, clean⟩ := turn.others other (fun found => absent _ found inside) clean
    obtain ⟨block', clean'⟩ := rest.others other (fun i => turn.table.lookup i ▸ absent i) clean
    exact ⟨block'.trans block, clean'⟩
  safe := rest.safe
  hint_le := rest.hint_le.trans turn.hint_le
  hint_eq increase nonzero := by
    refine (rest.hint_eq increase nonzero).trans (turn.hint_eq ?_)
    have : addend.toNat ≠ 0 := fun zero => nonzero (BitVec.eq_of_toNat_eq zero)
    simp only [changed, increase, Bool.false_eq_true, if_false]
    omega

def LoadedOk (s : State) (loaded : Option (Nat × Nat)) : Prop := ∀ i block, loaded = some
    (i, block) → s.lookup i = some block

variable {remaining : Nat} {loaded : Option (Nat × Nat)}

/-- The turn of the loop for a cluster whose block is there. -/
theorem updateClusters_found (readable : Readable g s)
    (found : s.lookup (cluster / g.refcountBlockSize) = some block)
    (fits : cluster / g.refcountBlockSize < 2 ^ 32) (loadedOk : LoadedOk s loaded) :
    updateClusters g (allocRefcountBlock g tryNew0 update) offset addend decrease
      (remaining + 1) cluster loaded s =
      if cannotChange g (g.getRefcount (s.block block) (cluster % g.refcountBlockSize)) addend
        decrease then some (.error (.einval, cluster), s)
      else
        updateClusters g (allocRefcountBlock g tryNew0 update) offset addend
          decrease remaining (cluster + 1) (changeRefcount g offset cluster block addend decrease
            (some (cluster / g.refcountBlockSize, block)) s).1
          (changeRefcount g offset cluster block addend decrease
              (some (cluster / g.refcountBlockSize, block)) s).2 := by
  -- A block that is there is found, unless its index does not fit the variable for it.
  have allocRefcountBlock_found :
      allocRefcountBlock g tryNew0 update s cluster = some (.ok block, s) := by
    have aligned := readable.aligned found
    simp only [allocRefcountBlock, mod_eq_of_lt fits, found, aligned, ne_eq,
      not_true_eq_false, if_false]
  have alloc := allocRefcountBlock_found
  cases loaded with
  | none => simp only [updateClusters, loadBlock, alloc]
  | some entry =>
    obtain ⟨index, offset⟩ := entry
    by_cases same : index = cluster / g.refcountBlockSize
    · have := loadedOk _ _ rfl
      rw [same, found] at this
      cases this
      simp [updateClusters, loadBlock, same]
    · simp [updateClusters, loadBlock, same, alloc]

/-- A missing block is asked for whatever block is loaded. -/
theorem updateClusters_asked
    (missing : s.lookup (cluster / g.refcountBlockSize) = none) (loadedOk : LoadedOk s loaded) :
    updateClusters g (allocRefcountBlock g tryNew0 update) offset addend decrease
      (remaining + 1) cluster loaded s =
      updateClusters g (allocRefcountBlock g tryNew0 update) offset addend decrease
      (remaining + 1) cluster none s := by
  cases loaded with
  | none => rfl
  | some entry =>
    obtain ⟨index, block⟩ := entry
    have other : index ≠ cluster / g.refcountBlockSize := by
      rintro rfl
      have := loadedOk _ _ rfl
      rw [missing] at this
      contradiction
    simp [updateClusters, loadBlock, other]

variable {ret : Except (Errno × Nat) Unit}

/-- The turn of the loop for a cluster whose block is missing. -/
theorem updateClusters_missing
    (missing : s.lookup (cluster / g.refcountBlockSize) = none)
    (fits : cluster / g.refcountBlockSize < 2 ^ 32) (loadedOk : LoadedOk s loaded)
    (res : updateClusters g (allocRefcountBlock g tryNew0 update) offset addend
      decrease (remaining + 1) cluster loaded s = some (ret, s')) :
    ∃ errno failed hint, allocRefcountBlock g tryNew0 update s cluster =
      some (.error errno, failed) ∧
      ret = .error (errno, cluster) ∧ s' = { failed with freeClusterIndex := hint } ∧
      (errno = .eagain → hint ≤ offset / g.clusterSize) := by
  rw [updateClusters_asked missing loadedOk] at res
  cases alloc : allocRefcountBlock g tryNew0 update s cluster with
  | none => simp only [updateClusters, loadBlock, alloc, reduceCtorEq] at res
  | some outcome =>
    obtain ⟨ended, failed⟩ := outcome
    obtain ⟨errno, rfl⟩ := allocRefcountBlock_missing missing fits alloc
    simp only [updateClusters, loadBlock, alloc] at res
    cases res
    by_cases again : errno = .eagain ∧ failed.freeClusterIndex > offset / g.clusterSize
    · exact ⟨errno, failed, offset / g.clusterSize, rfl, rfl, if_pos again, fun _ => le_rfl⟩
    · exact ⟨errno, failed, failed.freeClusterIndex, rfl, rfl, if_neg again, by
        intro isAgain
        by_contra above
        exact again ⟨isAgain, not_le.mp above⟩⟩

theorem updateClusters_impossible (readable : Readable g s)
    (found : s.lookup (cluster / g.refcountBlockSize) = some block)
    (fits : cluster / g.refcountBlockSize < 2 ^ 32) (loadedOk : LoadedOk s loaded)
    (impossible : ¬ CanChange g addend decrease (refcount g s cluster)) :
    updateClusters g (allocRefcountBlock g tryNew0 update) offset addend decrease
      (remaining + 1) cluster loaded s = some (.error (.einval, cluster), s) := by
  rw [refcount_of_some found, ← cannotChange_eq_false_iff, Bool.not_eq_false] at impossible
  rw [updateClusters_found readable found fits loadedOk, if_pos impossible]

/-- The turn of the loop for a refcount that can be changed. -/
theorem updateClusters_turn (remaining) (tryNew0 : Nat → Bool)
    (update) (readable : Readable g s)
    (found : s.lookup (cluster / g.refcountBlockSize) = some block)
    (fits : cluster / g.refcountBlockSize < 2 ^ 32) (loadedOk : LoadedOk s loaded)
    (possible : CanChange g addend decrease (refcount g s cluster))
    (safe : DiscardSafe s offset indices) (inside : indices (cluster / g.refcountBlockSize)) :
    ∃ next t, Turned g s offset cluster (changed addend decrease (refcount g s cluster)) indices t ∧
      LoadedOk t next ∧
      updateClusters g (allocRefcountBlock g tryNew0 update) offset addend decrease
        (remaining + 1) cluster loaded s =
        updateClusters g (allocRefcountBlock g tryNew0 update) offset addend decrease remaining
        (cluster + 1) next t := by
  obtain ⟨kept, turn⟩ := changeRefcount_spec (some (cluster / g.refcountBlockSize, block))
    readable found possible safe inside
  have unfolds : updateClusters g (allocRefcountBlock g tryNew0 update) offset addend
    decrease (remaining + 1) cluster
    loaded s = _ := updateClusters_found readable found fits loadedOk
  rw [refcount_of_some found, ← cannotChange_eq_false_iff] at possible
  rw [possible] at unfolds
  generalize changeRefcount g offset cluster block addend decrease
    (some (cluster / g.refcountBlockSize, block)) s = turned at kept turn unfolds
  refine ⟨turned.1, turned.2, turn, ?_, unfolds⟩
  -- Either nothing is loaded now, or the block of this cluster still is.
  intro i other loadedI
  rw [turn.table.lookup]
  rcases kept with none | same
  · rw [none] at loadedI
    contradiction
  · rw [same] at loadedI
    cases loadedI
    exact found

/-- Where the loop of `update_refcount` stops, and why. -/
inductive Stopped (g : Geometry) (tryNew0 : Nat → Bool) (update : Update)
    (offset : Nat) (addend : BitVec 64)
    (decrease : Bool) (stop : Nat) (mid : State) : Errno → State → Prop where
  /-- The refcount cannot be changed. -/
  | impossible (no : ¬ CanChange g addend decrease (refcount g mid stop)) :
    Stopped g tryNew0 update offset addend decrease stop mid .einval mid
  /-- There is no refcount block. -/
  | missing {errno : Errno} {failed : State} {hint : Nat}
      (absent : mid.lookup (stop / g.refcountBlockSize) = none)
      (alloc : allocRefcountBlock g tryNew0 update mid stop = some (.error errno, failed))
      (again : errno = .eagain → hint ≤ offset / g.clusterSize) :
    Stopped g tryNew0 update offset addend decrease stop mid errno
      { failed with freeClusterIndex := hint }

section

variable (readable : Readable g s) (loadedOk : LoadedOk s loaded)
    (safe : DiscardSafe s offset indices)
  (inside : ∀ c, cluster ≤ c → c < cluster + remaining → indices (c / g.refcountBlockSize) ∧
    c / g.refcountBlockSize < 2 ^ 32)

include readable loadedOk safe inside

/-- The loop changes its range, or it stops at a cluster and has changed those before. -/
theorem updateClusters_spec
    (res : updateClusters g (allocRefcountBlock g tryNew0 update) offset addend decrease
      remaining cluster loaded s = some (ret, s')) :
    (ret = .ok () ∧ ChangedRange g s offset indices addend decrease cluster
      (cluster + remaining) s') ∨
      ∃ errno stop mid, ret = .error (errno, stop) ∧ (cluster ≤ stop ∧ stop < cluster + remaining) ∧
        ChangedRange g s offset indices addend decrease cluster stop mid ∧
        Stopped g tryNew0 update offset addend decrease stop mid errno s' := by
  induction remaining generalizing cluster loaded s with
  | zero =>
    cases res
    exact .inl ⟨rfl, .nothing safe cluster⟩
  | succ remaining ih =>
    obtain ⟨here, fits⟩ := inside cluster le_rfl (by omega)
    -- A missing block ends the loop: after allocating it the caller starts over.
    cases found : s.lookup (cluster / g.refcountBlockSize) with
    | none =>
      obtain ⟨errno, failed, hint, alloc, rfl, rfl, le⟩ :=
        updateClusters_missing found fits loadedOk res
      exact .inr ⟨errno, cluster, s, rfl, by omega, .nothing safe cluster, .missing found alloc le⟩
    | some block =>
      by_cases possible : CanChange g addend decrease (refcount g s cluster)
      · obtain ⟨next, t, turn, stillLoaded, goesOn⟩ :=
          updateClusters_turn remaining tryNew0 update readable found fits
          loadedOk possible safe here
        rw [goesOn] at res
        rcases ih (turn.table.readable readable) stillLoaded turn.safe
            (fun c above below => inside c (by omega) (by omega)) res with
          ⟨rfl, rest⟩ | ⟨errno, stop, mid, rfl, within, rest, stopped⟩
        · rw [add_right_comm] at rest
          exact .inl ⟨rfl, .cons here found possible turn rest (by omega)⟩
        · exact .inr ⟨errno, stop, mid,
            rfl, by omega, .cons here found possible turn rest (by omega), stopped⟩
      · rw [updateClusters_impossible readable found fits loadedOk possible] at res
        cases res
        exact .inr ⟨.einval, cluster, _, rfl, by omega, .nothing safe cluster, .impossible possible⟩

/-- The loop ends if the creation of a missing block does. -/
theorem updateClusters_ne_none (ends : ∀ stop mid, cluster ≤ stop → stop < cluster + remaining →
      ChangedRange g s offset indices addend decrease cluster stop mid → mid.lookup
      (stop / g.refcountBlockSize) = none →
      allocRefcountBlock g tryNew0 update mid stop ≠ none) :
    updateClusters g
    (allocRefcountBlock g tryNew0 update) offset addend decrease remaining cluster loaded s ≠
    none := by
  induction remaining generalizing cluster loaded s with
  | zero => exact some_ne_none _
  | succ remaining ih =>
    obtain ⟨here, fits⟩ := inside cluster le_rfl (by omega)
    -- Only the allocation of a missing block could fail to end.
    cases found : s.lookup (cluster / g.refcountBlockSize) with
    | none =>
      have alloc := ends cluster s le_rfl (by omega) (.nothing safe cluster) found
      rw [updateClusters_asked found loadedOk]
      rcases called : allocRefcountBlock g tryNew0 update s cluster with - | ⟨ended, failed⟩
      · contradiction
      · obtain ⟨errno, rfl⟩ := allocRefcountBlock_missing found fits called
        simp [updateClusters, loadBlock, called]
    | some block =>
      by_cases possible : CanChange g addend decrease (refcount g s cluster)
      · obtain ⟨next, t, turn, stillLoaded, goesOn⟩ :=
          updateClusters_turn remaining tryNew0 update readable found fits
          loadedOk possible safe here
        rw [goesOn]
        refine ih (turn.table.readable readable) stillLoaded turn.safe
          (fun c above below => inside c (by omega) (by omega))
            fun stop mid above below rest absent => ?_
        exact ends stop mid (by omega) (by omega)
          (.cons here found possible turn rest (by omega)) absent
      · rw [updateClusters_impossible readable found fits loadedOk possible]
        exact some_ne_none _

end

/-- The loop over a range whose blocks are there, with refcounts that can change. -/
theorem updateClusters_exact (tryNew0 : Nat → Bool) (update) (readable : Readable g s)
    (safe : DiscardSafe s offset indices) (inside : ∀ c, cluster ≤ c → c < cluster + remaining →
      indices (c / g.refcountBlockSize) ∧ c / g.refcountBlockSize < 2 ^ 32)
    (there : ∀ c, cluster ≤ c → c < cluster + remaining → s.lookup (c / g.refcountBlockSize) ≠ none)
    (possible : ∀ c, cluster ≤ c → c < cluster + remaining →
      CanChange g addend decrease (refcount g s c)) :
    ∃ s', updateClusters g (allocRefcountBlock g tryNew0 update) offset addend decrease
      remaining cluster none s =
        some (.ok (), s') ∧
      ChangedRange g s offset indices addend decrease cluster (cluster + remaining) s' := by
  have loadedOk : LoadedOk s none := fun _ _ none => by contradiction
  have ends : updateClusters g (allocRefcountBlock g tryNew0 update) offset addend decrease
    remaining cluster none s ≠ none :=
    updateClusters_ne_none readable loadedOk safe inside fun stop mid above below before absent =>
      absurd (before.table.lookup _ ▸ absent) (there stop above below)
  obtain ⟨⟨ret, s'⟩, res⟩ := ne_none_iff_exists'.mp ends
  rcases updateClusters_spec readable loadedOk safe inside res with
    ⟨rfl, range⟩ | ⟨errno, stop, mid, rfl, within, before, stopped⟩
  · exact ⟨s', res, range⟩
  cases stopped with
  | impossible no =>
    rw [before.refcount, if_neg (by omega)] at no
    exact absurd (possible stop within.1 within.2) no
  | missing absent => exact absurd (before.table.lookup _ ▸ absent) (there stop within.1 within.2)

/-- The clusters of a range, by the first one and the one past the last. -/
def firstCluster (g : Geometry) (offset : Nat) : Nat := offset / g.clusterSize

def stopCluster (g : Geometry) (offset length : Nat) : Nat :=
  (offset + length - 1) / g.clusterSize + 1

variable {length : Nat}

theorem firstCluster_lt_stopCluster (pos : 0 < length) :
    firstCluster g offset < stopCluster g offset length :=
  Nat.lt_succ_of_le (Nat.div_le_div_right (by omega))

theorem updateRefcount_zero (tryNew0 : Nat → Bool) (depth s offset addend decrease) :
    updateRefcount g tryNew0 (depth + 1) s offset 0 addend decrease = some (.ok (), s) := by
  simp [updateRefcount]

theorem updateRefcount_neg {length} (tryNew0 : Nat → Bool) (depth s offset addend decrease)
    (negative : length < 0) :
    updateRefcount g tryNew0 (depth + 1) s offset length addend
        decrease = some (.error .einval, s) := by
  simp [updateRefcount, negative]

/-- A range is gone through cluster by cluster, and undone if this stops. -/
theorem updateRefcount_pos (tryNew0 : Nat → Bool) (depth s) (pos : 0 < length) :
    updateRefcount g tryNew0 (depth + 1) s offset length addend decrease =
      match updateClusters g (allocRefcountBlock g tryNew0 (updateRefcount g tryNew0 depth)) offset
        addend decrease
        (stopCluster g offset length - firstCluster g offset) (firstCluster g offset) none s with
      | none => none
      | some (.ok (), s) => some (.ok (), s)
      | some (.error (errno, cluster), s) =>
        match updateRefcount g tryNew0 depth s offset (cluster * g.clusterSize - offset) addend
            (!decrease) with
        | none => none
        | some (_, s) => some (.error errno, s) := by
  have count : (offset + length - 1) / g.clusterSize - offset / g.clusterSize + 1 =
      stopCluster g offset length - firstCluster g offset := by
    have lt : firstCluster g offset < stopCluster g offset length := firstCluster_lt_stopCluster pos
    simp only [firstCluster, stopCluster] at lt ⊢
    omega
  simp only [updateRefcount, not_lt.mpr (natCast_nonneg length), if_false, natCast_eq_zero,
    ne_of_gt pos, toNat_natCast, count]
  rfl

/-- `update_refcount` on a range whose blocks are there, with refcounts that can change. -/
theorem updateRefcount_exact (tryNew0 : Nat → Bool) (depth) (pos : 0 < length)
    (readable : Readable g s) (safe : DiscardSafe s offset indices)
    (inside : ∀ c, firstCluster g offset ≤ c → c < stopCluster g offset length →
      indices (c / g.refcountBlockSize) ∧ c / g.refcountBlockSize < 2 ^ 32)
    (there : ∀ c, firstCluster g offset ≤ c → c < stopCluster g offset length →
      s.lookup (c / g.refcountBlockSize) ≠ none)
    (possible : ∀ c, firstCluster g offset ≤ c → c < stopCluster g offset length →
      CanChange g addend decrease (refcount g s c)) :
    ∃ s', updateRefcount g tryNew0 (depth + 1) s offset length addend decrease = some (.ok (), s') ∧
      ChangedRange g s offset indices addend decrease (firstCluster g offset)
          (stopCluster g offset length) s' := by
  have lt : firstCluster g offset < stopCluster g offset length := firstCluster_lt_stopCluster pos
  have count : firstCluster g offset + (stopCluster g offset length - firstCluster g offset) =
    stopCluster g offset length := by omega
  obtain ⟨s', res, range⟩ :=
    updateClusters_exact tryNew0 (updateRefcount g tryNew0 depth) readable safe
    (count.symm ▸ inside) (count.symm ▸ there) (count.symm ▸ possible)
  rw [updateRefcount_pos _ _ _ pos, res]
  exact ⟨s', rfl, count ▸ range⟩

theorem stopCluster_sub {stop} (lt : firstCluster g offset < stop) :
    0 < stop * g.clusterSize - offset ∧
        stopCluster g offset (stop * g.clusterSize - offset) = stop := by
  have past : offset < stop * g.clusterSize := (div_lt_iff_lt_mul g.clusterSize_pos).mp lt
  have last : offset + (stop * g.clusterSize - offset) - 1 = stop * g.clusterSize - 1 := by omega
  refine ⟨by omega, ?_⟩
  rw [stopCluster, last]
  have below : (stop * g.clusterSize - 1) / g.clusterSize < stop :=
    (div_lt_iff_lt_mul g.clusterSize_pos).mpr (by omega)
  have above : stop - 1 ≤ (stop * g.clusterSize - 1) / g.clusterSize := by
    rw [Nat.le_div_iff_mul_le g.clusterSize_pos, Nat.sub_mul, Nat.one_mul]
    have := g.clusterSize_pos
    omega
  omega

/-- The recursive call that undoes the changes before a cluster. -/
theorem updateRefcount_before {stop} (tryNew0 : Nat → Bool) (depth)
    (le : firstCluster g offset ≤ stop)
    (readable : Readable g s) (safe : DiscardSafe s offset indices)
    (inside : ∀ c, firstCluster g offset ≤ c → c < stop →
      indices (c / g.refcountBlockSize) ∧ c / g.refcountBlockSize < 2 ^ 32)
    (there : ∀ c, firstCluster g offset ≤ c → c < stop → s.lookup (c / g.refcountBlockSize) ≠ none)
    (possible : ∀ c, firstCluster g offset ≤ c → c < stop →
      CanChange g addend decrease (refcount g s c)) :
    ∃ ret s', updateRefcount g tryNew0 (depth + 1) s offset
      (stop * g.clusterSize - offset) addend decrease =
        some (ret, s') ∧
      ChangedRange g s offset indices addend decrease (firstCluster g offset) stop s' := by
  rw [← natCast_mul]
  rcases eq_or_lt_of_le le with rfl | lt
  · -- Nothing was changed: the length is not positive.
    have floor : firstCluster g offset * g.clusterSize ≤ offset := div_mul_le_self _ _
    rcases Int.lt_or_eq_of_le (Int.sub_nonpos_of_le (Int.ofNat_le.mpr floor)) with negative | zero
    · exact ⟨_, s, updateRefcount_neg tryNew0 depth s offset addend decrease negative,
        .nothing safe _⟩
    · rw [zero]
      exact ⟨_, s, updateRefcount_zero tryNew0 depth s offset addend decrease, .nothing safe _⟩
  obtain ⟨pos, stops⟩ := stopCluster_sub lt
  rw [← Int.natCast_sub (by omega)]
  obtain ⟨s', res, range⟩ := updateRefcount_exact tryNew0 depth pos readable
    safe (stops.symm ▸ inside) (stops.symm ▸ there) (stops.symm ▸ possible)
  exact ⟨_, s', res, stops ▸ range⟩

end Qemu.Qcow2
