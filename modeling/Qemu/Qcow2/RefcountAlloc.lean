import Qemu.Qcow2.RefcountArea

/-! What a failed `update_refcount` leaves: refcounts as before, but for new refcount structures. -/

namespace Qemu.Qcow2

open Nat Option Outcome

variable {g : Geometry} {s s' t u : State} {tryNew0 : Nat → Bool}
    {update : Update} {N : Nat} {C : Nat}

/-- A call has failed, and has done nothing but create refcount structures. -/
def Failed (g : Geometry) (s : State) (errno : Errno) (s' : State) (noLeak : Prop) : Prop :=
  ∃ leak, Grown g s s' leak ∧ Fresh g s s' leak ∧ (errno = .eagain → growthLeft s' < growthLeft s) ∧
    (noLeak ∨ errno ≠ .efbig ∧ errno ≠ .enomem → leak = none)

theorem Sound.hint (sound : Sound g s) (hint) : Sound g { s with freeClusterIndex := hint } :=
  sound.of_sameTable ⟨rfl, rfl, rfl, rfl⟩ sound.counted

variable {errno : Errno} {noLeak : Prop} {hint : Nat}

theorem Failed.nothing (sound : Sound g s) (other : errno ≠ .eagain) :
    Failed g s errno { s with freeClusterIndex := hint } noLeak := by
  have grown := Grown.refl sound
  exact ⟨none, ⟨sound.hint hint, grown.kept, grown.balance, grown.leaked, grown.clean⟩,
    Fresh.refl g s, fun again => absurd again other, fun _ => rfl⟩

/-- What `alloc_refcount_block` needs of `update_refcount` to count one cluster. -/
structure CountLaw (g : Geometry) (update : Update) (level : Nat) : Prop where
  ok : ∀ {s s' N}, Sound g s → refcount g s N = 0 → s.freeClusterIndex = N + 1 →
    max s.freeClusterIndex (s.refcountTableSize * g.refcountBlockSize) + level ≤
      2 ^ 32 * g.refcountBlockSize →
    update s (N * g.clusterSize) g.clusterSize 1#64 false = some (.ok (), s') →
    SameTable s s' ∧ ∀ c, refcount g s' c = if c = N then 1 else refcount g s c
  error : ∀ {s s' N errno}, Sound g s → refcount g s N = 0 → s.freeClusterIndex = N + 1 →
    max s.freeClusterIndex (s.refcountTableSize * g.refcountBlockSize) + level ≤
      2 ^ 32 * g.refcountBlockSize →
    update s (N * g.clusterSize) g.clusterSize 1#64 false = some (.error errno, s') →
      Failed g s errno s' True

/-- What `qcow2_refcount_area` needs of `update_refcount` to free the old table. -/
def FreeLaw (g : Geometry) (update : Update) : Prop :=
  ∀ {s s' : State} {offset length : Nat} {indices : Nat → Prop} {ret : Except Errno Unit},
    0 < length → Readable g s → DiscardSafe s offset indices →
    (∀ c, firstCluster g offset ≤ c → c < stopCluster g offset length →
      (indices (c / g.refcountBlockSize) ∧ c / g.refcountBlockSize < 2 ^ 32) ∧
        s.lookup (c / g.refcountBlockSize) ≠ none ∧ CanChange g 1#64 true (refcount g s c)) →
    update s offset length 1#64 true = some (ret, s') →
    ChangedRange g s offset indices 1#64 true (firstCluster g offset)
      (stopCluster g offset length) s'

theorem inSameRefcountBlock_iff (N C) : inSameRefcountBlock g (N * g.clusterSize)
    (C * g.clusterSize) ↔ N / g.refcountBlockSize = C / g.refcountBlockSize := by
  rw [inSameRefcountBlock, decide_eq_true_iff, Nat.mul_comm g.clusterSize,
    Nat.mul_div_mul_right _ _ g.clusterSize_pos, Nat.mul_div_mul_right _ _ g.clusterSize_pos]

theorem refcount_setBlock_free (sound : Sound g s)
    (free : refcount g s N = 0) (same : SameTable s t)
    (data c) : refcount g (t.setBlock (N * g.clusterSize) data) c = refcount g t c := by
  refine (sameTable_setBlock t _ data).refcount_eq (fun i offset found => ?_) c
  rw [block_setBlock, if_neg]
  rintro rfl
  rw [same.lookup] at found
  exact sound.not_blockAt_of_free free ((blockAt_iff N).mpr ⟨i, found⟩)

/-- A new block that describes itself, or that is described elsewhere. -/
theorem describeBlock_ok {level} (law : CountLaw g update level) (sound : Sound g s)
    (free : refcount g s N = 0)
    (bound : max (N + 1) (s.refcountTableSize * g.refcountBlockSize) + level ≤
      2 ^ 32 * g.refcountBlockSize) (res : describeBlock g update { s with
      freeClusterIndex := N + 1 } C (N * g.clusterSize) = some (.ok (), u)) :
    Described g s (C / g.refcountBlockSize) N u.cacheFlush := by
  have hinted : SameTable s { s with freeClusterIndex := N + 1 } := ⟨rfl, rfl, rfl, rfl⟩
  rw [describeBlock] at res
  -- The block counts itself, or another block counts it.
  split at res
  · rename_i same
    rw [inSameRefcountBlock_iff] at same
    cases res
    refine ⟨⟨rfl, rfl, rfl, rfl⟩, fun c out => ?_, fun c inside => ?_,
      fun elsewhere => absurd same elsewhere, fun _ => rfl⟩
    · rw [refcount_cacheFlush, refcount_setBlock_free sound free hinted, if_neg]
      · rfl
      · rintro rfl
        exact out same
    · -- The new block has a single refcount, its own.
      have one : (1#64).toNat < 2 ^ 2 ^ g.refcountOrder.val := by
        have := g.one_le_refcountMax
        rw [g.toNat_refcountMax] at this
        show 1 < _
        omega
      rw [block_cacheFlush, block_setBlock, if_pos rfl,
        Nat.mul_div_cancel _ g.clusterSize_pos, Geometry.getRefcount,
        Geometry.setRefcount, getRefcountFuncs_set _ _ _ _ one, getRefcountFuncs_zero]
      by_cases here : c = N
      · rw [if_pos here, if_pos (here ▸ rfl)]
        rfl
      · rw [if_neg here, if_neg fun mod => here (eq_of_div_mod (inside.trans same.symm) mod)]
        rfl
  rename_i elsewhere
  rw [inSameRefcountBlock_iff] at elsewhere
  rcases andThen_eq_some res with ⟨errno, _, contra⟩ | ⟨_, v, updated, ends⟩
  · contradiction
  cases ends
  obtain ⟨same, counts⟩ := law.ok (sound.hint (N + 1)) free rfl bound updated
  have table : SameTable s v := hinted.trans same
  refine ⟨table.trans ⟨rfl, rfl, rfl, rfl⟩, fun c out => ?_, fun c inside => ?_,
    fun _ => ?_, fun _ => rfl⟩
  · rw [refcount_cacheFlush, refcount_setBlock_free sound free
      (table.trans (sameTable_cacheFlush v)), refcount_cacheFlush]
    exact counts c
  · rw [block_cacheFlush, block_setBlock, if_pos rfl, Geometry.getRefcount,
      getRefcountFuncs_zero, if_neg]
    · rfl
    · rintro rfl
      exact elsewhere inside
  · rw [block_cacheFlush, block_setBlock, if_pos rfl]

/-- A block that is left over when the table cannot grow. -/
theorem Described.failed (desc : Described g s (C / g.refcountBlockSize) N u)
    (sound : Sound g s) (missing : s.lookup (C / g.refcountBlockSize) = none)
    (free : refcount g s N = 0)
    (past : s.refcountTableSize ≤ C / g.refcountBlockSize) (le : hint ≤ N)
    (cannot : errno = .efbig ∨ errno = .enomem) :
    Failed g s errno u (C < hint) := by
  have other : errno ≠ .eagain := by
    rintro rfl
    simp at cannot
  have table := desc.table
  have none := sound.structures_free free
  by_cases same : N / g.refcountBlockSize = C / g.refcountBlockSize
  · -- Without the table the new block counts nothing.
    have counts (c : Nat) : refcount g u c = refcount g s c := by
      by_cases inside : c / g.refcountBlockSize = C / g.refcountBlockSize
      · rw [refcount_of_none (table.lookup _ ▸ inside ▸ missing),
          refcount_of_none (inside ▸ missing)]
      · rw [desc.outside c inside, if_neg]
        rintro rfl
        exact inside same
    refine ⟨.none, ⟨sound.of_sameTable table fun c => ?_,
      fun found => table.lookup _ ▸ found, fun c _ => ?_,
      fun c leak => by contradiction, fun _ _ _ => desc.clean _⟩, ?_,
        fun again => absurd again other, fun _ => rfl⟩
    · rw [counts]
      exact sound.counted c
    · rw [counts, table.structures]
    · rintro c zero (nonzero | leak)
      · rw [table.structures] at nonzero
        contradiction
      · contradiction
  have counts (c : Nat) : refcount g u c = if c = N then 1 else refcount g s c := by
    by_cases inside : c / g.refcountBlockSize = C / g.refcountBlockSize
    · rw [refcount_of_none (table.lookup _ ▸ inside ▸ missing),
        refcount_of_none (inside ▸ missing), if_neg]
      rintro rfl
      exact same inside
    · exact desc.outside c inside
  refine ⟨some N, ⟨sound.of_sameTable table fun c => ?_,
    fun found => table.lookup _ ▸ found, fun c notLeak => ?_,
    fun c leak => ?_, fun _ _ _ => desc.clean _⟩, ?_,
      fun again => absurd again other, fun why => ?_⟩
  · rw [counts]
    have := sound.counted c
    split
    · rename_i here
      rw [here, none]
      exact zero_le _
    · exact this
  · rw [counts, table.structures, if_neg]
    rintro rfl
    exact notLeak rfl
  · cases leak
    rw [counts, table.structures, if_pos rfl, free]
    exact ⟨rfl, none, none, desc.cleared same, desc.clean _⟩
  · rintro c zero (nonzero | leak)
    · rw [table.structures] at nonzero
      contradiction
    · exact some.inj leak ▸ free
  · -- The cluster of the new block is described, so that it is before the table ends.
    exfalso
    have before : C < hint := why.resolve_right fun neither => cannot.elim neither.1 neither.2
    have counted : refcount g u N ≠ 0 := by
      rw [counts, if_pos rfl]
      exact one_ne_zero
    obtain ⟨offset, found⟩ := exists_lookup counted
    have below := lookup_lt found
    rw [table.refcountTableSize] at below
    have := Nat.div_le_div_right (c := g.refcountBlockSize) (show C ≤ N by omega)
    omega

/-- An error of the new block's own refcount is passed on. -/
theorem describeBlock_error {newBlock}
    (res : describeBlock g update s C newBlock = some (.error errno, s')) :
    update s newBlock g.clusterSize 1#64 false = some (.error errno, s') := by
  rw [describeBlock] at res
  split at res
  · obtain ⟨contra, _⟩ := Prod.mk.inj (some.inj res)
    contradiction
  rcases andThen_eq_some res with ⟨_, updated, ends⟩ | ⟨_, _, _, ends⟩
  · cases ends
    exact updated
  · obtain ⟨contra, _⟩ := Prod.mk.inj (some.inj ends)
    contradiction

theorem lt_blocksUsed (g : Geometry) (C N : Nat) :
    C / g.refcountBlockSize < divRoundUp (max (C + 1) (N + 1)) g.refcountBlockSize ∧
      N < divRoundUp (max (C + 1) (N + 1)) g.refcountBlockSize * g.refcountBlockSize := by
  have pos := g.refcountBlockSize_pos
  constructor
  · rw [lt_divRoundUp_iff pos]
    have := div_mul_le_self C g.refcountBlockSize
    omega
  · have := le_divRoundUp_mul pos (max (C + 1) (N + 1))
    omega

/-- What is left when a new block has been entered into the table, or could not be. -/
theorem enterBlock_failed (freeLaw : FreeLaw g update) (sound : Sound g s)
    (desc : Described g s (C / g.refcountBlockSize) N u)
    (missing : s.lookup (C / g.refcountBlockSize) = none)
    (free : refcount g s N = 0) (nonzero : N ≠ 0) (le : hint ≤ N)
    (res : enterBlock g tryNew0 update u C (C / g.refcountBlockSize) (N * g.clusterSize) =
      some (.error errno, s')) :
    Failed g s errno s' (C < hint) := by
  rw [enterBlock, Nat.mul_div_cancel _ g.clusterSize_pos] at res
  -- The table has an entry for the block, or must grow first.
  split at res
  · rename_i small
    rw [desc.table.refcountTableSize] at small
    cases res
    obtain ⟨⟨grown, fresh⟩, less⟩ := desc.enter sound missing free small nonzero _ rfl
    exact ⟨none, grown, fresh, fun _ => less, fun _ => rfl⟩
  rename_i large
  rw [desc.table.refcountTableSize] at large
  obtain ⟨indexLt, clusterLt⟩ := lt_blocksUsed g C N
  rcases qcow2RefcountArea_cases tryNew0 update sound desc (not_lt.mp large)
      indexLt clusterLt nonzero with
    ⟨_, cannot, area⟩ | ⟨total, tables, t, stop, plan, switched, area⟩
  · -- The table cannot grow.
    simp only [area, andThen] at res
    obtain ⟨ends, rfl⟩ := Prod.mk.inj (some.inj res)
    cases ends
    exact desc.failed sound missing free (not_lt.mp large) le cannot
  have larger := switched.larger plan sound free nonzero
  obtain ⟨safe, freeable⟩ := switched.freeable plan sound desc larger
  rcases updated : update t s.refcountTableOffset (s.refcountTableSize * 8) 1#64
    true with - | ⟨ret, freed⟩
  · simp only [area, updated, andThen, reduceCtorEq] at res
  simp only [area, updated, andThen] at res
  cases res
  have pos : 0 < s.refcountTableSize * 8 := by
    have := sound.maxIndex_lt
    omega
  have range := freeLaw pos (larger.readable sound) safe
    (fun c above below => freeable c ((sound.toLaid.tableAt_iff c).mpr ⟨above, below⟩))
    (by exact_mod_cast updated)
  obtain ⟨⟨grown, fresh⟩, less⟩ := switched.freed plan sound desc free nonzero range
  exact ⟨none, grown, fresh, fun _ => less, fun _ => rfl⟩

/-- How the creation of a missing block fails. -/
theorem allocRefcountBlock_failed {level} (law : CountLaw g update level) (free : FreeLaw g update)
    (sound : Sound g s) (missing : s.lookup (C / g.refcountBlockSize) = none)
    (fits : C / g.refcountBlockSize < 2 ^ 32)
    (bound : max s.freeClusterIndex (s.refcountTableSize * g.refcountBlockSize) + (level + 1) ≤
      2 ^ 32 * g.refcountBlockSize) (res : allocRefcountBlock g tryNew0 update s C =
        some (.error errno, s')) :
    Failed g s errno s' (C < s.freeClusterIndex) := by
  rcases allocRefcountBlock_cases missing fits res with
    ⟨_, taken, ends⟩ | ⟨newBlock, t, taken, rest⟩
  · -- The image would become too large.
    cases ends
    obtain ⟨N, rfl, _, _, _, efbig | ok⟩ := allocClustersNoref_one sound.toReadable taken
    · exact .nothing sound (by rw [Except.error.inj efbig]; decide)
    · contradiction
  obtain ⟨N, rfl, ⟨le, small⟩, unused, _, efbig | ok⟩ :=
    allocClustersNoref_one sound.toReadable taken
  · contradiction
  cases ok
  -- The hint has moved by one, so the bound has to give way by one.
  have bound' : max (N + 1) (s.refcountTableSize * g.refcountBlockSize) + level ≤
      2 ^ 32 * g.refcountBlockSize := by
    have : N ≤ max s.freeClusterIndex (s.refcountTableSize * g.refcountBlockSize) := small
    omega
  rcases rest with ⟨_, rfl, eio⟩ | ⟨nonzero, rest⟩
  · exact .nothing sound (by rw [Except.error.inj eio]; decide)
  have pos : N ≠ 0 := by
    rintro rfl
    exact nonzero (zero_mul _)
  rcases rest with ⟨_, desc, ends⟩ | ⟨u, desc, entered⟩
  · -- The new block cannot be counted.
    cases ends
    have counted := law.error (sound.hint (N + 1)) unused rfl bound' (describeBlock_error desc)
    have of_hint (weaker : (C < s.freeClusterIndex) → True) :
        Failed g s errno s' (C < s.freeClusterIndex) := by
      obtain ⟨leak, grown, fresh, again, none⟩ := counted
      exact ⟨leak, ⟨grown.sound, grown.kept, grown.balance, grown.leaked, grown.clean⟩, fresh,
        again, none ∘ Or.imp_left weaker⟩
    exact of_hint fun _ => trivial
  · exact enterBlock_failed free sound (describeBlock_ok law sound unused bound' desc) missing
      unused pos le entered

variable {offset : Nat} {addend : BitVec 64} {decrease : Bool}
    {mid failed : State} {first stop : Nat} {leak : Option Nat}

/-- What was changed before refcount structures were created can be changed back. -/
theorem canUndo (changed : ChangedRange g s offset (fun _ => True) addend decrease first stop mid)
    (grown : Grown g mid failed leak) (fresh : Fresh g mid failed leak)
    (room : decrease → addend.toNat < g.refcountMax.toNat ∨
      ∀ c, refcount g failed c = refcount g mid c) {c}
    (apart : structures g s c = 0) (above : first ≤ c) (below : c < stop) :
    CanChange g addend (!decrease) (refcount g failed c) := by
  have possible := changed.possible c above below
  have value := changed.refcount c
  rw [if_pos ⟨above, below⟩] at value
  have most := refcount_le g s c
  rw [← changed.table.structures] at apart
  -- A refcount after refcount structures were created, where there were none.
  have refcount_of_apart : refcount g failed c = refcount g mid c ∧
    structures g failed c = 0 ∧ leak ≠ some c ∨ refcount g failed c = 1 ∧ refcount g mid c = 0 ∧
          (structures g failed c = 1 ∨ leak = some c) := by
    by_cases isLeak : leak = some c
    · obtain ⟨one, _⟩ := grown.leaked c isLeak
      have := fresh c apart (.inr isLeak)
      exact .inr ⟨by omega, this, .inr isLeak⟩
    have balance := grown.balance c isLeak
    have most := grown.sound.apart c
    by_cases new : structures g failed c = 0
    · exact .inl ⟨by omega, new, isLeak⟩
    · have := fresh c apart (.inl new)
      exact .inr ⟨by omega, this, .inl (by omega)⟩
  have cases := refcount_of_apart
  cases decrease with
  | false =>
    simp only [Qcow2.changed, Bool.false_eq_true, if_false] at value
    simp only [CanChange, Bool.not_false, if_true]
    omega
  | true =>
    simp only [Qcow2.changed, if_true] at value
    simp only [CanChange, if_true] at possible
    simp only [CanChange, Bool.not_true, Bool.false_eq_true, if_false]
    rcases room rfl with small | same
    · omega
    · have := same c
      omega

/-- A failed call that has undone its changes. -/
theorem Grown.undo {indices undone}
    (changed : ChangedRange g s offset (fun _ => True) addend decrease first stop mid)
    (sound : Sound g s) (grown : Grown g mid failed leak)
    (back : ChangedRange g failed offset indices addend (!decrease) first stop undone)
    (old : ∀ i, indices i → mid.lookup i ≠ none) :
    Grown g s undone leak := by
  have table := changed.table
  -- What a cluster has gained by the structures, it has gained after all.
  have gained (c : Nat) : refcount g undone c + refcount g mid c =
      refcount g s c + refcount g failed c := by
    have forth := changed.refcount c
    have backwards := back.refcount c
    by_cases inside : first ≤ c ∧ c < stop
    · have possible := changed.possible c inside.1 inside.2
      have possibleBack := back.possible c inside.1 inside.2
      rw [if_pos inside] at forth backwards
      cases decrease with
      | false =>
        simp only [Qcow2.changed, Bool.not_false, Bool.false_eq_true, if_true,
          if_false] at forth backwards
        simp only [CanChange, Bool.not_false, if_true] at possibleBack
        omega
      | true =>
        simp only [Qcow2.changed, Bool.not_true, Bool.false_eq_true, if_true,
          if_false] at forth backwards
        simp only [CanChange, if_true] at possible
        omega
    · rw [if_neg inside] at forth backwards
      omega
  have same (c : Nat) : structures g undone c = structures g failed c := back.table.structures c
  have start (c : Nat) : structures g mid c = structures g s c := table.structures c
  refine ⟨?_, fun {i offset} found => ?_, fun c notLeak => ?_, fun c isLeak => ?_,
    fun other absent present => ?_⟩
  · refine grown.sound.of_sameTable back.table fun c => ?_
    have counted := sound.counted c
    have := gained c
    have := start c
    by_cases isLeak : leak = some c
    · obtain ⟨_, _, none, _⟩ := grown.leaked c isLeak
      omega
    · have := grown.balance c isLeak
      omega
  · rw [back.table.lookup]
    exact grown.kept (table.lookup _ ▸ found)
  · have := grown.balance c notLeak
    have := gained c
    rw [same, ← start]
    omega
  · obtain ⟨one, zero, none, cleared, clean⟩ := grown.leaked c isLeak
    have := gained c
    have notLive (i : Nat) : failed.lookup i ≠ some (c * g.clusterSize) := fun found =>
      ((structures_eq_zero_iff c).mp none).1 ((blockAt_iff c).mpr ⟨i, found⟩)
    obtain ⟨block, stillClean⟩ :=
      back.others (c * g.clusterSize) (fun i found => absurd found (notLive i)) clean
    refine ⟨by omega, start c ▸ zero, same c ▸ none, block.trans cleared, stillClean⟩
  · obtain ⟨i, found⟩ := present
    rw [back.table.lookup] at found
    have absentMid (j : Nat) : mid.lookup j ≠ some other := table.lookup j ▸ absent j
    refine (back.others other (fun j foundJ inside => ?_)
      (grown.clean other absentMid ⟨i, found⟩)).2
    obtain ⟨offset', foundMid⟩ := ne_none_iff_exists'.mp (old j inside)
    obtain rfl := some.inj ((grown.kept foundMid).symm.trans foundJ)
    exact absentMid j foundMid

end Qemu.Qcow2
