import Qemu.Qcow2.Refcount

/-! The refcounts of an image, and how a change of one changes them. -/

namespace Qemu.Qcow2

open Align BitVec Function Nat

variable {g : Geometry} {s s' : State} {cluster : Nat} {offset : Nat}
    {addend : BitVec 64} {decrease : Bool}

theorem Geometry.clusterSize_pos (g : Geometry) : 0 < g.clusterSize := Nat.two_pow_pos _

theorem Geometry.clusterSize_ge (g : Geometry) : 512 ≤ g.clusterSize :=
  Nat.pow_le_pow_right (n := 2) (by decide) g.clusterBits_ge

theorem Geometry.refcountBlockSize_ge (g : Geometry) : 64 ≤ g.refcountBlockSize := by
  have := g.clusterBits_ge
  have bits : 6 ≤ g.refcountBlockBits := by
    unfold refcountBlockBits
    omega
  exact Nat.pow_le_pow_right (n := 2) (by decide) bits

theorem Geometry.refcountBlockSize_pos (g : Geometry) : 0 < g.refcountBlockSize := Nat.two_pow_pos _

theorem Geometry.toNat_refcountMax (g : Geometry) :
    g.refcountMax.toNat = 2 ^ 2 ^ g.refcountOrder.val - 1 := by
  rw [refcountMax, toNat_ofNat]
  apply mod_eq_of_lt
  have order : g.refcountOrder.val ≤ 6 := le_of_lt_succ g.refcountOrder.isLt
  have small : 2 ^ g.refcountOrder.val ≤ 64 := Nat.pow_le_pow_right (n := 2) (by decide) order
  have := Nat.pow_le_pow_right (n := 2) (by decide) small
  omega

theorem Geometry.one_le_refcountMax (g : Geometry) : 1 ≤ g.refcountMax.toNat := by
  rw [g.toNat_refcountMax]
  have := Nat.pow_le_pow_right (n := 2) (by decide) (Nat.two_pow_pos g.refcountOrder.val)
  omega

def refcount (g : Geometry) (s : State) (cluster : Nat) : Nat :=
  match s.lookup (cluster / g.refcountBlockSize) with
  | none => 0
  | some offset => (g.getRefcount (s.block offset) (cluster % g.refcountBlockSize)).toNat

/-- The refcount table can be read: its blocks are aligned, none is there twice. -/
structure Readable (g : Geometry) (s : State) : Prop where
  aligned : ∀ {i offset}, s.lookup i = some offset → offset % g.clusterSize = 0
  distinct : ∀ {i j offset}, s.lookup i = some offset → s.lookup j = some offset → i = j

theorem Readable.qcow2GetRefcount (readable : Readable g s) (cluster) :
    qcow2GetRefcount g s cluster = .ok (BitVec.ofNat 64 (refcount g s cluster)) := by
  rw [Qcow2.qcow2GetRefcount, refcount]
  cases found : s.lookup (cluster / g.refcountBlockSize) with
  | none => rfl
  | some offset =>
    have aligned := readable.aligned found
    simp [aligned]

theorem refcount_le (g : Geometry) (s : State) (cluster : Nat) :
    refcount g s cluster ≤ g.refcountMax.toNat := by
  rw [refcount, g.toNat_refcountMax]
  split
  · exact zero_le _
  · have := getRefcountFuncs_lt g.refcountOrder (s.block ‹_›) (cluster % g.refcountBlockSize)
    exact le_sub_one_of_lt this

theorem refcount_of_none (none : s.lookup (cluster / g.refcountBlockSize) = none) :
    refcount g s cluster = 0 := by
  rw [refcount, none]

theorem refcount_of_some (found : s.lookup (cluster / g.refcountBlockSize) = some offset) :
    refcount g s cluster = (g.getRefcount (s.block offset)
        (cluster % g.refcountBlockSize)).toNat := by
  rw [refcount, found]

theorem exists_lookup (counted : refcount g s cluster ≠ 0) :
    ∃ offset, s.lookup (cluster / g.refcountBlockSize) = some offset := by
  cases found : s.lookup (cluster / g.refcountBlockSize) with
  | none => exact absurd (refcount_of_none found) counted
  | some offset => exact ⟨offset, rfl⟩

theorem lookup_lt {i} (found : s.lookup i = some offset) : i < s.refcountTableSize := by
  rw [State.lookup] at found
  split at found
  · rename_i inside
    exact inside.1
  · contradiction

/-- Only the refcount blocks or the hint where to search have changed. -/
structure SameTable (s s' : State) : Prop where
  refcountTable : s'.refcountTable = s.refcountTable
  refcountTableSize : s'.refcountTableSize = s.refcountTableSize
  refcountTableOffset : s'.refcountTableOffset = s.refcountTableOffset
  maxRefcountTableIndex : s'.maxRefcountTableIndex = s.maxRefcountTableIndex

theorem SameTable.refl (s) : SameTable s s := ⟨rfl, rfl, rfl, rfl⟩

theorem SameTable.trans {s''} (first : SameTable s s')
    (second : SameTable s' s'') : SameTable s s'' :=
  ⟨second.1.trans first.1, second.2.trans first.2, second.3.trans first.3, second.4.trans first.4⟩

theorem SameTable.lookup (same : SameTable s s') (i) : s'.lookup i = s.lookup i := by
  rw [State.lookup, State.lookup, same.refcountTable, same.refcountTableSize]

theorem SameTable.readable (same : SameTable s s') (readable : Readable g s) : Readable g s' where
  aligned found := readable.aligned (same.lookup _ ▸ found)
  distinct first second := readable.distinct (same.lookup _ ▸ first) (same.lookup _ ▸ second)

theorem SameTable.refcount_eq (same : SameTable s s')
    (blocks : ∀ i offset, s.lookup i = some offset → s'.block offset = s.block offset) (cluster) :
    refcount g s' cluster = refcount g s cluster := by
  rw [refcount, refcount, same.lookup]
  cases found : s.lookup (cluster / g.refcountBlockSize) with
  | none => rfl
  | some offset => simp only [blocks _ _ found]

theorem block_cacheFlush (s : State) (offset : Nat) : s.cacheFlush.block offset = s.block offset :=
  rfl

theorem sameTable_cacheFlush (s) : SameTable s s.cacheFlush := ⟨rfl, rfl, rfl, rfl⟩

theorem refcount_cacheFlush (s cluster) : refcount g s.cacheFlush cluster = refcount g s cluster :=
  (sameTable_cacheFlush s).refcount_eq (fun _ _ _ => rfl) cluster

theorem sameTable_setBlock (s offset block) : SameTable s (s.setBlock offset block) :=
  ⟨rfl, rfl, rfl, rfl⟩

theorem block_setBlock (s : State) (offset other : Nat) (block : RefcountBlock) :
    (s.setBlock offset block).block other = if other = offset then block else s.block other := by
  rw [State.setBlock, State.block, State.block]
  by_cases same : other = offset
  · rw [if_pos same, same]
    simp
  · rw [if_neg same]
    simp only [update_of_ne same]

def changed (addend : BitVec 64) (decrease : Bool) (old : Nat) : Nat :=
  if decrease then old - addend.toNat else old + addend.toNat

def CanChange (g : Geometry) (addend : BitVec 64) (decrease : Bool) (old : Nat) : Prop :=
  if decrease then addend.toNat ≤ old else old + addend.toNat ≤ g.refcountMax.toNat

/-- The wrap-around test says whether the result leaves the width. -/
theorem cannotChange_eq_false_iff (old addend decrease) :
    cannotChange g old addend decrease = false ↔ CanChange g addend decrease old.toNat := by
  cases decrease with
  | true =>
    simp only [cannotChange, CanChange, if_true, gt_iff_lt,
      decide_eq_false_iff_not, lt_def, toNat_sub]
    omega
  | false =>
    simp only [cannotChange, CanChange, Bool.false_eq_true, if_false,
      gt_iff_lt, Bool.or_eq_false_iff, decide_eq_false_iff_not, lt_def, toNat_add]
    omega

/-- The cache may forget a block at the start of a range, if the table does not have it, or if it is
written back and no block of the range. -/
def DiscardSafe (s : State) (offset : Nat) (indices : Nat → Prop) : Prop :=
  ∀ i, s.lookup i = some offset → s.dirty offset = none ∧ ¬ indices i

/-- The effect of a change of one refcount. -/
structure ChangedOne (g : Geometry) (s : State) (cluster : Nat) (value : Nat)
    (s' : State) : Prop where
  table : SameTable s s'
  refcount : ∀ c, refcount g s' c = if c = cluster then value else refcount g s c
  /-- Other blocks are left alone, if they are written back. -/
  others : ∀ offset, s.lookup (cluster / g.refcountBlockSize) ≠ some offset →
    s.dirty offset = none → s'.block offset = s.block offset ∧ s'.dirty offset = none

/-- A change that is possible does not wrap. -/
theorem toNat_changed {old} (possible : CanChange g addend decrease old.toNat) :
    (if decrease then old - addend else old + addend).toNat =
    changed addend decrease old.toNat := by
  cases decrease with
  | true =>
    simp only [CanChange, if_true] at possible
    simp only [if_true, changed, toNat_sub]
    omega
  | false =>
    simp only [CanChange, Bool.false_eq_true, if_false] at possible
    simp only [Bool.false_eq_true, if_false, changed, toNat_add]
    omega

theorem changed_le {old} (possible : CanChange g addend decrease old)
    (le : old ≤ g.refcountMax.toNat) : changed addend decrease old ≤ g.refcountMax.toNat := by
  cases decrease with
  | true =>
    simp only [changed, if_true]
    omega
  | false =>
    simp only [CanChange, Bool.false_eq_true, if_false] at possible
    simpa only [changed, Bool.false_eq_true, if_false] using possible

theorem eq_of_div_mod {c c' n : Nat} (div : c / n = c' / n) (mod : c % n = c' % n) : c = c' := by
  rw [← div_add_mod c n, ← div_add_mod c' n, div, mod]

variable {block : Nat}

/-- Writing a refcount into its block. -/
theorem refcount_setBlock {value : BitVec 64} (readable : Readable g s)
    (found : s.lookup (cluster / g.refcountBlockSize) = some block)
    (small : value.toNat ≤ g.refcountMax.toNat) (c : Nat) :
    refcount g
      (s.setBlock block (g.setRefcount (s.block block) (cluster % g.refcountBlockSize) value)) c =
      if c = cluster then value.toNat else refcount g s c := by
  have narrow : value.toNat < 2 ^ 2 ^ g.refcountOrder.val := by
    have := Nat.two_pow_pos (2 ^ g.refcountOrder.val)
    rw [g.toNat_refcountMax] at small
    omega
  have same : ∀ i, (s.setBlock block (g.setRefcount (s.block block)
        (cluster % g.refcountBlockSize) value)).lookup i = s.lookup i := fun _ => rfl
  cases desc : s.lookup (c / g.refcountBlockSize) with
  | none =>
    have other : c ≠ cluster := by
      rintro rfl
      rw [found] at desc
      contradiction
    rw [if_neg other, refcount_of_none (same _ ▸ desc), refcount_of_none desc]
  | some offset =>
    rw [refcount_of_some (same _ ▸ desc), refcount_of_some desc, block_setBlock]
    by_cases here : offset = block
    · subst here
      -- A block is entered in the table once.
      have index := readable.distinct desc found
      rw [if_pos rfl, Geometry.getRefcount, Geometry.setRefcount,
        getRefcountFuncs_set _ _ _ _ narrow]
      by_cases eq : c = cluster
      · rw [if_pos eq, if_pos (eq ▸ rfl)]
      · rw [if_neg eq, if_neg fun mod => eq (eq_of_div_mod index mod)]
    · have other : c ≠ cluster := by
        rintro rfl
        exact here (Option.some.inj (desc.symm.trans found))
      rw [if_neg here, if_neg other]

theorem refcount_cacheDiscard (safe : ∀ i, s.lookup i = some offset → s.dirty offset = none) (c) :
    refcount g (s.cacheDiscard offset) c = refcount g s c := by
  have same : SameTable s (s.cacheDiscard offset) := ⟨rfl, rfl, rfl, rfl⟩
  refine same.refcount_eq (fun i other found => ?_) c
  rw [State.block, State.block, State.cacheDiscard]
  by_cases here : other = offset
  · subst here
    simp [safe i found]
  · simp only [update_of_ne here]

variable {indices : Nat → Prop}

/-- Writing an entry changes one cluster's refcount. -/
theorem changedOne_setBlock (hint : Nat) {value} (readable : Readable g s)
    (found : s.lookup (cluster / g.refcountBlockSize) = some block)
    (small : value.toNat ≤ g.refcountMax.toNat) :
    ChangedOne g s cluster value.toNat (({ s with freeClusterIndex := hint } : State).setBlock block
      (g.setRefcount (s.block block) (cluster % g.refcountBlockSize) value)) where
  table := ⟨rfl, rfl, rfl, rfl⟩
  refcount c := by
    have hinted : SameTable s { s with freeClusterIndex := hint } := ⟨rfl, rfl, rfl, rfl⟩
    rw [← hinted.refcount_eq (fun _ _ _ => rfl) c]
    exact refcount_setBlock (hinted.readable readable) found small c
  others offset absent clean := by
    have other : offset ≠ block := fun eq => absent (eq ▸ found)
    constructor
    · exact (block_setBlock _ _ _ _).trans (if_neg other)
    · exact (update_of_ne other _ _).trans clean

/-- Dropping a block nobody reads or wrote changes no refcount. -/
theorem ChangedOne.cacheDiscard {value} (change : ChangedOne g s cluster value s')
    (safe : ∀ i, s'.lookup i = some offset → s'.dirty offset = none) :
    ChangedOne g s cluster value (s'.cacheDiscard offset) where
  table := change.table.trans ⟨rfl, rfl, rfl, rfl⟩
  refcount c := (refcount_cacheDiscard safe c).trans (change.refcount c)
  others other absent clean := by
    obtain ⟨block, clean⟩ := change.others other absent clean
    by_cases here : other = offset
    · subst here
      -- There is nothing to be forgotten.
      have unchanged : update s'.dirty other none = s'.dirty := by
        rw [← clean, update_eq_self]
      rw [State.cacheDiscard, unchanged]
      exact ⟨block, clean⟩
    · have kept : (s'.cacheDiscard offset).dirty other = s'.dirty other := update_of_ne here _ _
      refine ⟨Eq.trans ?_ block, kept.trans clean⟩
      rw [State.block, State.block, kept]
      rfl

/-- What one turn of the loop of `update_refcount` does to the state. -/
theorem changeRefcount_cases (offset cluster block addend decrease)
    (loaded : Option (Nat × Nat)) (s) {new} (value : (if decrease then g.getRefcount (s.block block)
      (cluster % g.refcountBlockSize) - addend
      else g.getRefcount (s.block block) (cluster % g.refcountBlockSize) + addend) = new) :
    ∃ hint, (hint ≤ s.freeClusterIndex ∧ (new.toNat ≠ 0 → hint = s.freeClusterIndex)) ∧
      (changeRefcount g offset cluster block addend decrease loaded s =
          (loaded, ({ s with freeClusterIndex := hint } : State).setBlock block
            (g.setRefcount (s.block block) (cluster % g.refcountBlockSize) new)) ∨
        changeRefcount g offset cluster block addend decrease loaded s =
          (none, (({ s with freeClusterIndex := hint } : State).setBlock block
            (g.setRefcount (s.block block) (cluster % g.refcountBlockSize) new)).cacheDiscard
                offset)) := by
  refine ⟨if new = 0#64 ∧ cluster < s.freeClusterIndex then cluster else s.freeClusterIndex,
    ⟨?_, ?_⟩, ?_⟩
  · split <;> omega
  · intro used
    apply if_neg
    rintro ⟨unused, _⟩
    exact used (unused ▸ rfl)
  · subst value
    exact (Classical.em _).elim (fun forget => .inr (if_pos forget)) fun keep => .inl (if_neg keep)

/-- The effect of one turn of the loop of `update_refcount`. -/
structure Turned (g : Geometry) (s : State) (offset cluster : Nat) (value : Nat)
    (indices : Nat → Prop) (s' : State) : Prop extends ChangedOne g s cluster value s' where
  safe : DiscardSafe s' offset indices
  hint_le : s'.freeClusterIndex ≤ s.freeClusterIndex
  hint_eq : value ≠ 0 → s'.freeClusterIndex = s.freeClusterIndex

/-- A turn of the loop on a block that is there changes the refcount of its cluster. -/
theorem changeRefcount_spec (loaded : Option (Nat × Nat)) (readable : Readable g s)
    (found : s.lookup (cluster / g.refcountBlockSize) = some block)
    (possible : CanChange g addend decrease (refcount g s cluster))
    (safe : DiscardSafe s offset indices) (inside : indices (cluster / g.refcountBlockSize)) :
    ((changeRefcount g offset cluster block addend decrease loaded s).1 = none ∨
        (changeRefcount g offset cluster block addend decrease loaded s).1 = loaded) ∧
      Turned g s offset cluster (changed addend decrease (refcount g s cluster)) indices
        (changeRefcount g offset cluster block addend decrease loaded s).2 := by
  rw [refcount_of_some found] at possible ⊢
  have small := changed_le possible (refcount_of_some found ▸ refcount_le g s cluster)
  rw [← toNat_changed possible] at small ⊢
  obtain ⟨hint, ⟨hintLe, hintEq⟩, ends⟩ :=
    changeRefcount_cases (g := g) offset cluster block addend decrease loaded s rfl
  -- A block of the range is not the one that may be forgotten.
  have ne_block : offset ≠ block := by
    rintro rfl
    exact (safe _ found).2 inside
  have kept := ne_block
  have change := changedOne_setBlock (g := g) hint readable found small
  have stillSafe (data : RefcountBlock) :
      DiscardSafe (({ s with freeClusterIndex := hint } : State).setBlock block data) offset
        indices :=
    fun i foundI => ⟨(update_of_ne kept _ _).trans (safe i foundI).1, (safe i foundI).2⟩
  rcases ends with same | forgotten
  · rw [same]
    exact ⟨.inr rfl, change, stillSafe _, hintLe, hintEq⟩
  · rw [forgotten]
    have discarded := change.cacheDiscard fun i foundI => (stillSafe _ i foundI).1
    exact ⟨.inl rfl, discarded, fun i foundI => ⟨update_self .., (safe i foundI).2⟩, hintLe, hintEq⟩

end Qemu.Qcow2
