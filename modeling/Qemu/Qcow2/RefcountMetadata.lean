import Qemu.Qcow2.RefcountSound
import Mathlib.Order.Bounds.Basic

/-! The size of new refcount structures, and the blocks that are filled for them. -/

namespace Qemu.Qcow2

open Align Function Nat

variable {g : Geometry} {s s' : State} {r e clusters table blocks last blocks' table' : Nat}

theorem divRoundUp_le_iff {n d m} (pos : 0 < d) : divRoundUp n d ≤ m ↔ n ≤ m * d := by
  rw [divRoundUp, ← Nat.lt_succ_iff, Nat.div_lt_iff_lt_mul pos, Nat.succ_mul]
  omega

theorem le_divRoundUp_mul {d} (pos : 0 < d) (n) : n ≤ divRoundUp n d * d :=
  (divRoundUp_le_iff pos).mp le_rfl

theorem divRoundUp_mono {n n' d} (pos : 0 < d) (le : n ≤ n') : divRoundUp n d ≤ divRoundUp n' d :=
  (divRoundUp_le_iff pos).mpr (le.trans (le_divRoundUp_mul pos n'))

theorem lt_divRoundUp_iff {n d m} (pos : 0 < d) : m < divRoundUp n d ↔ m * d < n := by
  rw [← not_le, divRoundUp_le_iff pos, not_le]

/-- The numbers of blocks and of table clusters that are enough for some clusters and themselves. -/
def CountsAll (refcountsPerBlock blocksPerTableCluster clusters : Nat) : Set (Nat × Nat) :=
  {pair | clusters + pair.1 + pair.2 ≤ pair.1 * refcountsPerBlock ∧
    pair.1 ≤ pair.2 * blocksPerTableCluster}

/-- Where the loop of `qcow2_refcount_metadata_size` is: the numbers rise, below all that are
enough. -/
structure Sizing (r e clusters table blocks last : Nat) : Prop where
  table_eq : table = divRoundUp blocks e
  rising : blocks ≤ divRoundUp (clusters + table + blocks) r
  last_eq : last = clusters + blocks + table ∨ last = 0
  below : (blocks, table) ∈ lowerBounds (CountsAll r e clusters)

/-- A turn of the sizing loop only grows its estimates. -/
theorem Sizing.turn (sizing : Sizing r e clusters table blocks last) (wide : 0 < e) (large : 0 < r)
    (newBlocks : divRoundUp (clusters + table + blocks) r = blocks')
    (newTable : divRoundUp blocks' e = table') :
    blocks ≤ blocks' ∧ table ≤ table' ∧
        Sizing r e clusters table' blocks' (clusters + blocks' + table') := by
  have blocksLe : blocks ≤ blocks' := newBlocks ▸ sizing.rising
  have tableLe : table ≤ table' := sizing.table_eq ▸ newTable ▸ divRoundUp_mono wide blocksLe
  refine ⟨blocksLe, tableLe, newTable.symm, ?_, .inl rfl, fun pair enough => ?_⟩
  · rw [← newBlocks]
    apply divRoundUp_mono large
    omega
  · obtain ⟨counted, entered⟩ := enough
    obtain ⟨below, belowTable⟩ := sizing.below ⟨counted, entered⟩
    have stillBelow : blocks' ≤ pair.1 := by
      rw [← newBlocks, divRoundUp_le_iff large]
      simp only at below belowTable
      omega
    exact ⟨stillBelow, newTable ▸ (divRoundUp_le_iff wide).mpr (stillBelow.trans entered)⟩

theorem Sizing.ends (sizing : Sizing r e clusters table blocks last) (wide : 0 < e) (large : 0 < r)
    (newBlocks : divRoundUp (clusters + table + blocks) r = blocks')
    (newTable : divRoundUp blocks' e = table') (same : clusters + blocks' + table' = last) :
    IsLeast (CountsAll r e clusters) (blocks', table') := by
  obtain ⟨blocksLe, tableLe, next⟩ := sizing.turn wide large newBlocks newTable
  refine ⟨⟨?_, newTable ▸ le_divRoundUp_mul wide blocks'⟩, next.below⟩
  have covered := le_divRoundUp_mul large (clusters + table + blocks)
  rw [newBlocks] at covered
  show clusters + blocks' + table' ≤ blocks' * r
  rcases sizing.last_eq with genuine | zero <;> omega

theorem Sizing.enlarge (sizing : Sizing r e clusters table blocks last) (large : 0 < r) (more) :
    Sizing r e (clusters + more) table blocks 0 where
  table_eq := sizing.table_eq
  rising := sizing.rising.trans (divRoundUp_mono large (by omega))
  last_eq := .inr rfl
  below pair enough := sizing.below ⟨le_trans (by omega) enough.1, enough.2⟩

theorem Sizing.le_clusters (sizing : Sizing r e clusters table blocks last)
    (wide : 0 < e) (large : 3 ≤ r) : blocks ≤ clusters ∧ table ≤ clusters := by
  refine @sizing.below (clusters, clusters) ⟨?_, Nat.le_mul_of_pos_right _ wide⟩
  have := mul_le_mul_left clusters large
  show clusters + clusters + clusters ≤ clusters * r
  omega

/-- With enough turns the loop ends at the least numbers that are enough, for more clusters if need
be. -/
theorem metadataLoop_least {turns : Nat} {generous : Bool} (wide : 0 < e) (large : 3 ≤ r)
    (sizing : Sizing r e clusters table blocks last)
    (enough : (if generous then 3 * clusters + 4 else 2 * clusters + 1) +
      (if last = 0 then 1 else 0) ≤ turns + blocks + table) :
    ∃ exact pair, IsLeast (CountsAll r e clusters) exact ∧
      metadataLoop r e turns clusters table blocks last generous = some pair ∧
      IsLeast (CountsAll r e (if generous then clusters + divRoundUp exact.2 2 else clusters))
          pair := by
  induction turns generalizing clusters table blocks last generous with
  | zero =>
    obtain ⟨blocksLe, tableLe⟩ := sizing.le_clusters wide large
    cases generous <;> simp only [if_true, Bool.false_eq_true, if_false] at enough <;> omega
  | succ turns ih =>
    simp only [metadataLoop]
    generalize newBlocks : divRoundUp (clusters + table + blocks) r = blocks'
    generalize newTable : divRoundUp blocks' e = table'
    have pos : 0 < r := by omega
    obtain ⟨blocksLe, tableLe, next⟩ := sizing.turn wide pos newBlocks newTable
    -- The loop ends at the first estimate that reproduces itself.
    by_cases same : clusters + blocks' + table' = last
    · have least := sizing.ends wide pos newBlocks newTable same
      cases generous with
      | false => exact ⟨_, (blocks', table'), least, by simp [same], by simpa using least⟩
      | true =>
        by_cases zero : last = 0
        · have none : table' = 0 := by omega
          exact ⟨_, (blocks', table'),
            least, by simp [same, zero], by simpa [none, divRoundUp] using least⟩
        · -- The same is done for a table that is half as large again.
          have half : divRoundUp table' 2 * 2 ≤ clusters + 1 := by
            have := (next.le_clusters wide large).2
            rw [divRoundUp]
            omega
          obtain ⟨_, pair, _, res, largest⟩ :=
              @ih _ _ _ _ false (next.enlarge pos (divRoundUp table' 2)) (by
            rw [if_neg zero, if_pos rfl] at enough
            simp only [Bool.false_eq_true, if_false, if_true]
            omega)
          exact ⟨_, pair, least, by simp [same, zero, res], by simpa using largest⟩
    · obtain ⟨exact, pair, least, res, largest⟩ := @ih _ _ _ _ generous next (by
        rw [if_neg (show clusters + blocks' + table' ≠
          0 by rcases sizing.last_eq with genuine | zero <;> omega)]
        generalize (if generous then 3 * clusters + 4 else 2 * clusters + 1) = needed at enough ⊢
        rcases sizing.last_eq with genuine | zero
        · split at enough <;> omega
        · rw [if_pos zero] at enough
          omega)
      exact ⟨exact, pair, least, by simp [same, res], largest⟩

theorem sizing_start (wide : 0 < e) (clusters) : Sizing r e clusters 0 0 0 where
  table_eq := le_antisymm (zero_le _) ((divRoundUp_le_iff wide).mpr (zero_le _))
  rising := zero_le _
  last_eq := .inr rfl
  below _ _ := ⟨zero_le _, zero_le _⟩

variable (g : Geometry)

theorem Geometry.clusterSize_eq : g.clusterSize = 8 * g.tableEntries := by
  rw [tableEntries, Nat.mul_div_cancel']
  exact pow_dvd_pow 2 (show 3 ≤ g.clusterBits by have := g.clusterBits_ge; omega)

theorem Geometry.tableEntries_ge : 64 ≤ g.tableEntries := by
  have := g.clusterSize_ge
  have := g.clusterSize_eq
  omega

theorem Geometry.refcountsPerBlock_eq :
    g.clusterSize * 8 / 2 ^ g.refcountOrder.val = g.refcountBlockSize := by
  have := g.clusterBits_ge
  rw [clusterSize, refcountBlockSize, refcountBlockBits, show 8 = 2 ^ 3 from rfl, ← pow_add,
    Nat.pow_div (by omega) (by decide)]

theorem metadataSize_least (clusters generous) :
    ∃ exact pair, IsLeast (CountsAll g.refcountBlockSize g.tableEntries clusters) exact ∧
      qcow2RefcountMetadataSize g clusters generous = some pair ∧
      IsLeast (CountsAll g.refcountBlockSize g.tableEntries
        (if generous then clusters + divRoundUp exact.2 2 else clusters)) pair := by
  have wide := g.tableEntries_ge
  have large := g.refcountBlockSize_ge
  rw [qcow2RefcountMetadataSize, g.refcountsPerBlock_eq]
  refine metadataLoop_least (by omega) (by omega) (sizing_start (by omega) clusters) ?_
  split <;> simp only [if_true] <;> omega

/-- The numbers of blocks and of table clusters are the least that are enough; with a generous
increase for more clusters, half as many as the table has without it. -/
theorem qcow2RefcountMetadataSize_least (g : Geometry) (clusters : Nat) :
    ∃ exact, IsLeast (CountsAll g.refcountBlockSize g.tableEntries clusters) exact ∧
      qcow2RefcountMetadataSize g clusters false = some exact ∧
      ∃ generous, qcow2RefcountMetadataSize g clusters true = some generous ∧
        IsLeast (CountsAll g.refcountBlockSize g.tableEntries (clusters + divRoundUp exact.2 2))
            generous := by
  obtain ⟨_, exact, _, result, least⟩ := metadataSize_least g clusters false
  obtain ⟨same, generous, least', result', largest⟩ := metadataSize_least g clusters true
  rw [if_neg Bool.false_ne_true] at least
  rw [if_pos rfl, least'.unique least] at largest
  exact ⟨exact, least, result, generous, result', largest⟩

/-- The loop ends with room for the clusters and its own metadata. -/
theorem qcow2RefcountMetadataSize_spec (k) :
    ∃ total tables, qcow2RefcountMetadataSize g (k * g.refcountBlockSize) true =
      some (total, tables) ∧ total ≤ 2 * k ∧
      k * g.refcountBlockSize + total + divRoundUp total g.tableEntries ≤
          total * g.refcountBlockSize := by
  have wide := g.tableEntries_ge
  have room := mul_le_mul_left k g.refcountBlockSize_ge
  have entries := mul_le_mul_left k wide
  obtain ⟨exact, pair, least, res, largest⟩ := metadataSize_least g (k * g.refcountBlockSize) true
  -- Twice as many blocks are enough in any case.
  have plenty {clusters : Nat} (le : clusters ≤ k * g.refcountBlockSize + k) :
      (2 * k, k) ∈ CountsAll g.refcountBlockSize g.tableEntries clusters := by
    refine ⟨?_, show 2 * k ≤ k * g.tableEntries by omega⟩
    rw [mul_assoc]
    omega
  have half : divRoundUp exact.2 2 ≤ k := by
    have below : exact.2 ≤ k := (least.2 (plenty (le_add_right _ _))).2
    rw [divRoundUp]
    omega
  rw [if_pos rfl] at largest
  obtain ⟨counted, entered⟩ := largest.1
  have tables := (divRoundUp_le_iff (show 0 < g.tableEntries by omega)).mpr entered
  refine ⟨pair.1, pair.2, res, (largest.2 (plenty (Nat.add_le_add_left half _))).1, ?_⟩
  omega

/-- The loop sets the entries of a run from 0 to 1. -/
theorem setOnes_spec (block j count)
    (zero : ∀ x, j ≤ x → x < j + count → g.getRefcount block x = 0#64) :
    ∃ filled, setOnes g block j count = some filled ∧
      ∀ x, g.getRefcount filled x = if j ≤ x ∧
          x < j + count then 1#64 else g.getRefcount block x := by
  induction count generalizing block j with
  | zero => exact ⟨block, rfl, fun x => (if_neg (by omega)).symm⟩
  | succ count ih =>
    have one : (1#64).toNat < 2 ^ 2 ^ g.refcountOrder.val := by
      have := g.one_le_refcountMax
      rw [g.toNat_refcountMax] at this
      show 1 < _
      omega
    have set (x : Nat) : g.getRefcount (g.setRefcount block j 1#64) x = if x = j then 1#64
      else g.getRefcount block x := getRefcountFuncs_set g.refcountOrder block j x one
    have later (x : Nat) (above : j + 1 ≤ x) (below : x < j + 1 + count) :
        g.getRefcount (g.setRefcount block j 1#64) x = 0#64 := by
      rw [set, if_neg (by omega)]
      exact zero x (by omega) (by omega)
    obtain ⟨filled, res, all⟩ := ih _ _ later
    refine ⟨filled, ?_, fun x => ?_⟩
    · rw [setOnes, if_pos (zero j le_rfl (by omega)), res]
    · rw [all, set]
      by_cases here : x = j
      · rw [if_neg (by omega), if_pos here, if_pos (by omega)]
      · rw [if_neg here]
        exact if_congr (by omega) rfl rfl

/-- The cluster of the new block with an index, if they are placed from a cluster on. -/
def placed (k start i : Nat) : Nat := start + (i - k)

/-- What the loop of `qcow2_refcount_area` has done with the blocks from one on, up to a cluster
that is counted last. -/
structure Filled (g : Geometry) (s : State) (k stop first count : Nat) (s' : State) : Prop where
  table : SameTable s s'
  hint : s'.freeClusterIndex = s.freeClusterIndex
  others : ∀ offset, (∀ i, first ≤ i → i < first + count →
    offset ≠ placed k (k * g.refcountBlockSize) i * g.clusterSize) →
      s'.block offset = s.block offset
  filled : ∀ i x, first ≤ i → i < first + count → x < g.refcountBlockSize →
    g.getRefcount (s'.block (placed k (k * g.refcountBlockSize) i * g.clusterSize)) x =
      if i * g.refcountBlockSize + x < stop then 1#64 else 0#64

/-- A turn of the loop of `qcow2_refcount_area` for an index without a block. -/
theorem fillBlocks_turn {k i table} (stop blockOffset) (le : k ≤ i) (absent : table i = 0) (s) :
    ∃ data : RefcountBlock, (∀ x, x < g.refcountBlockSize →
        g.getRefcount data x = if i * g.refcountBlockSize + x < stop then 1#64 else 0#64) ∧
      ∀ count, fillBlocks g (k * g.refcountBlockSize * g.clusterSize)
        (stop * g.clusterSize) k (count + 1) i table blockOffset s =
        fillBlocks g (k * g.refcountBlockSize * g.clusterSize)
          (stop * g.clusterSize) k count (i + 1)
          (update table i blockOffset) (blockOffset + g.clusterSize)
              (s.setBlock blockOffset data) := by
  have pos := g.clusterSize_pos
  have notBefore : ¬ i * g.refcountBlockSize * g.clusterSize < k
    * g.refcountBlockSize * g.clusterSize := not_lt.mpr (mul_le_mul_right _ (mul_le_mul_right _ le))
  have zero (x : Nat) : g.getRefcount (fun _ => 0#8) x = 0#64 :=
    getRefcountFuncs_zero g.refcountOrder x
  by_cases covered : i * g.refcountBlockSize < stop
  · -- The block counts some clusters of the new structures.
    have inside : i * g.refcountBlockSize * g.clusterSize < stop * g.clusterSize :=
      (Nat.mul_lt_mul_right pos).mpr covered
    have width : (stop * g.clusterSize - i * g.refcountBlockSize * g.clusterSize) / g.clusterSize =
        stop - i * g.refcountBlockSize := by
      rw [← Nat.sub_mul, Nat.mul_div_cancel _ pos]
    obtain ⟨data, res, all⟩ := setOnes_spec (g := g) (fun _ => 0#8) 0
      (min (stop - i * g.refcountBlockSize) g.refcountBlockSize) fun x _ _ => zero x
    refine ⟨data, fun x below => ?_, fun count => ?_⟩
    · rw [all, zero]
      exact if_congr (by omega) rfl rfl
    · simp [fillBlocks, absent, inside, notBefore, width, res]
  have out : ¬ i * g.refcountBlockSize * g.clusterSize < stop * g.clusterSize := by
    rw [Nat.mul_lt_mul_right pos]
    exact covered
  refine ⟨fun _ => 0#8, fun x below => ?_, fun count => ?_⟩
  · rw [zero, if_neg (by omega)]
  · simp [fillBlocks, absent, out]

/-- The loop of `qcow2_refcount_area` over indices for which there is no block. -/
theorem fillBlocks_spec {k count i table} (stop) (le : k ≤ i)
    (absent : ∀ j, i ≤ j → j < i + count → table j = 0) (s) :
    ∃ s', fillBlocks g (k * g.refcountBlockSize * g.clusterSize)
      (stop * g.clusterSize) k count i table
        (placed k (k * g.refcountBlockSize) i * g.clusterSize) s =
        some (fun j => if i ≤ j ∧ j < i + count then placed k (k * g.refcountBlockSize)
          j * g.clusterSize else table j,
          placed k (k * g.refcountBlockSize) (i + count) * g.clusterSize, s') ∧
      Filled g s k stop i count s' := by
  induction count generalizing i table s with
  | zero =>
    refine ⟨s, ?_, .refl s, rfl, fun _ _ => rfl, fun j x above below => by omega⟩
    have same : (fun j => if i ≤ j ∧
      j < i + 0 then placed k (k * g.refcountBlockSize) j * g.clusterSize else table j) =
        table := by
      funext j
      exact if_neg (by omega)
    rw [same]
    rfl
  | succ count ih =>
    obtain ⟨data, filled, turn⟩ :=
      fillBlocks_turn (g := g) stop (placed k (k * g.refcountBlockSize) i * g.clusterSize) le
      (absent i le_rfl (by omega)) s
    have next : placed k (k * g.refcountBlockSize) i * g.clusterSize + g.clusterSize =
        placed k (k * g.refcountBlockSize) (i + 1) * g.clusterSize := by
      rw [placed, placed, show i + 1 - k = i - k + 1 by omega, ← Nat.succ_mul]
      rfl
    have later (j : Nat) (above : i + 1 ≤ j) (below : j < i + 1 + count) :
        update table i (placed k (k * g.refcountBlockSize) i * g.clusterSize) j = 0 := by
      rw [update_of_ne (by omega)]
      exact absent j (by omega) (by omega)
    obtain ⟨s', res, rest⟩ := ih (le_succ_of_le le) later
      (s.setBlock (placed k (k * g.refcountBlockSize) i * g.clusterSize) data)
    -- New blocks are in different places.
    have apart {j : Nat} (ne : j ≠ i) (above : i ≤ j) :
        placed k (k * g.refcountBlockSize) i * g.clusterSize ≠
            placed k (k * g.refcountBlockSize) j * g.clusterSize := by
      intro eq
      have := eq_of_mul_eq_mul_right g.clusterSize_pos eq
      rw [placed, placed] at this
      omega
    refine ⟨s', ?_, ?_⟩
    · rw [turn, next, res, add_right_comm i 1 count]
      refine congrArg (fun entries => some (entries, _, s')) (funext fun j => ?_)
      by_cases here : j = i
      · subst here
        rw [if_neg (by omega), if_pos (by omega), update_self]
      · rw [update_of_ne here]
        exact if_congr (by omega) rfl rfl
    · refine ⟨(sameTable_setBlock _ _ _).trans rest.table, rest.hint, fun offset other => ?_,
        fun j x above below small => ?_⟩
      · rw [rest.others offset fun j above below => other j (by omega) (by omega), block_setBlock,
          if_neg (other i le_rfl (by omega))]
      · by_cases here : j = i
        · subst here
          rw [rest.others _ fun j' above' below' => apart (by omega) (by omega),
            block_setBlock, if_pos rfl]
          exact filled x small
        · exact rest.filled j x (by omega) (by omega) small

end Qemu.Qcow2
