import Qemu.Qcow2.RefcountUpdate

/-! The clusters of the refcount structures, and images in which they are counted. -/

namespace Qemu.Qcow2

open Finset Nat Option

variable {g : Geometry} {s s' : State} {nbClusters : Nat}

/-- A cluster holds a refcount block. -/
def BlockAt (g : Geometry) (s : State) (c : Nat) : Prop :=
  ∃ i < s.refcountTableSize, s.lookup i = some (c * g.clusterSize)

/-- A cluster holds a part of the refcount table. -/
def TableAt (g : Geometry) (s : State) (c : Nat) : Prop :=
  s.refcountTableOffset ≤ c * g.clusterSize ∧
    c * g.clusterSize < s.refcountTableOffset + s.refcountTableSize * 8

instance (c : Nat) : Decidable (BlockAt g s c) := inferInstanceAs (Decidable (∃ i < _, _))

instance (c : Nat) : Decidable (TableAt g s c) := inferInstanceAs (Decidable (_ ∧ _))

/-- How often a cluster is used by the refcount structures. -/
def structures (g : Geometry) (s : State) (c : Nat) : Nat :=
  (if BlockAt g s c then 1 else 0) + if TableAt g s c then 1 else 0

theorem structures_eq_zero_iff (c) : structures g s c = 0 ↔ ¬ BlockAt g s c ∧ ¬ TableAt g s c := by
  rw [structures]
  split <;> split <;> simp_all

theorem blockAt_iff (c) : BlockAt g s c ↔ ∃ i, s.lookup i = some (c * g.clusterSize) :=
  ⟨fun ⟨i, _, found⟩ => ⟨i, found⟩, fun ⟨i, found⟩ => ⟨i, lookup_lt found, found⟩⟩

theorem SameTable.structures (same : SameTable s s') (c) :
    structures g s' c = Qcow2.structures g s c := by
  have block : BlockAt g s' c ↔ BlockAt g s c := by simp only [blockAt_iff, same.lookup]
  have table : TableAt g s' c ↔ TableAt g s c := by
    rw [TableAt, TableAt, same.refcountTableSize, same.refcountTableOffset]
  simp only [Qcow2.structures, block, table]

/-- A refcount table that is laid out as the format says. -/
structure Laid (g : Geometry) (s : State) : Prop extends Readable g s where
  tableAligned : s.refcountTableOffset % g.clusterSize = 0
  tableWhole : s.refcountTableSize * 8 % g.clusterSize = 0
  size_le : s.refcountTableSize ≤ qcowMaxReftableSize
  maxIndex_lt : s.maxRefcountTableIndex < s.refcountTableSize
  le_maxIndex : ∀ {i offset}, s.lookup i = some offset → i ≤ s.maxRefcountTableIndex

/-- A refcount table whose clusters and blocks are counted, and do not overlap. -/
structure Sound (g : Geometry) (s : State) : Prop extends Laid g s where
  counted : ∀ c, structures g s c ≤ refcount g s c
  apart : ∀ c, structures g s c ≤ 1

theorem Laid.of_sameTable (laid : Laid g s) (same : SameTable s s') : Laid g s' where
  toReadable := same.readable laid.toReadable
  tableAligned := by rw [same.refcountTableOffset]; exact laid.tableAligned
  tableWhole := by rw [same.refcountTableSize]; exact laid.tableWhole
  size_le := by rw [same.refcountTableSize]; exact laid.size_le
  maxIndex_lt := by rw [same.refcountTableSize, same.maxRefcountTableIndex]; exact laid.maxIndex_lt
  le_maxIndex
    found := by rw [same.maxRefcountTableIndex]; exact laid.le_maxIndex (same.lookup _ ▸ found)

theorem Sound.of_sameTable (sound : Sound g s) (same : SameTable s s')
    (counted : ∀ c, structures g s c ≤ refcount g s' c) : Sound g s' where
  toLaid := sound.toLaid.of_sameTable same
  counted c := by rw [same.structures]; exact counted c
  apart c := by rw [same.structures]; exact sound.apart c

theorem Sound.structures_free (sound : Sound g s) {c}
    (free : refcount g s c = 0) : structures g s c = 0 := by
  have := sound.counted c
  omega

/-- What creating refcount structures leaves: a cluster is counted once more if it has become part
of them. A created block may be left over if it could not be entered into the table. -/
structure Grown (g : Geometry) (s s' : State) (leak : Option Nat) : Prop where
  sound : Sound g s'
  kept : ∀ {i offset}, s.lookup i = some offset → s'.lookup i = some offset
  balance : ∀ c, leak ≠ some c → refcount g s' c + structures g s c =
    refcount g s c + structures g s' c
  leaked : ∀ c, leak = some c → refcount g s' c = refcount g s c + 1 ∧
    structures g s c = 0 ∧ structures g s' c = 0 ∧
    s'.block (c * g.clusterSize) = (fun _ => 0#8) ∧ s'.dirty (c * g.clusterSize) = none
  /-- A new block is written back. -/
  clean : ∀ offset, (∀ i, s.lookup i ≠ some offset) →
    (∃ i, s'.lookup i = some offset) → s'.dirty offset = none

/-- New refcount structures are in clusters that were free. -/
def Fresh (g : Geometry) (s s' : State) (leak : Option Nat) : Prop :=
  ∀ c, structures g s c = 0 → structures g s' c ≠ 0 ∨ leak = some c → refcount g s c = 0

/-- Structures are counted where they are added, and not where they are taken away. -/
theorem grown_of_moved (added removed : Nat → Nat) (sound : Sound g s) (laid : Laid g s')
    (kept : ∀ {i offset}, s.lookup i = some offset → s'.lookup i = some offset)
    (refcounts : ∀ c, refcount g s' c + removed c = refcount g s c + added c)
    (moved : ∀ c, structures g s' c + removed c = structures g s c + added c)
    (added_le : ∀ c, added c ≤ 1) (free : ∀ c, added c ≠ 0 → refcount g s c = 0)
    (clean : ∀ offset, (∀ i, s.lookup i ≠ some offset) → (∃ i, s'.lookup i = some offset) →
      s'.dirty offset = none) :
    Grown g s s' none ∧ Fresh g s s' none := by
  have counted (c : Nat) := sound.counted c
  have apart (c : Nat) := sound.apart c
  refine ⟨⟨⟨laid, fun c => ?_, fun c => ?_⟩, kept, fun c _ => ?_,
    fun c none => by contradiction, clean⟩, ?_⟩
  · have := refcounts c
    have := moved c
    have := counted c
    omega
  · have := moved c
    have := counted c
    have := apart c
    have := added_le c
    by_cases new : added c = 0
    · omega
    · have := free c new
      omega
  · have := refcounts c
    have := moved c
    omega
  · rintro c zero (nonzero | none)
    · refine free c fun new => ?_
      have := moved c
      omega
    · contradiction

theorem Grown.refl (sound : Sound g s) : Grown g s s none where
  sound := sound
  kept := id
  balance _ _ := rfl
  leaked _ none := by contradiction
  clean _ absent := fun ⟨i, found⟩ => absurd found (absent i)

theorem Fresh.refl (g s) : Fresh g s s none := by
  rintro c zero (nonzero | none)
  · contradiction
  · contradiction

def missingBlocks (s : State) : Finset Nat :=
  (range s.refcountTableSize).filter fun i => s.lookup i = none

/-- How often a refcount block can be created or the table can grow. -/
def growthLeft (s : State) : Nat :=
  (qcowMaxReftableSize - s.refcountTableSize) * (qcowMaxReftableSize + 1) + (missingBlocks s).card

theorem SameTable.growthLeft (same : SameTable s s') : growthLeft s' = Qcow2.growthLeft s := by
  simp only [Qcow2.growthLeft, missingBlocks, same.refcountTableSize, same.lookup]

/-- A larger table leaves less to grow. -/
theorem growthLeft_lt_of_size (laid : Laid g s') (lt : s.refcountTableSize < s'.refcountTableSize) :
    growthLeft s' < growthLeft s := by
  have le := laid.size_le
  have missing : (missingBlocks s').card ≤ qcowMaxReftableSize := by
    have := card_filter_le (range s'.refcountTableSize) fun i => s'.lookup i = none
    rw [card_range] at this
    exact this.trans le
  have factor : (qcowMaxReftableSize - s'.refcountTableSize + 1) * (qcowMaxReftableSize + 1) ≤
      (qcowMaxReftableSize - s.refcountTableSize) * (qcowMaxReftableSize + 1) :=
    mul_le_mul_right _ (by omega)
  rw [succ_mul] at factor
  rw [growthLeft, growthLeft]
  omega

/-- A new block leaves less to grow. -/
theorem growthLeft_lt_of_block {index} (size : s'.refcountTableSize = s.refcountTableSize)
    (small : index < s.refcountTableSize) (missing : s.lookup index = none)
    (found : s'.lookup index ≠ none)
    (kept : ∀ i, s'.lookup i = none → s.lookup i = none) : growthLeft s' < growthLeft s := by
  have fewer : missingBlocks s' ⊂ missingBlocks s := by
    rw [ssubset_iff_of_subset]
    · refine ⟨index, mem_filter.mpr ⟨mem_range.mpr small, missing⟩, fun still => ?_⟩
      exact found (mem_filter.mp still).2
    · intro i inside
      obtain ⟨below, none⟩ := mem_filter.mp inside
      exact mem_filter.mpr ⟨size ▸ below, kept i none⟩
  have := card_lt_card fewer
  rw [growthLeft, growthLeft, size]
  omega

section

variable (readable : Readable g s)

include readable

theorem searchFree_succ (turns found next) : searchFree g s nbClusters (turns + 1) found next =
      if found = nbClusters then some (.ok (), next)
      else if refcount g s next = 0 then searchFree g s nbClusters turns (found + 1) (next + 1)
      else searchFree g s nbClusters turns 0 (next + 1) := by
  have zero : BitVec.ofNat 64 (refcount g s next) = 0#64 ↔ refcount g s next = 0 := by
    have small := lt_of_le_of_lt (refcount_le g s next) g.refcountMax.isLt
    rw [← BitVec.toNat_inj, BitVec.toNat_ofNat, mod_eq_of_lt small]
    rfl
  rw [searchFree]
  simp only [readable.qcow2GetRefcount, zero]

/-- The search ends at clusters that are free, and that are not before the hint. -/
theorem searchFree_spec {turns found next stop ret}
    (before : found ≤ next) (free : ∀ c, next - found ≤ c → c < next → refcount g s c = 0)
    (res : searchFree g s nbClusters turns found next = some (ret, stop)) :
    ret = .ok () ∧ (nbClusters ≤ stop ∧ next - found ≤ stop - nbClusters ∧ stop ≤ next + turns) ∧
      ∀ c, stop - nbClusters ≤ c → c < stop → refcount g s c = 0 := by
  induction turns generalizing found next with
  | zero =>
    rw [searchFree] at res
    split at res
    · rename_i enough
      cases res
      exact ⟨rfl, by omega, enough ▸ free⟩
    · contradiction
  | succ turns ih =>
    -- A cluster in use starts the run anew behind it.
    rw [searchFree_succ readable] at res
    split at res
    · rename_i enough
      cases res
      exact ⟨rfl, by omega, enough ▸ free⟩
    split at res
    · -- One more cluster in a row.
      rename_i zero
      obtain ⟨ok, bounds, all⟩ := ih (by omega) (fun c above below => by
        rcases Nat.lt_succ_iff_lt_or_eq.mp below with earlier | rfl
        · exact free c (by omega) earlier
        · exact zero) res
      exact ⟨ok, by omega, all⟩
    · -- The search starts again after a cluster that is used.
      obtain ⟨ok, bounds, all⟩ := ih (zero_le _) (fun c above below => by omega) res
      exact ⟨ok, by omega, all⟩

/-- The search passes over clusters in use only. -/
theorem searchFree_first {turns next stop ret}
    (res : searchFree g s 1 turns 0 next = some (ret, stop)) :
    next < stop ∧ ∀ c, next ≤ c → c + 1 < stop → refcount g s c ≠ 0 := by
  induction turns generalizing next with
  | zero => contradiction
  | succ turns ih =>
    rw [searchFree_succ readable, if_neg (by decide)] at res
    split at res
    · have : searchFree g s 1 turns (0 + 1) (next + 1) = some (.ok (), next + 1) := by
        unfold searchFree
        rfl
      rw [this] at res
      cases res
      exact ⟨by omega, fun c above below => by omega⟩
    rename_i used
    obtain ⟨after, all⟩ := ih res
    refine ⟨by omega, fun c above below => ?_⟩
    rcases eq_or_lt_of_le above with rfl | later
    · exact used
    · exact all c later below

theorem searchFree_free {turns found next} (free : ∀ c, next ≤ c → refcount g s c = 0)
    (le : found ≤ nbClusters) (enough : nbClusters ≤ turns + found) :
    searchFree g s nbClusters turns found next = some (.ok (), next + (nbClusters - found)) := by
  induction turns generalizing found next with
  | zero =>
    obtain rfl : found = nbClusters := by omega
    rw [searchFree, if_pos rfl, Nat.sub_self, Nat.add_zero]
  | succ turns ih =>
    rw [searchFree_succ readable]
    split
    · rename_i all
      rw [all, Nat.sub_self, Nat.add_zero]
    · rw [if_pos (free next le_rfl), ih (fun c above => free c (by omega)) (by omega) (by omega),
        show next + 1 + (nbClusters - (found + 1)) = next + (nbClusters - found) by omega]

/-- The search ends, at the latest behind the table's reach. -/
theorem searchFree_ne_none {turns found next bound} (le : found ≤ nbClusters)
    (past : s.refcountTableSize * g.refcountBlockSize ≤ bound) (near : next ≤ bound + found)
    (enough : bound + nbClusters ≤ turns + next) :
    searchFree g s nbClusters turns found next ≠ none := by
  induction turns generalizing found next with
  | zero =>
    rw [searchFree, if_pos (by omega)]
    exact some_ne_none _
  | succ turns ih =>
    rw [searchFree_succ readable]
    split
    · exact some_ne_none _
    split
    · exact ih (by omega) (by omega) (by omega)
    · rename_i used
      obtain ⟨offset, desc⟩ := exists_lookup used
      have := (div_lt_iff_lt_mul g.refcountBlockSize_pos).mp (lookup_lt desc)
      exact ih (zero_le _) (by omega) (by omega)

/-- The clusters found are free and at or behind the hint. -/
theorem allocClustersNoref_spec {size max ret}
    (res : allocClustersNoref g s size max = some (ret, s')) :
    ∃ first, s' = { s with freeClusterIndex := first + sizeToClusters g size } ∧
      (s.freeClusterIndex ≤ first ∧ first ≤ Nat.max s.freeClusterIndex
        (s.refcountTableSize * g.refcountBlockSize)) ∧
      (∀ c, first ≤ c → c < first + sizeToClusters g size → refcount g s c = 0) ∧
      (ret = .error .efbig ∨
        ret = .ok (first * g.clusterSize) ∧
            first + sizeToClusters g size - 1 ≤ max / g.clusterSize) := by
  rw [allocClustersNoref] at res
  split at res
  · contradiction
  rename_i outcome next searched
  obtain ⟨rfl, bounds, free⟩ :=
    searchFree_spec readable (zero_le _) (fun c above below => by omega) searched
  have stop : next - sizeToClusters g size + sizeToClusters g size = next := by omega
  -- The run starts behind the clusters that were passed over.
  have limit : next - sizeToClusters g size ≤
      Nat.max s.freeClusterIndex (s.refcountTableSize * g.refcountBlockSize) := by
    show _ ≤ Max.max _ _
    omega
  simp only at res
  generalize max / g.clusterSize = last at res ⊢
  split at res
  · cases res
    exact ⟨next - sizeToClusters g
      size, by rw [stop], ⟨bounds.2.1, limit⟩, stop.symm ▸ free, .inl rfl⟩
  · cases res
    exact ⟨next - sizeToClusters g
      size, by rw [stop], ⟨bounds.2.1, limit⟩, stop.symm ▸ free, .inr ⟨rfl, by omega⟩⟩

theorem allocClustersNoref_ne_none (size max) : allocClustersNoref g s size max ≠ none := by
  have ends : searchFree g s (sizeToClusters g size)
      (s.refcountTableSize * g.refcountBlockSize - s.freeClusterIndex + sizeToClusters g size) 0
        s.freeClusterIndex ≠ none :=
    searchFree_ne_none readable (zero_le _)
      (le_max_right s.freeClusterIndex (s.refcountTableSize * g.refcountBlockSize))
      (le_max_left _ _) (by omega)
  obtain ⟨⟨ret, next⟩, searched⟩ := ne_none_iff_exists'.mp ends
  obtain ⟨rfl, _⟩ := searchFree_spec readable (zero_le _) (fun c above below => by omega) searched
  simp only [allocClustersNoref, searched]
  split <;> exact some_ne_none _

end

theorem sizeToClusters_clusterSize (g) : sizeToClusters g g.clusterSize = 1 := by
  have := g.clusterSize_pos
  have : g.clusterSize ≤ 2 ^ 21 := Nat.pow_le_pow_right (n := 2) (by decide) g.clusterBits_le
  rw [sizeToClusters, mod_eq_of_lt (by omega)]
  exact Nat.div_eq_of_lt_le (by omega) (by omega)

/-- For one cluster the first free one is found. -/
theorem allocClustersNoref_one {max ret} (readable : Readable g s)
    (res : allocClustersNoref g s g.clusterSize max = some (ret, s')) :
    ∃ first, s' = { s with freeClusterIndex := first + 1 } ∧
      (s.freeClusterIndex ≤ first ∧ first ≤ Nat.max s.freeClusterIndex
        (s.refcountTableSize * g.refcountBlockSize)) ∧
      refcount g s first = 0 ∧ (∀ c, s.freeClusterIndex ≤ c → c < first → refcount g s c ≠ 0) ∧
      (ret = .error .efbig ∨ ret = .ok (first * g.clusterSize)) := by
  obtain ⟨first, rfl, bounds, free, ends⟩ := allocClustersNoref_spec readable res
  rw [sizeToClusters_clusterSize] at free ends res ⊢
  refine ⟨first, rfl, bounds, free first le_rfl (by omega), fun c above below =>
    ?_, ends.imp_right And.left⟩
  -- The same search, read as one for the first free cluster.
  rw [allocClustersNoref, sizeToClusters_clusterSize] at res
  split at res
  · contradiction
  rename_i outcome next searched
  obtain ⟨_, earlier⟩ := searchFree_first readable searched
  have stop : next = first + 1 := by
    split at res
    · exact congrArg State.freeClusterIndex (Prod.mk.inj (some.inj res)).2
    · split at res
      all_goals exact congrArg State.freeClusterIndex (Prod.mk.inj (some.inj res)).2
  exact earlier c above (by omega)

end Qemu.Qcow2
