import Qemu.Qcow2.RefcountMetadata

/-! A new refcount block is entered into the table, or with it a new table is made. -/

namespace Qemu.Qcow2

open Align Option Nat Function State

variable {g : Geometry} {s s' t u : State} {index cluster : Nat} {extra : Nat → Option Nat}

theorem reftOffset_mul (g : Geometry) (c : Nat) :
    reftOffset (c * g.clusterSize) = c * g.clusterSize := by
  obtain ⟨factor, eq⟩ : 512 ∣ g.clusterSize := pow_dvd_pow 2 g.clusterBits_ge
  rw [reftOffset, eq, Nat.mul_left_comm, Nat.mul_div_cancel_left _ (by decide), Nat.mul_comm]

theorem mul_clusterSize_inj {c c'} : c * g.clusterSize = c' * g.clusterSize ↔ c = c' :=
  ⟨eq_of_mul_eq_mul_right g.clusterSize_pos, congrArg (· * g.clusterSize)⟩

/-- A table with more blocks, in clusters that were free. -/
structure Extends (g : Geometry) (s : State) (extra : Nat → Option Nat) (t : State) : Prop where
  lookup : ∀ i, t.lookup i = match extra i with
    | some c => some (c * g.clusterSize)
    | none => s.lookup i
  missing : ∀ {i c}, extra i = some c → s.lookup i = none
  injective : ∀ {i j c}, extra i = some c → extra j = some c → i = j
  free : ∀ {i c}, extra i = some c → refcount g s c = 0

theorem Sound.not_blockAt_of_free (sound : Sound g s) {c}
    (free : refcount g s c = 0) : ¬ BlockAt g s c :=
  ((structures_eq_zero_iff c).mp (sound.structures_free free)).1

section

variable (larger : Extends g s extra t)

include larger

theorem Extends.lookup_extra {i c} (new : extra i = some c) :
    t.lookup i = some (c * g.clusterSize) := by
  rw [larger.lookup, new]

theorem Extends.lookup_old {i} (old : extra i = none) : t.lookup i = s.lookup i := by
  rw [larger.lookup, old]

theorem Extends.kept {i offset} (found : s.lookup i = some offset) : t.lookup i = some offset := by
  cases new : extra i with
  | none => rw [larger.lookup_old new, found]
  | some c =>
    rw [larger.missing new] at found
    contradiction

/-- The blocks are the old ones and the planned ones. -/
theorem Extends.blockAt_iff (c) : BlockAt g t c ↔ BlockAt g s c ∨ ∃ i, extra i = some c := by
  rw [Qcow2.blockAt_iff, Qcow2.blockAt_iff]
  constructor
  · rintro ⟨i, found⟩
    cases new : extra i with
    | none => exact .inl ⟨i, larger.lookup_old new ▸ found⟩
    | some c' =>
      rw [larger.lookup_extra new] at found
      exact .inr ⟨i, mul_clusterSize_inj.mp (some.inj found) ▸ new⟩
  · rintro (⟨i, found⟩ | ⟨i, new⟩)
    · exact ⟨i, larger.kept found⟩
    · exact ⟨i, larger.lookup_extra new⟩

/-- Each planned block adds one owner to its cluster. -/
theorem Extends.count_blocks (sound : Sound g s) (new : Nat → Prop) [DecidablePred new]
    (new_iff : ∀ c, new c ↔ ∃ i, extra i = some c) (c) :
    (if BlockAt g t c then 1 else 0) = (if BlockAt g s c then 1 else 0) + if new c then 1
    else 0 := by
  have iff := larger.blockAt_iff c
  rw [← new_iff] at iff
  have apart : new c → ¬ BlockAt g s c := by
    rw [new_iff]
    rintro ⟨i, isNew⟩
    exact sound.not_blockAt_of_free (larger.free isNew)
  by_cases isNew : new c
  · rw [if_pos (iff.mpr (.inr isNew)), if_neg (apart isNew), if_pos isNew]
  · rw [if_neg isNew]
    exact if_congr (iff.trans (or_iff_left isNew)) rfl rfl

/-- An extended table reads as the old one did. -/
theorem Extends.readable (sound : Sound g s) : Readable g t where
  aligned {i offset} found := by
    cases new : extra i with
    | none => exact sound.aligned (larger.lookup_old new ▸ found)
    | some c =>
      rw [larger.lookup_extra new] at found
      exact some.inj found ▸ mul_mod_left _ _
  distinct {i j offset} first second := by
    -- An old block and a new one cannot be the same.
    have mixed {i j c : Nat} (new : extra i = some c)
      (old : s.lookup j = some (c * g.clusterSize)) : False :=
      sound.not_blockAt_of_free (larger.free new) ((Qcow2.blockAt_iff c).mpr ⟨j, old⟩)
    cases newI : extra i with
    | none =>
      rw [larger.lookup_old newI] at first
      cases newJ : extra j with
      | none => exact sound.distinct first (larger.lookup_old newJ ▸ second)
      | some c =>
        obtain rfl := some.inj ((larger.lookup_extra newJ).symm.trans second)
        exact (mixed newJ first).elim
    | some c =>
      obtain rfl := some.inj ((larger.lookup_extra newI).symm.trans first)
      cases newJ : extra j with
      | none => exact (mixed newI (larger.lookup_old newJ ▸ second)).elim
      | some c' =>
        rw [larger.lookup_extra newJ, some_inj, mul_clusterSize_inj] at second
        exact larger.injective newI (second ▸ newJ)

end

/-- A block created in a free cluster for an index, but not in the table. -/
structure Described (g : Geometry) (s : State) (index cluster : Nat) (u : State) : Prop where
  table : SameTable s u
  outside : ∀ c, c / g.refcountBlockSize ≠ index →
    refcount g u c = if c = cluster then 1 else refcount g s c
  inside : ∀ c, c / g.refcountBlockSize = index →
    (g.getRefcount (u.block (cluster * g.clusterSize)) (c % g.refcountBlockSize)).toNat =
    if c = cluster then 1 else 0
  cleared : cluster / g.refcountBlockSize ≠ index → u.block (cluster * g.clusterSize) = fun _ => 0#8
  clean : ∀ offset, u.dirty offset = none

/-- A new block in a free cluster is entered into a table that has room for it. -/
theorem Described.enter (desc : Described g s index cluster u) (sound : Sound g s)
    (missing : s.lookup index = none)
    (free : refcount g s cluster = 0) (small : index < s.refcountTableSize)
    (nonzero : cluster ≠ 0) (t : State) (entered : t = { u with
      refcountTable := Function.update u.refcountTable index (cluster * g.clusterSize)
      maxRefcountTableIndex := max u.maxRefcountTableIndex index }) :
    (Grown g s t none ∧ Fresh g s t none) ∧ growthLeft t < growthLeft s := by
  have offset : cluster * g.clusterSize ≠ 0 := mul_ne_zero nonzero (ne_of_gt g.clusterSize_pos)
  have size : t.refcountTableSize =
    s.refcountTableSize := by rw [entered]; exact desc.table.refcountTableSize
  have place : t.refcountTableOffset =
    s.refcountTableOffset := by rw [entered]; exact desc.table.refcountTableOffset
  have last : t.maxRefcountTableIndex = max s.maxRefcountTableIndex index := by
    rw [entered, ← desc.table.maxRefcountTableIndex]
  have lookup (i : Nat) : t.lookup i = if i = index
      then some (cluster * g.clusterSize) else s.lookup i := by
    rw [lookup, size]
    by_cases here : i = index
    · subst here
      simp [entered, reftOffset_mul, small, offset]
    · rw [if_neg here, lookup]
      simp only [entered, update_of_ne here, desc.table.refcountTable]
  -- The table has one block more, the one that was described.
  have larger : Extends g s (fun i => if i = index then some cluster else none) t := by
    refine ⟨fun i => ?_, fun {i c} new => ?_, fun {i j c} first second => ?_, fun {i c} new => ?_⟩
    · rw [lookup]
      by_cases here : i = index
      · simp [here]
      · simp [here]
    all_goals
      simp only [ite_none_right_eq_some, some.injEq] at *
    · exact new.1 ▸ missing
    · omega
    · exact new.2 ▸ free
  have laid : Laid g t := by
    refine ⟨larger.readable sound, ?_, ?_, ?_, ?_, fun {i offset} found => ?_⟩
    · rw [place]; exact sound.tableAligned
    · rw [size]; exact sound.tableWhole
    · rw [size]; exact sound.size_le
    · have := sound.maxIndex_lt
      omega
    · rw [lookup] at found
      split at found
      · omega
      · have := sound.le_maxIndex found
        omega
  refine ⟨grown_of_moved (fun c => if c = cluster then 1 else 0) (fun _ => 0) sound laid larger.kept
    (fun c => ?_) (fun c => ?_) (fun c => by split <;> omega)
    (fun c new => ?_) (fun _ _ _ => ?_), ?_⟩
  · -- Either the new block counts the cluster, or an old one does.
    have block : t.block = u.block := by rw [entered]; rfl
    have counts : refcount g t c = if c = cluster then 1 else refcount g s c := by
      by_cases here : c / g.refcountBlockSize = index
      · have none : refcount g s c = 0 := refcount_of_none (here ▸ missing)
        rw [refcount_of_some ((lookup _).trans (if_pos here)), block, desc.inside c here, none]
      · rw [← desc.outside c here, refcount, refcount, lookup, if_neg here,
          desc.table.lookup, block]
    rw [counts]
    by_cases here : c = cluster
    · rw [if_pos here, if_pos here, here, free]
    · rw [if_neg here, if_neg here]
  · have blocks := larger.count_blocks sound (· = cluster) (fun c => by
      simp only [ite_none_right_eq_some, some.injEq, exists_eq_left]
      exact eq_comm) c
    have table : TableAt g t c ↔ TableAt g s c := by rw [TableAt, TableAt, size, place]
    simp only [structures, blocks, table]
    omega
  · by_cases here : c = cluster
    · rw [here, free]
    · rw [if_neg here] at new
      contradiction
  · rw [entered]; exact desc.clean _
  · refine growthLeft_lt_of_block size small missing ?_ fun i none => ?_
    · rw [lookup, if_pos rfl]
      exact some_ne_none _
    · rw [lookup] at none
      split at none
      · contradiction
      · exact none

theorem le_lastUsedIndex {table n i} (le : i ≤ n) (used : reftOffset (table i) ≠ 0) :
    i ≤ lastUsedIndex table n := by
  induction n with
  | zero => omega
  | succ n ih =>
    rw [lastUsedIndex]
    split
    · rcases eq_or_lt_of_le le with rfl | lt
      · contradiction
      · exact ih (by omega)
    · exact le

theorem lastUsedIndex_le (table : Nat → Nat) (n : Nat) : lastUsedIndex table n ≤ n := by
  induction n with
  | zero => exact le_rfl
  | succ n ih =>
    rw [lastUsedIndex]
    split <;> omega

/-- The sizes of a new table and its blocks, placed behind all described clusters. -/
structure Plan (g : Geometry) (s : State) (index cluster k total tables : Nat) : Prop where
  size_le : s.refcountTableSize ≤ index
  index_lt : index < k
  cluster_lt : cluster < k * g.refcountBlockSize
  lt_total : k < total
  total_le : total ≤ tables * g.tableEntries
  covered : k * g.refcountBlockSize + (total - k) + tables ≤ total * g.refcountBlockSize
  allowed : tables * g.tableEntries ≤ qcowMaxReftableSize

def planned (g : Geometry) (index cluster k total i : Nat) : Option Nat :=
  if k ≤ i ∧ i < total then some (placed k (k * g.refcountBlockSize) i) else if i = index
    then some cluster else none

variable {k total tables : Nat}

theorem planned_eq_some {i c} (new : planned g index cluster k total i = some c) :
    (k ≤ i ∧ i < total ∧ c = k * g.refcountBlockSize + (i - k)) ∨ (i = index ∧ c = cluster) := by
  rw [planned] at new
  split at new
  · rename_i area
    exact .inl ⟨area.1, area.2, (some.inj new).symm⟩
  · rw [ite_none_right_eq_some, some_inj] at new
    exact .inr ⟨new.1, new.2.symm⟩

theorem Plan.planned_of_lt (plan : Plan g s index cluster k total tables) {i}
    (old : i < s.refcountTableSize) : planned g index cluster k total i = none := by
  cases new : planned g index cluster k total i with
  | none => rfl
  | some c =>
    have := planned_eq_some new
    have := plan.size_le
    have := plan.index_lt
    omega

/-- The state with the new table, in which the old one is not yet freed. -/
structure Switched (g : Geometry) (s u : State) (index cluster k total tables : Nat) (t : State) :
    Prop where
  table : t.refcountTable = fun j => if k ≤ j ∧
    j < k + (total - k) then placed k (k * g.refcountBlockSize) j * g.clusterSize
    else Function.update (fun i => if i < s.maxRefcountTableIndex + 1
      then s.refcountTable i else 0) index (cluster * g.clusterSize) j
  size : t.refcountTableSize = tables * g.tableEntries
  place : t.refcountTableOffset = (k * g.refcountBlockSize + (total - k)) * g.clusterSize
  last : t.maxRefcountTableIndex = lastUsedIndex t.refcountTable (tables * g.tableEntries - 1)
  others : ∀ offset, (∀ i, k ≤ i → i < total →
    offset ≠ placed k (k * g.refcountBlockSize) i * g.clusterSize) → t.block offset = u.block offset
  filled : ∀ i x, k ≤ i → i < total → x < g.refcountBlockSize →
    g.getRefcount (t.block (placed k (k * g.refcountBlockSize) i * g.clusterSize)) x =
      if i * g.refcountBlockSize + x < k * g.refcountBlockSize + (total - k) +
        tables then 1#64 else 0#64
  clean : ∀ offset, t.dirty offset = none

theorem refcount_of_past {c} (past : s.refcountTableSize ≤ c / g.refcountBlockSize) :
    refcount g s c = 0 := by
  refine refcount_of_none ?_
  rw [lookup, if_neg]
  omega

/-- The new table extends the old one by what was planned. -/
theorem Switched.larger (switched : Switched g s u index cluster k total tables t)
    (plan : Plan g s index cluster k total tables) (sound : Sound g s)
    (free : refcount g s cluster = 0)
    (nonzero : cluster ≠ 0) : Extends g s (planned g index cluster k total) t := by
  have blocks := g.refcountBlockSize_pos
  obtain ⟨sizeLe, indexLt, clusterLt, ltTotal, totalLe, _, _⟩ := plan
  have offset (c : Nat) (nonzero : c ≠ 0) : c * g.clusterSize ≠ 0 :=
    mul_ne_zero nonzero (ne_of_gt g.clusterSize_pos)
  refine ⟨fun i => ?_, fun {i c} new => ?_, fun {i j c} first second => ?_, fun {i c} new => ?_⟩
  · -- The entry is one of a new block, or of the block that was created before, or an old one.
    rw [lookup, switched.table, switched.size, planned]
    by_cases area : k ≤ i ∧ i < total
    · have := offset (placed k (k * g.refcountBlockSize) i) (by rw [placed]; omega)
      have inside : k ≤ i ∧ i < k + (total - k) := by omega
      simp only [inside, area, and_self, if_true, reftOffset_mul]
      rw [if_pos ⟨by omega, this⟩]
    have out : ¬ (k ≤ i ∧ i < k + (total - k)) := by omega
    simp only [out, area, if_false]
    by_cases here : i = index
    · subst here
      have := offset cluster nonzero
      simp only [update_self, reftOffset_mul, if_true]
      rw [if_pos ⟨by omega, this⟩]
    simp only [update_of_ne here, here, if_false]
    have maxLt := sound.maxIndex_lt
    by_cases old : i < s.maxRefcountTableIndex + 1
    · rw [if_pos old, lookup]
      exact if_congr (and_congr_left' (by omega)) rfl rfl
    have none : s.lookup i = none := by
      cases found : s.lookup i with
      | none => rfl
      | some offset => exact absurd (sound.le_maxIndex found) (by omega)
    rw [if_neg old, none, if_neg]
    rintro ⟨_, zero⟩
    exact zero rfl
  · have := planned_eq_some new
    rw [lookup, if_neg (by omega)]
  · have := planned_eq_some first
    have := planned_eq_some second
    omega
  · rcases planned_eq_some new with ⟨above, _, rfl⟩ | ⟨_, rfl⟩
    · refine refcount_of_past (sizeLe.trans ?_)
      rw [le_div_iff_mul_le blocks]
      exact (mul_le_mul_right _ (le_of_lt indexLt)).trans (le_add_right _ _)
    · exact free

/-- The refcounts by the new table: those of the new structures are one. -/
theorem Switched.refcount (switched : Switched g s u index cluster k total tables t)
    (plan : Plan g s index cluster k total tables) (sound : Sound g s)
    (desc : Described g s index cluster u)
    (larger : Extends g s (planned g index cluster k total) t) (c) :
    refcount g t c =
      if k * g.refcountBlockSize ≤ c ∧ c < k * g.refcountBlockSize + (total - k) + tables then 1
      else if c = cluster then 1 else Qcow2.refcount g s c := by
  have blocks := g.refcountBlockSize_pos
  obtain ⟨sizeLe, indexLt, clusterLt, ltTotal, totalLe, covered, _⟩ := plan
  have start : k ≤ c / g.refcountBlockSize ↔ k * g.refcountBlockSize ≤ c := le_div_iff_mul_le blocks
  have finish : c / g.refcountBlockSize < total ↔ c < total * g.refcountBlockSize :=
    div_lt_iff_lt_mul blocks
  have whole := div_add_mod' c g.refcountBlockSize
  generalize pos : c / g.refcountBlockSize = i at *
  by_cases area : k ≤ i ∧ i < total
  · -- A new block counts the cluster.
    have found : t.lookup (c / g.refcountBlockSize) =
      some (placed k (k * g.refcountBlockSize) i * g.clusterSize) :=
      (congrArg t.lookup pos).trans (larger.lookup_extra (if_pos area))
    have none : Qcow2.refcount g s c = 0 := refcount_of_past (by omega)
    rw [refcount_of_some found, switched.filled i _ area.1 area.2 (mod_lt _ blocks), whole, none,
      if_neg (show c ≠ cluster by omega)]
    by_cases inside : c < k * g.refcountBlockSize + (total - k) + tables
    · rw [if_pos inside, if_pos ⟨start.mp area.1, inside⟩]
      rfl
    · rw [if_neg inside, if_neg fun both => inside both.2]
      rfl
  rw [if_neg (by omega)]
  by_cases here : i = index
  · -- The block that was created before counts it.
    have found : t.lookup (c / g.refcountBlockSize) = some (cluster * g.clusterSize) :=
      (congrArg t.lookup pos).trans (larger.lookup_extra ((if_neg area).trans (if_pos here)))
    have none : Qcow2.refcount g s c = 0 := refcount_of_past (by omega)
    rw [refcount_of_some found, switched.others _ fun j above below eq => ?_,
      desc.inside c (pos.trans here), none]
    rw [mul_clusterSize_inj, placed] at eq
    omega
  -- An old block counts it, if any does.
  rw [← desc.outside c (pos ▸ here), Qcow2.refcount, Qcow2.refcount, pos,
    larger.lookup_old ((if_neg area).trans (if_neg here)), desc.table.lookup]
  cases found : s.lookup i with
  | none => rfl
  | some offset =>
    simp only
    rw [switched.others _ fun j above below eq => ?_]
    have new : planned g index cluster k total j = some (placed k (k * g.refcountBlockSize) j) :=
      if_pos ⟨above, below⟩
    exact sound.not_blockAt_of_free (larger.free new) ((blockAt_iff _).mpr ⟨i, eq ▸ found⟩)

/-- The table takes the clusters from its offset to its end. -/
theorem Laid.tableAt_iff (laid : Laid g s) (c) : TableAt g s c ↔
    firstCluster g s.refcountTableOffset ≤ c ∧
      c < stopCluster g s.refcountTableOffset (s.refcountTableSize * 8) := by
  have pos := g.clusterSize_pos
  obtain ⟨a, offset⟩ := dvd_of_mod_eq_zero laid.tableAligned
  obtain ⟨b, size⟩ := dvd_of_mod_eq_zero laid.tableWhole
  have some : 0 < b := by
    have := laid.maxIndex_lt
    rcases Nat.eq_zero_or_pos b with rfl | some
    · omega
    · exact some
  have first : firstCluster g s.refcountTableOffset =
    a := by rw [firstCluster, offset, Nat.mul_div_cancel_left _ pos]
  have stop : stopCluster g s.refcountTableOffset (s.refcountTableSize * 8) = a + b := by
    have length : (a + b) * g.clusterSize - a * g.clusterSize = b * g.clusterSize := by
      rw [Nat.add_mul, Nat.add_sub_cancel_left]
    have before : firstCluster g (a * g.clusterSize) < a + b := by
      rw [firstCluster, Nat.mul_div_cancel _ pos]
      omega
    have sub := (stopCluster_sub before).2
    rw [length] at sub
    rw [offset, size, Nat.mul_comm _ a, Nat.mul_comm _ b, sub]
  rw [TableAt, first, stop, offset, size, Nat.mul_comm c, ← Nat.mul_add,
    Nat.mul_le_mul_left_iff pos, Nat.mul_lt_mul_left pos]

/-- The structures that the new table adds, if the old one is still there. -/
theorem Switched.structures (switched : Switched g s u index cluster k total tables t)
    (plan : Plan g s index cluster k total tables) (sound : Sound g s)
    (larger : Extends g s (planned g index cluster k total) t) (c) :
    structures g t c + (if TableAt g s c then 1 else 0) = Qcow2.structures g s c +
      if c = cluster ∨ k * g.refcountBlockSize ≤ c ∧ c < k * g.refcountBlockSize +
      (total - k) + tables then 1 else 0 := by
  have indexLt := plan.index_lt
  have clusterLt := plan.cluster_lt
  have blocks := larger.count_blocks sound
    (fun c => c = cluster ∨ k * g.refcountBlockSize ≤ c ∧ c < k * g.refcountBlockSize + (total - k))
    (fun c => by
      constructor
      · rintro (rfl | ⟨above, below⟩)
        · exact ⟨index, (if_neg (by omega)).trans (if_pos rfl)⟩
        · refine ⟨k + (c - k * g.refcountBlockSize), (if_pos (by omega)).trans ?_⟩
          rw [placed, some_inj]
          omega
      · rintro ⟨i, new⟩
        have := planned_eq_some new
        omega) c
  have table : TableAt g t c ↔ k * g.refcountBlockSize + (total - k) ≤ c ∧
      c < k * g.refcountBlockSize + (total - k) + tables := by
    have bytes : tables * g.tableEntries * 8 =
      tables * g.clusterSize := by rw [g.clusterSize_eq, mul_assoc, Nat.mul_comm 8]
    rw [TableAt, switched.place, switched.size, bytes, ← Nat.add_mul,
      Nat.mul_le_mul_right_iff g.clusterSize_pos, Nat.mul_lt_mul_right g.clusterSize_pos]
  -- The new blocks are before the new table, and the cluster of the first new block is before both.
  have added : (if c = cluster ∨ k * g.refcountBlockSize ≤ c ∧
    c < k * g.refcountBlockSize + (total - k) then 1 else 0) +
      (if k * g.refcountBlockSize + (total - k) ≤ c ∧
        c < k * g.refcountBlockSize + (total - k) + tables then 1 else 0) =
      if c = cluster ∨ k * g.refcountBlockSize ≤ c ∧
          c < k * g.refcountBlockSize + (total - k) + tables then 1 else 0 := by
    split <;> split <;> split <;> omega
  simp only [Qcow2.structures, blocks, table]
  omega

section

variable (switched : Switched g s u index cluster k total tables t)
    (plan : Plan g s index cluster k total tables) (sound : Sound g s)

include switched plan sound

/-- The new table is laid out as a table must be. -/
theorem Switched.laid (larger : Extends g s (planned g index cluster k total) t) : Laid g t := by
  have total := plan.total_le
  have some := plan.lt_total
  refine ⟨larger.readable sound, ?_, ?_, ?_, ?_, fun {i offset} found => ?_⟩
  · rw [switched.place, mul_mod_left]
  · rw [switched.size, g.clusterSize_eq, mul_assoc, Nat.mul_comm _ 8, mul_mod_left]
  · rw [switched.size]
    exact plan.allowed
  · rw [switched.last, switched.size]
    have := lastUsedIndex_le t.refcountTable (tables * g.tableEntries - 1)
    omega
  · have below := switched.size ▸ lookup_lt found
    rw [switched.last]
    refine le_lastUsedIndex (by omega) fun zero => ?_
    rw [lookup, if_neg fun both => both.2 zero] at found
    contradiction

/-- What has to hold of the old table for it to be freed. -/
theorem Switched.freeable (desc : Described g s index cluster u)
    (larger : Extends g s (planned g index cluster k total) t) :
    DiscardSafe t s.refcountTableOffset (· < s.refcountTableSize) ∧
      ∀ c, TableAt g s c → (c / g.refcountBlockSize < s.refcountTableSize ∧
        c / g.refcountBlockSize < 2 ^ 32) ∧ t.lookup (c / g.refcountBlockSize) ≠ none ∧
            CanChange g 1#64 true (Qcow2.refcount g t c) := by
  constructor
  · intro i found
    refine ⟨switched.clean _, fun old => ?_⟩
    -- The table would be in the cluster of one of its blocks.
    rw [larger.lookup_old (plan.planned_of_lt old)] at found
    obtain ⟨a, offset⟩ := dvd_of_mod_eq_zero sound.tableAligned
    rw [Nat.mul_comm] at offset
    have block : BlockAt g s a := (blockAt_iff a).mpr ⟨i, offset ▸ found⟩
    have table : TableAt g s a := by
      rw [TableAt, offset]
      omega
    have := sound.apart a
    rw [Qcow2.structures, if_pos block, if_pos table] at this
    omega
  · intro c table
    have counted : 1 ≤ Qcow2.refcount g s c := by
      have := sound.counted c
      rw [Qcow2.structures, if_pos table] at this
      omega
    obtain ⟨offset, found⟩ := exists_lookup (g := g) (s :=
      s) (show Qcow2.refcount g s c ≠ 0 by omega)
    have below := lookup_lt found
    have sizeLe := sound.size_le
    have max : qcowMaxReftableSize = 8388608 := rfl
    refine ⟨⟨below, by omega⟩, ?_, ?_⟩
    · rw [larger.kept found]
      exact some_ne_none _
    · rw [switched.refcount plan sound desc larger]
      split
      · exact le_rfl
      · split
        · exact le_rfl
        · exact counted

end

/-- The new table is in use and the old one is freed. -/
theorem Switched.freed {f} (switched : Switched g s u index cluster k total tables t)
    (plan : Plan g s index cluster k total tables) (sound : Sound g s)
    (desc : Described g s index cluster u)
    (free : Qcow2.refcount g s cluster = 0) (nonzero : cluster ≠ 0)
    (freed : ChangedRange g t s.refcountTableOffset (· < s.refcountTableSize) 1#64 true
      (firstCluster g s.refcountTableOffset)
        (stopCluster g s.refcountTableOffset (s.refcountTableSize * 8)) f) :
    (Grown g s f none ∧ Fresh g s f none) ∧ growthLeft f < growthLeft s := by
  have larger := switched.larger plan sound free nonzero
  have laid := (switched.laid plan sound larger).of_sameTable freed.table
  have past {c : Nat} (above : k * g.refcountBlockSize ≤ c) : Qcow2.refcount g s c = 0 := by
    refine refcount_of_past (plan.size_le.trans ?_)
    rw [le_div_iff_mul_le g.refcountBlockSize_pos]
    exact (mul_le_mul_right _ (le_of_lt plan.index_lt)).trans above
  refine ⟨grown_of_moved (fun c => if c = cluster ∨ k * g.refcountBlockSize ≤ c ∧
      c < k * g.refcountBlockSize + (total - k) + tables then 1 else 0)
        (fun c => if TableAt g s c then 1 else 0) sound laid
    (fun found => freed.table.lookup _ ▸ larger.kept found) (fun c => ?_) (fun c => ?_)
    (fun c => by split <;> omega) (fun c new => ?_) (fun offset absent present => ?_), ?_⟩
  · -- The refcounts: old ones, those of the new structures, and without the old table.
    have counted := sound.counted c
    have old := sound.toLaid.tableAt_iff c
    have new := switched.refcount plan sound desc larger c
    have isPast := past (c := c)
    have isFree : c = cluster → Qcow2.refcount g s c = 0 := fun here => here ▸ free
    have isTable : TableAt g s c → 1 ≤ Qcow2.structures g s c := fun table => by
      rw [Qcow2.structures, if_pos table]
      omega
    rw [freed.refcount, new]
    simp only [changed, if_true, ← old, show (1#64).toNat = 1 from rfl]
    by_cases table : TableAt g s c
    · have := isTable table
      rw [if_pos table, if_pos table, if_neg (by omega), if_neg (by omega), if_neg (by omega)]
      omega
    · rw [if_neg table, if_neg table]
      split <;> [skip; split] <;> split <;> omega
  · rw [freed.table.structures]
    exact switched.structures plan sound larger c
  · have : c = cluster ∨ k * g.refcountBlockSize ≤ c := by
      by_contra neither
      exact new (if_neg (by omega))
    rcases this with rfl | above
    · exact free
    · exact past above
  · refine (freed.others offset (fun j foundJ old => ?_) (switched.clean _)).2
    exact absent j (larger.lookup_old (plan.planned_of_lt old) ▸ foundJ)
  · refine growthLeft_lt_of_size laid ?_
    rw [freed.table.refcountTableSize, switched.size]
    have := plan.size_le
    have := plan.index_lt
    have := plan.lt_total
    have := plan.total_le
    omega

variable {tryNew0 : Nat → Bool} {update : Update}

/-- The new table has half as many entries again, and its blocks count it. -/
theorem plan_of_size (sizeLe : s.refcountTableSize ≤ index) (indexLt : index < k)
    (clusterLt : cluster < k * g.refcountBlockSize) (totalLe : total ≤ 2 * k)
    (covered : k * g.refcountBlockSize + total + divRoundUp total g.tableEntries ≤
      total * g.refcountBlockSize)
    (allowed : divRoundUp (total + divRoundUp total 2) g.tableEntries * g.tableEntries ≤
      qcowMaxReftableSize) :
    Plan g s index cluster k total (divRoundUp (total + divRoundUp total 2) g.tableEntries) := by
  have entries := g.tableEntries_ge
  have ltTotal : k < total := by
    by_contra le
    have := mul_le_mul_right g.refcountBlockSize (not_lt.mp le)
    obtain rfl : total = 0 := by omega
    omega
  have enough := le_divRoundUp_mul (show 0 < g.tableEntries by omega) (total + divRoundUp total 2)
  refine ⟨sizeLe, indexLt, clusterLt, ltTotal, by omega, ?_, allowed⟩
  have tables : divRoundUp (total + divRoundUp total 2) g.tableEntries ≤
      divRoundUp total g.tableEntries + k := by
    rw [divRoundUp_le_iff (by omega), Nat.add_mul]
    have half : divRoundUp total 2 ≤ k := (divRoundUp_le_iff (by decide)).mpr (by omega)
    have := le_divRoundUp_mul (show 0 < g.tableEntries by omega) total
    have := Nat.le_mul_of_pos_right k (show 0 < g.tableEntries by omega)
    omega
  omega

/-- How `qcow2_refcount_area` ends: with nothing, or a new table, the old one freed. -/
theorem qcow2RefcountArea_cases (tryNew0 : Nat → Bool) (update) (sound : Sound g s)
    (desc : Described g s index cluster u)
    (sizeLe : s.refcountTableSize ≤ index) (indexLt : index < k)
    (clusterLt : cluster < k * g.refcountBlockSize) (nonzero : cluster ≠ 0) :
    (∃ errno, (errno = .efbig ∨ errno = .enomem) ∧
      qcow2RefcountArea g tryNew0 update u (k * g.refcountBlockSize * g.clusterSize) 0 false index
        (cluster * g.clusterSize) = some (.error errno, u)) ∨
      ∃ total tables t stop, Plan g s index cluster k total tables ∧
        Switched g s u index cluster k total tables t ∧
        qcow2RefcountArea g tryNew0 update u (k * g.refcountBlockSize * g.clusterSize) 0 false index
            (cluster * g.clusterSize) =
          match update t s.refcountTableOffset (s.refcountTableSize * 8) 1#64 true with
          | none => none
          | some (_, freed) => some (.ok stop, freed) := by
  have pos := g.clusterSize_pos
  obtain ⟨total, tables, metadata, totalLe, covered⟩ := qcow2RefcountMetadataSize_spec (g := g) k
  have aligned : k * g.refcountBlockSize * g.clusterSize % g.clusterSize = 0 := mul_mod_left _ _
  have start : k * g.refcountBlockSize * g.clusterSize / g.clusterSize = k * g.refcountBlockSize :=
    Nat.mul_div_cancel _ pos
  have startIndex : k * g.refcountBlockSize / g.refcountBlockSize = k :=
    Nat.mul_div_cancel _ g.refcountBlockSize_pos
  simp only [qcow2RefcountArea, aligned, start, startIndex, ne_eq, not_true_eq_false, if_false,
    Nat.add_zero, Bool.not_false, metadata, Bool.false_eq_true]
  by_cases tooMany : total > qcowMaxReftableSize
  · exact .inl ⟨.efbig, .inl rfl, if_pos tooMany⟩
  by_cases tooLarge : ceilTo g.tableEntries (total + divRoundUp total 2) > qcowMaxReftableSize
  · exact .inl ⟨.efbig, .inl rfl, (if_neg tooMany).trans (if_pos tooLarge)⟩
  have plan := plan_of_size sizeLe indexLt clusterLt totalLe covered (not_lt.mp tooLarge)
  have size : ceilTo g.tableEntries (total + divRoundUp total 2) =
    divRoundUp (total + divRoundUp total 2) g.tableEntries * g.tableEntries := rfl
  generalize divRoundUp (total + divRoundUp total 2) g.tableEntries = count at plan size
  rw [size] at tooLarge ⊢
  have ltTotal := plan.lt_total
  have totalLe' := plan.total_le
  have nonempty : count * g.tableEntries ≠ 0 := by omega
  rw [if_neg tooMany, if_neg tooLarge, if_neg nonempty]
  cases alloc : tryNew0 (count * g.tableEntries) with
  | false => exact .inl ⟨.enomem, .inr rfl, if_pos rfl⟩
  | true =>
    -- The entries that are copied, and the new block; from the area on there is none.
    have maxLt := sound.maxIndex_lt
    have max := desc.table.maxRefcountTableIndex
    have copied : count * g.tableEntries > u.maxRefcountTableIndex := by omega
    have offset : cluster * g.clusterSize ≠ 0 := mul_ne_zero nonzero (ne_of_gt pos)
    have inside : ¬ total ≤ index := by omega
    generalize base : Function.update (fun i => if i < u.maxRefcountTableIndex + 1
      then u.refcountTable i else 0) index (cluster * g.clusterSize) = table
    have absent (j : Nat) (above : k ≤ j) (below : j < k + (total - k)) : table j = 0 := by
      rw [← base, update_of_ne (by omega), if_neg (by omega)]
    have counted : ((List.range' k (total - k)).filter fun i => decide (table i = 0)).length =
        total - k := by
      rw [List.filter_eq_self.mpr, List.length_range']
      intro j inside
      obtain ⟨above, below⟩ := List.mem_range'_1.mp inside
      exact decide_eq_true (absent j above below)
    have bytes : count * g.tableEntries * 8 / g.clusterSize = count := by
      rw [mul_assoc, Nat.mul_comm g.tableEntries, ← g.clusterSize_eq, Nat.mul_div_cancel _ pos]
    obtain ⟨filled, res, fill⟩ := fillBlocks_spec (g :=
      g) (k * g.refcountBlockSize + (total - k) + count) (Nat.le_refl k) absent u
    have place : placed k (k * g.refcountBlockSize) k * g.clusterSize =
        k * g.refcountBlockSize * g.clusterSize := by
      rw [placed, Nat.sub_self, Nat.add_zero]
    have next : placed k (k * g.refcountBlockSize) (k + (total - k)) * g.clusterSize =
        k * g.refcountBlockSize * g.clusterSize + (total - k) * g.clusterSize := by
      rw [placed, Nat.add_sub_cancel_left, Nat.add_mul]
    rw [place, next, Nat.add_mul, Nat.add_mul] at res
    simp only [Bool.not_true, Bool.false_eq_true, if_false, copied, if_true, offset, inside,
      not_false_eq_true, and_false,
      base, counted, bytes, res, not_true_eq_false, desc.table.refcountTableOffset,
        desc.table.refcountTableSize]
    refine .inr ⟨total, count, _, _, plan,
      ⟨?_, rfl, ?_, rfl, fun other apart => ?_, ?_, fun _ => rfl⟩, rfl⟩
    · rw [← base, desc.table.refcountTable, max]
    · rw [Nat.add_mul]
    · exact fill.others other fun i above below => apart i above (by omega)
    · exact fun i x above below small => fill.filled i x above (by omega) small

end Qemu.Qcow2
