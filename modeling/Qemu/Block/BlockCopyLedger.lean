import Mathlib.Algebra.Order.Ring.Int
import Mathlib.Algebra.Ring.Divisibility.Basic
import Mathlib.Tactic.Common
import Qemu.Block.BlockCopy

/-! Every cluster is dirty, in one task, or settled: what the functions on tasks do to that. -/

namespace Qemu.BlockCopy

open Align Keyed List Option Nat

variable {cfg : Config} {offset bytes c : Nat}

theorem Config.clusterSize_pos (cfg : Config) : 0 < cfg.clusterSize := Nat.two_pow_pos _

def Config.Within (cfg : Config) (offset bytes c : Nat) : Prop :=
  offset ≤ c * cfg.clusterSize ∧ c * cfg.clusterSize < offset + bytes

/-- A range of whole clusters inside the source. -/
structure Chunk (cfg : Config) (offset bytes : Nat) : Prop where
  offset_dvd : cfg.clusterSize ∣ offset
  bytes_dvd : cfg.clusterSize ∣ bytes
  positive : 0 < bytes
  inside : offset + bytes ≤ cfg.len

section

variable (offset_dvd : cfg.clusterSize ∣ offset) (bytes_dvd : cfg.clusterSize ∣ bytes)

include offset_dvd bytes_dvd

/-- On aligned ranges, touching a cluster is covering it whole. -/
theorem touches_iff : cfg.Touches offset bytes c ↔ cfg.Within offset bytes c := by
  have pos := cfg.clusterSize_pos
  obtain ⟨first, rfl⟩ := offset_dvd
  obtain ⟨count, rfl⟩ := bytes_dvd
  rw [Config.Touches, Config.Within, Nat.mul_div_cancel_left _ pos, Nat.mul_comm c, ← Nat.mul_add,
    Nat.mul_le_mul_left_iff pos, Nat.mul_lt_mul_left pos, Nat.mul_pos_iff_of_pos_left pos]
  rcases Nat.eq_zero_or_pos count with rfl | some
  · constructor
    · exact fun h => absurd h.1 (lt_irrefl 0)
    · intro h
      omega
  -- The last byte lies in the last cluster.
  have last : (cfg.clusterSize * (first + count) - 1) / cfg.clusterSize = first + count - 1 := by
    obtain ⟨m, sum⟩ : ∃ m, first + count = m + 1 := ⟨first + count - 1, by omega⟩
    rw [sum, Nat.mul_add, Nat.mul_one, Nat.add_sub_assoc pos,
      Nat.mul_add_div pos, div_eq_of_lt (by omega)]
    omega
  rw [last]
  omega

theorem fillRange_of_within {β : Type} {values : Nat → β} {value : β}
    (within : cfg.Within offset bytes c) : fillRange cfg values offset bytes value c = value :=
  if_pos ((touches_iff offset_dvd bytes_dvd).mpr within)

theorem fillRange_of_not_within {β : Type} {values : Nat → β} {value : β}
    (out : ¬ cfg.Within offset bytes c) : fillRange cfg values offset bytes value c = values c :=
  if_neg fun touches => out ((touches_iff offset_dvd bytes_dvd).mp touches)

end

/-- Chunks that share no cluster share no byte. -/
theorem Chunk.apart {offset' bytes' : Nat} (chunk : Chunk cfg offset bytes)
    (other : Chunk cfg offset' bytes')
    (apart : ∀ c, cfg.Within offset bytes c → ¬ cfg.Within offset' bytes' c) :
    offset + bytes ≤ offset' ∨ offset' + bytes' ≤ offset := by
  by_contra overlap
  -- The later one of the two starts in both.
  obtain ⟨first, start⟩ := chunk.offset_dvd
  obtain ⟨second, start'⟩ := other.offset_dvd
  have here := apart first
  have there := apart second
  have pos := chunk.positive
  have positive' := other.positive
  rw [Config.Within, Config.Within, Nat.mul_comm, ← start] at here
  rw [Config.Within, Config.Within, Nat.mul_comm second, ← start'] at there
  omega

variable {dirty : Nat → Bool} {value : Bool} {start stop position : Nat}

section

variable (start_dvd : cfg.clusterSize ∣ start) (order : start < stop)

include start_dvd order

theorem mem_search (c : Nat) : start / cfg.clusterSize ≤ c ∧
      c < start / cfg.clusterSize + ((stop - 1) / cfg.clusterSize + 1 - start / cfg.clusterSize) ↔
    start ≤ c * cfg.clusterSize ∧ c * cfg.clusterSize < stop := by
  have pos := cfg.clusterSize_pos
  obtain ⟨first, rfl⟩ := start_dvd
  have last : c ≤ (stop - 1) / cfg.clusterSize ↔ c * cfg.clusterSize ≤ stop - 1 :=
    le_div_iff_mul_le pos
  rw [Nat.mul_div_cancel_left _ pos, Nat.mul_comm cfg.clusterSize first,
    Nat.mul_le_mul_right_iff pos]
  omega

/-- A scan answers the first cluster of the value it looks for. -/
theorem nextWith_some (found : nextWith cfg dirty value start stop = some position) :
    ∃ c, position = c * cfg.clusterSize ∧ start ≤ position ∧ position < stop ∧ dirty c = value ∧
      ∀ c', start ≤ c' * cfg.clusterSize → c' < c → dirty c' ≠ value := by
  simp only [nextWith, map_eq_some_iff, find?_range'_eq_some, mem_range'_1] at found
  obtain ⟨c, ⟨here, listed, before⟩, rfl⟩ := found
  obtain ⟨lower, upper⟩ := (mem_search start_dvd order c).mp listed
  rw [max_eq_right lower]
  refine ⟨c, rfl, lower, upper, by simpa using here, fun c' from_ earlier => ?_⟩
  have within := (mem_search start_dvd order c').mpr
    ⟨from_, lt_of_le_of_lt (mul_le_mul_right _ (le_of_lt earlier)) upper⟩
  simpa using before c' within.1 earlier

theorem nextWith_none (none_ : nextWith cfg dirty value start stop = none) (c)
    (lower : start ≤ c * cfg.clusterSize)
    (upper : c * cfg.clusterSize < stop) : dirty c ≠ value := by
  simp only [nextWith, map_eq_none_iff, find?_range'_eq_none] at none_
  obtain ⟨first, last⟩ := (mem_search start_dvd order c).mpr ⟨lower, upper⟩
  simpa using none_ c first last

end

variable {maxDirtyCount : Nat}

theorem nextDirtyArea_none (start_dvd : cfg.clusterSize ∣ start)
    (none_ : nextDirtyArea cfg dirty start stop maxDirtyCount = none) (c : Nat)
    (lower : start ≤ c * cfg.clusterSize)
    (upper : c * cfg.clusterSize < stop) (inside : c * cfg.clusterSize < cfg.len) :
    dirty c = false := by
  simp only [nextDirtyArea] at none_
  split at none_
  · omega
  split at none_
  · rename_i absent
    simpa using nextWith_none start_dvd (by omega) absent c lower (by omega)
  · simp at none_

/-- A dirty area is a chunk of the range, and all of it is dirty. -/
theorem nextDirtyArea_some (start_dvd : cfg.clusterSize ∣ start) (stop_dvd : cfg.clusterSize ∣ stop)
    (max_dvd : cfg.clusterSize ∣ maxDirtyCount) (pos : 0 < maxDirtyCount)
    (found : nextDirtyArea cfg dirty start stop maxDirtyCount = some (offset, bytes)) :
    Chunk cfg offset bytes ∧ ∀ c, cfg.Within offset bytes c → dirty c := by
  have clusterSize := cfg.clusterSize_pos
  simp only [nextDirtyArea] at found
  split at found
  · simp at found
  split at found
  · simp at found
  rename_i position located
  obtain ⟨first, rfl, lower, upper, isDirty, _⟩ := nextWith_some start_dvd (by omega) located
  have limit_dvd : cfg.clusterSize ∣ first * cfg.clusterSize +
    min (min stop cfg.len - first * cfg.clusterSize) maxDirtyCount := by
    have whole : cfg.clusterSize ∣ min stop cfg.len - first * cfg.clusterSize := by
      apply dvd_sub _ (dvd_mul_left _ _)
      rcases min_choice stop cfg.len with is | is <;> rw [is]
      · exact stop_dvd
      · exact cfg.aligned
    apply dvd_add (dvd_mul_left _ _)
    rcases min_choice (min stop cfg.len - first * cfg.clusterSize) maxDirtyCount with is | is
      <;> rw [is]
    · exact whole
    · exact max_dvd
  have limit_le : first * cfg.clusterSize +
    min (min stop cfg.len - first * cfg.clusterSize) maxDirtyCount ≤
      cfg.len := by omega
  have limit_lt : first * cfg.clusterSize <
      first * cfg.clusterSize + min (min stop cfg.len - first * cfg.clusterSize)
        maxDirtyCount := by omega
  generalize first * cfg.clusterSize +
    min (min stop cfg.len - first * cfg.clusterSize) maxDirtyCount = limit
    at found limit_dvd limit_le limit_lt
  cases found
  cases zero : nextWith cfg dirty false (first * cfg.clusterSize) limit with
  | none =>
    -- Everything up to the limit is dirty.
    simp only [getD_none]
    refine ⟨⟨dvd_mul_left _ _, dvd_sub limit_dvd (dvd_mul_left _ _), by omega, by omega⟩, ?_⟩
    intro c within
    rw [Config.Within] at within
    simpa using nextWith_none (dvd_mul_left _ _) limit_lt zero c within.1 (by omega)
  | some position =>
    -- The area ends at the first cluster that is not dirty.
    obtain ⟨second, rfl, from_, below, isZero, between⟩ :=
      nextWith_some (dvd_mul_left _ _) limit_lt zero
    have later : first * cfg.clusterSize < second * cfg.clusterSize := by
      refine lt_of_le_of_ne from_ fun same => ?_
      rw [Nat.mul_right_cancel clusterSize same, isZero] at isDirty
      exact Bool.false_ne_true isDirty
    simp only [getD_some]
    refine ⟨⟨dvd_mul_left _ _, dvd_sub (dvd_mul_left _ _) (dvd_mul_left _ _), by omega, by omega⟩,
      ?_⟩
    intro c within
    rw [Config.Within] at within
    have earlier : c < second := Nat.lt_of_mul_lt_mul_right (a := cfg.clusterSize) (by omega)
    simpa using between c within.1 earlier

def BlockCopyTask.Holds (cfg : Config) (task : BlockCopyTask) (c : Nat) : Prop :=
  cfg.Within task.offset task.bytes c

/-- What the bitmap, the tasks and their bytes have to do with each other. -/
structure Ledger (cfg : Config) (was dirty : Nat → Bool)
    (tasks : List BlockCopyTask) (inFlightBytes : Int)
    (outcome : Nat → Option Outcome) (nextId : Nat) : Prop where
  chunk : ∀ task ∈ tasks, Chunk cfg task.offset task.bytes
  clean : ∀ task ∈ tasks, ∀ c, task.Holds cfg c → dirty c = false
  apart : ∀ task ∈ tasks, ∀ other ∈ tasks, task.id ≠ other.id →
    ∀ c, task.Holds cfg c → ¬ other.Holds cfg c
  inFlight : inFlightBytes = (tasks.map fun task => (task.bytes : Int)).sum
  inside : ∀ c, dirty c = true → c * cfg.clusterSize < cfg.len
  accounted : ∀ c, was c = true → dirty c = true ∨
    (∃ task ∈ tasks, task.Holds cfg c) ∨ outcome c ≠ none
  distinct : (tasks.map BlockCopyTask.id).Nodup
  fresh : ∀ task ∈ tasks, task.id < nextId

namespace Ledger

variable {was : Nat → Bool} {tasks : List BlockCopyTask} {inFlightBytes : Int}
    {outcome : Nat → Option Outcome} {nextId : Nat} {task : BlockCopyTask}

/-- A task takes a dirty chunk. -/
theorem create (ledger : Ledger cfg was dirty tasks inFlightBytes outcome nextId) (task)
    (new : task.id = nextId) (chunk : Chunk cfg task.offset task.bytes)
    (isDirty : ∀ c, task.Holds cfg c → dirty c) :
    Ledger cfg was (fillRange cfg dirty task.offset task.bytes false) (task :: tasks)
      (inFlightBytes + task.bytes)
      (fillRange cfg outcome task.offset task.bytes none) (nextId + 1) := by
  -- A cluster of another task is not dirty, so it is not in the new one.
  have apart : ∀ other ∈ tasks, ∀ c, task.Holds cfg c → ¬ other.Holds cfg c :=
      fun other listed c holds also =>
    Bool.false_ne_true ((ledger.clean other listed c also).symm.trans (isDirty c holds))
  have out {c : Nat} (not : ¬ task.Holds cfg c) {β : Type} {values : Nat → β} {value : β} :
      fillRange cfg values task.offset task.bytes value c = values c :=
    fillRange_of_not_within chunk.offset_dvd chunk.bytes_dvd not
  have cleared {c : Nat} (holds : task.Holds cfg c) :
    fillRange cfg dirty task.offset task.bytes false c = false :=
    fillRange_of_within chunk.offset_dvd chunk.bytes_dvd holds
  constructor
  · exact forall_mem_cons.mpr ⟨chunk, ledger.chunk⟩
  · refine forall_mem_cons.mpr ⟨fun c => cleared, fun other listed c holds => ?_⟩
    rw [out fun also => apart other listed c also holds]
    exact ledger.clean other listed c holds
  · intro first listed second listed' differ c holds also
    rcases mem_cons.mp listed with isNew | old <;> rcases mem_cons.mp listed' with alsoNew | alsoOld
    · exact differ (by rw [isNew, alsoNew])
    · exact apart second alsoOld c (isNew ▸ holds) also
    · exact apart first old c (alsoNew ▸ also) holds
    · exact ledger.apart first old second alsoOld differ c holds also
  · rw [map_cons, sum_cons, ledger.inFlight, Int.add_comm]
  · intro c still
    by_cases holds : task.Holds cfg c
    · exact absurd ((cleared holds).symm.trans still) Bool.false_ne_true
    · rw [out holds] at still
      exact ledger.inside c still
  · intro c was
    by_cases holds : task.Holds cfg c
    · exact .inr (.inl ⟨task, mem_cons_self, holds⟩)
    rw [out holds, out holds]
    rcases ledger.accounted c was with isDirty | ⟨other, listed, holds⟩ | settled
    · exact .inl isDirty
    · exact .inr (.inl ⟨other, mem_cons_of_mem _ listed, holds⟩)
    · exact .inr (.inr settled)
  · rw [map_cons, nodup_cons]
    refine ⟨fun listed => ?_, ledger.distinct⟩
    obtain ⟨other, listed, same⟩ := List.mem_map.mp listed
    have := ledger.fresh other listed
    omega
  · refine forall_mem_cons.mpr ⟨by omega, fun other listed => ?_⟩
    exact lt_succ_of_lt (ledger.fresh other listed)

/-- A task is replaced by nothing or a part of it; its other clusters are dirty again or settled. -/
theorem replace {before after}
    (ledger : Ledger cfg was dirty (before ++ task :: after) inFlightBytes outcome nextId)
    (rest : Option BlockCopyTask)
    (part : ∀ t ∈ rest, t.id = task.id ∧ Chunk cfg t.offset t.bytes ∧
      ∀ c, t.Holds cfg c → task.Holds cfg c) {dirty' outcome'}
    (out : ∀ c, ¬ task.Holds cfg c → dirty' c = dirty c ∧ outcome' c = outcome c)
    (clean : ∀ t ∈ rest, ∀ c, t.Holds cfg c → dirty' c = false)
    (settled : ∀ c, task.Holds cfg c → dirty' c ∨ (∃ t ∈ rest, t.Holds cfg c) ∨ outcome' c ≠ none)
    {inFlightBytes'}
    (inFlight : inFlightBytes' = inFlightBytes - task.bytes +
      (rest.toList.map fun t => (t.bytes : Int)).sum) :
    Ledger cfg was dirty' (before ++ (rest.toList ++ after)) inFlightBytes' outcome' nextId := by
  -- A task of the new list is the part left over or one of the others.
  have mem {t : BlockCopyTask} (listed : t ∈ before ++ (rest.toList ++ after)) :
      t ∈ rest ∨ t ∈ before ++ task :: after ∧ t.id ≠ task.id := by
    have others := key_ne ledger.distinct t
    simp only [mem_append, mem_cons, mem_toList] at listed others ⊢
    tauto
  have here : task ∈ before ++ task :: after := mem_append_right _ mem_cons_self
  have taskChunk := ledger.chunk task here
  constructor
  · intro t listed
    rcases mem listed with new | ⟨old, _⟩
    · exact (part t new).2.1
    · exact ledger.chunk t old
  · intro t listed c holds
    rcases mem listed with new | ⟨old, differ⟩
    · exact clean t new c holds
    · rw [(out c (ledger.apart t old task here differ c holds)).1]
      exact ledger.clean t old c holds
  · intro t listed u listed' differ c holds also
    rcases mem listed with new | ⟨old, other⟩ <;> rcases mem listed' with
      alsoNew | ⟨alsoOld, alsoOther⟩
    · exact differ ((part t new).1.trans (part u alsoNew).1.symm)
    · exact ledger.apart u alsoOld task here alsoOther c also ((part t new).2.2 c holds)
    · exact ledger.apart t old task here other c holds ((part u alsoNew).2.2 c also)
    · exact ledger.apart t old u alsoOld differ c holds also
  · rw [inFlight, ledger.inFlight]
    simp only [map_append, map_cons, List.sum_append, sum_cons]
    omega
  · intro c isDirty
    by_cases holds : task.Holds cfg c
    · exact lt_of_lt_of_le holds.2 taskChunk.inside
    · rw [(out c holds).1] at isDirty
      exact ledger.inside c isDirty
  · intro c was
    by_cases holds : task.Holds cfg c
    · rcases settled c holds with isDirty | ⟨t, isRest, holds⟩ | isSettled
      · exact .inl isDirty
      · exact .inr (.inl ⟨t, by simp [mem_toList.mpr isRest], holds⟩)
      · exact .inr (.inr isSettled)
    rw [(out c holds).1, (out c holds).2]
    rcases ledger.accounted c was with isDirty | ⟨t, listed, also⟩ | isSettled
    · exact .inl isDirty
    · refine .inr (.inl ⟨t, ?_, also⟩)
      have differ : t ≠ task := fun same => holds (same ▸ also)
      simp only [mem_append, mem_cons] at listed ⊢
      tauto
    · exact .inr (.inr isSettled)
  · refine Nodup.sublist ?_ ledger.distinct
    simp only [map_append, map_cons]
    refine Sublist.append_left ?_ _
    cases rest with
    | none => exact sublist_cons_self _ _
    | some t =>
      rw [toList_some, map_cons, map_nil, (part t rfl).1]
      exact Sublist.refl _
  · intro t listed
    rcases mem listed with new | ⟨old, _⟩
    · rw [(part t new).1]
      exact ledger.fresh task here
    · exact ledger.fresh t old

section

variable (ledger : Ledger cfg was dirty tasks inFlightBytes outcome nextId)
  (found : lookup BlockCopyTask.id tasks task.id = some task)

include ledger found

/-- The range of a task is cut, and what is cut off is dirty again. -/
theorem shrink {newBytes : Nat} (pos : 0 < newBytes)
    (whole : cfg.clusterSize ∣ newBytes) (less : newBytes < task.bytes) :
    Ledger cfg was (fillRange cfg dirty (task.offset + newBytes) (task.bytes - newBytes) true)
      (modify BlockCopyTask.id tasks task.id fun t => { t with bytes := newBytes })
      (inFlightBytes - (task.bytes - newBytes : Nat)) outcome nextId := by
  obtain ⟨before, after, rfl, modified, _⟩ := split_at ledger.distinct found
  have chunk := ledger.chunk task (mem_of_lookup found).1
  have start_dvd := dvd_add chunk.offset_dvd whole
  have count_dvd := dvd_sub chunk.bytes_dvd whole
  rw [modified]
  -- The task keeps its front; the clusters behind are dirty again.
  refine ledger.replace (some { task with bytes := newBytes }) ?_ ?_ ?_ ?_ ?_
  · rintro t ⟨⟩
    refine ⟨rfl, ⟨chunk.offset_dvd, whole, pos, ?_⟩, fun c holds => ⟨holds.1, ?_⟩⟩
    · exact le_trans (by simp only; omega) chunk.inside
    · exact lt_trans holds.2 (by simp only; omega)
  · intro c out
    refine ⟨fillRange_of_not_within start_dvd count_dvd fun within => out ⟨?_, ?_⟩, rfl⟩
    · exact le_trans (le_add_right _ _) within.1
    · exact lt_of_lt_of_eq within.2 (by omega)
  · rintro t ⟨⟩ c holds
    rw [fillRange_of_not_within start_dvd count_dvd fun within =>
      absurd holds.2 (not_lt.mpr within.1)]
    exact ledger.clean task (mem_of_lookup found).1 c
      ⟨holds.1, lt_trans holds.2 (by simp only; omega)⟩
  · intro c holds
    by_cases kept : c * cfg.clusterSize < task.offset + newBytes
    · exact .inr (.inl ⟨_, rfl, holds.1, kept⟩)
    · refine .inl (fillRange_of_within start_dvd count_dvd ⟨Nat.le_of_not_lt kept, ?_⟩)
      exact lt_of_lt_of_eq holds.2 (by omega)
  · simp only [toList_some, map_cons, map_nil, sum_cons, sum_nil]
    omega

theorem remove_failed :
    Ledger cfg was (fillRange cfg dirty task.offset task.bytes true)
      (remove BlockCopyTask.id tasks task.id) (inFlightBytes - task.bytes) outcome nextId := by
  obtain ⟨before, after, rfl, _, removed⟩ := split_at ledger.distinct found
  have chunk := ledger.chunk task (mem_of_lookup found).1
  rw [removed]
  refine ledger.replace none (by simp) ?_ (by simp) ?_ (by simp)
  · exact fun c out => ⟨fillRange_of_not_within chunk.offset_dvd chunk.bytes_dvd out, rfl⟩
  · exact fun c holds => .inl (fillRange_of_within chunk.offset_dvd chunk.bytes_dvd holds)

/-- Ending a task moves its bytes from in flight to its outcome. -/
theorem remove_settled (how) : Ledger cfg was dirty (remove BlockCopyTask.id tasks task.id)
    (inFlightBytes - task.bytes)
      (fillRange cfg outcome task.offset task.bytes (some how)) nextId := by
  obtain ⟨before, after, rfl, _, removed⟩ := split_at ledger.distinct found
  have chunk := ledger.chunk task (mem_of_lookup found).1
  rw [removed]
  refine ledger.replace none (by simp) ?_ (by simp) ?_ (by simp)
  · exact fun c out => ⟨rfl, fillRange_of_not_within chunk.offset_dvd chunk.bytes_dvd out⟩
  · intro c holds
    rw [fillRange_of_within chunk.offset_dvd chunk.bytes_dvd holds]
    simp

/-- Changing what a task carries beside its range keeps the ledger. -/
theorem change {f} (sameId : (f task).id = task.id) (sameOffset : (f task).offset = task.offset)
    (sameBytes : (f task).bytes = task.bytes) :
    Ledger cfg was dirty (modify BlockCopyTask.id tasks task.id f)
        inFlightBytes outcome nextId := by
  obtain ⟨before, after, rfl, modified, _⟩ := split_at ledger.distinct found
  have listed := (mem_of_lookup found).1
  have same (c : Nat) : (f task).Holds cfg c ↔ task.Holds cfg c := by
    rw [BlockCopyTask.Holds, BlockCopyTask.Holds, sameOffset, sameBytes]
  rw [modified]
  refine ledger.replace (some (f task)) ?_ (fun c _ => ⟨rfl, rfl⟩) ?_ ?_ ?_
  · rintro t ⟨⟩
    refine ⟨sameId, ?_, fun c => (same c).mp⟩
    rw [sameOffset, sameBytes]
    exact ledger.chunk task listed
  · rintro t ⟨⟩ c holds
    exact ledger.clean task listed c ((same c).mp holds)
  · exact fun c holds => .inr (.inl ⟨_, rfl, (same c).mpr holds⟩)
  · simp [sameBytes]

end

end Ledger

end Qemu.BlockCopy
