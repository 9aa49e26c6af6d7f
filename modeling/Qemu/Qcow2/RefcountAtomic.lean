import Qemu.Qcow2.RefcountAlloc

/-! `update_refcount` changes exactly its range, or undoes what it has done. -/

namespace Qemu.Qcow2

variable {g : Geometry} {s s' : State} {tryNew0 : Nat → Bool} {update : Update}

/-- A range whose refcounts may be changed. -/
structure Request (g : Geometry) (s : State) (offset length : Nat) (addend : BitVec 64)
    (decrease : Bool) : Prop where
  positive : 0 < length
  /-- The indices of the refcount blocks fit the variable for them. -/
  fits : ∀ c, firstCluster g offset ≤ c → c < stopCluster g offset length →
    c / g.refcountBlockSize < 2 ^ 32
  /-- The clusters are not those of the refcount structures. -/
  apart : ∀ c, firstCluster g offset ≤ c → c < stopCluster g offset length → structures g s c = 0
  /-- What is freed can be counted again even if a refcount block uses it meanwhile. -/
  room : decrease = true → addend.toNat < g.refcountMax.toNat ∨
    ∀ c, firstCluster g offset ≤ c → c < stopCluster g offset length →
      s.lookup (c / g.refcountBlockSize) ≠ none

/-- What a call of `update_refcount` that has failed leaves. -/
structure UpdateFailed (g : Geometry) (s : State) (offset length : Nat) (addend : BitVec 64)
    (decrease : Bool) (errno : Errno) (leak : Option Nat) (s' : State) : Prop where
  grown : Grown g s s' leak
  fresh : decrease = false → Fresh g s s' leak
  less : errno = .eagain → growthLeft s' < growthLeft s
  hint : errno = .eagain → s'.freeClusterIndex ≤ firstCluster g offset
  noLeak : decrease = false → addend ≠ 0#64 → stopCluster g offset length ≤ s.freeClusterIndex →
    leak = none
  cause : leak ≠ none → errno = .efbig ∨ errno = .enomem

variable {offset length : Nat} {addend : BitVec 64} {decrease : Bool}

/-- A request does not start at a refcount block. -/
theorem Request.lookup_ne (request : Request g s offset length addend decrease)
    (readable : Readable g s) (i) : s.lookup i ≠ some offset := by
  intro found
  obtain ⟨a, eq⟩ := Nat.dvd_of_mod_eq_zero (readable.aligned found)
  have first : firstCluster g offset =
    a := by rw [firstCluster, eq, Nat.mul_div_cancel_left _ g.clusterSize_pos]
  have apart :=
    request.apart a (Nat.le_of_eq first) (first ▸ firstCluster_lt_stopCluster request.positive)
  exact ((structures_eq_zero_iff a).mp apart).1
    ((blockAt_iff a).mpr ⟨i, by rw [found, eq, Nat.mul_comm]⟩)

theorem ChangedRange.sound {indices first stop}
    (range : ChangedRange g s offset indices addend decrease first stop s') (sound : Sound g s)
    (apart : ∀ c, first ≤ c → c < stop → structures g s c = 0) : Sound g s' := by
  refine sound.of_sameTable range.table fun c => ?_
  rw [range.refcount]
  split
  · rename_i inside
    rw [apart c inside.1 inside.2]
    exact Nat.zero_le _
  · exact sound.counted c

/-- What the loop leaves where it stops. -/
theorem Stopped.failed {level stop mid errno} (law : CountLaw g update level)
    (free : FreeLaw g update) (sound : Sound g mid) (fits : stop / g.refcountBlockSize < 2 ^ 32)
    (bound : max mid.freeClusterIndex (mid.refcountTableSize * g.refcountBlockSize) + (level + 1) ≤
      2 ^ 32 * g.refcountBlockSize)
    (stopped : Stopped g tryNew0 update offset addend decrease stop mid errno s') :
    Failed g mid errno s' (stop < mid.freeClusterIndex) ∧
      (errno = .eagain → s'.freeClusterIndex ≤ firstCluster g offset) ∧
      (mid.lookup (stop / g.refcountBlockSize) = none ∨
          ∀ c, refcount g s' c = refcount g mid c) := by
  cases stopped with
  | impossible no =>
    exact ⟨.nothing sound (by decide), by simp, .inr fun _ => rfl⟩
  | missing absent alloc again =>
    obtain ⟨leak, grown, fresh, less, none⟩ :=
      allocRefcountBlock_failed law free sound absent fits bound alloc
    exact ⟨⟨leak, ⟨grown.sound.hint _, grown.kept, grown.balance, grown.leaked, grown.clean⟩,
      fresh, less, none⟩, again, .inl absent⟩

/-- The loop changes the whole range, or what it has done can be undone. -/
theorem updateClusters_undo (depth) {level ended after}
    (law : CountLaw g update level) (free : FreeLaw g update) (sound : Sound g s)
    (request : Request g s offset length addend decrease)
    (bound : max s.freeClusterIndex (s.refcountTableSize * g.refcountBlockSize) + (level + 1) ≤
      2 ^ 32 * g.refcountBlockSize)
    (loop : updateClusters g (allocRefcountBlock g tryNew0 update) offset addend decrease
      (stopCluster g offset length - firstCluster g offset) (firstCluster g offset) none
        s = some (ended, after)) :
    (ended = .ok () ∧ ChangedRange g s offset (fun _ => True) addend
      decrease (firstCluster g offset) (stopCluster g offset length) after) ∨
      ∃ errno stop leak ret undone, ended = .error (errno, stop) ∧
        updateRefcount g tryNew0 (depth + 1) after offset
          (stop * g.clusterSize - offset) addend (!decrease) = some (ret, undone) ∧
        UpdateFailed g s offset length addend decrease errno leak undone := by
  have lt : firstCluster g offset < stopCluster g offset length :=
    firstCluster_lt_stopCluster request.positive
  have absent := request.lookup_ne sound.toReadable
  have safe : DiscardSafe s offset fun _ => True := fun i found => absurd found (absent i)
  have count : firstCluster g offset + (stopCluster g offset length - firstCluster g offset) =
    stopCluster g offset length := by omega
  rcases updateClusters_spec sound.toReadable (fun _ _ none => by contradiction)
      safe (fun c above below => ⟨trivial, request.fits c above (count ▸ below)⟩) loop with
    ⟨rfl, range⟩ | ⟨errno, stop, mid, rfl, within, range, stopped⟩
  · exact .inl ⟨rfl, count ▸ range⟩
  rw [count] at within
  have apart (c : Nat) (above : firstCluster g offset ≤ c) (below : c < stop) :=
    request.apart c above (by omega)
  have midBound : max mid.freeClusterIndex (mid.refcountTableSize * g.refcountBlockSize) +
    (level + 1) ≤ 2 ^ 32 * g.refcountBlockSize := by
    have := range.hint_le
    rw [range.table.refcountTableSize]
    omega
  obtain ⟨⟨leak, grown, fresh, less, noLeak⟩, again, cause⟩ :=
    stopped.failed law free (range.sound sound apart) (request.fits stop within.1 within.2) midBound
  have absentMid (i : Nat) : mid.lookup i ≠ some offset := range.table.lookup i ▸ absent i
  have room : decrease = true → addend.toNat < g.refcountMax.toNat ∨
      ∀ c, refcount g after c = refcount g mid c := by
    intro isDecrease
    rcases cause with missing | same
    · refine (request.room isDecrease).imp_right fun there => ?_
      exact absurd (range.table.lookup _ ▸ missing) (there stop within.1 within.2)
    · exact .inr same
  -- A new block may be where the range starts, but then it is written back.
  have safeAfter : DiscardSafe after offset fun i => mid.lookup i ≠ none := by
    refine fun i found => ⟨grown.clean offset absentMid ⟨i, found⟩, fun old => ?_⟩
    obtain ⟨other, foundMid⟩ := Option.ne_none_iff_exists'.mp old
    exact absentMid i (foundMid.trans ((grown.kept foundMid).symm.trans found))
  obtain ⟨ret, undone, undo, back⟩ :=
    updateRefcount_before tryNew0 depth within.1 grown.sound.toReadable safeAfter
    (fun c above below => ⟨range.table.lookup _ ▸ range.there c above below,
      request.fits c above (by omega)⟩) (fun c above below => by
      obtain ⟨other, found⟩ := Option.ne_none_iff_exists'.mp (range.there c above below)
      rw [grown.kept (range.table.lookup _ ▸ found)]
      exact Option.some_ne_none _)
    (fun c above below => canUndo range grown fresh room (apart c above below) above below)
  refine .inr ⟨errno, stop, leak, ret, undone, rfl, undo, Grown.undo range sound grown back
    fun i old => old, ?_, ?_, ?_, ?_, ?_⟩
  · rintro increase c zero new
    rw [back.table.structures] at new
    have unused := fresh c (range.table.structures c ▸ zero) new
    have value := range.refcount c
    rw [unused] at value
    split at value
    · simp only [changed, increase, Bool.false_eq_true, if_false] at value
      omega
    · exact value.symm
  · intro isAgain
    rw [back.table.growthLeft, ← range.table.growthLeft]
    exact less isAgain
  · intro isAgain
    exact back.hint_le.trans (again isAgain)
  · intro increase nonzero past
    refine noLeak (.inl ?_)
    rw [range.hint_eq increase nonzero]
    omega
  · intro isLeak
    by_contra neither
    exact isLeak (noLeak (.inr (not_or.mp neither)))

/-- A range is changed as a whole, or not at all. -/
theorem updateRefcount_step {depth ret} (law : CountLaw g (updateRefcount g tryNew0 depth) depth)
    (free : FreeLaw g (updateRefcount g tryNew0 depth)) (sound : Sound g s)
    (request : Request g s offset length addend decrease)
    (bound : max s.freeClusterIndex (s.refcountTableSize * g.refcountBlockSize) + (depth + 1) ≤
      2 ^ 32 * g.refcountBlockSize)
    (res : updateRefcount g tryNew0 (depth + 1) s offset length addend decrease = some (ret, s')) :
    (ret = .ok () ∧ ChangedRange g s offset (fun _ => True) addend decrease (firstCluster g offset)
        (stopCluster g offset length) s') ∨
      ∃ errno leak, ret = .error errno ∧
          UpdateFailed g s offset length addend decrease errno leak s' := by
  rw [updateRefcount_pos _ _ _ request.positive] at res
  rcases loop : updateClusters g (allocRefcountBlock g tryNew0 (updateRefcount g tryNew0 depth))
    offset addend decrease (stopCluster g offset length - firstCluster g offset)
    (firstCluster g offset) none s with - | ⟨ended, after⟩
  · rw [loop] at res
    contradiction
  rw [loop] at res
  cases depth with
  | zero =>
    rcases updateClusters_undo 0 law free sound request bound loop with
      ⟨rfl, range⟩ | ⟨_, _, _, _, _, rfl, _⟩
    · cases res
      exact .inl ⟨rfl, range⟩
    · contradiction
  | succ depth =>
    rcases updateClusters_undo depth law free sound request bound loop with
      ⟨rfl, range⟩ | ⟨errno, stop, leak, ended, undone, rfl, undo, failed⟩
    · cases res
      exact .inl ⟨rfl, range⟩
    · simp only [undo] at res
      cases res
      exact .inr ⟨errno, leak, rfl, failed⟩

/-- Where every block exists, freeing changes exactly the range. -/
theorem freeLaw (g) (tryNew0 : Nat → Bool) (depth) :
    FreeLaw g (updateRefcount g tryNew0 depth) := by
  intro s s' offset length indices ret pos readable safe all res
  cases depth with
  | zero => contradiction
  | succ depth =>
    obtain ⟨freed, exact_, range⟩ := updateRefcount_exact tryNew0 depth pos readable safe
      (fun c above below => (all c above below).1) (fun c above below => (all c above below).2.1)
      (fun c above below => (all c above below).2.2)
    obtain ⟨_, rfl⟩ := Prod.mk.inj (Option.some.inj (exact_.symm.trans res))
    exact range

theorem firstCluster_mul (g N) : firstCluster g (N * g.clusterSize) = N :=
  Nat.mul_div_cancel _ g.clusterSize_pos

theorem stopCluster_mul (g N) : stopCluster g (N * g.clusterSize) g.clusterSize = N + 1 := by
  have := g.clusterSize_pos
  rw [stopCluster]
  congr 1
  exact Nat.div_eq_of_lt_le (by omega) (by rw [Nat.add_mul]; omega)

/-- A free cluster may be asked for. -/
theorem request_one {N} (sound : Sound g s) (unused : refcount g s N = 0)
    (bound : N + 1 ≤ 2 ^ 32 * g.refcountBlockSize) :
    Request g s (N * g.clusterSize) g.clusterSize 1#64 false where
  positive := g.clusterSize_pos
  fits c above below := by
    rw [firstCluster_mul] at above
    rw [stopCluster_mul] at below
    rw [Nat.div_lt_iff_lt_mul g.refcountBlockSize_pos]
    omega
  apart c above below := by
    rw [firstCluster_mul] at above
    rw [stopCluster_mul] at below
    obtain rfl : c = N := by omega
    exact sound.structures_free unused
  room decrease := by contradiction

/-- Counting one cluster at any depth changes that one only, or fails. -/
theorem countLaw (g) (tryNew0 : Nat → Bool) (depth) :
    CountLaw g (updateRefcount g tryNew0 depth) depth := by
  induction depth with
  | zero => exact ⟨fun _ _ _ _ none => by contradiction, fun _ _ _ _ none => by contradiction⟩
  | succ depth ih =>
    refine ⟨fun {s s' N} sound unused hint bound res => ?_,
      fun {s s' N errno} sound unused hint bound res => ?_⟩
    all_goals
      have request := request_one sound unused (by omega)
      have step := updateRefcount_step ih (freeLaw g tryNew0 depth) sound request bound res
      rw [firstCluster_mul, stopCluster_mul] at step
      rcases step with ⟨ok, range⟩ | ⟨errno', leak, error, failed⟩
    · refine ⟨range.table, fun c => ?_⟩
      rw [range.refcount]
      by_cases here : c = N
      · rw [if_pos (by omega), if_pos here, here, unused]
        rfl
      · rw [if_neg (by omega), if_neg here]
    · contradiction
    · contradiction
    · cases error
      refine ⟨leak, failed.grown, failed.fresh rfl, failed.less,
        fun _ => failed.noLeak rfl (by decide) ?_⟩
      rw [stopCluster_mul, hint]

end Qemu.Qcow2
