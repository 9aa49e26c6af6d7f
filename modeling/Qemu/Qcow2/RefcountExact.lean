import Qemu.Qcow2.RefcountTermination

/-! `update_refcount` as seen through `qcow2_get_refcount`: exact if it succeeds, atomic if it
fails. -/

namespace Qemu.Qcow2

open Option

variable {g : Geometry} {s s' : State} {offset length : Nat} {addend : BitVec 64} {decrease : Bool}

/-- A cluster is touched by a range of bytes. -/
def Touched (g : Geometry) (offset length c : Nat) : Prop :=
  0 < length ∧ c * g.clusterSize < offset + length ∧ offset < (c + 1) * g.clusterSize

instance (c : Nat) : Decidable (Touched g offset length c) :=
  inferInstanceAs (Decidable (_ ∧ _ ∧ _))

theorem touched_iff (pos : 0 < length) (c) :
    Touched g offset length c ↔ firstCluster g offset ≤ c ∧ c < stopCluster g offset length := by
  have size := g.clusterSize_pos
  rw [Touched, firstCluster, stopCluster, and_iff_right pos, and_comm]
  refine and_congr ?_ ?_
  · rw [← Nat.lt_succ_iff, Nat.div_lt_iff_lt_mul size]
  · rw [Nat.lt_succ_iff, Nat.le_div_iff_mul_le size]
    omega

/-- A call of `update_refcount` with refcount structures in order and left alone, a range that an L2
entry can name, and a hint not beyond what the table can cover. -/
structure Admissible (g : Geometry) (s : State) (offset length : Nat) (addend : BitVec 64)
    (decrease : Bool) : Prop where
  sound : Sound g s
  positive : 0 < length
  named : offset + length ≤ 2 ^ 56
  fits : ∀ c, Touched g offset length c → c / g.refcountBlockSize < 2 ^ 32
  hint : s.freeClusterIndex + 4 ≤ 2 ^ 32 * g.refcountBlockSize
  apart : ∀ c, Touched g offset length c → structures g s c = 0
  room : decrease = true → addend.toNat < g.refcountMax.toNat ∨
    ∀ c, Touched g offset length c → s.lookup (c / g.refcountBlockSize) ≠ none

theorem Admissible.request (admissible : Admissible g s offset length addend decrease) :
    Request g s offset length addend decrease := by
  have touched (c : Nat) : Touched g offset length c ↔ _ := touched_iff admissible.positive c
  exact ⟨admissible.positive, fun c above below =>
    admissible.fits c ((touched c).mpr ⟨above, below⟩),
    fun c above below => admissible.apart c ((touched c).mpr ⟨above, below⟩),
    fun isDecrease => (admissible.room isDecrease).imp_right fun there c above below =>
      there c ((touched c).mpr ⟨above, below⟩)⟩

theorem Sound.bound (sound : Sound g s)
    (hint : s.freeClusterIndex + 4 ≤ 2 ^ 32 * g.refcountBlockSize) :
    max s.freeClusterIndex (s.refcountTableSize * g.refcountBlockSize) + 4 ≤
        2 ^ 32 * g.refcountBlockSize := by
  have size : s.refcountTableSize ≤ 8388608 := sound.size_le
  have := Nat.mul_le_mul_right g.refcountBlockSize size
  omega

/-- What a call does at any depth of recursion that is enough for it. -/
theorem updateRefcount_spec {depth ret} (tryNew0 : Nat → Bool) (sound : Sound g s)
    (request : Request g s offset length addend decrease)
    (bound : max s.freeClusterIndex (s.refcountTableSize * g.refcountBlockSize) + 4 ≤
      2 ^ 32 * g.refcountBlockSize)
    (res : updateRefcount g tryNew0 depth s offset length addend decrease = some (ret, s')) :
    (ret = .ok () ∧ ChangedRange g s offset (fun _ => True) addend decrease (firstCluster g offset)
        (stopCluster g offset length) s') ∨
      ∃ errno leak, ret = .error errno ∧
          UpdateFailed g s offset length addend decrease errno leak s' := by
  -- Four levels are enough, and more give the same.
  obtain ⟨ended, enough⟩ :=
    ne_none_iff_exists'.mp (updateRefcount_ends tryNew0 0 sound request bound)
  have same :=
    (updateRefcount_approximates g tryNew0 (Nat.le_max_left depth 4) _ _ _ _ _ _ res).symm.trans
    (updateRefcount_approximates g tryNew0 (Nat.le_max_right depth 4) _ _ _ _ _ _ enough)
  rw [some_inj] at same
  subst same
  exact updateRefcount_step (countLaw g tryNew0 3) (freeLaw g tryNew0 3) sound request bound enough

/-- The refcounts that are reported after a call: changed for the clusters that it touches. -/
def CountsExactly (g : Geometry) (s s' : State) (offset length : Nat) (addend : BitVec 64)
    (decrease : Bool) : Prop :=
  ∀ c, ∃ old new, qcow2GetRefcount g s c = .ok old ∧ qcow2GetRefcount g s' c = .ok new ∧
    (new.toNat : Int) = old.toNat +
      if Touched g offset length c then if decrease then -(addend.toNat : Int) else addend.toNat
      else 0

/-- A cluster beyond the writer's index has no block for the reader either, so its refcount is 0
before and after. -/
theorem CountsExactly.fits (exactly : CountsExactly g s s' offset length addend decrease)
    (size : s.refcountTableSize ≤ 2 ^ 32) (same : s'.refcountTableSize = s.refcountTableSize)
    (nonzero : addend ≠ 0#64) {c} (touched : Touched g offset length c) :
    c / g.refcountBlockSize < 2 ^ 32 := by
  by_contra beyond
  have unknown {t : State} (small : t.refcountTableSize ≤ 2 ^ 32) :
      qcow2GetRefcount g t c = .ok 0#64 := by
    rw [qcow2GetRefcount, State.lookup, if_neg (by omega)]
  obtain ⟨old, new, before, after, change⟩ := exactly c
  rw [unknown size] at before
  rw [unknown (same ▸ size)] at after
  cases before
  cases after
  have positive : addend.toNat ≠ 0 := fun zero => nonzero (BitVec.eq_of_toNat_eq zero)
  rw [if_pos touched] at change
  split at change <;> simp at change <;> omega

/-- Clusters of 512 bytes and refcounts of 64 bits. -/
def sampleGeometry : Geometry := ⟨9, 6, by decide, by decide⟩

/-- A new image: header, refcount table and its only block come first. -/
def sampleImage : State where
  refcountTable i := if i = 0 then 1024 else 0
  refcountTableSize := 64
  refcountTableOffset := 512
  maxRefcountTableIndex := 0
  freeClusterIndex := 3
  disk offset := if offset = 1024 then fun i => if i = 7 ∨ i = 15 ∨
    i = 23 then 1#8 else 0#8 else fun _ => 0#8
  dirty _ := none

theorem lookup_sampleImage (i) : sampleImage.lookup i = if i = 0 then some 1024 else none := by
  by_cases first : i = 0
  · subst first
    rfl
  · rw [State.lookup, if_neg first, if_neg]
    rintro ⟨_, used⟩
    exact used (by simp only [sampleImage, first, if_false]; rfl)

theorem structures_sampleImage (c) : structures sampleGeometry sampleImage c = if c = 1 ∨
    c = 2 then 1 else 0 := by
  have size : sampleGeometry.clusterSize = 512 := rfl
  have block : BlockAt sampleGeometry sampleImage c ↔ c = 2 := by
    simp only [blockAt_iff, lookup_sampleImage, ite_none_right_eq_some,
      exists_eq_left, some_inj, size]
    omega
  have table : TableAt sampleGeometry sampleImage c ↔ c = 1 := by
    simp only [TableAt, size, sampleImage]
    omega
  simp only [structures, block, table]
  split <;> split <;> split <;> omega

theorem sound_sampleImage : Sound sampleGeometry sampleImage where
  aligned {i offset} found := by
    rw [lookup_sampleImage, ite_none_right_eq_some, some_inj] at found
    exact found.2 ▸ rfl
  distinct {i j offset} first second := by
    rw [lookup_sampleImage, ite_none_right_eq_some] at first second
    omega
  tableAligned := rfl
  tableWhole := rfl
  size_le := by decide
  maxIndex_lt := by decide
  le_maxIndex {i offset} found := by
    rw [lookup_sampleImage, ite_none_right_eq_some] at found
    exact Nat.le_of_eq found.1
  counted c := by
    rw [structures_sampleImage]
    split
    · rename_i used
      rcases used with rfl | rfl <;> decide +kernel
    · exact Nat.zero_le _
  apart c := by
    rw [structures_sampleImage]
    split <;> omega

end Qemu.Qcow2
