import Qemu.Qcow2.RefcountExact
import Qemu.Lib.Transition

/-! Runs of `qcow2_alloc_clusters` and `qcow2_free_clusters`: none is allocated twice, refcounts
count owners. -/

namespace Qemu.Qcow2

open Option Nat

variable {g : Geometry} {base : Nat → Nat} {tryNew0 : Nat → Bool}

/-- An image with how often each cluster was obtained and not freed. -/
structure Account where
  image : State
  held : Nat → Nat

/-- The refcounts are the numbers of owners: some that do not change, those who obtained the
cluster, and the refcount structures. -/
structure Accounted (g : Geometry) (base : Nat → Nat) (a : Account) : Prop where
  sound : Sound g a.image
  owners : ∀ c, refcount g a.image c = base c + a.held c + structures g a.image c
  apart : ∀ c, a.held c ≠ 0 → structures g a.image c = 0

/-- A call that allocates or frees clusters. -/
inductive Call where
  | alloc (size : Nat)
  | free (offset size : Nat)

/-- The effect of a call, if it ends. -/
def perform (g : Geometry) (tryNew0 : Nat → Bool) (depth turns : Nat)
    (a : Account) : Call → Option Account
  | .alloc size =>
    match qcow2AllocClusters g tryNew0 depth turns a.image size with
    | none => none
    | some (.error _, s) => some { a with image := s }
    | some (.ok offset, s) => some ⟨s, fun c => a.held c + if Touched g offset size c then 1 else 0⟩
  | .free offset size =>
    (qcow2FreeClusters g tryNew0 depth a.image offset size).map fun s =>
      ⟨s, fun c => a.held c - if Touched g offset size c then 1 else 0⟩

/-- All indices in the search for some clusters fit the variable for them. -/
def Near (g : Geometry) (s : State) (size : Nat) : Prop :=
  max s.freeClusterIndex (qcowMaxReftableSize * g.refcountBlockSize) + sizeToClusters g size + 4 ≤
      2 ^ 32 * g.refcountBlockSize ∨
    qcowMaxClusterOffset / g.clusterSize + 5 ≤ 2 ^ 32 * g.refcountBlockSize

/-- A call that may be made: what is freed was obtained, what is allocated is near. -/
def Meets (g : Geometry) (a : Account) : Call → Prop
  | .alloc size => size < 2 ^ 64 ∧ Near g a.image size
  | .free offset size => size < 2 ^ 63 ∧ ∀ c, Touched g offset size c → a.held c ≠ 0

variable {a : Account} {size : Nat}

theorem sizeToClusters_spec (first) (pos : 0 < size) (small : size < 2 ^ 63) :
    firstCluster g (first * g.clusterSize) = first ∧
      stopCluster g (first * g.clusterSize) size = first + sizeToClusters g size := by
  have some := g.clusterSize_pos
  have most : g.clusterSize ≤ 2 ^ 21 := Nat.pow_le_pow_right (n := 2) (by decide) g.clusterBits_le
  refine ⟨firstCluster_mul g first, ?_⟩
  rw [stopCluster, sizeToClusters, Nat.mod_eq_of_lt (by omega), Nat.add_sub_assoc pos, Nat.mul_comm,
    mul_add_div some, show size + (g.clusterSize - 1) = size - 1 +
      g.clusterSize by omega, add_div_right _ some]
  rfl

theorem Accounted.hint (acc : Accounted g base a) (hint) :
    Accounted g base { a with image := { a.image with freeClusterIndex := hint } } :=
  ⟨acc.sound.hint hint, acc.owners, acc.apart⟩

/-- Growing the structures keeps every reference accounted for. -/
theorem Accounted.grown {s} (acc : Accounted g base a) (grown : Grown g a.image s none)
    (fresh : Fresh g a.image s none) : Accounted g base { a with image := s } where
  sound := grown.sound
  owners c := by
    have := grown.balance c (some_ne_none c).symm
    have := acc.owners c
    show refcount g s c = base c + a.held c + structures g s c
    omega
  apart c held := by
    have held : a.held c ≠ 0 := held
    by_contra new
    have := fresh c (acc.apart c held) (.inl new)
    have := acc.owners c
    exact held (by omega)

def Allocated (g : Geometry) (base : Nat → Nat) (a : Account) (size : Nat)
    (s : State) : Except Errno Nat → Prop
  | .error _ => Accounted g base { a with image := s }
  | .ok offset =>
    (∀ c, Touched g offset size c → base c = 0 ∧ a.held c = 0 ∧ structures g s c = 0) ∧
      Accounted g base ⟨s, fun c => a.held c + if Touched g offset size c then 1 else 0⟩

/-- Clusters that were free have one owner when they have been counted. -/
theorem Accounted.allocated {s offset} (acc : Accounted g base a) (pos : 0 < size)
    (free : ∀ c, firstCluster g offset ≤ c → c < stopCluster g offset size →
      refcount g a.image c = 0)
    (range : ChangedRange g a.image offset (fun _ => True) 1#64 false (firstCluster g offset)
      (stopCluster g offset size) s) :
    Allocated g base a size s (.ok offset) := by
  -- A cluster with refcount 0 has no owner.
  have unowned {c : Nat} (touched : Touched g offset size c) :
      base c = 0 ∧ a.held c = 0 ∧ structures g a.image c = 0 ∧ refcount g a.image c = 0 := by
    have inside := (touched_iff pos c).mp touched
    have := free c inside.1 inside.2
    have := acc.owners c
    omega
  have same := range.table.structures (g := g)
  refine ⟨fun c touched => ?_, ?_, fun c => ?_, fun c held => ?_⟩
  · obtain ⟨one, two, three, _⟩ := unowned touched
    exact ⟨one, two, same c ▸ three⟩
  · refine range.sound acc.sound fun c above below => ?_
    exact (unowned ((touched_iff pos c).mpr ⟨above, below⟩)).2.2.1
  · have owners := acc.owners c
    show refcount g s c = base c + (a.held c + if Touched g offset size c then 1 else 0) +
      structures g s c
    rw [range.refcount, same]
    by_cases touched : Touched g offset size c
    · rw [if_pos ((touched_iff pos c).mp touched), if_pos touched]
      show _ + 1 = _
      omega
    · rw [if_neg fun inside => touched ((touched_iff pos c).mpr inside), if_neg touched]
      omega
  · rw [same]
    by_cases touched : Touched g offset size c
    · exact (unowned touched).2.2.1
    · refine acc.apart c fun zero => held ?_
      show a.held c + (if Touched g offset size c then 1 else 0) = 0
      rw [if_neg touched, zero]

variable (tryNew0 : Nat → Bool)

/-- The call that counts found clusters, of a signed 64-bit size. -/
theorem counting_found {depth first} (deep : 4 ≤ depth) (acc : Accounted g base a)
    (pos : 0 < size) (small : size < 2 ^ 63)
    (free : ∀ c, first ≤ c → c < first + sizeToClusters g size → refcount g a.image c = 0)
    (hint : a.image.freeClusterIndex = first + sizeToClusters g size)
    (near : a.image.freeClusterIndex + 4 ≤ 2 ^ 32 * g.refcountBlockSize) :
    ∃ ret s, updateRefcount g tryNew0 depth a.image (first * g.clusterSize) size
      1#64 false = some (ret, s) ∧
      ((ret = .ok () ∧ Allocated g base a size s (.ok (first * g.clusterSize))) ∨
        ∃ errno, ret = .error errno ∧ Accounted g base { a with image := s } ∧
          (errno = .eagain → growthLeft s < growthLeft a.image ∧ s.freeClusterIndex ≤ first)) := by
  obtain ⟨start, stop⟩ := sizeToClusters_spec (g := g) first pos small
  have bound := acc.sound.bound near
  have request : Request g a.image (first * g.clusterSize) size 1#64 false := by
    refine ⟨pos, fun c above below => ?_, fun c above below => ?_, fun decrease => by contradiction⟩
    · rw [div_lt_iff_lt_mul g.refcountBlockSize_pos]
      omega
    · exact acc.sound.structures_free (free c (start ▸ above) (stop ▸ below))
  obtain ⟨⟨ret, s⟩, atFour⟩ :=
    ne_none_iff_exists'.mp (updateRefcount_ends tryNew0 0 acc.sound request bound)
  refine ⟨ret, s, updateRefcount_approximates g tryNew0 deep _ _ _ _ _ _ atFour, ?_⟩
  rcases updateRefcount_spec tryNew0 acc.sound request bound atFour with
    ⟨rfl, range⟩ | ⟨errno, leak, rfl, failed⟩
  · exact .inl ⟨rfl, acc.allocated pos (start.symm ▸ stop.symm ▸ free) range⟩
  · obtain rfl : leak = none := failed.noLeak rfl (by decide) (le_of_eq (stop.trans hint.symm))
    exact .inr ⟨errno, rfl, acc.grown failed.grown (failed.fresh rfl), fun again =>
      ⟨failed.less again, start ▸ failed.hint again⟩⟩

section

variable {first : Nat} {s : State} (near : Near g s size) (sound : Sound g s)
  (le : first ≤ max s.freeClusterIndex (s.refcountTableSize * g.refcountBlockSize))

include near sound le

theorem Near.found (named : first + sizeToClusters g size - 1 ≤
    qcowMaxClusterOffset / g.clusterSize) :
    first + sizeToClusters g size + 4 ≤ 2 ^ 32 * g.refcountBlockSize := by
  have := mul_le_mul_right g.refcountBlockSize sound.size_le
  rw [Near] at near
  generalize qcowMaxClusterOffset / g.clusterSize = last at named near
  rcases near with near | large <;> omega

theorem Near.again {s'} (hint : s'.freeClusterIndex ≤ first) : Near g s' size := by
  have := mul_le_mul_right g.refcountBlockSize sound.size_le
  refine near.imp_left fun near => ?_
  omega

end

/-- `qcow2_alloc_clusters` ends, and its result had no owner. -/
theorem qcow2AllocClusters_ends {depth turns} (deep : 4 ≤ depth)
    (enough : growthLeft a.image < turns) (acc : Accounted g base a) (near : Near g a.image size)
    (width : size < 2 ^ 64) :
    ∃ ret s, qcow2AllocClusters g tryNew0 depth turns a.image size = some
    (ret, s) ∧ Allocated g base a size s ret := by
  obtain ⟨depth, rfl⟩ : ∃ rest, depth = rest + 1 := ⟨depth - 1, by omega⟩
  induction turns generalizing a with
  | zero => exact absurd enough (not_lt_zero _)
  | succ turns ih =>
    have readable := acc.sound.toReadable
    rw [qcow2AllocClusters]
    obtain ⟨⟨searched, t⟩, search⟩ := ne_none_iff_exists'.mp
      (allocClustersNoref_ne_none readable size qcowMaxClusterOffset)
    obtain ⟨first, rfl, ⟨_, le⟩, free, rfl | ⟨rfl, named⟩⟩ :=
      allocClustersNoref_spec readable search
    · -- The clusters would be too far away.
      rw [search]
      exact ⟨_, _, rfl, acc.hint _⟩
    rw [search]
    have found := near.found acc.sound le named
    have hinted := acc.hint (first + sizeToClusters g size)
    simp only [Outcome.andThen]
    rcases Nat.eq_zero_or_pos size with rfl | pos
    · -- Nothing is asked for.
      rw [show toInt64 0 = 0 from rfl, updateRefcount_zero]
      have untouched (c : Nat) : ¬ Touched g (first * g.clusterSize) 0 c :=
        fun touched => absurd touched.1 (by decide)
      refine ⟨_, _, rfl, fun c touched => absurd touched (untouched c), ?_⟩
      simp only [untouched, if_false, add_zero]
      exact hinted
    by_cases small : size < 2 ^ 63
    · rw [toInt64, if_pos small]
      obtain ⟨ret, s, res, ⟨rfl, alloc⟩ | ⟨errno, rfl, grown, again⟩⟩ :=
        counting_found tryNew0 deep hinted pos small free rfl found
      · simp only [res]
        exact ⟨_, _, rfl, alloc⟩
      simp only [res]
      by_cases isAgain : errno = .eagain
      · rw [if_pos isAgain]
        obtain ⟨less, hint⟩ := again isAgain
        have left : growthLeft { a.image with freeClusterIndex := first + sizeToClusters g size } =
          growthLeft a.image := SameTable.growthLeft ⟨rfl, rfl, rfl, rfl⟩
        have fewer : growthLeft s < turns := by
          have := lt_of_lt_of_eq less left
          omega
        exact ih (a := { a with image := s }) fewer grown (near.again acc.sound le hint)
      · rw [if_neg isAgain]
        exact ⟨_, _, rfl, grown⟩
    -- The size is a negative number for `update_refcount`.
    have negative : toInt64 size < 0 := by
      rw [toInt64, if_neg small]
      omega
    rw [updateRefcount_neg _ _ _ _ _ _ negative]
    simp only [reduceCtorEq, if_false]
    exact ⟨_, _, rfl, hinted⟩

/-- `qcow2_free_clusters` on clusters that were obtained. -/
theorem qcow2FreeClusters_ends {depth offset} (deep : 1 ≤ depth)
    (acc : Accounted g base a) (small : size < 2 ^ 63)
    (owned : ∀ c, Touched g offset size c → a.held c ≠ 0) :
    ∃ s, qcow2FreeClusters g tryNew0 depth a.image offset size = some s ∧
      Accounted g base ⟨s, fun c => a.held c - if Touched g offset size c then 1 else 0⟩ := by
  obtain ⟨depth, rfl⟩ : ∃ rest, depth = rest + 1 := ⟨depth - 1, by omega⟩
  rw [qcow2FreeClusters, toInt64, if_pos small]
  rcases Nat.eq_zero_or_pos size with rfl | pos
  · -- Nothing is freed.
    have untouched (c : Nat) : ¬ Touched g offset 0 c := fun touched => absurd touched.1 (by decide)
    rw [Int.natCast_zero, updateRefcount_zero]
    refine ⟨_, rfl, ?_⟩
    simp only [untouched, if_false, Nat.sub_zero]
    exact acc
  have held {c : Nat} (above : firstCluster g offset ≤ c) (below : c < stopCluster g offset size) :
      a.held c ≠ 0 ∧ 1 ≤ refcount g a.image c ∧ structures g a.image c = 0 := by
    have obtained := owned c ((touched_iff pos c).mpr ⟨above, below⟩)
    have := acc.owners c
    exact ⟨obtained, by omega, acc.apart c obtained⟩
  have safe : DiscardSafe a.image offset fun _ => True := by
    intro i found
    -- The range would start with a refcount block.
    obtain ⟨start, eq⟩ := dvd_of_mod_eq_zero (acc.sound.aligned found)
    have first : firstCluster g offset =
      start := by rw [firstCluster, eq, Nat.mul_div_cancel_left _ g.clusterSize_pos]
    have none := (held (le_of_eq first) (first ▸ firstCluster_lt_stopCluster pos)).2.2
    exact absurd ((blockAt_iff start).mpr ⟨i, by rw [found, eq, Nat.mul_comm]⟩)
      ((structures_eq_zero_iff start).mp none).1
  have possible (c : Nat) (above : firstCluster g offset ≤ c)
    (below : c < stopCluster g offset size) :
    CanChange g 1#64 true (refcount g a.image c) := (held above below).2.1
  obtain ⟨s, res, range⟩ := updateRefcount_exact tryNew0 depth pos acc.sound.toReadable safe
    (fun c above below => by
      obtain ⟨offset, found⟩ := exists_lookup (ne_of_gt (held above below).2.1)
      have := lookup_lt found
      have size : a.image.refcountTableSize ≤ 8388608 := acc.sound.size_le
      exact ⟨trivial, by omega⟩)
    (fun c above below => by
      obtain ⟨offset, found⟩ := exists_lookup (ne_of_gt (held above below).2.1)
      rw [found]
      exact some_ne_none _)
    possible
  rw [res]
  have same := range.table.structures (g := g)
  refine ⟨s, rfl, range.sound acc.sound fun c above below => (held above below).2.2, fun c => ?_,
    fun c still => ?_⟩
  · have owners := acc.owners c
    show refcount g s c = base c + (a.held c - if Touched g offset size c then 1 else 0) +
      structures g s c
    rw [range.refcount, same]
    by_cases touched : Touched g offset size c
    · have inside := (touched_iff pos c).mp touched
      have := (held inside.1 inside.2).1
      rw [if_pos inside, if_pos touched]
      show refcount g a.image c - 1 = _
      omega
    · rw [if_neg fun inside => touched ((touched_iff pos c).mpr inside), if_neg touched]
      omega
  · rw [same]
    refine acc.apart c fun zero => still ?_
    show a.held c - _ = 0
    omega

/-- How much a table can still grow is bounded. -/
theorem growthLeft_lt {s} (laid : Laid g s) :
    growthLeft s < (qcowMaxReftableSize + 1) * (qcowMaxReftableSize + 1) := by
  have missing := Finset.card_filter_le (Finset.range s.refcountTableSize)
    fun i => s.lookup i = none
  rw [Finset.card_range] at missing
  have size := laid.size_le
  have most : (qcowMaxReftableSize - s.refcountTableSize) * (qcowMaxReftableSize + 1) ≤
      qcowMaxReftableSize * (qcowMaxReftableSize + 1) := mul_le_mul_right _ (sub_le _ _)
  rw [growthLeft, missingBlocks, succ_mul]
  omega

/-- With enough depth and turns every call ends accounted for. -/
theorem perform_ends {depth turns} (deep : 4 ≤ depth)
    (long : (qcowMaxReftableSize + 1) * (qcowMaxReftableSize + 1) ≤ turns) (call)
    (acc : Accounted g base a) (meets : Meets g a call) :
    ∃ next, perform g tryNew0 depth turns a call = some next ∧ Accounted g base next := by
  cases call with
  | alloc size =>
    obtain ⟨ret, s, res, allocated⟩ := qcow2AllocClusters_ends tryNew0 deep
      (lt_of_lt_of_le (growthLeft_lt acc.sound.toLaid) long) acc meets.2 meets.1
    rw [perform, res]
    cases ret with
    | error errno => exact ⟨_, rfl, allocated⟩
    | ok offset => exact ⟨_, rfl, allocated.2⟩
  | free offset size =>
    obtain ⟨s, res, freed⟩ := qcow2FreeClusters_ends tryNew0 (le_trans (by decide) deep) acc meets.1
      meets.2
    rw [perform, res]
    exact ⟨_, rfl, freed⟩

/--
No cluster is allocated twice.

Let the refcounts of an image be the numbers of owners.
Then every run of calls that allocate clusters nearby and free clusters that were obtained ends,
the refcounts are again the numbers of owners, and what another call allocates has no owner so far.
-/
theorem alloc_free_accounts (g : Geometry) (tryNew0 : Nat → Bool)
    (depth turns : Nat) (deep : 4 ≤ depth)
    (long : (qcowMaxReftableSize + 1) * (qcowMaxReftableSize + 1) ≤ turns)
    (base : Nat → Nat) (image : State)
    (sound : Sound g image) (owners : ∀ c, refcount g image c = base c + structures g image c)
    (calls : List Call)
    (along : Transition.Along (perform g tryNew0 depth turns) (Meets g) ⟨image, fun _ => 0⟩ calls) :
    ∃ a, Transition.run (perform g tryNew0 depth turns) ⟨image, fun _ => 0⟩ calls = some a ∧
      (∀ c, qcow2GetRefcount g a.image c =
        .ok (BitVec.ofNat 64 (base c + a.held c + structures g a.image c)) ∧
        base c + a.held c + structures g a.image c < 2 ^ 64) ∧
      ∀ size, size < 2 ^ 64 → Near g a.image size →
        ∃ ret s, qcow2AllocClusters g tryNew0 depth turns a.image size = some (ret, s) ∧
          ∀ offset, ret = .ok offset → ∀ c, Touched g offset size c → base c = 0 ∧
              a.held c = 0 ∧ structures g s c = 0 := by
  have start : Accounted g base ⟨image, fun _ => 0⟩ :=
    ⟨sound, owners, fun c held => absurd rfl held⟩
  obtain ⟨a, ran, accounted⟩ := Transition.run_total_along
    (fun _ call accounted meets => perform_ends tryNew0 deep long call accounted meets) start along
  refine ⟨a, ran, fun c => ?_, fun size width near => ?_⟩
  · rw [accounted.sound.toReadable.qcow2GetRefcount, accounted.owners]
    refine ⟨rfl, accounted.owners c ▸ ?_⟩
    exact lt_of_le_of_lt (refcount_le g a.image c) g.refcountMax.isLt
  · obtain ⟨ret, s, result, allocated⟩ := qcow2AllocClusters_ends tryNew0 deep
      (lt_of_lt_of_le (growthLeft_lt accounted.sound.toLaid) long) accounted near width
    refine ⟨ret, s, result, ?_⟩
    rintro offset rfl
    exact allocated.1

theorem owners_sampleImage (c) :
    refcount sampleGeometry sampleImage c = (if c = 0 then 1 else 0) +
        structures sampleGeometry sampleImage c := by
  rw [structures_sampleImage]
  by_cases desc : c < 64
  · have all : ∀ c < 64, refcount sampleGeometry sampleImage c =
        (if c = 0 then 1 else 0) + if c = 1 ∨ c = 2 then 1 else 0 := by decide +kernel
    exact all c desc
  have size : sampleGeometry.refcountBlockSize = 64 := rfl
  rw [refcount_of_none, if_neg (by omega), if_neg (by omega)]
  rw [lookup_sampleImage, if_neg]
  rw [size]
  omega

/-- Two clusters are allocated, and the first of them is freed. -/
theorem alloc_free_accounts_sample :
    ∃ a, Transition.run
    (perform sampleGeometry (fun _ => true) 4
      ((qcowMaxReftableSize + 1) * (qcowMaxReftableSize + 1)))
        ⟨sampleImage, fun _ => 0⟩ [.alloc 1024, .free 1536 512] = some a ∧
      qcow2GetRefcount sampleGeometry a.image 4 =
        .ok (BitVec.ofNat 64 (0 + a.held 4 + structures sampleGeometry a.image 4)) := by
  have first : ∀ a ∈ perform sampleGeometry (fun _ => true) 4
      ((qcowMaxReftableSize + 1) * (qcowMaxReftableSize + 1))
      ⟨sampleImage, fun _ => 0⟩ (.alloc 1024), a.held 3 = 1 := by decide +kernel
  have along : Transition.Along
      (perform sampleGeometry (fun _ => true) 4
        ((qcowMaxReftableSize + 1) * (qcowMaxReftableSize + 1)))
      (Meets sampleGeometry) ⟨sampleImage, fun _ => 0⟩ [.alloc 1024, .free 1536 512] := by
    refine ⟨⟨by decide, .inl (by decide +kernel)⟩, fun a performed =>
      ⟨⟨by decide, fun c touched => ?_⟩, fun _ _ => trivial⟩⟩
    have touched : c * 512 < 2048 ∧ 1536 < (c + 1) * 512 := touched.2
    obtain rfl : c = 3 := by omega
    rw [first a performed]
    decide
  obtain ⟨a, ran, refcounts, _⟩ :=
    alloc_free_accounts sampleGeometry (fun _ => true) 4 _ (by decide) le_rfl
    (fun c => if c = 0 then 1 else 0) sampleImage sound_sampleImage owners_sampleImage _ along
  exact ⟨a, ran, (refcounts 4).1⟩

/-- An image whose table is full: its blocks count the clusters from 0 to 4095, and only the last is
free. -/
def fullImage : State where
  refcountTable i := if i < 64 then (2 + i) * 512 else 0
  refcountTableSize := 64
  refcountTableOffset := 512
  maxRefcountTableIndex := 63
  freeClusterIndex := 4095
  disk offset i := if i % 8 = 7 ∧ ¬ (offset = 65 * 512 ∧ i = 511) then 1#8 else 0#8
  dirty _ := none

theorem lookup_fullImage (i) : fullImage.lookup i = if i < 64
    then some ((2 + i) * 512) else none := by
  by_cases inside : i < 64
  · have entry : fullImage.refcountTable i = (2 + i) * 512 := if_pos inside
    have aligned : reftOffset ((2 + i) * 512) = (2 + i) * 512 :=
      reftOffset_mul sampleGeometry (2 + i)
    rw [State.lookup, if_pos inside, entry, aligned, if_pos ⟨inside, by omega⟩]
  · rw [State.lookup, if_neg inside, if_neg fun both => inside both.1]

theorem refcount_fullImage (c) : refcount sampleGeometry fullImage c =
    if c < 4095 then 1 else 0 := by
  have size : sampleGeometry.refcountBlockSize = 64 := rfl
  by_cases desc : c < 4096
  · have found : fullImage.lookup (c / sampleGeometry.refcountBlockSize) =
        some ((2 + c / 64) * 512) := by
      rw [lookup_fullImage, size, if_pos (by omega)]
    rw [refcount_of_some found, size]
    by_cases last : c / 64 = 63
    · have counts : ∀ x < 64, (sampleGeometry.getRefcount (fullImage.block (65 * 512)) x).toNat =
          if x < 63 then 1 else 0 := by decide +kernel
      rw [last, counts (c % 64) (by omega)]
      split <;> split <;> omega
    -- All other blocks have the same bytes.
    have same : fullImage.block ((2 + c / 64) * 512) = fullImage.block 0 := by
      funext i
      simp [State.block, fullImage, show (2 + c / 64) * 512 ≠ 65 * 512 by omega]
    have counts : ∀ x < 64, (sampleGeometry.getRefcount (fullImage.block 0) x).toNat =
      1 := by decide +kernel
    rw [same, counts (c % 64) (by omega), if_pos (by omega)]
  · rw [refcount_of_none, if_neg (by omega)]
    rw [lookup_fullImage, size, if_neg (by omega)]

theorem structures_fullImage (c) : structures sampleGeometry fullImage c = if 1 ≤ c ∧
    c < 66 then 1 else 0 := by
  have size : sampleGeometry.clusterSize = 512 := rfl
  have block : BlockAt sampleGeometry fullImage c ↔ 2 ≤ c ∧ c < 66 := by
    simp only [blockAt_iff, lookup_fullImage, ite_none_right_eq_some, some_inj, size]
    constructor
    · rintro ⟨i, inside, eq⟩
      omega
    · intro inside
      exact ⟨c - 2, by omega, by omega⟩
  have table : TableAt sampleGeometry fullImage c ↔ c = 1 := by
    simp only [TableAt, size, fullImage]
    omega
  simp only [structures, block, table]
  split <;> split <;> split <;> omega

theorem sound_fullImage : Sound sampleGeometry fullImage where
  aligned {i offset} found := by
    rw [lookup_fullImage, ite_none_right_eq_some, some_inj] at found
    exact found.2 ▸ mul_mod_left _ _
  distinct {i j offset} first second := by
    rw [lookup_fullImage, ite_none_right_eq_some, some_inj] at first second
    omega
  tableAligned := rfl
  tableWhole := rfl
  size_le := by decide
  maxIndex_lt := by decide
  le_maxIndex {i offset} found := by
    rw [lookup_fullImage, ite_none_right_eq_some] at found
    exact le_of_lt_succ found.1
  counted c := by
    rw [structures_fullImage, refcount_fullImage]
    split <;> split <;> omega
  apart c := by
    rw [structures_fullImage]
    split <;> omega

/-- A large allocation in the full image fails, but the last cluster stays counted without an owner:
the new refcount block is placed far away, and the index of the block that should count it is cut to
that of the last block. -/
theorem alloc_truncates : (∀ c, refcount sampleGeometry fullImage c =
        (if c = 0 ∨ 66 ≤ c ∧ c < 4095 then 1 else 0) + structures sampleGeometry fullImage c) ∧
      ∃ s, qcow2AllocClusters sampleGeometry (fun _ => true) 4 1 fullImage (2 ^ 47) =
        some (.error .efbig, s) ∧
        refcount sampleGeometry s 4095 = 1 ∧ structures sampleGeometry s 4095 = 0 := by
  constructor
  · intro c
    rw [structures_fullImage, refcount_fullImage]
    split <;> split <;> split <;> omega
  · -- The search goes over clusters that are all free, the rest is computed.
    have clusters : sizeToClusters sampleGeometry (2 ^ 47) = 2 ^ 38 := by decide +kernel
    have search : searchFree sampleGeometry fullImage (2 ^ 38) (64 * 64 - 4095 + 2 ^ 38) 0 4095 =
        some (.ok (), 4095 + 2 ^ 38) :=
      searchFree_free sound_fullImage.toReadable
        (fun c above => by rw [refcount_fullImage, if_neg (by omega)])
        (zero_le _) (by omega)
    have found : allocClustersNoref sampleGeometry fullImage (2 ^ 47) qcowMaxClusterOffset =
        some (.ok (4095 * 512), { fullImage with freeClusterIndex := 4095 + 2 ^ 38 }) := by
      rw [allocClustersNoref]
      simp only [clusters]
      rw [show searchFree sampleGeometry fullImage (2 ^ 38)
        (fullImage.refcountTableSize * sampleGeometry.refcountBlockSize
          - fullImage.freeClusterIndex + 2 ^ 38) 0 fullImage.freeClusterIndex = _ from search]
      rfl
    have updated : (updateRefcount sampleGeometry (fun _ => true) 4
      { fullImage with freeClusterIndex := 4095 + 2 ^ 38 }
        (4095 * 512) (toInt64 (2 ^ 47)) 1#64 false).map
          (fun outcome => (outcome.1, refcount sampleGeometry outcome.2 4095,
          structures sampleGeometry outcome.2 4095)) =
            some (.error .efbig, 1, 0) := by decide +kernel
    obtain ⟨⟨ret, s⟩, result, values⟩ := map_eq_some_iff.mp updated
    obtain ⟨rfl, counted, unowned⟩ : ret = .error .efbig ∧ refcount sampleGeometry s 4095 = 1 ∧
      structures sampleGeometry s 4095 = 0 := by simpa using values
    refine ⟨s, ?_, counted, unowned⟩
    rw [qcow2AllocClusters, found]
    simp only [Outcome.andThen, result, reduceCtorEq, if_false]

end Qemu.Qcow2
