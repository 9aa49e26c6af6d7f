import Qemu.Exec.MmioTransfer
import Qemu.Lib.LowBit

/-! A transfer ends after its last byte exactly if no access has a length that an `unsigned` cuts to
zero. -/

namespace Qemu.Exec.Mmio

open LowBit Nat

variable {mr : MemoryRegion} {l addr : Hwaddr} {view : View} {isWrite : Bool}

/-- An access that `memory_access_size` can serve: a length not cut to zero, and a size of at most
eight. -/
def AccessFits (mr : MemoryRegion) (l addr : Hwaddr) : Prop :=
  l.toNat % 2 ^ 32 ≠ 0 ∧
    (l.toNat % 2 ^ 32 < 16 ∨ mr.maxAccessSize.toNat < 16 ∨
      mr.unaligned = false ∧ addr.toNat % 16 ≠ 0)

theorem pow2floor_toNat {value} (pos : value.toNat ≠ 0) :
    (pow2floor value).toNat = 2 ^ log2 value.toNat := by
  have below : log2 value.toNat < 64 := (log2_lt pos).mpr value.isLt
  have notZero : value ≠ 0 := fun zero => pos (by rw [zero]; rfl)
  rw [pow2floor, if_neg notZero, BitVec.toNat_ushiftRight, clz64, shiftRight_eq_div_pow]
  show 2 ^ 63 / 2 ^ (63 - log2 value.toNat) = _
  rw [Nat.pow_div (by omega) (by decide)]
  congr 1
  omega

/-- The bound is positive, and below 16 if declared or aligned so. -/
theorem accessSizeMax_spec (mr addr) : (accessSizeMax mr addr).toNat ≠ 0 ∧
    ((accessSizeMax mr addr).toNat < 16 ↔
      mr.maxAccessSize.toNat < 16 ∨ mr.unaligned = false ∧ addr.toNat % 16 ≠ 0) := by
  -- A declaration of zero means four.
  obtain ⟨declared, isDeclared, pos, small⟩ : ∃ declared : BitVec 32,
      (if mr.maxAccessSize = 0 then 4 else mr.maxAccessSize) = declared ∧ declared.toNat ≠ 0 ∧
      (declared.toNat < 16 ↔ mr.maxAccessSize.toNat < 16) := by
    refine ⟨_, rfl, ?_⟩
    split
    · rename_i zero
      rw [zero]
      decide
    · rename_i notZero
      exact ⟨fun zero => notZero (BitVec.eq_of_toNat_eq zero), Iff.rfl⟩
  simp only [accessSizeMax, isDeclared]
  split
  · rename_i unaligned
    exact ⟨pos, by simp [small, unaligned]⟩
  rename_i aligned
  simp only [Bool.not_eq_true] at aligned
  simp only [aligned, true_and, ← small]
  by_cases multiple : addr.toNat % 16 = 0
  · -- The lowest bit does not make the bound smaller than 16.
    have lowest : ((addr &&& -addr).setWidth 32).toNat % 16 = 0 := by
      have whole := and_neg_mod (n := 4) multiple
      rw [BitVec.toNat_setWidth]
      omega
    split
    · rename_i smaller
      obtain ⟨notZero, less⟩ := smaller
      have notZero : ((addr &&& -addr).setWidth 32).toNat ≠ 0 :=
        fun zero => notZero (BitVec.eq_of_toNat_eq zero)
      rw [BitVec.lt_def] at less
      omega
    · omega
  -- The lowest bit is one of the first four.
  obtain ⟨k, below, isSet, before⟩ := exists_lowest (n := 4) multiple
  have lowest : ((addr &&& -addr).setWidth 32).toNat = 2 ^ k := by
    rw [and_neg_eq_twoPow isSet before, BitVec.toNat_setWidth, BitVec.toNat_twoPow,
      mod_eq_of_lt (Nat.pow_lt_pow_right (by decide) (by omega)),
      mod_eq_of_lt (Nat.pow_lt_pow_right (by decide) (by omega))]
  have bound : 2 ^ k < 2 ^ 4 := Nat.pow_lt_pow_right (by decide) below
  have some : 0 < 2 ^ k := Nat.two_pow_pos k
  simp only [BitVec.lt_def, ← BitVec.toNat_inj, ne_eq]
  rw [lowest]
  split
  · omega
  · rename_i notSmaller
    have : ¬ 2 ^ k < declared.toNat := fun less => notSmaller ⟨by simp, less⟩
    omega

/-- The size is the largest power of two in a number, if that fits an `int`. -/
theorem mmioAccessSize_toNat {n}
    (isBound : (if (accessSizeMax mr addr).toNat < l.toNat % 2 ^ 32 then
    (accessSizeMax mr addr).toNat else l.toNat % 2 ^ 32) = n) :
    (mmioAccessSize mr l addr).toNat =
      if n = 0 then 0 else if log2 n < 31 then 2 ^ log2 n else 2 ^ 31 + (2 ^ 64 - 2 ^ 32) := by
  have small : n < 2 ^ 32 := by
    split at isBound <;> omega
  -- The number as a word.
  obtain ⟨bound, is, toNat⟩ : ∃ bound : BitVec 32,
      (if accessSizeMax mr addr < l.setWidth 32 then accessSizeMax mr addr
        else l.setWidth 32) = bound ∧ bound.toNat = n := by
    refine ⟨_, rfl, ?_⟩
    rw [← isBound, apply_ite BitVec.toNat]
    simp only [BitVec.lt_def, BitVec.toNat_setWidth]
  rw [mmioAccessSize, memoryAccessSize]
  simp only [is]
  have wide : (bound.setWidth 64).toNat = n := by
    rw [BitVec.toNat_setWidth, toNat]
    omega
  by_cases zero : n = 0
  · have none : bound = 0 := BitVec.eq_of_toNat_eq (by rw [toNat, zero]; rfl)
    rw [if_pos zero, none]
    rfl
  have floor : (pow2floor (bound.setWidth 64)).toNat = _ :=
    pow2floor_toNat (by rw [wide]; exact zero)
  rw [wide] at floor
  have log : log2 n < 32 := (log2_lt zero).mpr small
  have fits : 2 ^ log2 n < 2 ^ 32 := Nat.pow_lt_pow_right (by decide) log
  have cut : ((pow2floor (bound.setWidth 64)).setWidth 32).toNat = 2 ^ log2 n := by
    rw [BitVec.toNat_setWidth, floor, mod_eq_of_lt fits]
  rw [if_neg zero, BitVec.toNat_signExtend, BitVec.toNat_setWidth, BitVec.msb_eq_decide, cut,
    mod_eq_of_lt (lt_trans fits (by decide))]
  by_cases low : log2 n < 31
  · have : 2 ^ log2 n < 2 ^ 31 := Nat.pow_lt_pow_right (by decide) low
    simpa [low] using this
  · have top : log2 n = 31 := by omega
    rw [top]
    rfl

/-- `memory_access_size` returns 1, 2, 4 or 8 iff it can serve the access. -/
theorem mmioAccessSize_iff (mr l addr) :
    (mmioAccessSize mr l addr = 1 ∨ mmioAccessSize mr l addr = 2 ∨ mmioAccessSize mr l addr = 4 ∨
      mmioAccessSize mr l addr = 8) ↔ AccessFits mr l addr := by
  obtain ⟨pos, bound⟩ := accessSizeMax_spec mr addr
  rw [AccessFits, ← bound]
  simp only [← BitVec.toNat_inj]
  rw [mmioAccessSize_toNat rfl]
  generalize isBound : (if (accessSizeMax mr addr).toNat < l.toNat % 2 ^ 32 then
    (accessSizeMax mr addr).toNat else l.toNat % 2 ^ 32) = n
  have zero : n = 0 ↔ l.toNat % 2 ^ 32 = 0 := by
    split at isBound <;> omega
  have small : n < 16 ↔ l.toNat % 2 ^ 32 < 16 ∨ (accessSizeMax mr addr).toNat < 16 := by
    split at isBound <;> omega
  rw [← small, ne_eq, ← zero]
  show (_ = 1 ∨ _ = 2 ∨ _ = 4 ∨ _ = 8) ↔ _
  -- `pow2floor` of 1 to 15 is one of the four sizes.
  by_cases none : n = 0
  · simp [none]
  rw [if_neg none]
  have log : log2 n < 4 ↔ n < 16 := log2_lt none
  rw [← log]
  split
  · constructor
    · intro sizes
      refine ⟨none, Nat.lt_of_not_le fun large => ?_⟩
      have : 2 ^ 4 ≤ 2 ^ log2 n := Nat.pow_le_pow_right (by decide) large
      omega
    · rintro ⟨_, few⟩
      have cases : log2 n = 0 ∨ log2 n = 1 ∨ log2 n = 2 ∨ log2 n = 3 := by omega
      rcases cases with is | is | is | is <;> simp [is]
  · omega

/-- No access is wider than what is left to transfer. -/
theorem mmioAccessSize_le (fits : AccessFits mr l addr) : mmioAccessSize mr l addr ≤ l := by
  have sizes := (mmioAccessSize_iff mr l addr).mpr fits
  simp only [← BitVec.toNat_inj] at sizes
  rw [BitVec.le_def]
  rw [mmioAccessSize_toNat rfl] at sizes ⊢
  generalize isBound : (if (accessSizeMax mr addr).toNat < l.toNat % 2 ^ 32 then
    (accessSizeMax mr addr).toNat else l.toNat % 2 ^ 32) = n at sizes ⊢
  have le : n ≤ l.toNat := by
    split at isBound <;> omega
  split at sizes
  · exact absurd sizes (by decide)
  rename_i pos
  rw [if_neg pos]
  split at sizes
  · rw [if_pos ‹_›]
    exact le_trans (log2_self_le pos) le
  · exact absurd sizes (by decide)

/-- A transfer in the loop: some length left, some part found. -/
structure Transfer.Valid (t : Transfer) : Prop where
  positive : t.at_.l ≠ 0
  le : t.at_.l ≤ t.len

/-- The next access of a transfer fits, if it is not a direct one. -/
def Transfer.Fits (isWrite : Bool) (t : Transfer) : Prop :=
  memoryAccessIsDirect t.at_.mr isWrite = true ∨ AccessFits t.at_.mr t.at_.l t.at_.addr1

def Transfer.next (view : View) (isWrite : Bool) (t : Transfer) (l : Hwaddr) : Transfer :=
  flatviewTransfer view isWrite (t.addr + l) (t.len - l)

/-- The transfers that the loop reaches. -/
inductive Reaches (view : View) (isWrite : Bool) : Transfer → Transfer → Prop where
  | refl (t : Transfer) : Reaches view isWrite t t
  | step {t final : Transfer} {l : Hwaddr} (accessed : accessLength view isWrite t = some l)
      (more : t.len - l ≠ 0)
      (rest : Reaches view isWrite (t.next view isWrite l) final) : Reaches view isWrite t final

/-- Accesses in a row from an address on, of so many bytes. -/
def Tiles (addr : Hwaddr) (len : Nat) : List Access → Prop
  | [] => len = 0
  | access :: rest =>
    access.addr = addr ∧ 0 < access.size.toNat ∧ access.size.toNat ≤ len ∧
      Tiles (addr + access.size) (len - access.size.toNat) rest

theorem valid_flatviewTransfer (view isWrite addr) {len} (pos : len ≠ 0) :
    (flatviewTransfer view isWrite addr len).Valid :=
  ⟨view.translate_pos isWrite addr len pos, view.translate_le isWrite addr len⟩

/-- A round that fits moves at least one byte, and no more than are left. -/
theorem accessLength_some (view) {t} (valid : t.Valid) (fits : t.Fits isWrite) :
    ∃ l, accessLength view isWrite t = some l ∧ l ≠ 0 ∧ l ≤ t.len := by
  rw [accessLength]
  split
  · exact ⟨_, rfl, view.ram_pos _ _ valid.positive, BitVec.le_trans (view.ram_le _ _) valid.le⟩
  rename_i indirect
  have fits := fits.resolve_left indirect
  have sizes := (mmioAccessSize_iff _ _ _).mpr fits
  refine ⟨_, if_pos sizes, fun zero => ?_, BitVec.le_trans (mmioAccessSize_le fits) valid.le⟩
  rw [zero] at sizes
  exact absurd sizes (by decide)

theorem accessLength_none {t} (fails : ¬ t.Fits isWrite) : accessLength view isWrite t = none := by
  rw [Transfer.Fits, not_or] at fails
  rw [accessLength, if_neg fails.1]
  exact if_neg fun sizes => fails.2 ((mmioAccessSize_iff _ _ _).mp sizes)

/-- A loop whose accesses fit ends within as many rounds as bytes. -/
theorem flatviewContinue_ends (view isWrite) {t} (valid : t.Valid)
    (fits : ∀ reached, Reaches view isWrite t reached → reached.Fits isWrite) :
    ∃ accesses, (∀ fuel, t.len.toNat ≤ fuel →
      flatviewContinue view isWrite fuel t = some accesses) ∧
      Tiles t.addr t.len.toNat accesses := by
  -- The length gets smaller with every access.
  induction size : t.len.toNat using Nat.strong_induction_on generalizing t with
  | _ size ih =>
    subst size
    obtain ⟨l, accessed, pos, le⟩ := accessLength_some view valid (fits t (.refl t))
    have pos : 0 < l.toNat := Nat.pos_of_ne_zero fun zero => pos (BitVec.eq_of_toNat_eq zero)
    rw [BitVec.le_def] at le
    have left : (t.len - l).toNat = t.len.toNat - l.toNat :=
      BitVec.toNat_sub_of_le (BitVec.le_def.mpr le)
    by_cases last : t.len - l = 0
    · refine ⟨[⟨t.addr, l, t.at_.mr, t.at_.addr1⟩], fun fuel enough => ?_, rfl, pos, le, ?_⟩
      · obtain ⟨fuel, rfl⟩ : ∃ rounds, fuel = rounds + 1 := ⟨fuel - 1, by omega⟩
        simp [flatviewContinue, accessed, last]
      · rw [Tiles, ← left, last]
        rfl
    obtain ⟨accesses, runs, tiles⟩ := ih (t.len - l).toNat (by omega)
      (t := t.next view isWrite l) (valid_flatviewTransfer view isWrite _ last)
      (fun reached reaches => fits reached (.step accessed last reaches)) rfl
    refine ⟨⟨t.addr, l, t.at_.mr, t.at_.addr1⟩ :: accesses, fun fuel enough => ?_, rfl, pos, le, ?_⟩
    · obtain ⟨fuel, rfl⟩ : ∃ rounds, fuel = rounds + 1 := ⟨fuel - 1, by omega⟩
      have rest := runs fuel (by omega)
      rw [Transfer.next, flatviewTransfer] at rest
      simp only [flatviewContinue, accessed, if_neg last, rest, Option.map_some]
    · rw [← left]
      exact tiles

/-- A round that does not fit fails whatever the fuel. -/
theorem flatviewContinue_none {t reached} (reaches : Reaches view isWrite t reached)
    (fails : ¬ reached.Fits isWrite) (fuel) : flatviewContinue view isWrite fuel t = none := by
  induction reaches generalizing fuel with
  | refl t =>
    cases fuel with
    | zero => rfl
    | succ fuel => simp only [flatviewContinue, accessLength_none fails]
  | step accessed more rest ih =>
    cases fuel with
    | zero => rfl
    | succ fuel =>
      have none := ih fails fuel
      rw [Transfer.next, flatviewTransfer] at none
      simp only [flatviewContinue, accessed, if_neg more, none, Option.map_none]

/-- A transfer ends exactly if every access that it reaches fits, and then accesses all its bytes in
order. An access fits exactly if `memory_access_size` returns a power of two that can be
transferred. -/
theorem transfer_ends_iff (view : View) (isWrite : Bool) (addr len : Hwaddr) (positive : len ≠ 0) :
    (∀ (mr : MemoryRegion) (l addr1 : Hwaddr), l ≠ 0 →
      ((∃ k < 4, mmioAccessSize mr l addr1 = BitVec.twoPow 64 k ∧ mmioAccessSize mr l addr1 ≤ l) ↔
        AccessFits mr l addr1)) ∧
    ((∃ fuel accesses, flatviewContinue view isWrite fuel (flatviewTransfer view isWrite addr len) =
      some accesses) ↔
      ∀ reached, Reaches view isWrite (flatviewTransfer view isWrite addr len) reached →
        reached.Fits isWrite) ∧
    ((∀ reached, Reaches view isWrite (flatviewTransfer view isWrite addr len) reached →
      reached.Fits isWrite) →
      ∃ accesses, flatviewContinue view isWrite len.toNat (flatviewTransfer view isWrite addr len) =
        some accesses ∧ Tiles addr len.toNat accesses) := by
  have ends :=
    flatviewContinue_ends view isWrite (valid_flatviewTransfer view isWrite addr positive)
  refine ⟨fun mr l addr1 _ => ?_, ⟨?_, ?_⟩, ?_⟩
  · rw [← mmioAccessSize_iff]
    constructor
    · rintro ⟨k, small, is, _⟩
      rw [is]
      have cases : k = 0 ∨ k = 1 ∨ k = 2 ∨ k = 3 := by omega
      rcases cases with rfl | rfl | rfl | rfl <;> decide
    · intro sizes
      have le := mmioAccessSize_le ((mmioAccessSize_iff mr l addr1).mp sizes)
      rcases sizes with is | is | is | is
      · exact ⟨0, by decide, by rw [is]; rfl, le⟩
      · exact ⟨1, by decide, by rw [is]; rfl, le⟩
      · exact ⟨2, by decide, by rw [is]; rfl, le⟩
      · exact ⟨3, by decide, by rw [is]; rfl, le⟩
  · rintro ⟨fuel, accesses, ended⟩ reached reaches
    by_contra fails
    rw [flatviewContinue_none reaches fails fuel] at ended
    cases ended
  · intro fits
    obtain ⟨accesses, runs, _⟩ := ends fits
    exact ⟨len.toNat, accesses, runs len.toNat le_rfl⟩
  · intro fits
    obtain ⟨accesses, runs, tiles⟩ := ends fits
    exact ⟨accesses, runs len.toNat le_rfl, tiles⟩

/-- A device region with the default access sizes. -/
def deviceRegion : MemoryRegion := ⟨false, false, false, false, false, 0, false⟩

/-- An address space of one region that does not shorten transfers. -/
def viewOf (mr : MemoryRegion) : View where
  flatviewTranslate _ addr len := ⟨mr, addr, len⟩
  translate_pos _ _ _ positive := positive
  translate_le _ _ _ := BitVec.le_refl _
  qemuRamPtrLength _ l := l
  ram_pos _ _ positive := positive
  ram_le _ _ := BitVec.le_refl _

/-- Seven bytes from an aligned address go in accesses of four, two and one byte. -/
theorem transfer_ends_iff_seven :
    ∃ accesses, flatviewContinue (viewOf deviceRegion) true 7
      (flatviewTransfer (viewOf deviceRegion) true 0x1000#64 7#64) =
      some accesses ∧ Tiles 0x1000#64 7 accesses ∧
          accesses.map Access.size = [4#64, 2#64, 1#64] := by
  have sizes : (flatviewContinue (viewOf deviceRegion) true 7
      (flatviewTransfer (viewOf deviceRegion) true 0x1000#64 7#64)).map (·.map Access.size) =
          some [4#64, 2#64, 1#64] := by
    decide +kernel
  obtain ⟨accesses, ended, sizes⟩ := Option.map_eq_some_iff.mp sizes
  obtain ⟨_, iff, tiles⟩ := transfer_ends_iff (viewOf deviceRegion) true 0x1000#64 7#64 (by decide)
  obtain ⟨others, again, tiles⟩ := tiles (iff.mp ⟨7, accesses, ended⟩)
  obtain rfl : others = accesses := Option.some.inj (again.symm.trans ended)
  exact ⟨others, ended, tiles, sizes⟩

/-- A 4 GiB transfer to a device does not begin: its length is cut to zero. -/
theorem transfer_of_4GiB_stuck :
    mmioAccessSize deviceRegion 0x100000000#64 0 = 0 ∧
      ∀ isWrite fuel, flatviewContinue (viewOf deviceRegion) isWrite fuel
        (flatviewTransfer (viewOf deviceRegion) isWrite 0 0x100000000#64) = none := by
  refine ⟨by decide +kernel, fun isWrite fuel => flatviewContinue_none (.refl _) ?_ fuel⟩
  rintro (direct | fits)
  · cases isWrite <;> cases direct
  · exact fits.1 (show (0x100000000#64).toNat % 2 ^ 32 = 0 by decide)

end Qemu.Exec.Mmio
