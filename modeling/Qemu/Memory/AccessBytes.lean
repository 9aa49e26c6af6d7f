import Qemu.Memory.Access
import Mathlib.Tactic.IntervalCases

/-! A device that shows bytes keeps showing them through split accesses. -/

namespace Qemu.Memory

open ByteOrder BitVec

variable {σ α : Type} {orders : ByteOrders} {size i : Nat}

/-- The sizes an access can have. -/
def IsSize (n : Nat) : Prop := n = 1 ∨ n = 2 ∨ n = 4 ∨ n = 8

instance (n : Nat) : Decidable (IsSize n) := inferInstanceAs (Decidable (_ ∨ _))

/-- The sizes between the limits of a device. -/
def Implemented (ops : MemoryRegionOps σ α) (n : Nat) : Prop :=
  IsSize n ∧ accessSizeMin ops ≤ n ∧ n ≤ accessSizeMax ops

/-- The bytes at an address in the region's order; addresses wrap. -/
def valueAt (big : Bool) (contents : BitVec 64 → BitVec 8)
    (addr : BitVec 64) (n : Nat) : BitVec 64 :=
  spell 64 big (fun k => contents (addr + BitVec.ofNat 64 k)) n

/-- The contents with some bytes from an address on replaced. -/
def overwrite (contents : BitVec 64 → BitVec 8) (addr : BitVec 64) (count : Nat)
    (bytes : Nat → BitVec 8) : BitVec 64 → BitVec 8 :=
  fun x => if (x - addr).toNat < count then bytes (x - addr).toNat else contents x

/-- The contents after a write in the region's order. -/
def written (big : Bool) (contents : BitVec 64 → BitVec 8) (addr : BitVec 64)
    (n : Nat) (value : BitVec 64) : BitVec 64 → BitVec 8 :=
  overwrite contents addr n fun k => byteAt value (place big n k)

/-- Callbacks that show bytes in the declared order at every size. -/
structure ByteRegion (orders : ByteOrders) (σ α : Type) where
  ops : MemoryRegionOps σ α
  contents : σ → BitVec 64 → BitVec 8
  min_size : IsSize (accessSizeMin ops)
  max_size : IsSize (accessSizeMax ops)
  min_le_max : accessSizeMin ops ≤ accessSizeMax ops
  /-- Bits above the size of a read may have any value. -/
  read_bytes : ∀ read, ops.read = some read → ∀ device addr n, Implemented ops n →
    low (read device addr n).1 n =
      valueAt (memoryRegionBigEndian orders ops.endianness) (contents device) addr n ∧
    contents (read device addr n).2 = contents device
  readWithAttrs_bytes : ops.read = none → ∀ device addr n attrs, Implemented ops n →
    low (ops.readWithAttrs device addr n attrs).2.1 n =
      valueAt (memoryRegionBigEndian orders ops.endianness) (contents device) addr n ∧
    contents (ops.readWithAttrs device addr n attrs).2.2 = contents device
  write_bytes : ∀ write, ops.write = some write → ∀ device addr data n, Implemented ops n →
    contents (write device addr data n) =
      written (memoryRegionBigEndian orders ops.endianness) (contents device) addr n data
  writeWithAttrs_bytes : ops.write = none → ∀ device addr data n attrs, Implemented ops n →
    contents (ops.writeWithAttrs device addr data n attrs).2 =
      written (memoryRegionBigEndian orders ops.endianness) (contents device) addr n data

/-- The byte order of a region. -/
def ByteRegion.big (region : ByteRegion orders σ α) : Bool :=
  memoryRegionBigEndian orders region.ops.endianness

/-! ## Sizes, masks and shifts -/

theorem IsSize.bounds {n} (size : IsSize n) : 1 ≤ n ∧ n ≤ 8 := by
  unfold IsSize at size
  omega

theorem IsSize.dvd {n m} (small : IsSize n) (large : IsSize m) (le : n ≤ m) : n ∣ m := by
  unfold IsSize at small large
  rcases small with rfl | rfl | rfl | rfl <;> rcases large with rfl | rfl | rfl | rfl <;> omega

/-- The low two bits of a `MemOp` are the logarithm of its size. -/
theorem memopSize_cases (op) : (op &&& moSize = 0#32 ∧ memopSize op = 1) ∨
    (op &&& moSize = 1#32 ∧ memopSize op = 2) ∨
      (op &&& moSize = 2#32 ∧ memopSize op = 4) ∨ (op &&& moSize = 3#32 ∧ memopSize op = 8) := by
  have small : (op &&& moSize).toNat ≤ 3 := by
    rw [toNat_and]
    exact Nat.and_le_right
  unfold memopSize
  obtain ⟨k, bound, bits⟩ : ∃ k, k ≤ 3 ∧ op &&& moSize = BitVec.ofNat 32 k :=
    ⟨_, small, by rw [ofNat_toNat, setWidth_eq]⟩
  rw [bits]
  interval_cases k <;> simp

theorem isSize_memopSize (op) : IsSize (memopSize op) := by
  unfold IsSize
  rcases memopSize_cases op with ⟨-, size⟩ | ⟨-, size⟩ | ⟨-, size⟩ | ⟨-, size⟩ <;> simp [size]

theorem and_make64BitMask {n} (size : n ≤ 8) (word) :
    word &&& make64BitMask (n * 8) = low word n := by
  apply eq_of_getLsbD_eq
  intro i within
  rw [getLsbD_and, getLsbD_low, make64BitMask, getLsbD_ushiftRight, getLsbD_allOnes, Bool.and_comm]
  congr 1
  simp only [decide_eq_decide]
  omega

theorem bmod_small {z} (above : -1000 ≤ z) (below : z ≤ 1000) : Int.bmod z (2 ^ 32) = z :=
  Int.bmod_eq_of_le (by omega) (by omega)

theorem bigShift_eq {accessSize} (sizeSmall : size ≤ 8)
    (accessSmall : accessSize ≤ 8) (small : i ≤ 8) :
    bigShift size accessSize i = 8 * ((size : Int) - accessSize - i) := by
  rw [bigShift, toInt_mul, toInt_sub, toInt_sub]
  simp only [toInt_ofNat']
  simp (disch := omega) only [bmod_small]
  omega

theorem littleShift_eq (small : i ≤ 8) : littleShift i = 8 * (i : Int) := by
  rw [littleShift, toInt_mul]
  simp only [toInt_ofNat']
  simp (disch := omega) only [bmod_small]
  omega

def shiftOf (big : Bool) (size accessSize i : Nat) : Int :=
  if big then bigShift size accessSize i else littleShift i

variable {big : Bool} {piece : Nat} {contents : BitVec 64 → BitVec 8}
    {addr : BitVec 64} {value : BitVec 64}

/-- The loop's shift is where the piece sits in the word. -/
theorem shiftOf_eq_seat {accessSize} (inside : i + accessSize ≤ size) (small : size ≤ 8) :
    shiftOf big size accessSize i = (8 * seat big size accessSize i : Nat) := by
  cases big with
  | false =>
    simp only [shiftOf, seat, Bool.false_eq_true, if_false, littleShift_eq (show i ≤ 8 by omega)]
    omega
  | true =>
    simp only [shiftOf, seat, if_true,
      bigShift_eq small (show accessSize ≤ 8 by omega) (show i ≤ 8 by omega)]
    omega

theorem accessWithAdjustedSize_eq (ops : MemoryRegionOps σ α) (accessFn : AccessFn σ)
    (addr value size) (device : σ) :
    accessWithAdjustedSize orders ops accessFn addr value size device =
      accessLoop accessFn addr size (accessSize ops size)
        (shiftOf (memoryRegionBigEndian orders ops.endianness) size (accessSize ops size))
        (make64BitMask (accessSize ops size * 8)) size 0
        { result := memtxOk, value := value, device := device } := by
  unfold accessWithAdjustedSize
  cases memoryRegionBigEndian orders ops.endianness <;> rfl

theorem implemented_accessSize (region : ByteRegion orders σ α) (valid : IsSize size) :
    Implemented region.ops (accessSize region.ops size) := by
  have smallest := region.min_size
  have largest := region.max_size
  have ordered := region.min_le_max
  unfold Implemented accessSize
  unfold IsSize at *
  omega

theorem accessSize_dvd (region : ByteRegion orders σ α) (valid : IsSize size)
    (narrow : accessSizeMin region.ops ≤ size) : accessSize region.ops size ∣ size := by
  apply (implemented_accessSize region valid).1.dvd valid
  unfold accessSize
  omega

theorem next_piece_fits (tiles : piece ∣ size) (whole : piece ∣ i)
    (more : i < size) : i + piece ≤ size := by
  obtain ⟨total, rfl⟩ := tiles
  obtain ⟨done, rfl⟩ := whole
  have fewer : done < total := Nat.lt_of_mul_lt_mul_left more
  calc piece * done + piece = piece * (done + 1) := by rw [Nat.mul_succ]
    _ ≤ piece * total := Nat.mul_le_mul_left piece fewer

/-! ## Reading -/

/-- What one accessor reads: bits that the mask leaves, and nothing changes. -/
def ReadsBytes (region : ByteRegion orders σ α) (accessFn : AccessFn σ) : Prop :=
  ∀ device addr value n shift mask, Implemented region.ops n →
    ∃ tmp, low tmp n = valueAt region.big (region.contents device) addr n ∧
      (accessFn device addr value n shift mask).value =
        memoryRegionShiftReadAccess value shift mask tmp ∧
      region.contents (accessFn device addr value n shift mask).device = region.contents device

/-- A region of bytes is read byte for byte in its own order. -/
theorem readsBytes_readAccessor (region : ByteRegion orders σ α) (attrs : α) :
    ReadsBytes region (readAccessor region.ops attrs) := by
  intro device addr value n shift mask size
  rw [readAccessor]
  cases chosen : region.ops.read with
  | some read =>
    obtain ⟨bytes, same⟩ := region.read_bytes read chosen device addr n size
    exact ⟨_, bytes, rfl, same⟩
  | none =>
    obtain ⟨bytes, same⟩ := region.readWithAttrs_bytes chosen device addr n attrs size
    exact ⟨_, bytes, rfl, same⟩

variable {region : ByteRegion orders σ α} {accessFn : AccessFn σ} {access : Access σ}

/-- The read loop collects the bytes of the pieces, whole pieces at a time. -/
theorem accessLoop_read (reads : ReadsBytes region accessFn) {fuel}
    (implemented : Implemented region.ops piece) (small : size ≤ 8)
    (tiles : piece ∣ size) (whole : piece ∣ i)
    (enough : size ≤ i + fuel) (bound : i ≤ size) (collected : access.value =
      spell 64 region.big (front (fun k => contents (addr + BitVec.ofNat 64 k)) i) size)
    (unchanged : region.contents access.device = contents) :
    let final := accessLoop accessFn addr size piece (shiftOf region.big size piece)
      (make64BitMask (piece * 8)) fuel i access
    final.value = valueAt region.big contents addr size ∧
        region.contents final.device = contents := by
  -- Induction on the fuel; the invariant says which bytes are in the value so far.
  induction fuel generalizing i access with
  | zero =>
    have done : i = size := by omega
    subst done
    exact ⟨collected.trans spell_front, unchanged⟩
  | succ fuel ih =>
    by_cases more : i < size
    · have inside := next_piece_fits tiles whole more
      obtain ⟨tmp, piece_value, value, same⟩ :=
        reads access.device (addr + BitVec.ofNat 64 i) access.value piece
        (shiftOf region.big size piece i) (make64BitMask (piece * 8)) implemented
      rw [unchanged] at piece_value same
      have pos := implemented.1.bounds.1
      simp only [accessLoop, if_pos more]
      apply ih (Nat.dvd_add whole (Nat.dvd_refl piece)) (by omega) inside
      · rw [value, collected]
        -- One step of the read loop adds the next piece to the value.
        have shiftRead_piece : memoryRegionShiftReadAccess
          (spell 64 region.big (front (fun k => contents (addr +
            BitVec.ofNat 64 k)) i) size) (shiftOf region.big size piece i)
              (make64BitMask (piece * 8)) tmp = spell
            64 region.big (front (fun k => contents (addr + BitVec.ofNat 64 k)) (i + piece))
                size := by
          have bytes : valueAt region.big contents (addr + BitVec.ofNat 64 i) piece =
              spell 64 region.big (fun k => contents (addr + BitVec.ofNat 64 (i + k))) piece := by
            apply spell_congr
            intro k _
            rw [ofNat_add, ← BitVec.add_assoc]
          rw [memoryRegionShiftReadAccess, shiftOf_eq_seat inside small,
            if_pos (Int.natCast_nonneg _), Int.toNat_natCast,
            and_make64BitMask (by omega), piece_value, bytes]
          exact spell_front_or (by omega) inside
        exact shiftRead_piece
      · exact same
    · have done : i = size := by omega
      subst done
      simp only [accessLoop, if_neg more]
      exact ⟨collected.trans spell_front, unchanged⟩

theorem accessWithAdjustedSize_read (reads : ReadsBytes region accessFn) (valid : IsSize size)
    (narrow : accessSizeMin region.ops ≤ size) (addr) (device : σ) :
    let final := accessWithAdjustedSize orders region.ops accessFn addr 0#64 size device
    final.value = valueAt region.big (region.contents device) addr size ∧
      region.contents final.device = region.contents device := by
  rw [accessWithAdjustedSize_eq]
  apply accessLoop_read reads (implemented_accessSize region valid) valid.bounds.2
    (accessSize_dvd region valid narrow) (Nat.dvd_zero _) (by omega) (by omega)
  · -- Nothing is collected yet.
    have empty : front (fun k => region.contents device (addr + BitVec.ofNat 64 k)) 0 =
        fun _ => 0#8 := by
      funext k
      simp [front]
    rw [empty, spell_zeros]
  · rfl

/-- An access below the minimum size is one access of that size. -/
theorem accessWithAdjustedSize_wide (valid : IsSize size) (wide : size < accessSizeMin region.ops)
    (addr value) (device : σ) :
    accessWithAdjustedSize orders region.ops accessFn addr value size device =
      { accessFn device addr value (accessSizeMin region.ops)
        (shiftOf region.big size (accessSizeMin region.ops) 0)
          (make64BitMask (accessSizeMin region.ops * 8)) with
        result := memtxOk ||| (accessFn device addr value (accessSizeMin region.ops)
          (shiftOf region.big size (accessSizeMin region.ops) 0)
          (make64BitMask (accessSizeMin region.ops * 8))).result } := by
  have piece : accessSize region.ops size = accessSizeMin region.ops := by
    unfold accessSize
    omega
  have pos := valid.bounds.1
  obtain ⟨fuel, rfl⟩ : ∃ fuel, size = fuel + 1 := ⟨size - 1, by omega⟩
  rw [accessWithAdjustedSize_eq, piece, accessLoop, if_pos (Nat.succ_pos fuel)]
  simp only [Nat.zero_add, BitVec.add_zero]
  -- The second round of the loop, if any, finds nothing left.
  cases fuel with
  | zero => rfl
  | succ fuel =>
    rw [accessLoop, if_neg (by omega)]
    rfl

/-- A too wide read keeps the wanted bytes in a big-endian region only. -/
theorem shiftRead_wide {tmp}
    (wide : size < piece) (small : piece ≤ 8)
    (piece_value : low tmp piece = valueAt big contents addr piece) :
    memoryRegionShiftReadAccess 0#64 (shiftOf big size piece 0) (make64BitMask (piece * 8)) tmp =
      if big then valueAt big contents addr size else valueAt big contents addr piece := by
  cases big with
  | false =>
    simp only [shiftOf, Bool.false_eq_true, if_false, littleShift_eq (Nat.zero_le 8),
      memoryRegionShiftReadAccess, and_make64BitMask small, piece_value]
    simp
  | true =>
    have shift : shiftOf true size piece 0 = -((8 * (piece - size) : Nat) : Int) := by
      simp only [shiftOf, if_true, bigShift_eq (show size ≤ 8 by omega) small (Nat.zero_le 8)]
      omega
    rw [memoryRegionShiftReadAccess, shift, if_neg (by omega), Int.neg_neg,
      Int.toNat_natCast, and_make64BitMask small,
      piece_value, valueAt, spell_big_ushiftRight (by omega) (by omega)]
    simp [valueAt]

/-- When a read is exact: a widened little-endian one must have read zeros above. -/
def ReadsExactly (region : ByteRegion orders σ α) (device : σ)
    (addr : BitVec 64) (size : Nat) : Prop :=
  region.big = true ∨ accessSizeMin region.ops ≤ size ∨
    ∀ k, size ≤ k → k < accessSizeMin region.ops →
      region.contents device (addr + BitVec.ofNat 64 k) = 0#8

/-- When a split read answers the bytes of the region. -/
theorem accessWithAdjustedSize_read_iff (reads : ReadsBytes region accessFn)
    (valid : IsSize size) (addr) (device : σ) :
    (accessWithAdjustedSize orders region.ops accessFn addr 0#64 size device).value =
        valueAt region.big (region.contents device) addr size ↔
      ReadsExactly region device addr size := by
  unfold ReadsExactly
  by_cases narrow : accessSizeMin region.ops ≤ size
  · have exact_value := (accessWithAdjustedSize_read reads valid narrow addr device).1
    exact ⟨fun _ => .inr (.inl narrow), fun _ => exact_value⟩
  have wide : size < accessSizeMin region.ops := by omega
  have bounds := region.min_size.bounds
  obtain ⟨tmp, piece_value, value, -⟩ := reads device addr 0#64 (accessSizeMin region.ops)
    (shiftOf region.big size (accessSizeMin region.ops) 0)
    (make64BitMask (accessSizeMin region.ops * 8)) ⟨region.min_size, le_rfl, region.min_le_max⟩
  rw [accessWithAdjustedSize_wide valid wide]
  rw [value, shiftRead_wide wide bounds.2 piece_value]
  -- Only the little-endian value has the other bytes in it.
  cases order : region.big with
  | true => simp
  | false =>
    simp only [Bool.false_eq_true, if_false, valueAt, narrow, false_or]
    exact spell_little_eq_iff (by omega) (by omega)

/-! ## Writing -/

/-- Writing two neighbouring runs is writing one. -/
theorem overwrite_overwrite {count bytes} (small : i + count ≤ 8) :
    overwrite (overwrite contents addr i bytes) (addr + BitVec.ofNat 64 i) count
      (fun k => bytes (i + k)) = overwrite contents addr (i + count) bytes := by
  funext x
  have distance : (x - (addr + BitVec.ofNat 64 i)).toNat =
      (2 ^ 64 - i + (x - addr).toNat) % 2 ^ 64 := by
    rw [← BitVec.sub_sub, toNat_sub, toNat_ofNat, Nat.mod_eq_of_lt (show i < 2 ^ 64 by omega)]
  have bound := (x - addr).isLt
  simp only [overwrite, distance]
  generalize (x - addr).toNat = d at *
  rcases lt_or_ge d i with before | after
  · -- The later piece does not reach back.
    have far : (2 ^ 64 - i + d) % 2 ^ 64 = 2 ^ 64 - i + d := Nat.mod_eq_of_lt (by omega)
    rw [far, if_neg (by omega), if_pos before, if_pos (by omega)]
  have near : (2 ^ 64 - i + d) % 2 ^ 64 = d - i := by omega
  rw [near, if_neg (show ¬ d < i by omega), show i + (d - i) = d by omega]
  by_cases inside : d < i + count
  · rw [if_pos (by omega), if_pos inside]
  · rw [if_neg (by omega), if_neg inside]

theorem overwrite_at {count k bytes} (small : count ≤ 8) (within : k < count) :
    overwrite contents addr count bytes (addr + BitVec.ofNat 64 k) = bytes k := by
  have distance : (addr + BitVec.ofNat 64 k - addr).toNat = k := by
    rw [BitVec.add_comm, BitVec.add_sub_cancel, toNat_ofNat, Nat.mod_eq_of_lt (by omega)]
  simp only [overwrite, distance, if_pos within]

/-- What an accessor writes: the bytes that shift and mask select. -/
def WritesBytes (region : ByteRegion orders σ α) (accessFn : AccessFn σ) : Prop :=
  ∀ device addr value n shift mask, Implemented region.ops n →
    (accessFn device addr value n shift mask).value = value ∧
      region.contents (accessFn device addr value n shift mask).device =
        written region.big (region.contents device) addr n
          (memoryRegionShiftWriteAccess value shift mask)

theorem writesBytes_writeAccessor (region : ByteRegion orders σ α) (attrs : α) :
    WritesBytes region (writeAccessor region.ops attrs) := by
  intro device addr value n shift mask size
  rw [writeAccessor]
  cases chosen : region.ops.write with
  | some write => exact ⟨rfl, region.write_bytes write chosen device addr _ n size⟩
  | none => exact ⟨rfl, region.writeWithAttrs_bytes chosen device addr _ n attrs size⟩

/-- A piece of the loop writes its own share of the value's bytes. -/
theorem written_piece (inside : i + piece ≤ size) (small : size ≤ 8) :
    written big (overwrite contents addr i fun k => byteAt value (place big size k))
      (addr + BitVec.ofNat 64 i) piece
        (memoryRegionShiftWriteAccess value (shiftOf big size piece i)
          (make64BitMask (piece * 8))) =
      overwrite contents addr (i + piece) fun k => byteAt value (place big size k) := by
  rw [memoryRegionShiftWriteAccess, shiftOf_eq_seat inside small,
    if_pos (Int.natCast_nonneg _), Int.toNat_natCast,
    and_make64BitMask (by omega), ← overwrite_overwrite (by omega)]
  -- The bytes of the piece are those of the value further on.
  funext x
  simp only [written, overwrite]
  split
  · next within => exact byteAt_piece inside within
  · rfl

/-- The write loop writes the bytes of the value, whole pieces at a time. -/
theorem accessLoop_write (writes : WritesBytes region accessFn)
    {fuel} (implemented : Implemented region.ops piece) (small : size ≤ 8)
    (tiles : piece ∣ size) (whole : piece ∣ i) (enough : size ≤ i + fuel) (bound : i ≤ size)
    (kept : access.value = value) (done : region.contents access.device =
      overwrite contents addr i fun k => byteAt value (place region.big size k)) :
    region.contents (accessLoop accessFn addr size piece (shiftOf region.big size piece)
      (make64BitMask (piece * 8)) fuel i access).device =
          written region.big contents addr size value := by
  -- Induction on the fuel; the invariant says which bytes are written so far.
  induction fuel generalizing i access with
  | zero =>
    have complete : i = size := by omega
    subst complete
    exact done
  | succ fuel ih =>
    by_cases more : i < size
    · have inside := next_piece_fits tiles whole more
      obtain ⟨same, bytes⟩ := writes access.device (addr + BitVec.ofNat 64 i) access.value piece
        (shiftOf region.big size piece i) (make64BitMask (piece * 8)) implemented
      have pos := implemented.1.bounds.1
      simp only [accessLoop, if_pos more]
      apply ih (Nat.dvd_add whole (Nat.dvd_refl piece)) (by omega) inside
      · exact same.trans kept
      · rw [bytes, done, kept]
        exact written_piece inside small
    · have complete : i = size := by omega
      subst complete
      simp only [accessLoop, if_neg more]
      exact done

theorem accessWithAdjustedSize_write (writes : WritesBytes region accessFn) (valid : IsSize size)
    (narrow : accessSizeMin region.ops ≤ size) (addr value) (device : σ) :
    region.contents (accessWithAdjustedSize orders region.ops accessFn addr
      value size device).device = written region.big (region.contents device) addr size value := by
  rw [accessWithAdjustedSize_eq]
  apply accessLoop_write writes (implemented_accessSize region valid) valid.bounds.2
    (accessSize_dvd region valid narrow) (Nat.dvd_zero _) (by omega) (by omega) rfl
  funext x
  simp [overwrite]

theorem valueAt_written
    (small : size ≤ 8) : valueAt big (written big contents addr size value)
    addr size = low value size := by
  rw [← spell_byteAt (by omega)]
  apply spell_congr
  intro k within
  exact overwrite_at small within

/-! ## Dispatch -/

/-- Swapping on the way in undoes swapping on the way out. -/
theorem adjustEndianness_low_adjustEndianness (endianness data op) :
    adjustEndianness orders endianness
        (low (adjustEndianness orders endianness data op) (memopSize op))
            op = low data (memopSize op) := by
  unfold adjustEndianness
  split
  · -- The size of the byte swap is the size of the access.
    rcases memopSize_cases op with ⟨bits, size⟩ | ⟨bits, size⟩ | ⟨bits, size⟩ | ⟨bits, size⟩
    · simp [bits]
    · simpa [bits, size] using reverse_low_reverse (by omega)
    · simpa [bits, size] using reverse_low_reverse (by omega)
    · simpa [bits, size] using reverse_low_reverse (by omega)
  · rfl

/-- A write to the callbacks, then a read, returns the low bytes. -/
theorem dispatchRead_dispatchWrite (region : ByteRegion orders σ α) {kvmEventfdsEnabled : Bool}
    {ioeventfds : List MemoryRegionIoeventfd} {device : σ}
    {data : BitVec 64} {op : MemOp} {attrs : α} (narrow : accessSizeMin region.ops ≤ memopSize op)
    (writeValid : memoryRegionAccessValid region.ops device addr (memopSize op) true attrs)
    (quiet : kvmEventfdsEnabled ∨ memoryRegionDispatchWriteEventfds ioeventfds addr
      (adjustEndianness orders region.ops.endianness data op) (memopSize op) = none)
    (readValid : memoryRegionAccessValid region.ops
      (memoryRegionDispatchWrite orders kvmEventfdsEnabled region.ops
      ioeventfds device addr data op attrs).device addr (memopSize op) false attrs) :
    (memoryRegionDispatchRead orders region.ops
      (memoryRegionDispatchWrite orders kvmEventfdsEnabled region.ops
      ioeventfds device addr data op attrs).device addr op attrs).value =
          low data (memopSize op) := by
  have size := isSize_memopSize op
  -- The write reaches the callbacks.
  have bytes : region.contents (memoryRegionDispatchWrite orders kvmEventfdsEnabled region.ops
      ioeventfds device addr data op attrs).device =
      written region.big (region.contents device) addr (memopSize op)
        (adjustEndianness orders region.ops.endianness data op) := by
    have silent : (if kvmEventfdsEnabled then none
      else memoryRegionDispatchWriteEventfds ioeventfds addr
        (adjustEndianness orders region.ops.endianness data op) (memopSize op)) = none := by
      rcases quiet with enabled | unmatched
      · rw [if_pos enabled]
      · rw [unmatched, ite_self]
    simp only [memoryRegionDispatchWrite, writeValid, silent, Bool.not_true,
      Bool.false_eq_true, if_false, Option.isSome_none]
    exact accessWithAdjustedSize_write (writesBytes_writeAccessor region attrs) size narrow _ _ _
  -- The read collects what was written.
  generalize (memoryRegionDispatchWrite orders kvmEventfdsEnabled region.ops
    ioeventfds device addr data op attrs).device = later at *
  have value :=
    (accessWithAdjustedSize_read (readsBytes_readAccessor region attrs) size narrow addr later).1
  rw [bytes, valueAt_written size.bounds.2] at value
  simp only [memoryRegionDispatchRead, readValid, Bool.not_true, Bool.false_eq_true, if_false]
  rw [value]
  exact adjustEndianness_low_adjustEndianness _ _ _

/-- A device of nothing but bytes, with limits and byte order. -/
def byteArrayOps (orders : ByteOrders) (endianness : DeviceEndian) (least most : Nat) :
    MemoryRegionOps (BitVec 64 → BitVec 8) Unit where
  read := some fun contents addr n =>
    (valueAt (memoryRegionBigEndian orders endianness) contents addr n, contents)
  write := some fun contents addr data n =>
    written (memoryRegionBigEndian orders endianness) contents addr n data
  readWithAttrs := fun contents _ _ _ => (memtxOk, 0#64, contents)
  writeWithAttrs := fun contents _ _ _ _ => (memtxOk, contents)
  endianness := endianness
  validMinAccessSize := 0
  validMaxAccessSize := 0
  validUnaligned := true
  validAccepts := none
  implMinAccessSize := least
  implMaxAccessSize := most

variable {endianness : DeviceEndian}

theorem accessSizeMin_byteArrayOps {least most} (size : IsSize least) :
    accessSizeMin (byteArrayOps orders endianness least most) = least := by
  have pos := size.bounds.1
  exact if_neg (show least ≠ 0 by omega)

theorem accessSizeMax_byteArrayOps {least most} (size : IsSize most) :
    accessSizeMax (byteArrayOps orders endianness least most) = most := by
  have pos := size.bounds.1
  exact if_neg (show most ≠ 0 by omega)

/-- Such a device shows its bytes whatever the limits. -/
def byteArrayRegion (orders : ByteOrders) (endianness : DeviceEndian) (least most : Nat)
    (least_size : IsSize least) (most_size : IsSize most) (ordered : least ≤ most) :
    ByteRegion orders (BitVec 64 → BitVec 8) Unit where
  ops := byteArrayOps orders endianness least most
  contents := id
  min_size := by rwa [accessSizeMin_byteArrayOps least_size]
  max_size := by rwa [accessSizeMax_byteArrayOps most_size]
  min_le_max := by rwa [accessSizeMin_byteArrayOps least_size, accessSizeMax_byteArrayOps most_size]
  read_bytes := by
    rintro read ⟨⟩ device addr n ⟨size, -, -⟩
    have bounds := size.bounds
    exact ⟨low_spell (by omega), rfl⟩
  readWithAttrs_bytes := by
    intro absent
    cases absent
  write_bytes := by
    rintro write ⟨⟩ device addr data n -
    rfl
  writeWithAttrs_bytes := by
    intro absent
    cases absent

/-- Splitting keeps the bytes, but a widened little-endian read also returns what is above. -/
theorem access_splitting_exact_iff (region : ByteRegion orders σ α) (attrs : α)
    (device : σ) (addr : BitVec 64) {size : Nat} (valid : IsSize size) :
    ((accessWithAdjustedSize orders region.ops (readAccessor region.ops attrs) addr
      0#64 size device).value = valueAt region.big (region.contents device) addr size ↔
          ReadsExactly region device addr size) ∧ (accessSizeMin region.ops ≤ size →
      (∀ value, region.contents (accessWithAdjustedSize orders region.ops
        (writeAccessor region.ops attrs) addr value
        size device).device = written region.big (region.contents device) addr size value) ∧
      ∀ kvmEventfdsEnabled ioeventfds data op, memopSize op = size →
        let after := (memoryRegionDispatchWrite orders kvmEventfdsEnabled region.ops
            ioeventfds device addr data op attrs).device
        memoryRegionAccessValid region.ops device addr size true attrs = true →
        memoryRegionAccessValid region.ops after addr size false attrs = true →
        (kvmEventfdsEnabled = true ∨ memoryRegionDispatchWriteEventfds ioeventfds addr
          (adjustEndianness orders region.ops.endianness data op) size = none) →
        (memoryRegionDispatchRead orders region.ops after addr op attrs).value =
            low data size) := by
  constructor
  · exact accessWithAdjustedSize_read_iff (readsBytes_readAccessor region attrs) valid addr device
  · intro narrow
    constructor
    · intro value
      exact accessWithAdjustedSize_write (writesBytes_writeAccessor region attrs)
        valid narrow addr value device
    · intro kvmEventfdsEnabled ioeventfds data op same after writeValid readValid quiet
      subst same
      exact dispatchRead_dispatchWrite region narrow writeValid quiet readValid

/-- An eight-byte access in reverse order, in pieces of four. -/
theorem access_splitting_exact_iff_sample :
    let region := byteArrayRegion ⟨false, false⟩ .little 1 4 (by decide) (by decide) (by decide)
    let contents : BitVec 64 → BitVec 8 := fun addr => addr.setWidth 8
    let after := (memoryRegionDispatchWrite ⟨false, false⟩ true region.ops [] contents
        16#64 0x1122334455667788#64 11#32 ()).device
    (accessWithAdjustedSize ⟨false, false⟩ region.ops (readAccessor region.ops ())
      16#64 0#64 8 contents).value = valueAt false contents 16#64 8 ∧
      (memoryRegionDispatchRead ⟨false, false⟩ region.ops after 16#64 11#32 ()).value =
        low 0x1122334455667788#64 8 := by
  intro region contents after
  have facts := access_splitting_exact_iff region () contents 16#64 (show IsSize 8 by decide)
  exact ⟨facts.1.mpr (.inr (.inl (by decide))),
    (facts.2 (by decide)).2 true [] _ 11#32 (by decide) rfl rfl (.inl rfl)⟩

/-- A one-byte read of a little-endian device of four bytes returns all four. -/
theorem little_endian_wide_read_leaks :
    let region := byteArrayRegion ⟨false, false⟩ .little 4 4 (by decide) (by decide) (by decide)
    let contents : BitVec 64 → BitVec 8 := fun _ => 1#8
    (accessWithAdjustedSize ⟨false, false⟩ region.ops (readAccessor region.ops ())
      0#64 0#64 1 contents).value = 0x01010101#64 ∧
      (memoryRegionDispatchRead ⟨false, false⟩ region.ops contents 0#64 0#32 ()).value =
        0x01010101#64 ∧
      valueAt false contents 0#64 1 = 1#64 := by
  decide

end Qemu.Memory
