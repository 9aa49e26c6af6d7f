import Qemu.Block.SerialisingRuns

/-! The assertions of a marked serialising write about its range. -/

namespace Qemu.Block

open Align BitVec

variable {Req Co : Type} {bits : Nat} {size : BitVec 64}

/-- What `bdrv_co_write_req_prepare` asserts of a serialising request. -/
def writeReqAsserts (req : BdrvTrackedRequest Req Co) (waited : Bool)
    (offset bytes : BitVec 64) : Bool :=
  (!waited || (req.offset == req.overlapOffset && req.bytes == req.overlapBytes)) &&
    -- Offsets are signed, sums with sizes are not.
    (req.overlapOffset.sle offset && offset + bytes ≤ req.overlapOffset + req.overlapBytes)

/-- The overlap range is the own range, rounded to the alignment. The later parts of an unaligned
zero write need not be so: a cluster size that is no power of two has extended their range before.
-/
def Rounded (bits : Nat) (req : BdrvTrackedRequest Req Co) : Prop :=
  req.offset.toNat + req.bytes.toNat < 2 ^ 63 ∧
    req.overlapOffset.toNat = floorTo (2 ^ bits) req.offset.toNat ∧
    req.overlapOffset.toNat + req.overlapBytes.toNat =
      ceilTo (2 ^ bits) (req.offset.toNat + req.bytes.toNat)

/-- Marking with a multiple of the alignment extends both ends. -/
theorem serialisingRange_extends {req : BdrvTrackedRequest Req Co} (rounded : Rounded bits req)
    (pos : 0 < size.toNat) (isInt : size.toNat < 2 ^ 31) (multiple : 2 ^ bits ∣ size.toNat) :
    let range := serialisingRange req size
    range.1.toNat ≤ req.overlapOffset.toNat ∧ range.1.toNat + range.2.toNat < 2 ^ 64 ∧
      req.overlapOffset.toNat + req.overlapBytes.toNat ≤ range.1.toNat + range.2.toNat := by
  obtain ⟨bounded, start, stop⟩ := rounded
  have sum : (req.offset + req.bytes + size - 1#64).toNat = req.offset.toNat +
      req.bytes.toNat + size.toNat - 1 := by
    rw [toNat_sub, toNat_add, toNat_add, toNat_ofNat]
    omega
  -- Rounding to clusters contains rounding to the alignment.
  obtain ⟨units, below, -⟩ := and_not_sub_one_bounds (by decide) pos multiple req.offset
  obtain ⟨units', -, above⟩ := and_not_sub_one_bounds (by decide) pos multiple
    (req.offset + req.bytes + size - 1#64)
  rw [sum] at above
  generalize down : req.offset &&& ~~~(size - 1#64) = lo at *
  generalize up : (req.offset + req.bytes + size - 1#64) &&& ~~~(size - 1#64) = hi at *
  have loLe : lo.toNat ≤ req.overlapOffset.toNat := by
    obtain ⟨count, eq⟩ := units
    rw [start, floorTo, eq, Nat.mul_comm]
    exact Nat.mul_le_mul_right _ ((Nat.le_div_iff_mul_le (Nat.two_pow_pos bits)).mpr
      (by rw [Nat.mul_comm]; omega))
  have hiGe := ceilTo_le (Nat.two_pow_pos bits) units'
      (show req.offset.toNat + req.bytes.toNat ≤ hi.toNat by omega)
  have startLe := floorTo_le (2 ^ bits) req.offset.toNat
  obtain ⟨range, width⟩ := serialisingRange_eq down up (by omega) loLe (by omega)
  simp only [range, width]
  omega

variable [DecidableEq Req] [DecidableEq Co] {bs : BlockDriverState Req Co} {req : Req}
    {offset bytes : BitVec 64}

/-- Whether the assertions of `bdrv_co_write_req_prepare` hold for a serialising request, unless the
wait aborts; the range stays as it was marked meanwhile. -/
def bdrvCoWriteReqAsserts (bs : BlockDriverState Req Co) (req : Req)
    (clusterSize offset bytes : BitVec 64) : Option Bool :=
  (bdrvMarkRequestSerialising bs req clusterSize).map fun (bs, waited) =>
    writeReqAsserts (bs.request req) waited offset bytes

/-- The assertions about the range hold exactly if the write is of whole clusters, or nothing that
does not wait itself is in the way within these clusters. -/
theorem serialising_write_asserts_iff (rounded : Rounded bits (bs.request req))
    (positive : 0 < size.toNat) (isInt : size.toNat < 2 ^ 31) (multiple : 2 ^ bits ∣ size.toNat)
    (inside : (bs.request req).overlapOffset.toNat ≤ offset.toNat ∧ offset.toNat + bytes.toNat ≤
      (bs.request req).overlapOffset.toNat + (bs.request req).overlapBytes.toNat)
    (signed : offset.toNat < 2 ^ 63) {holds : Bool}
    (called : bdrvCoWriteReqAsserts bs req size offset bytes = some holds) : holds = true ↔
      serialisingRange (bs.request req) size = ((bs.request req).offset, (bs.request req).bytes) ∨
      ∀ other ∈ bs.trackedRequests, other ≠ req → Conflict (markSerialising bs req size) other req →
        (bs.request other).waitingFor ≠ none := by
  obtain ⟨startLe, small, stopLe⟩ := serialisingRange_extends rounded positive isInt multiple
  -- The assertions about the ends hold in any case.
  have startsBefore : (serialisingRange (bs.request req) size).1.sle offset = true := by
    rw [sle_eq_decide, decide_eq_true_eq, toInt_eq_toNat_of_lt (by omega),
      toInt_eq_toNat_of_lt (by omega)]
    omega
  have endsBehind : offset + bytes ≤
      (serialisingRange (bs.request req) size).1 + (serialisingRange (bs.request req) size).2 := by
    rw [le_def, toNat_add, toNat_add]
    omega
  rw [bdrvCoWriteReqAsserts, bdrvMarkRequestSerialising,
    bdrvWaitSerialisingRequestsLocked] at called
  cases pass : waitPass (markSerialising bs req size) req
      (markSerialising bs req size).trackedRequests with
  | goesOn =>
    simp only [pass, Option.map_some, writeReqAsserts, request_markSerialising_self,
      startsBefore, endsBehind, Option.some.injEq] at called
    refine iff_of_true called.symm (.inr fun other member ne conflict => ?_)
    rw [← request_markSerialising ne]
    exact waitPass_goesOn pass other member ne conflict
  | waitsFor target =>
    obtain ⟨member, ne, free, conflict⟩ := waitPass_waitsFor pass
    simp only [pass, Option.map_some, writeReqAsserts,
      BlockDriverState.request_modify_of_ne _ _ (Ne.symm ne),
      BlockDriverState.request_modify_self, request_markSerialising_self, startsBefore, endsBehind,
      Option.some.injEq] at called
    rw [← called, Prod.ext_iff]
    simp only [Bool.not_true, Bool.false_or, decide_true, Bool.and_true,
      Bool.and_eq_true, beq_iff_eq]
    refine ⟨fun same => .inl ⟨same.1.symm, same.2.symm⟩, fun whole => ?_⟩
    rcases whole with ⟨first, second⟩ | none
    · exact ⟨first.symm, second.symm⟩
    · exact absurd (request_markSerialising ne ▸ free) (none target member ne conflict)
  | aborts =>
    rw [pass] at called
    contradiction

/-- A write of the second sector, with one of the first in flight. -/
def twoWrites : BlockDriverState Nat Nat where
  trackedRequests := [0, 1]
  serialisingInFlight := 0
  request req := .initial req (BitVec.ofNat 64 (512 - 512 * req)) 512#64

/-- The same with the write of the first sector waiting for the other. -/
def waitingWrites : BlockDriverState Nat Nat :=
  { twoWrites with request := fun req =>
      { twoWrites.request req with waitingFor := if req = 1 then some 0 else none } }

/-- Within a cluster the writes conflict, but what is in the way waits itself. -/
theorem serialising_write_passes_waiting :
    bdrvCoWriteReqAsserts waitingWrites 0 65536#64 512#64 512#64 = some true ∧
      Conflict (markSerialising waitingWrites 0 65536#64) 1 0 ∧
      (serialisingRange (waitingWrites.request 0) 65536#64 = (512#64, 512#64) ∨
        ∀ other ∈ waitingWrites.trackedRequests, other ≠ 0 →
          Conflict (markSerialising waitingWrites 0 65536#64) other 0 →
          (waitingWrites.request other).waitingFor ≠ none) := by
  have rounded : Rounded 9 (waitingWrites.request 0) := ⟨by decide, by decide, by decide⟩
  have called : bdrvCoWriteReqAsserts waitingWrites 0 65536#64 512#64
    512#64 = some true := by decide
  exact ⟨called, ⟨.inr rfl, by decide⟩,
    (serialising_write_asserts_iff rounded (by decide) (by decide)
    (by decide) (by decide) (by decide) called).mp rfl⟩

/-- A conflicting write that does not wait makes the marked write wait, and fail its assertion. -/
theorem serialising_write_aborts :
    bdrvCoWriteReqAsserts twoWrites 0 65536#64 512#64 512#64 = some false := by
  decide

end Qemu.Block
