import Qemu.Block.TrackedRequest
import Qemu.Lib.Align
import Qemu.Lib.WaitsFor

/-! The wait for serialising requests: conflicts, and who waits for whom. -/

namespace Qemu.Block

open Align WaitsFor

variable {Req Co : Type}

/-- Two requests not to be served together, as the wait loop tests it. -/
def Conflict (bs : BlockDriverState Req Co) (r s : Req) : Prop :=
  ((bs.request r).serialising = true ∨ (bs.request s).serialising = true) ∧
    trackedRequestOverlaps (bs.request r) (bs.request s).overlapOffset
      (bs.request s).overlapBytes = true

/-- Overlap is that of half-open intervals. -/
theorem trackedRequestOverlaps_iff (r s : BdrvTrackedRequest Req Co) :
    trackedRequestOverlaps r s.overlapOffset s.overlapBytes ↔
      s.overlapOffset < r.overlapOffset + r.overlapBytes ∧
          r.overlapOffset < s.overlapOffset + s.overlapBytes := by
  rw [trackedRequestOverlaps]
  split
  · rename_i after
    simp only [Bool.false_eq_true, false_iff, not_and]
    exact fun before => absurd before (BitVec.not_lt.mpr after)
  rename_i notAfter
  split
  · rename_i before
    simp only [Bool.false_eq_true, false_iff, not_and]
    exact fun _ inside => absurd inside (BitVec.not_lt.mpr before)
  · rename_i notBefore
    exact ⟨fun _ => ⟨BitVec.not_le.mp notAfter, BitVec.not_le.mp notBefore⟩, fun _ => rfl⟩

theorem Conflict.symm {bs : BlockDriverState Req Co} {r s : Req}
    (conflict : Conflict bs r s) : Conflict bs s r := by
  obtain ⟨serialising, overlaps⟩ := conflict
  refine ⟨serialising.symm, ?_⟩
  rw [trackedRequestOverlaps_iff] at overlaps ⊢
  exact overlaps.symm

/-- The same requests, apart from who waits for whom. -/
structure SameRequests (bs bs' : BlockDriverState Req Co) : Prop where
  reqs : bs'.trackedRequests = bs.trackedRequests
  inFlight : bs'.serialisingInFlight = bs.serialisingInFlight
  request : ∀ r, ∃ queue target,
    bs'.request r = { bs.request r with waitQueue := queue, waitingFor := target }

variable {bs bs' : BlockDriverState Req Co}

theorem SameRequests.serialising (same : SameRequests bs bs') (r : Req) :
    (bs'.request r).serialising = (bs.request r).serialising := by
  obtain ⟨_, _, eq⟩ := same.request r
  rw [eq]

theorem SameRequests.co (same : SameRequests bs bs') (r : Req) :
    (bs'.request r).co = (bs.request r).co := by
  obtain ⟨_, _, eq⟩ := same.request r
  rw [eq]

theorem SameRequests.conflict (same : SameRequests bs bs') (r s : Req) :
    Conflict bs' r s ↔ Conflict bs r s := by
  obtain ⟨_, _, eqR⟩ := same.request r
  obtain ⟨_, _, eqS⟩ := same.request s
  rw [Conflict, Conflict, eqR, eqS, trackedRequestOverlaps, trackedRequestOverlaps]

/-- A range that ends within the signed offsets, or right after. -/
def Bounded (req : BdrvTrackedRequest Req Co) : Prop :=
  req.offset.toNat + req.bytes.toNat < 2 ^ 63 ∧
    req.overlapOffset.toNat + req.overlapBytes.toNat ≤ 2 ^ 63

/-- A byte is in the overlap range of a request. -/
def InOverlap (req : BdrvTrackedRequest Req Co) (byte : Nat) : Prop :=
  req.overlapOffset.toNat ≤ byte ∧ byte < req.overlapOffset.toNat + req.overlapBytes.toNat

instance (req : BdrvTrackedRequest Req Co) (byte : Nat) : Decidable (InOverlap req byte) :=
  inferInstanceAs (Decidable (_ ∧ _))

variable {req : BdrvTrackedRequest Req Co}

theorem Bounded.toNat_end (bounded : Bounded req) :
    (req.overlapOffset + req.overlapBytes).toNat =
    req.overlapOffset.toNat + req.overlapBytes.toNat := by
  rw [BitVec.toNat_add, Nat.mod_eq_of_lt]
  have := bounded.2
  omega

theorem overlaps_of_inOverlap {r s : BdrvTrackedRequest Req Co}
    (boundedR : Bounded r) (boundedS : Bounded s)
    {byte : Nat} (inR : InOverlap r byte) (inS : InOverlap s byte) :
    trackedRequestOverlaps r s.overlapOffset s.overlapBytes := by
  rw [trackedRequestOverlaps_iff, BitVec.lt_def, BitVec.lt_def,
    boundedR.toNat_end, boundedS.toNat_end]
  exact ⟨lt_of_le_of_lt inS.1 inR.2, lt_of_le_of_lt inR.1 inS.2⟩

/-- Rounding that reaches both ends replaces the overlap range. -/
theorem serialisingRange_eq {size lo hi} (down : req.offset &&& ~~~(size - 1#64) = lo)
    (up : (req.offset + req.bytes + size - 1#64) &&& ~~~(size - 1#64) = hi)
    (signed : req.overlapOffset.toNat < 2 ^ 63) (first : lo.toNat ≤ req.overlapOffset.toNat)
    (last : req.overlapOffset.toNat + req.overlapBytes.toNat ≤ hi.toNat) :
    serialisingRange req size = (lo, hi - lo) ∧ (hi - lo).toNat = hi.toNat - lo.toNat := by
  have width : (hi - lo).toNat = hi.toNat - lo.toNat :=
    BitVec.toNat_sub_of_le (by rw [BitVec.le_def]; omega)
  have negated : -size = ~~~(size - 1#64) := by bv_omega
  -- The rounded offset is not larger, also as a signed number.
  have notBefore : ¬ req.overlapOffset.slt lo = true := by
    rw [BitVec.slt_eq_ult_of_msb_eq, BitVec.ult_eq_decide, decide_eq_true_eq, not_lt]
    · exact first
    · rw [BitVec.msb_eq_false_iff_two_mul_lt.mpr (by omega),
        BitVec.msb_eq_false_iff_two_mul_lt.mpr (by omega)]
  have notWider : ¬ req.overlapBytes > hi - lo := by
    rw [gt_iff_lt, BitVec.lt_def, width]
    omega
  rw [serialisingRange, negated, down, up, if_neg notBefore, if_neg notWider]
  exact ⟨rfl, width⟩

/-- Marking extends a range to whole units of the alignment. -/
theorem serialisingRange_toNat {bits} (fits : bits < 64)
    (bounded : req.offset.toNat + req.bytes.toNat < 2 ^ 63)
    (offset : req.overlapOffset = req.offset) (bytes : req.overlapBytes = req.bytes) :
    (serialisingRange req (1#64 <<< bits)).1.toNat = floorTo (2 ^ bits) req.offset.toNat ∧
      (serialisingRange req (1#64 <<< bits)).2.toNat =
        ceilTo (2 ^ bits) (req.offset.toNat + req.bytes.toNat) - floorTo
            (2 ^ bits) req.offset.toNat := by
  have unit : (1#64 <<< bits).toNat = 2 ^ bits := WordBits.toNat_one_shiftLeft fits
  have unit_le : 2 ^ bits ≤ 2 ^ 63 := Nat.pow_le_pow_right (by decide) (by omega)
  have unit_pos : 0 < 2 ^ bits := Nat.two_pow_pos bits
  -- The offset is rounded down, the end is rounded up, and neither leaves the signed offsets.
  have down := toNat_and_not_sub_one req.offset fits
  have sum : (req.offset + req.bytes + 1#64 <<< bits - 1#64).toNat = req.offset.toNat +
      req.bytes.toNat + 2 ^ bits - 1 := by
    rw [BitVec.toNat_sub, BitVec.toNat_add, BitVec.toNat_add, unit, BitVec.toNat_ofNat]
    omega
  have up := toNat_and_not_sub_one (req.offset + req.bytes + 1#64 <<< bits - 1#64) fits
  rw [sum, ← ceilTo] at up
  have down_le := floorTo_le (2 ^ bits) req.offset.toNat
  have up_ge := le_ceilTo unit_pos (req.offset.toNat + req.bytes.toNat)
  obtain ⟨range, size⟩ : serialisingRange req _ = _ ∧ _ :=
    serialisingRange_eq rfl rfl (by rw [offset]; omega)
    (by rw [offset, down]; exact down_le) (by rw [offset, bytes, up]; exact up_ge)
  rw [range, size, up, down]
  exact ⟨rfl, rfl⟩

theorem serialisingRange_bounded {align} (isAlignment : IsAlignment align)
    (bounded : req.offset.toNat + req.bytes.toNat < 2 ^ 63)
    (offset : req.overlapOffset = req.offset) (bytes : req.overlapBytes = req.bytes) :
    (serialisingRange req align).1.toNat + (serialisingRange req align).2.toNat ≤ 2 ^ 63 := by
  obtain ⟨bits, fits, rfl⟩ := isAlignment
  obtain ⟨down, size⟩ := serialisingRange_toNat fits bounded offset bytes
  have up_le : ceilTo (2 ^ bits) (req.offset.toNat + req.bytes.toNat) ≤ 2 ^ 63 :=
    ceilTo_le (Nat.two_pow_pos bits) (pow_dvd_pow 2 (by omega)) (le_of_lt bounded)
  have down_le := floorTo_le (2 ^ bits) req.offset.toNat
  rw [down, size]
  omega

variable [DecidableEq Req]

/-- The request that another waits for, while it is tracked itself. -/
def waitsFor (bs : BlockDriverState Req Co) (r : Req) : Option Req :=
  if r ∈ bs.trackedRequests then (bs.request r).waitingFor else none

/-- What is known of the requests whichever coroutine runs. -/
structure Tracked (bs : BlockDriverState Req Co) : Prop where
  nodup : bs.trackedRequests.Nodup
  count : bs.serialisingInFlight = bs.trackedRequests.countP fun r => (bs.request r).serialising
  bounded : ∀ r ∈ bs.trackedRequests, Bounded (bs.request r)
  acyclic : Acyclic (waitsFor bs)

/-- What every call preserves: a tracked request is before its first wait, or waits there, or is
past it. -/
structure Consistent (ctx : AioContext Req Co) : Prop where
  tracked : Tracked ctx.bs
  entering : ∀ r, ctx.entering = some r → r ∈ ctx.bs.trackedRequests ∧ ctx.past r = false ∧
    (ctx.bs.request r).waitingFor = none
  past : ∀ r ∈ ctx.bs.trackedRequests, ctx.past r = true → (ctx.bs.request r).waitingFor = none
  stage : ∀ r ∈ ctx.bs.trackedRequests, ctx.past r = false → (ctx.bs.request r).waitingFor = none →
    ctx.entering = some r
  blocked : ∀ co self, ctx.coroutine co = .waits self ∨ ctx.coroutine co = .woken self →
    self ∈ ctx.bs.trackedRequests ∧ ctx.past self = false ∧ (ctx.bs.request self).co = co ∧
      (ctx.bs.request self).waitingFor ≠ none
  exclusive : ∀ r ∈ ctx.bs.trackedRequests, ∀ s ∈ ctx.bs.trackedRequests,
    r ≠ s → ctx.past r = true → ctx.past s = true → ¬ Conflict ctx.bs r s

theorem SameRequests.tracked (same : SameRequests bs bs') (tracked : Tracked bs)
    (acyclic : Acyclic (waitsFor bs')) : Tracked bs' where
  nodup := same.reqs ▸ tracked.nodup
  count := by
    rw [same.inFlight, tracked.count, same.reqs]
    simp only [same.serialising]
  bounded := by
    intro r mem
    obtain ⟨_, _, eq⟩ := same.request r
    rw [eq]
    exact tracked.bounded r (same.reqs ▸ mem)
  acyclic := acyclic

variable {self req : Req} {reqs : List Req} {ctx : AioContext Req Co}

theorem Consistent.not_waiting (consistent : Consistent ctx) (calls : ctx.Calls self) :
    (ctx.bs.request self).waitingFor = none := by
  obtain ⟨mem, _, entering | ⟨_, past⟩⟩ := calls
  · exact (consistent.entering self entering).2.2
  · exact consistent.past self mem past

theorem Consistent.others (consistent : Consistent ctx) (calls : ctx.Calls self) {r}
    (mem : r ∈ ctx.bs.trackedRequests) (other : r ≠ self)
    (free : (ctx.bs.request r).waitingFor = none) : ctx.past r := by
  by_contra notPast
  have entering := consistent.stage r mem (by simpa using notPast) free
  rcases calls.2.2 with enteringSelf | ⟨none, _⟩
  · exact other (Option.some.inj (entering.symm.trans enteringSelf))
  · rw [none] at entering
    contradiction

def blockOn (bs : BlockDriverState Req Co) (self req : Req) : BlockDriverState Req Co :=
  (bs.modify self fun r => { r with waitingFor := some req }).modify req
    fun r => { r with waitQueue := r.waitQueue ++ [(bs.request self).co] }

theorem waitingFor_blockOn (bs : BlockDriverState Req Co) (self req r : Req) :
    ((blockOn bs self req).request r).waitingFor = if r = self then some req
    else (bs.request r).waitingFor := by
  simp only [blockOn, BlockDriverState.modify, Function.update_apply]
  split_ifs <;> simp_all

theorem sameRequests_blockOn (bs : BlockDriverState Req Co) (self req : Req) : SameRequests bs
    (blockOn bs self req) where
  reqs := rfl
  inFlight := rfl
  request := by
    intro r
    simp only [blockOn, BlockDriverState.modify, Function.update_apply]
    split_ifs with one two three
    · exact ⟨_, _, by rw [one, two]⟩
    · exact ⟨_, _, by rw [one]⟩
    · exact ⟨_, _, by rw [three]⟩
    · exact ⟨_, _, rfl⟩

/-- Waiting for a request that itself waits for nothing closes no cycle. -/
theorem acyclic_blockOn (acyclic : Acyclic (waitsFor bs)) (tracked : self ∈ bs.trackedRequests)
    (free : (bs.request req).waitingFor = none) (other : req ≠ self) :
    Acyclic (waitsFor (blockOn bs self req)) := by
  have update : waitsFor (blockOn bs self req) = Function.update (waitsFor bs) self (some req) := by
    funext r
    rw [waitsFor, waitingFor_blockOn, (sameRequests_blockOn bs self req).reqs,
      Function.update_apply, waitsFor]
    by_cases same : r = self
    · rw [if_pos same, if_pos same, same, if_pos tracked]
    · rw [if_neg same, if_neg same]
  rw [update]
  refine acyclic.update_sink ?_ other.symm
  rw [waitsFor, free, ite_self]

variable [DecidableEq Co]

/-- A pass that goes on has seen only waiting requests in conflict. -/
theorem waitPass_goesOn (goesOn : waitPass bs self reqs = .goesOn) :
    ∀ r ∈ reqs, r ≠ self → Conflict bs r self → (bs.request r).waitingFor ≠ none := by
  induction reqs with
  | nil => simp
  | cons first rest ih =>
    rw [waitPass] at goesOn
    -- Every branch that goes on skips the first request for a reason of its own.
    split at goesOn
    · rename_i skipped
      intro r mem other conflict
      rcases List.mem_cons.mp mem with rfl | mem
      · rcases skipped with same | ⟨no, no'⟩
        · exact absurd same other
        · rcases conflict.1 with yes | yes <;> simp [no, no'] at yes
      · exact ih goesOn r mem other conflict
    split at goesOn
    · split at goesOn
      · contradiction
      cases waiting : (bs.request first).waitingFor with
      | none =>
        rw [waiting] at goesOn
        contradiction
      | some target =>
        rw [waiting] at goesOn
        intro r mem other conflict
        rcases List.mem_cons.mp mem with rfl | mem
        · simp [waiting]
        · exact ih goesOn r mem other conflict
    rename_i apart
    intro r mem other conflict
    rcases List.mem_cons.mp mem with rfl | mem
    · exact absurd conflict.2 apart
    · exact ih goesOn r mem other conflict

/-- The pass stops at a conflicting request that does not wait itself. -/
theorem waitPass_waitsFor (waits : waitPass bs self reqs = .waitsFor req) :
    req ∈ reqs ∧ req ≠ self ∧ (bs.request req).waitingFor = none ∧ Conflict bs req self := by
  induction reqs with
  | nil => contradiction
  | cons first rest ih =>
    -- The request was found here, or further on.
    have later : waitPass bs self rest = .waitsFor req → req ∈ first :: rest ∧ req ≠ self ∧
        (bs.request req).waitingFor = none ∧ Conflict bs req self := fun waits =>
      let ⟨mem, facts⟩ := ih waits
      ⟨List.mem_cons_of_mem _ mem, facts⟩
    rw [waitPass] at waits
    split at waits
    · exact later waits
    rename_i relevant
    split at waits
    · rename_i overlaps
      split at waits
      · contradiction
      cases waiting : (bs.request first).waitingFor with
      | some target =>
        rw [waiting] at waits
        exact later waits
      | none =>
        rw [waiting] at waits
        obtain rfl := Pass.waitsFor.inj waits
        rw [not_or] at relevant
        refine ⟨List.mem_cons_self, relevant.1, waiting, ?_, overlaps⟩
        by_contra neither
        rw [not_or, Bool.not_eq_true, Bool.not_eq_true] at neither
        exact relevant.2 neither
    · exact later waits

variable (waited : BlockDriverState Req Co × Bool)

theorem AioContext.past_afterWait (r : Req) :
    (ctx.afterWait self waited).past r = Function.update ctx.past self
    (!waited.2 || ctx.past self) r := rfl

theorem AioContext.coroutine_afterWait (co : Co) : (ctx.afterWait self waited).coroutine co =
      Function.update ctx.coroutine (waited.1.request self).co
        (if waited.2 then .waits self else .calls) co := rfl

/-- A pass that goes on takes a request past its first wait. -/
theorem Consistent.goesOn (consistent : Consistent ctx) (calls : ctx.Calls self)
    (clear : ∀ r ∈ ctx.bs.trackedRequests, r ≠ self → Conflict ctx.bs r self →
      (ctx.bs.request r).waitingFor ≠ none) :
    Consistent (ctx.afterWait self (ctx.bs, false)) where
  tracked := consistent.tracked
  entering := by
    intro r entering
    contradiction
  past := by
    intro r mem past
    by_cases same : r = self
    · rw [same]
      exact consistent.not_waiting calls
    · rw [AioContext.past_afterWait, Function.update_of_ne same] at past
      exact consistent.past r mem past
  stage := by
    intro r mem notPast free
    by_cases same : r = self
    · rw [same, AioContext.past_afterWait, Function.update_self] at notPast
      contradiction
    · -- Nobody else was about to come to the first wait.
      rw [AioContext.past_afterWait, Function.update_of_ne same,
        consistent.others calls mem same free] at notPast
      contradiction
  blocked := by
    intro co waiter waits
    have other : co ≠ (ctx.bs.request self).co := by
      rintro rfl
      simp [AioContext.afterWait] at waits
    rw [AioContext.coroutine_afterWait, Function.update_of_ne other] at waits
    obtain ⟨mem, notPast, owner, waiting⟩ := consistent.blocked co waiter waits
    have different : waiter ≠ self := by
      rintro rfl
      exact waiting (consistent.not_waiting calls)
    refine ⟨mem, ?_, owner, waiting⟩
    rw [AioContext.past_afterWait, Function.update_of_ne different, notPast]
  exclusive := by
    -- A request in conflict with this one waits, and so is not past its own first wait.
    have alone : ∀ r ∈ ctx.bs.trackedRequests, r ≠ self → ctx.past r = true →
      ¬ Conflict ctx.bs r self :=
      fun r mem other past conflict => clear r mem other conflict (consistent.past r mem past)
    intro r memberR s memberS different pastR pastS conflict
    by_cases sameR : r = self
    · subst sameR
      rw [AioContext.past_afterWait, Function.update_of_ne different.symm] at pastS
      exact alone s memberS different.symm pastS conflict.symm
    rw [AioContext.past_afterWait, Function.update_of_ne sameR] at pastR
    by_cases sameS : s = self
    · subst sameS
      exact alone r memberR different pastR conflict
    · rw [AioContext.past_afterWait, Function.update_of_ne sameS] at pastS
      exact consistent.exclusive r memberR s memberS different pastR pastS conflict

/-- A pass that stops at a request makes a coroutine wait, only in its first wait. -/
theorem Consistent.waits (consistent : Consistent ctx) (calls : ctx.Calls self)
    (mem : req ∈ ctx.bs.trackedRequests)
    (other : req ≠ self) (free : (ctx.bs.request req).waitingFor = none)
    (conflict : Conflict ctx.bs req self) :
    Consistent (ctx.afterWait self (blockOn ctx.bs self req, true)) := by
  have pastReq := consistent.others calls mem other free
  -- The request in conflict is past its first wait, so that this one cannot be.
  have entering : ctx.entering = some self := by
    rcases calls.2.2 with entering | ⟨_, past⟩
    · exact entering
    · exact absurd conflict (consistent.exclusive req mem self calls.1 other pastReq past)
  have notPast : ctx.past self = false := (consistent.entering self entering).2.1
  have same := sameRequests_blockOn ctx.bs self req
  have pastSame : Function.update ctx.past self (!true || ctx.past self) = ctx.past := by simp
  refine ⟨same.tracked consistent.tracked
    (acyclic_blockOn consistent.tracked.acyclic calls.1 free other), ?_, ?_, ?_, ?_, ?_⟩
  · intro r entering'
    contradiction
  · intro r memberR past
    rw [AioContext.past_afterWait, pastSame] at past
    have different : r ≠ self := by
      rintro rfl
      rw [notPast] at past
      contradiction
    show ((blockOn ctx.bs self req).request r).waitingFor = none
    rw [waitingFor_blockOn, if_neg different]
    exact consistent.past r memberR past
  · intro r memberR notPastR freeR
    rw [AioContext.past_afterWait, pastSame] at notPastR
    replace freeR : ((blockOn ctx.bs self req).request r).waitingFor = none := freeR
    rw [waitingFor_blockOn] at freeR
    split at freeR
    · contradiction
    · rename_i different
      rw [consistent.others calls memberR different freeR] at notPastR
      contradiction
  · intro co waiter waits
    show waiter ∈ ctx.bs.trackedRequests ∧
      Function.update ctx.past self (!true || ctx.past self) waiter = false ∧
      ((blockOn ctx.bs self req).request waiter).co = co ∧
        ((blockOn ctx.bs self req).request waiter).waitingFor ≠ none
    rw [pastSame, same.co, waitingFor_blockOn]
    by_cases own : co = (ctx.bs.request self).co
    · -- This coroutine is the one that starts to wait.
      have waiterSelf : waiter = self := by
        simp only [AioContext.afterWait, same.co, own, Function.update_self, if_true] at waits
        rcases waits with waits | woken
        · exact (CoState.waits.inj waits).symm
        · contradiction
      rw [waiterSelf, if_pos rfl]
      exact ⟨calls.1, notPast, own.symm, Option.some_ne_none _⟩
    rw [AioContext.coroutine_afterWait, same.co, Function.update_of_ne own] at waits
    obtain ⟨memberW, notPastW, owner, waiting⟩ := consistent.blocked co waiter waits
    refine ⟨memberW, notPastW, owner, ?_⟩
    split
    · exact Option.some_ne_none _
    · exact waiting
  · intro r memberR s memberS different pastR pastS conflict'
    rw [AioContext.past_afterWait, pastSame] at pastR pastS
    exact consistent.exclusive r memberR s memberS different pastR pastS
      ((same.conflict r s).mp conflict')

variable {waited : BlockDriverState Req Co × Bool}

/-- The wait changes who waits, never a request's range or marking. -/
theorem sameRequests_locked
    (res : bdrvWaitSerialisingRequestsLocked bs self = some waited) : SameRequests bs waited.1 := by
  rw [bdrvWaitSerialisingRequestsLocked] at res
  cases pass : waitPass bs self bs.trackedRequests with
  | aborts =>
    rw [pass] at res
    contradiction
  | goesOn =>
    rw [pass] at res
    cases res
    exact ⟨rfl, rfl, fun r => ⟨_, _, rfl⟩⟩
  | waitsFor req =>
    rw [pass] at res
    cases res
    exact sameRequests_blockOn bs self req

/-- A wait leaves the queues and the waiting coroutines in agreement. -/
theorem Consistent.locked (consistent : Consistent ctx) (calls : ctx.Calls self)
    (res : bdrvWaitSerialisingRequestsLocked ctx.bs self = some waited) :
    Consistent (ctx.afterWait self waited) := by
  rw [bdrvWaitSerialisingRequestsLocked] at res
  cases pass : waitPass ctx.bs self ctx.bs.trackedRequests with
  | aborts =>
    rw [pass] at res
    contradiction
  | goesOn =>
    rw [pass] at res
    cases res
    exact consistent.goesOn calls (waitPass_goesOn pass)
  | waitsFor req =>
    rw [pass] at res
    cases res
    obtain ⟨mem, other, free, conflict⟩ := waitPass_waitsFor pass
    exact consistent.waits calls mem other free conflict

end Qemu.Block
