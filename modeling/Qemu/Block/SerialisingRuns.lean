import Qemu.Block.Serialising

/-! Serialising requests exclude overlapping ones, and none wait in a circle. -/

namespace Qemu.Block

open WaitsFor Transition List Option AioContext BlockDriverState Function

variable {Req Co : Type} {ctx next : AioContext Req Co} {self req : Req}

theorem blocked_of_wake {state : CoState Req}
    (blocked : state.wake = .waits self ∨ state.wake = .woken self) :
    state = .waits self ∨ state = .woken self := by
  cases state with
  | calls => exact blocked
  | waits other =>
    rcases blocked with blocked | blocked
    · contradiction
    · exact .inl (congrArg CoState.waits (CoState.woken.inj blocked))
  | woken other => exact blocked

variable [DecidableEq Req] {bs bs' : BlockDriverState Req Co} {align : BitVec 64} {co : Co}
    {offset bytes : BitVec 64}

def Unmarked (req : BdrvTrackedRequest Req Co) : Prop :=
  req.serialising = false ∧ req.overlapOffset = req.offset ∧ req.overlapBytes = req.bytes

/-- What holds between the calls. -/
structure Invariant (ctx : AioContext Req Co) : Prop extends Consistent ctx where
  unmarked : ∀ r, ctx.entering = some r → Unmarked (ctx.bs.request r)

theorem Tracked.countP_eq (mem : self ∈ bs.trackedRequests) (counted : Req → Bool) :
    bs.trackedRequests.countP counted =
      (bs.trackedRequests.erase self).countP counted + if counted self then 1 else 0 := by
  rw [(perm_cons_erase mem).countP_eq, countP_cons]

theorem request_markSerialising {r : Req} (other : r ≠ self) :
    (markSerialising bs self align).request r = bs.request r := update_of_ne other _ _

theorem request_markSerialising_self :
    (markSerialising bs self align).request self = { bs.request self with
    serialising := true
    overlapOffset := (serialisingRange (bs.request self) align).1
    overlapBytes := (serialisingRange (bs.request self) align).2 } := update_self _ _ _

theorem waitingFor_markSerialising (r) :
    ((markSerialising bs self align).request r).waitingFor = (bs.request r).waitingFor ∧
      ((markSerialising bs self align).request r).co = (bs.request r).co := by
  by_cases same : r = self
  · rw [same, request_markSerialising_self]
    exact ⟨rfl, rfl⟩
  · rw [request_markSerialising same]
    exact ⟨rfl, rfl⟩

/-- Marking widens one request and counts it once. -/
theorem Tracked.mark (tracked : Tracked bs) (mem : self ∈ bs.trackedRequests)
    (unmarked : Unmarked (bs.request self))
    (isAlignment : IsAlignment align) : Tracked (markSerialising bs self align) where
  nodup := tracked.nodup
  count := by
    obtain ⟨notSerialising, _, _⟩ := unmarked
    show (if (bs.request self).serialising = true then _ else _) = countP _ bs.trackedRequests
    rw [notSerialising, if_neg Bool.false_ne_true, tracked.count,
      Tracked.countP_eq mem, Tracked.countP_eq mem, notSerialising, request_markSerialising_self]
    -- The requests besides the marked one are serialising as before.
    have others : (bs.trackedRequests.erase self).countP
      (fun r => ((markSerialising bs self align).request r).serialising) =
        (bs.trackedRequests.erase self).countP fun r => (bs.request r).serialising := by
      refine countP_congr fun r inRest => ?_
      rw [request_markSerialising (tracked.nodup.mem_erase_iff.mp inRest).1]
    rw [others]
    rfl
  bounded := by
    intro r inList
    by_cases same : r = self
    · obtain ⟨_, offset, bytes⟩ := unmarked
      have bounded := (tracked.bounded self mem).1
      rw [same, request_markSerialising_self]
      exact ⟨bounded, serialisingRange_bounded isAlignment bounded offset bytes⟩
    · rw [request_markSerialising same]
      exact tracked.bounded r inList
  acyclic := by
    refine tracked.acyclic.mono fun r target edge => ?_
    rw [waitsFor, (waitingFor_markSerialising r).1] at edge
    exact edge

/-- What a request begins as; the others stay as they were. -/
theorem trackedRequestBegin_eq_some
    (begun : trackedRequestBegin bs req co offset bytes = some bs') :
    offset.toNat + bytes.toNat < 2 ^ 63 ∧ bs'.trackedRequests = req :: bs.trackedRequests ∧
      bs'.serialisingInFlight = bs.serialisingInFlight ∧
      bs'.request req = .initial co offset bytes ∧
      ∀ r, r ≠ req → bs'.request r = bs.request r := by
  rw [trackedRequestBegin] at begun
  obtain ⟨asserted, rfl⟩ := ite_some_none_eq_some.mp begun
  refine ⟨?_, rfl, rfl, update_self _ _ _, fun r other => update_of_ne other _ _⟩
  -- The assertion compares unsigned numbers.
  obtain ⟨small, fits⟩ := asserted
  have limit : (BitVec.intMax 64).toNat = 2 ^ 63 - 1 := by decide
  rw [BitVec.le_def, BitVec.toNat_sub_of_le small, limit] at fits
  rw [BitVec.le_def, limit] at small
  omega

theorem Tracked.begin (tracked : Tracked bs) (fresh : req ∉ bs.trackedRequests)
    (begun : trackedRequestBegin bs req co offset bytes = some bs') : Tracked bs' := by
  obtain ⟨inRange, reqs, inFlight, own, others⟩ := trackedRequestBegin_eq_some begun
  have other : ∀ r ∈ bs.trackedRequests, r ≠ req := by
    rintro r mem rfl
    exact fresh mem
  refine ⟨?_, ?_, ?_, ?_⟩
  · rw [reqs]
    exact nodup_cons.mpr ⟨fresh, tracked.nodup⟩
  · -- The new request is not serialising.
    rw [inFlight, tracked.count, reqs, countP_cons, own]
    refine countP_congr fun r mem => ?_
    rw [others r (other r mem)]
  · intro r mem
    rw [reqs] at mem
    rcases mem_cons.mp mem with rfl | mem
    · rw [own]
      exact ⟨inRange, le_of_lt inRange⟩
    · rw [others r (other r mem)]
      exact tracked.bounded r mem
  · -- It does not wait.
    refine tracked.acyclic.mono fun r target edge => ?_
    rw [waitsFor, reqs] at edge
    obtain ⟨mem, waits⟩ := ite_none_right_eq_some.mp edge
    rcases mem_cons.mp mem with rfl | mem
    · rw [own] at waits
      contradiction
    · rw [others r (other r mem)] at waits
      rw [waitsFor, if_pos mem, waits]

/-- A request begins. -/
theorem Invariant.begin (inv : Invariant ctx) (none : ctx.entering = none)
    (fresh : req ∉ ctx.bs.trackedRequests)
    (begun : trackedRequestBegin ctx.bs req co offset bytes = some bs') :
    Invariant { ctx with bs := bs', entering := some req, past := update ctx.past req false } := by
  obtain ⟨_, reqs, _, own, others⟩ := trackedRequestBegin_eq_some begun
  have other : ∀ r ∈ ctx.bs.trackedRequests, r ≠ req := by
    rintro r mem rfl
    exact fresh mem
  -- A request that is past its first wait is an old one.
  have old : ∀ r ∈ bs'.trackedRequests, update ctx.past req false r = true →
      r ∈ ctx.bs.trackedRequests ∧ ctx.past r = true := by
    intro r mem past
    rw [reqs] at mem
    rcases mem_cons.mp mem with rfl | mem
    · rw [update_self] at past
      contradiction
    · rw [update_of_ne (other r mem)] at past
      exact ⟨mem, past⟩
  refine ⟨⟨inv.tracked.begin fresh begun, ?_, ?_, ?_, ?_, ?_⟩, ?_⟩
  · intro r entering
    cases entering
    refine ⟨?_, update_self _ _ _, ?_⟩
    · simp [reqs]
    · simp only [own, BdrvTrackedRequest.initial]
  · intro r mem past
    obtain ⟨mem, past⟩ := old r mem past
    simp only [others r (other r mem)]
    exact inv.past r mem past
  · intro r mem notPast free
    simp only [reqs] at mem
    rcases mem_cons.mp mem with rfl | mem
    · rfl
    · simp only [update_of_ne (other r mem), others r (other r mem)] at notPast free
      rw [inv.stage r mem notPast free] at none
      contradiction
  · intro co waiter waits
    obtain ⟨mem, notPast, owner, waiting⟩ := inv.blocked co waiter waits
    have differ := other waiter mem
    simp only [reqs, update_of_ne differ, others waiter differ]
    exact ⟨mem_cons_of_mem _ mem, notPast, owner, waiting⟩
  · intro r memberR s memberS differ pastR pastS conflict
    obtain ⟨memberR, pastR⟩ := old r memberR pastR
    obtain ⟨memberS, pastS⟩ := old s memberS pastS
    refine inv.exclusive r memberR s memberS differ pastR pastS ?_
    rw [Conflict, others r (other r memberR), others s (other s memberS)] at conflict
    exact conflict
  · intro r entering
    cases entering
    simp only [own]
    exact ⟨rfl, rfl, rfl⟩

theorem request_end (bs : BlockDriverState Req Co) (req r) :
    ∃ queue, (trackedRequestEnd bs req).1.request r = { bs.request r with waitQueue := queue } := by
  refine ⟨if r = req then [] else (bs.request r).waitQueue, ?_⟩
  show (bs.modify req fun self => { self with waitQueue := [] }).request r = _
  by_cases same : r = req
  · rw [same, request_modify_self, if_pos rfl]
  · rw [request_modify_of_ne _ _ same, if_neg same]

/-- Ending a request takes back its share of the serialising count. -/
theorem Tracked.finish (tracked : Tracked bs) (mem : req ∈ bs.trackedRequests) :
    Tracked (trackedRequestEnd bs req).1 where
  nodup := tracked.nodup.erase req
  count := by
    show (if (bs.request req).serialising then bs.serialisingInFlight - 1
      else bs.serialisingInFlight) = (bs.trackedRequests.erase req).countP fun r =>
        ((trackedRequestEnd bs req).1.request r).serialising
    have same : (bs.trackedRequests.erase req).countP
      (fun r => ((trackedRequestEnd bs req).1.request r).serialising) =
        (bs.trackedRequests.erase req).countP fun r => (bs.request r).serialising := by
      refine countP_congr fun r _ => ?_
      obtain ⟨queue, eq⟩ := request_end bs req r
      rw [eq]
    rw [same, tracked.count, Tracked.countP_eq mem]
    split <;> simp
  bounded := by
    intro r inRest
    obtain ⟨queue, eq⟩ := request_end bs req r
    rw [eq]
    exact tracked.bounded r (mem_of_mem_erase inRest)
  acyclic := by
    -- Leaving takes edges away.
    refine tracked.acyclic.mono fun r target edge => ?_
    obtain ⟨queue, eq⟩ := request_end bs req r
    rw [waitsFor, eq] at edge
    obtain ⟨inRest, edge⟩ := ite_none_right_eq_some.mp edge
    rw [waitsFor, if_pos (mem_of_mem_erase inRest)]
    exact edge

theorem invariant_start (request : Req → BdrvTrackedRequest Req Co) :
    Invariant (start request) where
  tracked := ⟨nodup_nil, rfl, fun _ mem => absurd mem not_mem_nil, acyclic_of_none fun _ => rfl⟩
  entering := fun _ entering => by contradiction
  past := fun _ mem => absurd mem not_mem_nil
  stage := fun _ mem => absurd mem not_mem_nil
  blocked := fun _ _ waits => by rcases waits with waits | waits <;> contradiction
  exclusive := fun _ mem => absurd mem not_mem_nil
  unmarked := fun _ entering => by contradiction

variable [DecidableEq Co] {waited : BlockDriverState Req Co × Bool}

theorem Consistent.invariant_afterWait
    (consistent : Consistent (ctx.afterWait self waited)) : Invariant (ctx.afterWait self waited) :=
  ⟨consistent, fun _ entering => absurd entering (by simp [afterWait])⟩

theorem Consistent.wait (consistent : Consistent ctx) (calls : ctx.Calls self)
    (res : bdrvWaitSerialisingRequests ctx.bs self = some waited) :
    Consistent (ctx.afterWait self waited) := by
  rw [bdrvWaitSerialisingRequests] at res
  split at res
  · rename_i noneInFlight
    cases res
    -- Without serialising requests there are no conflicts.
    have noneSerialising : ∀ r ∈ ctx.bs.trackedRequests,
        (ctx.bs.request r).serialising = false := by
      have count := consistent.tracked.count
      rw [noneInFlight, eq_comm, countP_eq_zero] at count
      exact fun r mem => by simpa using count r mem
    refine consistent.goesOn calls fun r mem _ conflict => ?_
    rcases conflict.1 with serialising | serialising
    · rw [noneSerialising r mem] at serialising
      contradiction
    · rw [noneSerialising self calls.1] at serialising
      contradiction
  · exact consistent.locked calls res

/-- Marking a request that has not come to its first wait. -/
theorem Invariant.mark (inv : Invariant ctx) (calls : ctx.Calls self)
    (entering : ctx.entering = some self) (isAlignment : IsAlignment align)
    (res : bdrvMarkRequestSerialising ctx.bs self align = some waited) :
    Consistent (ctx.afterWait self waited) := by
  have notPast := (inv.entering self entering).2.1
  have marked : Consistent { ctx with bs := markSerialising ctx.bs self align } := by
    refine ⟨inv.tracked.mark calls.1 (inv.unmarked self entering) isAlignment, ?_, ?_, ?_, ?_, ?_⟩
    · intro r enteringR
      simp only [waitingFor_markSerialising]
      exact inv.entering r enteringR
    · intro r mem past
      simp only [waitingFor_markSerialising]
      exact inv.past r mem past
    · intro r mem notPastR free
      simp only [waitingFor_markSerialising] at free
      exact inv.stage r mem notPastR free
    · intro co waiter waits
      simp only [waitingFor_markSerialising]
      exact inv.blocked co waiter waits
    · -- The request itself is not past its first wait, and the others conflict as before.
      intro r memberR s memberS differ pastR pastS conflict
      have other : ∀ r, ctx.past r = true → r ≠ self := by
        rintro r past rfl
        rw [notPast] at past
        contradiction
      refine inv.exclusive r memberR s memberS differ pastR pastS ?_
      rw [Conflict, request_markSerialising (other r pastR),
        request_markSerialising (other s pastS)] at conflict
      exact conflict
  have calls' : AioContext.Calls { ctx with bs := markSerialising ctx.bs self align } self := by
    refine ⟨calls.1, ?_, .inl entering⟩
    simp only [waitingFor_markSerialising]
    exact calls.2.1
  exact marked.locked calls' res

/-- The coroutine is back in the wait loop, as if at its first wait. -/
def AioContext.reenter (ctx : AioContext Req Co) (self : Req) : AioContext Req Co :=
  { ctx with
    bs := ctx.bs.modify self fun r => { r with waitingFor := none }
    entering := some self
    coroutine := update ctx.coroutine (ctx.bs.request self).co .calls }

theorem AioContext.sameRequests_reenter (ctx : AioContext Req Co) (self) :
    SameRequests ctx.bs (ctx.reenter self).bs := by
  refine ⟨rfl, rfl, fun r => ⟨(ctx.bs.request r).waitQueue, if r = self then none
    else (ctx.bs.request r).waitingFor, ?_⟩⟩
  rw [AioContext.reenter]
  by_cases same : r = self
  · rw [same, request_modify_self, if_pos rfl]
  · rw [request_modify_of_ne _ _ same, if_neg same]

theorem AioContext.waitingFor_reenter (ctx : AioContext Req Co) (self r) :
    ((ctx.reenter self).bs.request r).waitingFor = if r = self then none
    else (ctx.bs.request r).waitingFor := by
  split
  · rename_i same
    rw [same, AioContext.reenter, request_modify_self]
  · rename_i other
    rw [AioContext.reenter, request_modify_of_ne _ _ other]

/-- The wait of a request that comes back is its first one. -/
theorem Consistent.reenter (consistent : Consistent ctx) (none : ctx.entering = none)
    (mem : self ∈ ctx.bs.trackedRequests) (notPast : ctx.past self = false) :
    Consistent (ctx.reenter self) := by
  have same := ctx.sameRequests_reenter self
  refine ⟨same.tracked consistent.tracked ?_, ?_, ?_, ?_, ?_, ?_⟩
  · -- An edge less makes no circle.
    refine consistent.tracked.acyclic.mono fun r target edge => ?_
    rw [waitsFor, ctx.waitingFor_reenter, same.reqs] at edge
    rw [waitsFor]
    split_ifs at edge ⊢ with inList here
    exact edge
  · intro r entering
    cases entering
    refine ⟨mem, notPast, ?_⟩
    rw [ctx.waitingFor_reenter, if_pos rfl]
  · intro r memberR past
    rw [ctx.waitingFor_reenter, consistent.past r memberR past, ite_self]
  · intro r memberR notPastR free
    rw [ctx.waitingFor_reenter] at free
    split at free
    · rename_i here
      rw [here]
      rfl
    · -- No other request was about to come to its first wait.
      have entering := consistent.stage r memberR notPastR free
      rw [none] at entering
      contradiction
  · intro co waiter waits
    have other : co ≠ (ctx.bs.request self).co := by
      rintro rfl
      simp [AioContext.reenter] at waits
    rw [AioContext.reenter] at waits
    simp only [update_of_ne other] at waits
    obtain ⟨memberW, notPastW, owner, waiting⟩ := consistent.blocked co waiter waits
    have differ : waiter ≠ self := by
      rintro rfl
      exact other owner.symm
    refine ⟨memberW, notPastW, (same.co waiter).trans owner, ?_⟩
    rw [ctx.waitingFor_reenter, if_neg differ]
    exact waiting
  · intro r memberR s memberS differ pastR pastS conflict
    exact consistent.exclusive r memberR s memberS differ pastR pastS
      ((same.conflict r s).mp conflict)

theorem Consistent.wake (consistent : Consistent ctx) (none : ctx.entering = none)
    (woken : ctx.coroutine co = .woken self)
    (res : bdrvWaitSerialisingRequestsResume ctx.bs self = some waited) :
    Consistent (ctx.afterWait self waited) := by
  obtain ⟨mem, notPast, owner, _⟩ := consistent.blocked co self (.inr woken)
  have entered := consistent.reenter none mem notPast
  have same := ctx.sameRequests_reenter self
  have calls : (ctx.reenter self).Calls self := by
    refine ⟨mem, ?_, .inl rfl⟩
    rw [same.co]
    exact update_self _ _ _
  have result' : bdrvWaitSerialisingRequestsLocked (ctx.reenter self).bs self = some waited := res
  -- Where the coroutine was before does not matter afterwards.
  have after : (ctx.reenter self).afterWait self waited = ctx.afterWait self waited := by
    rw [afterWait, afterWait, (sameRequests_locked result').co, same.co]
    simp [AioContext.reenter]
  rw [← after]
  exact entered.locked calls result'

/-- A request ends. -/
theorem Invariant.finish (inv : Invariant ctx) (calls : ctx.Calls req) :
    Invariant (ctx.afterEnd req) := by
  -- Those that are still tracked were tracked before.
  have old : ∀ r ∈ (ctx.afterEnd req).bs.trackedRequests, r ∈ ctx.bs.trackedRequests ∧ r ≠ req := by
    intro r mem
    exact (inv.tracked.nodup.mem_erase_iff.mp mem).symm
  have waiting : ∀ r, ((ctx.afterEnd req).bs.request r).waitingFor =
      (ctx.bs.request r).waitingFor := by
    intro r
    obtain ⟨queue, eq⟩ := request_end ctx.bs req r
    show ((trackedRequestEnd ctx.bs req).1.request r).waitingFor = _
    rw [eq]
  refine ⟨⟨inv.tracked.finish calls.1, ?_, ?_, ?_, ?_, ?_⟩, ?_⟩
  · intro r entering
    contradiction
  · intro r mem past
    rw [waiting]
    exact inv.past r (old r mem).1 past
  · -- The others wait or are past their first wait.
    intro r mem notPast free
    rw [waiting] at free
    obtain ⟨mem, other⟩ := old r mem
    have past := inv.others calls mem other free
    exact absurd (past.symm.trans notPast) (by decide)
  · intro co waiter waits
    have before : ctx.coroutine co = .waits waiter ∨ ctx.coroutine co = .woken waiter := by
      simp only [afterEnd] at waits
      split at waits
      · exact blocked_of_wake waits
      · exact waits
    obtain ⟨mem, notPast, owner, waitingW⟩ := inv.blocked co waiter before
    have other : waiter ≠ req := by
      rintro rfl
      exact waitingW (inv.not_waiting calls)
    refine ⟨inv.tracked.nodup.mem_erase_iff.mpr ⟨other, mem⟩, notPast, ?_, ?_⟩
    · obtain ⟨queue, eq⟩ := request_end ctx.bs req waiter
      show ((trackedRequestEnd ctx.bs req).1.request waiter).co = co
      rw [eq]
      exact owner
    · rw [waiting]
      exact waitingW
  · intro r memberR s memberS differ pastR pastS conflict
    refine inv.exclusive r (old r memberR).1 s (old s memberS).1 differ pastR pastS ?_
    obtain ⟨_, eqR⟩ := request_end ctx.bs req r
    obtain ⟨_, eqS⟩ := request_end ctx.bs req s
    replace conflict : Conflict (trackedRequestEnd ctx.bs req).1 r s := conflict
    rw [Conflict, eqR, eqS, trackedRequestOverlaps] at conflict
    rw [Conflict, trackedRequestOverlaps]
    exact conflict
  · intro r entering
    contradiction

/-- Every step of a coroutine keeps the invariant. -/
theorem Invariant.step (inv : Invariant ctx) {call}
    (step : ctx.step call = some next) : Invariant next := by
  cases call with
  | begins req co offset bytes =>
    obtain ⟨guard, step⟩ := ite_none_right_eq_some.mp step
    obtain ⟨bs, begun, rfl⟩ := map_eq_some_iff.mp step
    exact inv.begin guard.1 guard.2.2 begun
  | marks req align =>
    obtain ⟨guard, step⟩ := ite_none_right_eq_some.mp step
    obtain ⟨waited, res, rfl⟩ := map_eq_some_iff.mp step
    exact (inv.mark guard.1 guard.2.1 guard.2.2 res).invariant_afterWait
  | waits req =>
    obtain ⟨calls, step⟩ := ite_none_right_eq_some.mp step
    obtain ⟨waited, res, rfl⟩ := map_eq_some_iff.mp step
    exact (inv.wait calls res).invariant_afterWait
  | wakes co =>
    simp only [AioContext.step] at step
    split at step
    case h_1 self none woken =>
      obtain ⟨waited, res, rfl⟩ := map_eq_some_iff.mp step
      exact (inv.wake none woken res).invariant_afterWait
    case h_2 => contradiction
  | ends req =>
    obtain ⟨calls, rfl⟩ := ite_some_none_eq_some.mp step
    exact inv.finish calls

/-- A request is past its first wait and has not ended. -/
def AioContext.Serves (ctx : AioContext Req Co) (req : Req) : Prop :=
  req ∈ ctx.bs.trackedRequests ∧ ctx.past req = true

instance (ctx : AioContext Req Co) (req : Req) : Decidable (ctx.Serves req) :=
  inferInstanceAs (Decidable (_ ∧ _))

/-- Serialising requests exclude overlapping ones under any schedule, and requests never wait in a
circle. -/
theorem serialising_excludes (request : Req → BdrvTrackedRequest Req Co)
    (calls : List (Call Req Co))
    (ctx : AioContext Req Co) (ran : run AioContext.step (start request) calls = some ctx) :
    (∀ r s byte, r ≠ s → ctx.Serves r → ctx.Serves s → InOverlap (ctx.bs.request r) byte →
      InOverlap (ctx.bs.request s) byte →
      (ctx.bs.request r).serialising = false ∧ (ctx.bs.request s).serialising = false) ∧
    Acyclic (waitsFor ctx.bs) := by
  have inv : Invariant ctx := run_preserves (fun _ _ _ inv stepped => inv.step stepped)
    (invariant_start request) ran
  refine ⟨fun r s byte different servesR servesS inR inS => ?_, inv.tracked.acyclic⟩
  have overlaps := overlaps_of_inOverlap (inv.tracked.bounded r servesR.1)
    (inv.tracked.bounded s servesS.1) inR inS
  have apart := inv.exclusive r servesR.1 s servesS.1 different servesR.2 servesS.2
  rw [Conflict, not_and', not_or, Bool.not_eq_true, Bool.not_eq_true] at apart
  exact apart overlaps

/-- A serialising request, one that waits for it, and one beside them. -/
def sampleCalls : List (Call Nat Nat) :=
  [.begins 0 0 5120#64 512#64, .marks 0 4096#64, .begins 1 1 4096#64 1024#64, .waits 1,
    .begins 2 2 0#64 4096#64, .waits 2, .ends 0, .begins 3 3 4096#64 512#64, .waits 3, .wakes 1]

/-- Then two overlapping requests are served, none serialising. -/
theorem serialising_excludes_sample :
    ∃ ctx : AioContext Nat Nat, run AioContext.step
      (.start fun _ => .initial 0 0#64 0#64) sampleCalls = some ctx ∧
      ctx.Serves 1 ∧ ctx.Serves 3 ∧ InOverlap (ctx.bs.request 1) 4096 ∧
        InOverlap (ctx.bs.request 3) 4096 ∧
      ((ctx.bs.request 1).serialising = false ∧ (ctx.bs.request 3).serialising = false) ∧
      Acyclic (waitsFor ctx.bs) := by
  have possible : (run AioContext.step (.start fun _ => .initial 0 0#64 0#64) sampleCalls).isSome :=
    by decide +kernel
  obtain ⟨ctx, ran⟩ := isSome_iff_exists.mp possible
  have facts : ∀ found ∈ run AioContext.step (.start fun _ => .initial 0 0#64 0#64) sampleCalls,
      found.Serves 1 ∧ found.Serves 3 ∧ InOverlap (found.bs.request 1) 4096 ∧
          InOverlap (found.bs.request 3) 4096 := by
    decide +kernel
  obtain ⟨serves1, serves3, in1, in3⟩ := facts ctx ran
  obtain ⟨excludes, acyclic⟩ := serialising_excludes _ sampleCalls ctx ran
  exact ⟨ctx, ran, serves1, serves3, in1, in3,
    excludes 1 3 4096 (by decide) serves1 serves3 in1 in3, acyclic⟩

end Qemu.Block
