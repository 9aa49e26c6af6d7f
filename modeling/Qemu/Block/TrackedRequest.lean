import Qemu.Lib.Transition

/-! Tracked requests of a block driver state, and who waits for them. -/

namespace Qemu.Block

/-- Requests and coroutines are addresses. -/
structure BdrvTrackedRequest (Req Co : Type) where
  offset : BitVec 64
  bytes : BitVec 64
  serialising : Bool
  overlapOffset : BitVec 64
  overlapBytes : BitVec 64
  co : Co
  waitQueue : List Co
  waitingFor : Option Req

/-- The value that `tracked_request_begin` gives a request. -/
def BdrvTrackedRequest.initial {Req Co : Type} (co : Co) (offset bytes : BitVec 64) :
    BdrvTrackedRequest Req Co where
  offset := offset
  bytes := bytes
  serialising := false
  overlapOffset := offset
  overlapBytes := bytes
  co := co
  waitQueue := []
  waitingFor := none

/-- The tracking part of a `BlockDriverState`, and the requests' memory. -/
structure BlockDriverState (Req Co : Type) where
  trackedRequests : List Req
  /-- An `unsigned int` in the source, which only 2^32 tracked requests would wrap. -/
  serialisingInFlight : Nat
  request : Req → BdrvTrackedRequest Req Co

variable {Req Co : Type} [DecidableEq Req]

/-- Change a request in place. -/
def BlockDriverState.modify (bs : BlockDriverState Req Co) (req : Req)
    (change : BdrvTrackedRequest Req Co → BdrvTrackedRequest Req Co) : BlockDriverState Req Co :=
  { bs with request := Function.update bs.request req (change (bs.request req)) }

theorem BlockDriverState.request_modify_self (bs : BlockDriverState Req Co) (req)
    (change : BdrvTrackedRequest Req Co → BdrvTrackedRequest Req Co) :
    (bs.modify req change).request req = change (bs.request req) := Function.update_self _ _ _

theorem BlockDriverState.request_modify_of_ne (bs : BlockDriverState Req Co) {req r}
    (change : BdrvTrackedRequest Req Co → BdrvTrackedRequest Req Co) (other : r ≠ req) :
    (bs.modify req change).request r = bs.request r := Function.update_of_ne other _ _

variable [DecidableEq Co]

/-- If its assertion holds. -/
def trackedRequestBegin (bs : BlockDriverState Req Co) (req : Req) (co : Co)
    (offset bytes : BitVec 64) : Option (BlockDriverState Req Co) :=
  -- The comparison is between unsigned numbers, so that a negative offset fails it too.
  if bytes ≤ BitVec.intMax 64 ∧ offset ≤ BitVec.intMax 64 - bytes then
    some { bs with
      trackedRequests := req :: bs.trackedRequests
      request := Function.update bs.request req (.initial co offset bytes) }
  else none

/-- With the coroutines that it wakes. -/
def trackedRequestEnd (bs : BlockDriverState Req Co) (req : Req) :
    BlockDriverState Req Co × List Co :=
  ({ (bs.modify req fun self => { self with waitQueue := [] }) with
      trackedRequests := bs.trackedRequests.erase req
      serialisingInFlight :=
        if (bs.request req).serialising then bs.serialisingInFlight - 1
          else bs.serialisingInFlight }, (bs.request req).waitQueue)

/-- The overlap range meets another range. -/
def trackedRequestOverlaps (req : BdrvTrackedRequest Req Co) (offset bytes : BitVec 64) : Bool :=
  if offset ≥ req.overlapOffset + req.overlapBytes then false
  else if req.overlapOffset ≥ offset + bytes then false
  else true

/-- How a pass over the tracked requests ends. -/
inductive Pass (Req : Type) where
  | goesOn
  | waitsFor (req : Req)
  | aborts

/-- The rest of the pass of `bdrv_wait_serialising_requests_locked`. -/
def waitPass (bs : BlockDriverState Req Co) (self : Req) : List Req → Pass Req
  | [] => .goesOn
  | req :: rest =>
    if req = self ∨ ((bs.request req).serialising = false ∧
      (bs.request self).serialising = false) then waitPass bs self rest
    else if trackedRequestOverlaps (bs.request req) (bs.request self).overlapOffset
      (bs.request self).overlapBytes then
      -- A coroutine would wait for itself.
      if (bs.request self).co = (bs.request req).co then .aborts
      else match (bs.request req).waitingFor with
        | none => .waitsFor req
        -- The request will wait for this one when it wakes up, at the latest.
        | some _ => waitPass bs self rest
    else waitPass bs self rest

/-- The loop of `bdrv_wait_serialising_requests_locked` until it is left or yields, which the second
component says. -/
def bdrvWaitSerialisingRequestsLocked (bs : BlockDriverState Req Co) (self : Req) :
    Option (BlockDriverState Req Co × Bool) :=
  match waitPass bs self bs.trackedRequests with
  | .goesOn => some (bs, false)
  | .waitsFor req =>
    some ((bs.modify self fun r => { r with waitingFor := some req }).modify req
      fun r => { r with waitQueue := r.waitQueue ++ [(bs.request self).co] }, true)
  | .aborts => none

/-- The loop when the coroutine wakes up: it waits no longer, and retries. -/
def bdrvWaitSerialisingRequestsResume (bs : BlockDriverState Req Co) (self : Req) :
    Option (BlockDriverState Req Co × Bool) :=
  bdrvWaitSerialisingRequestsLocked (bs.modify self fun r => { r with waitingFor := none }) self

/-- What `bdrv_mark_request_serialising` extends a range to. -/
def serialisingRange (req : BdrvTrackedRequest Req Co)
    (align : BitVec 64) : BitVec 64 × BitVec 64 :=
  let overlapOffset := req.offset &&& ~~~(align - 1#64)
  let overlapBytes := ((req.offset + req.bytes + align - 1#64) &&& -align) - overlapOffset
  -- Offsets are signed, sizes are not.
  (if req.overlapOffset.slt overlapOffset then req.overlapOffset else overlapOffset,
    if req.overlapBytes > overlapBytes then req.overlapBytes else overlapBytes)

/-- The part of `bdrv_mark_request_serialising` before it waits. -/
def markSerialising (bs : BlockDriverState Req Co) (req : Req)
    (align : BitVec 64) : BlockDriverState Req Co :=
  let range := serialisingRange (bs.request req) align
  { (bs.modify req fun r => { r with
    serialising := true, overlapOffset := range.1, overlapBytes := range.2 }) with
    serialisingInFlight :=
      if (bs.request req).serialising then bs.serialisingInFlight else bs.serialisingInFlight + 1 }

/-- Mark and wait. -/
def bdrvMarkRequestSerialising (bs : BlockDriverState Req Co) (req : Req) (align : BitVec 64) :
    Option (BlockDriverState Req Co × Bool) :=
  bdrvWaitSerialisingRequestsLocked (markSerialising bs req align) req

/-- Wait if some request is serialising. -/
def bdrvWaitSerialisingRequests (bs : BlockDriverState Req Co) (self : Req) :
    Option (BlockDriverState Req Co × Bool) :=
  if bs.serialisingInFlight = 0 then some (bs, false)
  else bdrvWaitSerialisingRequestsLocked bs self

/-- Where a coroutine is: in its caller, or waiting for a request. -/
inductive CoState (Req : Type) where
  | calls
  | waits (self : Req)
  | woken (self : Req)
deriving DecidableEq

/-- The coroutines of one `AioContext`: another one runs only when the running one yields. No caller
yields between `tracked_request_begin` and the first wait, and `reqs_lock` is never contended, so a
request that has begun keeps all others from running until its first wait. -/
structure AioContext (Req Co : Type) where
  bs : BlockDriverState Req Co
  coroutine : Co → CoState Req
  /-- The request that has begun and not come to its first wait. -/
  entering : Option Req
  /-- Requests that are past their first wait. -/
  past : Req → Bool

/-- What the coroutine that runs does next. -/
inductive Call (Req Co : Type) where
  | begins (req : Req) (co : Co) (offset bytes : BitVec 64)
  | marks (req : Req) (align : BitVec 64)
  | waits (req : Req)
  | wakes (co : Co)
  | ends (req : Req)

/-- A power of two in 64 bits. -/
def IsAlignment (align : BitVec 64) : Prop := ∃ bits < 64, align = 1#64 <<< bits

instance (align : BitVec 64) : Decidable (IsAlignment align) :=
  inferInstanceAs (Decidable (∃ bits < 64, align = 1#64 <<< bits))

/-- The coroutine is in the wait loop from now on, or past it. -/
def AioContext.afterWait (ctx : AioContext Req Co) (self : Req)
    (waited : BlockDriverState Req Co × Bool) : AioContext Req Co :=
  { bs := waited.1
    coroutine := Function.update ctx.coroutine (waited.1.request self).co
      (if waited.2 then .waits self else .calls)
    entering := none
    past := Function.update ctx.past self (!waited.2 || ctx.past self) }

/-- The coroutine of a request can make a call on behalf of it. -/
def AioContext.Calls (ctx : AioContext Req Co) (req : Req) : Prop :=
  req ∈ ctx.bs.trackedRequests ∧ ctx.coroutine (ctx.bs.request req).co = .calls ∧
    (ctx.entering = some req ∨ (ctx.entering = none ∧ ctx.past req = true))

instance (ctx : AioContext Req Co) (req : Req) : Decidable (ctx.Calls req) :=
  inferInstanceAs (Decidable (_ ∧ _ ∧ _))

/-- A coroutine that waits in a queue is woken, `aio_co_wake`. -/
def CoState.wake : CoState Req → CoState Req
  | .waits self => .woken self
  | other => other

/-- A request ends, and the coroutines that wait for it are woken. -/
def AioContext.afterEnd (ctx : AioContext Req Co) (req : Req) : AioContext Req Co :=
  let (bs, woken) := trackedRequestEnd ctx.bs req
  { ctx with
    bs
    entering := none
    coroutine := fun co => if co ∈ woken then (ctx.coroutine co).wake else ctx.coroutine co }

/-- One call, up to where the coroutine yields or the call returns. -/
def AioContext.step (ctx : AioContext Req Co) : Call Req Co → Option (AioContext Req Co)
  | .begins req co offset bytes =>
    if ctx.entering = none ∧ ctx.coroutine co = .calls ∧ req ∉ ctx.bs.trackedRequests then
      (trackedRequestBegin ctx.bs req co offset bytes).map fun bs =>
        { ctx with bs, entering := some req, past := Function.update ctx.past req false }
    else none
  -- A request is marked before its first wait, which is part of the call.
  | .marks req align =>
    if ctx.Calls req ∧ ctx.entering = some req ∧ IsAlignment align then
      (bdrvMarkRequestSerialising ctx.bs req align).map (ctx.afterWait req)
    else none
  | .waits req =>
    if ctx.Calls req then (bdrvWaitSerialisingRequests ctx.bs req).map (ctx.afterWait req) else none
  | .wakes co =>
    match ctx.entering, ctx.coroutine co with
    | none, .woken self => (bdrvWaitSerialisingRequestsResume ctx.bs self).map (ctx.afterWait self)
    | _, _ => none
  | .ends req => if ctx.Calls req then some (ctx.afterEnd req) else none

/-- The state before the first request, with anything in their memory. -/
def AioContext.start (request : Req → BdrvTrackedRequest Req Co) : AioContext Req Co :=
  { bs := { trackedRequests := [], serialisingInFlight := 0, request }
    coroutine := fun _ => .calls
    entering := none
    past := fun _ => false }

end Qemu.Block
