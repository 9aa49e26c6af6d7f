import Mathlib.Data.BitVec
import Qemu.Lib.Transition

/-! The coroutine mutex: every access of lock, unlock and the wait queue is one step. -/

namespace Qemu.Coroutine

variable {Co Ctx : Type}

/-- Who runs `pop_waiter` and `qemu_co_mutex_wake`: the slow path of a lock, or an unlock. -/
inductive Caller (Ctx : Type) where
  | lock (ctx : Ctx)
  | unlock
deriving DecidableEq

/-- Where a coroutine is: each constructor is named after the access it does next. -/
inductive Pc (Co Ctx : Type) where
  /-- In neither function and without the mutex. -/
  | outside
  -- `qemu_co_mutex_lock`
  | fastPath (ctx : Ctx) (i : Nat)
  | spinCtx (ctx : Ctx) (i : Nat)
  | spinLocked (ctx : Ctx) (i : Nat)
  | fetchInc (ctx : Ctx)
  | setCtx (ctx : Ctx)
  | setHolder
  -- `qemu_co_mutex_lock_slowpath`: `saved` is the head that the atomic insertion has read
  | pushRead (ctx : Ctx)
  | pushCmpxchg (ctx : Ctx) (saved : Option Co)
  | readHandoff (ctx : Ctx)
  | lockToPop (ctx : Ctx) (oldHandoff : BitVec 32)
  | lockFromPush (ctx : Ctx) (oldHandoff : BitVec 32)
  | takeHandoff (ctx : Ctx) (oldHandoff : BitVec 32)
  | yielded
  /-- Between the two functions, with the mutex. -/
  | holding
  -- `qemu_co_mutex_unlock`
  | assertLocked
  | assertHolder
  | clearCtx
  | clearHolder
  | fetchDec
  | nextSequence
  | setHandoff (ourHandoff : BitVec 32)
  | unlockToPop (ourHandoff : BitVec 32)
  | unlockFromPush (ourHandoff : BitVec 32)
  | retakeHandoff (ourHandoff : BitVec 32)
  -- `pop_waiter` with `move_waiters` inside
  | popEmpty (caller : Caller Ctx)
  | moveAll (caller : Caller Ctx)
  | moveNext (caller : Caller Ctx) (reversed : List Co)
  | popStillEmpty (caller : Caller Ctx)
  | popHead (caller : Caller Ctx)
  -- `qemu_co_mutex_wake`
  | wakeCtx (caller : Caller Ctx) (co : Co)
  | wakeCo (caller : Caller Ctx) (co : Co)
  /-- A failed assertion or a dereferenced NULL. -/
  | fault
deriving DecidableEq

/-- The mutex; a wait record is named by its coroutine, on whose stack it lives. -/
structure CoMutex (Co Ctx : Type) where
  locked : BitVec 32
  ctx : Option Ctx
  fromPush : List Co
  toPop : List Co
  handoff : BitVec 32
  sequence : BitVec 32
  holder : Option Co

/-- The mutex and its coroutines: where each is, whether it is woken, its context. -/
structure State (Co Ctx : Type) extends CoMutex Co Ctx where
  pc : Co → Pc Co Ctx
  woken : Co → Bool
  coCtx : Co → Ctx

/-- The state after `qemu_co_mutex_init`. -/
def initial (coCtx : Co → Ctx) : State Co Ctx where
  locked := 0
  ctx := none
  fromPush := []
  toPop := []
  handoff := 0
  sequence := 0
  holder := none
  pc := fun _ => .outside
  woken := fun _ => false
  coCtx := coCtx

/-- The test of the spin loop, `waiters == 1 && ++i < 1000`. -/
def spin (ctx : Ctx) (waiters : BitVec 32) (i : Nat) : Pc Co Ctx :=
  if waiters = 1 ∧ i + 1 < 1000 then .spinCtx ctx (i + 1) else .fetchInc ctx

/-- The caller goes on with the record that `pop_waiter` returned. -/
def popped [DecidableEq Co] (self : Co) (toWake : Option Co) : Caller Ctx → Pc Co Ctx
  | .lock ctx =>
    match toWake with
    | none => .fault
    | some co => if co = self then .setCtx ctx else .wakeCtx (.lock ctx) co
  | .unlock =>
    match toWake with
    | none => .nextSequence
    | some co => .wakeCtx .unlock co

/-- After `qemu_co_mutex_wake` a locker yields, and an unlock returns. -/
def awoke : Caller Ctx → Pc Co Ctx
  | .lock _ => .yielded
  | .unlock => .outside

/-- `if (++mutex->sequence == 0) mutex->sequence = 1`. -/
def bump (sequence : BitVec 32) : BitVec 32 :=
  if sequence + 1 = 0 then 1 else sequence + 1

variable [DecidableEq Co]

/-- A coroutine goes to another place. -/
def State.goto (s : State Co Ctx) (self : Co) (pc : Pc Co Ctx) : State Co Ctx :=
  { s with pc := Function.update s.pc self pc }

variable [DecidableEq Ctx]

/-- The next access of a coroutine; `none` while it sleeps or is in neither function. -/
def advance (s : State Co Ctx) (self : Co) : Option (State Co Ctx) :=
  match s.pc self with
  | .outside => none
  | .fastPath ctx i =>
    if s.locked = 0 then some ({ s with locked := 1 }.goto self (.setCtx ctx))
    else some (s.goto self (spin ctx s.locked i))
  | .spinCtx ctx i =>
    if s.ctx = some ctx then some (s.goto self (.fetchInc ctx))
      else some (s.goto self (.spinLocked ctx i))
  | .spinLocked ctx i =>
    if s.locked = 0 then some (s.goto self (.fastPath ctx i)) else some (s.goto self (spin ctx 1 i))
  | .fetchInc ctx =>
    if s.locked = 0 then some ({ s with locked := s.locked + 1 }.goto self (.setCtx ctx))
    else some ({ s with locked := s.locked + 1 }.goto self (.pushRead ctx))
  | .setCtx ctx => some ({ s with ctx := some ctx }.goto self .setHolder)
  | .setHolder => some ({ s with holder := some self }.goto self .holding)
  | .pushRead ctx => some (s.goto self (.pushCmpxchg ctx s.fromPush.head?))
  | .pushCmpxchg ctx saved =>
    if s.fromPush.head? = saved then some ({ s with
      fromPush := self :: s.fromPush }.goto self (.readHandoff ctx))
    else some (s.goto self (.pushRead ctx))
  | .readHandoff ctx =>
    if s.handoff = 0 then some (s.goto self .yielded)
      else some (s.goto self (.lockToPop ctx s.handoff))
  -- `has_waiters` is true if one of the two lists is empty
  | .lockToPop ctx oldHandoff =>
    if s.toPop = [] then some (s.goto self (.takeHandoff ctx oldHandoff))
    else some (s.goto self (.lockFromPush ctx oldHandoff))
  | .lockFromPush ctx oldHandoff =>
    if s.fromPush = [] then some (s.goto self (.takeHandoff ctx oldHandoff))
      else some (s.goto self .yielded)
  | .takeHandoff ctx oldHandoff =>
    if s.handoff = oldHandoff then some ({ s with handoff := 0 }.goto self (.popEmpty (.lock ctx)))
    else some (s.goto self .yielded)
  | .yielded =>
    if s.woken self then some ({ s with woken := Function.update s.woken self false }.goto
      self .setHolder) else none
  | .holding => none
  | .assertLocked => if s.locked = 0 then some (s.goto self .fault)
      else some (s.goto self .assertHolder)
  | .assertHolder => if s.holder = some self then some (s.goto self .clearCtx)
      else some (s.goto self .fault)
  | .clearCtx => some ({ s with ctx := none }.goto self .clearHolder)
  | .clearHolder => some ({ s with holder := none }.goto self .fetchDec)
  | .fetchDec =>
    if s.locked = 1 then some ({ s with locked := s.locked - 1 }.goto self .outside)
    else some ({ s with locked := s.locked - 1 }.goto self (.popEmpty .unlock))
  | .nextSequence => some ({ s with sequence := bump s.sequence }.goto self
      (.setHandoff (bump s.sequence)))
  | .setHandoff ourHandoff => some ({ s with
    handoff := ourHandoff }.goto self (.unlockToPop ourHandoff))
  | .unlockToPop ourHandoff =>
    if s.toPop = [] then some (s.goto self (.retakeHandoff ourHandoff))
    else some (s.goto self (.unlockFromPush ourHandoff))
  | .unlockFromPush ourHandoff =>
    if s.fromPush = [] then some (s.goto self (.retakeHandoff ourHandoff))
      else some (s.goto self .outside)
  | .retakeHandoff ourHandoff =>
    if s.handoff = ourHandoff then some ({ s with handoff := 0 }.goto self (.popEmpty .unlock))
    else some (s.goto self .outside)
  | .popEmpty caller =>
    if s.toPop = [] then some (s.goto self (.moveAll caller))
      else some (s.goto self (.popHead caller))
  | .moveAll caller => some ({ s with fromPush := [] }.goto self (.moveNext caller s.fromPush))
  | .moveNext caller [] => some (s.goto self (.popStillEmpty caller))
  | .moveNext caller (w :: reversed) =>
      some ({ s with toPop := w :: s.toPop }.goto self (.moveNext caller reversed))
  | .popStillEmpty caller =>
    if s.toPop = [] then some (s.goto self (popped self none caller))
      else some (s.goto self (.popHead caller))
  | .popHead caller => some ({ s with
    toPop := s.toPop.tail }.goto self (popped self s.toPop.head? caller))
  | .wakeCtx caller co => some ({ s with ctx := some (s.coCtx co) }.goto self (.wakeCo caller co))
  | .wakeCo caller co =>
      some ({ s with woken := Function.update s.woken co true }.goto self (awoke caller))
  | .fault => none

/-- A coroutine calls one of the two functions, or does its next access. -/
inductive Action (Ctx : Type) where
  /-- An outside coroutine that runs in a context calls `qemu_co_mutex_lock`. -/
  | lock (ctx : Ctx)
  /-- The coroutine that lock has returned to calls `qemu_co_mutex_unlock`. -/
  | unlock
  | next

/-- One step of one coroutine. -/
def step (s : State Co Ctx) : Co × Action Ctx → Option (State Co Ctx)
  | (self, .lock ctx) =>
    if s.pc self = .outside then
      some ({ s with coCtx := Function.update s.coCtx self ctx }.goto self (.fastPath ctx 0))
    else none
  | (self, .unlock) => if s.pc self = .holding then some (s.goto self .assertLocked) else none
  | (self, .next) => advance s self

end Qemu.Coroutine
