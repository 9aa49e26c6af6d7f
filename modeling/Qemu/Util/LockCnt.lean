import Mathlib.Data.BitVec
import Qemu.Lib.Transition

/-! The counting lock on a futex: state and counter in one word, each atomic access and system call
a step. -/

namespace Qemu.LockCnt

/-- `QEMU_LOCKCNT_STATE_FREE`. -/
abbrev stateFree : BitVec 32 := 0

/-- `QEMU_LOCKCNT_STATE_LOCKED`. -/
abbrev stateLocked : BitVec 32 := 1

/-- `QEMU_LOCKCNT_STATE_WAITING`. -/
abbrev stateWaiting : BitVec 32 := 2

/-- `QEMU_LOCKCNT_COUNT_STEP`. -/
abbrev countStep : BitVec 32 := 4

/-- The lock state of a word, its bits under `QEMU_LOCKCNT_STATE_MASK`. -/
def lockState (word : BitVec 32) : BitVec 32 := word &&& 3

/-- The counter of a word, its bits above `QEMU_LOCKCNT_COUNT_SHIFT`. -/
def counter (word : BitVec 32) : Nat := word.toNat / 4

/-- The functions that call `qemu_lockcnt_cmpxchg_or_wait`. -/
inductive Op where
  | inc
  | decAndLock
  | decIfLock
  | lock
deriving DecidableEq

/-- `locked` is `locked_state` in the decrements and `step` in lock. -/
structure Local where
  val : BitVec 32
  waited : Bool
  locked : BitVec 32
deriving DecidableEq

/-- Where a thread is, named after the access or system call it does next. -/
inductive Pc where
  /-- In none of the functions; the last call returned this. -/
  | idle (returned : Option Bool)
  -- the first `atomic_read` of an operation, and its cmpxchg around the lock
  | read (op : Op)
  | fast (op : Op) (l : Local)
  -- `qemu_lockcnt_cmpxchg_or_wait`
  | tryFree (op : Op) (l : Local)
  | markWaiting (op : Op) (l : Local)
  | futexWait (op : Op) (l : Local)
  | sleeping (op : Op) (l : Local)
  | reread (op : Op) (l : Local)
  | aborted
  /-- `lockcnt_wake`, the last thing of a call. -/
  | wake (returned : Option Bool)
  -- `qemu_lockcnt_dec`
  | sub
  -- `qemu_lockcnt_unlock`, or `qemu_lockcnt_inc_and_unlock`
  | unlockRead (andInc : Bool)
  | unlockCmpxchg (andInc : Bool) (val : BitVec 32)
deriving DecidableEq

/-- A thread, with the counts it owns and whether it holds the lock. -/
structure Thread where
  pc : Pc
  holds : Bool
  owned : Nat

/-- The word and the threads. -/
structure State (Tid : Type) where
  count : BitVec 32
  thread : Tid → Thread

/-- `new_if_free` of the callers of `qemu_lockcnt_cmpxchg_or_wait`. -/
def newIfFree (l : Local) : Op → BitVec 32
  | .inc => countStep
  | .decAndLock | .decIfLock => l.locked
  | .lock => l.val + l.locked

/-- The end of a call: a thread that has waited wakes another one. -/
def leave (l : Local) (returned : Option Bool) : Pc :=
  if l.waited then .wake returned else .idle returned

/-- A turn of `qemu_lockcnt_cmpxchg_or_wait`'s slow path, with the lock in `*val`. -/
def slowPath (op : Op) (l : Local) : Pc :=
  if lockState l.val = stateLocked then .markWaiting op l
  else if lockState l.val = stateWaiting then .futexWait op { l with waited := true }
  else .aborted

/-- The call of `qemu_lockcnt_cmpxchg_or_wait`. -/
def cmpxchgOrWait (op : Op) (l : Local) : Pc :=
  if lockState l.val = stateFree then .tryFree op l else slowPath op l

/-- The test at the head of the callers' loops. -/
def loopHead (op : Op) (l : Local) : Pc :=
  match op with
  | .inc => if countStep.sle l.val then .fast .inc l else cmpxchgOrWait .inc l
  | .decAndLock => if (2 * countStep).sle l.val then .fast .decAndLock l
      else cmpxchgOrWait .decAndLock l
  | .decIfLock => if l.val.slt (2 * countStep) then cmpxchgOrWait .decIfLock l
      else leave l (some false)
  | .lock => cmpxchgOrWait .lock l

/-- The slow path's test: `qemu_lockcnt_cmpxchg_or_wait` returns false if the lock is free, and one
who has waited will leave it contended. -/
def waitLoop (op : Op) (l : Local) : Pc :=
  if lockState l.val = stateFree then
    loopHead op { l with locked := if l.waited then stateWaiting else l.locked }
  else slowPath op l

/-- The value of the cmpxchg around the lock. -/
def fastValue (l : Local) : Op → BitVec 32
  | .inc => l.val + countStep
  | _ => l.val - countStep

/-- What an operation returns when it leaves by the cmpxchg around the lock. -/
def fastReturns : Op → Option Bool
  | .inc => none
  | _ => some false

/-- A thread leaves by the cmpxchg around the lock. -/
def Thread.leaveFast (t : Thread) (l : Local) (op : Op) : Thread where
  pc := leave l (fastReturns op)
  holds := t.holds
  owned := if op = .inc then t.owned + 1 else t.owned - 1

/-- `qemu_lockcnt_cmpxchg_or_wait` returns true. -/
def Thread.gotFree (t : Thread) (l : Local) : Op → Thread
  | .inc => { pc := leave l none, holds := t.holds, owned := t.owned + 1 }
  | .decAndLock | .decIfLock => { pc := .idle (some true), holds := true, owned := t.owned - 1 }
  | .lock => { pc := .idle none, holds := true, owned := t.owned }

/-- The value that an unlock stores. -/
def unlockValue (andInc : Bool) (val : BitVec 32) : BitVec 32 :=
  if andInc then (val + countStep) &&& ~~~3 else val &&& ~~~3

/-- An unlock has stored its value. -/
def Thread.unlocked (t : Thread) (andInc : Bool) (val : BitVec 32) : Thread where
  pc := if val &&& stateWaiting ≠ 0 then .wake none else .idle none
  holds := false
  owned := if andInc then t.owned + 1 else t.owned

/-- A thread sleeps in the futex wait. -/
def Pc.sleeps : Pc → Bool
  | .sleeping _ _ => true
  | _ => false

/-- What a thread does. -/
inductive Action (Tid : Type) where
  /-- It calls a function that takes or waits for the lock. -/
  | call (op : Op)
  /-- It calls `qemu_lockcnt_dec`. -/
  | dec
  /-- It calls `qemu_lockcnt_unlock` or `qemu_lockcnt_inc_and_unlock`. -/
  | unlock (andInc : Bool)
  /-- It does its next access. -/
  | next
  /-- Its `futex_wake` wakes a sleeping thread, if there is one. -/
  | wake (target : Option Tid)
  /-- A signal interrupts its futex wait, which is then called again. -/
  | interrupt

variable {Tid : Type} [DecidableEq Tid]

/-- The word and one thread change. -/
def State.set (s : State Tid) (self : Tid) (count : BitVec 32) (t : Thread) : State Tid where
  count := count
  thread := Function.update s.thread self t

/-- One thread goes elsewhere. -/
def State.goto (s : State Tid) (self : Tid) (pc : Pc) : State Tid :=
  s.set self s.count { s.thread self with pc }

/-- The next access of a thread. -/
def advance (s : State Tid) (self : Tid) : Option (State Tid) :=
  match (s.thread self).pc with
  | .read op =>
      some (s.goto self (loopHead op { val := s.count, waited := false, locked := stateLocked }))
  | .fast op l =>
    if s.count = l.val then some (s.set self (fastValue l op) ((s.thread self).leaveFast l op))
    else some (s.goto self (loopHead op { l with val := s.count }))
  | .tryFree op l =>
    if s.count = l.val then some (s.set self (newIfFree l op) ((s.thread self).gotFree l op))
    else some (s.goto self (waitLoop op { l with val := s.count }))
  | .markWaiting op l =>
    if s.count = l.val then
      some (s.set self (l.val - stateLocked + stateWaiting) { s.thread self with
        pc := waitLoop op { l with val := l.val - stateLocked + stateWaiting } })
    else some (s.goto self (waitLoop op { l with val := s.count }))
  | .futexWait op l =>
    -- the kernel compares and goes to sleep in one step
    if s.count = l.val then some (s.goto self (.sleeping op l))
      else some (s.goto self (.reread op l))
  | .reread op l => some (s.goto self (waitLoop op { l with val := s.count }))
  | .sub => some (s.set self (s.count - countStep) { s.thread self with
      pc := .idle none, owned := (s.thread self).owned - 1 })
  | .unlockRead andInc => some (s.goto self (.unlockCmpxchg andInc s.count))
  | .unlockCmpxchg andInc val =>
    if s.count = val then some (s.set self (unlockValue andInc val)
      ((s.thread self).unlocked andInc val))
    else some (s.goto self (.unlockCmpxchg andInc s.count))
  | .idle _ | .sleeping _ _ | .wake _ | .aborted => none

/-- A thread is in none of the functions. -/
def Pc.isIdle : Pc → Bool
  | .idle _ => true
  | _ => false

/-- A sleeping thread goes on. -/
def wakeUp (s : State Tid) (target : Tid) : Option (State Tid) :=
  match (s.thread target).pc with
  | .sleeping op l => some (s.goto target (.reread op l))
  | _ => none

variable [Fintype Tid]

/-- One step of a thread: the owner of a count decrements, the holder unlocks. -/
def step (s : State Tid) : Tid × Action Tid → Option (State Tid)
  | (self, .call op) =>
    if (s.thread self).pc.isIdle ∧
      ((op = .decAndLock ∨ op = .decIfLock) → 0 < (s.thread self).owned) then
      some (s.goto self (.read op))
    else none
  | (self, .dec) =>
    if (s.thread self).pc.isIdle ∧ 0 < (s.thread self).owned then some (s.goto self .sub) else none
  | (self, .unlock andInc) =>
    if (s.thread self).pc.isIdle ∧
      (s.thread self).holds then some (s.goto self (.unlockRead andInc)) else none
  | (self, .next) => advance s self
  | (self, .wake target) =>
    match (s.thread self).pc, target with
    | .wake returned, some target => wakeUp (s.goto self (.idle returned)) target
    | .wake returned, none =>
      if ∀ other, (s.thread other).pc.sleeps = false
        then some (s.goto self (.idle returned)) else none
    | _, _ => none
  | (self, .interrupt) =>
    match (s.thread self).pc with
    | .sleeping op l => some (s.goto self (.futexWait op l))
    | _ => none

/-- The state after `qemu_lockcnt_init`. -/
def initial : State Tid where
  count := 0
  thread := fun _ => { pc := .idle none, holds := false, owned := 0 }

end Qemu.LockCnt
