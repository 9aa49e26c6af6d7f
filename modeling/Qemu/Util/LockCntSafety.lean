import Qemu.Lib.Census
import Qemu.Util.LockCnt

/-! The counting lock: one holder, no increment from zero under it, no lost wake-up. -/

namespace Qemu.LockCnt

open Transition Census BitVec Option State Thread

variable {word locked : BitVec 32} {returned : Option Bool} {op : Op} {l : Local}

theorem toNat_lockState (word) : (lockState word).toNat = word.toNat % 4 := by
  rw [lockState, toNat_and]
  exact Nat.and_two_pow_sub_one_eq_mod word.toNat 2

theorem lockState_eq_iff {state} : lockState word = state ↔ word.toNat % 4 = state.toNat := by
  rw [← toNat_lockState, toNat_inj]

theorem lockState_add_countStep : lockState (word + countStep) = lockState word := by
  rw [lockState_eq_iff, toNat_lockState]
  bv_omega

theorem lockState_sub_countStep : lockState (word - countStep) = lockState word := by
  rw [lockState_eq_iff, toNat_lockState]
  bv_omega

theorem lockState_take (isFree : lockState word = stateFree) (small : locked.toNat < 4) :
    lockState (word + locked) = locked := by
  rw [lockState_eq_iff] at isFree ⊢
  bv_omega

theorem clear_add_lockState (word) : (word &&& ~~~(3 : BitVec 32)) + lockState word = word := by
  have apart : word &&& ~~~(3 : BitVec 32) &&& lockState word = 0 := by
    rw [lockState, BitVec.and_assoc,
      BitVec.and_comm word 3, ← BitVec.and_assoc (~~~(3 : BitVec 32))]
    simp
  rw [add_eq_or_of_and_eq_zero _ _ apart, lockState, ← BitVec.and_or_distrib_left]
  exact and_allOnes

theorem toNat_clear (word) : (word &&& ~~~(3 : BitVec 32)).toNat = word.toNat - word.toNat % 4 := by
  have sum := congrArg BitVec.toNat (clear_add_lockState word)
  rw [toNat_add, toNat_lockState] at sum
  omega

theorem lockState_unlockValue (andInc) : lockState (unlockValue andInc word) = stateFree := by
  rw [lockState_eq_iff]
  cases andInc
  · simp only [unlockValue, Bool.false_eq_true, ↓reduceIte, toNat_clear]
    simp
    omega
  · simp only [unlockValue, ↓reduceIte, toNat_clear]
    simp
    omega

theorem and_stateWaiting (isWaiting : lockState word = stateWaiting) :
    word &&& stateWaiting ≠ 0 := by
  have same : word &&& stateWaiting = lockState word &&& stateWaiting := by
    rw [lockState, BitVec.and_assoc]
    rfl
  rw [same, isWaiting]
  decide

theorem sle_iff {bound : BitVec 32} (small : bound.toNat < 2 ^ 31) (nonneg : word.toNat < 2 ^ 31) :
    bound.sle word ↔ bound.toNat ≤ word.toNat := by
  rw [sle_iff_toInt_le, toInt_eq_toNat_of_lt (by omega), toInt_eq_toNat_of_lt (by omega)]
  omega

/-- A thread was woken or is about to wake another: it will pass a wake-up on. -/
def Pc.obliged : Pc → Bool
  | .wake _ => true
  | .fast _ l | .tryFree _ l | .markWaiting _ l | .futexWait _ l | .reread _ l => l.waited
  | _ => false

/-- The lock state that a thread will leave is locked, contended or not. -/
def Marks (l : Local) : Prop :=
  l.locked = stateLocked ∨ l.locked = stateWaiting

/-- At the head of its loop a thread that has waited will leave the lock contended. -/
def Ready (l : Local) : Prop :=
  Marks l ∧ (l.waited = true → l.locked = stateWaiting)

/-- The value from which an operation changes the counter around the lock. -/
def threshold : Op → BitVec 32
  | .inc => countStep
  | _ => 2 * countStep

def Owns (op : Op) (owned : Nat) : Prop :=
  op = .decAndLock ∨ op = .decIfLock → 0 < owned

def Knows (t : Thread) : Prop :=
  match t.pc with
  | .read op => Owns op t.owned
  | .fast op l => Owns op t.owned ∧ Ready l ∧ (op = .inc ∨ op = .decAndLock) ∧
      (threshold op).sle l.val = true
  | .tryFree op l =>
    Owns op t.owned ∧ Ready l ∧ lockState l.val = stateFree ∧
      (op ≠ .lock → (threshold op).sle l.val = false)
  | .markWaiting op l => Owns op t.owned ∧ Marks l ∧ lockState l.val = stateLocked
  | .futexWait op l | .sleeping op l =>
    Owns op t.owned ∧ Marks l ∧ lockState l.val = stateWaiting ∧ l.waited = true
  | .reread op l => Owns op t.owned ∧ Marks l ∧ l.waited = true
  | .wake returned => returned ≠ some true
  | .sub => 0 < t.owned
  | .unlockRead _ | .unlockCmpxchg _ _ => t.holds = true
  | .aborted => False
  | .idle _ => True

/-- A place to which the local tests lead a thread. -/
structure Lands (op : Op) (l : Local) (pc : Pc) : Prop where
  knows : ∀ holds owned, Owns op owned → Knows { pc, holds, owned }
  awake : pc.sleeps = false
  obliged : l.waited = true → pc.obliged = true
  notTrue : pc ≠ .idle (some true)

theorem lands_leave (notTrue : returned ≠ some true) : Lands op l (leave l returned) := by
  unfold leave
  split
  · exact ⟨fun _ _ _ => notTrue, rfl, fun _ => rfl, by simp⟩
  · rename_i notWaited
    exact ⟨fun _ _ _ => trivial, rfl, fun waited => absurd waited notWaited, by simpa using notTrue⟩

/-- From a taken word the slow path lands where a thread may be. -/
theorem lands_slowPath (marks : Marks l) (valid : lockState l.val ≠ 3)
    (taken : lockState l.val ≠ stateFree) : Lands op l (slowPath op l) := by
  unfold slowPath
  split
  · rename_i isLocked
    exact ⟨fun _ _ owns => ⟨owns, marks, isLocked⟩, rfl, id, by simp⟩
  split
  · rename_i isWaiting
    exact ⟨fun _ _ owns => ⟨owns, marks, isWaiting, rfl⟩, rfl, fun _ => rfl, by simp⟩
  -- The mask has no other value.
  have small := Nat.mod_lt l.val.toNat (show 4 > 0 by omega)
  rw [← toNat_lockState] at small
  generalize lockState l.val = state at *
  bv_omega

theorem lands_cmpxchgOrWait (ready : Ready l) (valid : lockState l.val ≠ 3)
    (below : op ≠ .lock → (threshold op).sle l.val = false) : Lands op l (cmpxchgOrWait op l) := by
  unfold cmpxchgOrWait
  split
  · rename_i isFree
    exact ⟨fun _ _ owns => ⟨owns, ready, isFree, below⟩, rfl, id, by simp⟩
  · exact lands_slowPath ready.1 valid ‹_›

theorem lands_loopHead (ready : Ready l) (valid : lockState l.val ≠ 3) :
    Lands op l (loopHead op l) := by
  cases op with
  | inc | decAndLock =>
    simp only [loopHead]
    split
    · rename_i above
      exact ⟨fun _ _ owns => ⟨owns, ready, by simp, above⟩, rfl, id, by simp⟩
    · rename_i below
      exact lands_cmpxchgOrWait ready valid fun _ => Bool.eq_false_iff.mpr below
  | decIfLock =>
    simp only [loopHead]
    split
    · rename_i below
      refine lands_cmpxchgOrWait ready valid fun _ => Bool.eq_false_iff.mpr fun above => ?_
      have above : (2 * countStep).toInt ≤ l.val.toInt := sle_iff_toInt_le.mp above
      rw [slt_iff_toInt_lt] at below
      omega
    · exact lands_leave (by simp)
  | lock => exact lands_cmpxchgOrWait ready valid (by simp)

theorem lands_waitLoop (marks : Marks l) (valid : lockState l.val ≠ 3) :
    Lands op l (waitLoop op l) := by
  unfold waitLoop
  split
  · have ready : Ready { l with locked := if l.waited then stateWaiting else l.locked } := by
      constructor
      · unfold Marks
        split
        · exact .inr rfl
        · exact marks
      · intro waited
        exact if_pos waited
    have lands := @lands_loopHead op _ ready valid
    exact ⟨lands.knows, lands.awake, lands.obliged, lands.notTrue⟩
  · exact lands_slowPath marks valid ‹_›

section Steps

variable {Tid : Type}

/-- The word is in order, one thread holds a taken lock, no sleeper is forgotten. -/
structure Invariant (s : State Tid) : Prop where
  knows : ∀ tid, Knows (s.thread tid)
  valid : lockState s.count ≠ 3
  unique : ∀ tid other, (s.thread tid).holds = true → (s.thread other).holds = true → tid = other
  held : lockState s.count ≠ stateFree ↔ ∃ tid, (s.thread tid).holds = true
  covered : (∃ tid, (s.thread tid).pc.sleeps = true) →
    lockState s.count = stateWaiting ∨ ∃ tid, (s.thread tid).pc.obliged = true

/-- How a step changes the holder: not, by taking a free lock, or by releasing it. -/
def LockChange (count count' : BitVec 32) (t t' : Thread) : Prop :=
  (t'.holds = t.holds ∧ (lockState count' = stateFree ↔ lockState count = stateFree)) ∨
    (lockState count = stateFree ∧ t'.holds = true ∧ lockState count' ≠ stateFree) ∨
    (t.holds = true ∧ t'.holds = false ∧ lockState count' = stateFree)

/-- A thread is about to increment the counter. -/
def Pc.increments : Pc → Bool
  | .fast .inc _ | .tryFree .inc _ | .unlockCmpxchg true _ => true
  | _ => false

/-- What one step of a thread does to the word and to the thread. -/
structure Change (count count' : BitVec 32) (t t' : Thread) : Prop where
  knows : Knows t'
  valid : lockState count' ≠ 3
  lock : LockChange count count' t t'
  -- a wake-up is passed on, or the lock is left contended
  passes : t.pc.obliged = true → t'.pc.obliged = true ∨ lockState count' = stateWaiting
  releases : lockState count = stateWaiting → t'.pc.obliged = true ∨ lockState count' = stateWaiting
  sleeps : t'.pc.sleeps = true → lockState count' = stateWaiting
  fromZero : counter count = 0 → counter count' = 1 → lockState count = stateFree ∨ t.holds = true
  returns : t'.pc = .idle (some true) → counter count' = 0 ∧
    lockState count' ≠ stateFree ∧ t'.holds = true
  counts : counter count < 2 ^ 29 → t.owned ≤ counter count →
    (t.pc.increments = true → counter count + 1 < 2 ^ 29) →
    counter count' + t.owned = counter count + t'.owned ∧ counter count' < 2 ^ 29

variable [DecidableEq Tid] {s : State Tid} {self : Tid} {count' : BitVec 32}
    {t' : Thread} {s' : State Tid}

omit [DecidableEq Tid] in
theorem Invariant.free_iff (inv : Invariant s) :
    lockState s.count = stateFree ↔ ∀ tid, (s.thread tid).holds = false := by
  have held := inv.held
  rw [ne_eq, not_iff_comm] at held
  rw [← held]
  simp

theorem set_self : (s.set self count' t').thread self = t' := Function.update_self _ _ _

theorem set_of_ne {tid} (other : tid ≠ self) : (s.set self count' t').thread tid = s.thread tid :=
  Function.update_of_ne other _ _

theorem forall_set {P : Tid → Thread → Prop} (here : P self t')
    (others : ∀ tid, tid ≠ self → P tid (s.thread tid)) :
    ∀ tid, P tid ((s.set self count' t').thread tid) :=
  (Function.forall_update_iff s.thread P).mpr ⟨here, others⟩

/-- A thread's change of the word keeps one holder. -/
theorem Invariant.set_lock (inv : Invariant s)
    (change : LockChange s.count count' (s.thread self) t') :
    (∀ tid other, ((s.set self count' t').thread tid).holds →
      ((s.set self count' t').thread other).holds → tid = other) ∧
      (lockState count' ≠ stateFree ↔ ∃ tid, ((s.set self count' t').thread tid).holds) := by
  rcases change with ⟨same, state⟩ | ⟨isFree, takes, taken⟩ | ⟨held, releases, isFree⟩
  · -- The same thread holds the lock as before.
    have holds : ∀ tid, ((s.set self count' t').thread tid).holds = (s.thread tid).holds :=
      forall_set (P := fun tid t => t.holds = (s.thread tid).holds) same fun _ _ => rfl
    simp only [holds, ne_eq, state]
    exact ⟨inv.unique, inv.held⟩
  · -- Nobody held it, so the thread that takes it is the only one.
    have nobody := inv.free_iff.mp isFree
    have holder : ∀ tid, ((s.set self count' t').thread tid).holds = true → tid = self :=
      forall_set (P := fun tid t => t.holds = true → tid = self) (fun _ => rfl)
        fun tid _ holds => by rw [nobody tid] at holds; contradiction
    refine ⟨fun tid other first second => (holder tid first).trans (holder other second).symm, ?_⟩
    exact iff_of_true taken ⟨self, by rw [set_self]; exact takes⟩
  -- The thread that releases it was the only one.
  have nobody : ∀ tid, ((s.set self count' t').thread tid).holds = false :=
    forall_set (P := fun _ t => t.holds = false) releases fun tid other =>
      Bool.eq_false_iff.mpr fun holds => other (inv.unique tid self holds held)
  simp [nobody, isFree]

theorem Invariant.set (inv : Invariant s) (change : Change s.count count' (s.thread self) t') :
    Invariant (s.set self count' t') := by
  obtain ⟨unique, held⟩ := inv.set_lock change.lock
  refine ⟨?_, change.valid, unique, held, ?_⟩
  · exact forall_set (P := fun _ t => Knows t) change.knows fun tid _ => inv.knows tid
  · rintro ⟨sleeper, sleeps⟩
    have obliged (after : t'.pc.obliged = true ∨ lockState count' = stateWaiting) :
        lockState count' = stateWaiting ∨
          ∃ tid, ((s.set self count' t').thread tid).pc.obliged = true :=
      after.symm.imp_right fun obliged => ⟨self, by rw [set_self]; exact obliged⟩
    by_cases same : sleeper = self
    · rw [same, set_self] at sleeps
      exact .inl (change.sleeps sleeps)
    rw [set_of_ne same] at sleeps
    rcases inv.covered ⟨sleeper, sleeps⟩ with isWaiting | ⟨tid, isObliged⟩
    · exact obliged (change.releases isWaiting)
    · by_cases own : tid = self
      · subst own
        exact obliged (change.passes isObliged)
      · exact .inr ⟨tid, by rw [set_of_ne own]; exact isObliged⟩

variable {t : Thread} {count : BitVec 32} {pc : Pc}

theorem change_goto (valid : lockState count ≠ 3) (knows : Knows { t with pc })
    (passes : t.pc.obliged → pc.obliged ∨ lockState count = stateWaiting)
    (sleeps : pc.sleeps → lockState count = stateWaiting) (notTrue : pc ≠ .idle (some true)) :
    Change count count t { t with pc } where
  knows := knows
  valid := valid
  lock := .inl ⟨rfl, Iff.rfl⟩
  passes := passes
  releases := .inr
  sleeps := sleeps
  fromZero := fun zero one => by omega
  returns := fun returned => absurd returned notTrue
  counts := fun below _ _ => ⟨rfl, below⟩

theorem change_lands (valid : lockState count ≠ 3) (lands : Lands op l pc) (owns : Owns op t.owned)
    (waited : t.pc.obliged → l.waited) : Change count count t { t with pc } :=
  change_goto valid (lands.knows _ _ owns) (fun obliged => .inl (lands.obliged (waited obliged)))
    (fun sleeps => by rw [lands.awake] at sleeps; contradiction) lands.notTrue

/-- The cmpxchg around the lock. -/
theorem change_fast (here : t.pc = .fast op l) (knows : Knows t) (valid : lockState l.val ≠ 3) :
    Change l.val (fastValue l op) t (t.leaveFast l op) := by
  simp only [Knows, here] at knows
  obtain ⟨owns, ready, isFast, above⟩ := knows
  have state : lockState (fastValue l op) = lockState l.val := by
    rcases isFast with rfl | rfl
    · exact lockState_add_countStep
    · exact lockState_sub_countStep
  have lands : Lands op l (leave l (fastReturns op)) :=
    lands_leave (by rcases isFast with rfl | rfl <;> simp [fastReturns])
  -- The counter is above the threshold, if it is not negative.
  have bound (below : counter l.val < 2 ^ 29) : (threshold op).toNat ≤ l.val.toNat := by
    rw [counter] at below
    exact (sle_iff (by rcases isFast with rfl | rfl <;> decide) (by omega)).mp above
  constructor
  · simp only [leaveFast, leave]
    split
    · rcases isFast with rfl | rfl <;> simp [Knows, fastReturns]
    · exact trivial
  · rw [state]
    exact valid
  · exact .inl ⟨rfl, by rw [state]⟩
  · intro obliged
    simp only [here, Pc.obliged] at obliged
    exact .inl (lands.obliged obliged)
  · intro isWaiting
    exact .inr (state.trans isWaiting)
  · intro sleeps
    simp only [leaveFast, lands.awake] at sleeps
    contradiction
  · intro zero
    rcases isFast with rfl | rfl <;> simp [counter, threshold] at * <;> omega
  · intro returned
    exact absurd returned lands.notTrue
  · intro below owned room
    rcases isFast with rfl | rfl
    · have room := room (by rw [here]; rfl)
      simp only [counter, fastValue, threshold, leaveFast, ↓reduceIte] at *
      constructor <;> bv_omega
    · have owns := owns (.inl rfl)
      simp only [counter, fastValue, threshold, leaveFast, reduceCtorEq, ↓reduceIte] at *
      constructor <;> bv_omega

/-- The cmpxchg on a free lock. -/
theorem change_tryFree (here : t.pc = .tryFree op l) (knows : Knows t) :
    Change l.val (newIfFree l op) t (t.gotFree l op) := by
  simp only [Knows, here] at knows
  obtain ⟨owns, ⟨marks, contended⟩, isFree, below⟩ := knows
  have obliged_iff : t.pc.obliged = l.waited := by rw [here]; rfl
  have isFreeNat := lockState_eq_iff.mp isFree
  -- With a counter that is not negative the value is below the threshold.
  have small (bound : counter l.val < 2 ^ 29) (op_ne : op ≠ .lock) :
      l.val.toNat < (threshold op).toNat := by
    rw [counter] at bound
    refine Nat.lt_of_not_le fun above => ?_
    have isAbove := (sle_iff (by cases op <;> decide) (by omega)).mpr above
    rw [below op_ne] at isAbove
    contradiction
  cases op with
  | inc =>
    have lands : Lands .inc l (leave l none) := lands_leave (by simp)
    have stillFree : lockState countStep = stateFree := by decide
    exact {
      knows := lands.knows _ _ (by simp [Owns])
      valid := by rw [newIfFree, stillFree]; decide
      lock := .inl ⟨rfl, by rw [newIfFree, stillFree]; exact iff_of_true rfl isFree⟩
      passes := fun obliged => .inl (lands.obliged (obliged_iff ▸ obliged))
      releases := fun isWaiting => by rw [isFree] at isWaiting; contradiction
      sleeps := fun sleeps => by simp [gotFree, lands.awake] at sleeps
      fromZero := fun _ _ => .inl isFree
      returns := fun returned => absurd returned lands.notTrue
      counts := fun bound owned _ => by
        have small := small bound (by simp)
        simp only [counter, newIfFree, threshold, gotFree] at *
        constructor <;> bv_omega }
  | lock =>
    have state : lockState (l.val + l.locked) = l.locked :=
      lockState_take isFree (by rcases marks with eq | eq <;> rw [eq] <;> decide)
    exact {
      knows := trivial
      valid := by rw [newIfFree, state]; rcases marks with eq | eq <;> rw [eq] <;> decide
      lock := .inr (.inl ⟨isFree,
              rfl, by rw [newIfFree, state]; rcases marks with eq | eq <;> rw [eq] <;> decide⟩)
      passes := fun obliged => .inr (state.trans (contended (obliged_iff ▸ obliged)))
      releases := fun isWaiting => by rw [isFree] at isWaiting; contradiction
      sleeps := fun sleeps => nomatch sleeps
      fromZero := fun _ _ => .inl isFree
      returns := fun returned => nomatch returned
      counts := fun bound owned _ => by
        simp only [counter, newIfFree, gotFree] at *
        rcases marks with eq | eq <;> rw [eq] <;> constructor <;> bv_omega }
  | decAndLock | decIfLock =>
    have state : lockState l.locked =
      l.locked := by rcases marks with eq | eq <;> rw [eq] <;> decide
    have taken : l.locked ≠ stateFree := by rcases marks with eq | eq <;> rw [eq] <;> decide
    have zero : counter l.locked = 0 := by rcases marks with eq | eq <;> rw [eq] <;> decide
    exact {
      knows := trivial
      valid := by rw [newIfFree, state]; rcases marks with eq | eq <;> rw [eq] <;> decide
      lock := .inr (.inl ⟨isFree, rfl, by rw [newIfFree, state]; exact taken⟩)
      passes := fun obliged => .inr (state.trans (contended (obliged_iff ▸ obliged)))
      releases := fun isWaiting => by rw [isFree] at isWaiting; contradiction
      sleeps := fun sleeps => nomatch sleeps
      fromZero := fun _ _ => .inl isFree
      returns := fun _ => ⟨zero, by rw [newIfFree, state]; exact taken, rfl⟩
      counts := fun bound owned _ => by
        have small := small bound (by simp)
        have owns := owns (by simp)
        simp only [newIfFree, zero, gotFree]
        simp only [counter, threshold] at *
        constructor <;> bv_omega }

/-- The waiter marks the word before it sleeps. -/
theorem change_markWaiting (here : t.pc = .markWaiting op l) (knows : Knows t) :
    Change l.val (l.val - stateLocked + stateWaiting) t { t with
      pc := waitLoop op { l with val := l.val - stateLocked + stateWaiting } } := by
  simp only [Knows, here] at knows
  obtain ⟨owns, marks, isLocked⟩ := knows
  have lockState_mark : lockState (l.val - stateLocked + stateWaiting) = stateWaiting := by
    rw [lockState_eq_iff] at isLocked ⊢
    bv_omega
  have state := lockState_mark
  have isLockedNat := lockState_eq_iff.mp isLocked
  have lands : Lands op { l with val := l.val - stateLocked + stateWaiting }
      (waitLoop op { l with val := l.val - stateLocked + stateWaiting }) :=
    lands_waitLoop marks (by rw [state]; decide)
  have same : counter (l.val - stateLocked + stateWaiting) = counter l.val := by
    simp only [counter]
    bv_omega
  exact {
    knows := lands.knows _ _ owns
    valid := by rw [state]; decide
    lock := .inl ⟨rfl, by rw [state, isLocked]; decide⟩
    passes := fun _ => .inr state
    releases := fun _ => .inr state
    sleeps := fun _ => state
    fromZero := fun zero one => by omega
    returns := fun returned => absurd returned lands.notTrue
    counts := fun bound _ _ => ⟨by rw [same], by rw [same]; exact bound⟩ }

/-- Giving back a count leaves the lock as it is. -/
theorem change_sub (here : t.pc = .sub) (knows : Knows t) (valid : lockState count ≠ 3) :
    Change count (count - countStep) t { t with pc := .idle none, owned := t.owned - 1 } where
  knows := trivial
  valid := by rw [lockState_sub_countStep]; exact valid
  lock := .inl ⟨rfl, by rw [lockState_sub_countStep]⟩
  passes := fun obliged => by simp [here, Pc.obliged] at obliged
  releases := fun isWaiting => .inr (lockState_sub_countStep.trans isWaiting)
  sleeps := fun sleeps => nomatch sleeps
  fromZero := fun zero one => by
    simp only [counter] at zero one
    bv_omega
  returns := fun returned => nomatch returned
  counts := fun bound owned _ => by
    simp only [Knows, here] at knows
    simp only [counter] at *
    constructor <;> bv_omega

/-- Unlocking frees the word, with the count if asked. -/
theorem change_unlock {andInc val} (here : t.pc = .unlockCmpxchg andInc val) (knows : Knows t) :
    Change val (unlockValue andInc val) t (t.unlocked andInc val) := by
  simp only [Knows, here] at knows
  have pc : (t.unlocked andInc val).pc = .wake none ∨ (t.unlocked andInc val).pc = .idle none := by
    simp only [unlocked]
    split
    · exact .inl rfl
    · exact .inr rfl
  exact {
    knows := by rcases pc with eq | eq <;> simp [Knows, eq]
    valid := by rw [lockState_unlockValue]; decide
    lock := .inr (.inr ⟨knows, rfl, lockState_unlockValue andInc⟩)
    passes := fun obliged => by simp [here, Pc.obliged] at obliged
    releases := fun isWaiting => .inl (by rw [unlocked, if_pos (and_stateWaiting isWaiting)]; rfl)
    sleeps := fun sleeps => by rcases pc with eq | eq <;> simp [eq, Pc.sleeps] at sleeps
    fromZero := fun _ _ => .inr knows
    returns := fun returned => by rcases pc with eq | eq <;> simp [eq] at returned
    counts := fun bound owned room => by
      cases andInc with
      | false =>
        simp only [counter, unlockValue, unlocked, Bool.false_eq_true, ↓reduceIte, toNat_clear] at *
        omega
      | true =>
        have room := room (by rw [here]; rfl)
        simp only [counter, unlockValue, unlocked, ↓reduceIte, toNat_clear] at *
        have sum : (val + countStep).toNat = val.toNat + 4 := by bv_omega
        omega }

def Stepped (s s' : State Tid) (self : Tid) : Prop :=
  ∃ count' t', s' = s.set self count' t' ∧ Change s.count count' (s.thread self) t'

/-- Every access is such a step. -/
theorem advance_stepped (inv : Invariant s)
    (step : advance s self = some s') : Stepped s s' self := by
  have knows := inv.knows self
  have valid := inv.valid
  cases here : (s.thread self).pc with
  | idle | sleeping | wake | aborted => simp [advance, here] at step
  | read op =>
    simp only [advance, here, some.injEq] at step
    simp only [Knows, here] at knows
    refine ⟨_, _, step.symm, change_lands valid (lands_loopHead ⟨.inl rfl, nofun⟩ valid) knows ?_⟩
    simp [here, Pc.obliged]
  | fast op l =>
    simp only [advance, here] at step
    split at step
    all_goals cases step
    · rename_i same
      refine ⟨_, _, rfl, ?_⟩
      rw [same] at valid ⊢
      exact change_fast here knows valid
    · simp only [Knows, here] at knows
      refine ⟨_, _, rfl, change_lands valid (lands_loopHead knows.2.1 valid) knows.1 ?_⟩
      simp [here, Pc.obliged]
  | tryFree op l =>
    simp only [advance, here] at step
    split at step
    all_goals cases step
    · rename_i same
      refine ⟨_, _, rfl, ?_⟩
      rw [same]
      exact change_tryFree here knows
    · simp only [Knows, here] at knows
      refine ⟨_, _, rfl, change_lands valid (lands_waitLoop knows.2.1.1 valid) knows.1 ?_⟩
      simp [here, Pc.obliged]
  | markWaiting op l =>
    simp only [advance, here] at step
    split at step
    all_goals cases step
    · rename_i same
      refine ⟨_, _, rfl, ?_⟩
      rw [same]
      exact change_markWaiting here knows
    · simp only [Knows, here] at knows
      refine ⟨_, _, rfl, change_lands valid (lands_waitLoop knows.2.1 valid) knows.1 ?_⟩
      simp [here, Pc.obliged]
  | futexWait op l =>
    simp only [advance, here] at step
    simp only [Knows, here] at knows
    obtain ⟨owns, marks, isWaiting, waited⟩ := knows
    split at step
    all_goals cases step
    · -- The thread goes to sleep on a contended lock.
      rename_i same
      have contended : lockState s.count = stateWaiting := by rw [same]; exact isWaiting
      exact ⟨_, _, rfl, change_goto valid ⟨owns, marks, isWaiting, waited⟩ (fun _ => .inr contended)
        (fun _ => contended) (by simp)⟩
    · exact ⟨_, _, rfl, change_goto valid ⟨owns, marks, waited⟩
        (fun _ => .inl waited) nofun (by simp)⟩
  | reread op l =>
    simp only [advance, here, some.injEq] at step
    simp only [Knows, here] at knows
    refine ⟨_, _, step.symm, change_lands valid (lands_waitLoop knows.2.1 valid) knows.1 ?_⟩
    simp [here, Pc.obliged]
  | sub =>
    simp only [advance, here, some.injEq] at step
    exact ⟨_, _, step.symm, change_sub here knows valid⟩
  | unlockRead andInc =>
    simp only [advance, here, some.injEq] at step
    simp only [Knows, here] at knows
    refine ⟨_, _, step.symm, change_goto valid knows ?_ nofun (by simp)⟩
    simp [here, Pc.obliged]
  | unlockCmpxchg andInc val =>
    simp only [advance, here] at step
    split at step
    all_goals cases step
    · rename_i same
      refine ⟨_, _, rfl, ?_⟩
      rw [same]
      exact change_unlock here knows
    · simp only [Knows, here] at knows
      refine ⟨_, _, rfl, change_goto valid knows ?_ nofun (by simp)⟩
      simp [here, Pc.obliged]

theorem not_obliged_of_isIdle (isIdle : pc.isIdle) : pc.obliged ≠ true := by
  cases pc <;> simp_all [Pc.isIdle, Pc.obliged]

/-- `futex_wake`: the caller returns, and a sleeper goes on unless there is none. -/
structure Woken (s s' : State Tid) (caller : Tid) : Prop where
  count : s'.count = s.count
  holds : ∀ tid, (s'.thread tid).holds = (s.thread tid).holds
  owned : ∀ tid, (s'.thread tid).owned = (s.thread tid).owned
  knows : ∀ tid, Knows (s'.thread tid)
  notTrue : (s'.thread caller).pc ≠ .idle (some true)
  wakes : (∃ tid, (s'.thread tid).pc.sleeps = true) → ∃ tid, (s'.thread tid).pc.obliged = true

/-- The caller of `futex_wake` returns and a thread that slept reads the word. -/
theorem woken_some {target : Tid} (inv : Invariant s)
    (here : (s.thread self).pc = .wake returned)
    (woke : wakeUp (s.goto self (.idle returned)) target = some s') : Woken s s' self := by
  have selfKnows := inv.knows self
  have targetKnows := inv.knows target
  simp only [Knows, here] at selfKnows
  unfold wakeUp at woke
  split at woke
  · rename_i op l sleeping
    cases woke
    have other : target ≠ self := by
      rintro rfl
      rw [goto, set_self] at sleeping
      contradiction
    have asBefore : (s.goto self (.idle returned)).thread target = s.thread target :=
      set_of_ne other
    rw [asBefore] at sleeping
    simp only [Knows, sleeping] at targetKnows
    obtain ⟨owns, marks, -, waited⟩ := targetKnows
    -- The woken thread, the caller and the others.
    have everywhere {P : Tid → Thread → Prop}
      (woken : P target { s.thread target with pc := .reread op l })
        (caller : P self { s.thread self with pc := .idle returned })
          (others : ∀ tid, P tid (s.thread tid)) :
        ∀ tid, P tid (((s.goto self (.idle returned)).goto target (.reread op l)).thread tid) :=
      forall_set (by rw [asBefore]; exact woken) fun tid _ =>
        forall_set caller (fun tid _ => others tid) tid
    exact {
      count := rfl
      holds := everywhere (P := fun tid t => t.holds = (s.thread tid).holds) rfl rfl fun _ => rfl
      owned := everywhere (P := fun tid t => t.owned = (s.thread tid).owned) rfl rfl fun _ => rfl
      knows := everywhere (P := fun _ t => Knows t) ⟨owns, marks, waited⟩ trivial inv.knows
      notTrue := by rw [goto, set_of_ne other.symm, goto, set_self]; simpa using selfKnows
      wakes := fun _ => ⟨target, by rw [goto, set_self]; exact waited⟩ }
  · contradiction

/-- With nobody asleep a wake-up is no more than a return. -/
theorem woken_none (inv : Invariant s) (here : (s.thread self).pc = .wake returned)
    (nobody : ∀ other, (s.thread other).pc.sleeps = false) :
    Woken s (s.goto self (.idle returned)) self := by
  have knows := inv.knows self
  simp only [Knows, here] at knows
  exact {
    count := rfl
    holds := forall_set (P := fun tid t => t.holds = (s.thread tid).holds) rfl fun _ _ => rfl
    owned := forall_set (P := fun tid t => t.owned = (s.thread tid).owned) rfl fun _ _ => rfl
    knows := forall_set (P := fun _ t => Knows t) trivial fun tid _ => inv.knows tid
    notTrue := by rw [goto, set_self]; simpa using knows
    wakes := by
      have asleep : ∀ tid, ((s.goto self (.idle returned)).thread tid).pc.sleeps = false :=
        forall_set (P := fun _ t => t.pc.sleeps = false) rfl fun tid _ => nobody tid
      rintro ⟨tid, sleeps⟩
      rw [asleep tid] at sleeps
      contradiction }

variable [Fintype Tid]

theorem step_stepped (inv : Invariant s) {action} (notWake : ∀ target, action ≠ .wake target)
    (stepped : step s (self, action) = some s') : Stepped s s' self := by
  have valid := inv.valid
  cases action with
  | next => exact advance_stepped inv stepped
  | wake target => exact absurd rfl (notWake target)
  | call | dec | unlock =>
    simp only [step, ite_none_right_eq_some] at stepped
    obtain ⟨⟨isIdle, may⟩, ⟨⟩⟩ := stepped
    exact ⟨_, _, rfl, change_goto valid may
      (fun obliged => absurd obliged (not_obliged_of_isIdle isIdle)) nofun (by simp)⟩
  | interrupt =>
    have knows := inv.knows self
    simp only [step] at stepped
    split at stepped
    · rename_i op l here
      cases stepped
      simp only [Knows, here] at knows
      exact ⟨_, _, rfl, change_goto valid knows (fun _ => .inl knows.2.2.2) nofun (by simp)⟩
    · contradiction

/-- A step is a thread's own change or a wake-up. -/
theorem step_cases (inv : Invariant s) {label} (stepped : step s label = some s') :
    Stepped s s' label.1 ∨ (∃ target, label.2 = .wake target) ∧ Woken s s' label.1 := by
  obtain ⟨self, action⟩ := label
  by_cases isWake : ∃ target, action = .wake target
  · obtain ⟨target, rfl⟩ := isWake
    refine .inr ⟨⟨target, rfl⟩, ?_⟩
    simp only [step] at stepped
    split at stepped
    · exact woken_some inv ‹_› stepped
    · simp only [ite_none_right_eq_some] at stepped
      obtain ⟨nobody, ⟨⟩⟩ := stepped
      exact woken_none inv ‹_› nobody
    · contradiction
  · exact .inl (step_stepped inv (fun target isIt => isWake ⟨target, isIt⟩) stepped)

/-- Every step keeps the invariant. -/
theorem Invariant.step (inv : Invariant s) {label}
    (stepped : step s label = some s') : Invariant s' := by
  rcases step_cases inv stepped with ⟨count', t', rfl, change⟩ | ⟨-, woken⟩
  · exact inv.set change
  exact {
    knows := woken.knows
    valid := by rw [woken.count]; exact inv.valid
    unique := by simpa only [woken.holds] using inv.unique
    held := by simpa only [woken.holds, woken.count] using inv.held
    covered := fun sleeper => .inr (woken.wakes sleeper) }

end Steps

variable {Tid : Type}

theorem invariant_initial : Invariant (initial : State Tid) := by
  constructor <;> simp [initial, Knows, Pc.sleeps]
  · decide
  · decide

variable [Fintype Tid] {s s' : State Tid}

/-- The counter is the number of owned counts, and is not negative. -/
structure Exact (s : State Tid) : Prop where
  counts : counter s.count = census owned s.thread
  nonneg : counter s.count < 2 ^ 29

theorem exact_initial : Exact (initial : State Tid) := by
  have none : census owned (initial : State Tid).thread = 0 := census_eq_zero fun _ => rfl
  exact ⟨by rw [none]; simp [counter, initial], by simp [counter, initial]⟩

/-- A step that increments the counter finds room for one more. -/
def Room (s : State Tid) (label : Tid × Action Tid) : Prop :=
  (s.thread label.1).pc.increments = true → counter s.count + 1 < 2 ^ 29

variable [DecidableEq Tid]

/-- With room in the word the counter stays exact. -/
theorem Exact.step (isExact : Exact s) (inv : Invariant s) {label} (room : Room s label)
    (stepped : step s label = some s') : Exact s' := by
  have counts := isExact.counts
  rcases step_cases inv stepped with ⟨count', t', rfl, change⟩ | ⟨-, woken⟩
  · have total := census_update owned s.thread label.1 t'
    have owned : (s.thread label.1).owned ≤ counter s.count := by
      rw [counts]
      exact le_census label.1
    obtain ⟨balance, below⟩ := change.counts isExact.nonneg owned room
    refine ⟨?_, below⟩
    simp only [State.set] at *
    omega
  · refine ⟨?_, by rw [woken.count]; exact isExact.nonneg⟩
    rw [woken.count, counts]
    simp only [census, woken.owned]

/-- In every run at most one thread holds the lock; the counter leaves zero only while the lock is
free or by its holder; a decrement that returns true leaves the counter at zero and the lock with
its caller; while the lock is free and a thread sleeps, some thread is obliged to pass a wake-up on,
until it calls `futex_wake` or the lock is contended again. While the counts fit the word, the
counter is the number of owned counts. -/
theorem lockCnt_contract (labels : List (Tid × Action Tid)) (s : State Tid)
    (ran : run step (initial : State Tid) labels = some s) :
    (∀ tid other, (s.thread tid).holds = true → (s.thread other).holds = true → tid = other) ∧
      (∀ label s', step s label = some s' → counter s.count = 0 → counter s'.count = 1 →
        lockState s.count = stateFree ∨ (s.thread label.1).holds = true) ∧
      (∀ label s', step s label = some s' → (s'.thread label.1).pc = .idle (some true) →
        counter s'.count = 0 ∧ lockState s'.count ≠ stateFree ∧ (s'.thread label.1).holds = true) ∧
      (lockState s.count = stateFree → (∃ tid, (s.thread tid).pc.sleeps = true) →
        ∃ tid, (s.thread tid).pc.obliged = true) ∧
      (∀ label s', step s label = some s' → (s.thread label.1).pc.obliged = true →
        (s'.thread label.1).pc.obliged = true ∨ lockState s'.count = stateWaiting ∨
          ∃ target, label.2 = .wake target) ∧
      (Along step Room (initial : State Tid) labels → counter s.count = census owned s.thread) := by
  have invariant : Invariant s :=
    run_preserves (fun _ _ _ held stepped => held.step stepped) invariant_initial ran
  refine ⟨invariant.unique, fun label s' stepped zero one => ?_,
    fun label s' stepped returned => ?_,
    fun isFree sleeper => ?_, fun label s' stepped obliged => ?_, fun along => ?_⟩
  · rcases step_cases invariant stepped with ⟨count', t', rfl, change⟩ | ⟨-, woken⟩
    · exact change.fromZero zero one
    · rw [woken.count] at one
      omega
  · rcases step_cases invariant stepped with ⟨count', t', rfl, change⟩ | ⟨-, woken⟩
    · rw [set_self] at returned ⊢
      exact change.returns returned
    · exact absurd returned woken.notTrue
  · -- A sleeper is covered by the waiting mark or by a thread due to wake.
    rcases invariant.covered sleeper with isWaiting | obliged
    · rw [isFree] at isWaiting
      contradiction
    · exact obliged
  · rcases step_cases invariant stepped with ⟨count', t', rfl, change⟩ | ⟨isWake, -⟩
    · rw [set_self]
      exact (change.passes obliged).imp_right .inl
    · exact .inr (.inr isWake)
  · have preserved (state : State Tid) (label : Tid × Action Tid) (next : State Tid)
      (held : Invariant state ∧ Exact state)
        (room : Room state label) (stepped : step state label = some next) :
          Invariant next ∧ Exact next :=
      ⟨held.1.step stepped, held.2.step held.1 room stepped⟩
    exact (run_preserves_along preserved ⟨invariant_initial, exact_initial⟩ along ran).2.counts

/-- One thread takes the lock, the other goes to sleep to increment from zero, and the first
unlocks. -/
def contention : List (Bool × Action Bool) :=
  [(false, .call .lock), (false, .next), (false, .next), (true, .call .inc), (true, .next),
    (true, .next), (true, .next), (false, .unlock false), (false, .next), (false, .next)]

/-- The lock is free, a thread sleeps, and the unlocking one is obliged to wake it. -/
theorem lockCnt_contract_contention : ∃ s, run step (initial : State Bool) contention = some s ∧
    lockState s.count = stateFree ∧ (s.thread true).pc.sleeps = true ∧
        ∃ tid, (s.thread tid).pc.obliged = true := by
  have ran : (run step (initial : State Bool) contention).map
    (fun s => (lockState s.count, (s.thread true).pc.sleeps)) =
      some (stateFree, true) := by decide
  obtain ⟨s, ran, facts⟩ := map_eq_some_iff.mp ran
  simp only [Prod.mk.injEq] at facts
  have contract := lockCnt_contract contention s ran
  exact ⟨s, ran, facts.1, facts.2, contract.2.2.2.1 facts.1 ⟨true, facts.2⟩⟩

end Qemu.LockCnt
