import Qemu.Util.CoMutex

/-! The coroutine mutex excludes and loses no waiter: holders, wakers and waiters pass one baton. -/

namespace Qemu.Coroutine

open Transition List Function Pc

variable {Co Ctx : Type} {self co : Co}

/-- Where the right to the mutex is. -/
inductive Baton (Co : Type) where
  /-- The mutex is free. -/
  | free
  /-- A coroutine holds the mutex, or is in charge of the next wake-up. -/
  | carried (co : Co)
  /-- A coroutine has been woken as the next owner. -/
  | given (co : Co)
  /-- An unlock has offered the next wake-up to whoever takes the hand-off number. -/
  | offered

/-- A coroutine has taken the mutex and not yet counted itself out. -/
def Pc.holds : Pc Co Ctx → Bool
  | .setCtx _ | .setHolder | .holding | .assertLocked | .assertHolder | .clearCtx
      | .clearHolder | .fetchDec => true
  | _ => false

/-- A coroutine is inside `pop_waiter`. -/
def Pc.pops : Pc Co Ctx → Bool
  | .popEmpty _ | .moveAll _ | .moveNext _ _ | .popStillEmpty _ | .popHead _ => true
  | _ => false

def Pc.carries (pc : Pc Co Ctx) : Bool :=
  pc.holds || pc.pops || match pc with
    | .nextSequence | .setHandoff _ | .wakeCtx _ _ | .wakeCo _ _ => true
    | _ => false

/-- A coroutine is in the slow path of lock with its wait record pushed. -/
def Pc.waits : Pc Co Ctx → Bool
  | .readHandoff _ | .lockToPop _ _ | .lockFromPush _ _ | .takeHandoff _ _ | .yielded => true
  | .popEmpty (.lock _) | .moveAll (.lock _) | .moveNext (.lock _)
      _ | .popStillEmpty (.lock _) => true
  | .popHead (.lock _) | .wakeCtx (.lock _) _ | .wakeCo (.lock _) _ => true
  | _ => false

/-- The wait records that a coroutine has taken off both lists. -/
def Pc.hand : Pc Co Ctx → List Co
  | .moveNext _ reversed => reversed
  | .wakeCtx _ co | .wakeCo _ co => [co]
  | _ => []

/-- The hand-off number that an unlock has offered and will try to take back. -/
def Pc.offer : Pc Co Ctx → Option (BitVec 32)
  | .unlockToPop ourHandoff | .retakeHandoff ourHandoff => some ourHandoff
  | _ => none

def Knows (m : CoMutex Co Ctx) (self : Co) : Pc Co Ctx → Prop
  | .holding | .assertLocked | .assertHolder => m.holder = some self
  | .moveAll _ | .nextSequence => m.toPop = []
  | .moveNext (.lock _) _ | .popStillEmpty (.lock _) => self ∉ m.fromPush
  | .popHead _ => m.toPop ≠ []
  | .setHandoff ourHandoff => m.toPop = [] ∧ ourHandoff ≠ 0
  | .lockToPop _ number | .lockFromPush _ number | .takeHandoff _ number => number ≠ 0
  | .unlockToPop number | .unlockFromPush number | .retakeHandoff number => number ≠ 0
  | .wakeCtx _ co | .wakeCo _ co => co ≠ self
  | .fault => False
  | _ => True

/-- The mutex and its coroutines, by where the baton is and which records its carrier has in hand.
-/
structure Tracks (s : State Co Ctx) (baton : Baton Co) (hand : List Co) : Prop where
  carried : ∀ co, (s.pc co).carries = true ↔ baton = .carried co
  given : ∀ co, s.woken co = true ↔ baton = .given co
  offered : s.handoff ≠ 0 ↔ baton = .offered
  free : s.locked = 0 ↔ baton = .free
  -- the records of the queue are those of the waiting coroutines that have not been woken
  pending : ∀ co, co ∈ hand ++ s.toPop ++ s.fromPush ↔ (s.pc co).waits = true ∧ baton ≠ .given co
  nodup : (hand ++ s.toPop ++ s.fromPush).Nodup
  awaited : ∀ co, baton = .given co → (s.pc co).waits = true
  inHand : ∀ co, baton = .carried co → (s.pc co).hand = hand
  emptyHand : (∀ co, baton ≠ .carried co) → hand = []
  drained : baton = .offered → s.toPop = []
  offerer : baton = .offered → ∃ co, (s.pc co).offer = some s.handoff
  knows : ∀ co, Knows s.toCoMutex co (s.pc co)

def Mine (baton : Baton Co) (self : Co) : Prop :=
  ∀ co, co ≠ self → baton ≠ .carried co

@[simp]
theorem mine_carried : Mine (.carried co) self ↔ co = self := by
  simp only [Mine, ne_eq, Baton.carried.injEq]
  grind

@[simp]
theorem mine_free : Mine .free self := by simp [Mine]

@[simp]
theorem mine_offered : Mine .offered self := by simp [Mine]

@[simp]
theorem mine_given : Mine (.given co) self := by simp [Mine]

variable {s : State Co Ctx} {pc : Pc Co Ctx} {baton : Baton Co} {hand : List Co}

attribute [local simp] carries Pc.holds Pc.pops Knows in
theorem knows_congr {m n} (idle : pc.carries = false) (known : Knows m co pc) : Knows n co pc := by
  cases pc <;> simp_all

theorem knows_frame {m n} (holder : n.holder = m.holder) (toPop : n.toPop = m.toPop)
    (fromPush : n.fromPush = m.fromPush) (known : Knows m co pc) : Knows n co pc := by
  unfold Knows at known ⊢
  rw [holder, toPop, fromPush]
  exact known

theorem Tracks.frame (tracks : Tracks s baton hand) {locked sequence ctx coCtx}
    (same : locked = 0 ↔ s.locked = 0) :
    Tracks { s with locked, sequence, ctx, coCtx } baton hand :=
  { tracks with
    free := same.trans tracks.free
    knows := fun co => knows_frame rfl rfl rfl (tracks.knows co) }

theorem Tracks.notMem (tracks : Tracks s baton hand) (idle : (s.pc self).waits = false) :
    self ∉ hand ++ s.toPop ++ s.fromPush := by
  rw [tracks.pending self, idle]
  simp

variable [DecidableEq Co] {s' : State Co Ctx} {origin : Pc Co Ctx} {baton' : Baton Co}
    {hand' : List Co} {ctx : Ctx}

@[simp]
theorem goto_toCoMutex : (s.goto self pc).toCoMutex = s.toCoMutex := rfl

@[simp]
theorem goto_woken : (s.goto self pc).woken = s.woken := rfl

@[simp]
theorem goto_pc : (s.goto self pc).pc = update s.pc self pc := rfl

theorem forall_moved {P : Co → Pc Co Ctx → Prop}
    (moved : s'.pc = update s.pc self pc) (here : P self pc)
    (others : ∀ co, co ≠ self → P co (s.pc co)) : ∀ co, P co (s'.pc co) := by
  rw [moved]
  exact (forall_update_iff s.pc P).mpr ⟨here, others⟩

/-- A coroutine goes to a place with the same rights, and the mutex stays. -/
theorem Tracks.goto (tracks : Tracks s baton hand) (here : s.pc self = origin)
    (carries : pc.carries = origin.carries)
    (waits : pc.waits = origin.waits) (inHand : pc.hand = origin.hand)
    (offer : baton = .offered → origin.offer = some s.handoff → pc.offer = some s.handoff)
    (known : Knows s.toCoMutex self pc) : Tracks (s.goto self pc) baton hand := by
  subst here
  exact { tracks with
    carried := forall_moved (P := fun co pc => pc.carries = true ↔ baton = .carried co) rfl
      (by rw [carries]; exact tracks.carried self) fun co _ => tracks.carried co
    pending := forall_moved
      (P := fun co pc => co ∈ hand ++ s.toPop ++ s.fromPush ↔
        pc.waits = true ∧ baton ≠ .given co) rfl
      (by rw [waits]; exact tracks.pending self) fun co _ => tracks.pending co
    awaited := forall_moved (P := fun co pc => baton = .given co → pc.waits = true) rfl
      (by rw [waits]; exact tracks.awaited self) fun co _ => tracks.awaited co
    inHand := forall_moved (P := fun co pc => baton = .carried co → pc.hand = hand) rfl
      (by rw [inHand]; exact tracks.inHand self) fun co _ => tracks.inHand co
    offerer := by
      intro offered
      obtain ⟨co, offers⟩ := tracks.offerer offered
      refine ⟨co, ?_⟩
      by_cases same : co = self
      · subst same
        simpa using offer offered offers
      · simpa [same] using offers
    knows := forall_moved (P := fun co pc => Knows s.toCoMutex co pc) rfl known
      fun co _ => tracks.knows co }

/-- A coroutine takes, uses or passes on the baton, and goes to a new place. -/
structure Pass (s s' : State Co Ctx) (mover : Co) (pc : Pc Co Ctx) (baton' : Baton Co)
    (hand' : List Co) : Prop where
  moved : s'.pc = update s.pc mover pc
  after : Mine baton' mover
  carries : pc.carries = true ↔ baton' = .carried mover
  given : ∀ co, s'.woken co = true ↔ baton' = .given co
  offered : s'.handoff ≠ 0 ↔ baton' = .offered
  free : s'.locked = 0 ↔ baton' = .free
  own : mover ∈ hand' ++ s'.toPop ++ s'.fromPush ↔ pc.waits = true ∧ baton' ≠ .given mover
  others : ∀ co, co ≠ mover → (co ∈ hand' ++ s'.toPop ++ s'.fromPush ↔
    (s.pc co).waits = true ∧ baton' ≠ .given co)
  nodup : (hand' ++ s'.toPop ++ s'.fromPush).Nodup
  awaited : ∀ co, baton' = .given co → co ≠ mover ∧ (s.pc co).waits = true
  inHand : baton' = .carried mover → pc.hand = hand'
  emptyHand : baton' ≠ .carried mover → hand' = []
  offer : baton' = .offered → s'.toPop = [] ∧ pc.offer = some s'.handoff
  known : Knows s'.toCoMutex mover pc

/-- The baton passes on when its bearer lets go of it. -/
theorem Tracks.pass (tracks : Tracks s baton hand) (self : Co) (pc : Pc Co Ctx)
    (before : Mine baton self)
    (passed : Pass s s' self pc baton' hand') : Tracks s' baton' hand' := by
  -- The others carry the baton neither before nor after.
  have idle (co : Co) (other : co ≠ self) : (s.pc co).carries = false := by
    rw [← Bool.not_eq_true, tracks.carried co]
    exact before co other
  exact {
    carried := forall_moved (P := fun co pc => pc.carries = true ↔ baton' = .carried co)
      passed.moved passed.carries fun co other => by simp [idle co other, passed.after co other]
    given := passed.given
    offered := passed.offered
    free := passed.free
    pending := forall_moved
      (P := fun co pc => co ∈ hand' ++ s'.toPop ++ s'.fromPush ↔
        pc.waits = true ∧ baton' ≠ .given co) passed.moved passed.own passed.others
    nodup := passed.nodup
    awaited := forall_moved (P := fun co pc => baton' = .given co → pc.waits = true) passed.moved
      (fun given => absurd rfl (passed.awaited self given).1) fun co _ given =>
        (passed.awaited co given).2
    inHand := forall_moved (P := fun co pc => baton' = .carried co → pc.hand = hand')
      passed.moved passed.inHand fun co other carried => absurd carried (passed.after co other)
    emptyHand := fun away => passed.emptyHand (away self)
    drained := fun isOffered => (passed.offer isOffered).1
    offerer :=
      fun isOffered => ⟨self, by rw [passed.moved, update_self]; exact (passed.offer isOffered).2⟩
    knows := forall_moved (P := fun co pc => Knows s'.toCoMutex co pc) passed.moved passed.known
      fun co other => knows_congr (idle co other) (tracks.knows co) }

attribute [local simp] waits in

attribute [local simp] carries Pc.holds Pc.pops Pc.hand

/-- The free mutex is taken by the one that sees 0. -/
theorem Tracks.acquire (tracks : Tracks s .free hand) (idle : (s.pc self).waits = false) :
    Tracks ({ s with locked := 1 }.goto self (.setCtx ctx)) (.carried self) [] := by
  obtain rfl := tracks.emptyHand (by simp)
  refine tracks.pass self (.setCtx ctx) (by simp) {
    moved := rfl
    after := by simp
    carries := by simp
    awaited := by simp
    inHand := by simp
    emptyHand := by simp
    offer := by simp
    given := by simpa using tracks.given
    offered := by simpa using tracks.offered
    free := by simp
    own := by simpa [waits] using tracks.notMem idle
    others := fun co _ => by simpa using tracks.pending co
    nodup := tracks.nodup
    known := trivial }

/-- A locker pushes its wait record. -/
theorem Tracks.push (tracks : Tracks s baton hand) {saved : Option Co}
    (here : s.pc self = .pushCmpxchg ctx saved) :
    Tracks ({ s with fromPush := self :: s.fromPush }.goto self (.readHandoff ctx)) baton hand := by
  have idle : (s.pc self).waits = false := by rw [here]; rfl
  have notCarried : baton ≠ .carried self := by
    rw [ne_eq, ← tracks.carried self, here]
    simp
  have fresh := tracks.notMem idle
  -- Only a waiting coroutine is woken.
  have notGiven : baton ≠ .given self := by
    intro given
    have waits := tracks.awaited self given
    rw [idle] at waits
    contradiction
  exact { tracks with
    carried := forall_moved (P := fun co pc => pc.carries = true ↔ baton = .carried co) rfl
      (by simp [notCarried]) fun co _ => tracks.carried co
    pending := forall_moved
      (P := fun co pc => co ∈ hand ++ s.toPop ++ self :: s.fromPush ↔
        pc.waits = true ∧ baton ≠ .given co) rfl (by simp [waits, notGiven])
      fun co other => by simpa [other] using tracks.pending co
    nodup := nodup_middle.mpr (nodup_cons.mpr ⟨fresh, tracks.nodup⟩)
    awaited := forall_moved (P := fun co pc => baton = .given co → pc.waits = true) rfl
      (fun _ => rfl) fun co _ => tracks.awaited co
    inHand := forall_moved (P := fun co pc => baton = .carried co → pc.hand = hand) rfl
      (fun carried => absurd carried notCarried) fun co _ => tracks.inHand co
    offerer := by
      intro offered
      obtain ⟨co, offers⟩ := tracks.offerer offered
      refine ⟨co, ?_⟩
      have other : co ≠ self := by
        rintro rfl
        rw [here] at offers
        contradiction
      simpa [other] using offers
    knows := forall_moved (P := fun co pc => Knows { s.toCoMutex with
      fromPush := self :: s.fromPush } co pc) rfl trivial fun co other => by
        have known := tracks.knows co
        unfold Knows at known ⊢
        simpa [other] using known }

variable {caller : Caller Ctx}

/-- An offered hand-off is taken by one coroutine only. -/
theorem Tracks.take (tracks : Tracks s .offered hand)
    (waits : (popEmpty caller : Pc Co Ctx).waits = (s.pc self).waits) :
    Tracks ({ s with handoff := 0 }.goto self (.popEmpty caller)) (.carried self) [] := by
  obtain rfl := tracks.emptyHand (by simp)
  exact tracks.pass self (.popEmpty caller) (by simp) {
    moved := rfl
    after := by simp
    carries := by simp
    awaited := by simp
    inHand := by simp
    emptyHand := by simp
    offer := by simp
    given := by simpa using tracks.given
    offered := by simp
    free := by simpa using tracks.free
    own := by simpa [waits] using tracks.pending self
    others := fun co _ => by simpa using tracks.pending co
    nodup := tracks.nodup
    known := trivial }

theorem Tracks.use (tracks : Tracks s (.carried self) hand) {toPop fromPush holder}
    (carries : pc.carries) (waits : pc.waits = (s.pc self).waits)
    (records : (pc.hand ++ toPop ++ fromPush).Perm (hand ++ s.toPop ++ s.fromPush))
    (known : Knows { s.toCoMutex with toPop, fromPush, holder } self pc) :
    Tracks ({ s with toPop, fromPush, holder }.goto self pc) (.carried self) pc.hand :=
  tracks.pass self pc (by simp) {
    moved := rfl
    after := by simp
    awaited := by simp
    emptyHand := by simp
    offer := by simp
    carries := iff_of_true carries rfl
    given := by simpa using tracks.given
    offered := by simpa using tracks.offered
    free := by simpa using tracks.free
    own := by rw [waits]; exact records.mem_iff.trans (tracks.pending self)
    others := fun co _ => records.mem_iff.trans (tracks.pending co)
    nodup := records.nodup_iff.mpr tracks.nodup
    inHand := fun _ => rfl
    known := known }

/-- A coroutine that pops its own record has the mutex. -/
theorem Tracks.popSelf (tracks : Tracks s (.carried self) []) {rest}
    (toPop : s.toPop = self :: rest) :
    Tracks ({ s with toPop := rest }.goto self (.setCtx ctx)) (.carried self) [] := by
  have nodup := tracks.nodup
  have pending := tracks.pending
  rw [toPop] at nodup pending
  exact tracks.pass self (.setCtx ctx) (by simp) {
    moved := rfl
    after := by simp
    carries := by simp
    awaited := by simp
    inHand := by simp
    emptyHand := by simp
    offer := by simp
    given := by simpa using tracks.given
    offered := by simpa using tracks.offered
    free := by simpa using tracks.free
    own := by simpa [waits] using (nodup_cons.mp nodup).1
    others := fun co other => by simpa [other] using pending co
    nodup := (nodup_cons.mp nodup).2
    known := trivial }

/-- The carrier wakes the coroutine whose record it has in hand, as the next owner. -/
theorem Tracks.wake (tracks : Tracks s (.carried self) hand)
    (here : s.pc self = .wakeCo caller co) :
    Tracks ({ s with woken := update s.woken co true }.goto self (awoke caller))
        (.given co) [] := by
  have inHand := tracks.inHand self rfl
  have known := tracks.knows self
  rw [here] at inHand known
  obtain rfl : [co] = hand := inHand
  have other : co ≠ self := known
  have waits : (awoke caller : Pc Co Ctx).waits = (s.pc self).waits := by
    rw [here]
    cases caller <;> rfl
  have nodup := nodup_cons.mp tracks.nodup
  -- The record popped was this waiter's only one.
  have others (d : Co) (distinct : d ≠ co) : d ∈ s.toPop ++ s.fromPush ↔ (s.pc d).waits := by
    simpa [distinct] using tracks.pending d
  exact tracks.pass self (awoke caller) (by simp) {
    moved := rfl
    after := by simp
    inHand := by simp
    emptyHand := by simp
    offer := by simp
    carries := by cases caller <;> simp [awoke]
    given := by
      intro d
      by_cases same : d = co
      · simp [same]
      · simpa [same, Ne.symm same] using tracks.given d
    offered := by simpa using tracks.offered
    free := by simpa using tracks.free
    own := by simpa [waits, other] using others self other.symm
    others := by
      intro d _
      by_cases same : d = co
      · subst same
        simpa using nodup.1
      · simpa [Ne.symm same] using others d same
    nodup := nodup.2
    awaited := by
      intro d isGiven
      obtain rfl := Baton.given.inj isGiven
      exact ⟨other, ((tracks.pending co).mp (by simp)).1⟩
    known := by cases caller <;> trivial }

/-- A woken waiter carries the baton. -/
theorem Tracks.resume (tracks : Tracks s (.given self) hand) :
    Tracks ({ s with woken := update s.woken self false }.goto self .setHolder)
        (.carried self) [] := by
  obtain rfl := tracks.emptyHand (by simp)
  exact tracks.pass self .setHolder (by simp) {
    moved := rfl
    after := by simp
    carries := by simp
    awaited := by simp
    inHand := by simp
    emptyHand := by simp
    offer := by simp
    given := by
      intro d
      by_cases same : d = self
      · simp [same]
      · simpa [same, Ne.symm same] using tracks.given d
    offered := by simpa using tracks.offered
    free := by simpa using tracks.free
    own := by simpa [waits] using tracks.pending self
    others := fun d other => by simpa [other.symm] using tracks.pending d
    nodup := tracks.nodup
    known := trivial }

/-- The last one out leaves the mutex free. -/
theorem Tracks.release (tracks : Tracks s (.carried self) []) (idle : (s.pc self).waits = false) :
    Tracks ({ s with locked := 0 }.goto self .outside) .free [] :=
  tracks.pass self .outside (by simp) {
    moved := rfl
    after := by simp
    carries := by simp
    awaited := by simp
    inHand := by simp
    emptyHand := by simp
    offer := by simp
    given := by simpa using tracks.given
    offered := by simpa using tracks.offered
    free := by simp
    own := by simpa [waits] using tracks.notMem idle
    others := fun co _ => by simpa using tracks.pending co
    nodup := tracks.nodup
    known := trivial }

/-- Without a record to wake, the unlocker offers the baton. -/
theorem Tracks.offerBaton (tracks : Tracks s (.carried self) hand) {ourHandoff}
    (here : s.pc self = .setHandoff ourHandoff) :
    Tracks ({ s with handoff := ourHandoff }.goto self (.unlockToPop ourHandoff)) .offered [] := by
  have inHand := tracks.inHand self rfl
  have known := tracks.knows self
  have fresh := tracks.notMem (by rw [here]; rfl)
  rw [here] at inHand known
  obtain rfl : [] = hand := inHand
  exact tracks.pass self (.unlockToPop ourHandoff) (by simp) {
    moved := rfl
    after := by simp
    carries := by simp
    awaited := by simp
    inHand := by simp
    emptyHand := by simp
    given := by simpa using tracks.given
    offered := by simpa using known.2
    free := by simpa using tracks.free
    own := by simpa [waits] using fresh
    others := fun co _ => by simpa using tracks.pending co
    nodup := tracks.nodup
    offer := fun _ => ⟨known.1, rfl⟩
    known := known.2 }

/-- The largest value of the counter. -/
abbrev uintMax : BitVec 32 := 0xffffffff

/-- Somebody can say where the baton is. -/
def Sound (s : State Co Ctx) : Prop :=
  ∃ baton hand, Tracks s baton hand

theorem Tracks.stay (tracks : Tracks s baton hand) (here : s.pc self = origin)
    (carries : pc.carries = origin.carries) (waits : pc.waits = origin.waits)
    (inHand : pc.hand = origin.hand) (offer : origin.offer = none)
    (known : Knows s.toCoMutex self pc) : Sound (s.goto self pc) :=
  ⟨baton, hand, tracks.goto here carries waits inHand
    (fun _ offers => by rw [offer] at offers; contradiction) known⟩

omit [DecidableEq Co] in
theorem Tracks.carrier (tracks : Tracks s baton hand) (here : s.pc self = origin)
    (carries : origin.carries) : Tracks s (.carried self) origin.hand := by
  subst here
  obtain rfl := (tracks.carried self).mp carries
  rw [tracks.inHand self rfl]
  exact tracks

theorem Tracks.spin (tracks : Tracks s baton hand) (here : s.pc self = origin)
    (carries : origin.carries = false) (waits : origin.waits = false) (inHand : origin.hand = [])
    (offer : origin.offer = none) (ctx : Ctx) (waiters : BitVec 32) (i : Nat) :
    Sound (s.goto self (spin ctx waiters i)) := by
  unfold Coroutine.spin
  split
  · exact tracks.stay here carries.symm waits.symm inHand.symm offer trivial
  · exact tracks.stay here carries.symm waits.symm inHand.symm offer trivial

variable [DecidableEq Ctx]

section

variable (tracks : Tracks s baton hand)

include tracks

theorem Tracks.lockStep {i}
    (here : s.pc self = .fastPath ctx i ∨ s.pc self = .spinCtx ctx i ∨
      s.pc self = .spinLocked ctx i) (step : advance s self = some s') : Sound s' := by
  rcases here with here | here | here
  all_goals simp only [advance, here] at step
  all_goals split at step
  all_goals cases step
  · rename_i isFree
    obtain rfl := tracks.free.mp isFree
    exact ⟨_, _, tracks.acquire (by rw [here]; rfl)⟩
  · exact tracks.spin here rfl rfl rfl rfl ctx _ i
  · exact tracks.stay here rfl rfl rfl rfl trivial
  · exact tracks.stay here rfl rfl rfl rfl trivial
  · exact tracks.stay here rfl rfl rfl rfl trivial
  · exact tracks.spin here rfl rfl rfl rfl ctx 1 i

/-- Counting oneself in takes the mutex only from 0. -/
theorem Tracks.fetchInc (here : s.pc self = .fetchInc ctx)
    (room : s.locked ≠ uintMax) (step : advance s self = some s') : Sound s' := by
  simp only [advance, here] at step
  split at step
  all_goals cases step
  · rename_i isFree
    obtain rfl := tracks.free.mp isFree
    rw [isFree]
    exact ⟨_, _, tracks.acquire (by rw [here]; rfl)⟩
  · rename_i taken
    -- The counter does not wrap around.
    have stillTaken : s.locked + 1 ≠ 0 := fun wrapped => room (by bv_omega)
    exact (tracks.frame (iff_of_false stillTaken taken)).stay here rfl rfl rfl rfl trivial

theorem Tracks.slowStep (ctx : Ctx) (saved : Option Co) (num : BitVec 32)
    (here : s.pc self = .pushRead ctx ∨ s.pc self = .pushCmpxchg ctx saved ∨
      s.pc self = .readHandoff ctx ∨
      s.pc self = .lockToPop ctx num ∨ s.pc self = .lockFromPush ctx num)
    (step : advance s self = some s') : Sound s' := by
  have known := tracks.knows self
  rcases here with here | here | here | here | here
  all_goals simp only [advance, here] at step
  all_goals try split at step
  all_goals cases step
  all_goals rw [here] at known
  · exact tracks.stay here rfl rfl rfl rfl trivial
  · exact ⟨_, _, tracks.push here⟩
  · exact tracks.stay here rfl rfl rfl rfl trivial
  · exact tracks.stay here rfl rfl rfl rfl trivial
  · exact tracks.stay here rfl rfl rfl rfl ‹_›
  · exact tracks.stay here rfl rfl rfl rfl known
  · exact tracks.stay here rfl rfl rfl rfl known
  · exact tracks.stay here rfl rfl rfl rfl known
  · exact tracks.stay here rfl rfl rfl rfl trivial

theorem Tracks.takeHandoff {num}
    (here : s.pc self = .takeHandoff ctx num) (step : advance s self = some s') : Sound s' := by
  have known := tracks.knows self
  simp only [advance, here] at step known
  split at step
  all_goals cases step
  · rename_i same
    obtain rfl := tracks.offered.mp (by rw [same]; exact known)
    exact ⟨_, _, tracks.take (by rw [here]; rfl)⟩
  · exact tracks.stay here rfl rfl rfl rfl trivial

/-- A step of the holder, from taking the mutex to counting itself out. -/
theorem Tracks.holderStep (holds : (s.pc self).holds)
    (step : advance s self = some s') : Sound s' := by
  have known := tracks.knows self
  cases here : s.pc self with
  | setCtx ctx =>
    simp only [advance, here] at step
    cases step
    exact (tracks.frame Iff.rfl).stay here rfl rfl rfl rfl trivial
  | setHolder =>
    simp only [advance, here] at step
    cases step
    exact ⟨_, _, (tracks.carrier here rfl).use rfl (by rw [here]; rfl) (List.Perm.refl _) rfl⟩
  | holding => simp [advance, here] at step
  | assertLocked =>
    simp only [advance, here] at step known
    split at step
    all_goals cases step
    · -- The holder counts.
      rename_i isFree
      have free := (tracks.carrier here rfl).free.mp isFree
      contradiction
    · exact tracks.stay here rfl rfl rfl rfl known
  | assertHolder =>
    simp only [advance, here] at step known
    rw [if_pos (show s.holder = some self from known)] at step
    cases step
    exact tracks.stay here rfl rfl rfl rfl trivial
  | clearCtx =>
    simp only [advance, here] at step
    cases step
    exact (tracks.frame Iff.rfl).stay here rfl rfl rfl rfl trivial
  | clearHolder =>
    simp only [advance, here] at step
    cases step
    exact ⟨_, _, (tracks.carrier here rfl).use rfl (by rw [here]; rfl) (List.Perm.refl _) trivial⟩
  | fetchDec =>
    have carrier := tracks.carrier here rfl
    simp only [advance, here] at step
    split at step
    all_goals cases step
    · rename_i isOne
      rw [isOne]
      exact ⟨_, _, carrier.release (by rw [here]; rfl)⟩
    · have taken : s.locked ≠ 0 := fun isFree => nomatch carrier.free.mp isFree
      exact (tracks.frame (iff_of_false (by bv_omega) taken)).stay here rfl rfl rfl rfl trivial
  | _ => simp [here, Pc.holds] at holds

/-- A step of an unlock around its hand-off. -/
theorem Tracks.handoffStep (num : BitVec 32)
    (here : s.pc self = .nextSequence ∨ s.pc self = .setHandoff num ∨ s.pc self = .unlockToPop num ∨
      s.pc self = .unlockFromPush num ∨ s.pc self = .retakeHandoff num)
    (step : advance s self = some s') : Sound s' := by
  have known := tracks.knows self
  rcases here with here | here | here | here | here
  all_goals simp only [advance, here] at step known
  · cases step
    -- The sequence skips 0, which means that no hand-off is offered.
    have nonzero : bump s.sequence ≠ 0 := by
      unfold bump
      split
      · decide
      · assumption
    exact (tracks.frame Iff.rfl).stay here rfl rfl rfl rfl ⟨known, nonzero⟩
  · cases step
    exact ⟨_, _, (tracks.carrier here rfl).offerBaton here⟩
  · split at step
    all_goals cases step
    · exact ⟨_, _, tracks.goto here rfl rfl rfl (fun _ offers => offers) known⟩
    · -- A list to pop from means that the offer has been taken.
      rename_i waiting
      exact ⟨_, _, tracks.goto here rfl rfl rfl
        (fun offered => absurd (tracks.drained offered) waiting) known⟩
  · split at step
    all_goals cases step
    · exact ⟨_, _, tracks.goto here rfl rfl rfl nofun known⟩
    · exact tracks.stay here rfl rfl rfl rfl trivial
  · split at step
    all_goals cases step
    · rename_i same
      obtain rfl := tracks.offered.mp (by rw [same]; exact known)
      exact ⟨_, _, tracks.take (by rw [here]; rfl)⟩
    · rename_i taken
      exact ⟨_, _, tracks.goto here rfl rfl rfl
        (fun _ offers => absurd (Option.some.inj offers).symm taken) trivial⟩

/-- A step of `pop_waiter`. -/
theorem Tracks.popStep (pops : (s.pc self).pops) (step : advance s self = some s') : Sound s' := by
  have known := tracks.knows self
  cases here : s.pc self with
  | popEmpty caller =>
    simp only [advance, here] at step
    split at step
    all_goals cases step
    · exact tracks.stay here rfl (by cases caller <;> rfl) rfl rfl ‹_›
    · exact tracks.stay here rfl (by cases caller <;> rfl) rfl rfl ‹_›
  | moveAll caller =>
    simp only [advance, here, Option.some.injEq] at step known
    subst step
    have carrier := tracks.carrier here rfl
    refine ⟨_, _, carrier.use rfl ?_ ?_ ?_⟩
    · rw [here]
      cases caller <;> rfl
    · simp [Pc.hand, show s.toPop = [] from known]
    · cases caller <;> simp [Knows]
  | moveNext caller reversed =>
    have carrier := tracks.carrier here rfl
    cases reversed with
    | nil =>
      simp only [advance, here, Option.some.injEq] at step known
      subst step
      exact tracks.stay here rfl (by cases caller <;> rfl) rfl rfl (by cases caller <;> exact known)
    | cons w reversed =>
      simp only [advance, here, Option.some.injEq] at step known
      subst step
      refine ⟨_, _, carrier.use rfl ?_ ?_ ?_⟩
      · rw [here]
        cases caller <;> rfl
      · -- The record goes from the hand to the list.
        simp [Pc.hand]
      · cases caller <;> exact known
  | popStillEmpty caller =>
    have carrier := tracks.carrier here rfl
    simp only [advance, here] at step known
    split at step
    all_goals cases step
    · rename_i empty
      cases caller with
      | unlock => exact tracks.stay here rfl rfl rfl rfl empty
      | lock ctx =>
        -- The record of the locker itself is still in the queue, so the list is not empty.
        have pending := (carrier.pending self).mpr ⟨by rw [here]; rfl, by simp⟩
        simp only [Pc.hand, empty, nil_append] at pending
        exact absurd pending known
    · exact tracks.stay here rfl (by cases caller <;> rfl) rfl rfl ‹_›
  | popHead caller =>
    have carrier := tracks.carrier here rfl
    simp only [advance, here, Option.some.injEq] at step known
    subst step
    obtain ⟨co, rest, toPop⟩ := exists_cons_of_ne_nil (known)
    rw [toPop, head?_cons, tail_cons]
    have waking (other : co ≠ self) :
        Sound ({ s with toPop := rest }.goto self (.wakeCtx caller co)) := by
      refine ⟨_, _, carrier.use rfl ?_ ?_ other⟩
      · rw [here]
        cases caller <;> rfl
      · simp [Pc.hand, toPop]
    cases caller with
    | unlock =>
      refine waking ?_
      -- An unlock has no record in the queue.
      rintro rfl
      have waits := ((carrier.pending co).mp (by simp [toPop])).1
      rw [here] at waits
      contradiction
    | lock ctx =>
      unfold popped
      by_cases own : co = self
      · subst own
        simp only [↓reduceIte]
        exact ⟨_, _, carrier.popSelf toPop⟩
      · simp only [own, ↓reduceIte]
        exact waking own
  | _ => simp [here, Pc.pops] at pops

end

/-- Every access keeps track of the baton, unless the counter wraps around. -/
theorem Sound.advance (sound : Sound s)
    (room : ∀ ctx, s.pc self = .fetchInc ctx → s.locked ≠ uintMax)
    (step : advance s self = some s') : Sound s' := by
  obtain ⟨baton, hand, tracks⟩ := sound
  cases here : s.pc self with
  | outside | fault => simp [Coroutine.advance, here] at step
  | fastPath ctx i => exact tracks.lockStep (.inl here) step
  | spinCtx ctx i => exact tracks.lockStep (.inr (.inl here)) step
  | spinLocked ctx i => exact tracks.lockStep (.inr (.inr here)) step
  | fetchInc ctx => exact tracks.fetchInc here (room ctx here) step
  | setCtx | setHolder | holding | assertLocked | assertHolder | clearCtx
      | clearHolder | fetchDec =>
    exact tracks.holderStep (by rw [here]; rfl) step
  | pushRead ctx => exact tracks.slowStep ctx none 0 (.inl here) step
  | pushCmpxchg ctx saved => exact tracks.slowStep ctx saved 0 (.inr (.inl here)) step
  | readHandoff ctx => exact tracks.slowStep ctx none 0 (.inr (.inr (.inl here))) step
  | lockToPop ctx num => exact tracks.slowStep ctx none num (.inr (.inr (.inr (.inl here)))) step
  | lockFromPush ctx num => exact tracks.slowStep ctx none num (.inr (.inr (.inr (.inr here)))) step
  | takeHandoff ctx num => exact tracks.takeHandoff here step
  | yielded =>
    simp only [Coroutine.advance, here] at step
    split at step
    · rename_i woken
      cases step
      obtain rfl := (tracks.given self).mp woken
      exact ⟨_, _, tracks.resume⟩
    · contradiction
  | nextSequence => exact tracks.handoffStep 0 (.inl here) step
  | setHandoff num => exact tracks.handoffStep num (.inr (.inl here)) step
  | unlockToPop num => exact tracks.handoffStep num (.inr (.inr (.inl here))) step
  | unlockFromPush num => exact tracks.handoffStep num (.inr (.inr (.inr (.inl here)))) step
  | retakeHandoff num => exact tracks.handoffStep num (.inr (.inr (.inr (.inr here)))) step
  | popEmpty | moveAll | moveNext | popStillEmpty | popHead =>
      exact tracks.popStep (by rw [here]; rfl) step
  | wakeCtx caller co =>
    have known := tracks.knows self
    simp only [Coroutine.advance, here, Option.some.injEq] at step known
    subst step
    exact (tracks.frame Iff.rfl).stay here rfl (by cases caller <;> rfl) rfl rfl known
  | wakeCo caller co =>
    simp only [Coroutine.advance, here] at step
    cases step
    exact ⟨_, _, (tracks.carrier here rfl).wake here⟩

end Qemu.Coroutine
