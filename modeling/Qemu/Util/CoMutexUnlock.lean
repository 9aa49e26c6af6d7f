import Qemu.Util.CoMutex

/-! An unlock of the coroutine mutex that runs alone: it spins until a locker that is counted has
queued itself. -/

namespace Qemu.Coroutine

open Transition

variable {Co Ctx : Type}

/-- The places inside `qemu_co_mutex_unlock`. -/
def Pc.unlocks : Pc Co Ctx → Bool
  | .assertLocked | .assertHolder | .clearCtx | .clearHolder | .fetchDec
      | .nextSequence | .setHandoff _
  | .unlockToPop _ | .unlockFromPush _ | .retakeHandoff _ | .popEmpty .unlock | .moveAll
      .unlock | .moveNext .unlock _
  | .popStillEmpty .unlock | .popHead .unlock | .wakeCtx .unlock _ | .wakeCo .unlock _ => true
  | _ => false

/-- A wait record is in one of the two lists. -/
def CoMutex.Queued (mutex : CoMutex Co Ctx) : Prop := mutex.toPop ≠ [] ∨ mutex.fromPush ≠ []

/-- What an unlock finds when it returns without the help of others, by the place it has reached. -/
def FindsWayOut (s : State Co Ctx) (self : Co) : Prop :=
  match s.pc self with
  | .assertLocked => s.locked ≠ 0 ∧ s.holder = some self ∧ (s.locked = 1 ∨ s.Queued)
  | .assertHolder => s.holder = some self ∧ (s.locked = 1 ∨ s.Queued)
  | .clearCtx | .clearHolder | .fetchDec => s.locked = 1 ∨ s.Queued
  | .unlockToPop ourHandoff | .unlockFromPush ourHandoff | .retakeHandoff ourHandoff =>
    s.handoff ≠ ourHandoff ∨ s.Queued
  | .moveNext _ reversed => reversed ≠ [] ∨ s.Queued
  | .wakeCtx _ _ | .wakeCo _ _ => True
  | _ => s.Queued

/-- A bound on the steps left to an unlock that finds a way out. -/
def stepsLeft (s : State Co Ctx) (self : Co) : Nat :=
  match s.pc self with
  | .wakeCo _ _ => 1
  | .wakeCtx _ _ => 2
  -- With nothing to pop there is another turn of the loop, which moves the records pushed
  -- meanwhile.
  | .popHead _ => if s.toPop.isEmpty then 13 + s.fromPush.length else 3
  | .popStillEmpty _ => if s.toPop.isEmpty then 13 + s.fromPush.length else 4
  | .moveNext _ reversed => if s.toPop.isEmpty && reversed.isEmpty then 14 +
      s.fromPush.length else 5 + reversed.length
  | .moveAll _ => 6 + s.fromPush.length
  | .popEmpty _ => 7 + s.fromPush.length
  | .retakeHandoff _ | .fetchDec => 8 + s.fromPush.length
  | .unlockFromPush _ | .clearHolder => 9 + s.fromPush.length
  | .unlockToPop _ | .clearCtx => 10 + s.fromPush.length
  | .setHandoff _ | .assertHolder => 11 + s.fromPush.length
  | _ => 12 + s.fromPush.length

variable [DecidableEq Co] [DecidableEq Ctx] {s s' : State Co Ctx} {self : Co}

/-- The coroutine alone takes steps, and comes out of unlock. -/
def ReturnsAlone (s : State Co Ctx) (self : Co) : Prop :=
  ∃ n final, run step s (List.replicate n (self, .next)) = some final ∧ final.pc self = .outside

/-- One step leaves unlock, fails an assertion, or keeps the way out and comes closer to it. -/
theorem advance_unlocks (unlocks : (s.pc self).unlocks) (step : advance s self = some s') :
    s'.pc self = .outside ∧ FindsWayOut s self ∨ s'.pc self = .fault ∧ ¬ FindsWayOut s self ∨
      (s'.pc self).unlocks ∧ (FindsWayOut s' self ↔ FindsWayOut s self) ∧
        (FindsWayOut s self → stepsLeft s' self < stepsLeft s self) := by
  unfold advance at step
  -- One goal for each access and each of its outcomes.
  split at step
  all_goals try split at step
  all_goals simp only [Option.some.injEq, reduceCtorEq] at step
  all_goals subst step
  all_goals try cases ‹Caller Ctx›
  all_goals cases toPop : s.toPop
  all_goals simp_all [Pc.unlocks, FindsWayOut, stepsLeft, State.goto, CoMutex.Queued, awoke, popped]
  all_goals omega

/-- Every step is possible. -/
theorem advance_unlocks_ne_none (unlocks : (s.pc self).unlocks) : advance s self ≠ none := by
  unfold advance
  split
  all_goals try split
  all_goals simp_all [Pc.unlocks]

/-- An unlock that returns alone has found a way out. -/
theorem ReturnsAlone.wayOut (returns : ReturnsAlone s self)
    (unlocks : (s.pc self).unlocks) : FindsWayOut s self := by
  obtain ⟨n, final, ran, ret⟩ := returns
  -- Back from the return, step by step.
  induction n generalizing s with
  | zero =>
    cases ran
    simp [ret, Pc.unlocks] at unlocks
  | succ n ih =>
    obtain ⟨next, stepped, ran⟩ := run_cons.mp ran
    rcases advance_unlocks unlocks stepped with ⟨_, way⟩ | ⟨faulted, _⟩ | ⟨inside, way, _⟩
    · exact way
    · -- Nothing comes after a failed assertion.
      cases n with
      | zero =>
        cases ran
        simp [faulted] at ret
      | succ n => simp [List.replicate_succ, run, step, advance, faulted] at ran
    · exact way.mp (ih inside ran)

/-- With a way out, the unlock comes to its end alone. -/
theorem FindsWayOut.returns (way : FindsWayOut s self)
    (unlocks : (s.pc self).unlocks) : ReturnsAlone s self := by
  induction bound : stepsLeft s self using Nat.strongRecOn generalizing s with
  | ind bound ih =>
    obtain ⟨next, step⟩ := Option.ne_none_iff_exists'.mp (advance_unlocks_ne_none unlocks)
    rcases advance_unlocks unlocks step with ⟨ret, _⟩ | ⟨_, noWay⟩ | ⟨inside, same, closer⟩
    · exact ⟨1, next, run_cons.mpr ⟨next, step, rfl⟩, ret⟩
    · exact absurd way noWay
    · obtain ⟨n, final, ran, ret⟩ := ih _ (bound ▸ closer way) (same.mpr way) inside rfl
      exact ⟨n + 1, final, run_cons.mpr ⟨next, step, ran⟩, ret⟩

/-- From every state, an unlock returns without the help of other coroutines exactly when it finds a
way out. -/
theorem unlock_returnsAlone_iff (s : State Co Ctx) (self : Co) (unlocks : (s.pc self).unlocks) :
    ReturnsAlone s self ↔ FindsWayOut s self :=
  ⟨fun returns => returns.wayOut unlocks, fun way => way.returns unlocks⟩

/-- A coroutine takes the mutex. -/
def taken : List (Bool × Action Unit) := (false, .lock ()) :: List.replicate 3 (false, .next)

/-- With a second coroutine in the queue unlock returns, having woken it. -/
theorem unlock_returnsAlone_queued : ∃ s, run step (initial fun _ : Bool => ())
      (taken ++ (true, .lock ()) :: List.replicate 5 (true, .next) ++ [(false, .unlock)]) = some s ∧
    s.locked = 2 ∧ s.fromPush = [true] ∧ ReturnsAlone s false :=
  ⟨_, rfl, rfl, rfl, (unlock_returnsAlone_iff _ false rfl).mpr ⟨by decide, rfl,
    .inr (.inr (by decide))⟩⟩

/-- A second coroutine has counted itself in and not queued itself: as long as it stays there,
unlock spins. -/
theorem unlock_spins_announced : ∃ s, run step (initial fun _ : Bool => ())
      (taken ++ (true, .lock ()) :: List.replicate 3 (true, .next) ++ [(false, .unlock)]) = some s ∧
    s.pc false = .assertLocked ∧ s.pc true = .pushRead () ∧
        s.locked = 2 ∧ ¬ ReturnsAlone s false := by
  refine ⟨_, rfl, rfl, rfl, rfl, fun returns => ?_⟩
  obtain ⟨_, _, counted | queued | queued⟩ := returns.wayOut rfl
  · exact absurd counted (by decide)
  · exact queued rfl
  · exact queued rfl

end Qemu.Coroutine
