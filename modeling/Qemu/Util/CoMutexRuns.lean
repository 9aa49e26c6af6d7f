import Qemu.Lib.Census
import Qemu.Util.CoMutexSafety

/-! Runs of the coroutine mutex: fewer than 2³² coroutines exclude each other, and that many break
it. -/

namespace Qemu.Coroutine

open Transition Census Function List Option

variable {Co Ctx : Type} {label : Co × Action Ctx}

/-- Counted in `locked`, from counting itself in to counting itself out. -/
def Pc.counted (pc : Pc Co Ctx) : Bool :=
  pc.holds || pc.waits || match pc with
    | .pushRead _ | .pushCmpxchg _ _ | .fault => true
    | _ => false

def Caller.locks : Caller Ctx → Bool
  | .lock _ => true
  | .unlock => false

def Pc.count (pc : Pc Co Ctx) : Nat :=
  if pc.counted then 1 else 0

section Counting

theorem counted_spin (ctx waiters i) : (spin ctx waiters i : Pc Co Ctx).counted = false := by
  unfold spin
  split <;> rfl

theorem counted_popped [DecidableEq Co] (self) (toWake : Option Co) (caller : Caller Ctx) :
    (popped self toWake caller : Pc Co Ctx).counted = caller.locks := by
  cases caller <;> cases toWake <;> simp only [popped] <;> try split
  all_goals rfl

variable [DecidableEq Co] [DecidableEq Ctx] {s s' : State Co Ctx} {self : Co}

/-- A coroutine goes to a new place, and the counter follows whether it is counted. -/
def Counts (s s' : State Co Ctx) (self : Co) : Prop :=
  ∃ pc, s'.pc = update s.pc self pc ∧
    ((s'.locked = s.locked ∧ pc.counted = (s.pc self).counted) ∨
      (s'.locked = s.locked + 1 ∧ (s.pc self).counted = false ∧ pc.counted = true) ∨
      (s'.locked = s.locked - 1 ∧ (s.pc self).counted = true ∧ pc.counted = false))

/-- An access moves the counter with the coroutine that it counts. -/
theorem advance_counts (step : advance s self = some s') : Counts s s' self := by
  unfold advance at step
  -- One goal for each access and each of its outcomes.
  split at step
  all_goals try split at step
  all_goals simp only [some.injEq, reduceCtorEq] at step
  all_goals subst step
  all_goals refine ⟨_, rfl, ?_⟩
  all_goals rw [‹s.pc self = _›]
  all_goals first
    | exact .inl ⟨rfl, rfl⟩
    | exact .inr (.inl ⟨rfl, rfl, rfl⟩)
    | exact .inr (.inr ⟨rfl, rfl, rfl⟩)
    | exact .inl ⟨rfl, counted_spin _ _ _⟩
    | (refine .inl ⟨rfl, ?_⟩; cases ‹Caller Ctx› <;> rfl)
    | (refine .inl ⟨rfl, (counted_popped _ _ _).trans ?_⟩; cases ‹Caller Ctx› <;> rfl)
    | (refine .inr (.inl ⟨?_, rfl, rfl⟩); rw [‹s.locked = 0›]; rfl)

theorem step_counts (stepped : step s label = some s') : Counts s s' label.1 := by
  obtain ⟨self, action⟩ := label
  cases action with
  | next => exact advance_counts stepped
  | lock ctx =>
    simp only [step, ite_none_right_eq_some] at stepped
    obtain ⟨here, ⟨⟩⟩ := stepped
    exact ⟨_, rfl, .inl ⟨rfl, by rw [here]; rfl⟩⟩
  | unlock =>
    simp only [step, ite_none_right_eq_some] at stepped
    obtain ⟨here, ⟨⟩⟩ := stepped
    exact ⟨_, rfl, .inl ⟨rfl, by rw [here]; rfl⟩⟩

/-- A step keeps the mutex sound as long as the counter does not wrap. -/
theorem Sound.step (sound : Sound s)
    (room : ∀ ctx, s.pc label.1 = .fetchInc ctx → s.locked ≠ uintMax)
    (stepped : step s label = some s') : Sound s' := by
  obtain ⟨self, action⟩ := label
  cases action with
  | next => exact sound.advance room stepped
  | lock ctx =>
    obtain ⟨baton, hand, tracks⟩ := sound
    simp only [Coroutine.step, ite_none_right_eq_some] at stepped
    obtain ⟨here, ⟨⟩⟩ := stepped
    exact (tracks.frame Iff.rfl).stay here rfl rfl rfl rfl trivial
  | unlock =>
    obtain ⟨baton, hand, tracks⟩ := sound
    simp only [Coroutine.step, ite_none_right_eq_some] at stepped
    obtain ⟨here, ⟨⟩⟩ := stepped
    have known := tracks.knows self
    rw [here] at known
    exact tracks.stay here rfl rfl rfl rfl known

end Counting

section Runs

variable {s s' : State Co Ctx} {self : Co}

theorem sound_initial (coCtx : Co → Ctx) : Sound (initial coCtx) :=
  ⟨.free, [], by constructor <;> simp [initial, Pc.carries, Pc.holds, Pc.pops, Pc.waits, Knows]⟩

theorem Sound.carrier_unique (sound : Sound s) {co other} (first : (s.pc co).carries)
    (second : (s.pc other).carries) : co = other := by
  obtain ⟨baton, hand, tracks⟩ := sound
  have same := ((tracks.carried co).mp first).symm.trans ((tracks.carried other).mp second)
  exact Baton.carried.inj same

theorem Sound.not_fault (sound : Sound s) (co) : s.pc co ≠ .fault := by
  obtain ⟨baton, hand, tracks⟩ := sound
  intro here
  have known := tracks.knows co
  rw [here] at known
  exact known

/-- In a quiet state a taken mutex has an owner. -/
theorem Sound.owner (sound : Sound s)
    (quiet : ∀ co, s.pc co = .outside ∨ s.pc co = .holding ∨ s.pc co = .yielded)
    (taken : s.locked ≠ 0) : ∃ co, s.pc co = .holding ∨ s.pc co = .yielded ∧ s.woken co := by
  obtain ⟨baton, hand, tracks⟩ := sound
  cases baton with
  | free => exact absurd (tracks.free.mpr rfl) taken
  | carried co =>
    have carries := (tracks.carried co).mpr rfl
    rcases quiet co with here | here | here
    · simp [here, Pc.carries, Pc.holds, Pc.pops] at carries
    · exact ⟨co, .inl here⟩
    · simp [here, Pc.carries, Pc.holds, Pc.pops] at carries
  | given co =>
    have waits := tracks.awaited co rfl
    rcases quiet co with here | here | here
    · simp [here, Pc.waits] at waits
    · simp [here, Pc.waits] at waits
    · exact ⟨co, .inr ⟨here, (tracks.given co).mpr rfl⟩⟩
  | offered =>
    -- The unlock that offers the baton has not returned.
    obtain ⟨co, offers⟩ := tracks.offerer rfl
    rcases quiet co with here | here | here
    all_goals simp [here, Pc.offer] at offers

variable [Fintype Co]

/-- The counter counts the coroutines, and the baton is somewhere. -/
structure Invariant (s : State Co Ctx) : Prop where
  counts : s.locked.toNat = census Pc.count s.pc
  sound : Sound s

theorem invariant_initial (coCtx : Co → Ctx) : Invariant (initial coCtx) :=
  ⟨(census_eq_zero fun _ => rfl).symm, sound_initial coCtx⟩

theorem Invariant.room (inv : Invariant s) (few : Fintype.card Co < 2 ^ 32)
    (uncounted : (s.pc self).counted = false) : s.locked.toNat + 1 < 2 ^ 32 := by
  have atMostOne (pc : Pc Co Ctx) : pc.count ≤ 1 := by
    unfold Pc.count
    split <;> omega
  have below :=
    census_lt_card atMostOne (show (s.pc self).count = 0 by rw [Pc.count, uncounted]; rfl)
  have counts := inv.counts
  omega

variable [DecidableEq Co] [DecidableEq Ctx]

/-- With fewer than 2^32 coroutines no step breaks the invariant. -/
theorem Invariant.step (inv : Invariant s) (few : Fintype.card Co < 2 ^ 32)
    (stepped : step s label = some s') : Invariant s' := by
  have counts := inv.counts
  constructor
  · obtain ⟨pc, moved, change⟩ := step_counts stepped
    have total := census_update Pc.count s.pc label.1 pc
    rw [← moved, ← counts] at total
    rcases change with ⟨locked, same⟩ | ⟨locked, before, after⟩ | ⟨locked, before, after⟩
    · simp only [Pc.count, same] at total
      rw [locked]
      omega
    · have room := inv.room few before
      simp only [Pc.count, before, after, ↓reduceIte, Bool.false_eq_true] at total
      rw [locked, BitVec.toNat_add_of_lt (by simpa using room)]
      have one : (1 : BitVec 32).toNat = 1 := rfl
      omega
    · simp only [Pc.count, before, after, ↓reduceIte, Bool.false_eq_true] at total
      rw [locked]
      bv_omega
  · refine inv.sound.step (fun ctx here isMax => ?_) stepped
    have room := inv.room few (show (s.pc label.1).counted = false by rw [here]; rfl)
    rw [isMax] at room
    simp at room

/-- In every run of fewer than 2³² coroutines at most one holds the mutex and at most one is inside
`pop_waiter`, no NULL record is dereferenced and no assertion fails, and while nobody is inside lock
or unlock a taken mutex has a holder or a woken next owner. -/
theorem coMutex_excludes_and_wakes (few : Fintype.card Co < 2 ^ 32) (coCtx : Co → Ctx)
    (labels : List (Co × Action Ctx)) (final : State Co Ctx)
    (ran : run step (initial coCtx) labels = some final) :
    (∀ co other, (final.pc co).holds = true → (final.pc other).holds = true → co = other) ∧
      (∀ co other, (final.pc co).pops = true → (final.pc other).pops = true → co = other) ∧
      (∀ co, final.pc co ≠ .fault) ∧
      ((∀ co, final.pc co = .outside ∨ final.pc co = .holding ∨ final.pc co = .yielded) →
        final.locked ≠ 0 →
        ∃ co, final.pc co = .holding ∨ final.pc co = .yielded ∧ final.woken co = true) := by
  have invariant : Invariant final :=
    run_preserves (fun _ _ _ held stepped => held.step few stepped) (invariant_initial coCtx) ran
  have sound := invariant.sound
  refine ⟨fun co other first second => ?_, fun co other first second => ?_,
    sound.not_fault, sound.owner⟩
  · exact sound.carrier_unique (by simp [Pc.carries, first]) (by simp [Pc.carries, second])
  · exact sound.carrier_unique (by simp [Pc.carries, first]) (by simp [Pc.carries, second])

/-- One coroutine takes the mutex, the other waits, and the first unlocks. -/
def handOver : List (Bool × Action Unit) :=
  (false, .lock ()) :: replicate 3 (false, .next) ++
    (true, .lock ()) :: replicate 6 (true, .next) ++ (false, .unlock) :: replicate 13 (false, .next)

/-- After the hand-over the waiting coroutine has been woken. -/
theorem coMutex_excludes_and_wakes_pair : ∃ final,
    run step (initial fun _ : Bool => ()) handOver = some final ∧
    ∃ co, final.pc co = .holding ∨ final.pc co = .yielded ∧ final.woken co = true := by
  have ran : (run step (initial fun _ : Bool => ()) handOver).map
    (fun s => (s.pc false, s.pc true, s.locked)) =
      some (.outside, .yielded, 1) := by decide
  obtain ⟨final, ran, places⟩ := map_eq_some_iff.mp ran
  simp only [Prod.mk.injEq] at places
  obtain ⟨first, second, locked⟩ := places
  have result := coMutex_excludes_and_wakes (by decide) _ _ final ran
  refine ⟨final, ran, result.2.2.2 ?_ (by rw [locked]; decide)⟩
  rintro (_ | _)
  · exact .inl first
  · exact .inr (.inr second)

end Runs

variable {s : State Nat Unit} {n : Nat}

/-- A coroutine calls lock and goes to sleep behind at least two others. -/
def joins (co : Nat) : List (Nat × Action Unit) :=
  (co, .lock ()) :: replicate 5 (co, .next)

/-- The first coroutine holds the mutex and the next ones sleep. -/
structure Crowd (n : Nat) (s : State Nat Unit) : Prop where
  locked : s.locked = BitVec.ofNat 32 (n + 1)
  handoff : s.handoff = 0
  holding : s.pc 0 = .holding
  outside : ∀ co, n < co → s.pc co = .outside

/-- One more waiter joins the crowd. -/
theorem Crowd.join (crowd : Crowd n s) (some_wait : 0 < n) (room : n + 1 < 2 ^ 32) :
    ∃ next, run step s (joins (n + 1)) = some next ∧ Crowd (n + 1) next := by
  have taken : s.locked ≠ 0#32 ∧ s.locked ≠ 1#32 := by
    rw [crowd.locked]
    constructor <;> bv_omega
  have out := crowd.outside (n + 1) (by omega)
  refine ⟨{ s with
    locked := s.locked + 1
    fromPush := (n + 1) :: s.fromPush
    coCtx := update s.coCtx (n + 1) ()
    pc := update s.pc (n + 1) .yielded }, ?_, ?_⟩
  · simp [joins, run, step, advance, spin, out, taken.1, taken.2,
      crowd.handoff, State.goto, replicate]
  · constructor
    · rw [crowd.locked]
      exact (BitVec.ofNat_add _ _).symm
    · exact crowd.handoff
    · show update s.pc (n + 1) Pc.yielded 0 = .holding
      rw [update_of_ne (Nat.succ_ne_zero n).symm]
      exact crowd.holding
    · intro co above
      show update s.pc (n + 1) Pc.yielded co = .outside
      rw [update_of_ne (show co ≠ n + 1 by omega)]
      exact crowd.outside co (by omega)

/-- A crowd of any size below 2^32 can be reached. -/
theorem exists_crowd (n) (room : n + 1 < 2 ^ 32) :
    ∃ labels s, run step (initial fun _ : Nat => ()) labels = some s ∧ Crowd (n + 1) s := by
  induction n with
  | zero =>
    -- The second coroutine tries to spin, but sees that the first one runs in its own context.
    refine ⟨(0, .lock ()) :: replicate 3 (0, .next) ++ (1, .lock ()) :: replicate 6 (1, .next),
      _, rfl, ?_⟩
    refine ⟨rfl, rfl, rfl, fun co above => ?_⟩
    have notFirst : co ≠ 0 := by omega
    have notSecond : co ≠ 1 := by omega
    simp [initial, State.goto, notFirst, notSecond]
  | succ n ih =>
    obtain ⟨labels, s, ran, crowd⟩ := ih (by omega)
    obtain ⟨next, joined, larger⟩ := crowd.join (by omega) (by omega)
    exact ⟨labels ++ joins (n + 1 + 1), next, run_append ran joined, larger⟩

theorem run_lock {co} (isFree : s.locked = 0#32) (out : s.pc co = .outside) :
    ∃ next, run step s ((co, .lock ()) :: replicate 3 (co, .next)) = some next ∧
      next.pc = update s.pc co .holding := by
  refine ⟨{ s with
    locked := 1
    ctx := some ()
    holder := some co
    coCtx := update s.coCtx co ()
    pc := update s.pc co .holding }, ?_, rfl⟩
  simp [run, step, advance, out, isFree, State.goto, replicate]

/-- Once 2³² coroutines have counted themselves in, the counter is zero and another one takes the
held mutex. -/
theorem coMutex_counter_wraps : ∃ labels final,
    run step (initial fun _ : Nat => ()) labels = some final ∧
    final.pc 0 = .holding ∧ final.pc (2 ^ 32) = .holding := by
  obtain ⟨labels, s, ran, crowd⟩ := exists_crowd (2 ^ 32 - 2) (by omega)
  obtain ⟨final, locked, moved⟩ := run_lock crowd.locked (crowd.outside (2 ^ 32) (by omega))
  refine ⟨_, final, run_append ran locked, ?_, ?_⟩
  · rw [moved, update_of_ne (by decide)]
    exact crowd.holding
  · rw [moved, update_self]

end Qemu.Coroutine
