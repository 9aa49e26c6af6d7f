import Mathlib.Order.Fin.Basic
import Qemu.Tcg.JumpLists

/-! Chained jumps survive concurrent invalidation: lists name the slots, and none leads to a dead
block. -/

namespace Qemu.Tcg

open Transition Option

variable {Tb Tid : Type}

/-- An invalidation is past its hash removal, of which `CF_NOCACHE` has none. -/
def Blocks.claimed (b : Blocks Tb) (tb : Tb) : Bool :=
  cond (b.nocache tb) (b.invalid tb) (!b.hashed tb)

/-- The lists, the slots and the native jumps agree. -/
structure WellLinked (b : Blocks Tb) : Prop where
  listed : ∀ dest slot, slot ∈ b.jmpList dest ↔
    (b.jmpDest slot).dest = some dest ∧ b.removed slot = false
  nodup : ∀ dest, (b.jmpList dest).Nodup
  target : ∀ slot, b.jmpTarget slot = (b.jmpDest slot).dest
  removed : ∀ slot, b.removed slot = true → (b.jmpDest slot).marked = true
  marked : ∀ slot, (b.jmpDest slot).marked = true → b.invalid slot.1 = true
  completed : ∀ tb, b.completed tb = true → b.invalid tb = true ∧ b.jmpList tb = []
  fresh : ∀ slot, b.claimed slot.1 = false → b.removed slot = false

/-- What the step of a thread may do to other blocks: flags stay set, a marked slot keeps its
destination or loses it to its invalidation, and only own slots are taken off a list. -/
structure Evolves (b b' : Blocks Tb) (mine : Tb → Prop) : Prop where
  nocache : b'.nocache = b.nocache
  invalid : ∀ tb, b.invalid tb = true → b'.invalid tb = true
  claimed : ∀ tb, b.claimed tb = true → b'.claimed tb = true
  marked : ∀ slot, (b.jmpDest slot).marked = true → (b'.jmpDest slot).marked = true
  dest : ∀ slot, (b.jmpDest slot).marked = true → (b'.jmpDest slot).dest = (b.jmpDest slot).dest ∨
    (b'.jmpDest slot).dest = none ∧ ∀ d, (b.jmpDest slot).dest = some d → b'.invalid d = true
  removed : ∀ slot, ¬ mine slot.1 → b'.removed slot = b.removed slot

def Works (b : Blocks Tb) (tb : Tb) : Pc Tb → Prop
  | .hashRemove own => own = tb ∧ b.nocache tb = true
  | .markSlot slot | .unlinkSlot slot _ | .assertUnlinked slot _ _ => slot.1 = tb
  | .jmpUnlink own => own = tb
  | .idle | .failed => False

def Pending (slot : Slot Tb) : Pc Tb → Prop
  | .hashRemove tb => slot.1 = tb
  | .markSlot current | .unlinkSlot current _ => current.1 = slot.1 ∧ current.2 ≤ slot.2
  | .assertUnlinked current _ _ => current.1 = slot.1 ∧ current.2 < slot.2
  | .jmpUnlink _ | .idle | .failed => False

def Knows (b : Blocks Tb) : Pc Tb → Prop
  | .hashRemove tb => b.invalid tb = true
  | .unlinkSlot slot dest => (b.jmpDest slot).marked = true ∧
    ((b.jmpDest slot).dest = some dest ∨ (b.jmpDest slot).dest = none ∧ b.invalid dest = true)
  | .assertUnlinked _ dest ptrLocked => ptrLocked = ⟨none, true⟩ ∧ b.invalid dest = true
  | .failed => False
  | .idle | .markSlot _ | .jmpUnlink _ => True

/-- At most one thread invalidates a block past its hash removal, and all is in order. -/
structure Invariant (s : State Tb Tid) : Prop where
  linked : WellLinked s.toBlocks
  working : ∀ tid tb, Works s.toBlocks tb (s.pc tid) → s.claimed tb = true ∧ s.invalid tb = true
  alone : ∀ tid other tb, Works s.toBlocks tb (s.pc tid) →
    Works s.toBlocks tb (s.pc other) → tid = other
  pending : ∀ tid slot, Works s.toBlocks slot.1 (s.pc tid) →
    Pending slot (s.pc tid) → s.removed slot = false
  knows : ∀ tid, Knows s.toBlocks (s.pc tid)

section Frames

variable {b b' : Blocks Tb} {mine : Tb → Prop} {pc : Pc Tb}

theorem Evolves.works_iff (evolves : Evolves b b' mine) {tb} : Works b' tb pc ↔ Works b tb pc := by
  cases pc <;> simp [Works, evolves.nocache]

/-- What a thread knows survives the steps of the others. -/
theorem Evolves.knows (evolves : Evolves b b' mine) (known : Knows b pc) : Knows b' pc := by
  cases pc with
  | hashRemove tb => exact evolves.invalid tb known
  | unlinkSlot slot dest =>
    obtain ⟨marked, points⟩ := known
    refine ⟨evolves.marked slot marked, ?_⟩
    rcases evolves.dest slot marked with same | ⟨lost, invalid⟩
    · rw [same]
      exact points.imp_right fun ⟨isNone, dead⟩ => ⟨isNone, evolves.invalid dest dead⟩
    · rcases points with here | ⟨_, dead⟩
      · exact .inr ⟨lost, invalid dest here⟩
      · exact .inr ⟨lost, evolves.invalid dest dead⟩
  | assertUnlinked slot dest ptrLocked => exact ⟨known.1, evolves.invalid dest known.2⟩
  | idle | markSlot | jmpUnlink => trivial
  | failed => exact known

variable [DecidableEq Tid] {s : State Tb Tid} {self : Tid}

/-- A step of one thread keeps the invariant. -/
theorem Invariant.goto [DecidableEq Tb] (invariant : Invariant s) (linked : WellLinked b')
    (evolves : Evolves s.toBlocks b' fun tb => Works s.toBlocks tb (s.pc self))
    (working : ∀ tb, Works b' tb pc → b'.claimed tb ∧ b'.invalid tb)
    (taken : ∀ tb, Works b' tb pc → Works s.toBlocks tb (s.pc self) ∨ s.claimed tb = false)
    (pending : ∀ slot, Works b' slot.1 pc → Pending slot pc → b'.removed slot = false)
    (knows : Knows b' pc) : Invariant (s.goto self pc b') := by
  have here : (s.goto self pc b').pc self = pc := Function.update_self _ _ _
  have there (tid : Tid) (other : tid ≠ self) : (s.goto self pc b').pc tid = s.pc tid :=
    Function.update_of_ne other _ _
  -- Nobody else works on the block of this thread.
  have apart (tid : Tid) (other : tid ≠ self) (tb : Tb) (works : Works b' tb pc) :
      ¬ Works b' tb (s.pc tid) := by
    intro also
    rw [evolves.works_iff] at also
    rcases taken tb works with before | unclaimed
    · exact other (invariant.alone tid self tb also before)
    · have claimed := (invariant.working tid tb also).1
      rw [unclaimed] at claimed
      contradiction
  refine ⟨linked, ?_, ?_, ?_, ?_⟩
  · intro tid tb works
    by_cases same : tid = self
    · rw [same, here] at works
      exact working tb works
    · rw [there tid same] at works
      have before := invariant.working tid tb (evolves.works_iff.mp works)
      exact ⟨evolves.claimed tb before.1, evolves.invalid tb before.2⟩
  · intro tid other tb first second
    by_cases isSelf : tid = self <;> by_cases otherSelf : other = self
    · rw [isSelf, otherSelf]
    · rw [isSelf, here] at first
      rw [there other otherSelf] at second
      exact absurd second (apart other otherSelf tb first)
    · rw [otherSelf, here] at second
      rw [there tid isSelf] at first
      exact absurd first (apart tid isSelf tb second)
    · rw [there tid isSelf] at first
      rw [there other otherSelf] at second
      exact invariant.alone tid other tb (evolves.works_iff.mp first) (evolves.works_iff.mp second)
  · intro tid slot works isPending
    by_cases same : tid = self
    · rw [same, here] at works isPending
      exact pending slot works isPending
    rw [there tid same] at works isPending
    have works := evolves.works_iff.mp works
    -- Only this thread's block has slots removed, and that is not the other thread's.
    have notMine : ¬ Works s.toBlocks slot.1 (s.pc self) := fun mine =>
      same (invariant.alone tid self slot.1 works mine)
    exact (evolves.removed slot notMine).trans (invariant.pending tid slot works isPending)
  · intro tid
    by_cases same : tid = self
    · rw [same, here]
      exact knows
    · rw [there tid same]
      exact evolves.knows (invariant.knows tid)

end Frames

section Steps

variable {b : Blocks Tb} {slot : Slot Tb} {tb dest : Tb} {mine : Tb → Prop}

theorem Evolves.refl : Evolves b b mine :=
  ⟨rfl, fun _ => id, fun _ => id, fun _ => id, fun _ _ => .inl rfl, fun _ _ => rfl⟩

theorem WellLinked.flags {b'} (linked : WellLinked b) (evolves : Evolves b b' fun _ => False)
    (jmpDest : b'.jmpDest = b.jmpDest) (jmpTarget : b'.jmpTarget = b.jmpTarget)
    (jmpList : b'.jmpList = b.jmpList)
    (removed : b'.removed = b.removed) (completed : b'.completed = b.completed) :
    WellLinked b' := by
  constructor
  · simpa only [jmpDest, jmpList, removed] using linked.listed
  · simpa only [jmpList] using linked.nodup
  · simpa only [jmpDest, jmpTarget] using linked.target
  · simpa only [jmpDest, removed] using linked.removed
  · intro slot marked
    rw [jmpDest] at marked
    exact evolves.invalid slot.1 (linked.marked slot marked)
  · intro tb isCompleted
    rw [completed] at isCompleted
    rw [jmpList]
    exact (linked.completed tb isCompleted).imp_left (evolves.invalid tb)
  · intro slot unclaimed
    rw [removed]
    refine linked.fresh slot ?_
    rw [← Bool.not_eq_true] at unclaimed ⊢
    exact fun claimed => unclaimed (evolves.claimed slot.1 claimed)

theorem works_afterSlot {b} : Works b tb (afterSlot slot) ↔ slot.1 = tb := by
  unfold afterSlot
  split <;> rfl

theorem lt_of_pending_afterSlot {other} (pending : Pending other (afterSlot slot)) :
    slot.1 = other.1 ∧ slot.2 < other.2 := by
  unfold afterSlot at pending
  split at pending
  · rename_i isFirst
    refine ⟨pending.1, ?_⟩
    rw [isFirst]
    exact lt_of_lt_of_le (show (0 : Fin 2) < 1 by decide) pending.2
  · exact pending.elim

variable [DecidableEq Tb]

/-- `tb_add_jump` keeps the lists. -/
theorem WellLinked.addJump (linked : WellLinked b) : WellLinked (tbAddJump b slot dest) := by
  unfold tbAddJump
  split
  · exact linked
  rename_i valid
  split
  · exact linked
  rename_i open_
  have isNull : b.jmpDest slot = .null := by simpa using open_
  -- The open slot was in no list and not removed.
  have unlisted (d : Tb) : slot ∉ b.jmpList d := by
    rw [linked.listed, isNull]
    simp [JmpDest.null]
  have kept : b.removed slot = false := by
    rw [← Bool.not_eq_true]
    intro removed
    have marked := linked.removed slot removed
    rw [isNull] at marked
    contradiction
  constructor
  · intro d other
    have listed := linked.listed d other
    by_cases same : other = slot
    · subst same
      by_cases isDest : d = dest
      · subst isDest
        simp [Blocks.setSlot, kept]
      · simp [Blocks.setSlot, isDest, unlisted d, Ne.symm isDest]
    · by_cases isDest : d = dest
      · subst isDest
        simpa [Blocks.setSlot, same] using listed
      · simpa [Blocks.setSlot, same, isDest] using listed
  · intro d
    by_cases isDest : d = dest
    · subst isDest
      simpa [Blocks.setSlot] using ⟨unlisted d, linked.nodup d⟩
    · simpa [Blocks.setSlot, isDest] using linked.nodup d
  · intro other
    by_cases same : other = slot
    · simp [Blocks.setSlot, same]
    · simpa [Blocks.setSlot, same] using linked.target other
  · intro other removed
    by_cases same : other = slot
    · subst same
      simp [Blocks.setSlot, kept] at removed
    · simpa [Blocks.setSlot, same] using linked.removed other removed
  · intro other marked
    by_cases same : other = slot
    · simp [Blocks.setSlot, same] at marked
    · exact linked.marked other (by simpa [Blocks.setSlot, same] using marked)
  · intro d completed
    have before := linked.completed d completed
    have notDest : d ≠ dest := by
      rintro rfl
      exact valid before.1
    simpa [Blocks.setSlot, notDest] using before
  · exact linked.fresh

theorem evolves_addJump : Evolves b (tbAddJump b slot dest) mine := by
  unfold tbAddJump
  split
  · exact .refl
  split
  · exact .refl
  rename_i open_
  have isNull : b.jmpDest slot = .null := by simpa using open_
  have unmarked (other : Slot Tb) (marked : (b.jmpDest other).marked = true) : other ≠ slot := by
    rintro rfl
    rw [isNull] at marked
    contradiction
  refine ⟨rfl, fun _ => id, fun _ => id, fun other marked => ?_,
    fun other marked => .inl ?_, fun _ _ => rfl⟩
  · simpa [Blocks.setSlot, unmarked other marked] using marked
  · simp [Blocks.setSlot, unmarked other marked]

theorem WellLinked.markSlot (linked : WellLinked b) (invalid : b.invalid slot.1) :
    WellLinked (markSlot b slot) := by
  have dest (other : Slot Tb) : ((Tcg.markSlot b slot).jmpDest other).dest =
      (b.jmpDest other).dest := by
    by_cases same : other = slot
    · simp [Tcg.markSlot, same]
    · simp [Tcg.markSlot, same]
  refine ⟨fun d other => ?_, linked.nodup, fun other => ?_, fun other removed =>
    ?_, fun other marked => ?_, linked.completed, linked.fresh⟩
  · rw [dest]
    exact linked.listed d other
  · rw [dest]
    exact linked.target other
  · by_cases same : other = slot
    · simp [Tcg.markSlot, same]
    · simpa [Tcg.markSlot, same] using linked.removed other removed
  · by_cases same : other = slot
    · rw [same]
      exact invalid
    · exact linked.marked other (by simpa [Tcg.markSlot, same] using marked)

theorem evolves_markSlot : Evolves b (markSlot b slot) mine := by
  refine ⟨rfl, fun _ => id, fun _ => id, fun other marked => ?_,
    fun other _ => .inl ?_, fun _ _ => rfl⟩
  · by_cases same : other = slot
    · simp [markSlot, same]
    · simpa [markSlot, same] using marked
  · by_cases same : other = slot
    · simp [markSlot, same]
    · simp [markSlot, same]

/-- A marked slot is taken off its list. -/
theorem WellLinked.unlinkSlot (linked : WellLinked b) (points : b.jmpDest slot = ⟨some dest, true⟩)
    (claimed : b.claimed slot.1) : WellLinked (unlinkSlot b slot dest) := by
  refine ⟨fun d other => ?_, fun d => ?_, linked.target, fun other removed => ?_,
    linked.marked, fun d completed => ?_, fun other unclaimed => ?_⟩
  · -- The slot leaves its destination's list and no other.
    have listed := linked.listed d other
    by_cases same : other = slot
    · subst same
      by_cases isDest : d = dest
      · subst isDest
        simp [Tcg.unlinkSlot, (linked.nodup d).mem_erase_iff]
      · simp [Tcg.unlinkSlot, isDest, listed, points, Ne.symm isDest]
    · by_cases isDest : d = dest
      · subst isDest
        simpa [Tcg.unlinkSlot, same, (linked.nodup d).mem_erase_iff] using listed
      · simpa [Tcg.unlinkSlot, isDest, same] using listed
  · by_cases isDest : d = dest
    · subst isDest
      simpa [Tcg.unlinkSlot] using (linked.nodup d).erase slot
    · simpa [Tcg.unlinkSlot, isDest] using linked.nodup d
  · by_cases same : other = slot
    · rw [same]
      exact congrArg JmpDest.marked points
    · exact linked.removed other (by simpa [Tcg.unlinkSlot, same] using removed)
  · have before := linked.completed d completed
    refine ⟨before.1, ?_⟩
    by_cases isDest : d = dest
    · subst isDest
      simp [Tcg.unlinkSlot, before.2]
    · simpa [Tcg.unlinkSlot, isDest] using before.2
  · have other_ne : other ≠ slot := by
      rintro rfl
      have unclaimed : b.claimed other.1 = false := unclaimed
      rw [claimed] at unclaimed
      contradiction
    simpa [Tcg.unlinkSlot, other_ne] using linked.fresh other unclaimed

theorem evolves_unlinkSlot (own : mine slot.1) : Evolves b (unlinkSlot b slot dest) mine := by
  refine ⟨rfl, fun _ => id, fun _ => id, fun _ => id, fun _ _ => .inl rfl, fun other notMine => ?_⟩
  have other_ne : other ≠ slot := by
    rintro rfl
    exact notMine own
  simp [unlinkSlot, other_ne]

/-- Unlinking resets the slots of the list and no other. -/
theorem foldl_resetSlot (slots : List (Slot Tb)) (b : Blocks Tb) :
    slots.foldl resetSlot b = { b with
      jmpDest := fun slot => if slot ∈ slots
        then ⟨none, (b.jmpDest slot).marked⟩ else b.jmpDest slot
      jmpTarget := fun slot => if slot ∈ slots then none else b.jmpTarget slot } := by
  induction slots generalizing b with
  | nil => simp
  | cons first rest ih =>
    rw [List.foldl_cons, ih]
    simp only [resetSlot, Blocks.setSlot, List.mem_cons, Blocks.mk.injEq, true_and, and_true]
    constructor
    · funext slot
      by_cases same : slot = first
      · subst same
        simp
      · simp [same]
    · funext slot
      by_cases same : slot = first
      · subst same
        simp
      · simp [same]

/-- All jumps to an invalid block are reset. -/
theorem WellLinked.jmpUnlink (linked : WellLinked b) (invalid : b.invalid dest) :
    WellLinked (tbJmpUnlink b dest) := by
  have listed := linked.listed
  simp only [tbJmpUnlink, foldl_resetSlot]
  refine ⟨fun d slot => ?_, fun d => ?_, fun slot => ?_, fun slot removed =>
    ?_, fun slot marked => ?_, fun d completed => ?_, linked.fresh⟩
  · by_cases isDest : d = dest
    · subst isDest
      by_cases mem : slot ∈ b.jmpList d
      · simp [mem]
      · simp only [Function.update_self, List.not_mem_nil, mem, ↓reduceIte, false_iff]
        exact fun points => mem ((listed d slot).mpr points)
    by_cases mem : slot ∈ b.jmpList dest
    · -- A slot of this list names this block and no other.
      have points := (listed dest slot).mp mem
      simp [isDest, mem, listed d slot, points.1, Ne.symm isDest]
    · simpa [isDest, mem] using listed d slot
  · by_cases isDest : d = dest
    · simp [isDest]
    · simpa [isDest] using linked.nodup d
  · dsimp only
    split
    · rfl
    · exact linked.target slot
  · have marked := linked.removed slot removed
    dsimp only
    split
    · exact marked
    · exact marked
  · refine linked.marked slot ?_
    dsimp only at marked
    split at marked
    · exact marked
    · exact marked
  · by_cases isDest : d = dest
    · subst isDest
      simpa using invalid
    · simpa [isDest] using linked.completed d (by simpa [isDest] using completed)

/-- Unlinking an invalid block takes nothing from another thread. -/
theorem evolves_jmpUnlink (linked : WellLinked b) (invalid : b.invalid dest) :
    Evolves b (tbJmpUnlink b dest) mine := by
  simp only [tbJmpUnlink, foldl_resetSlot]
  refine ⟨rfl, fun _ => id, fun _ => id, fun slot marked => ?_, fun slot _ => ?_, fun _ _ => rfl⟩
  · dsimp only
    split
    · exact marked
    · exact marked
  · dsimp only
    split
    · rename_i mem
      refine .inr ⟨rfl, fun d points => ?_⟩
      rw [((linked.listed dest slot).mp mem).1] at points
      cases points
      exact invalid
    · exact .inl rfl

theorem update_of_true {flag : Tb → Bool} {other : Tb} (isSet : flag other) :
    Function.update flag tb true other := by
  by_cases same : other = tb
  · simp [same]
  · simpa [same] using isSet

def setInvalid (b : Blocks Tb) (tb : Tb) : Blocks Tb :=
  { b with invalid := Function.update b.invalid tb true }

theorem evolves_setInvalid : Evolves b (setInvalid b tb) mine := by
  refine ⟨rfl, fun _ => update_of_true, fun other claimed => ?_, fun _ => id,
    fun _ _ => .inl rfl, fun _ _ => rfl⟩
  simp only [Blocks.claimed, setInvalid] at claimed ⊢
  cases nocache : b.nocache other with
  | true =>
    rw [nocache] at claimed
    exact update_of_true claimed
  | false =>
    rw [nocache] at claimed
    exact claimed

/-- The first invalidation takes a block off the hash table. -/
def hashRemove (b : Blocks Tb) (tb : Tb) : Blocks Tb :=
  { b with hashed := Function.update b.hashed tb false }

theorem evolves_hashRemove : Evolves b (hashRemove b tb) mine := by
  refine ⟨rfl, fun _ => id, fun other claimed => ?_, fun _ => id,
    fun _ _ => .inl rfl, fun _ _ => rfl⟩
  simp only [Blocks.claimed, hashRemove] at claimed ⊢
  by_cases same : other = tb
  · subst same
    rw [Function.update_self]
    cases nocache : b.nocache other with
    | true =>
      rw [nocache] at claimed
      exact claimed
    | false => rfl
  · simpa [same] using claimed

variable [DecidableEq Tid] {s s' : State Tb Tid} {self : Tid}

section

variable (invariant : Invariant s)

include invariant

theorem Invariant.gotoAfterSlot {b'} (linked : WellLinked b')
    (evolves : Evolves s.toBlocks b' fun tb => Works s.toBlocks tb (s.pc self))
    (works : Works s.toBlocks slot.1 (s.pc self))
    (pending : ∀ other, slot.1 = other.1 → slot.2 < other.2 → b'.removed other = false) :
    Invariant (s.goto self (afterSlot slot) b') := by
  refine invariant.goto linked evolves (fun tb working => ?_) (fun tb working => .inl ?_)
    (fun other _ isPending => ?_) ?_
  · obtain rfl := works_afterSlot.mp working
    have before := invariant.working self slot.1 works
    exact ⟨evolves.claimed slot.1 before.1, evolves.invalid slot.1 before.2⟩
  · obtain rfl := works_afterSlot.mp working
    exact works
  · obtain ⟨same, later⟩ := lt_of_pending_afterSlot isPending
    exact pending other same later
  · unfold afterSlot
    split <;> trivial

/-- The hash removal. -/
theorem Invariant.hashRemove (here : s.pc self = .hashRemove tb)
    (step : advance s self = some s') : Invariant s' := by
  have known := invariant.knows self
  have linked := invariant.linked
  simp only [advance, here] at step known
  split at step
  · -- There is nothing to remove, and this thread has the block already.
    rename_i nocache
    cases step
    have works : Works s.toBlocks tb (s.pc self) := by
      rw [here]
      exact ⟨rfl, nocache⟩
    refine invariant.goto linked .refl (fun other working => ?_) (fun other working => .inl ?_)
      (fun slot working _ => ?_) trivial
    · obtain rfl : tb = other := working
      exact invariant.working self tb works
    · obtain rfl : tb = other := working
      exact works
    · obtain rfl : tb = slot.1 := working
      exact invariant.pending self slot works (by rw [here]; rfl)
  rename_i cached
  split at step
  · -- This thread is the one that removes the block.
    rename_i hashed
    cases step
    have unclaimed : s.claimed tb = false := by simp [Blocks.claimed, cached, hashed]
    refine invariant.goto (linked.flags evolves_hashRemove rfl rfl rfl rfl rfl) evolves_hashRemove
      (fun other working => ?_) (fun other working => .inr ?_) (fun slot working _ => ?_) trivial
    · obtain rfl : tb = other := working
      exact ⟨by simp [Blocks.claimed, cached], known⟩
    · obtain rfl : tb = other := working
      exact unclaimed
    · obtain rfl : tb = slot.1 := working
      exact linked.fresh slot unclaimed
  · -- Another thread has removed it.
    cases step
    exact invariant.goto linked .refl nofun nofun nofun trivial

/-- Marking a slot keeps the invariant. -/
theorem Invariant.markSlot (here : s.pc self = .markSlot slot)
    (step : advance s self = some s') : Invariant s' := by
  have works : Works s.toBlocks slot.1 (s.pc self) := by rw [here]; rfl
  have working := invariant.working self slot.1 works
  have linked : WellLinked (Tcg.markSlot s.toBlocks slot) := invariant.linked.markSlot working.2
  have pending (other : Slot Tb) (same : slot.1 = other.1) (later : slot.2 ≤ other.2) :
    s.removed other = false :=
    invariant.pending self other (by rw [← same]; exact works) (by rw [here]; exact ⟨same, later⟩)
  simp only [advance, here] at step
  split at step
  · cases step
    exact invariant.gotoAfterSlot linked evolves_markSlot works fun other same later =>
      pending other same later.le
  rename_i dest points
  cases step
  refine invariant.goto linked evolves_markSlot (fun tb isIt => ?_) (fun tb isIt => .inl ?_)
    (fun other _ isPending => pending other isPending.1 isPending.2) ?_
  · obtain rfl : slot.1 = tb := isIt
    exact working
  · obtain rfl : slot.1 = tb := isIt
    exact works
  · simp [Knows, Tcg.markSlot, points]

/-- The section that takes a slot off its list. -/
theorem Invariant.unlinkSlot (here : s.pc self = .unlinkSlot slot dest)
    (step : advance s self = some s') : Invariant s' := by
  have works : Works s.toBlocks slot.1 (s.pc self) := by rw [here]; rfl
  have working := invariant.working self slot.1 works
  have pending (other : Slot Tb) (same : slot.1 = other.1) (later : slot.2 ≤ other.2) :
    s.removed other = false :=
    invariant.pending self other (by rw [← same]; exact works) (by rw [here]; exact ⟨same, later⟩)
  have known := invariant.knows self
  simp only [advance, here] at step known
  obtain ⟨marked, points⟩ := known
  split at step
  · -- The destination's invalidation has come first.
    rename_i changed
    cases step
    refine invariant.goto invariant.linked .refl (fun tb isIt => ?_) (fun tb isIt => .inl ?_)
      (fun other _ isPending => pending other isPending.1 isPending.2.le) ?_
    · obtain rfl : slot.1 = tb := isIt
      exact working
    · obtain rfl : slot.1 = tb := isIt
      exact works
    · rcases points with points | ⟨isNone, dead⟩
      · exact absurd (JmpDest.ext points marked) changed
      · exact ⟨JmpDest.ext isNone marked, dead⟩
  rename_i same
  have same : s.jmpDest slot = ⟨some dest, true⟩ := by simpa using same
  have mem : slot ∈ s.jmpList dest :=
    (invariant.linked.listed dest slot).mpr ⟨by rw [same], pending slot rfl le_rfl⟩
  rw [if_pos mem] at step
  cases step
  refine invariant.gotoAfterSlot (invariant.linked.unlinkSlot same working.1)
    (evolves_unlinkSlot works) works ?_
  intro other sameBlock later
  have other_ne : other ≠ slot := by
    rintro rfl
    exact lt_irrefl _ later
  simpa [Tcg.unlinkSlot, other_ne] using pending other sameBlock later.le

/-- The assertion that the slot is unlinked holds. -/
theorem Invariant.assertUnlinked {ptrLocked}
    (here : s.pc self = .assertUnlinked slot dest ptrLocked)
    (step : advance s self = some s') : Invariant s' := by
  have works : Works s.toBlocks slot.1 (s.pc self) := by rw [here]; rfl
  have known := invariant.knows self
  simp only [advance, here] at step known
  rw [if_pos (show ptrLocked = ⟨none, true⟩ ∧ s.invalid dest = true from known)] at step
  cases step
  refine invariant.gotoAfterSlot invariant.linked .refl works fun other same later => ?_
  exact invariant.pending self other (by rw [← same]; exact works)
    (by rw [here]; exact ⟨same, later⟩)

end

/-- A second invalidation of a block with `CF_NOCACHE` is not begun. -/
def Once (s : State Tb Tid) (label : Tid × Action Tb) : Prop :=
  ∀ tb, label.2 = .invalidate tb → s.nocache tb = true → s.invalid tb = false

/-- Every step keeps the invariant, unless `CF_NOCACHE` is invalidated twice. -/
theorem Invariant.step (invariant : Invariant s) {label} (once : Once s label)
    (stepped : step s label = some s') : Invariant s' := by
  obtain ⟨self, action⟩ := label
  cases action with
  | addJump slot tbNext =>
    simp only [Tcg.step, ite_none_right_eq_some] at stepped
    obtain ⟨-, ⟨⟩⟩ := stepped
    exact invariant.goto invariant.linked.addJump evolves_addJump nofun nofun nofun trivial
  | invalidate tb =>
    simp only [Tcg.step, ite_none_right_eq_some] at stepped
    obtain ⟨-, ⟨⟩⟩ := stepped
    -- A block out of the hash table is claimed by its only invalidation.
    have unclaimed (nocache : s.nocache tb = true) : s.claimed tb = false := by
      simp [Blocks.claimed, nocache, once tb rfl nocache]
    have linked : WellLinked (setInvalid s.toBlocks tb) :=
      invariant.linked.flags evolves_setInvalid rfl rfl rfl rfl rfl
    refine invariant.goto linked evolves_setInvalid
      (fun other working => ?_) (fun other working => .inr ?_) (fun slot working _ => ?_) ?_
    · obtain ⟨rfl, nocache⟩ := working
      have nocache : s.nocache tb := nocache
      simp [Blocks.claimed, nocache]
    · obtain ⟨rfl, nocache⟩ := working
      exact unclaimed nocache
    · obtain ⟨same, nocache⟩ := working
      rw [← same] at nocache
      exact invariant.linked.fresh slot (by rw [← same]; exact unclaimed nocache)
    · exact Function.update_self _ _ _
  | next =>
    cases here : s.pc self with
    | idle | failed => simp [Tcg.step, advance, here] at stepped
    | hashRemove tb => exact invariant.hashRemove here stepped
    | markSlot slot => exact invariant.markSlot here stepped
    | unlinkSlot slot dest => exact invariant.unlinkSlot here stepped
    | assertUnlinked slot dest ptrLocked => exact invariant.assertUnlinked here stepped
    | jmpUnlink tb =>
      simp only [Tcg.step, advance, here] at stepped
      cases stepped
      have invalid := (invariant.working self tb (by rw [here]; rfl)).2
      exact invariant.goto (invariant.linked.jmpUnlink invalid)
        (evolves_jmpUnlink invariant.linked invalid) nofun nofun nofun trivial

end Steps

theorem invariant_initial (nocache : Tb → Bool) : Invariant (initial nocache : State Tb Tid) where
  linked := by constructor <;> simp [initial, JmpDest.null]
  working := nofun
  alone := nofun
  pending := nofun
  knows := fun _ => trivial

variable [DecidableEq Tb] [DecidableEq Tid] {s s' : State Tb Tid}

/-- A block completely removed stays so. -/
theorem completed_step {label : Tid × Action Tb} (stepped : step s label = some s') {tb : Tb}
    (completed : s.completed tb) : s'.completed tb := by
  obtain ⟨self, action⟩ := label
  cases action with
  | addJump slot tbNext =>
    simp only [step, ite_none_right_eq_some] at stepped
    obtain ⟨-, ⟨⟩⟩ := stepped
    simp only [State.goto, tbAddJump]
    split
    · exact completed
    · split <;> exact completed
  | invalidate own =>
    simp only [step, ite_none_right_eq_some] at stepped
    obtain ⟨-, ⟨⟩⟩ := stepped
    exact completed
  | next =>
    simp only [step, advance] at stepped
    split at stepped
    case h_7 own _ =>
      cases stepped
      simp only [State.goto, tbJmpUnlink, foldl_resetSlot]
      exact update_of_true completed
    all_goals try split at stepped
    all_goals try split at stepped
    all_goals first
      | contradiction
      | (obtain rfl := Option.some.inj stepped; exact completed)

/-- In every run in which no block with `CF_NOCACHE` is invalidated twice, the list of a block has
the slots that name it and that their own block's invalidation has not taken off, each once; no
assertion fails; and after the invalidation of a block no slot of a valid block leads to it. -/
theorem jumpLists_survive_invalidation (nocache : Tb → Bool)
    (labels : List (Tid × Action Tb)) (s : State Tb Tid)
    (ran : run step (initial nocache) labels = some s)
    (once : Along step Once (initial nocache) labels) :
    (∀ dest, (s.jmpList dest).Nodup ∧
      ∀ slot, slot ∈ s.jmpList dest ↔ (s.jmpDest slot).dest = some dest ∧ s.removed slot = false) ∧
      (∀ tid, s.pc tid ≠ .failed) ∧
      (∀ dest, s.completed dest = true → ∀ more later, run step s more = some later →
        Along step Once s more →
        ∀ slot, later.invalid slot.1 = false → later.jmpTarget slot ≠ some dest) := by
  have preserved (state : State Tb Tid) (label : Tid × Action Tb)
    (next : State Tb Tid) (held : Invariant state)
      (once : Once state label) (stepped : step state label = some next) : Invariant next :=
        held.step once stepped
  have invariant : Invariant s := run_preserves_along preserved (invariant_initial nocache) once ran
  refine ⟨fun dest => ⟨invariant.linked.nodup dest, invariant.linked.listed dest⟩,
    fun tid failed => ?_, ?_⟩
  · have known := invariant.knows tid
    rw [failed] at known
    exact known
  · intro dest completed more later ranOn onceMore slot valid leads
    have linked := (run_preserves_along preserved invariant onceMore ranOn).linked
    have stillCompleted : later.completed dest = true :=
      run_preserves (fun _ _ _ held stepped => completed_step stepped held) completed ranOn
    -- The slot names the block, is in no list, and so belongs to an invalid block.
    rw [linked.target] at leads
    cases removed : later.removed slot with
    | false =>
      have member := (linked.listed dest slot).mpr ⟨leads, removed⟩
      rw [(linked.completed dest stillCompleted).2] at member
      contradiction
    | true =>
      have invalid := linked.marked slot (linked.removed slot removed)
      rw [valid] at invalid
      contradiction

/-- A jump is chained and its destination invalidated. -/
def chainAndInvalidate : List (Unit × Action Bool) :=
  [((), .addJump (false, ⟨0, Nat.zero_lt_two⟩) true), ((), .invalidate true)] ++
    List.replicate 4 ((), .next)

/-- Afterwards the jump does not lead to the dead block. -/
theorem jumpLists_survive_invalidation_chain :
    ∃ s : State Bool Unit, run step (initial fun _ => false) chainAndInvalidate = some s ∧
      s.completed true = true ∧ s.jmpTarget (false, 0) ≠ some true := by
  have ran : (run step (initial fun _ => false : State Bool Unit) chainAndInvalidate).map
      (fun s => (s.completed true, s.invalid false)) = some (true, false) := by decide
  obtain ⟨s, ran, facts⟩ := map_eq_some_iff.mp ran
  simp only [Prod.mk.injEq] at facts
  have once : Along step Once (initial fun _ => false : State Bool Unit) chainAndInvalidate := by
    refine ⟨nofun, fun next stepped => ⟨fun tb _ nocache => ?_, fun next _ => ?_⟩⟩
    · cases stepped
      contradiction
    · exact ⟨nofun, fun _ _ => ⟨nofun, fun _ _ => ⟨nofun, fun _ _ => ⟨nofun, fun _ _ => trivial⟩⟩⟩⟩
  have survives := (jumpLists_survive_invalidation _ chainAndInvalidate s ran once).2.2 true facts.1
  exact ⟨s, ran, facts.1, survives [] s rfl trivial (false, 0) facts.2⟩

/-- A block with `CF_NOCACHE` and a chained jump is invalidated twice. -/
def invalidateTwice : List (Unit × Action Bool) :=
  [((), .addJump (false, ⟨0, Nat.zero_lt_two⟩) true), ((), .invalidate false)] ++
    List.replicate 5 ((), .next) ++ [((), .invalidate false)] ++ List.replicate 3 ((), .next)

/-- Nothing stops the second invalidation of such a block, and it looks for the slot in a list that
it has left. -/
theorem jumpLists_nocache_twice :
    ∃ s : State Bool Unit, run step (initial fun tb => !tb) invalidateTwice = some s ∧
        s.pc () = .failed := by
  have ran : (run step (initial fun tb => !tb : State Bool Unit) invalidateTwice).map
    (fun s => s.pc ()) =
      some .failed := by decide
  exact map_eq_some_iff.mp ran

end Qemu.Tcg
