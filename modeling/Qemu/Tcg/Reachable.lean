import Qemu.Lib.LabelledCode

/-! Removing unreachable ops: `reachable_code_pass` of `tcg/tcg.c`. -/

namespace Qemu.Tcg

open LabelledCode List

inductive CondBranch where
  | brcondI32
  | brcondI64
  | brcond2I32
  deriving DecidableEq

/-- An op as the pass sees it: control flow with its label, named by a number, and all else as
arguments. -/
inductive TcgOp (α : Type) where
  | setLabel (label : Nat)
  | br (label : Nat)
  | brcond (opc : CondBranch) (args : α) (label : Nat)
  | exitTb (args : α)
  | gotoPtr (args : α)
  | call (args : α) (callFlags : BitVec 32)
  | insnStart (args : α)
  | other (args : α)
  deriving DecidableEq

variable {α σ : Type}

def TcgOp.branchLabel : TcgOp α → Option Nat
  | .br label => some label
  | .brcond _ _ label => some label
  | _ => none

def TcgOp.placed : TcgOp α → Option Nat
  | .setLabel label => some label
  | _ => none

/-- The marks of guest instructions, which unwinding needs. -/
def TcgOp.isInsnStart : TcgOp α → Bool
  | .insnStart _ => true
  | _ => false

/-- Whether an op is an unconditional branch to a label. -/
def TcgOp.isBrTo (label : Nat) : TcgOp α → Bool
  | .br target => target = label
  | _ => false

/-- The flag of helpers that do not return. -/
def tcgCallNoReturn : BitVec 32 := 0x0008#32

/-- The reference counts of the labels after an op was removed. -/
def tcgOpRemove (refs : Nat → Nat) (op : TcgOp α) : Nat → Nat :=
  match op.branchLabel with
  | some label => fun l => if l = label then refs l - 1 else refs l
  | none => refs

/-- The pass between two ops: reference counts, the flag, and the ops that stay, the last one first.
-/
structure PassState (α : Type) where
  refs : Nat → Nat
  dead : Bool
  done : List (TcgOp α)

/-- An op stays unless it is to be removed. -/
def PassState.leave (state : PassState α) (op : TcgOp α) (remove dead : Bool) : PassState α :=
  if remove then { refs := tcgOpRemove state.refs op, dead := dead, done := state.done }
  else { refs := state.refs, dead := dead, done := op :: state.done }

/-- One round of `reachable_code_pass`; a label before all ops is a null dereference. -/
def reachableStep (state : PassState α) : TcgOp α → Option (PassState α)
  | .setLabel label =>
    if state.refs label = 0 then some (state.leave (.setLabel label) true state.dead)
    else if state.refs label = 1 then
      match state.done with
      | [] => none
      | prev :: earlier =>
        -- A branch to the next op goes together with its label.
        if prev.isBrTo label then some { refs := tcgOpRemove state.refs prev, dead := false,
                                         done := earlier }
        else some (state.leave (.setLabel label) false false)
    else some (state.leave (.setLabel label) false false)
  | .br label => some (state.leave (.br label) state.dead true)
  | .exitTb args => some (state.leave (.exitTb args) state.dead true)
  | .gotoPtr args => some (state.leave (.gotoPtr args) state.dead true)
  | .call args callFlags =>
    some (state.leave (.call args callFlags) state.dead
      (state.dead || callFlags &&& tcgCallNoReturn ≠ 0#32))
  | .insnStart args => some (state.leave (.insnStart args) false state.dead)
  | .brcond opc args label => some (state.leave (.brcond opc args label) state.dead state.dead)
  | .other args => some (state.leave (.other args) state.dead state.dead)

/-- The new counts and the ops that stay. -/
def reachableCodePass (refs : Nat → Nat) (ops : List (TcgOp α)) :
    Option ((Nat → Nat) × List (TcgOp α)) :=
  (ops.foldlM reachableStep { refs := refs, dead := false, done := [] }).map fun state =>
    (state.refs, state.done.reverse)

/-! ## What ops do -/

/-- What ops do to a machine: conditions, and effects that may leave the block. -/
structure OpSemantics (α σ : Type) where
  taken : CondBranch → α → σ → Bool
  perform : TcgOp α → σ → σ
  leaves : TcgOp α → σ → Bool

/-- The effect of an op that goes on to the next one unless it leaves the block. -/
def OpSemantics.plain (sem : OpSemantics α σ) (op : TcgOp α) (state : σ) : Act Nat σ :=
  if sem.leaves op state then .stop (sem.perform op state) else .next (sem.perform op state)

/-- Where an op leaves the machine. -/
def OpSemantics.act (sem : OpSemantics α σ) (state : σ) : TcgOp α → Act Nat σ
  | .setLabel _ => .next state
  | .br label => .jump label state
  | .brcond opc args label => if sem.taken opc args state then .jump label state else .next state
  | .exitTb args => .stop (sem.perform (.exitTb args) state)
  | .gotoPtr args => .stop (sem.perform (.gotoPtr args) state)
  | .call args callFlags =>
    if callFlags &&& tcgCallNoReturn ≠ 0#32 then .stop (sem.perform (.call args callFlags) state)
    else sem.plain (.call args callFlags) state
  | .insnStart args => sem.plain (.insnStart args) state
  | .other args => sem.plain (.other args) state

/-- Labels and unconditional branches only pass control on. -/
def TcgOp.passesControl : TcgOp α → Bool
  | .setLabel _ | .br _ => true
  | _ => false

/-- A block of ops as code with labels. -/
def OpSemantics.machine (sem : OpSemantics α σ) : Machine (TcgOp α) Nat σ where
  label := TcgOp.placed
  act := sem.act
  quiet := TcgOp.passesControl
  quiet_act := by
    intro op quiet state
    cases op with
    | setLabel label => exact .inl rfl
    | br label => exact .inr ⟨label, rfl⟩
    | _ => cases quiet

/-! ## Deletions -/

/-- The number of branches of a list that refer to a label. -/
def branchesTo (label : Nat) (ops : List (TcgOp α)) : Nat :=
  ops.countP fun op => op.branchLabel = some label

/-- The deletions that the pass makes, each from the list it finds. -/
inductive Deletes (sem : OpSemantics α σ) : List (TcgOp α) → List (TcgOp α) → Prop where
  /-- An op that no run gets to. -/
  | unreached {before after : List (TcgOp α)} {op : TcgOp α} (plain : op.placed = none)
      (notStart : op.isInsnStart = false)
        (never : Unreached sem.machine (before ++ op :: after) (op :: after)) :
      Deletes sem (before ++ op :: after) (before ++ after)
  /-- A label that no branch refers to. -/
  | label {before after : List (TcgOp α)} {label : Nat}
      (unused : branchesTo label (before ++ after) = 0) :
      Deletes sem (before ++ .setLabel label :: after) (before ++ after)
  /-- A branch to the next op, with its label, if no other branch refers to it. -/
  | jump {before after : List (TcgOp α)} {label : Nat}
      (unused : branchesTo label (before ++ after) = 0) (fresh : TcgOp.setLabel label ∉ before) :
      Deletes sem (before ++ .br label :: .setLabel label :: after) (before ++ after)

variable {sem : OpSemantics α σ} {op : TcgOp α} {label : Nat}
    {before after : List (TcgOp α)} {state' : PassState α}

theorem branchLabel_of_jump {start state}
    (jumps : sem.machine.act start op = .jump label state) : op.branchLabel = some label := by
  cases op with
  | br target =>
    cases jumps
    rfl
  | brcond opc args target =>
    simp only [OpSemantics.machine, OpSemantics.act] at jumps
    split at jumps <;> cases jumps
    rfl
  | call args callFlags =>
    simp only [OpSemantics.machine, OpSemantics.act, OpSemantics.plain] at jumps
    split at jumps
    · cases jumps
    · split at jumps <;> cases jumps
  | insnStart args =>
    simp only [OpSemantics.machine, OpSemantics.act, OpSemantics.plain] at jumps
    split at jumps <;> cases jumps
  | other args =>
    simp only [OpSemantics.machine, OpSemantics.act, OpSemantics.plain] at jumps
    split at jumps <;> cases jumps
  | _ => cases jumps

theorem closed_of_unused {piece}
    (unused : ∀ op ∈ piece, ∀ label, op.placed = some label →
      branchesTo label (before ++ after) = 0) :
    Closed sem.machine before piece after := by
  intro op mem start label state jumps labelled inPiece places
  have none := unused labelled inPiece label places
  rw [branchesTo, countP_eq_zero] at none
  exact none op mem (by simpa using branchLabel_of_jump jumps)

theorem target_of_fresh (fresh : TcgOp.setLabel label ∉ before) :
    target sem.machine (before ++ .br label :: .setLabel label :: after)
        label = .setLabel label :: after := by
  have skipped : before.dropWhile (fun op => sem.machine.label op ≠ some label) = [] := by
    rw [dropWhile_eq_nil_iff]
    intro op mem
    cases op with
    | setLabel other =>
      have differ : other ≠ label := by
        rintro rfl
        exact fresh mem
      simpa [OpSemantics.machine, TcgOp.placed] using differ
    | _ => rfl
  rw [target, dropWhile_append, skipped, isEmpty_nil, if_pos rfl]
  simp [OpSemantics.machine, TcgOp.placed]

variable {ops ops' : List (TcgOp α)}

/-- A deletion changes no run. -/
theorem Deletes.sameRuns (deletes : Deletes sem ops ops') : SameRuns sem.machine ops ops' := by
  cases deletes with
  | @unreached before after op plain notStart never =>
    have closed : Closed sem.machine before [op] after := closed_of_unused (by simp [plain])
    exact sameRuns_of_cut (cons_ne_nil op []) closed (.inl never)
  | @label before after label unused =>
    have closed : Closed sem.machine before [.setLabel label] after :=
      closed_of_unused (by simp [TcgOp.placed, unused])
    have passes : ∀ state, Steps sem.machine (before ++ ([.setLabel label] ++ after))
        ([.setLabel label] ++ after, state) [.setLabel label] (after, state) :=
      fun state => .cons rfl (.refl _)
    exact sameRuns_of_cut (cons_ne_nil _ []) closed
      (.inr ⟨by simp [OpSemantics.machine, TcgOp.passesControl], passes⟩)
  | @jump before after label unused fresh =>
    have closed : Closed sem.machine before [.br label, .setLabel label] after :=
      closed_of_unused (by simp [TcgOp.placed, unused])
    have passes : ∀ state, Steps sem.machine (before ++ ([.br label, .setLabel label] ++ after))
        ([.br label, .setLabel label] ++ after, state)
            [.br label, .setLabel label] (after, state) := by
      intro state
      -- The branch lands on the label right behind it.
      have jumps : LabelledCode.step sem.machine (before ++ ([.br label, .setLabel label] ++ after))
          ([.br label, .setLabel label] ++ after, state) =
              some (.br label, .setLabel label :: after, state) := by
        rw [step_eq_some]
        exact ⟨_, rfl, .inr (.inl ⟨label, rfl, (target_of_fresh fresh).symm⟩)⟩
      exact .cons jumps (.cons rfl (.refl _))
    exact sameRuns_of_cut (cons_ne_nil _ _) closed
      (.inr ⟨by simp [OpSemantics.machine, TcgOp.passesControl], passes⟩)

theorem Deletes.insnStarts (deletes : Deletes sem ops ops') :
    ops'.filter TcgOp.isInsnStart = ops.filter TcgOp.isInsnStart := by
  cases deletes with
  | unreached plain notStart never => simp [notStart]
  | label unused => simp [TcgOp.isInsnStart]
  | jump unused fresh => simp [TcgOp.isInsnStart]

theorem sameRuns_of_deletions
    (deletions : Relation.ReflTransGen (Deletes sem) ops ops') : SameRuns sem.machine ops ops' := by
  induction deletions with
  | refl => exact SameRuns.refl ops
  | tail _ last ih => exact ih.trans last.sameRuns

theorem insnStarts_of_deletions (deletions : Relation.ReflTransGen (Deletes sem) ops ops') :
    ops'.filter TcgOp.isInsnStart = ops.filter TcgOp.isInsnStart := by
  induction deletions with
  | refl => rfl
  | tail _ last ih => exact last.insnStarts.trans ih

/-! ## The pass -/

/-- Labels are placed at most once. -/
def LabelsDistinct (ops : List (TcgOp α)) : Prop := (ops.filterMap TcgOp.placed).Nodup

instance (ops : List (TcgOp α)) : Decidable (LabelsDistinct ops) :=
  inferInstanceAs (Decidable (ops.filterMap TcgOp.placed).Nodup)

/-- After an op of these, control does not go on to the next one. -/
def TcgOp.isBarrier : TcgOp α → Bool
  | .br _ | .exitTb _ | .gotoPtr _ => true
  | .call _ callFlags => callFlags &&& tcgCallNoReturn ≠ 0#32
  | _ => false

theorem act_ne_next_of_isBarrier (barrier : op.isBarrier)
    (start state : σ) : sem.machine.act start op ≠ .next state := by
  cases op with
  | call args callFlags =>
    have flagged : callFlags &&& tcgCallNoReturn ≠ 0#32 := by simpa [TcgOp.isBarrier] using barrier
    simp [OpSemantics.machine, OpSemantics.act, flagged]
  | br label => simp [OpSemantics.machine, OpSemantics.act]
  | exitTb args => simp [OpSemantics.machine, OpSemantics.act]
  | gotoPtr args => simp [OpSemantics.machine, OpSemantics.act]
  | _ => cases barrier

/-- What the loop keeps: exact counts, distinct labels, a barrier behind dead code, and a first op
that stays. -/
structure PassState.Valid (state : PassState α) (rest : List (TcgOp α)) : Prop where
  counts : ∀ label, state.refs label = branchesTo label (state.done.reverse ++ rest)
  distinct : LabelsDistinct (state.done.reverse ++ rest)
  barrier : state.dead = true → ∃ marks op earlier, state.done = marks ++ op :: earlier ∧
    (∀ mark ∈ marks, mark.isInsnStart = true) ∧ op.isBarrier = true

variable {state : PassState α} {rest : List (TcgOp α)}

/-- An op behind a barrier and before the next label may go. -/
theorem deletes_of_dead (sem : OpSemantics α σ)
    (valid : state.Valid (op :: rest)) (dead : state.dead) (plain : op.placed = none)
    (notStart : op.isInsnStart = false) :
    Deletes sem (state.done.reverse ++ op :: rest) (state.done.reverse ++ rest) := by
  obtain ⟨marks, barrier, earlier, split, areMarks, isBarrier⟩ := valid.barrier dead
  apply Deletes.unreached plain notStart
  have pos : state.done.reverse ++ op :: rest =
      earlier.reverse ++ barrier :: (marks.reverse ++ op :: rest) := by simp [split]
  rw [pos]
  apply unreached_of_barrier
  · exact act_ne_next_of_isBarrier isBarrier
  · -- Marks place no label.
    intro other mem
    rcases mem_append.mp mem with mark | same
    · have isMark := areMarks other (mem_reverse.mp mark)
      cases other with
      | insnStart args => rfl
      | _ => cases isMark
    · rw [mem_singleton.mp same]
      exact plain

/-- Removing an op keeps the label counts exact. -/
theorem tcgOpRemove_eq {refs} (counts : ∀ label,
    refs label = branchesTo label (before ++ op :: after)) (label) :
    tcgOpRemove refs op label = branchesTo label (before ++ after) := by
  have count := counts label
  simp only [branchesTo, countP_append, countP_cons] at count ⊢
  unfold tcgOpRemove
  cases target : op.branchLabel with
  | none => simpa [target] using count
  | some other =>
    simp only [target, Option.some.injEq, decide_eq_true_eq] at count ⊢
    by_cases same : label = other
    · rw [if_pos same, count, if_pos same.symm]
      omega
    · rw [if_neg same, count, if_neg fun eq => same eq.symm]
      omega

theorem LabelsDistinct.sublist (nodup : LabelsDistinct ops) (part : ops'.Sublist ops) :
    LabelsDistinct ops' := Nodup.sublist (part.filterMap _) nodup

theorem PassState.Valid.keep {dead : Bool} (valid : state.Valid (op :: rest))
    (barrier : dead → ∃ marks barrier earlier, op :: state.done = marks ++ barrier :: earlier ∧
      (∀ mark ∈ marks, mark.isInsnStart) ∧ barrier.isBarrier) :
    (state.leave op false dead).Valid rest := by
  have same : (op :: state.done).reverse ++ rest = state.done.reverse ++ op :: rest := by simp
  constructor
  · intro label
    exact (valid.counts label).trans (congrArg (branchesTo label) same.symm)
  · exact same ▸ valid.distinct
  · exact barrier

theorem PassState.Valid.remove {dead : Bool} (valid : state.Valid (op :: rest))
    (stays : dead → state.dead) :
    (state.leave op true dead).Valid rest := by
  constructor
  · exact tcgOpRemove_eq valid.counts
  · exact valid.distinct.sublist (by simp [PassState.leave])
  · intro isDead
    exact valid.barrier (stays isDead)

theorem reachableStep_plain (plain : op.placed = none) (notStart : op.isInsnStart = false) :
    reachableStep state op = some (state.leave op state.dead (state.dead || op.isBarrier)) := by
  cases op with
  | setLabel label => cases plain
  | insnStart args => cases notStart
  | call args callFlags => rfl
  | _ => simp [reachableStep, TcgOp.isBarrier]

/-- The first op of those done is not one that a label can remove. -/
def PassState.Anchored (state : PassState α) : Prop :=
  ∃ front first, state.done = front ++ [first] ∧ ∀ label, first.isBrTo label = false

theorem label_unused_step (sem : OpSemantics α σ)
    (valid : state.Valid (.setLabel label :: rest)) (zero : state.refs label = 0) :
    Deletes sem (state.done.reverse ++ .setLabel label :: rest) (state.done.reverse ++ rest) := by
  apply Deletes.label
  rw [← tcgOpRemove_eq valid.counts label]
  exact zero

/-- A label goes with the branch before it if that is its only reference. -/
theorem label_jump_step (sem : OpSemantics α σ) {earlier : List (TcgOp α)}
    {prev : TcgOp α} (valid : state.Valid (.setLabel label :: rest)) (one : state.refs label = 1)
    (split : state.done = prev :: earlier) (jumps : prev.isBrTo label) :
    PassState.Valid { refs := tcgOpRemove state.refs prev, dead := false, done := earlier } rest ∧
      Deletes sem (state.done.reverse ++ .setLabel label :: rest) (earlier.reverse ++ rest) := by
  obtain rfl : prev = .br label := by
    cases prev with
    | br target => rw [of_decide_eq_true jumps]
    | _ => cases jumps
  have list : state.done.reverse ++ .setLabel label :: rest = earlier.reverse ++
      .br label :: .setLabel label :: rest := by
    simp [split]
  have counts := valid.counts
  rw [list] at counts
  -- The label refers to nothing, so its own removal changes no count.
  have counts' : ∀ other, tcgOpRemove state.refs (.br label : TcgOp α) other =
      branchesTo other (earlier.reverse ++ rest) := by
    intro other
    rw [tcgOpRemove_eq counts other]
    simp [branchesTo, countP_append, TcgOp.branchLabel]
  have nodup := valid.distinct
  rw [list] at nodup
  constructor
  · constructor
    · exact counts'
    · apply nodup.sublist
      exact Sublist.append_left ((sublist_cons_self _ _).trans (sublist_cons_self _ _)) _
    · exact nofun
  · rw [list]
    apply Deletes.jump
    · rw [← counts' label]
      simp [tcgOpRemove, TcgOp.branchLabel, one]
    · -- A second label of this name would not be distinct.
      intro mem
      simp only [LabelsDistinct, filterMap_append, filterMap_cons, TcgOp.placed] at nodup
      rw [nodup_append] at nodup
      exact nodup.2.2 label (mem_filterMap.mpr ⟨_, mem, rfl⟩) label mem_cons_self rfl

/-- One round of the loop makes at most one deletion from the list. -/
theorem reachableStep_spec (sem : OpSemantics α σ)
    (valid : state.Valid (op :: rest)) (step : reachableStep state op = some state') :
    state'.Valid rest ∧
      Relation.ReflGen (Deletes sem) (state.done.reverse ++ op :: rest)
          (state'.done.reverse ++ rest) := by
  have kept : ∀ dead, Relation.ReflGen (Deletes sem) (state.done.reverse ++ op :: rest)
      ((state.leave op false dead).done.reverse ++ rest) := by
    intro dead
    simp only [PassState.leave, Bool.false_eq_true, if_false, reverse_cons,
      List.append_assoc, singleton_append]
    exact .refl
  by_cases isStart : op.isInsnStart = true
  · -- A mark stays, and what was dead stays dead behind it.
    obtain ⟨args, rfl⟩ : ∃ args, op = .insnStart args := by
      cases op with
      | insnStart args => exact ⟨args, rfl⟩
      | _ => cases isStart
    cases step
    refine ⟨valid.keep fun dead => ?_, kept _⟩
    obtain ⟨marks, barrier, earlier, split, areMarks, isBarrier⟩ := valid.barrier dead
    exact ⟨.insnStart args :: marks, barrier, earlier, by rw [split, List.cons_append],
      forall_mem_cons.mpr ⟨rfl, areMarks⟩, isBarrier⟩
  have notStart : op.isInsnStart = false := Bool.not_eq_true _ ▸ isStart
  cases placed : op.placed with
  | none =>
    rw [reachableStep_plain placed notStart] at step
    cases step
    cases dead : state.dead with
    | true => exact ⟨valid.remove fun _ => dead,
        .single (deletes_of_dead sem valid dead placed notStart)⟩
    | false =>
      refine ⟨valid.keep fun isBarrier => ?_, kept _⟩
      exact ⟨[], op, state.done, rfl, nofun, by simpa using isBarrier⟩
  | some label =>
    obtain rfl : op = .setLabel label := by
      cases op with
      | setLabel other => rw [Option.some.inj placed]
      | _ => cases placed
    simp only [reachableStep] at step
    split at step
    · next zero =>
      cases step
      exact ⟨valid.remove id, .single (label_unused_step sem valid zero)⟩
    split at step
    · next one =>
      split at step
      · cases step
      next prev earlier split =>
      split at step
      · next jumps =>
        cases step
        obtain ⟨valid', deletes⟩ := label_jump_step sem valid one split jumps
        exact ⟨valid', .single deletes⟩
      · cases step
        exact ⟨valid.keep nofun, kept false⟩
    · cases step
      exact ⟨valid.keep nofun, kept false⟩

/-- The step fails only for a label at the very start. -/
theorem reachableStep_possible (preceded : op.placed = none ∨ state.done ≠ []) :
    ∃ state', reachableStep state op = some state' := by
  cases op with
  | setLabel label =>
    have nonempty : state.done ≠ [] := by simpa [TcgOp.placed] using preceded
    simp only [reachableStep]
    split
    · exact ⟨_, rfl⟩
    split
    · split
      · next none => exact absurd none nonempty
      · split <;> exact ⟨_, rfl⟩
    · exact ⟨_, rfl⟩
  | _ => exact ⟨_, rfl⟩

theorem PassState.Anchored.leave (anchored : state.Anchored) (op : TcgOp α) (remove dead) :
    (state.leave op remove dead).Anchored := by
  obtain ⟨front, first, split, notBr⟩ := anchored
  cases remove with
  | true => exact ⟨front, first, split, notBr⟩
  | false => exact ⟨op :: front, first, by simp [PassState.leave, split], notBr⟩

theorem PassState.Anchored.step (anchored : state.Anchored)
    (step : reachableStep state op = some state') : state'.Anchored := by
  cases op with
  | setLabel label =>
    simp only [reachableStep] at step
    split at step
    · cases step
      exact anchored.leave _ _ _
    split at step
    · split at step
      · cases step
      next prev earlier split =>
      split at step
      · next jumps =>
        cases step
        -- The op removed is a branch, so it was not the first.
        obtain ⟨front, first, whole, notBr⟩ := anchored
        cases front with
        | nil =>
          obtain ⟨rfl, -⟩ := List.cons.inj (split.symm.trans whole)
          rw [notBr] at jumps
          cases jumps
        | cons head front =>
          obtain ⟨-, rfl⟩ := List.cons.inj (split.symm.trans whole)
          exact ⟨front, first, rfl, notBr⟩
      · cases step
        exact anchored.leave _ _ _
    · cases step
      exact anchored.leave _ _ _
  | _ =>
    cases step
    exact anchored.leave _ _ _

/-- The pass is a chain of deletions that change no run. -/
theorem foldlM_reachableStep_spec (sem : OpSemantics α σ)
    (valid : state.Valid ops) (folded : ops.foldlM reachableStep state = some state') :
    state'.Valid [] ∧ Relation.ReflTransGen (Deletes sem)
        (state.done.reverse ++ ops) state'.done.reverse := by
  induction ops generalizing state with
  | nil =>
    cases folded
    exact ⟨valid, by rw [append_nil]⟩
  | cons op rest ih =>
    rw [foldlM_cons] at folded
    obtain ⟨next, step, folded⟩ := Option.bind_eq_some_iff.mp folded
    obtain ⟨valid', deletes⟩ := reachableStep_spec sem valid step
    obtain ⟨valid'', deletes'⟩ := ih valid' folded
    exact ⟨valid'', deletes.to_reflTransGen.trans deletes'⟩

theorem foldlM_reachableStep_possible (ops : List (TcgOp α)) (anchored : state.Anchored) :
    ∃ state', ops.foldlM reachableStep state = some state' := by
  induction ops generalizing state with
  | nil => exact ⟨state, rfl⟩
  | cons op rest ih =>
    have preceded : state.done ≠ [] := by
      obtain ⟨front, first, split, -⟩ := anchored
      simp [split]
    obtain ⟨next, step⟩ := reachableStep_possible (.inr preceded)
    rw [foldlM_cons, step]
    exact ih (anchored.step step)

/-- A list that begins with neither a label nor an unconditional branch. -/
def BeginsPlain (ops : List (TcgOp α)) : Prop := ∀ op ∈ ops.head?, op.passesControl = false

theorem reachableCodePass_possible {refs} (begins : BeginsPlain ops) :
    ∃ result, reachableCodePass refs ops = some result := by
  cases ops with
  | nil => exact ⟨_, rfl⟩
  | cons op rest =>
    have plain : op.passesControl = false := begins op rfl
    -- The first op is not dead, so it stays, and no label removes it.
    obtain ⟨next, step, anchored⟩ : ∃ next,
        reachableStep { refs := refs, dead := false,
                        done := [] } op = some next ∧ next.Anchored := by
      cases op with
      | setLabel label => cases plain
      | br label => cases plain
      | _ => exact ⟨_, rfl, [], _, rfl, fun _ => rfl⟩
    obtain ⟨state', folded⟩ := foldlM_reachableStep_possible rest anchored
    rw [reachableCodePass, foldlM_cons, step]
    exact ⟨_, congrArg (Option.map _) folded⟩

/-- The pass keeps every execution. It ends with exact reference counts and all marks of guest
instructions; it removes labels without a reference, branches to the next op with their label, and
ops that no run reaches, and both lists perform the same ops up to such labels and branches. It can
fail only by looking for an op before the first, which a list that begins plainly excludes. -/
theorem reachableCodePass_preserves (sem : OpSemantics α σ)
    (refs : Nat → Nat) (ops : List (TcgOp α))
    (counts : ∀ label, refs label = branchesTo label ops) (distinct : LabelsDistinct ops) :
    (BeginsPlain ops → ∃ result, reachableCodePass refs ops = some result) ∧
    ∀ refs' ops', reachableCodePass refs ops = some (refs', ops') →
      (∀ label, refs' label = branchesTo label ops') ∧
      ops'.filter TcgOp.isInsnStart = ops.filter TcgOp.isInsnStart ∧
      Relation.ReflTransGen (Deletes sem) ops ops' ∧ SameRuns sem.machine ops ops' := by
  refine ⟨reachableCodePass_possible, ?_⟩
  intro refs' ops' result
  obtain ⟨state', folded, same⟩ := Option.map_eq_some_iff.mp result
  cases same
  have start : PassState.Valid { refs := refs, dead := false, done := [] } ops :=
    ⟨counts, distinct, nofun⟩
  obtain ⟨valid, deletes⟩ := foldlM_reachableStep_spec sem start folded
  refine ⟨?_, insnStarts_of_deletions deletes, deletes, sameRuns_of_deletions deletes⟩
  intro label
  rw [valid.counts label, append_nil]

/-- A helper that does not return makes the only branch to the label dead. -/
def sampleOps : List (TcgOp Nat) :=
  [.insnStart 0, .call 1 tcgCallNoReturn, .other 2, .br 0, .insnStart 3, .setLabel 0, .exitTb 4]

/-- The sample list loses four ops, keeps its marks and runs as before. -/
theorem reachableCodePass_preserves_sample :
    reachableCodePass (fun label => branchesTo label sampleOps) sampleOps =
        some (tcgOpRemove (fun label => branchesTo label sampleOps) (.br 0 : TcgOp Nat),
          [.insnStart 0, .call 1 tcgCallNoReturn, .insnStart 3]) ∧
      SameRuns (OpSemantics.machine ⟨fun _ _ _ => true, fun _ (state : Nat) => state + 1,
        fun _ _ => false⟩) sampleOps [.insnStart 0, .call 1 tcgCallNoReturn, .insnStart 3] := by
  have result : reachableCodePass (fun label => branchesTo label sampleOps) sampleOps =
      some (tcgOpRemove (fun label => branchesTo label sampleOps) (.br 0 : TcgOp Nat),
        [.insnStart 0, .call 1 tcgCallNoReturn, .insnStart 3]) := rfl
  exact ⟨result,
    ((reachableCodePass_preserves _ _ sampleOps (fun _ => rfl) (by decide)).2 _ _ result).2.2.2⟩

/-- A first label that is referred to once makes the pass look before its first op. -/
theorem reachableCodePass_label_first :
    (∀ label, (if label = 0 then 1 else 0) =
      branchesTo label ([.setLabel 0, .br 0] : List (TcgOp Nat))) ∧
      LabelsDistinct ([.setLabel 0, .br 0] : List (TcgOp Nat)) ∧
      reachableCodePass (fun label => if label = 0 then 1 else 0)
      ([.setLabel 0, .br 0] : List (TcgOp Nat)) = none := by
  refine ⟨?_, by decide, rfl⟩
  intro label
  by_cases zero : label = 0
  · simp [branchesTo, TcgOp.branchLabel, zero]
  · simp [branchesTo, TcgOp.branchLabel, zero, eq_comm]

end Qemu.Tcg
