import Qemu.Block.BlockCopyLedger
import Qemu.Lib.Transition

/-! Concurrent `block_copy` calls lose no cluster, and each answers for its own range and tasks. -/

namespace Qemu.BlockCopy

open Align Keyed Option

variable {cfg : Config} {ret : Int}

def Pc.preparing : Pc → Bool
  | .status _ => true
  | .memory _ => true
  | _ => false

/-- What holds of a call, given the failures so far. -/
structure CallOk (cfg : Config) (failures : List (Nat × Int)) (i : Nat) (c : Call) : Prop where
  offset_dvd : cfg.clusterSize ∣ c.offset
  bytes_dvd : cfg.clusterSize ∣ c.bytes
  cur_dvd : cfg.clusterSize ∣ c.cur
  left_dvd : cfg.clusterSize ∣ c.left
  start : c.foundDirty = false → c.cur = c.offset ∧ c.left = c.bytes
  found : c.aio ≠ none → c.foundDirty = true
  taken : c.pc.preparing = true → c.foundDirty = true
  pool : ∀ pool ∈ c.aio, pool.status < 0 → (i, pool.status) ∈ failures
  error : ∀ ret, c.pc = .done ret → ret < 0 → (i, ret) ∈ failures

namespace CallOk

variable {failures : List (Nat × Int)} {i : Nat} {c : Call}

section

variable (ok : CallOk cfg failures i c)

include ok

theorem dirtyClusters : CallOk cfg failures i (dirtyClusters c) where
  offset_dvd := ok.offset_dvd
  bytes_dvd := ok.bytes_dvd
  cur_dvd := ok.offset_dvd
  left_dvd := ok.bytes_dvd
  start _ := ⟨rfl, rfl⟩
  found some := absurd rfl some
  taken loop := by cases loop
  pool _ none := by cases none
  error _ loop := by cases loop

theorem mono (failure : Nat × Int) : CallOk cfg (failure :: failures) i c :=
  { ok with
    pool := fun pool isPool failed => List.mem_cons_of_mem _ (ok.pool pool isPool failed)
    error := fun ret isDone failed => List.mem_cons_of_mem _ (ok.error ret isDone failed) }

theorem move {pc} (taken : pc.preparing → c.foundDirty)
    (error : ∀ ret, pc = .done ret → ret < 0 → (i, ret) ∈ failures) :
    CallOk cfg failures i { c with pc } :=
  { ok with taken, error }

theorem advance (taken : c.foundDirty) {task}
    (chunk : Chunk cfg task.offset task.bytes) : CallOk cfg failures i (c.advance task) :=
  have end_dvd := Nat.dvd_add chunk.offset_dvd chunk.bytes_dvd
  { ok with
    start := fun notFound => absurd (notFound.symm.trans taken) Bool.false_ne_true
    cur_dvd := end_dvd
    left_dvd := Nat.dvd_sub (Nat.dvd_add ok.offset_dvd ok.bytes_dvd) end_dvd }

theorem poolDone (own : ret < 0 → (i, ret) ∈ failures) :
    CallOk cfg failures i { c with aio := c.aio.map (poolTaskDone ret) } := by
  refine { ok with
    found := fun some => ok.found fun none => some ?_, pool := fun pool isPool negative => ?_ }
  · simp [none]
  · obtain ⟨old, isOld, rfl⟩ := Option.mem_map.mp isPool
    simp only [poolTaskDone] at negative ⊢
    split at negative
    · rename_i first
      rw [if_pos first]
      exact own first.1
    · rename_i notFirst
      rw [if_neg notFirst]
      exact ok.pool old isOld negative

end

end CallOk

/-- What holds at all times, with the clusters that were dirty at first. -/
structure Sound (cfg : Config) (was : Nat → Bool) (s : State) : Prop where
  ledger : Ledger cfg was s.dirty s.tasks s.inFlightBytes s.outcome s.nextId
  calls : ∀ i, CallOk cfg s.failures i (s.calls i)
  copySize : cfg.clusterSize ∣ s.copySize ∧ 0 < s.copySize
  transfer : s.useCopyRange = true → cfg.clusterSize ≤ cfg.maxTransfer

variable {was : Nat → Bool} {s : State} {i : Nat} {c : Call} {task : BlockCopyTask}

theorem callOk_restartAll {calls failures}
    (ok : ∀ i, CallOk cfg failures i (calls i)) (task i) :
    CallOk cfg failures i (restartAll calls task i) := by
  rw [restartAll]
  split
  · exact (ok i).dirtyClusters
  · exact ok i

theorem Sound.setCall (sound : Sound cfg was s) (ok : CallOk cfg s.failures i c) :
    Sound cfg was (s.setCall i c) := by
  refine ⟨sound.ledger, fun j => ?_, sound.copySize, sound.transfer⟩
  by_cases same : j = i
  · subst same
    simpa only [State.setCall, Function.update_self] using ok
  · simpa only [State.setCall, Function.update_of_ne same] using sound.calls j

theorem clusterSize_dvd_max {size} (power : ∃ k, size = 2 ^ k) :
    cfg.clusterSize ∣ max cfg.clusterSize size := by
  obtain ⟨k, rfl⟩ := power
  rw [Config.clusterSize]
  rcases Nat.le_total cfg.clusterBits k with below | above
  · rw [max_eq_right (Nat.pow_le_pow_right Nat.two_pos below)]
    exact Nat.pow_dvd_pow 2 below
  · rw [max_eq_left (Nat.pow_le_pow_right Nat.two_pos above)]

theorem maxBuffer_copySize : cfg.clusterSize ∣ max cfg.clusterSize maxBuffer ∧
    0 < max cfg.clusterSize maxBuffer :=
  ⟨clusterSize_dvd_max ⟨20, rfl⟩, by have := cfg.clusterSize_pos; omega⟩

/-- The size for `copy_range` is a positive number of clusters. -/
theorem range_copySize (transfer : cfg.clusterSize ≤ cfg.maxTransfer) :
    cfg.clusterSize ∣ min (max cfg.clusterSize maxCopyRange)
      (floorTo cfg.clusterSize cfg.maxTransfer) ∧
      0 < min (max cfg.clusterSize maxCopyRange) (floorTo cfg.clusterSize cfg.maxTransfer) := by
  have pos := cfg.clusterSize_pos
  have atLeast : cfg.clusterSize ≤ floorTo cfg.clusterSize cfg.maxTransfer :=
    Nat.le_mul_of_pos_left _ (Nat.div_pos transfer pos)
  refine ⟨?_, by omega⟩
  rcases min_choice (max cfg.clusterSize maxCopyRange)
    (floorTo cfg.clusterSize cfg.maxTransfer) with is | is
  · rw [is]
    exact clusterSize_dvd_max ⟨24, rfl⟩
  · rw [is]
    exact Nat.dvd_mul_left _ _

section

variable (sound : Sound cfg was s)

include sound

/-- Creating a task over dirty clusters keeps the state sound. -/
theorem Sound.create {offset bytes} (offset_dvd : cfg.clusterSize ∣ offset)
    (bytes_dvd : cfg.clusterSize ∣ bytes) {s'}
    (created : blockCopyTaskCreate cfg s i offset bytes = some (task, s')) :
    Sound cfg was s' ∧ s'.failures = s.failures := by
  rw [blockCopyTaskCreate] at created
  split at created
  · simp at created
  rename_i first count found
  cases created
  obtain ⟨chunk, isDirty⟩ :=
    nextDirtyArea_some offset_dvd (Nat.dvd_add offset_dvd bytes_dvd) sound.copySize.1
    sound.copySize.2 found
  refine ⟨⟨?_, sound.calls, sound.copySize, sound.transfer⟩, rfl⟩
  exact sound.ledger.create ⟨s.nextId, i, first, count, false, none, false⟩ rfl chunk isDirty

theorem Sound.putToShres (bytes) : Sound cfg was (s.putToShres bytes) :=
  ⟨sound.ledger, sound.calls, sound.copySize, sound.transfer⟩

/-- The turn of the outer loop keeps the state sound. -/
theorem Sound.round (ok : CallOk cfg s.failures i c)
    (own : ret < 0 → (i, ret) ∈ s.failures) : Sound cfg was (blockCopyRound s i c ret) := by
  rw [blockCopyRound]
  split
  · split
    · exact sound.setCall (ok.move nofun nofun)
    · refine sound.setCall (ok.move nofun fun ret isDone failed => ?_)
      cases isDone
      exact absurd failed (Int.lt_irrefl 0)
  split
  · exact sound.setCall ok.dirtyClusters
  · refine sound.setCall (ok.move nofun fun _ isDone failed => ?_)
    cases isDone
    exact own failed

theorem Sound.out (ok : CallOk cfg s.failures i c)
    (own : c.aio = none → ret < 0 → (i, ret) ∈ s.failures) :
    Sound cfg was (dirtyClustersOut s i c ret) := by
  rw [dirtyClustersOut]
  split
  · rename_i noPool
    refine sound.round ok fun negative => ?_
    rw [dirtyClustersRet] at negative ⊢
    split at negative
    · rw [if_pos ‹_›]
      exact own noPool ‹_›
    · split at negative <;> exact absurd negative (by decide)
  · exact sound.setCall (ok.move nofun nofun)

theorem Sound.loopStep : Sound cfg was (loopStep cfg s i (s.calls i)) := by
  have ok := sound.calls i
  rw [BlockCopy.loopStep]
  split
  · split
    · exact sound.out ok fun _ negative => absurd negative (Int.lt_irrefl 0)
    rename_i task s' created
    obtain ⟨sound', failures⟩ := sound.create ok.cur_dvd ok.left_dvd created
    refine sound'.setCall ?_
    rw [failures]
    exact { ok with start := nofun, found := fun _ => rfl, taken := fun _ => rfl, error := nofun }
  · exact sound.out ok fun _ negative => absurd negative (Int.lt_irrefl 0)

end

theorem Sound.waitAllStep (sound : Sound cfg was s) {pool} (isPool : (s.calls i).aio = some pool) :
    Sound cfg was (waitAllStep s i (s.calls i) pool) := by
  have ok := sound.calls i
  have freed : CallOk cfg s.failures i { s.calls i with aio := none } :=
    { ok with found := fun some => absurd rfl some, pool := fun _ none => by cases none }
  refine sound.round freed fun negative => ?_
  rw [dirtyClustersRet] at negative ⊢
  split at negative
  · rw [if_pos ‹_›]
    exact ok.pool pool isPool ‹_›
  · split at negative <;> exact absurd negative (by decide)

section

variable (sound : Sound cfg was s) (found : lookup BlockCopyTask.id s.tasks task.id = some task)

include sound found

theorem Sound.shrink {newBytes} (pos : 0 < newBytes) (whole : cfg.clusterSize ∣ newBytes)
    (less : newBytes < task.bytes) : Sound cfg was (blockCopyTaskShrink cfg s task newBytes) := by
  rw [blockCopyTaskShrink, if_neg (ne_of_lt less)]
  exact ⟨sound.ledger.shrink found pos whole less,
    callOk_restartAll sound.calls task.id, sound.copySize, sound.transfer⟩

theorem Sound.endFailed (failed : ret < 0) : Sound cfg was (blockCopyTaskEnd cfg s task ret) := by
  rw [blockCopyTaskEnd, if_pos failed]
  exact ⟨sound.ledger.remove_failed found, callOk_restartAll sound.calls task.id,
    sound.copySize, sound.transfer⟩

theorem Sound.endSettled (success : ¬ ret < 0) (how) :
    Sound cfg was ((blockCopyTaskEnd cfg s task ret).settle cfg task how) := by
  rw [blockCopyTaskEnd, if_neg success]
  exact ⟨sound.ledger.remove_settled found how, callOk_restartAll sound.calls task.id,
    sound.copySize, sound.transfer⟩

theorem Sound.modifyTask {f} (sameId : ∀ t, (f t).id = t.id)
    (sameOffset : ∀ t, (f t).offset = t.offset)
    (sameBytes : ∀ t, (f t).bytes = t.bytes) : Sound cfg was (s.modifyTask task.id f) :=
  ⟨sound.ledger.change found (sameId task) (sameOffset task) (sameBytes task),
    sound.calls, sound.copySize, sound.transfer⟩

theorem Sound.statusStep (taken : (s.calls i).foundDirty) (answer) :
    Sound cfg was (statusStep cfg s i (s.calls i) task answer) := by
  have blockStatus_num : cfg.clusterSize ∣ (blockCopyBlockStatus cfg task.offset answer).num ∧ 0 <
      (blockCopyBlockStatus cfg task.offset answer).num := by
    have pos := cfg.clusterSize_pos
    rw [blockCopyBlockStatus]
    split
    · exact ⟨Nat.dvd_refl _, pos⟩
    rename_i enough
    have enough : cfg.clusterSize ≤ answer.num := by
      rw [not_or] at enough
      omega
    split
    · exact ⟨Nat.dvd_mul_left _ _, lt_of_lt_of_le pos (le_trans enough (le_ceilTo pos _))⟩
    · refine ⟨Nat.dvd_mul_left _ _, Nat.mul_pos (Nat.div_pos enough pos) pos⟩
  obtain ⟨whole, pos⟩ := blockStatus_num
  rw [BlockCopy.statusStep]
  generalize blockCopyBlockStatus cfg task.offset answer = status at whole pos
  -- The task after the cut, which is still in the list.
  obtain ⟨s', task', is, is', sound', found', ok⟩ : ∃ (s' : State) (task' : BlockCopyTask),
      (if status.num < task.bytes then blockCopyTaskShrink cfg s task status.num else s) = s' ∧
      (if status.num < task.bytes then { task with bytes := status.num } else task) = task' ∧
      Sound cfg was s' ∧ lookup BlockCopyTask.id s'.tasks task'.id = some task' ∧
      CallOk cfg s'.failures i (s.calls i) := by
    split
    · rename_i less
      refine ⟨_, _, rfl, rfl, sound.shrink found pos whole less, ?_, ?_⟩
      · rw [blockCopyTaskShrink, if_neg (ne_of_lt less)]
        exact lookup_modify found fun _ => rfl
      · rw [blockCopyTaskShrink, if_neg (ne_of_lt less)]
        exact sound.calls i
    · exact ⟨_, _, rfl, rfl, sound, found, sound.calls i⟩
  simp only [is, is']
  split
  · refine (sound'.endSettled found' (by decide) .skipped).setCall ?_
    exact (ok.advance taken (sound'.ledger.chunk task' (mem_of_lookup found').1)).move nofun nofun
  · refine Sound.setCall ?_ (ok.move (fun _ => taken) nofun)
    exact sound'.modifyTask found' (fun _ => rfl) (fun _ => rfl) fun _ => rfl

theorem Sound.startTask (pooled) : Sound cfg was (startTask s task pooled) :=
  sound.modifyTask found (fun _ => rfl) (fun _ => rfl) fun _ => rfl

theorem Sound.memoryStep (taken : (s.calls i).foundDirty) :
    Sound cfg was (memoryStep s i (s.calls i) task) := by
  have reserved : Sound cfg was { s with available := s.available - task.bytes } :=
    ⟨sound.ledger, sound.calls, sound.copySize, sound.transfer⟩
  have ok := (sound.calls i).advance taken (sound.ledger.chunk task (mem_of_lookup found).1)
  rw [BlockCopy.memoryStep]
  split
  · exact reserved.setCall (ok.move nofun nofun)
  split
  · refine reserved.setCall { ok with
    found := fun _ => taken, taken := nofun, pool := ?_, error := nofun }
    rintro pool ⟨⟩ failed
    exact absurd failed (Int.lt_irrefl 0)
  · exact (reserved.startTask found false).setCall (ok.move nofun nofun)

theorem Sound.slotStep {pool} (isPool : (s.calls i).aio = some pool) :
    Sound cfg was (slotStep cfg s i (s.calls i) task pool) := by
  have ok := sound.calls i
  rw [BlockCopy.slotStep]
  split
  · refine ((sound.putToShres task.bytes).endFailed found (by decide)).out ok fun noPool => ?_
    rw [noPool] at isPool
    cases isPool
  rename_i running
  refine (sound.startTask found true).setCall
    { ok with found := ?_, taken := nofun, pool := ?_, error := nofun }
  · exact fun _ => ok.found (by rw [isPool]; exact some_ne_none _)
  · rintro next ⟨⟩ failed
    exact absurd failed running

/-- The end of a task keeps the state sound. -/
theorem Sound.taskEntryDone (ret isRead) : Sound cfg was (taskEntryDone cfg s task ret isRead) := by
  rw [BlockCopy.taskEntryDone]
  by_cases failed : ret < 0
  · have ended := (sound.putToShres task.bytes).endFailed found failed
    simp only [failed, true_and, if_true]
    generalize blockCopyTaskEnd cfg (s.putToShres task.bytes) task ret = s' at ended
    have recorded : Sound cfg was { s' with failures := (task.call, ret) :: s'.failures } :=
      ⟨ended.ledger, fun i => (ended.calls i).mono _, ended.copySize, ended.transfer⟩
    have ok : CallOk cfg ((task.call, ret) :: s'.failures) task.call
        (if (s'.calls task.call).failed = false
          then { s'.calls task.call with failed := true, errorIsRead := isRead }
          else s'.calls task.call) := by
      split
      · exact { recorded.calls task.call with }
      · exact recorded.calls task.call
    generalize (if (s'.calls task.call).failed = false then _ else s'.calls task.call) = c at ok
    split
    · exact recorded.setCall (ok.poolDone fun _ => List.mem_cons_self)
    · exact recorded.out ok fun _ _ => List.mem_cons_self
  have ended := (sound.putToShres task.bytes).endSettled found failed .copied
  simp only [failed, false_and, if_false]
  have ok := ended.calls task.call
  split
  · exact ended.setCall (ok.poolDone fun negative => absurd negative failed)
  · exact ended.setCall (ok.move nofun nofun)

theorem Sound.ioStep (op ret) : Sound cfg was (ioStep cfg s task op ret) := by
  cases op with
  | writeZeroes => exact sound.taskEntryDone found ret false
  | copyRange =>
    rw [BlockCopy.ioStep]
    split
    · have slower :
        Sound cfg was { s with useCopyRange := false, copySize := max cfg.clusterSize maxBuffer } :=
        ⟨sound.ledger, sound.calls, maxBuffer_copySize,
          fun range => absurd range Bool.false_ne_true⟩
      exact slower.modifyTask found (fun _ => rfl) (fun _ => rfl) fun _ => rfl
    -- Once `copy_range` has worked, larger chunks are asked for.
    have sized : Sound cfg was { s with
        copySize := if s.useCopyRange then min (max cfg.clusterSize maxCopyRange)
          (floorTo cfg.clusterSize cfg.maxTransfer) else s.copySize } := by
      refine ⟨sound.ledger, sound.calls, ?_, sound.transfer⟩
      simp only
      split
      · exact range_copySize (sound.transfer ‹_›)
      · exact sound.copySize
    exact sized.taskEntryDone found ret false
  | read =>
    rw [BlockCopy.ioStep]
    split
    · exact sound.taskEntryDone found ret true
    · exact sound.modifyTask found (fun _ => rfl) (fun _ => rfl) fun _ => rfl
  | write => exact sound.taskEntryDone found ret false

end

variable {s' : State}

/-- Nothing is left to do in the range of a call: no dirty bit and no task. -/
def Idle (cfg : Config) (s : State) (c : Call) : Prop :=
  (∀ k, s.dirty k = true → ¬ cfg.Within c.offset c.bytes k) ∧
    ∀ task ∈ s.tasks, c.offset + c.bytes ≤ task.offset ∨ taskEnd task ≤ c.offset

def Quiet (s s' : State) : Prop := ∀ j, (s'.calls j).pc = .done 0 → (s.calls j).pc = .done 0

theorem Quiet.setCall (quiet : Quiet s s') (kept : c.pc = .done 0 → (s.calls i).pc = .done 0) :
    Quiet s (s'.setCall i c) := by
  intro j isDone
  by_cases same : j = i
  · subst same
    simp only [State.setCall, Function.update_self] at isDone
    exact kept isDone
  · simp only [State.setCall, Function.update_of_ne same] at isDone
    exact quiet j isDone

theorem Quiet.restartAll (quiet : Quiet s s') {next id}
    (calls : next.calls = restartAll s'.calls id) : Quiet s next := by
  intro j isDone
  rw [calls, BlockCopy.restartAll] at isDone
  split at isDone
  · cases isDone
  · exact quiet j isDone

theorem Quiet.shrink (quiet : Quiet s s') (newBytes) :
    Quiet s (blockCopyTaskShrink cfg s' task newBytes) := by
  rw [blockCopyTaskShrink]
  split
  · exact quiet
  · exact quiet.restartAll rfl

theorem Quiet.round (quiet : Quiet s s') (some : ret ≠ 0) :
    Quiet s (blockCopyRound s' i c ret) := by
  rw [blockCopyRound, if_neg some]
  split
  · exact quiet.setCall nofun
  · refine quiet.setCall fun isDone => ?_
    exact absurd (Pc.done.inj isDone) some

theorem dirtyClustersRet_ne_zero (busy : c.foundDirty ∨ ret < 0) : dirtyClustersRet c ret ≠ 0 := by
  rw [dirtyClustersRet]
  split
  · omega
  · rw [if_pos (busy.resolve_right ‹_›)]
    decide

theorem Quiet.out (quiet : Quiet s s') (busy : c.foundDirty ∨ ret < 0) :
    Quiet s (dirtyClustersOut s' i c ret) := by
  rw [dirtyClustersOut]
  split
  · exact quiet.round (dirtyClustersRet_ne_zero busy)
  · exact quiet.setCall nofun

theorem Quiet.refl (s) : Quiet s s := fun _ => id

/-- The end of a task returns from no call. -/
theorem Quiet.taskEntryDone (ret isRead) : Quiet s (taskEntryDone cfg s task ret isRead) := by
  rw [BlockCopy.taskEntryDone]
  have ended : Quiet s (blockCopyTaskEnd cfg (s.putToShres task.bytes) task ret) :=
    (Quiet.refl s).restartAll rfl
  generalize blockCopyTaskEnd cfg (s.putToShres task.bytes) task ret = s' at ended
  have same : (if ret < 0 ∧ (s'.calls task.call).failed = false then
      { s'.calls task.call with
        failed := true, errorIsRead := isRead } else s'.calls task.call).pc =
        (s'.calls task.call).pc := by
    split <;> rfl
  generalize (if ret < 0 ∧ (s'.calls task.call).failed = false
    then _ else s'.calls task.call) = c at same
  have recorded : Quiet s (if ret < 0 then { s' with failures := (task.call, ret) :: s'.failures }
      else s'.settle cfg task .copied) := by
    split <;> exact ended
  generalize (if ret < 0 then { s' with failures := (task.call, ret) :: s'.failures }
    else s'.settle cfg task .copied) = next at recorded ⊢
  split
  · refine recorded.setCall fun isDone => ?_
    exact ended task.call (same.symm.trans isDone)
  · split
    · exact recorded.out (.inr ‹_›)
    · exact recorded.setCall nofun

theorem Quiet.ioStep (op ret) : Quiet s (ioStep cfg s task op ret) := by
  cases op with
  | writeZeroes => exact Quiet.taskEntryDone ret false
  | copyRange =>
    rw [BlockCopy.ioStep]
    split
    · exact Quiet.refl s
    · exact Quiet.taskEntryDone (s := { s with copySize := _ }) ret false
  | read =>
    rw [BlockCopy.ioStep]
    split
    · exact Quiet.taskEntryDone ret true
    · exact Quiet.refl s
  | write => exact Quiet.taskEntryDone ret false

theorem Quiet.statusStep (answer) : Quiet s (statusStep cfg s i c task answer) := by
  simp only [BlockCopy.statusStep]
  have cut : Quiet s (if (blockCopyBlockStatus cfg task.offset answer).num < task.bytes then
      blockCopyTaskShrink cfg s task (blockCopyBlockStatus cfg task.offset answer).num else s) := by
    split
    · exact (Quiet.refl s).shrink _
    · exact Quiet.refl s
  generalize (if (blockCopyBlockStatus cfg task.offset answer).num < task.bytes then
    blockCopyTaskShrink cfg s task (blockCopyBlockStatus cfg task.offset answer).num else s) =
      s' at cut ⊢
  split
  · refine Quiet.setCall ?_ nofun
    exact Quiet.restartAll cut rfl
  · refine Quiet.setCall ?_ nofun
    exact cut

theorem Quiet.memoryStep : Quiet s (memoryStep s i c task) := by
  rw [BlockCopy.memoryStep]
  split
  · exact (Quiet.refl s).setCall nofun
  · split <;> exact (Quiet.refl s).setCall nofun

theorem Quiet.slotStep (pool) : Quiet s (slotStep cfg s i c task pool) := by
  rw [BlockCopy.slotStep]
  split
  · exact Quiet.out ((Quiet.refl s).restartAll rfl) (.inr (by decide))
  · exact (Quiet.refl s).setCall nofun

/-- A call returns 0 only when nothing of its range is left to copy. -/
theorem round_idle (clean : ∀ k, s.dirty k → ¬ cfg.Within c.offset c.bytes k) (j)
    (isDone : ((blockCopyRound s i c ret).calls j).pc = .done 0) :
    (s.calls j).pc = .done 0 ∨ Idle cfg (blockCopyRound s i c ret)
    ((blockCopyRound s i c ret).calls j) := by
  by_cases zero : ret = 0
  · rw [blockCopyRound, if_pos zero] at isDone ⊢
    cases conflict : findConflictingTask s.tasks c.offset c.bytes with
    | some task =>
      simp only [conflict] at isDone
      have waits : Quiet s (s.setCall i { c with pc := .waiting task.id }) :=
        (Quiet.refl s).setCall nofun
      exact .inl (waits j isDone)
    | none =>
      simp only [conflict] at isDone ⊢
      by_cases same : j = i
      · subst same
        right
        simp only [State.setCall, Function.update_self]
        refine ⟨clean, fun task listed => ?_⟩
        have apart := List.find?_eq_none.mp conflict task listed
        simp only [Bool.and_eq_true, decide_eq_true_eq, not_and] at apart
        simp only [taskEnd]
        omega
      · simp only [State.setCall, Function.update_of_ne same] at isDone
        exact .inl isDone
  · exact .inl ((Quiet.refl s).round zero j isDone)

theorem out_idle (clean : c.foundDirty = false → c.aio = none → ∀ k, s.dirty k →
    ¬ cfg.Within c.offset c.bytes k)
    (j) (isDone : ((dirtyClustersOut s i c ret).calls j).pc = .done 0) :
    (s.calls j).pc = .done 0 ∨ Idle cfg (dirtyClustersOut s i c ret)
    ((dirtyClustersOut s i c ret).calls j) := by
  -- A call that has found something goes around once more.
  by_cases found : c.foundDirty = true
  · exact .inl ((Quiet.refl s).out (.inl found) j isDone)
  cases noPool : c.aio with
  | none =>
    simp only [dirtyClustersOut, noPool] at isDone ⊢
    exact round_idle (clean (Bool.eq_false_of_not_eq_true found) noPool) j isDone
  | some pool =>
    have waits : Quiet s (s.setCall i { c with pc := .waitAll }) := (Quiet.refl s).setCall nofun
    simp only [dirtyClustersOut, noPool] at isDone
    exact .inl (waits j (by simpa only [noPool] using isDone))

/-- The head of the loop returns zero only if nothing is left to do in the range. -/
theorem loopStep_idle (sound : Sound cfg was s) (j)
    (isDone : ((loopStep cfg s i (s.calls i)).calls j).pc = .done 0) :
    (s.calls j).pc = .done 0 ∨ Idle cfg (loopStep cfg s i (s.calls i))
    ((loopStep cfg s i (s.calls i)).calls j) := by
  have ok := sound.calls i
  by_cases more : (s.calls i).left ≠ 0 ∧ aioTaskPoolStatus (s.calls i).aio = 0
  · -- Without a task the rest of the range has no dirty cluster.
    cases created : blockCopyTaskCreate cfg s i (s.calls i).cur (s.calls i).left with
    | none =>
      simp only [loopStep, if_pos more, created] at isDone ⊢
      refine out_idle (fun notFound _ k isDirty => ?_) j isDone
      have create_none : ¬ cfg.Within ((s.calls i).cur) ((s.calls i).left) k := by
        intro within
        rw [blockCopyTaskCreate] at created
        split at created
        · rename_i nothing
          have clean := nextDirtyArea_none ok.cur_dvd nothing k within.1 within.2
            (sound.ledger.inside k isDirty)
          exact Bool.false_ne_true (clean.symm.trans isDirty)
        · simp at created
      have clean := create_none
      rwa [(ok.start notFound).1, (ok.start notFound).2] at clean
    | some pair =>
      obtain ⟨task, s'⟩ := pair
      simp only [loopStep, if_pos more, created] at isDone
      have create_calls : s'.calls = s.calls := by
        rw [blockCopyTaskCreate] at created
        split at created
        · simp at created
        · rw [← (Prod.mk.inj (Option.some.inj created)).2]
      have quiet : Quiet s s' := fun k isDone => by rwa [create_calls] at isDone
      have took :
        Quiet s (s'.setCall i { s.calls i with foundDirty := true, pc := .status task.id }) :=
        quiet.setCall nofun
      exact .inl (took j isDone)
  rw [loopStep, if_neg more] at isDone ⊢
  refine out_idle (fun notFound noPool k isDirty within => more ⟨fun empty => ?_, ?_⟩) j isDone
  · -- The range is empty.
    rw [(ok.start notFound).2] at empty
    rw [Config.Within, empty] at within
    omega
  · rw [noPool]
    rfl

/-- Every step keeps the invariant, and a call that returns zero has nothing left in its range. -/
theorem Sound.step (sound : Sound cfg was s) {event} (stepped : step cfg s event = some s') :
    Sound cfg was s' ∧ ∀ j, (s'.calls j).pc = .done 0 →
        (s.calls j).pc = .done 0 ∨ Idle cfg s' (s'.calls j) := by
  cases event with
  | call i offset bytes =>
    simp only [BlockCopy.step, ite_none_right_eq_some] at stepped
    obtain ⟨⟨_, offset_dvd, bytes_dvd⟩, ⟨⟩⟩ := stepped
    constructor
    · refine sound.setCall ⟨offset_dvd, bytes_dvd, offset_dvd, bytes_dvd,
        fun _ => ⟨rfl, rfl⟩, ?_, nofun, nofun, nofun⟩
      exact fun some => absurd rfl some
    · have begins : Quiet s (s.setCall i (dirtyClusters { s.calls i with offset, bytes })) :=
        (Quiet.refl s).setCall nofun
      exact fun j isDone => .inl (begins j isDone)
  | loop i =>
    simp only [BlockCopy.step, ite_none_right_eq_some] at stepped
    obtain ⟨_, ⟨⟩⟩ := stepped
    exact ⟨sound.loopStep, loopStep_idle sound⟩
  | status i answer =>
    simp only [BlockCopy.step] at stepped
    split at stepped
    · rename_i pc
      obtain ⟨task, found, rfl⟩ := map_eq_some_iff.mp stepped
      obtain rfl := (mem_of_lookup found).2
      exact ⟨sound.statusStep found ((sound.calls i).taken (by rw [pc]; rfl)) answer,
        fun j isDone => .inl (Quiet.statusStep answer j isDone)⟩
    · simp at stepped
  | memory i =>
    simp only [BlockCopy.step] at stepped
    split at stepped
    · rename_i pc
      obtain ⟨task, found, stepped⟩ := bind_eq_some_iff.mp stepped
      simp only [ite_none_right_eq_some] at stepped
      obtain ⟨_, ⟨⟩⟩ := stepped
      obtain rfl := (mem_of_lookup found).2
      exact ⟨sound.memoryStep found ((sound.calls i).taken (by rw [pc]; rfl)),
        fun j isDone => .inl (Quiet.memoryStep j isDone)⟩
    · simp at stepped
  | slot i =>
    simp only [BlockCopy.step] at stepped
    split at stepped
    · rename_i isPool
      obtain ⟨task, found, stepped⟩ := bind_eq_some_iff.mp stepped
      simp only [ite_none_right_eq_some] at stepped
      obtain ⟨_, ⟨⟩⟩ := stepped
      obtain rfl := (mem_of_lookup found).2
      exact ⟨sound.slotStep found isPool, fun j isDone => .inl (Quiet.slotStep _ j isDone)⟩
    · simp at stepped
  | waitAll i =>
    simp only [BlockCopy.step] at stepped
    split at stepped
    · rename_i pool _ isPool
      simp only [ite_none_right_eq_some] at stepped
      obtain ⟨_, ⟨⟩⟩ := stepped
      -- There is a pool because something was found.
      have found := (sound.calls i).found (by rw [isPool]; exact some_ne_none _)
      exact ⟨sound.waitAllStep isPool,
        fun j isDone =>
          .inl ((Quiet.refl s).round (dirtyClustersRet_ne_zero (.inl found)) j isDone)⟩
    · simp at stepped
  | io id ret =>
    simp only [BlockCopy.step] at stepped
    obtain ⟨task, found, stepped⟩ := bind_eq_some_iff.mp stepped
    obtain ⟨op, _, rfl⟩ := map_eq_some_iff.mp stepped
    obtain rfl := (mem_of_lookup found).2
    exact ⟨sound.ioStep found op ret, fun j isDone => .inl (Quiet.ioStep op ret j isDone)⟩
  | setSkipUnallocated skip =>
    simp only [BlockCopy.step] at stepped
    cases stepped
    exact ⟨⟨sound.ledger, sound.calls, sound.copySize, sound.transfer⟩, fun _ => .inl⟩

/-- A fresh state is sound: no task, nothing in flight. -/
theorem sound_new (cfg) (dirty : Nat → Bool) (skip) :
    Sound cfg (blockCopyStateNew cfg dirty skip).dirty (blockCopyStateNew cfg dirty skip) := by
  refine ⟨⟨by simp [blockCopyStateNew],
      by simp [blockCopyStateNew], by simp [blockCopyStateNew], rfl, ?_,
    fun c was => .inl was, by simp [blockCopyStateNew], by simp [blockCopyStateNew]⟩, ?_, ?_, ?_⟩
  · intro c isDirty
    simp only [blockCopyStateNew, Bool.and_eq_true, decide_eq_true_eq] at isDirty
    exact isDirty.2
  · exact fun i => ⟨Nat.dvd_zero _, Nat.dvd_zero _, Nat.dvd_zero _,
      Nat.dvd_zero _, fun _ => ⟨rfl, rfl⟩, fun some => absurd rfl some, nofun, nofun, nofun⟩
  · simp only [blockCopyStateNew]
    split
    · exact ⟨Nat.dvd_refl _, cfg.clusterSize_pos⟩
    · exact maxBuffer_copySize
  · simp only [blockCopyStateNew, Bool.not_eq_true', Bool.or_eq_false_iff, decide_eq_false_iff_not]
    omega

/-- Concurrent calls under any schedule and any I/O results. Tasks are disjoint, not dirty and in
flight; a call returns zero only if nothing is left to do in its range; a cluster that is no longer
dirty is in a task, copied or skipped; an error is that of a task of the call. -/
theorem blockCopy_calls_cooperate (cfg : Config) (dirty : Nat → Bool) (skip : Bool)
    (events : List Event) (s : State)
    (ran : Transition.run (BlockCopy.step cfg) (blockCopyStateNew cfg dirty skip) events = some s) :
    s.tasks.Pairwise (fun task other => taskEnd task ≤ other.offset ∨ taskEnd other ≤ task.offset) ∧
    (∀ task ∈ s.tasks, ∀ c, cfg.Touches task.offset task.bytes c → s.dirty c = false) ∧
    s.inFlightBytes = (s.tasks.map fun task => (task.bytes : Int)).sum ∧
    (∀ event s', BlockCopy.step cfg s event = some s' → ∀ i, (s.calls i).pc ≠ .done 0 →
      (s'.calls i).pc = .done 0 →
      (∀ c, cfg.Touches (s'.calls i).offset (s'.calls i).bytes c → s'.dirty c = false) ∧
        ∀ task ∈ s'.tasks, (s'.calls i).offset + (s'.calls i).bytes ≤ task.offset ∨
          taskEnd task ≤ (s'.calls i).offset) ∧
    (∀ c, (blockCopyStateNew cfg dirty skip).dirty c = true → s.dirty c = false →
      (∃ task ∈ s.tasks, cfg.Touches task.offset task.bytes c) ∨ s.outcome c = some .copied ∨
        s.outcome c = some .skipped) ∧
    ∀ i ret, (s.calls i).pc = .done ret → ret < 0 → (i, ret) ∈ s.failures := by
  have sound : Sound cfg (blockCopyStateNew cfg dirty skip).dirty s :=
    Transition.run_preserves (fun _ _ _ sound stepped => (Sound.step sound stepped).1)
      (sound_new cfg dirty skip) ran
  obtain ⟨ledger, calls, _, _⟩ := sound
  have touches {task : BlockCopyTask} (listed : task ∈ s.tasks) {c : Nat} :
      cfg.Touches task.offset task.bytes c ↔ task.Holds cfg c :=
    touches_iff (ledger.chunk task listed).offset_dvd (ledger.chunk task listed).bytes_dvd
  refine ⟨?_, ?_, ledger.inFlight, ?_, ?_, fun i => (calls i).error⟩
  · -- Tasks of different clusters have disjoint ranges of bytes.
    have different := List.pairwise_map.mp (List.nodup_iff_pairwise_ne.mp ledger.distinct)
    refine different.imp_of_mem fun {task other} listed listed' different => ?_
    exact (ledger.chunk task listed).apart (ledger.chunk other listed')
      (ledger.apart task listed other listed' different)
  · exact fun task listed c touched => ledger.clean task listed c ((touches listed).mp touched)
  · intro event s' stepped i running returned
    obtain ⟨sound', idle⟩ := Sound.step ⟨ledger, calls, ‹_›, ‹_›⟩ stepped
    obtain ⟨clean, free⟩ := (idle i returned).resolve_left running
    refine ⟨fun c touched => ?_, free⟩
    rw [touches_iff (sound'.calls i).offset_dvd (sound'.calls i).bytes_dvd] at touched
    exact Bool.eq_false_of_not_eq_true fun isDirty => clean c isDirty touched
  · intro c was notDirty
    rcases ledger.accounted c was with isDirty | ⟨task, listed, holds⟩ | settled
    · exact absurd (notDirty.symm.trans isDirty) Bool.false_ne_true
    · exact .inl ⟨task, listed, (touches listed).mpr holds⟩
    · right
      cases how : s.outcome c with
      | none => exact absurd how settled
      | some outcome => cases outcome <;> simp

/-- A source of two clusters of 64 KiB. -/
def twoClusters : Config := ⟨16, 2 ^ 17, ⟨2, rfl⟩, 2 ^ 31 - 1, false⟩

/-- Two calls for one cluster: the first takes it and fails, the second waits and copies it. -/
def failAndRetry : List Event :=
  [.call 0 0 (2 ^ 16), .call 1 0 (2 ^ 16), .loop 0, .loop 1,
    .status 0 ⟨false, true, false, 2 ^ 16⟩, .memory 0,
    .io 0 (-95), .io 0 (-5), .loop 1, .status 1 ⟨false, true, false, 2 ^ 16⟩, .memory 1,
      .io 1 0, .io 1 0, .loop 1, .loop 1]

/-- The error is of the first call, and the cluster is copied. -/
theorem blockCopy_calls_cooperate_retry :
    ∃ s, Transition.run (BlockCopy.step twoClusters)
    (blockCopyStateNew twoClusters (fun _ => true) false) failAndRetry
        = some s ∧ (s.calls 0).pc = .done (-5) ∧ (s.calls 1).pc = .done 0 ∧
          s.outcome 0 = some .copied ∧ (0, -5) ∈ s.failures ∧ s.inFlightBytes =
          (s.tasks.map fun task => (task.bytes : Int)).sum := by
  have result : (Transition.run (BlockCopy.step twoClusters)
    (blockCopyStateNew twoClusters (fun _ => true) false)
      failAndRetry).map (fun s => ((s.calls 0).pc, (s.calls 1).pc, s.outcome 0)) =
        some (.done (-5), .done 0, some .copied) := by
    decide +kernel
  obtain ⟨s, ran, values⟩ := map_eq_some_iff.mp result
  simp only [Prod.mk.injEq] at values
  obtain ⟨first, second, copied⟩ := values
  obtain ⟨_, _, inFlight, _, _, error⟩ :=
    blockCopy_calls_cooperate twoClusters _ _ failAndRetry s ran
  exact ⟨s, ran, first, second, copied, error 0 (-5) first (by decide), inFlight⟩

end Qemu.BlockCopy
