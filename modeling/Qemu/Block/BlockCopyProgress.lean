import Mathlib.Algebra.GroupWithZero.Nat
import Qemu.Block.BlockCopy

/-! The progress that the tasks of one `block_copy` call report. -/

namespace Qemu.BlockCopy

/-- How `block_copy_do_copy` ends for a task. -/
structure TaskResult where
  bytes : Nat
  ret : Int
  errorIsRead : Bool

/-- The call state of the tasks, and the totals for `progress_work_done` and the callback. -/
structure CallProgress where
  failed : Bool
  errorIsRead : Bool
  workDone : Nat
  bytesCallback : Nat

/-- Once its copy has ended. -/
def blockCopyTaskEntry (call : CallProgress) (task : TaskResult) : CallProgress :=
  if task.ret < 0 ∧ call.failed = false then { call with
    failed := true, errorIsRead := task.errorIsRead }
  else { call with
    workDone := call.workDone + task.bytes, bytesCallback := call.bytesCallback + task.bytes }

/-- The call state that the totals are counted by is that of the whole machine: at the end of a task
of a pool, whose call does not wait for it, both note the same failure. -/
theorem taskEntryDone_entry (cfg : Config) (s : State) (task : BlockCopyTask)
    (ret : Int) (isRead : Bool)
    (pooled : task.pooled = true) (runs : (s.calls task.call).pc ≠ .waiting task.id)
    (workDone bytesCallback : Nat) :
    let before := s.calls task.call
    let after := (taskEntryDone cfg s task ret isRead).calls task.call
    let entry := blockCopyTaskEntry ⟨before.failed, before.errorIsRead, workDone, bytesCallback⟩
      ⟨task.bytes, ret, isRead⟩
    after.failed = entry.failed ∧ after.errorIsRead = entry.errorIsRead := by
  have kept : restartAll s.calls task.id task.call = s.calls task.call := by
    rw [restartAll, if_neg runs]
  simp only [taskEntryDone, blockCopyTaskEnd, State.putToShres, pooled, if_true, State.setCall,
    Function.update_self, kept, blockCopyTaskEntry]
  split <;> exact ⟨rfl, rfl⟩

/-- The tasks of a call as they end; a round in which one fails is the last. -/
def callProgress (tasks : List TaskResult) : CallProgress :=
  tasks.foldl blockCopyTaskEntry ⟨false, false, 0, 0⟩

def failedTasks (tasks : List TaskResult) : List TaskResult := tasks.filter (·.ret < 0)

def totalBytes (tasks : List TaskResult) : Nat := (tasks.map (·.bytes)).sum

def copiedTasks (tasks : List TaskResult) : List TaskResult := tasks.filter (0 ≤ ·.ret)

/-- Once a task has failed every other is counted; the first failure is not. -/
theorem foldl_blockCopyTaskEntry (tasks call) :
    let counted := totalBytes (copiedTasks tasks) +
      totalBytes (if call.failed then failedTasks tasks else (failedTasks tasks).tail)
    (tasks.foldl blockCopyTaskEntry call).workDone = call.workDone + counted ∧
      (tasks.foldl blockCopyTaskEntry call).bytesCallback = call.bytesCallback + counted := by
  induction tasks generalizing call with
  | nil => simp [copiedTasks, failedTasks, totalBytes]
  | cons task rest ih =>
    obtain ⟨work, callback⟩ := ih (blockCopyTaskEntry call task)
    rw [List.foldl_cons, work, callback]
    by_cases failure : task.ret < 0
    · -- The first failure leaves the totals alone, a later one goes into them.
      have notCopied : ¬ 0 ≤ task.ret := Int.not_le.mpr failure
      cases already : call.failed
      · simp [blockCopyTaskEntry, copiedTasks, failedTasks, failure, notCopied, already]
      · simp [blockCopyTaskEntry, copiedTasks, failedTasks, totalBytes, failure, notCopied, already]
        omega
    · have copied : 0 ≤ task.ret := Int.not_lt.mp failure
      cases already : call.failed
      all_goals
        simp [blockCopyTaskEntry, copiedTasks, failedTasks, totalBytes, failure, copied, already]
        omega

/-- Both totals are what was copied iff no task with bytes fails after another. -/
theorem blockCopy_progress_iff (tasks : List TaskResult) :
    (callProgress tasks).workDone = totalBytes (copiedTasks tasks) ∧
        (callProgress tasks).bytesCallback = totalBytes (copiedTasks tasks) ↔
      ∀ task ∈ (failedTasks tasks).tail, task.bytes = 0 := by
  obtain ⟨work, callback⟩ := foldl_blockCopyTaskEntry tasks ⟨false, false, 0, 0⟩
  rw [callProgress, work, callback]
  simp [totalBytes, List.sum_eq_zero_iff_forall_eq_nat, -List.map_tail]

/-- Two tasks of a cluster each fail, and one of them is counted. -/
theorem blockCopy_progress_counts_failure : let tasks := [⟨65536, -5, true⟩, ⟨65536, -5, true⟩]
    (callProgress tasks).workDone ≠ totalBytes (copiedTasks tasks) := by
  decide

end Qemu.BlockCopy
