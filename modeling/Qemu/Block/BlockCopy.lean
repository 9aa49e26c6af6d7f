import Qemu.Lib.Align
import Qemu.Lib.Keyed

/-! `block_copy` calls on one `BlockCopyState`, resumed in any order. -/

namespace Qemu.BlockCopy

open Align Keyed

/-- What a `BlockCopyState` is created for. -/
structure Config where
  clusterBits : Nat
  len : Nat
  aligned : 2 ^ clusterBits ∣ len
  /-- `block_copy_max_transfer` of the source and the target. -/
  maxTransfer : Nat
  /-- `BDRV_REQ_WRITE_COMPRESSED` is among the write flags. -/
  compressed : Bool

/-- The granularity of the copy bitmap. -/
def Config.clusterSize (cfg : Config) : Nat := 2 ^ cfg.clusterBits

/-- `BLOCK_COPY_MAX_COPY_RANGE`. -/
def maxCopyRange : Nat := 16 * 2 ^ 20

/-- `BLOCK_COPY_MAX_BUFFER`. -/
def maxBuffer : Nat := 2 ^ 20

/-- `BLOCK_COPY_MAX_MEM`. -/
def maxMem : Nat := 128 * 2 ^ 20

/-- `BLOCK_COPY_MAX_WORKERS`. -/
def maxWorkers : Nat := 64

def ecanceled : Int := 125

/-- The request on which `block_copy_do_copy` waits. -/
inductive IoOp where
  | writeZeroes
  | copyRange
  | read
  | write
deriving DecidableEq

/-- With a number as its address that is not used again. -/
structure BlockCopyTask where
  id : Nat
  call : Nat
  offset : Nat
  bytes : Nat
  zeroes : Bool
  /-- The request of a task that runs. -/
  op : Option IoOp
  /-- The task runs in the pool of its call. -/
  pooled : Bool

def taskEnd (task : BlockCopyTask) : Nat := task.offset + task.bytes

structure AioTaskPool where
  status : Int
  busyTasks : Nat

def aioTaskPoolStatus : Option AioTaskPool → Int
  | none => 0
  | some pool => pool.status

/-- Where a call may have yielded, and on which task. -/
inductive Pc where
  /-- The call has not been made. -/
  | absent
  /-- At the head of the loop of `block_copy_dirty_clusters`. -/
  | loop
  /-- In `block_copy_block_status`. -/
  | status (task : Nat)
  /-- In `co_get_from_shres`. -/
  | memory (task : Nat)
  /-- In `aio_task_pool_wait_slot`. -/
  | slot (task : Nat)
  /-- In the function of a task that runs without a pool. -/
  | direct (task : Nat)
  /-- In `aio_task_pool_wait_all`. -/
  | waitAll
  /-- In the queue of a task, `block_copy_wait_one`. -/
  | waiting (task : Nat)
  | done (ret : Int)
deriving DecidableEq

/-- A call of `block_copy`, with the variables of `block_copy_dirty_clusters`. -/
structure Call where
  offset : Nat
  bytes : Nat
  /-- The variable `offset` of the loop. -/
  cur : Nat
  /-- The variable `bytes` of the loop. -/
  left : Nat
  foundDirty : Bool
  aio : Option AioTaskPool
  failed : Bool
  errorIsRead : Bool
  pc : Pc

/-- What became of a cluster that was taken out of the bitmap. -/
inductive Outcome where
  | copied
  | skipped
deriving DecidableEq

/-- `BlockCopyState`, its calls and what they have achieved so far. -/
structure State where
  /-- The clusters that are set in the copy bitmap. -/
  dirty : Nat → Bool
  inFlightBytes : Int
  useCopyRange : Bool
  copySize : Nat
  skipUnallocated : Bool
  /-- What is available of the shared memory. -/
  available : Nat
  tasks : List BlockCopyTask
  nextId : Nat
  calls : Nat → Call
  /-- How the last task of a cluster ended. -/
  outcome : Nat → Option Outcome
  /-- The calls whose tasks failed, with the errors. -/
  failures : List (Nat × Int)

variable (cfg : Config)

/-- A cluster that a range of bytes touches. -/
def Config.Touches (offset bytes c : Nat) : Prop :=
  0 < bytes ∧ offset / cfg.clusterSize ≤ c ∧ c ≤ (offset + bytes - 1) / cfg.clusterSize

instance (offset bytes c : Nat) : Decidable (cfg.Touches offset bytes c) :=
  inferInstanceAs (Decidable (_ ∧ _ ∧ _))

/-- A value for every cluster of a range. -/
def fillRange {β : Type} (values : Nat → β) (offset bytes : Nat) (value : β) (c : Nat) : β :=
  if cfg.Touches offset bytes c then value else values c

/-- `hbitmap_next_dirty` and `hbitmap_next_zero`: the first cluster of a range with a value. -/
def nextWith (dirty : Nat → Bool) (value : Bool) (start stop : Nat) : Option Nat :=
  let first := start / cfg.clusterSize
  let last := (stop - 1) / cfg.clusterSize
  ((List.range' first (last + 1 - first)).find? fun c => dirty c == value).map fun c =>
    max start (c * cfg.clusterSize)

/-- `bdrv_dirty_bitmap_next_dirty_area`. -/
def nextDirtyArea (dirty : Nat → Bool) (start stop maxDirtyCount : Nat) : Option (Nat × Nat) :=
  let stop := min stop cfg.len
  if stop ≤ start then none
  else
    match nextWith cfg dirty true start stop with
    | none => none
    | some start =>
      let stop := start + min (stop - start) maxDirtyCount
      let stop := (nextWith cfg dirty false start stop).getD stop
      some (start, stop - start)

variable (s : State)

def findConflictingTask (tasks : List BlockCopyTask) (offset bytes : Nat) : Option BlockCopyTask :=
  tasks.find? fun t => offset + bytes > t.offset && offset < t.offset + t.bytes

/-- A call enters `block_copy_dirty_clusters`. -/
def dirtyClusters (c : Call) : Call :=
  { c with
    cur := c.offset, left := c.bytes, foundDirty := false, aio := none,
    failed := false, errorIsRead := false, pc := .loop }

/-- `qemu_co_queue_restart_all`: who waits for a task loops again. -/
def restartAll (calls : Nat → Call) (task i : Nat) : Call :=
  if (calls i).pc = .waiting task then dirtyClusters (calls i) else calls i

def State.setCall (i : Nat) (c : Call) : State := { s with calls := Function.update s.calls i c }

def State.modifyTask (id : Nat) (f : BlockCopyTask → BlockCopyTask) : State :=
  { s with tasks := modify BlockCopyTask.id s.tasks id f }

/-- `co_put_to_shres`. -/
def State.putToShres (bytes : Nat) : State := { s with available := s.available + bytes }

/-- `block_copy_task_create`. The range is dirty, so no task is in it. -/
def blockCopyTaskCreate (call offset bytes : Nat) : Option (BlockCopyTask × State) :=
  match nextDirtyArea cfg s.dirty offset (offset + bytes) s.copySize with
  | none => none
  | some (offset, bytes) =>
    let task : BlockCopyTask :=
      { id := s.nextId, call, offset, bytes, zeroes := false, op := none, pooled := false }
    some (task, { s with
      dirty := fillRange cfg s.dirty offset bytes false
      outcome := fillRange cfg s.outcome offset bytes none
      inFlightBytes := s.inFlightBytes + bytes
      tasks := task :: s.tasks
      nextId := s.nextId + 1 })

def blockCopyTaskShrink (task : BlockCopyTask) (newBytes : Nat) : State :=
  if newBytes = task.bytes then s
  else { s with
    inFlightBytes := s.inFlightBytes - (task.bytes - newBytes : Nat)
    dirty := fillRange cfg s.dirty (task.offset + newBytes) (task.bytes - newBytes) true
    tasks := modify BlockCopyTask.id s.tasks task.id fun t => { t with bytes := newBytes }
    calls := restartAll s.calls task.id }

def blockCopyTaskEnd (task : BlockCopyTask) (ret : Int) : State :=
  { s with
    inFlightBytes := s.inFlightBytes - task.bytes
    dirty := if ret < 0 then fillRange cfg s.dirty task.offset task.bytes true else s.dirty
    tasks := remove BlockCopyTask.id s.tasks task.id
    calls := restartAll s.calls task.id }

/-- The clusters of a task have an outcome. -/
def State.settle (task : BlockCopyTask) (outcome : Outcome) : State :=
  { s with outcome := fillRange cfg s.outcome task.offset task.bytes (some outcome) }

variable (i : Nat) (c : Call)

/-- The end of a round of `block_copy`, with its result. -/
def blockCopyRound (ret : Int) : State :=
  if ret = 0 then
    match findConflictingTask s.tasks c.offset c.bytes with
    | some task => s.setCall i { c with pc := .waiting task.id }
    | none => s.setCall i { c with pc := .done 0 }
  else if 0 < ret then s.setCall i (dirtyClusters c)
  else s.setCall i { c with pc := .done ret }

/-- The result of `block_copy_dirty_clusters`. -/
def dirtyClustersRet (ret : Int) : Int := if ret < 0 then ret else if c.foundDirty then 1 else 0

/-- The label `out` of `block_copy_dirty_clusters`. -/
def dirtyClustersOut (ret : Int) : State :=
  match c.aio with
  | none => blockCopyRound s i c (dirtyClustersRet c ret)
  | some _ => s.setCall i { c with pc := .waitAll }

/-- The head of the loop. Nothing has failed there, so `ret` is not negative. -/
def loopStep : State :=
  if c.left ≠ 0 ∧ aioTaskPoolStatus c.aio = 0 then
    match blockCopyTaskCreate cfg s i c.cur c.left with
    | none => dirtyClustersOut s i c 0
    | some (task, s) => s.setCall i { c with foundDirty := true, pc := .status task.id }
  else dirtyClustersOut s i c 0

/-- What `bdrv_block_status_above` returns. -/
structure BlockStatus where
  failed : Bool
  allocated : Bool
  zero : Bool
  num : Nat

def blockCopyBlockStatus (offset : Nat) (answer : BlockStatus) : BlockStatus :=
  if answer.failed = true ∨ answer.num < cfg.clusterSize then
    { failed := false, allocated := true, zero := false, num := cfg.clusterSize }
  else if offset + answer.num = cfg.len
    then { answer with num := ceilTo cfg.clusterSize answer.num }
  else { answer with num := floorTo cfg.clusterSize answer.num }

/-- The loop advances to the end of a task. -/
def Call.advance (task : BlockCopyTask) : Call :=
  { c with cur := taskEnd task, left := c.offset + c.bytes - taskEnd task }

/-- The block status is there. -/
def statusStep (task : BlockCopyTask) (answer : BlockStatus) : State :=
  let status := blockCopyBlockStatus cfg task.offset answer
  let shrinks := status.num < task.bytes
  let s := if shrinks then blockCopyTaskShrink cfg s task status.num else s
  let task := if shrinks then { task with bytes := status.num } else task
  if s.skipUnallocated && !status.allocated then
    let s := (blockCopyTaskEnd cfg s task 0).settle cfg task .skipped
    s.setCall i { c.advance task with pc := .loop }
  else
    (s.modifyTask task.id fun t => { t with zeroes := status.zero }).setCall i
    { c with pc := .memory task.id }

/-- The first request of `block_copy_do_copy`. -/
def firstOp (zeroes : Bool) : IoOp :=
  if zeroes then .writeZeroes else if s.useCopyRange then .copyRange else .read

/-- The function of a task is entered. -/
def startTask (task : BlockCopyTask) (pooled : Bool) : State :=
  s.modifyTask task.id fun t => { t with op := some (firstOp s t.zeroes), pooled }

/-- Memory for the task; the first that is not the last makes the pool. -/
def memoryStep (task : BlockCopyTask) : State :=
  let s := { s with available := s.available - task.bytes }
  let c := c.advance task
  match c.aio with
  | some _ => s.setCall i { c with pc := .slot task.id }
  | none =>
    if c.left ≠ 0 then s.setCall i { c with aio := some ⟨0, 0⟩, pc := .slot task.id }
    else (startTask s task false).setCall i { c with pc := .direct task.id }

/-- There is a slot in the pool. A task is cancelled when another one has failed. -/
def slotStep (task : BlockCopyTask) (pool : AioTaskPool) : State :=
  if pool.status < 0 then
    dirtyClustersOut (blockCopyTaskEnd cfg (s.putToShres task.bytes) task (-ecanceled)) i c
      (-ecanceled)
  else
    (startTask s task true).setCall i
      { c with aio := some { pool with busyTasks := pool.busyTasks + 1 }, pc := .loop }

/-- All tasks of the pool have finished. -/
def waitAllStep (pool : AioTaskPool) : State :=
  blockCopyRound s i { c with aio := none } (dirtyClustersRet c pool.status)

/-- The end of `aio_task_co`. -/
def poolTaskDone (ret : Int) (pool : AioTaskPool) : AioTaskPool :=
  { status := if ret < 0 ∧ pool.status = 0 then ret else pool.status,
    busyTasks := pool.busyTasks - 1 }

/-- The end of `block_copy_task_entry`, after `block_copy_do_copy` returned. -/
def taskEntryDone (task : BlockCopyTask) (ret : Int) (isRead : Bool) : State :=
  let s := blockCopyTaskEnd cfg (s.putToShres task.bytes) task ret
  let c := s.calls task.call
  let c := if ret < 0 ∧ c.failed = false then { c with
    failed := true, errorIsRead := isRead } else c
  let s := if ret < 0 then { s with failures := (task.call, ret) :: s.failures }
    else s.settle cfg task .copied
  if task.pooled then s.setCall task.call { c with aio := c.aio.map (poolTaskDone ret) }
  else if ret < 0 then dirtyClustersOut s task.call c ret
  else s.setCall task.call { c with pc := .loop }

/-- A request of `block_copy_do_copy` has ended. -/
def ioStep (task : BlockCopyTask) (op : IoOp) (ret : Int) : State :=
  match op with
  | .writeZeroes => taskEntryDone cfg s task ret false
  | .copyRange =>
    if ret < 0 then
      { s with useCopyRange := false, copySize := max cfg.clusterSize maxBuffer }.modifyTask
          task.id fun t =>
        { t with op := some .read }
    else
      let copySize :=
        if s.useCopyRange then min (max cfg.clusterSize maxCopyRange)
          (floorTo cfg.clusterSize cfg.maxTransfer)
        else s.copySize
      taskEntryDone cfg { s with copySize } task ret false
  | .read =>
    if ret < 0 then taskEntryDone cfg s task ret true
    else s.modifyTask task.id fun t => { t with op := some .write }
  | .write => taskEntryDone cfg s task ret false

/-- What happens next. -/
inductive Event where
  /-- A new call with a cluster-aligned range. -/
  | call (i offset bytes : Nat)
  /-- A coroutine is resumed, or goes on without having yielded. -/
  | loop (i : Nat)
  | status (i : Nat) (answer : BlockStatus)
  | memory (i : Nat)
  | slot (i : Nat)
  | waitAll (i : Nat)
  /-- A request of a task ends. -/
  | io (task : Nat) (ret : Int)
  /-- `block_copy_set_skip_unallocated`. -/
  | setSkipUnallocated (skip : Bool)

/-- One step of a coroutine, from one possible yield to the next. -/
def step (cfg : Config) (s : State) : Event → Option State
  | .call i offset bytes =>
    if (s.calls i).pc = .absent ∧ cfg.clusterSize ∣ offset ∧ cfg.clusterSize ∣ bytes then
      some (s.setCall i (dirtyClusters { s.calls i with offset, bytes }))
    else none
  | .loop i => if (s.calls i).pc = .loop then some (loopStep cfg s i (s.calls i)) else none
  | .status i answer =>
    match (s.calls i).pc with
    | .status id => (lookup BlockCopyTask.id s.tasks id).map fun task =>
        statusStep cfg s i (s.calls i) task answer
    | _ => none
  | .memory i =>
    match (s.calls i).pc with
    | .memory id =>
      (lookup BlockCopyTask.id s.tasks id).bind fun task =>
        if task.bytes ≤ s.available then some (memoryStep s i (s.calls i) task) else none
    | _ => none
  | .slot i =>
    match (s.calls i).pc, (s.calls i).aio with
    | .slot id, some pool =>
      (lookup BlockCopyTask.id s.tasks id).bind fun task =>
        if pool.busyTasks < maxWorkers then some (slotStep cfg s i (s.calls i) task pool) else none
    | _, _ => none
  | .waitAll i =>
    match (s.calls i).pc, (s.calls i).aio with
    | .waitAll, some pool => if pool.busyTasks = 0
        then some (waitAllStep s i (s.calls i) pool) else none
    | _, _ => none
  | .io id ret =>
    (lookup BlockCopyTask.id s.tasks id).bind fun task =>
    task.op.map fun op => ioStep cfg s task op ret
  | .setSkipUnallocated skip => some { s with skipUnallocated := skip }

/-- With the bits that were set since. -/
def blockCopyStateNew (cfg : Config) (dirty : Nat → Bool) (skipUnallocated : Bool) : State where
  dirty c := dirty c && decide (c * cfg.clusterSize < cfg.len)
  inFlightBytes := 0
  useCopyRange := !(decide (cfg.maxTransfer < cfg.clusterSize) || cfg.compressed)
  copySize :=
    if cfg.maxTransfer < cfg.clusterSize ∨ cfg.compressed = true then cfg.clusterSize
      else max cfg.clusterSize maxBuffer
  skipUnallocated
  available := maxMem
  tasks := []
  nextId := 0
  calls _ := ⟨0, 0, 0, 0, false, none, false, false, .absent⟩
  outcome _ := none
  failures := []

end Qemu.BlockCopy
