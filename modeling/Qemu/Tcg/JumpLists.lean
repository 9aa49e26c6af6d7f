import Mathlib.Data.Fin.Basic
import Qemu.Lib.Transition

/-! Direct jumps between translation blocks, chained and invalidated by several threads: one step
for each locked section and each atomic access. -/

namespace Qemu.Tcg

open Function

/-- An entry of `jmp_dest`: a destination, and the low bit that closes the slot. -/
structure JmpDest (Tb : Type) where
  dest : Option Tb
  marked : Bool
deriving DecidableEq

attribute [ext] JmpDest

/-- The empty, open slot. -/
def JmpDest.null {Tb : Type} : JmpDest Tb := ⟨none, false⟩

/-- A jump slot, a block and the number of one of its two exits. -/
abbrev Slot (Tb : Type) := Tb × Fin 2

/-- The fields of all translation blocks that concern jumps. -/
structure Blocks (Tb : Type) where
  /-- `CF_INVALID`. -/
  invalid : Tb → Bool
  /-- `CF_NOCACHE`. -/
  nocache : Tb → Bool
  /-- The block is in `tb_ctx.htable`. -/
  hashed : Tb → Bool
  jmpDest : Slot Tb → JmpDest Tb
  /-- Where the native jump leads, `none` for the block's own reset address. -/
  jmpTarget : Slot Tb → Option Tb
  /-- The list of incoming jumps from `jmp_list_head` on. -/
  jmpList : Tb → List (Slot Tb)
  /-- The history of a slot, which no function reads: its block's invalidation took it off its
  destination's list. -/
  removed : Slot Tb → Bool
  /-- Also history: an invalidation of the block has come to its end. -/
  completed : Tb → Bool

/-- Where a thread is in `do_tb_phys_invalidate`. -/
inductive Pc (Tb : Type) where
  | idle
  /-- `qht_remove`, with `CF_INVALID` set. -/
  | hashRemove (tb : Tb)
  /-- `tb_remove_from_jmp_list`: the `atomic_or_fetch`. -/
  | markSlot (slot : Slot Tb)
  /-- The section under the destination's `jmp_lock`. -/
  | unlinkSlot (slot : Slot Tb) (dest : Tb)
  /-- The assertion after the section, when the slot had changed. -/
  | assertUnlinked (slot : Slot Tb) (dest : Tb) (ptrLocked : JmpDest Tb)
  /-- `tb_jmp_unlink`. -/
  | jmpUnlink (tb : Tb)
  /-- A failed assertion. -/
  | failed
deriving DecidableEq

/-- The blocks and the threads. -/
structure State (Tb Tid : Type) extends Blocks Tb where
  pc : Tid → Pc Tb

/-- Blocks as `tb_gen_code` makes them; with `CF_NOCACHE` they are not in the hash table. -/
def initial {Tb Tid : Type} (nocache : Tb → Bool) : State Tb Tid where
  invalid := fun _ => false
  nocache := nocache
  hashed := fun tb => !nocache tb
  jmpDest := fun _ => .null
  jmpTarget := fun _ => none
  jmpList := fun _ => []
  removed := fun _ => false
  completed := fun _ => false
  pc := fun _ => .idle

variable {Tb Tid : Type} [DecidableEq Tb]

/-- A slot gets a destination and its native jump a target. -/
def Blocks.setSlot (b : Blocks Tb) (slot : Slot Tb) (jmpDest : JmpDest Tb)
    (target : Option Tb) : Blocks Tb :=
  { b with
    jmpDest := update b.jmpDest slot jmpDest
    jmpTarget := update b.jmpTarget slot target }

/-- Under the `jmp_lock` of the destination. -/
def tbAddJump (b : Blocks Tb) (slot : Slot Tb) (tbNext : Tb) : Blocks Tb :=
  if b.invalid tbNext then b
  else if b.jmpDest slot ≠ .null then b
  else
    let claimed := b.setSlot slot ⟨some tbNext, false⟩ (some tbNext)
    { claimed with jmpList := update claimed.jmpList tbNext (slot :: claimed.jmpList tbNext) }

/-- The body of the loop of `tb_jmp_unlink`: reset the jump, clear all but the low bit of the slot.
-/
def resetSlot (b : Blocks Tb) (slot : Slot Tb) : Blocks Tb :=
  b.setSlot slot ⟨none, (b.jmpDest slot).marked⟩ none

/-- Under the block's own `jmp_lock`. -/
def tbJmpUnlink (b : Blocks Tb) (dest : Tb) : Blocks Tb :=
  let reset := (b.jmpList dest).foldl resetSlot b
  { reset with
    jmpList := update reset.jmpList dest []
    completed := update reset.completed dest true }

/-- The `atomic_or_fetch` on a slot. -/
def markSlot (b : Blocks Tb) (slot : Slot Tb) : Blocks Tb :=
  { b with jmpDest := update b.jmpDest slot ⟨(b.jmpDest slot).dest, true⟩ }

/-- A slot is taken off the list of its destination. -/
def unlinkSlot (b : Blocks Tb) (slot : Slot Tb) (dest : Tb) : Blocks Tb :=
  { b with
    jmpList := update b.jmpList dest ((b.jmpList dest).erase slot)
    removed := update b.removed slot true }

/-- What follows `tb_remove_from_jmp_list`. -/
def afterSlot (slot : Slot Tb) : Pc Tb :=
  if slot.2 = 0 then .markSlot (slot.1, 1) else .jmpUnlink slot.1

variable [DecidableEq Tid]

/-- One thread goes elsewhere and the blocks change. -/
def State.goto (s : State Tb Tid) (self : Tid) (pc : Pc Tb)
    (blocks : Blocks Tb) : State Tb Tid where
  toBlocks := blocks
  pc := update s.pc self pc

/-- The next step of an invalidation. -/
def advance (s : State Tb Tid) (self : Tid) : Option (State Tb Tid) :=
  match s.pc self with
  | .idle | .failed => none
  | .hashRemove tb =>
    if s.nocache tb then some (s.goto self (.markSlot (tb, 0)) s.toBlocks)
    else if s.hashed tb then
      some (s.goto self (.markSlot (tb, 0)) { s.toBlocks with hashed := update s.hashed tb false })
    else some (s.goto self .idle s.toBlocks)
  | .markSlot slot =>
    match (s.jmpDest slot).dest with
    | none => some (s.goto self (afterSlot slot) (markSlot s.toBlocks slot))
    | some dest => some (s.goto self (.unlinkSlot slot dest) (markSlot s.toBlocks slot))
  | .unlinkSlot slot dest =>
    if s.jmpDest slot ≠ ⟨some dest, true⟩ then
      some (s.goto self (.assertUnlinked slot dest (s.jmpDest slot)) s.toBlocks)
    else if slot ∈ s.jmpList dest then some
      (s.goto self (afterSlot slot) (unlinkSlot s.toBlocks slot dest))
    else some (s.goto self .failed s.toBlocks)
  | .assertUnlinked slot dest ptrLocked =>
    if ptrLocked = ⟨none, true⟩ ∧ s.invalid dest then some (s.goto self (afterSlot slot) s.toBlocks)
    else some (s.goto self .failed s.toBlocks)
  | .jmpUnlink tb => some (s.goto self .idle (tbJmpUnlink s.toBlocks tb))

/-- What a thread does. -/
inductive Action (Tb : Type) where
  /-- It calls `tb_add_jump`. -/
  | addJump (slot : Slot Tb) (tbNext : Tb)
  /-- It calls `do_tb_phys_invalidate`, whose first section sets `CF_INVALID`. -/
  | invalidate (tb : Tb)
  | next

/-- One step of one thread. -/
def step (s : State Tb Tid) : Tid × Action Tb → Option (State Tb Tid)
  | (self, .addJump slot tbNext) =>
    if s.pc self = .idle then some (s.goto self .idle (tbAddJump s.toBlocks slot tbNext)) else none
  | (self, .invalidate tb) =>
    if s.pc self = .idle then
      some (s.goto self (.hashRemove tb) { s.toBlocks with invalid := update s.invalid tb true })
    else none
  | (self, .next) => advance s self

end Qemu.Tcg
