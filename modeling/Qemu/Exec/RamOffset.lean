import Mathlib.Data.List.Pairwise
import Mathlib.Data.List.Sort
import Qemu.Lib.Align
import Qemu.Lib.Transition

/-! Placing RAM blocks in the space of the dirty bitmaps: `find_ram_offset` takes the smallest gap
behind a block. -/

namespace Qemu.Exec

open Align Transition List

/-- A block of guest RAM, in the space of a 64-bit `ram_addr_t`. -/
structure RAMBlock where
  offset : Nat
  maxLength : Nat

def ramAddrMax : Nat := 2 ^ 64 - 1

/-- `ROUND_UP` of the end of a block: the unit is a power of two, whose mask rounds down. -/
def RAMBlock.candidate (unit : Nat) (block : RAMBlock) : Nat :=
  floorTo unit ((block.offset + block.maxLength + unit - 1) % 2 ^ 64)

/-- The inner loop of `find_ram_offset`: the closest following block. -/
def nextOffset (candidate next : Nat) : List RAMBlock → Nat
  | [] => next
  | nextBlock :: rest =>
    nextOffset candidate (if nextBlock.offset ≥ candidate
      then min next nextBlock.offset else next) rest

def gapBehind (unit : Nat) (blocks : List RAMBlock) (block : RAMBlock) : Nat :=
  nextOffset (block.candidate unit) ramAddrMax blocks - block.candidate unit

/-- The outer loop of `find_ram_offset`: the place found so far and the size of its gap. -/
def findGap (unit size : Nat) (blocks : List RAMBlock) : List RAMBlock → Nat × Nat → Nat × Nat
  | [], best => best
  | block :: rest, best =>
    let gap := gapBehind unit blocks block
    findGap unit size blocks rest (if gap ≥ size ∧
      gap < best.2 then (block.candidate unit, gap) else best)

/-- Where the unit is `BITS_PER_LONG << TARGET_PAGE_BITS`: `none` is a failed assertion or an abort.
-/
def findRamOffset (unit : Nat) (blocks : List RAMBlock) (size : Nat) : Option Nat :=
  if size = 0 then none
  else if blocks = [] then some 0
  else
    let offset := (findGap unit size blocks blocks (ramAddrMax, ramAddrMax)).1
    if offset = ramAddrMax then none else some offset

/-- A block is added with its largest length, or the one at an offset is removed. -/
inductive Change where
  | add (maxLength : Nat) (fits : maxLength < 2 ^ 64)
  | remove (offset : Nat)

/-- `ram_block_add` keeps the list sorted from the biggest to the smallest block. -/
def change (unit : Nat) (blocks : List RAMBlock) : Change → Option (List RAMBlock)
  | .add maxLength _ => do
    let offset ← findRamOffset unit blocks maxLength
    return orderedInsert (fun a b => b.maxLength < a.maxLength) ⟨offset, maxLength⟩ blocks
  | .remove offset => some (blocks.filter (·.offset ≠ offset))

/-- Two blocks have no address in common. -/
def Apart (a b : RAMBlock) : Prop :=
  a.offset + a.maxLength ≤ b.offset ∨ b.offset + b.maxLength ≤ a.offset

instance : Std.Symm Apart := ⟨fun _ _ => Or.symm⟩

/-- The blocks start on a unit, end in the address space and are apart. -/
structure Placed (unit : Nat) (blocks : List RAMBlock) : Prop where
  aligned : ∀ block ∈ blocks, unit ∣ block.offset
  within : ∀ block ∈ blocks, block.offset + block.maxLength < 2 ^ 64
  apart : blocks.Pairwise Apart

/-- A gap ends where the closest block from its start on is, or at the last address. -/
def GapEnds (last : Nat) (blocks : List RAMBlock) (start stop : Nat) : Prop :=
  (stop = last ∨ ∃ block ∈ blocks, start ≤ block.offset ∧ stop = block.offset) ∧
    stop ≤ last ∧ ∀ block ∈ blocks, start ≤ block.offset → stop ≤ block.offset

/-- The place behind a block with the smallest gap that suffices. -/
def SmallestGap (unit : Nat) (blocks : List RAMBlock) (size offset : Nat) : Prop :=
  ∃ block ∈ blocks, offset = block.candidate unit ∧ size ≤ gapBehind unit blocks block ∧
    ∀ other ∈ blocks, size ≤ gapBehind unit blocks other →
      gapBehind unit blocks block ≤ gapBehind unit blocks other

variable {unit size candidate next offset : Nat}
    {blocks blocks' rest : List RAMBlock} {block other : RAMBlock}

/-- The inner loop finds where the gap behind a candidate ends. -/
theorem nextOffset_spec : GapEnds next rest candidate (nextOffset candidate next rest) := by
  induction rest generalizing next with
  | nil => simp [GapEnds, nextOffset]
  | cons head rest ih =>
    rw [GapEnds, nextOffset, exists_mem_cons_iff, forall_mem_cons]
    split
    · rename_i above
      obtain ⟨found, le, least⟩ := @ih (min next head.offset)
      refine ⟨?_, by omega, fun _ => by omega, least⟩
      rcases found with eq | found
      · rcases min_choice next head.offset with first | second
        · exact .inl (eq.trans first)
        · exact .inr (.inl ⟨above, eq.trans second⟩)
      · exact .inr (.inr found)
    · obtain ⟨found, le, least⟩ := @ih next
      exact ⟨found.imp_right .inr, le, fun above => by omega, least⟩

/-- The outer loop keeps the smallest gap that is large enough. -/
theorem findGap_spec (best : Nat × Nat) : (findGap unit size blocks rest best).2 ≤ best.2 ∧
    (∀ block ∈ rest, size ≤ gapBehind unit blocks block →
      (findGap unit size blocks rest best).2 ≤ gapBehind unit blocks block) ∧
    (findGap unit size blocks rest best = best ∨
      ∃ block ∈ rest, size ≤ gapBehind unit blocks block ∧ findGap unit size blocks rest best =
          (block.candidate unit, gapBehind unit blocks block)) := by
  induction rest generalizing best with
  | nil => simp [findGap]
  | cons head rest ih =>
    rw [findGap, forall_mem_cons]
    split
    · rename_i better
      obtain ⟨le, least, found⟩ := ih (head.candidate unit, gapBehind unit blocks head)
      refine ⟨by omega, ⟨fun _ => le, least⟩, .inr ?_⟩
      rcases found with same | ⟨block, mem, found⟩
      · exact ⟨head, mem_cons_self, better.1, same⟩
      · exact ⟨block, mem_cons_of_mem _ mem, found⟩
    · obtain ⟨le, least, found⟩ := ih best
      refine ⟨le, ⟨fun fits => le_trans le (by omega), least⟩,
        found.imp_right fun ⟨block, mem, found⟩ => ?_⟩
      exact ⟨block, mem_cons_of_mem _ mem, found⟩

/-- The answer is 0 for the first block, the smallest gap afterwards. -/
theorem findRamOffset_cases (found : findRamOffset unit blocks size = some offset) :
    0 < size ∧ (blocks = [] ∧ offset = 0 ∨ SmallestGap unit blocks size offset) := by
  simp only [findRamOffset, Option.ite_none_left_eq_some] at found
  obtain ⟨nonzero, found⟩ := found
  refine ⟨Nat.pos_of_ne_zero nonzero, ?_⟩
  split at found
  · cases found
    exact .inl ⟨‹_›, rfl⟩
  obtain ⟨notMax, ⟨⟩⟩ := Option.ite_none_left_eq_some.mp found
  obtain ⟨_, least, same | ⟨block, mem, fits, eq⟩⟩ :=
    @findGap_spec unit size blocks blocks (ramAddrMax, ramAddrMax)
  · exact absurd (congrArg Prod.fst same) notMax
  · rw [eq] at least
    exact .inr ⟨block, mem, by rw [eq], fits, least⟩

/-- A new block in a gap that suffices is apart from every other. -/
theorem Placed.apart_of_gap (placed : Placed unit blocks)
    (mem : block ∈ blocks) (nonzero : 0 < size)
    (fits : size ≤ gapBehind unit blocks block) (member' : other ∈ blocks) :
    Apart ⟨block.candidate unit, size⟩ other := by
  rcases Nat.lt_or_ge other.offset (block.candidate unit) with before | after
  · -- A block that starts before the place ends there too, because it starts on a unit.
    right
    have within := placed.within block mem
    have inside : ¬ (block.offset + block.maxLength + unit - 1) % 2 ^ 64 < unit := fun less => by
      rw [RAMBlock.candidate, floorTo, Nat.div_eq_of_lt less] at before
      omega
    have start : block.candidate unit = ceilTo unit (block.offset + block.maxLength) := by
      rw [RAMBlock.candidate, Nat.mod_eq_of_lt (by omega), ceilTo]
    have pos : 0 < unit :=
      Nat.pos_of_ne_zero fun zero => by simp [RAMBlock.candidate, floorTo, zero] at before
    have above := le_ceilTo pos (block.offset + block.maxLength)
    by_cases same : block = other
    · subst same
      exact start ▸ above
    rcases placed.apart.forall mem member' same with behind | ahead
    · have := ceilTo_le pos (placed.aligned other member') behind
      omega
    · show other.offset + other.maxLength ≤ block.candidate unit
      omega
  · left
    have := (@nextOffset_spec _ ramAddrMax _).2.2 other member' after
    rw [gapBehind] at fits
    show block.candidate unit + size ≤ other.offset
    omega

/-- A block put where `find_ram_offset` says overlaps no other. -/
theorem Placed.cons (placed : Placed unit blocks) (fits : size < 2 ^ 64)
    (found : findRamOffset unit blocks size = some offset) :
    Placed unit (⟨offset, size⟩ :: blocks) := by
  obtain ⟨nonzero, ⟨rfl, rfl⟩ | ⟨block, mem, rfl, enough, _⟩⟩ := findRamOffset_cases found
  · exact ⟨by simp, by simpa using fits, by simp⟩
  · have := (@nextOffset_spec (block.candidate unit) ramAddrMax blocks).2.1
    constructor
    · exact forall_mem_cons.mpr ⟨Nat.dvd_mul_left _ _, placed.aligned⟩
    · refine forall_mem_cons.mpr ⟨?_, placed.within⟩
      rw [gapBehind] at enough
      rw [ramAddrMax] at *
      show block.candidate unit + size < 2 ^ 64
      omega
    · exact pairwise_cons.mpr ⟨fun other => placed.apart_of_gap mem nonzero enough, placed.apart⟩

/-- Adding and freeing blocks both keep them apart. -/
theorem Placed.change (placed : Placed unit blocks) {label}
    (changed : change unit blocks label = some blocks') : Placed unit blocks' := by
  cases label with
  | add maxLength fits =>
    simp only [Exec.change, Option.bind_eq_bind, Option.bind_eq_some_iff, Option.pure_def,
      Option.some.injEq] at changed
    obtain ⟨offset, found, rfl⟩ := changed
    have larger := placed.cons fits found
    have perm := perm_orderedInsert (fun a b : RAMBlock => b.maxLength < a.maxLength)
      ⟨offset, maxLength⟩ blocks
    exact ⟨fun block mem => larger.aligned block (perm.mem_iff.mp mem),
      fun block mem => larger.within block (perm.mem_iff.mp mem),
        (perm.pairwise_iff Or.symm).mpr larger.apart⟩
  | remove offset =>
    cases changed
    exact ⟨fun block mem => placed.aligned block (mem_of_mem_filter mem),
      fun block mem => placed.within block (mem_of_mem_filter mem), placed.apart.filter _⟩

/-- After any additions and removals the blocks start on units and are apart, and a new one goes to
the smallest gap. -/
theorem ramBlocks_placed (unit : Nat) (changes : List Change) (blocks : List RAMBlock)
    (ran : run (change unit) [] changes = some blocks) :
    (∀ block ∈ blocks, unit ∣ block.offset) ∧ blocks.Pairwise Apart ∧
      (∀ start, GapEnds ramAddrMax blocks start (nextOffset start ramAddrMax blocks)) ∧
      ∀ size offset, findRamOffset unit blocks size = some offset →
        blocks = [] ∧ offset = 0 ∨ SmallestGap unit blocks size offset := by
  have placed : Placed unit blocks :=
    run_preserves (fun _ _ _ placed => placed.change) (by constructor <;> simp) ran
  exact ⟨placed.aligned, placed.apart, fun _ => nextOffset_spec, fun size offset found =>
    (findRamOffset_cases found).2⟩

theorem firmware_fits : 0x20000 < 2 ^ 64 := by decide

theorem mainMemory_fits : 0x8000000 < 2 ^ 64 := by decide

/-- The firmware of a machine and its main memory. -/
def machineBlocks : List Change := [.add 0x20000 firmware_fits, .add 0x8000000 mainMemory_fits]

/-- The blocks of the machine are apart. -/
theorem ramBlocks_placed_machine :
    ∃ blocks, run (change (64 <<< 12)) [] machineBlocks = some blocks ∧
      blocks.length = 2 ∧ blocks.Pairwise Apart :=
  ⟨_, rfl, rfl, (ramBlocks_placed (64 <<< 12) machineBlocks _ rfl).2.1⟩

end Qemu.Exec
