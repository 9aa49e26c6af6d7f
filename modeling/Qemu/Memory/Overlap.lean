import Qemu.Memory.Resolve

/-! Overlapping subregions: the one of the highest priority answers, and among equals the one that
was added last. -/

namespace Qemu.Memory

open List Option

variable {quiet : MemoryRegion → Prop} {mr new : MemoryRegion} {subs : List MemoryRegion}

/-- The subregions of a container after `memory_region_add_subregion_overlap` for each of these in
turn. -/
def addedInOrder (added : List MemoryRegion) : List MemoryRegion :=
  added.foldl (fun subs subregion => memoryRegionUpdateContainerSubregions subregion subs) []

theorem forall_mem_added {holds : MemoryRegion → Prop}
    (all : ∀ other ∈ subs, holds other) (here : holds new) :
    ∀ other ∈ memoryRegionUpdateContainerSubregions new subs, holds other := by
  induction subs with
  | nil => exact forall_mem_singleton.mpr here
  | cons other rest ih =>
    have ⟨first, others⟩ := forall_mem_cons.mp all
    rw [memoryRegionUpdateContainerSubregions]
    split
    · exact forall_mem_cons.mpr ⟨here, all⟩
    · exact forall_mem_cons.mpr ⟨first, ih others⟩

/-- A subregion leads where all before it are quiet, and of no lower priority. -/
inductive Leads (quiet : MemoryRegion → Prop) (mr : MemoryRegion) : List MemoryRegion → Prop
  | first (rest) : Leads quiet mr (mr :: rest)
  | behind {other rest} (silent : quiet other) (higher : mr.info.priority ≤ other.info.priority)
      (leads : Leads quiet mr rest) : Leads quiet mr (other :: rest)

/-- A region of the highest priority goes to the front when it is added. -/
theorem leads_of_added (lower : ∀ other ∈ subs, quiet other ∨
    other.info.priority ≤ mr.info.priority) :
    Leads quiet mr (memoryRegionUpdateContainerSubregions mr subs) := by
  induction subs with
  | nil => exact .first []
  | cons other rest ih =>
    have ⟨here, others⟩ := forall_mem_cons.mp lower
    rw [memoryRegionUpdateContainerSubregions]
    split
    case isTrue => exact .first _
    case isFalse below =>
      exact .behind (here.resolve_right below) (Int.not_le.mp below).le (ih others)

/-- A region of lower priority goes behind the leader. -/
theorem Leads.add (leads : Leads quiet mr subs)
    (lower : quiet new ∨ new.info.priority < mr.info.priority) :
    Leads quiet mr (memoryRegionUpdateContainerSubregions new subs) := by
  -- Going in front of the leader, or of one before it, takes at least its priority: such a newcomer
  -- is quiet.
  have silent (reaches : mr.info.priority ≤ new.info.priority) : quiet new :=
    lower.resolve_right (Int.not_lt.mpr reaches)
  induction leads with
  | first rest =>
    rw [memoryRegionUpdateContainerSubregions]
    split
    case isTrue reaches => exact .behind (silent reaches) reaches (.first rest)
    case isFalse => exact .first _
  | behind here higher leads ih =>
    rw [memoryRegionUpdateContainerSubregions]
    split
    case isTrue reaches =>
      have reaches := Int.le_trans higher reaches
      exact .behind (silent reaches) reaches (.behind here higher leads)
    case isFalse => exact .behind here higher ih

theorem leads_addedInOrder (before after)
    (earlier : ∀ other ∈ before, quiet other ∨ other.info.priority ≤ mr.info.priority)
    (later : ∀ other ∈ after, quiet other ∨ other.info.priority < mr.info.priority) :
    Leads quiet mr (addedInOrder (before ++ mr :: after)) := by
  rw [addedInOrder, foldl_append, foldl_cons]
  -- What was added before stays out of the way of the new leader, which later additions leave in
  -- front.
  have lower := foldlRecOn (motive :=
    (∀ other ∈ ·, quiet other ∨ other.info.priority ≤ mr.info.priority)) before _
    (forall_mem_nil _) fun _ all new mem => forall_mem_added all (earlier new mem)
  exact foldlRecOn after _ (leads_of_added lower) fun _ leads new mem => leads.add (later new mem)

theorem Leads.resolveFirst {offset readonly nonvolatile answer}
    (leads : Leads (fun other => resolve other (offset - other.info.addr) readonly
      nonvolatile = none) mr subs)
    (answers : resolve mr (offset - mr.info.addr) readonly nonvolatile = some answer) :
    resolveFirst subs offset readonly nonvolatile = some answer := by
  induction leads with
  | first rest => rw [Memory.resolveFirst, answers, some_or]
  | behind silent _ _ ih => rw [Memory.resolveFirst, silent, none_or, ih]

/-- Of the subregions that would answer an address, the one with the highest priority does in the
flat view, however they were added; of equal ones the last. -/
theorem generateMemoryTopology_overlap (globalDirtyLog : Bool)
    (info : RegionInfo) (content : ContentInfo)
    (before : List MemoryRegion) (mr : MemoryRegion) (after : List MemoryRegion) (view : FlatView)
    (generated : generateMemoryTopology globalDirtyLog
      (some (.region info content (addedInOrder (before ++ mr :: after)))) = some view)
    (enabled : info.enabled) (addr : Int)
    (inside : info.addr ≤ addr ∧ addr < info.addr + info.size ∧ addr < 2 ^ 64) (answer : Resolution)
    (answers : resolve mr (addr - info.addr - mr.info.addr) info.readonly
      info.nonvolatile = some answer)
    (earlier : ∀ other ∈ before, resolve other (addr - info.addr - other.info.addr)
      info.readonly info.nonvolatile = none ∨ other.info.priority ≤ mr.info.priority)
    (later : ∀ other ∈ after, resolve other (addr - info.addr - other.info.addr)
      info.readonly info.nonvolatile = none ∨ other.info.priority < mr.info.priority) :
    viewAt view addr = some answer := by
  have leads := leads_addedInOrder before after earlier later
  have clipped : addrrangeContains wholeSpace addr = true := by
    simp only [addrrangeContains_iff, wholeSpace, twoTo64]
    omega
  rw [(generateMemoryTopology_spec generated).2, clippedTo, if_pos clipped,
    MemoryRegion.info_region, resolve, if_pos ⟨enabled, by omega⟩, Bool.false_or, Bool.false_or]
  simp only [leads.resolveFirst answers, some_or]

/-- A device over RAM answers, though RAM was added after it. -/
theorem generateMemoryTopology_overlap_device : ∃ info content ram device,
    (resolve ram 0x80 false false).isSome ∧ ∃ view, generateMemoryTopology false
      (some (.region info content (addedInOrder [device, ram]))) = some view ∧
      viewAt view 0x80 = some ⟨2, 0x80, false, false⟩ := by
  refine ⟨⟨0, true, false, false, 0, 2 ^ 64, 0, zero_lt_two_pow_64, two_pow_64_le_self⟩,
    ⟨false, true, 0, false⟩,
    .region ⟨1, true, false, false, 0, 0x1000, 0, zero_lt_two_pow_64, page_le_two_pow_64⟩
      ⟨true, true, 0, true⟩ [],
    .region ⟨2, true, false, false, 0, 0x1000, 1, zero_lt_two_pow_64, page_le_two_pow_64⟩
      ⟨true, true, 0, false⟩ [], rfl, ?_⟩
  refine .imp (fun view generated => ⟨generated, ?_⟩) (isSome_iff_exists.mp ?_)
  · exact generateMemoryTopology_overlap false _ _ [] _ [_] view generated rfl 0x80
      (by decide) _ rfl (by simp) (forall_mem_singleton.mpr (.inr (by decide)))
  · rfl

end Qemu.Memory
