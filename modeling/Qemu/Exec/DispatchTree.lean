import Qemu.Exec.DispatchLookup
import Qemu.Memory.Resolve

/-! From the region tree to a lookup: the dispatch of a rendered view answers as the tree does. -/

namespace Qemu.Exec

open Memory Tiling List Option

/-- A section gives the answer for an address, with an offset in 64 bits. -/
def MemoryRegionSection.Gives (sect : MemoryRegionSection) (addr : Nat)
    (answer : Resolution) : Prop :=
  sect.mr = .region answer.mr ∧ sect.readonly = answer.readonly ∧
    sect.nonvolatile = answer.nonvolatile ∧
    ((sect.offsetWithinRegion + (addr - sect.offsetWithinAddressSpace) : Nat) : Int) %
    twoTo64 = answer.offset % twoTo64

theorem AnswersFor.gives {fr addr sect} (answers : AnswersFor fr addr sect)
    (nonneg : 0 ≤ fr.addr.start)
    (contains : addrrangeContains fr.addr addr) : sect.Gives addr (fr.answer addr) := by
  obtain ⟨mr, readonly, nonvolatile, -, offset⟩ := answers
  have lower := ((addrrangeContains_iff _ _).mp contains).1
  have distance : fr.offsetInRegion + ((addr : Int) - fr.addr.start) =
      (fr.offsetInRegion + (addr - fr.addr.start.toNat) : Nat) := by omega
  refine ⟨mr, readonly, nonvolatile, ?_⟩
  rw [FlatRange.answer, distance]
  exact congrArg Int.ofNat offset

/-- The dispatch that `generate_memory_topology` builds agrees with the region tree: every lookup,
after any earlier ones, ends at a section that gives the tree's answer, or at the unassigned one
where the tree has none. -/
theorem addressSpaceLookupRegion_tree (page : TargetPage) (allocHint : Nat)
    (globalDirtyLog : Bool) (mr : MemoryRegion)
    (view : FlatView) (generated : generateMemoryTopology globalDirtyLog (some mr) = some view)
    (few : sectionsNeeded page (viewPieces page view) ≤ page.size) :
    ∃ d, (buildDispatch page allocHint view).map addressSpaceDispatchCompact = some d ∧
      ∀ addr < 2 ^ 64, ∀ earlier : List (Nat × Bool), (∀ lookup ∈ earlier, lookup.1 < 2 ^ 64) →
        ∃ mruSection n mruSection' sect, mruAfter page d none earlier = some mruSection ∧
          addressSpaceLookupRegion page d mruSection addr true = some (n, mruSection') ∧
            d.sections[n]? = some sect ∧
          (n = physSectionUnassigned ∧ resolve mr (addr - mr.info.addr) false false = none ∨
            ∃ answer, resolve mr (addr - mr.info.addr) false false = some answer ∧
                sect.Gives addr answer) := by
  obtain ⟨ordered, answers⟩ := generateMemoryTopology_spec generated
  have inOrder : ViewInOrder view :=
    ⟨fun fr mem => generateMemoryTopology_range generated mem, ordered.pairwise⟩
  obtain ⟨d, built, reflects⟩ := buildDispatch_spec inOrder few allocHint
  have wellFormed := @inOrder.pieces_wellFormed page
  have finds : FindsAs page d (addressSpaceDispatchCompact d) :=
    ⟨rfl, rfl, fun addr addr_lt => reflects.find_compact wellFormed addr_lt⟩
  refine ⟨addressSpaceDispatchCompact
    d, by rw [built, map_some], fun addr addr_lt earlier inside => ?_⟩
  -- The cache starts empty, and what earlier lookups leave in it fits the structure.
  have empty : CacheFits page d none := by simp [CacheFits]
  obtain ⟨mruSection, after, fits⟩ := mruAfter_fits reflects wellFormed finds empty earlier inside
  obtain ⟨mruSection', _, step⟩ := lookup_step reflects wellFormed finds fits addr_lt true
  obtain ⟨n, sect, resolved, atNumber, found⟩ := reflects.resolveByte_spec wellFormed addr_lt
  refine ⟨mruSection, n, mruSection', sect, after, by rw [step, resolved, map_some], atNumber, ?_⟩
  have clipped : addrrangeContains wholeSpace addr = true := by
    simp only [addrrangeContains_iff, wholeSpace, twoTo64]
    omega
  have tree := answers addr
  rw [clippedTo, if_pos clipped] at tree
  rw [← tree]
  rcases found with ⟨unassigned, nothing⟩ | ⟨_, isPiece, here⟩
  · -- A range at the address would have a piece there.
    refine .inl ⟨unassigned, ?_⟩
    rw [viewAt, map_eq_none_iff, ← not_isSome_iff_eq_none, isSome_iff_exists]
    rintro ⟨range, covered⟩
    obtain ⟨mem, inside⟩ := mem_of_covering covered
    obtain ⟨piece, isPiece, here⟩ :=
      inOrder.exists_piece mem ((addrrangeContains_iff _ _).mpr inside)
    exact nothing piece isPiece here
  · obtain ⟨fr, isRange, contains, part⟩ := inOrder.range_of_piece isPiece here
    exact .inr ⟨fr.answer addr, viewAt_of_mem ordered isRange contains,
      (part.answersFor here).gives (inOrder.inside fr isRange).1 contains⟩

/-- A lookup in the sample board, through the window to RAM. -/
theorem addressSpaceLookupRegion_tree_board : ∃ view d n mruSection sect,
    generateMemoryTopology false (some sampleBoard) = some view ∧
    (buildDispatch ⟨12, by decide⟩ 16 view).map addressSpaceDispatchCompact = some d ∧
    addressSpaceLookupRegion ⟨12, by decide⟩ d none 0x2100 true = some (n, mruSection) ∧
    d.sections[n]? = some sect ∧ sect.Gives 0x2100 ⟨1, 0xf00, true, false⟩ := by
  obtain ⟨view, generated, few⟩ :
    ∃ view, generateMemoryTopology false (some sampleBoard) = some view ∧
      sectionsNeeded ⟨12, by decide⟩ (viewPieces ⟨12, by decide⟩ view) ≤ 4096 := ⟨_, rfl, by decide⟩
  obtain ⟨d, built, lookups⟩ := addressSpaceLookupRegion_tree ⟨12, by decide⟩ 16 false
    sampleBoard view generated few
  obtain ⟨_, n, mruSection, sect, ⟨⟩, found, here, ⟨-, nothing⟩ | ⟨answer, resolved, gives⟩⟩ :=
    lookups 0x2100 (by decide) [] (by simp)
  · contradiction
  · obtain rfl : ⟨1, 0xf00, true, false⟩ = answer := some.inj resolved
    exact ⟨view, d, n, mruSection, sect, generated, built, found, here, gives⟩

end Qemu.Exec
