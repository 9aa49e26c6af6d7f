import Qemu.Exec.DispatchSplit
import Qemu.Lib.Tiling

/-! Lookups in the dispatch structure, before and after compaction. -/

namespace Qemu.Exec

open Memory Tiling List Option Nat

variable {bound : Nat} {addr : Nat} {sect : MemoryRegionSection}

/--
The walk through the compacted form of an entry.

Pages in use are found as before.
Any other page leads to some registered section, which the cover test has to reject.
-/
def WalksCompacted (bound levels : Nat) (entry : PhysPageEntry) : Prop :=
  ∀ p, ∃ n < bound, physPageWalk p (physPageCompact entry) levels = some n ∧
    (sectionAt levels entry p ≠ physSectionUnassigned → n = sectionAt levels entry p)

/-- A node of one child is skipped without changing an answer. -/
theorem physPageWalk_single {node validPtr} (levels p) (single : validSlots node = [validPtr]) :
    physPageWalk p (physPageCompact (.inner 1 node)) (levels + 1) =
      physPageWalk p (physPageCompact (node validPtr)) levels := by
  rw [physPageCompact, single, skipSingle]
  -- Both walks stand at the same entry with the same number of levels left.
  cases physPageCompact (node validPtr) with
  | leaf ptr => rfl
  | empty skip =>
    have fits : (1 + skip ≤ levels + 1) ↔ skip ≤ levels := by omega
    simp only [physPageWalk, fits]
  | inner skip inside =>
    have fits : (1 + skip ≤ levels + 1) ↔ skip ≤ levels := by omega
    have rest : levels + 1 - (1 + skip) = levels - skip := by omega
    simp only [physPageWalk, fits, rest]

/-- A node of several children stays where it is. -/
theorem physPageWalk_several {node} (levels p)
    (several : ∀ validPtr, validSlots node ≠ [validPtr]) :
    physPageWalk p (physPageCompact (.inner 1 node)) (levels + 1) =
      physPageWalk p (physPageCompact (node (slotAt levels p))) levels := by
  have stays : skipSingle 1 (fun slot => physPageCompact (node slot)) (validSlots node) =
      .inner 1 fun slot => physPageCompact (node slot) := by
    unfold skipSingle
    split
    · rename_i validPtr single
      exact absurd single (several validPtr)
    · rfl
  rw [physPageCompact, stays, physPageWalk, if_pos (by omega), Nat.add_sub_cancel]

/-- Compaction keeps what the walk finds for pages in use. -/
theorem physPageCompact_walks (reg : 0 < bound) {levels entry}
    (plain : Plain bound levels entry) : WalksCompacted bound levels entry := by
  induction levels generalizing entry with
  | zero =>
    cases entry with
    | leaf ptr => exact fun p => ⟨ptr, plain, rfl, fun _ => rfl⟩
    | empty skip => exact absurd plain id
    | inner skip node => exact absurd plain id
  | succ levels ih =>
    cases entry with
    | leaf ptr => exact fun p => ⟨ptr, plain.2, rfl, fun _ => rfl⟩
    | empty skip =>
      obtain rfl : skip = 1 := plain
      exact fun p => ⟨physSectionUnassigned, reg, if_pos (by omega), fun _ => rfl⟩
    | inner skip node =>
      obtain ⟨rfl, plain⟩ := plain
      intro p
      by_cases several : ∀ validPtr, validSlots node ≠ [validPtr]
      · rw [physPageWalk_several levels p several]
        exact ih (plain _) p
      obtain ⟨validPtr, single⟩ : ∃ validPtr, validSlots node = [validPtr] := by
        simpa using several
      rw [physPageWalk_single levels p single]
      obtain ⟨n, below, walked, found⟩ := ih (plain validPtr) p
      refine ⟨n, below, walked, fun used => ?_⟩
      -- A page in use lies below the only child.
      have isChild : slotAt levels p ∈ [validPtr] := by
        rw [← single, validSlots, mem_filter, mem_range]
        refine ⟨slotAt_lt levels p, ?_⟩
        have used : sectionAt levels (node (slotAt levels p)) p ≠ physSectionUnassigned := used
        cases child : node (slotAt levels p) with
        | leaf ptr => rfl
        | empty skip =>
          rw [child] at used
          cases levels <;> exact absurd rfl used
        | inner skip inside => rfl
      have same := mem_singleton.mp isChild
      rw [sectionAt, same] at used ⊢
      exact found used

variable {page : TargetPage} {d : AddressSpaceDispatch}
    {done : List MemoryRegionSection} {shared : Finset Nat}

/-- A section that covers an address has the number of its page in the tree. -/
theorem Reflects.covering (reflects : Reflects page d done shared) {n}
    (wellFormed : ∀ other ∈ done, Piece page other) (addr_lt : addr < 2 ^ 64)
    (found : d.sections[n]? = some sect)
    (assigned : n ≠ physSectionUnassigned) (covers : sectionCoversAddr sect addr) :
    (WholePages page sect ∨ IsPiece sect = false →
      sectionAt page.levels d.physMap (addr / page.size) = n) ∧
      sectionAt page.levels d.physMap (addr / page.size) ≠ physSectionUnassigned := by
  cases region : sect.mr with
  | ioMemUnassigned => exact absurd (reflects.onlyOne n sect found region) assigned
  | region mr =>
    have isPiece : IsPiece sect := by rw [IsPiece, region]
    have piece : Piece page sect := wellFormed sect (reflects.mem_done found isPiece)
    rw [sectionCoversAddr_iff piece.nonempty piece.inside addr_lt] at covers
    have complete := reflects.complete n sect addr found isPiece covers
    split at complete
    · exact ⟨fun _ => complete, complete ▸ assigned⟩
    -- A partial piece covers only addresses of a page that is shared.
    rename_i part
    obtain ⟨num, mmio, ⟨atPage, _⟩, _⟩ := complete
    refine ⟨fun other => ?_, reflects.ne_unassigned atPage (by simp [subpageSection])⟩
    rcases other with whole | noPiece
    · exact absurd whole part
    · rw [isPiece] at noPiece
      contradiction
  | subpage num =>
    obtain ⟨p, within, rfl, here⟩ := reflects.subpages n sect num found region
    rw [sectionCoversAddr_iff page.size_pos (page.page_le_two_pow_64 within) addr_lt] at covers
    have samePage : addr / page.size = p := by
      obtain ⟨lower, upper⟩ := covers
      exact Nat.div_eq_of_lt_le lower (by rw [Nat.succ_mul]; exact upper)
    rw [samePage, here]
    exact ⟨fun _ => rfl, assigned⟩

/-- Compaction changes no lookup's answer. -/
theorem Reflects.find_compact (reflects : Reflects page d done shared)
    (wellFormed : ∀ other ∈ done, Piece page other) (addr_lt : addr < 2 ^ 64) :
    physPageFind page (addressSpaceDispatchCompact d) addr =
      some (sectionAt page.levels d.physMap (addr / page.size)) := by
  have before := reflects.find addr_lt
  have reg : 0 < d.sections.length := by
    have := reflects.count
    omega
  obtain ⟨n, below, walked, found⟩ := physPageCompact_walks reg reflects.plain (addr / page.size)
  obtain ⟨sect, atNumber⟩ : ∃ sect, d.sections[n]? = some sect :=
    ⟨_, List.getElem?_eq_getElem below⟩
  rw [physPageFind_eq (d := addressSpaceDispatchCompact d) walked atNumber]
  by_cases used : sectionAt page.levels d.physMap (addr / page.size) = physSectionUnassigned
  · -- The page is free: a wrong hit does not cover the address.
    rw [used, some.injEq]
    by_cases unassigned : n = physSectionUnassigned
    · rw [unassigned, ite_self]
    · refine if_neg fun covers => ?_
      exact (reflects.covering wellFormed addr_lt atNumber unassigned covers).2 used
  · -- The page is in use: both walks end at the same section.
    have walked_plain := physPageWalk_plain reflects.plain (addr / page.size)
    obtain rfl := found used
    rw [← before, physPageFind_eq walked_plain atNumber]

/-- A dispatch structure finds the sections of another one. -/
structure FindsAs (page : TargetPage) (d found : AddressSpaceDispatch) : Prop where
  sections : found.sections = d.sections
  subpages : found.subpages = d.subpages
  find : ∀ addr < 2 ^ 64, physPageFind page found addr =
    some (sectionAt page.levels d.physMap (addr / page.size))

/-- The cache of the last section holds a number from the tree. -/
def CacheFits (page : TargetPage) (d : AddressSpaceDispatch) (mruSection : Option Nat) : Prop :=
  ∀ n, mruSection = some n → ∃ p < page.limit, n = sectionAt page.levels d.physMap p

section

variable {addr : Nat} (reflects : Reflects page d done shared)
    (wellFormed : ∀ other ∈ done, Piece page other)

include reflects wellFormed

/-- One lookup: the cache changes nothing but its own content. -/
theorem lookup_step {found} (findsAs : FindsAs page d found) {mruSection}
    (fits : CacheFits page d mruSection) (addr_lt : addr < 2 ^ 64) (resolveSubpage) :
    ∃ mruSection', CacheFits page d mruSection' ∧
      addressSpaceLookupRegion page found mruSection addr resolveSubpage =
        (resolveByte page d (sectionAt page.levels d.physMap (addr / page.size)) addr
          resolveSubpage).map fun n => (n, mruSection') := by
  set n := sectionAt page.levels d.physMap (addr / page.size)
  -- Past the number of the section, the lookup reads nothing but the two lists.
  have tail : resolveByte page found n addr resolveSubpage =
      resolveByte page d n addr resolveSubpage := by
    rw [resolveByte, resolveByte, findsAs.sections, findsAs.subpages]
  rw [addressSpaceLookupRegion, findsAs.sections]
  cases hit : mruSection.filter fun n =>
      n ≠ physSectionUnassigned && (d.sections[n]?.any fun sect => sectionCoversAddr sect addr) with
  | none =>
    refine ⟨some n, fun other same => ?_, ?_⟩
    · exact ⟨addr / page.size, page.page_lt addr_lt, (some.inj same).symm⟩
    · rw [findsAs.find addr addr_lt, ← tail, map_eq_bind]
      rfl
  | some other =>
    obtain ⟨cached, accepted⟩ := filter_eq_some_iff.mp hit
    rw [Bool.and_eq_true, decide_eq_true_eq, Option.any_eq_true] at accepted
    obtain ⟨assigned, sect, atNumber, covers⟩ := accepted
    have cache_hit : other = sectionAt page.levels d.physMap (addr / page.size) := by
      refine ((reflects.covering wellFormed addr_lt atNumber assigned covers).1 ?_).symm
      obtain ⟨p, within, rfl⟩ := fits other cached
      rcases reflects.tree p within with free | ⟨other, atPage, _, whole, _⟩
        | ⟨_, num, mmio, ⟨atPage, _⟩, _⟩
      · exact absurd free assigned
      · rw [atNumber, some.injEq] at atPage
        exact .inl (atPage ▸ whole)
      · rw [atNumber, some.injEq] at atPage
        exact .inr (atPage ▸ rfl)
    have same : other = n := cache_hit
    refine ⟨mruSection, fits, ?_⟩
    rw [same, ← tail, map_eq_bind]
    rfl

/-- What a lookup resolves: a piece that covers the address, or nothing. -/
theorem Reflects.resolveByte_spec (addr_lt : addr < 2 ^ 64) :
    ∃ n sect, resolveByte page d (sectionAt page.levels d.physMap (addr / page.size)) addr
      true = some n ∧ d.sections[n]? = some sect ∧
      (n = physSectionUnassigned ∧ (∀ piece ∈ done, ¬ Covers piece addr) ∨
        n ≠ physSectionUnassigned ∧ sect ∈ done ∧ Covers sect addr) := by
  have split := div_add_mod addr page.size
  have pos := mod_lt addr page.size_pos
  rw [mul_comm] at split
  -- A piece that covers the address has a number, which is found through its page.
  have numbered : ∀ piece ∈ done, Covers piece addr →
      ∃ n : Nat, d.sections[n]? = some piece ∧ IsPiece piece = true := by
    intro piece mem _
    rw [← reflects.pieces, mem_filter] at mem
    obtain ⟨n, found⟩ := mem_iff_getElem?.mp mem.1
    exact ⟨n, found, mem.2⟩
  rcases reflects.tree (addr / page.size) (page.page_lt addr_lt) with
    free | ⟨sect, found, piece, whole, covers⟩ | ⟨_, num, mmio, sharedAt, fits⟩
  · refine ⟨physSectionUnassigned, unassignedSection, ?_, reflects.unassigned, .inl ⟨rfl, ?_⟩⟩
    · rw [free, resolveByte, reflects.unassigned]
      rfl
    · intro piece mem covers
      obtain ⟨n, found, isPiece⟩ := numbered piece mem covers
      have wellFormed' := wellFormed piece mem
      refine (reflects.covering wellFormed addr_lt found
        (reflects.ne_unassigned found wellFormed'.mr_ne) ?_).2 free
      exact (sectionCoversAddr_iff wellFormed'.nonempty wellFormed'.inside addr_lt).mpr covers
  · refine ⟨_, sect, ?_, found, .inr ⟨reflects.ne_unassigned found piece.mr_ne,
      reflects.mem_done found piece.region, piece.covers_of_page whole covers⟩⟩
    rw [resolveByte, found]
    simp only [bind_eq_bind, bind_some]
    cases mr_eq : sect.mr with
    | ioMemUnassigned => rfl
    | region mr => rfl
    | subpage num => exact absurd mr_eq ((mr_ne_of_isPiece piece.region).2 num)
  obtain ⟨atPage, table, _⟩ := sharedAt
  have resolved : resolveByte page d (sectionAt page.levels d.physMap (addr / page.size))
    addr true =
      some (mmio.subSection (addr % page.size)) := by
    rw [resolveByte, atPage]
    simp only [bind_eq_bind, bind_some, subpageSection, table, if_true]
    rfl
  rcases fits (addr % page.size) pos with nowhere | ⟨sect, found, piece, _, covers⟩
  · refine ⟨physSectionUnassigned, unassignedSection, nowhere ▸ resolved,
      reflects.unassigned, .inl ⟨rfl, ?_⟩⟩
    intro piece mem covers
    obtain ⟨n, found, isPiece⟩ := numbered piece mem covers
    have assigned := reflects.ne_unassigned found (wellFormed piece mem).mr_ne
    have complete := reflects.complete n piece addr found isPiece covers
    split at complete
    · -- The page would belong to the piece alone.
      rw [complete, found, some.injEq] at atPage
      rw [atPage] at isPiece
      contradiction
    -- The table would name the piece.
    obtain ⟨number', mmio', ⟨atPage', table', _⟩, named⟩ := complete
    rw [atPage, some.injEq] at atPage'
    obtain rfl : num = number' := by simpa [subpageSection] using atPage'
    rw [table, some.injEq] at table'
    subst table'
    exact assigned (named.symm.trans nowhere)
  · rw [split] at covers
    exact ⟨_, sect, resolved, found,
      .inr ⟨reflects.ne_unassigned found piece.mr_ne, reflects.mem_done found piece.region, covers⟩⟩

end

/-- Every address resolves to a section, registered or unassigned. -/
theorem Reflects.resolveByte_page (reflects : Reflects page d done shared) (addr) :
    ∃ n, resolveByte page d (sectionAt page.levels d.physMap (addr / page.size)) addr false =
        some n := by
  have reg : 0 < d.sections.length := by
    have := reflects.count
    omega
  have below := reflects.plain.sectionAt_lt reg (addr / page.size)
  refine ⟨sectionAt page.levels d.physMap (addr / page.size), ?_⟩
  rw [resolveByte, List.getElem?_eq_getElem below]
  simp only [bind_eq_bind, bind_some]
  split <;> rfl

/-- The content of the cache after any lookups. -/
theorem mruAfter_fits (reflects : Reflects page d done shared)
    (wellFormed : ∀ other ∈ done, Piece page other)
    {found} (findsAs : FindsAs page d found) {mruSection}
    (fits : CacheFits page d mruSection) (earlier : List (Nat × Bool))
    (inside : ∀ lookup ∈ earlier, lookup.1 < 2 ^ 64) :
    ∃ mruSection', mruAfter page found mruSection earlier = some mruSection' ∧
        CacheFits page d mruSection' := by
  induction earlier generalizing mruSection with
  | nil => exact ⟨mruSection, rfl, fits⟩
  | cons lookup earlier ih =>
    obtain ⟨addr, resolveSubpage⟩ := lookup
    have addr_lt : addr < 2 ^ 64 := inside _ mem_cons_self
    obtain ⟨mruSection', fits', step⟩ :=
      lookup_step reflects wellFormed findsAs fits addr_lt resolveSubpage
    obtain ⟨n, resolved⟩ : ∃ n, resolveByte page d
      (sectionAt page.levels d.physMap (addr / page.size)) addr
        resolveSubpage = some n := by
      cases resolveSubpage with
      | true =>
        obtain ⟨n, _, resolved, _⟩ := reflects.resolveByte_spec wellFormed addr_lt
        exact ⟨n, resolved⟩
      | false => exact reflects.resolveByte_page addr
    obtain ⟨final, after, finalFits⟩ :=
      ih fits' fun other mem => inside other (mem_cons_of_mem _ mem)
    refine ⟨final, ?_, finalFits⟩
    rw [mruAfter, step, resolved]
    exact after

/-- A section answers for a range: same region, flags and offset. -/
def AnswersFor (fr : FlatRange) (addr : Nat) (sect : MemoryRegionSection) : Prop :=
  sect.mr = .region fr.mr ∧ sect.readonly = fr.readonly ∧ sect.nonvolatile = fr.nonvolatile ∧
    sect.offsetWithinAddressSpace ≤ addr ∧
    (sect.offsetWithinRegion + (addr - sect.offsetWithinAddressSpace)) % 2 ^ 64 =
      (fr.offsetInRegion + (addr - fr.addr.start.toNat)) % 2 ^ 64

/-- A piece of a range answers for the bytes it covers. -/
theorem PartOf.answersFor {fr}
    (part : PartOf (rangeSection fr) sect)
    (covers : Covers sect addr) : AnswersFor fr addr sect := by
  obtain ⟨mr, readonly, nonvolatile, lower, _, offset⟩ := part
  have reached := covers.1
  have start : (rangeSection fr).offsetWithinAddressSpace = fr.addr.start.toNat := rfl
  have region : (rangeSection fr).offsetWithinRegion = fr.offsetInRegion := rfl
  rw [start] at lower offset
  rw [region] at offset
  refine ⟨mr, readonly, nonvolatile, reached, ?_⟩
  rw [← mod_add_mod, offset, mod_add_mod]
  congr 1
  omega

theorem PartOf.covers {piece} (part : PartOf sect piece)
    (covers : Covers piece addr) : Covers sect addr := by
  have lower := part.lower
  have upper := part.upper
  obtain ⟨first, last⟩ := covers
  exact ⟨by omega, by omega⟩

variable {view : FlatView}

/-- At most one range of a view holds an address. -/
theorem ViewInOrder.unique (inOrder : ViewInOrder view) {fr fr' addr}
    (mem : fr ∈ view) (member' : fr' ∈ view) (contains : addrrangeContains fr.addr addr)
    (contains' : addrrangeContains fr'.addr addr) : fr = fr' := by
  rw [addrrangeContains_iff] at contains contains'
  have tiled : TiledFrom (fun fr : FlatRange => fr.addr.start)
      (fun fr => addrrangeEnd fr.addr) 0 view := by
    refine tiledFrom_of_pairwise (fun fr mem => (inOrder.inside fr mem).1)
      (fun fr mem => ?_) inOrder.ordered
    have := (inOrder.inside fr mem).2.1
    simp only [addrrangeEnd]
    omega
  -- Both ranges are the one that the tiling has for the address.
  have first := tiled.covering_of_mem mem contains.1 contains.2
  have second := tiled.covering_of_mem member' contains'.1 contains'.2
  exact some.inj (first.symm.trans second)

theorem ViewInOrder.exists_piece (inOrder : ViewInOrder view) {fr}
    (mem : fr ∈ view) (contains : addrrangeContains fr.addr addr) :
    ∃ piece ∈ viewPieces page view, Covers piece addr := by
  have inside := inOrder.inside fr mem
  obtain ⟨piece, isPart, here⟩ :=
    (range_splits inside).covering addr ((covers_rangeSection inside addr).mpr contains)
  exact ⟨piece, mem_flatMap.mpr ⟨fr, mem, isPart⟩, here⟩

theorem ViewInOrder.range_of_piece (inOrder : ViewInOrder view) {piece}
    (isPiece : piece ∈ viewPieces page view) (here : Covers piece addr) :
    ∃ fr ∈ view, addrrangeContains fr.addr addr ∧ PartOf (rangeSection fr) piece := by
  obtain ⟨fr, mem, _, part⟩ := inOrder.mem_pieces isPiece
  exact ⟨fr, mem, (covers_rangeSection (inOrder.inside fr mem) addr).mp (part.covers here), part⟩

/-- The dispatch structure of a view agrees with the view. Building it fails no assertion, and every
lookup, through the plain or the compacted tree and after any earlier lookups, ends at the section
of the range that contains the address, or at the unassigned section. -/
theorem addressSpaceLookupRegion_view (page : TargetPage) (allocHint : Nat) (view : FlatView)
    (inOrder : ViewInOrder view) (few : sectionsNeeded page (viewPieces page view) ≤ page.size) :
    ∃ d, buildDispatch page allocHint view = some d ∧
      ∀ addr < 2 ^ 64, ∃ n sect, d.sections[n]? = some sect ∧
        (∀ found ∈ [d, addressSpaceDispatchCompact d], ∀ earlier : List (Nat × Bool),
          (∀ lookup ∈ earlier, lookup.1 < 2 ^ 64) →
          ∃ mruSection mruSection', mruAfter page found none earlier = some mruSection ∧
            addressSpaceLookupRegion page found mruSection addr true = some (n, mruSection')) ∧
        (∀ fr ∈ view, addrrangeContains fr.addr addr = true → AnswersFor fr addr sect) ∧
        (n = physSectionUnassigned ↔ ∀ fr ∈ view, addrrangeContains fr.addr addr = false) := by
  obtain ⟨d, built, reflects⟩ := buildDispatch_spec inOrder few allocHint
  have wellFormed := @inOrder.pieces_wellFormed page
  have finds : ∀ found ∈ [d, addressSpaceDispatchCompact d], FindsAs page d found := by
    intro found member
    rcases mem_cons.mp member with rfl | member
    · exact ⟨rfl, rfl, fun addr addr_lt => reflects.find addr_lt⟩
    · obtain rfl := mem_singleton.mp member
      exact ⟨rfl, rfl, fun addr addr_lt => reflects.find_compact wellFormed addr_lt⟩
  refine ⟨d, built, fun addr addr_lt => ?_⟩
  obtain ⟨n, sect, resolved, atNumber, answer⟩ := reflects.resolveByte_spec wellFormed addr_lt
  refine ⟨n, sect, atNumber, fun found member earlier inside => ?_, ?_, ?_⟩
  · -- Any earlier lookups leave a cache that does not change the answer.
    have empty : CacheFits page d none := fun _ absurd => nomatch absurd
    obtain ⟨mruSection, after, fits⟩ :=
      mruAfter_fits reflects wellFormed (finds found member) empty earlier inside
    obtain ⟨mruSection', _, step⟩ :=
      lookup_step reflects wellFormed (finds found member) fits addr_lt true
    refine ⟨mruSection, mruSection', after, ?_⟩
    rw [step, resolved]
    rfl
  · intro fr member contains
    rcases answer with ⟨_, nothing⟩ | ⟨_, isPiece, here⟩
    · -- Some piece of the range would cover the address.
      obtain ⟨piece, isPiece, here⟩ := inOrder.exists_piece member contains
      exact absurd here (nothing piece isPiece)
    · obtain ⟨other, isRange, contains', part⟩ := inOrder.range_of_piece isPiece here
      obtain rfl := inOrder.unique member isRange contains contains'
      exact part.answersFor here
  · rcases answer with ⟨unassigned, nothing⟩ | ⟨assigned, isPiece, here⟩
    · refine iff_of_true unassigned fun fr member => ?_
      rw [← Bool.not_eq_true]
      intro contains
      obtain ⟨piece, isPiece, here⟩ := inOrder.exists_piece member contains
      exact nothing piece isPiece here
    · refine iff_of_false assigned fun nothing => ?_
      obtain ⟨fr, isRange, contains, _⟩ := inOrder.range_of_piece isPiece here
      rw [nothing fr isRange] at contains
      contradiction

/-- RAM that starts and ends within pages, and a device on the last. -/
def sampleView : FlatView :=
  [⟨1, 0, ⟨0x800, 0x2000⟩, 0, true, false, false⟩,
    ⟨2, 0x40, ⟨0x2800, 0x100⟩, 0, true, false, false⟩]

theorem sampleView_inOrder : ViewInOrder sampleView where
  inside := by
    intro fr mem
    simp only [sampleView, mem_cons, not_mem_nil, or_false] at mem
    rcases mem with rfl | rfl
    · exact ⟨by decide, by decide, by decide⟩
    · exact ⟨by decide, by decide, by decide⟩
  ordered := by decide

/-- A lookup finds the device on the page it shares with the RAM. -/
theorem addressSpaceLookupRegion_view_device :
    ∃ d n sect, buildDispatch ⟨12, by decide⟩ 16 sampleView = some d ∧ d.sections[n]? = some sect ∧
      n ≠ physSectionUnassigned ∧ AnswersFor ⟨2, 0x40, ⟨0x2800, 0x100⟩, 0, true,
          false, false⟩ 0x2810 sect := by
  obtain ⟨d, built, lookups⟩ :=
    addressSpaceLookupRegion_view ⟨12, by decide⟩ 16 sampleView sampleView_inOrder (by decide)
  obtain ⟨n, sect, found, _, answers, unassigned⟩ := lookups 0x2810 (by decide)
  have device : ⟨2, 0x40, ⟨0x2800, 0x100⟩, 0, true, false, false⟩ ∈ sampleView := by decide
  refine ⟨d, n, sect, built, found, fun none => ?_, answers _ device (by decide)⟩
  exact absurd (unassigned.mp none _ device) (by decide)

end Qemu.Exec
