import Mathlib.Data.Finset.Card
import Qemu.Exec.Dispatch
import Qemu.Exec.PhysPageSet

/-! Building the dispatch: every piece is reached through tree and pages. -/

namespace Qemu.Exec

open Memory List Option Nat Finset TargetPage

def TargetPage.limit (page : TargetPage) : Nat := 2 ^ (64 - page.bits)

/-- An address belongs to a section. -/
def Covers (sect : MemoryRegionSection) (addr : Nat) : Prop :=
  sect.offsetWithinAddressSpace ≤ addr ∧ addr < sect.offsetWithinAddressSpace + sect.size

variable (page : TargetPage)

theorem TargetPage.size_pos : 0 < page.size := Nat.two_pow_pos _

theorem TargetPage.size_le : page.size ≤ 2 ^ 16 := Nat.pow_le_pow_right (by decide) page.bits_le

theorem TargetPage.limit_mul_size : page.limit * page.size = 2 ^ 64 := by
  have := page.bits_le
  rw [limit, size, ← pow_add]
  congr 1
  omega

theorem TargetPage.limit_le : page.limit ≤ pL2Size ^ page.levels := by
  rw [limit, pL2Size, ← pow_mul, levels, pL2Bits]
  exact Nat.pow_le_pow_right (by decide) (by omega)

theorem TargetPage.levels_pos : 0 < page.levels := succ_pos _

theorem TargetPage.levels_le : page.levels ≤ 8 := by
  rw [levels, pL2Bits]
  omega

variable {addr : Nat}

theorem TargetPage.page_lt (inside : addr < 2 ^ 64) : addr / page.size < page.limit := by
  rw [← page.limit_mul_size, mul_comm] at inside
  exact Nat.div_lt_of_lt_mul inside

theorem TargetPage.shiftRight_eq (addr : Nat) : addr >>> page.bits = addr / page.size :=
  shiftRight_eq_div_pow _ _

variable {p : Nat}

theorem TargetPage.page_le_two_pow_64 (within : p < page.limit) :
    p * page.size + page.size ≤ 2 ^ 64 := by
  rw [← page.limit_mul_size, ← succ_mul]
  exact mul_le_mul_right _ within

variable {page : TargetPage} {bound : Nat}

variable {levels : Nat} {entry : PhysPageEntry}

/-- On a tree not yet compacted the walk reads the slot's section. -/
theorem physPageWalk_plain (plain : Plain bound levels entry) (index : Nat) :
    physPageWalk index entry levels = some (sectionAt levels entry index) := by
  induction levels generalizing entry with
  | zero =>
    cases entry with
    | leaf ptr => rfl
    | empty skip => exact absurd plain id
    | inner skip node => exact absurd plain id
  | succ levels ih =>
    cases entry with
    | leaf ptr => rfl
    | empty skip =>
      obtain rfl : skip = 1 := plain
      exact if_pos (by omega)
    | inner skip node =>
      obtain ⟨rfl, plain⟩ := plain
      rw [physPageWalk, if_pos (by omega), Nat.add_sub_cancel, ih (plain _)]
      rfl

theorem Plain.mono {bound'} (less : bound ≤ bound') (plain : Plain bound levels entry) :
    Plain bound' levels entry := by
  induction levels generalizing entry with
  | zero =>
    cases entry with
    | leaf ptr => exact lt_of_lt_of_le plain less
    | empty skip => exact plain
    | inner skip node => exact plain
  | succ levels ih =>
    cases entry with
    | leaf ptr => exact ⟨plain.1, lt_of_lt_of_le plain.2 less⟩
    | empty skip => exact plain
    | inner skip node => exact ⟨plain.1, fun slot => ih (plain.2 slot)⟩

theorem Plain.sectionAt_lt (registered : 0 < bound)
    (plain : Plain bound levels entry) (index : Nat) : sectionAt levels entry index < bound := by
  induction levels generalizing entry with
  | zero =>
    cases entry with
    | leaf ptr => exact plain
    | empty skip => exact registered
    | inner skip node => exact registered
  | succ levels ih =>
    cases entry with
    | leaf ptr => exact plain.2
    | empty skip => exact registered
    | inner skip node => exact ih (plain.2 _)

/-- Setting a run of free pages succeeds and changes exactly these pages. -/
theorem physPageSet_spec {d index nb leaf}
    (plain : Plain bound page.levels d.physMap) (assigned : leaf ≠ physSectionUnassigned)
    (below : leaf < bound) (some_pages : nb ≠ 0) (inside : index + nb ≤ page.limit)
    (free : ∀ p, index ≤ p → p < index + nb →
      sectionAt page.levels d.physMap p = physSectionUnassigned)
    (numbers : d.map.nodesNb + 3 * page.levels ≤ physMapNodeNil) :
    ∃ physMap map, physPageSet page d index nb leaf =
      some { d with physMap := physMap, map := map } ∧
      Plain bound page.levels physMap ∧ map.nodesNb ≤ d.map.nodesNb + 3 * page.levels ∧
      ∀ p < page.limit, sectionAt page.levels physMap p =
        if index ≤ p ∧ p < index + nb then leaf else sectionAt page.levels d.physMap p := by
  obtain ⟨level, level_eq⟩ : ∃ level, page.levels = level + 1 :=
    ⟨page.levels - 1, by have := page.levels_pos; omega⟩
  have limit_le := page.limit_le
  rw [level_eq] at plain free limit_le numbers ⊢
  -- The reservation covers the nodes on both edges of the run.
  have reserved : (physMapNodeReserve d.map (3 * (level + 1))).nodesNb = d.map.nodesNb ∧
      d.map.nodesNb + 3 * (level + 1) ≤
          (physMapNodeReserve d.map (3 * (level + 1))).nodesNbAlloc := by
    unfold physMapNodeReserve
    split
    · exact ⟨rfl, le_max_right _ _⟩
    · exact ⟨rfl, by omega⟩
  set map := physMapNodeReserve d.map (3 * (level + 1))
  have cost : nodeCost level ((0 + 1) * pL2Size ^ (level + 1))
      ⟨map, index, nb⟩ ≤ 3 * (level + 1) := by
    unfold nodeCost
    split <;> omega
  obtain ⟨physMap, state, res, plain', _, values, takes⟩ :=
    physPageSetLevel_spec assigned below level d.physMap ⟨map, index, nb⟩ 0 plain some_pages
      (by rw [zero_mul]; exact zero_le _) (by change index < _; omega)
      (fun p after before _ => free p after before)
      ⟨by change map.nodesNb + _ ≤ _; omega, by change map.nodesNb + _ ≤ map.nodesNbAlloc; omega⟩
  refine ⟨physMap, state.map, ?_, plain', ?_, fun p within => ?_⟩
  · simp only [physPageSet, level_eq, Nat.add_sub_cancel]
    rw [res]
    rfl
  · have := takes.1
    change state.map.nodesNb ≤ map.nodesNb + _ at this
    omega
  · rw [values p (by rw [zero_mul]; exact zero_le _) (by omega)]
    rfl

def IsPiece (sect : MemoryRegionSection) : Bool :=
  match sect.mr with
  | .region _ => true
  | _ => false

/-- The test by which a piece goes into the tree itself and not into a shared page. -/
def WholePages (page : TargetPage) (sect : MemoryRegionSection) : Prop :=
  sect.offsetWithinAddressSpace % page.size = 0 ∧ page.size ≤ sect.size

instance (page : TargetPage) (sect : MemoryRegionSection) : Decidable (WholePages page sect) :=
  inferInstanceAs (Decidable (_ ∧ _))

/-- A registered piece: whole pages, or a part of one. -/
structure Piece (page : TargetPage) (sect : MemoryRegionSection) : Prop where
  region : IsPiece sect = true
  nonempty : 0 < sect.size
  inside : sect.offsetWithinAddressSpace + sect.size ≤ 2 ^ 64
  shape : sect.offsetWithinAddressSpace % page.size = 0 ∧ sect.size % page.size = 0 ∨
    sect.offsetWithinAddressSpace % page.size + sect.size ≤ page.size ∧ sect.size < page.size

def subpageSection (page : TargetPage) (number base : Nat) : MemoryRegionSection :=
  { mr := .subpage number, offsetWithinRegion := 0, size := page.size,
    offsetWithinAddressSpace := base, readonly := false, nonvolatile := false }

variable {page : TargetPage} {sect : MemoryRegionSection}

section

variable (piece : Piece page sect)

include piece

theorem Piece.whole_eq (whole : WholePages page sect) :
    sect.offsetWithinAddressSpace = sect.offsetWithinAddressSpace / page.size * page.size ∧
      sect.size = sect.size / page.size * page.size := by
  obtain ⟨aligned, long⟩ := whole
  rcases piece.shape with ⟨_, multiple⟩ | ⟨_, short⟩
  · exact ⟨(Nat.div_mul_cancel (dvd_of_mod_eq_zero aligned)).symm,
      (Nat.div_mul_cancel (dvd_of_mod_eq_zero multiple)).symm⟩
  · omega

theorem Piece.covers_whole (whole : WholePages page sect) (addr : Nat) :
    Covers sect addr ↔ sect.offsetWithinAddressSpace / page.size ≤ addr / page.size ∧
      addr / page.size < sect.offsetWithinAddressSpace / page.size + sect.size / page.size := by
  obtain ⟨start, length⟩ := piece.whole_eq whole
  have pos := page.size_pos
  rw [Covers, le_div_iff_mul_le pos, div_lt_iff_lt_mul pos, Nat.add_mul, ← start, ← length]

theorem Piece.covers_of_page (whole : WholePages page sect)
    (covers : Covers sect (addr / page.size * page.size)) : Covers sect addr := by
  rw [piece.covers_whole whole] at covers ⊢
  rwa [Nat.mul_div_cancel _ page.size_pos] at covers

theorem Piece.part_within (part : ¬ WholePages page sect) :
    sect.offsetWithinAddressSpace % page.size + sect.size ≤ page.size := by
  rcases piece.shape with ⟨aligned, multiple⟩ | ⟨within, _⟩
  · -- A nonempty multiple of a page would be whole.
    exact absurd ⟨aligned, le_of_dvd piece.nonempty (dvd_of_mod_eq_zero multiple)⟩ part
  · exact within

theorem Piece.page_eq (part : ¬ WholePages page sect)
    (covers : Covers sect addr) : addr / page.size = sect.offsetWithinAddressSpace / page.size := by
  have within := piece.part_within part
  obtain ⟨lower, upper⟩ := covers
  have split := div_add_mod sect.offsetWithinAddressSpace page.size
  rw [mul_comm] at split
  exact Nat.div_eq_of_lt_le (by omega) (by rw [Nat.add_mul]; omega)

end

/-- Inside the address space the test is containment in the range. -/
theorem sectionCoversAddr_iff (nonempty : 0 < sect.size)
    (inside : sect.offsetWithinAddressSpace + sect.size ≤ 2 ^ 64) (addr_lt : addr < 2 ^ 64) :
    sectionCoversAddr sect addr ↔ Covers sect addr := by
  rw [sectionCoversAddr, Covers, Bool.or_eq_true, Bool.and_eq_true,
    decide_eq_true_eq, decide_eq_true_eq, decide_eq_true_eq]
  by_cases everything : sect.size = 2 ^ 64
  · rw [everything]
    omega
  have small : sect.size % 2 ^ 64 = sect.size := mod_eq_of_lt (by omega)
  have last : (sect.offsetWithinAddressSpace + sect.size + (2 ^ 64 - 1)) % 2 ^ 64 =
      sect.offsetWithinAddressSpace + sect.size - 1 := by omega
  rw [small, last]
  omega

variable (page : TargetPage)

def SharedAt (d : AddressSpaceDispatch) (p number : Nat) (mmio : Subpage) : Prop :=
  d.sections[sectionAt page.levels d.physMap p]? =
    some (subpageSection page number (p * page.size)) ∧
    d.subpages[number]? = some mmio ∧ mmio.base = p * page.size

def WholeAt (d : AddressSpaceDispatch) (p : Nat) : Prop :=
  ∃ sect, d.sections[sectionAt page.levels d.physMap p]? = some sect ∧ Piece page sect ∧
    WholePages page sect ∧ Covers sect (p * page.size)

/-- A shared page sends each byte to a piece that covers it, or nowhere. -/
def TableFits (d : AddressSpaceDispatch) (p : Nat) (mmio : Subpage) : Prop :=
  ∀ idx < page.size, mmio.subSection idx = physSectionUnassigned ∨
    ∃ sect, d.sections[mmio.subSection idx]? = some sect ∧
      Piece page sect ∧ ¬ WholePages page sect ∧ Covers sect (p * page.size + idx)

/-- The structure reflects the pieces registered; shared pages are a set. -/
structure Reflects (d : AddressSpaceDispatch) (done : List MemoryRegionSection)
    (shared : Finset Nat) : Prop where
  plain : Plain d.sections.length page.levels d.physMap
  unassigned : d.sections[physSectionUnassigned]? = some unassignedSection
  pieces : d.sections.filter IsPiece = done
  count : d.sections.length = 1 + done.length + shared.card
  nodes : d.map.nodesNb ≤ 3 * page.levels * d.sections.length
  tree : ∀ p < page.limit, sectionAt page.levels d.physMap p = physSectionUnassigned ∨
    WholeAt page d p ∨
    p ∈ shared ∧ ∃ number mmio, SharedAt page d p number mmio ∧ TableFits page d p mmio
  assigned : ∀ p ∈ shared, p < page.limit ∧
    sectionAt page.levels d.physMap p ≠ physSectionUnassigned
  complete : ∀ n sect addr, d.sections[n]? = some sect → IsPiece sect = true → Covers sect addr →
    if WholePages page sect then sectionAt page.levels d.physMap (addr / page.size) = n
    else ∃ number mmio, SharedAt page d (addr / page.size) number mmio ∧
      mmio.subSection (addr % page.size) = n
  subpages : ∀ n sect number, d.sections[n]? = some sect → sect.mr = .subpage number →
    ∃ p < page.limit, sect = subpageSection page number (p * page.size) ∧
      sectionAt page.levels d.physMap p = n
  onlyOne : ∀ n sect, d.sections[n]? = some sect → sect.mr = .ioMemUnassigned →
    n = physSectionUnassigned

variable {page : TargetPage} {d d' : AddressSpaceDispatch}
    {done : List MemoryRegionSection} {shared : Finset Nat}

variable {sect : MemoryRegionSection} {n : Nat}

theorem Reflects.ne_unassigned (reflects : Reflects page d done shared)
    (found : d.sections[n]? = some sect) (other : sect.mr ≠ .ioMemUnassigned) :
    n ≠ physSectionUnassigned := by
  intro same
  rw [same, reflects.unassigned, Option.some.injEq] at found
  exact other (found ▸ rfl)

theorem mr_ne_of_isPiece (region : IsPiece sect) :
    sect.mr ≠ .ioMemUnassigned ∧ ∀ number, sect.mr ≠ .subpage number := by
  unfold IsPiece at region
  split at region
  · rename_i isRegion
    simp [isRegion]
  · contradiction

theorem Piece.mr_ne (piece : Piece page sect) : sect.mr ≠ .ioMemUnassigned :=
  (mr_ne_of_isPiece piece.region).1

theorem Reflects.mem_done (reflects : Reflects page d done shared)
    (found : d.sections[n]? = some sect) (region : IsPiece sect) : sect ∈ done := by
  rw [← reflects.pieces, mem_filter]
  exact ⟨mem_of_getElem? found, region⟩

theorem Reflects.length_ne (reflects : Reflects page d done shared) :
    d.sections.length ≠ physSectionUnassigned := by
  have := reflects.count
  simp only [physSectionUnassigned]
  omega

theorem div_size_of_page (p : Nat) {idx} (within : idx < page.size) :
    (p * page.size + idx) / page.size = p := by
  rw [add_comm, add_mul_div_right _ _ page.size_pos, div_eq_of_lt within, zero_add]

theorem physPageFind_eq
    (walked : physPageWalk (addr / page.size) d.physMap page.levels = some n)
    (found : d.sections[n]? = some sect) :
    physPageFind page d addr = some (if sectionCoversAddr sect addr then n
        else physSectionUnassigned) := by
  simp only [physPageFind, page.shiftRight_eq, walked, bind_eq_bind, bind_some, found]
  rfl

/-- A lookup before compaction answers the section of the page. -/
theorem Reflects.find (reflects : Reflects page d done shared) (addr_lt : addr < 2 ^ 64) :
    physPageFind page d addr = some (sectionAt page.levels d.physMap (addr / page.size)) := by
  have walked := physPageWalk_plain reflects.plain (addr / page.size)
  have split := div_add_mod addr page.size
  have pos := mod_lt addr page.size_pos
  rw [mul_comm] at split
  -- In each of the three uses of a page, its section covers the address.
  rcases reflects.tree (addr / page.size) (page.page_lt addr_lt) with
    free | ⟨sect, found, piece, whole, covers⟩ | ⟨_, number, mmio, ⟨found, _, _⟩, _⟩
  · rw [free] at walked ⊢
    rw [physPageFind_eq walked reflects.unassigned, ite_self]
  · have here := piece.covers_of_page whole covers
    rw [physPageFind_eq walked found,
      if_pos ((sectionCoversAddr_iff piece.nonempty piece.inside addr_lt).mpr here)]
  have inside := page.page_le_two_pow_64 (page.page_lt addr_lt)
  have here : Covers (subpageSection page number (addr / page.size * page.size)) addr := by
    simp only [Covers, subpageSection]
    omega
  rw [physPageFind_eq walked found,
    if_pos ((sectionCoversAddr_iff page.size_pos inside addr_lt).mpr here)]

variable {other : MemoryRegionSection}

theorem append_cases {sections} (found : (sections ++ [sect])[n]? = some other) :
    sections[n]? = some other ∨ n = sections.length ∧ other = sect := by
  rcases lt_or_ge n sections.length with before | after
  · left
    rwa [getElem?_append_left before] at found
  right
  rw [getElem?_append_right after] at found
  have within := (List.getElem?_eq_some_iff.mp found).1
  rw [length_singleton] at within
  have zero : n - sections.length = 0 := by omega
  rw [zero] at found
  exact ⟨by omega, (Option.some.inj found).symm⟩

/-- A section was appended and free pages point to it; nothing else changed. -/
structure Grows (page : TargetPage) (d d' : AddressSpaceDispatch)
    (sect : MemoryRegionSection) (first count : Nat) : Prop where
  sections : d'.sections = d.sections ++ [sect]
  subpages : ∀ (number : Nat) (mmio : Subpage), d.subpages[number]? = some mmio →
    d'.subpages[number]? = some mmio
  values : ∀ p < page.limit, sectionAt page.levels d'.physMap p =
    if first ≤ p ∧ p < first + count then d.sections.length else sectionAt page.levels d.physMap p
  free : ∀ p, first ≤ p → p < first + count →
    sectionAt page.levels d.physMap p = physSectionUnassigned

variable {sect : MemoryRegionSection} {first count number : Nat}

section

variable (grows : Grows page d d' sect first count)

include grows

theorem Grows.lookup (found : d.sections[n]? = some other) : d'.sections[n]? = some other := by
  rw [grows.sections, getElem?_append_left (List.getElem?_eq_some_iff.mp found).1, found]

theorem Grows.last : d'.sections[d.sections.length]? = some sect := by
  rw [grows.sections, getElem?_concat_length]

theorem Grows.cases (found : d'.sections[n]? = some other) :
    d.sections[n]? = some other ∨ n = d.sections.length ∧ other = sect :=
  append_cases (grows.sections ▸ found)

variable {p : Nat}

theorem Grows.kept (within : p < page.limit)
    (used : sectionAt page.levels d.physMap p ≠ physSectionUnassigned) :
    sectionAt page.levels d'.physMap p = sectionAt page.levels d.physMap p := by
  rw [grows.values p within, if_neg]
  intro ⟨after, before⟩
  exact used (grows.free p after before)

theorem Grows.sharedAt (reflects : Reflects page d done shared)
    {mmio} (within : p < page.limit) (holds : SharedAt page d p number mmio) :
    SharedAt page d' p number mmio := by
  obtain ⟨found, table, base⟩ := holds
  refine ⟨?_, grows.subpages _ _ table, base⟩
  rw [grows.kept within (reflects.ne_unassigned found (by simp [subpageSection]))]
  exact grows.lookup found

end

theorem Reflects.page_lt (reflects : Reflects page d done shared)
    (wellFormed : ∀ other ∈ done, Piece page other)
    (found : d.sections[n]? = some other) (region : IsPiece other) (covers : Covers other addr) :
    addr / page.size < page.limit := by
  have := (wellFormed other (reflects.mem_done found region)).inside
  exact page.page_lt (by have := covers.2; omega)

section

variable (grows : Grows page d d' sect first count)

include grows

/-- Registering a piece keeps every earlier piece reachable. -/
theorem Grows.complete (reflects : Reflects page d done shared)
    (wellFormed : ∀ other ∈ done, Piece page other)
    (found : d.sections[n]? = some other) (region : IsPiece other) (covers : Covers other addr) :
    if WholePages page other then sectionAt page.levels d'.physMap (addr / page.size) = n
    else ∃ number mmio, SharedAt page d' (addr / page.size) number mmio ∧
      mmio.subSection (addr % page.size) = n := by
  have within := reflects.page_lt wellFormed found region covers
  have before := reflects.complete n other addr found region covers
  split
  · rename_i whole
    rw [if_pos whole] at before
    have used := reflects.ne_unassigned found (mr_ne_of_isPiece region).1
    rw [grows.kept within (before ▸ used), before]
  · rename_i part
    rw [if_neg part] at before
    obtain ⟨number, mmio, sharedAt, here⟩ := before
    exact ⟨number, mmio, grows.sharedAt reflects within sharedAt, here⟩

theorem Grows.pieces (reflects : Reflects page d done shared) :
    d'.sections.filter IsPiece = done ++ [sect].filter IsPiece := by
  rw [grows.sections, filter_append, reflects.pieces]

theorem Grows.length : d'.sections.length = d.sections.length + 1 := by
  rw [grows.sections, length_append, length_singleton]

/-- A page outside those registered is still free, whole or shared. -/
theorem Grows.tree (reflects : Reflects page d done shared)
    (within : p < page.limit) (outside : ¬ (first ≤ p ∧ p < first + count)) :
    sectionAt page.levels d'.physMap p = physSectionUnassigned ∨ WholeAt page d' p ∨
      p ∈ shared ∧ ∃ number mmio, SharedAt page d' p number mmio ∧ TableFits page d' p mmio := by
  rcases reflects.tree p within with free | whole | ⟨mem, number, mmio, sharedAt, fits⟩
  · left
    rw [grows.values p within, if_neg outside, free]
  · -- A page of one piece stays so.
    have wholeAt : WholeAt page d' p := by
      obtain ⟨other, found, piece, whole, covers⟩ := whole
      refine ⟨other, ?_, piece, whole, covers⟩
      rw [grows.kept within (reflects.ne_unassigned found piece.mr_ne)]
      exact grows.lookup found
    exact .inr (.inl wholeAt)
  · -- The table of a shared page keeps fitting.
    have tableFits : TableFits page d' p mmio := by
      intro idx within
      rcases fits idx within with nowhere | ⟨other, found, rest⟩
      · exact .inl nowhere
      · exact .inr ⟨other, grows.lookup found, rest⟩
    exact .inr (.inr ⟨mem, number, mmio, grows.sharedAt reflects within sharedAt, tableFits⟩)

theorem Grows.subpageAt (reflects : Reflects page d done shared)
    (found : d.sections[n]? = some other) (isShared : other.mr = .subpage number) :
    ∃ p < page.limit, other = subpageSection page number (p * page.size) ∧
      sectionAt page.levels d'.physMap p = n := by
  obtain ⟨p, within, isSection, here⟩ := reflects.subpages n other number found isShared
  have used := reflects.ne_unassigned found (by simp [isShared])
  exact ⟨p, within, isSection, by rw [grows.kept within (here ▸ used), here]⟩

end

/-- Growth by a piece of whole pages keeps the invariant. -/
theorem Reflects.grow_whole (reflects : Reflects page d done shared)
    (wellFormed : ∀ other ∈ done, Piece page other)
    (piece : Piece page sect) (whole : WholePages page sect)
    (grows : Grows page d d' sect (sect.offsetWithinAddressSpace / page.size)
      (sect.size / page.size)) (plain : Plain d'.sections.length page.levels d'.physMap)
    (nodes : d'.map.nodesNb ≤ 3 * page.levels * d'.sections.length) :
    Reflects page d' (done ++ [sect]) shared where
  plain := plain
  unassigned := grows.lookup reflects.unassigned
  pieces := by rw [grows.pieces reflects, filter_cons_of_pos piece.region, filter_nil]
  count := by
    have := reflects.count
    rw [grows.length, length_append, length_singleton]
    omega
  nodes := nodes
  tree := by
    intro p within
    by_cases inRun : sect.offsetWithinAddressSpace / page.size ≤ p ∧
        p < sect.offsetWithinAddressSpace / page.size + sect.size / page.size
    · -- The pages of the run now belong to the new piece.
      refine .inr (.inl ⟨sect, ?_, piece, whole, ?_⟩)
      · rw [grows.values p within, if_pos inRun, grows.last]
      · rw [piece.covers_whole whole, Nat.mul_div_cancel _ page.size_pos]
        exact inRun
    · exact grows.tree reflects within inRun
  assigned := by
    intro p mem
    obtain ⟨within, used⟩ := reflects.assigned p mem
    exact ⟨within, by rwa [grows.kept within used]⟩
  complete := by
    intro n other addr found region covers
    rcases grows.cases found with old | ⟨rfl, rfl⟩
    · exact grows.complete reflects wellFormed old region covers
    · have page_lt := page.page_lt (lt_of_lt_of_le covers.2 piece.inside)
      rw [if_pos whole, grows.values _ page_lt, if_pos ((piece.covers_whole whole addr).mp covers)]
  subpages := by
    intro n other number found isShared
    rcases grows.cases found with old | ⟨_, rfl⟩
    · exact grows.subpageAt reflects old isShared
    · exact absurd isShared ((mr_ne_of_isPiece piece.region).2 number)
  onlyOne := by
    intro n other found isUnassigned
    rcases grows.cases found with old | ⟨_, rfl⟩
    · exact reflects.onlyOne n other old isUnassigned
    · exact absurd isUnassigned piece.mr_ne

/-- Growth by a fresh shared page keeps the invariant. -/
theorem Reflects.grow_shared (reflects : Reflects page d done shared)
    (wellFormed : ∀ other ∈ done, Piece page other)
    (within : p < page.limit) (free : sectionAt page.levels d.physMap p = physSectionUnassigned)
    (grows : Grows page d d' (subpageSection page number (p * page.size)) p 1)
    (table : d'.subpages[number]? = some ⟨p * page.size, fun _ => physSectionUnassigned⟩)
    (plain : Plain d'.sections.length page.levels d'.physMap)
    (nodes : d'.map.nodesNb ≤ 3 * page.levels * d'.sections.length) :
    Reflects page d' done (insert p shared) ∧
      SharedAt page d' p number ⟨p * page.size, fun _ => physSectionUnassigned⟩ := by
  have here : sectionAt page.levels d'.physMap p = d.sections.length := by
    rw [grows.values p within, if_pos (by omega)]
  have sharedAt : SharedAt page d' p number ⟨p * page.size, fun _ => physSectionUnassigned⟩ :=
    ⟨by rw [here, grows.last], table, rfl⟩
  have notYet : p ∉ shared := fun mem => (reflects.assigned p mem).2 free
  refine ⟨⟨plain, grows.lookup reflects.unassigned, ?_, ?_, nodes, ?_, ?_, ?_, ?_, ?_⟩, sharedAt⟩
  · rw [grows.pieces reflects]
    exact append_nil done
  · have := reflects.count
    rw [grows.length, card_insert_of_notMem notYet]
    omega
  · -- Only the page of the new subpage changes its section.
    intro other within'
    by_cases same : other = p
    · rw [same]
      exact .inr (.inr ⟨mem_insert_self _ _, number, _, sharedAt, fun _ _ => .inl rfl⟩)
    · rcases grows.tree reflects within' (by omega) with unused | whole | ⟨mem, rest⟩
      · exact .inl unused
      · exact .inr (.inl whole)
      · exact .inr (.inr ⟨mem_insert_of_mem mem, rest⟩)
  · intro other mem
    rcases mem_insert.mp mem with same | mem
    · rw [same, here]
      exact ⟨within, reflects.length_ne⟩
    · obtain ⟨within', used⟩ := reflects.assigned other mem
      exact ⟨within', by rwa [grows.kept within' used]⟩
  · intro n other addr found region covers
    rcases grows.cases found with old | ⟨_, rfl⟩
    · exact grows.complete reflects wellFormed old region covers
    · simp [IsPiece, subpageSection] at region
  · intro n other number' found isShared
    rcases grows.cases found with old | ⟨rfl, rfl⟩
    · exact grows.subpageAt reflects old isShared
    · obtain rfl : number = number' := by simpa [subpageSection] using isShared
      exact ⟨p, within, rfl, here⟩
  · intro n other found isUnassigned
    rcases grows.cases found with old | ⟨_, rfl⟩
    · exact reflects.onlyOne n other old isUnassigned
    · simp [subpageSection] at isUnassigned

variable {page : TargetPage} {d : AddressSpaceDispatch}
    {done : List MemoryRegionSection} {shared : Finset Nat} {sect : MemoryRegionSection}

def fillTable (page : TargetPage) (sect : MemoryRegionSection) (n : Nat)
    (mmio : Subpage) : Subpage :=
  { mmio with
    subSection := fun idx =>
      if sect.offsetWithinAddressSpace % page.size ≤ idx ∧
          idx < sect.offsetWithinAddressSpace % page.size + sect.size then n
      else mmio.subSection idx }

def joined (page : TargetPage) (d : AddressSpaceDispatch) (number : Nat)
    (sect : MemoryRegionSection) : AddressSpaceDispatch :=
  { d with
    sections := d.sections ++ [sect]
    subpages := d.subpages.modify number (fillTable page sect d.sections.length) }

theorem covers_part (samePage : addr / page.size = sect.offsetWithinAddressSpace / page.size) :
    Covers sect addr ↔ sect.offsetWithinAddressSpace % page.size ≤ addr % page.size ∧
      addr % page.size < sect.offsetWithinAddressSpace % page.size + sect.size := by
  have split := div_add_mod addr page.size
  have split' := div_add_mod sect.offsetWithinAddressSpace page.size
  rw [samePage] at split
  rw [Covers]
  omega

theorem int128Get64_of_lt {size : Nat} (small : size < 2 ^ 64) : int128Get64 size = some size := by
  rw [int128Get64, if_pos]
  · rfl
  · simp only [twoTo64]
    omega

/-- A part of a page joins the page's subpage, made if there is none. -/
theorem registerInSubpage_eq (piece : Piece page sect)
    (part : ¬ WholePages page sect) (number : Nat) (room : d.sections.length < page.size) :
    registerInSubpage page d number sect = some (joined page d number sect) := by
  have within := piece.part_within part
  have nonempty := piece.nonempty
  have size_le := page.size_le
  have converted := int128Get64_of_lt (show sect.size < 2 ^ 64 by omega)
  have last : (sect.offsetWithinAddressSpace % page.size + sect.size + (2 ^ 64 - 1)) % 2 ^ 64 =
      sect.offsetWithinAddressSpace % page.size + sect.size - 1 := by omega
  have index : d.sections.length % 2 ^ 16 = d.sections.length := mod_eq_of_lt (by omega)
  simp only [registerInSubpage, converted, physSectionAdd, room, if_true, bind_eq_bind,
    bind_some, last, index, joined]
  -- Both positions fit 32 bits and lie inside the page.
  have first32 : sect.offsetWithinAddressSpace % page.size % 2 ^ 32 =
    sect.offsetWithinAddressSpace % page.size := mod_eq_of_lt (by omega)
  have last32 : (sect.offsetWithinAddressSpace % page.size + sect.size - 1) % 2 ^ 32 =
      sect.offsetWithinAddressSpace % page.size + sect.size - 1 := mod_eq_of_lt (by omega)
  have same : (fun mmio => subpageRegister page mmio (sect.offsetWithinAddressSpace % page.size)
      (sect.offsetWithinAddressSpace % page.size + sect.size - 1) d.sections.length) =
      fillTable page sect d.sections.length := by
    funext mmio
    rw [subpageRegister, if_neg (by omega), fillTable]
    refine congrArg (Subpage.mk mmio.base) (funext fun idx => ?_)
    exact if_congr (by omega) rfl rfl
  rw [first32, last32, same]
  rfl

variable {number : Nat} {mmio : Subpage}

theorem joined_table {number'} (found : d.subpages[number']? = some mmio) :
    (joined page d number sect).subpages[number']? =
      some (if number = number' then fillTable page sect d.sections.length mmio else mmio) := by
  rw [joined, getElem?_modify, found]
  rfl

theorem joined_lookup (found : d.sections[n]? = some other) :
    (joined page d number sect).sections[n]? = some other := by
  rw [joined, getElem?_append_left (List.getElem?_eq_some_iff.mp found).1, found]

theorem SharedAt.inj {p' mmio'} (first : SharedAt page d p number mmio)
    (second : SharedAt page d p' number mmio') : p = p' ∧ mmio = mmio' := by
  obtain ⟨_, table, base⟩ := first
  obtain ⟨_, table', base'⟩ := second
  rw [table, Option.some.injEq] at table'
  subst table'
  exact ⟨eq_of_mul_eq_mul_right page.size_pos (base.symm.trans base'), rfl⟩

/-- A piece that joins a shared page keeps the invariant. -/
theorem Reflects.join (reflects : Reflects page d done shared) (piece : Piece page sect)
    (part : ¬ WholePages page sect)
    (after : ∀ other ∈ done, other.offsetWithinAddressSpace + other.size ≤
      sect.offsetWithinAddressSpace)
    (sharedAt : SharedAt page d (sect.offsetWithinAddressSpace / page.size) number mmio) :
    Reflects page (joined page d number sect) (done ++ [sect]) shared := by
  set p := sect.offsetWithinAddressSpace / page.size with p_eq
  have last : (joined page d number sect).sections[d.sections.length]? = some sect := by
    rw [joined, getElem?_concat_length]
  have length : (joined page d number sect).sections.length = d.sections.length + 1 := by
    rw [joined, length_append, length_singleton]
  -- A shared page keeps its table, except that this one is filled further.
  have kept : ∀ {p' number' : Nat} {mmio' : Subpage}, SharedAt page d p' number' mmio' →
      SharedAt page (joined page d number sect) p' number'
        (if number = number' then fillTable page sect d.sections.length mmio' else mmio') := by
    intro p' number' mmio' ⟨found, table, base⟩
    refine ⟨joined_lookup found, joined_table table, ?_⟩
    split <;> exact base
  refine ⟨?_, joined_lookup reflects.unassigned, ?_, ?_, ?_, ?_, reflects.assigned, ?_, ?_, ?_⟩
  · exact reflects.plain.mono (by omega)
  · rw [joined, filter_append, reflects.pieces, filter_cons_of_pos piece.region, filter_nil]
  · have := reflects.count
    rw [length, length_append, length_singleton]
    omega
  · rw [length]
    exact le_trans reflects.nodes (mul_le_mul_left _ (le_succ _))
  · intro p' within
    rcases reflects.tree p' within with free | ⟨other, found, rest⟩
      | ⟨mem, number', mmio', sharedAt', fits⟩
    · exact .inl free
    · exact .inr (.inl ⟨other, joined_lookup found, rest⟩)
    refine .inr (.inr ⟨mem, number', _, kept sharedAt', fun idx idx_lt => ?_⟩)
    have before : mmio'.subSection idx = physSectionUnassigned ∨
        ∃ other, (joined page d number sect).sections[mmio'.subSection idx]? = some other ∧
          Piece page other ∧ ¬ WholePages page other ∧ Covers other (p' * page.size + idx) :=
      (fits idx idx_lt).imp id fun ⟨other, found, rest⟩ => ⟨other, joined_lookup found, rest⟩
    split
    · rename_i same
      obtain ⟨rfl, rfl⟩ := sharedAt.inj (same ▸ sharedAt')
      simp only [fillTable]
      split
      · -- The bytes of the new piece.
        rename_i taken
        refine .inr ⟨sect, last, piece, part, ?_⟩
        rw [covers_part (div_size_of_page p idx_lt), mul_add_mod_of_lt idx_lt]
        exact taken
      · exact before
    · exact before
  · intro n other addr found region covers
    rcases append_cases found with old | ⟨rfl, rfl⟩
    · have complete := reflects.complete n other addr old region covers
      split
      · rename_i whole
        rwa [if_pos whole] at complete
      rename_i otherPart
      rw [if_neg otherPart] at complete
      obtain ⟨number', mmio', sharedAt', here⟩ := complete
      refine ⟨number', _, kept sharedAt', ?_⟩
      split
      · rename_i same
        obtain ⟨samePage, rfl⟩ := sharedAt.inj (same ▸ sharedAt')
        -- The new piece takes no byte that an earlier piece covers.
        have before := after other (reflects.mem_done old region)
        have apart : ¬ Covers sect addr := by
          intro ⟨lower, _⟩
          have := covers.2
          omega
        rw [covers_part (samePage.symm.trans p_eq)] at apart
        simp only [fillTable]
        rw [if_neg apart, here]
      · exact here
    rw [if_neg part]
    have samePage : addr / page.size = p := piece.page_eq part covers
    rw [samePage]
    refine ⟨number, _, kept sharedAt, ?_⟩
    rw [if_pos rfl]
    exact if_pos ((covers_part samePage).mp covers)
  · intro n other number' found isShared
    rcases append_cases found with old | ⟨_, rfl⟩
    · exact reflects.subpages n other number' old isShared
    · exact absurd isShared ((mr_ne_of_isPiece piece.region).2 number')
  · intro n other found isUnassigned
    rcases append_cases found with old | ⟨_, rfl⟩
    · exact reflects.onlyOne n other old isUnassigned
    · exact absurd isUnassigned piece.mr_ne

variable (page : TargetPage)

/-- The pages that the partial pieces of a list share. -/
def sharedPages (pieces : List MemoryRegionSection) : Finset Nat :=
  ((pieces.filter fun sect => ¬ WholePages page sect).map fun sect =>
    sect.offsetWithinAddressSpace / page.size).toFinset

/-- The sections that some pieces take, with the unassigned one. -/
def sectionsNeeded (pieces : List MemoryRegionSection) : Nat :=
  1 + pieces.length + (sharedPages page pieces).card

variable {page} {d : AddressSpaceDispatch} {done : List MemoryRegionSection}
    {sect : MemoryRegionSection} {shared : Finset Nat}

theorem mem_sharedPages : p ∈ sharedPages page done ↔
    ∃ other ∈ done, ¬ WholePages page other ∧ other.offsetWithinAddressSpace / page.size = p := by
  simp [sharedPages, and_assoc]

theorem sharedPages_whole (whole : WholePages page sect) : sharedPages page
    (done ++ [sect]) = sharedPages page done := by
  simp [sharedPages, whole]

theorem sharedPages_part (part : ¬ WholePages page sect) : sharedPages page (done ++ [sect]) =
      insert (sect.offsetWithinAddressSpace / page.size) (sharedPages page done) := by
  ext p
  simp [sharedPages, part]

theorem sectionsNeeded_append (later : List MemoryRegionSection) :
    sectionsNeeded page done ≤ sectionsNeeded page (done ++ later) := by
  have subset : sharedPages page done ⊆ sharedPages page (done ++ later) := by
    intro p mem
    obtain ⟨other, mem, rest⟩ := mem_sharedPages.mp mem
    exact mem_sharedPages.mpr ⟨other, mem_append_left _ mem, rest⟩
  have := card_le_card subset
  rw [sectionsNeeded, sectionsNeeded, length_append]
  omega

/-- Appending a section and pointing a run of free pages to it. -/
theorem grow_spec (reflects : Reflects page d done shared) {subpages}
    (extends_ : ∀ (number : Nat) (mmio : Subpage), d.subpages[number]? = some mmio →
      subpages[number]? = some mmio)
    (room : d.sections.length < page.size) {first count} (some_pages : count ≠ 0)
    (inside : first + count ≤ page.limit)
    (free : ∀ p, first ≤ p → p < first + count →
      sectionAt page.levels d.physMap p = physSectionUnassigned) :
    ∃ d', physPageSet page { d with
      sections := d.sections ++ [sect], subpages := subpages } first count
        d.sections.length = some d' ∧ d'.subpages = subpages ∧ Grows page d d' sect first count ∧
      Plain d'.sections.length page.levels d'.physMap ∧
      d'.map.nodesNb ≤ 3 * page.levels * d'.sections.length := by
  have length : (d.sections ++ [sect]).length = d.sections.length + 1 := by simp
  -- Node numbers suffice as long as section numbers do.
  have node_room : d.map.nodesNb + 3 * page.levels ≤ physMapNodeNil := by
    have nodes := reflects.nodes
    have levels := page.levels_le
    have size := page.size_le
    have bound : 3 * page.levels * d.sections.length ≤ 24 * 2 ^ 16 :=
      Nat.mul_le_mul (by omega) (by omega)
    simp only [physMapNodeNil]
    omega
  obtain ⟨physMap, map, res, plain, nodes, values⟩ :=
    @physPageSet_spec page (d.sections.length + 1)
      { d with
        sections := d.sections ++ [sect], subpages := subpages } first count d.sections.length
      (reflects.plain.mono (le_succ _)) reflects.length_ne (lt_succ_self _) some_pages inside free
      node_room
  refine ⟨_, res, rfl, ⟨rfl, extends_, values, free⟩, ?_, ?_⟩
  · rw [length]
    exact plain
  · change map.nodesNb ≤ 3 * page.levels * (d.sections ++ [sect]).length
    have := reflects.nodes
    change map.nodesNb ≤ d.map.nodesNb + 3 * page.levels at nodes
    rw [length, mul_succ]
    omega

theorem registerSubpage_shared {base : Nat} {existing : MemoryRegionSection}
    (base_eq : sect.offsetWithinAddressSpace - sect.offsetWithinAddressSpace % page.size = base)
    (found : physPageFind page d base = some n) (section_eq : d.sections[n]? = some existing)
    (isShared : existing.mr = .subpage number) :
    registerSubpage page d sect = registerInSubpage page d number sect := by
  simp only [registerSubpage, base_eq, found, bind_eq_bind, bind_some, section_eq, isShared]

variable (reflects : Reflects page d done (sharedPages page done))
    (wellFormed : ∀ other ∈ done, Piece page other)
  (after : ∀ other ∈ done, other.offsetWithinAddressSpace + other.size ≤
    sect.offsetWithinAddressSpace)

include reflects wellFormed after

/-- Pieces come in order, so the pages from the next one on are free. -/
theorem Reflects.free (within : p < page.limit)
    (fromStart : sect.offsetWithinAddressSpace ≤ p * page.size) :
    sectionAt page.levels d.physMap p = physSectionUnassigned := by
  rcases reflects.tree p within with free | ⟨other, found, piece, _, covers⟩ | ⟨mem, _⟩
  · exact free
  · -- A whole page would end before the piece starts.
    have := after other (reflects.mem_done found piece.region)
    have := covers.2
    omega
  -- So would a piece within the page.
  obtain ⟨other, inDone, _, rfl⟩ := mem_sharedPages.mp mem
  have := after other inDone
  have := (wellFormed other inDone).nonempty
  have := div_mul_le_self other.offsetWithinAddressSpace page.size
  omega

/-- Registering whole pages succeeds and reflects the piece. -/
theorem registerMultipage_spec (piece : Piece page sect) (whole : WholePages page sect)
    (room : sectionsNeeded page (done ++ [sect]) ≤ page.size) :
    ∃ d', registerMultipage page d sect = some d' ∧
      Reflects page d' (done ++ [sect]) (sharedPages page (done ++ [sect])) := by
  have count := reflects.count
  have pos := page.size_pos
  have size_le := page.size_le
  have inside := piece.inside
  obtain ⟨start, length⟩ := piece.whole_eq whole
  rw [sectionsNeeded, sharedPages_whole whole, length_append, length_singleton] at room
  have index : d.sections.length % 2 ^ 16 = d.sections.length := mod_eq_of_lt (by omega)
  -- The run of pages is nonempty and inside the address space.
  have some_pages : sect.size / page.size ≠ 0 := by
    have := div_pos whole.2 pos
    omega
  have inside' : sect.offsetWithinAddressSpace / page.size +
      sect.size / page.size ≤ page.limit := by
    rw [start, length, ← Nat.add_mul, ← page.limit_mul_size] at inside
    exact le_of_mul_le_mul_right inside pos
  have free : ∀ p, sect.offsetWithinAddressSpace / page.size ≤ p →
      p < sect.offsetWithinAddressSpace / page.size + sect.size / page.size →
      sectionAt page.levels d.physMap p = physSectionUnassigned := by
    intro p lower upper
    refine reflects.free wellFormed after (by omega) ?_
    rw [start]
    exact mul_le_mul_right _ lower
  obtain ⟨d', res, _, grows, plain, nodes⟩ :=
    @grow_spec page d done sect _ reflects d.subpages (fun _ _ found => found) (by omega)
      _ _ some_pages inside' free
  refine ⟨d', ?_, ?_⟩
  · -- A page has more than one byte, so the number of pages fits 64 bits.
    have halved : sect.size / page.size * 2 ≤ sect.size / page.size * page.size :=
      mul_le_mul_left _ (by omega)
    have converted := int128Get64_of_lt (show sect.size / page.size < 2 ^ 64 by omega)
    have enough : d.sections.length < page.size := by omega
    simp only [registerMultipage, physSectionAdd, enough, if_true,
      bind_eq_bind, bind_some, converted, some_pages, if_false, page.shiftRight_eq, index]
    exact res
  · rw [sharedPages_whole whole]
    exact reflects.grow_whole wellFormed piece whole grows plain nodes

/-- Registering a partial piece succeeds and reflects the piece. -/
theorem registerSubpage_spec (piece : Piece page sect) (part : ¬ WholePages page sect)
    (room : sectionsNeeded page (done ++ [sect]) ≤ page.size) :
    ∃ d', registerSubpage page d sect = some d' ∧
      Reflects page d' (done ++ [sect]) (sharedPages page (done ++ [sect])) := by
  have count := reflects.count
  have pos := page.size_pos
  have inside := piece.inside
  have nonempty := piece.nonempty
  set p := sect.offsetWithinAddressSpace / page.size with p_eq
  have split := div_add_mod sect.offsetWithinAddressSpace page.size
  have base_eq : sect.offsetWithinAddressSpace - sect.offsetWithinAddressSpace %
      page.size = p * page.size := by
    rw [p_eq, mul_comm]
    omega
  have page_lt : p < page.limit := page.page_lt (by omega)
  have base_lt : p * page.size < 2 ^ 64 := by
    rw [← base_eq]
    omega
  have found := reflects.find base_lt
  rw [Nat.mul_div_cancel _ pos] at found
  rw [sectionsNeeded, sharedPages_part part, length_append, length_singleton] at room
  rw [sharedPages_part part]
  -- The page is free, or whole (impossible in order), or shared already.
  rcases reflects.tree p page_lt with free | ⟨other, section_eq, whole, wholePages, covers⟩ |
    ⟨mem, number, mmio, sharedAt, _⟩
  · -- The page is free, so a new shared page is set up for it.
    have notYet : p ∉ sharedPages page done := fun mem => (reflects.assigned p mem).2 free
    rw [card_insert_of_notMem notYet] at room
    have size_le := page.size_le
    have enough : d.sections.length < page.size := by omega
    have index : d.sections.length % 2 ^ 16 = d.sections.length := mod_eq_of_lt (by omega)
    have shifted : (p * page.size) >>> page.bits =
      p := by rw [page.shiftRight_eq, Nat.mul_div_cancel _ pos]
    have kept : ∀ (number : Nat) (mmio : Subpage), d.subpages[number]? = some mmio →
        (d.subpages ++ [⟨p * page.size, fun _ => physSectionUnassigned⟩])[number]? = some mmio := by
      intro number mmio there
      rw [getElem?_append_left (List.getElem?_eq_some_iff.mp there).1, there]
    obtain ⟨d', res, subpages_eq, grows, plain, nodes⟩ :=
      @grow_spec page d done (subpageSection page d.subpages.length (p * page.size))
        _ reflects _ kept enough p 1
        (by decide) (by omega) (fun p' lower upper => by rw [show p' = p by omega, free])
    have table : d'.subpages[d.subpages.length]? =
        some ⟨p * page.size, fun _ => physSectionUnassigned⟩ := by
      rw [subpages_eq, getElem?_concat_length]
    obtain ⟨reflects', sharedAt⟩ :=
      reflects.grow_shared wellFormed page_lt free grows table plain nodes
    refine ⟨joined page d' d.subpages.length sect, ?_, reflects'.join piece part after sharedAt⟩
    have unassigned := reflects.unassigned
    rw [← free] at unassigned
    simp only [registerSubpage, base_eq, found, bind_eq_bind, bind_some,
      unassigned, unassignedSection, physSectionAdd, enough, if_true, index, shifted]
    rw [show (⟨.subpage d.subpages.length, 0, page.size, p * page.size, false,
      false⟩ : MemoryRegionSection) =
      subpageSection page d.subpages.length (p * page.size) from rfl, res, bind_some,
      registerInSubpage_eq piece part _ (by rw [grows.length]; omega)]
  · -- A piece of whole pages would overlap this one.
    have before := after other (reflects.mem_done section_eq whole.region)
    have := (whole.covers_of_page wholePages covers).2
    omega
  · -- The page is shared already.
    rw [insert_eq_self.mpr mem] at room ⊢
    refine ⟨joined page d number sect, ?_, reflects.join piece part after sharedAt⟩
    rw [registerSubpage_shared base_eq found sharedAt.1 rfl,
      registerInSubpage_eq piece part number (by omega)]

end Qemu.Exec
