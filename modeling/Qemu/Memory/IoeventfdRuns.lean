import Qemu.Memory.IoeventfdUpdate

/-! Runs of eventfd and topology changes: order, and what listeners hold. -/

namespace Qemu.Memory

open MergeDiff GuardedRun Transition Tiling List Option MemoryRegionIoeventfd

/-- A list in which no eventfd comes before an earlier one. -/
def IoeventfdsSorted (list : List MemoryRegionIoeventfd) : Prop :=
  list.Pairwise fun a b => memoryRegionIoeventfdBefore b a = false

instance (list : List MemoryRegionIoeventfd) : Decidable (IoeventfdsSorted list) :=
  inferInstanceAs (Decidable (list.Pairwise _))

variable {a b : MemoryRegionIoeventfd}

theorem memoryRegionIoeventfdBefore_eq_false : memoryRegionIoeventfdBefore b a = false ↔
    a.key ≤ b.key := by
  rw [← Bool.not_eq_true, memoryRegionIoeventfdBefore_iff, not_lt]

/-! ## The eventfds of a region -/

variable {mrfd fd : MemoryRegionIoeventfd} {list : List MemoryRegionIoeventfd}

theorem mem_insertIoeventfd (mem : fd ∈ insertIoeventfd mrfd list) : fd = mrfd ∨ fd ∈ list := by
  induction list with
  | nil => simpa [insertIoeventfd] using mem
  | cons head rest ih =>
    rw [insertIoeventfd] at mem
    split at mem
    · simpa using mem
    rcases mem_cons.mp mem with same | later
    · simp [same]
    · rcases ih later with new | old
      · exact .inl new
      · exact .inr (mem_cons_of_mem head old)

/-- Insertion goes before the first greater entry and keeps the order. -/
theorem IoeventfdsSorted.insert (mrfd)
    (sorted : IoeventfdsSorted list) : IoeventfdsSorted (insertIoeventfd mrfd list) := by
  induction list with
  | nil => exact pairwise_singleton _ _
  | cons head rest ih =>
    obtain ⟨first, others⟩ := pairwise_cons.mp sorted
    rw [insertIoeventfd]
    split
    · -- The new one comes before the head, and so before all others.
      next early =>
      have below : mrfd.key ≤ head.key := ((memoryRegionIoeventfdBefore_iff _ _).mp early).le
      apply List.Pairwise.cons _ sorted
      intro fd mem
      rw [memoryRegionIoeventfdBefore_eq_false]
      rcases mem_cons.mp mem with same | later
      · rwa [same]
      · exact below.trans (memoryRegionIoeventfdBefore_eq_false.mp (first fd later))
    next late =>
    apply List.Pairwise.cons _ (ih others)
    intro fd mem
    rcases mem_insertIoeventfd mem with same | old
    · rw [same]
      exact Bool.not_eq_true _ ▸ late
    · exact first fd old

theorem removeIoeventfd_sublist {rest} (removed : removeIoeventfd mrfd list = some rest) :
    rest.Sublist list := by
  induction list generalizing rest with
  | nil => cases removed
  | cons head tail ih =>
    rw [removeIoeventfd] at removed
    split at removed
    · cases removed
      exact sublist_cons_self head _
    · obtain ⟨shorter, found, rfl⟩ := map_eq_some_iff.mp removed
      exact (ih found).cons_cons head

/-- Removal finds every entry that is held. -/
theorem removeIoeventfd_isSome
    (held : ∃ fd ∈ list, memoryRegionIoeventfdEqual mrfd fd) :
    ∃ rest, removeIoeventfd mrfd list = some rest := by
  induction list with
  | nil => simp at held
  | cons head tail ih =>
    rw [removeIoeventfd]
    split
    · exact ⟨tail, rfl⟩
    next other =>
    obtain ⟨fd, mem, equal⟩ := held
    rcases mem_cons.mp mem with rfl | later
    · exact absurd equal other
    · obtain ⟨rest, removed⟩ := ih ⟨fd, later, equal⟩
      exact ⟨head :: rest, by rw [removed, map_some]⟩

/-! ## Collecting -/

variable {fr : FlatRange} {seen : MemoryRegionIoeventfd}

/-- An eventfd is seen through a range it intersects, at the range's place. -/
theorem visibleIoeventfd_eq_some : visibleIoeventfd fr fd = some seen ↔
      addrrangeIntersects fr.addr seen.addr ∧
        seen = { fd with addr := addrrangeShift fd.addr (fr.addr.start - fr.offsetInRegion) } := by
  unfold visibleIoeventfd
  dsimp only
  constructor
  · intro shown
    split at shown
    · next inside =>
      cases shown
      exact ⟨inside, rfl⟩
    · cases shown
  · rintro ⟨inside, rfl⟩
    rw [if_pos inside]

theorem start_lt_of_intersects {range seen} (nonempty : range.start < addrrangeEnd range)
    (inside : addrrangeIntersects range seen) : seen.start < addrrangeEnd range := by
  rw [addrrangeIntersects, Bool.or_eq_true, addrrangeContains_iff, addrrangeContains_iff] at inside
  unfold addrrangeEnd at *
  omega

theorem before_addrrangeShift (a b delta) :
    memoryRegionIoeventfdBefore { a with addr := addrrangeShift a.addr delta }
      { b with addr := addrrangeShift b.addr delta } = memoryRegionIoeventfdBefore a b := by
  simp [memoryRegionIoeventfdBefore, addrrangeShift]

/-- An eventfd that some range shows to the address space. -/
def Seen (state : IoeventfdState) (fr : FlatRange) (seen : MemoryRegionIoeventfd) : Prop :=
  fr ∈ state.view ∧ ∃ fd ∈ state.eventfds fr.mr, visibleIoeventfd fr fd = some seen

variable {state : IoeventfdState}

theorem mem_collectIoeventfds : seen ∈ collectIoeventfds state.eventfds state.view ↔
    ∃ fr, Seen state fr seen := by
  simp [collectIoeventfds, rangeIoeventfds, Seen]

/-- No eventfd reaches below the address space, as one of a region cut off there can. -/
def NoneBelow (state : IoeventfdState) : Prop := ∀ fr seen, Seen state fr seen → 0 ≤ seen.addr.start

/-- No eventfd that begins before a range that shows it comes before one of an earlier range. -/
def NoneBack (state : IoeventfdState) : Prop :=
  ∀ earlier later first second, Seen state earlier first → Seen state later second →
    earlier.addr.start < later.addr.start → second.addr.start < later.addr.start →
    memoryRegionIoeventfdBefore second first = false

/-- An eventfd shown again shows the same data, matched or not. -/
def SameData (state : IoeventfdState) : Prop :=
  ∀ fr seen, Seen state fr seen → ∀ old ∈ state.ioeventfds,
    memoryRegionIoeventfdEqual old seen = true → old.data = seen.data

/-- What holds in every state: sorted regions, a view in order, and a list that is registered and
fits 64 bits. -/
structure IoeventfdState.Valid (state : IoeventfdState) : Prop where
  regions : ∀ mr, IoeventfdsSorted (state.eventfds mr)
  ordered : ViewFrom 0 state.view
  inSpace : ∀ fr ∈ state.view, addrrangeEnd fr.addr ≤ twoTo64
  fits : ∀ fd ∈ state.ioeventfds, 0 ≤ fd.addr.start ∧ fd.addr.start < twoTo64

variable {earlier : FlatRange}

section

variable (valid : state.Valid)

include valid

theorem IoeventfdState.Valid.end_le {later}
    (here : earlier ∈ state.view) (there : later ∈ state.view)
    (before : earlier.addr.start < later.addr.start) :
    addrrangeEnd earlier.addr ≤ later.addr.start :=
  valid.ordered.rel_of_start_lt valid.ordered.pairwise here there before

theorem IoeventfdState.Valid.nonempty
    (here : fr ∈ state.view) : fr.addr.start < addrrangeEnd fr.addr := (valid.ordered.bounds here).2

theorem IoeventfdState.Valid.seen_start_lt (shown : Seen state fr seen) :
    seen.addr.start < addrrangeEnd fr.addr := by
  obtain ⟨here, fd, -, visible⟩ := shown
  exact start_lt_of_intersects (valid.nonempty here) (visibleIoeventfd_eq_some.mp visible).1

/-- The list is sorted iff no eventfd reaches back over an earlier range's. -/
theorem collectIoeventfds_sorted_iff :
    IoeventfdsSorted (collectIoeventfds state.eventfds state.view) ↔ NoneBack state := by
  have shows : ∀ fr ∈ state.view, ∀ seen, seen ∈ rangeIoeventfds state.eventfds fr ↔
      Seen state fr seen := by
    intro fr here seen
    simp [rangeIoeventfds, Seen, here]
  rw [IoeventfdsSorted, collectIoeventfds, pairwise_flatMap]
  constructor
  · rintro ⟨-, pairs⟩ earlier later first second here there before -
    have related := valid.ordered.rel_of_start_lt pairs here.1 there.1 before
    exact related first ((shows earlier here.1 first).mpr here) second
      ((shows later there.1 second).mpr there)
  · intro noneBack
    constructor
    · intro fr _
      have rangeIoeventfds_sorted : IoeventfdsSorted (rangeIoeventfds state.eventfds fr) := by
        rw [IoeventfdsSorted, rangeIoeventfds, pairwise_filterMap]
        apply (valid.regions fr.mr).imp
        intro a b ordered seenA shownA seenB shownB
        obtain ⟨-, rfl⟩ := visibleIoeventfd_eq_some.mp shownA
        obtain ⟨-, rfl⟩ := visibleIoeventfd_eq_some.mp shownB
        rwa [before_addrrangeShift]
      exact rangeIoeventfds_sorted
    · apply valid.ordered.pairwise.imp_of_mem
      intro earlier later inView inViewToo apart first shownFirst second shownSecond
      have here := (shows earlier inView first).mp shownFirst
      have there := (shows later inViewToo second).mp shownSecond
      have nonempty := valid.nonempty inView
      have before : earlier.addr.start < later.addr.start := Int.lt_of_lt_of_le nonempty apart
      -- Only an eventfd that begins before its range can reach back.
      by_cases back : second.addr.start < later.addr.start
      · exact noneBack earlier later first second here there before back
      · -- An eventfd that begins in the range that shows it comes after those of earlier ranges.
        have before_eq_false : memoryRegionIoeventfdBefore second first = false := by
          have apart := valid.end_le here.1 there.1 before
          have starts := valid.seen_start_lt here
          have less : first.addr.start < second.addr.start := by omega
          rw [memoryRegionIoeventfdBefore, if_neg (by omega), if_pos less]
        exact before_eq_false

end

/-! ## Telling the listeners -/

theorem ioeventfdSection_of_fits (lower : 0 ≤ fd.addr.start)
    (upper : fd.addr.start < twoTo64) : ioeventfdSection fd = some fd := by
  rw [ioeventfdSection, int128Get64, if_pos ⟨lower, upper⟩, map_some, Int.toNat_of_nonneg lower]

theorem ioeventfdSection_of_not_fits
    (out : ¬ (0 ≤ fd.addr.start ∧ fd.addr.start < twoTo64)) : ioeventfdSection fd = none := by
  rw [ioeventfdSection, int128Get64, if_neg out, map_none]

/-- The calls are the difference if what is added fits, else one asserts. -/
theorem addressSpaceAddDelIoeventfds_eq (old new)
    (fits : ∀ fd ∈ old, 0 ≤ fd.addr.start ∧ fd.addr.start < twoTo64) :
    addressSpaceAddDelIoeventfds old new =
      if ∀ fd ∈ new, 0 ≤ fd.addr.start ∧ fd.addr.start < twoTo64 then
        some (diff memoryRegionIoeventfdBefore old new) else none := by
  -- The walk's own induction: each call tells one start, and a tie shares the start of an old
  -- eventfd.
  induction old, new using diff.induct memoryRegionIoeventfdBefore with
  | case1 => simp [addressSpaceAddDelIoeventfds, diff]
  | case2 fd old ih =>
    obtain ⟨here, others⟩ := forall_mem_cons.mp fits
    rw [addressSpaceAddDelIoeventfds, ioeventfdSection_of_fits here.1 here.2, ih others, diff]
    simp
  | case3 fd new ih =>
    rw [addressSpaceAddDelIoeventfds, ih fits, diff]
    by_cases inside : 0 ≤ fd.addr.start ∧ fd.addr.start < twoTo64
    · simp only [ioeventfdSection_of_fits inside.1 inside.2, forall_mem_cons, inside, true_and]
      split <;> simp_all
    · simp [ioeventfdSection_of_not_fits inside, inside]
  | case4 fdOld old fdNew new first ih =>
    obtain ⟨here, others⟩ := forall_mem_cons.mp fits
    rw [addressSpaceAddDelIoeventfds, if_pos first,
      ioeventfdSection_of_fits here.1 here.2, ih others, diff, if_pos first]
    split <;> simp_all
  | case5 fdOld old fdNew new notFirst second ih =>
    rw [addressSpaceAddDelIoeventfds, if_neg notFirst, if_pos second, ih fits, diff,
      if_neg notFirst, if_pos second]
    by_cases inside : 0 ≤ fdNew.addr.start ∧ fdNew.addr.start < twoTo64
    · simp only [ioeventfdSection_of_fits inside.1 inside.2, forall_mem_cons, inside, true_and]
      split <;> simp_all
    · simp [ioeventfdSection_of_not_fits inside, inside]
  | case6 fdOld old fdNew new notFirst notSecond ih =>
    obtain ⟨here, others⟩ := forall_mem_cons.mp fits
    rw [addressSpaceAddDelIoeventfds, if_neg notFirst, if_neg notSecond,
      ih others, diff, if_neg notFirst, if_neg notSecond]
    -- Eventfds of which neither comes before the other begin at one address.
    have start_eq_of_tie : fdOld.addr.start = fdNew.addr.start := by
      unfold memoryRegionIoeventfdBefore at notFirst notSecond
      by_contra differ
      rcases lt_or_gt_of_ne differ with less | greater
      · exact notFirst (if_pos less)
      · exact notSecond (if_pos greater)
    rw [start_eq_of_tie] at here
    simp [here]

/-- The addresses collected fit if none is negative. -/
theorem collectIoeventfds_fits_iff (valid : state.Valid) :
    (∀ fd ∈ collectIoeventfds state.eventfds state.view, 0 ≤ fd.addr.start ∧
      fd.addr.start < twoTo64) ↔ NoneBelow state := by
  constructor
  · intro fits fr seen shown
    exact (fits seen (mem_collectIoeventfds.mpr ⟨fr, shown⟩)).1
  · intro noneBelow fd mem
    obtain ⟨fr, shown⟩ := mem_collectIoeventfds.mp mem
    -- The end of the range bounds the start from above.
    have upper := valid.seen_start_lt shown
    have space := valid.inSpace fr shown.1
    exact ⟨noneBelow fr fd shown, by omega⟩

theorem addressSpaceUpdateIoeventfds_eq_some {next} (valid : state.Valid) :
    addressSpaceUpdateIoeventfds state = some next ↔
      NoneBelow state ∧ next = { state with
        ioeventfds := collectIoeventfds state.eventfds state.view
        registered := runFrom applyCall state.registered
          (diff memoryRegionIoeventfdBefore state.ioeventfds
              (collectIoeventfds state.eventfds state.view)) } := by
  rw [addressSpaceUpdateIoeventfds, addressSpaceAddDelIoeventfds_eq _ _ valid.fits]
  by_cases noneBelow : NoneBelow state
  · rw [if_pos ((collectIoeventfds_fits_iff valid).mpr noneBelow)]
    simp [noneBelow, eq_comm]
  · rw [if_neg fun fits => noneBelow ((collectIoeventfds_fits_iff valid).mp fits)]
    simp [noneBelow]

theorem eq_of_tie (tie : memoryRegionIoeventfdEqual a b) (data : a.data = b.data) : a = b := by
  obtain ⟨⟨startA, sizeA⟩, matchA, dataA, eA⟩ := a
  obtain ⟨⟨startB, sizeB⟩, matchB, dataB, eB⟩ := b
  rw [memoryRegionIoeventfdEqual_iff] at tie
  simp only [key, EmbeddingLike.apply_eq_iff_eq, Prod.mk.injEq] at tie
  have same : matchA = matchB := by
    cases matchA <;> cases matchB <;> simp_all
  simp_all

theorem key_eq_of_standsFor {old} (stands : StandsFor memoryRegionIoeventfdBefore old a b) :
    a.key = b.key := by
  rcases stands with rfl | ⟨-, notFirst, notSecond⟩
  · rfl
  · rw [← memoryRegionIoeventfdEqual_iff, memoryRegionIoeventfdEqual, notFirst, notSecond]
    rfl

/-- After an update listeners hold one eventfd for each of the list, up to unmatched data. -/
theorem update_registered {next} (valid : state.Valid)
    (reg : state.registered.Perm state.ioeventfds)
    (updated : addressSpaceUpdateIoeventfds state = some next) :
    (next.registered.map key).Perm (next.ioeventfds.map key) ∧
      (SameData state → next.registered.Perm next.ioeventfds) := by
  obtain ⟨-, rfl⟩ := (addressSpaceUpdateIoeventfds_eq_some valid).mp updated
  have held : state.registered.Perm (state.ioeventfds ++ []) := by rwa [append_nil]
  obtain ⟨-, final, stands, left⟩ := diff_leaves memoryRegionIoeventfdBefore state.ioeventfds
    (collectIoeventfds state.eventfds state.view) held
  rw [append_nil] at left
  constructor
  · have keys : final.map key =
        (collectIoeventfds state.eventfds state.view).map key := by
      rw [← forall₂_eq_eq_eq, forall₂_map_left_iff, forall₂_map_right_iff]
      exact stands.imp fun _ _ => key_eq_of_standsFor
    exact keys ▸ left.map key
  · intro sameData
    -- Each eventfd stands for itself, since nothing else ties with it.
    have same : final = collectIoeventfds state.eventfds state.view := by
      apply eq_of_standsFor stands
      intro seen mem old present notFirst notSecond
      obtain ⟨fr, shown⟩ := mem_collectIoeventfds.mp mem
      have tie : memoryRegionIoeventfdEqual old seen := by
        rw [memoryRegionIoeventfdEqual, notFirst, notSecond]
        rfl
      exact eq_of_tie tie (sameData fr seen shown old present tie)
    exact same ▸ left

/-! ## Runs -/

variable (orders : ByteOrders) (endianness : Nat → DeviceEndian)

/-- What a change asks of the state: a deleted eventfd is there, and a view can be rendered. -/
def ChangeMeets (state : IoeventfdState) : IoeventfdChange → Prop
  | .addEventfd .. => True
  | .delEventfd mr addr size matchData data e =>
    ∃ fd ∈ state.eventfds mr,
      memoryRegionIoeventfdEqual (makeIoeventfd orders (endianness mr) addr size
        matchData data e) fd = true
  | .topology globalDirtyLog root => ∃ view, generateMemoryTopology globalDirtyLog root = some view
  | .update => NoneBelow state ∧ NoneBack state ∧ SameData state

/-- Runs keep a valid state with a sorted and registered list. -/
structure IoeventfdState.Exact (state : IoeventfdState) : Prop where
  valid : state.Valid
  sorted : IoeventfdsSorted state.ioeventfds
  registered : state.registered.Perm state.ioeventfds

variable {orders endianness}

theorem setEventfds_sorted {eventfds mr} (regions : ∀ other, IoeventfdsSorted (eventfds other))
    (sorted : IoeventfdsSorted list) (other) :
    IoeventfdsSorted (setEventfds eventfds mr list other) := by
  unfold setEventfds
  split
  · exact sorted
  · exact regions other

/-- A change that meets its condition is possible and keeps the list sorted and registered. -/
theorem ioeventfdStep_exact (state change) (exact_state : state.Exact)
    (meets : ChangeMeets orders endianness state change) :
    ∃ next, ioeventfdStep orders endianness state change = some next ∧ next.Exact := by
  obtain ⟨valid, sorted, reg⟩ := exact_state
  cases change with
  | addEventfd mr addr size matchData data e =>
    refine ⟨_, rfl, ⟨?_, valid.ordered, valid.inSpace, valid.fits⟩, sorted, reg⟩
    exact setEventfds_sorted valid.regions ((valid.regions mr).insert _)
  | delEventfd mr addr size matchData data e =>
    obtain ⟨list, removed⟩ := removeIoeventfd_isSome meets
    refine ⟨{ state with eventfds := setEventfds state.eventfds mr list }, ?_,
      ⟨?_, valid.ordered, valid.inSpace, valid.fits⟩, sorted, reg⟩
    · simp [ioeventfdStep, removed]
    · exact setEventfds_sorted valid.regions
        ((valid.regions mr).sublist (removeIoeventfd_sublist removed))
  | topology dirtyLog root =>
    obtain ⟨view, generated⟩ := meets
    have generateMemoryTopology_ordered : ViewFrom 0 view ∧
        ∀ fr ∈ view, addrrangeEnd fr.addr ≤ twoTo64 := by
      cases root with
      | none =>
        cases generated
        exact ⟨trivial, nofun⟩
      | some mr =>
        exact ⟨(generateMemoryTopology_spec generated).1,
          fun fr mem => (generateMemoryTopology_range generated mem).2.2⟩
    obtain ⟨ordered, inSpace⟩ := generateMemoryTopology_ordered
    refine ⟨{ state with view := view }, ?_, ⟨valid.regions, ordered, inSpace, valid.fits⟩,
      sorted, reg⟩
    simp [ioeventfdStep, generated]
  | update =>
    obtain ⟨noneBelow, noneBack, sameData⟩ := meets
    have updated := (addressSpaceUpdateIoeventfds_eq_some valid).mpr ⟨noneBelow, rfl⟩
    have fits := (collectIoeventfds_fits_iff valid).mpr noneBelow
    exact ⟨_, updated, ⟨valid.regions, valid.ordered, valid.inSpace, fits⟩,
      (collectIoeventfds_sorted_iff valid).mpr noneBack,
        (update_registered valid reg updated).2 sameData⟩

theorem IoeventfdState.exact_empty : IoeventfdState.empty.Exact :=
  ⟨⟨fun _ => List.Pairwise.nil, trivial, nofun, nofun⟩, List.Pairwise.nil, List.Perm.refl _⟩

/-- After changes that meet their conditions the list is sorted, and the listeners hold exactly it.
The next update passes its assertions and builds a sorted list exactly if no eventfd reaches below
the address space or back over one of an earlier range; its calls leave the new list up to data that
are not matched. -/
theorem ioeventfd_updates_exact_iff (orders : ByteOrders) (endianness : Nat → DeviceEndian)
    (changes : List IoeventfdChange)
    (along : Along (ioeventfdStep orders endianness)
      (ChangeMeets orders endianness) .empty changes) :
    ∃ state, run (ioeventfdStep orders endianness) .empty changes = some state ∧
      IoeventfdsSorted state.ioeventfds ∧ state.registered.Perm state.ioeventfds ∧
      ((∃ next, addressSpaceUpdateIoeventfds state = some next) ↔ NoneBelow state) ∧
      ∀ next, addressSpaceUpdateIoeventfds state = some next →
        (IoeventfdsSorted next.ioeventfds ↔ NoneBack state) ∧
        (next.registered.map key).Perm (next.ioeventfds.map key) ∧
        (SameData state → next.registered.Perm next.ioeventfds) := by
  obtain ⟨state, ran, valid, sorted, registered⟩ :=
    run_total_along ioeventfdStep_exact IoeventfdState.exact_empty along
  refine ⟨state, ran, sorted, registered, ?_, ?_⟩
  · constructor
    · rintro ⟨next, updated⟩
      exact ((addressSpaceUpdateIoeventfds_eq_some valid).mp updated).1
    · intro noneBelow
      exact ⟨_, (addressSpaceUpdateIoeventfds_eq_some valid).mpr ⟨noneBelow, rfl⟩⟩
  · intro next updated
    constructor
    · obtain ⟨-, rfl⟩ := (addressSpaceUpdateIoeventfds_eq_some valid).mp updated
      exact collectIoeventfds_sorted_iff valid
    · exact update_registered valid registered updated

def eventfdDevice (addr : Nat) (bound : addr < 2 ^ 64) : MemoryRegion :=
  .region ⟨1, true, false, false, addr, 16, 0, bound, by decide⟩ ⟨true, true, 0, false⟩ []

/-- A view of one range meets the conditions of an update if its eventfds are in the address space
and keep their data. -/
theorem updateMeets_of_single {state : IoeventfdState} {fr : FlatRange} (view : state.view = [fr])
    (fine : ∀ fd ∈ state.eventfds fr.mr, ∀ seen ∈ visibleIoeventfd fr fd, 0 ≤ seen.addr.start ∧
      ∀ old ∈ state.ioeventfds, memoryRegionIoeventfdEqual old seen = true → old.data = seen.data) :
    NoneBelow state ∧ NoneBack state ∧ SameData state := by
  have only {other seen} (shown : Seen state other seen) : other = fr ∧ 0 ≤ seen.addr.start ∧
      ∀ old ∈ state.ioeventfds, memoryRegionIoeventfdEqual old seen = true →
          old.data = seen.data := by
    obtain ⟨here, fd, held, visible⟩ := shown
    rw [view, mem_singleton] at here
    subst here
    exact ⟨rfl, fine fd held seen visible⟩
  refine ⟨fun other seen shown => (only shown).2.1, ?_, fun other seen shown => (only shown).2.2⟩
  intro earlier later first second here there before
  rw [(only here).1, (only there).1] at before
  exact absurd before (lt_irrefl _)

/-- Two eventfds in a device mapped whole, of which one is deleted after the first update. -/
def eventfdChanges : List IoeventfdChange :=
  [.topology false (some (eventfdDevice 32 (by decide))), .addEventfd 1 8#64 4#32 false 0#64 9,
    .addEventfd 1 4#64 4#32 true 5#64 7, .update, .delEventfd 1 8#64 4#32 false 0#64 9, .update]

/-- The run ends with the other one registered. -/
theorem ioeventfd_updates_exact_iff_sample :
    ∃ state, run (ioeventfdStep ⟨false, false⟩ fun _ => .little) .empty
      eventfdChanges = some state ∧ state.registered.Perm state.ioeventfds := by
  let fr : FlatRange := ⟨1, 0, ⟨32, 16⟩, 0, true, false, false⟩
  have generated : generateMemoryTopology false (some (eventfdDevice 32 (by decide))) =
    some [fr] := by decide
  -- What the states before the updates and before the deletion look like.
  have updates : ∀ count ∈ [3, 5],
    ∀ found ∈ run (ioeventfdStep ⟨false, false⟩ fun _ => .little) .empty
      (eventfdChanges.take count), found.view = [fr] ∧
        ∀ fd ∈ found.eventfds fr.mr, ∀ seen ∈ visibleIoeventfd fr fd, 0 ≤ seen.addr.start ∧
          ∀ old ∈ found.ioeventfds, memoryRegionIoeventfdEqual old seen = true →
              old.data = seen.data := by
    decide +kernel
  have deletion : ∀ found ∈ run (ioeventfdStep ⟨false, false⟩ fun _ => .little) .empty
      (eventfdChanges.take 4), ∃ fd ∈ found.eventfds 1, memoryRegionIoeventfdEqual
        (makeIoeventfd ⟨false, false⟩ .little 8#64 4#32 false 0#64 9) fd = true := by decide +kernel
  have along : Along (ioeventfdStep ⟨false, false⟩ fun _ => .little)
      (ChangeMeets ⟨false, false⟩ fun _ => .little) .empty eventfdChanges := by
    refine ⟨⟨_, generated⟩, fun s₁ ran₁ => ⟨trivial, fun s₂ ran₂ => ⟨trivial, fun s₃ ran₃ => ?_⟩⟩⟩
    have reached₃ : run (ioeventfdStep ⟨false, false⟩ fun _ => .little) .empty
      (eventfdChanges.take 3) = some s₃ :=
      run_cons.mpr ⟨s₁, ran₁, run_cons.mpr ⟨s₂, ran₂, run_cons.mpr ⟨s₃, ran₃, rfl⟩⟩⟩
    obtain ⟨view, fine⟩ := updates 3 (by decide) s₃ reached₃
    refine ⟨updateMeets_of_single view fine, fun s₄ ran₄ => ?_⟩
    have then₄ : run (ioeventfdStep ⟨false, false⟩ fun _ => .little) s₃ [.update] = some s₄ :=
      run_cons.mpr ⟨s₄, ran₄, rfl⟩
    have reached₄ := run_append reached₃ then₄
    refine ⟨deletion s₄ reached₄, fun s₅ ran₅ => ?_⟩
    have then₅ : run (ioeventfdStep ⟨false, false⟩ fun _ => .little) s₄
        [.delEventfd 1 8#64 4#32 false 0#64 9] = some s₅ := run_cons.mpr ⟨s₅, ran₅, rfl⟩
    obtain ⟨view, fine⟩ := updates 5 (by decide) s₅ (run_append reached₄ then₅)
    exact ⟨updateMeets_of_single view fine, fun _ _ => trivial⟩
  obtain ⟨state, ran, -, registered, -⟩ :=
    ioeventfd_updates_exact_iff ⟨false, false⟩ (fun _ => .little) eventfdChanges along
  exact ⟨state, ran, registered⟩

/-- A board with the device at its start and another one over its third byte. -/
def splitBoard : MemoryRegion :=
  .region ⟨0, true, false, false, 0, 2 ^ 64, 0, zero_lt_two_pow_64,
    two_pow_64_le_self⟩ ⟨false, true, 0, false⟩
    [.region ⟨2, true, false, false, 2, 1, 1, by decide, by decide⟩ ⟨true, true, 0, false⟩ [],
      eventfdDevice 0 zero_lt_two_pow_64]

/-- A board with a window onto the device from its fifth byte on. -/
def clippedBoard : MemoryRegion :=
  .region ⟨0, true, false, false, 0, 2 ^ 64, 0, zero_lt_two_pow_64,
    two_pow_64_le_self⟩ ⟨false, true, 0, false⟩
    [.alias ⟨3, true, false, false, 0, 12, 0, zero_lt_two_pow_64, by decide⟩ 4 (by decide)
      (eventfdDevice 0 zero_lt_two_pow_64)]

/-- An eventfd over a split is listed again behind one that it comes before, and one that is cut off
fails an assertion. -/
theorem split_and_clipped_eventfds_fail :
    ((run (ioeventfdStep ⟨false, false⟩ fun _ => .little) .empty
      [.topology false (some splitBoard), .addEventfd 1 0#64 4#32 false 0#64 7,
        .addEventfd 1 1#64 1#32 false 0#64 8,
        .update]).map fun state => decide (IoeventfdsSorted state.ioeventfds)) = some false ∧
    (run (ioeventfdStep ⟨false, false⟩ fun _ => .little) .empty
      [.topology false (some clippedBoard), .addEventfd 1 0#64 8#32 false 0#64 7, .update]).isNone =
          true := by decide +kernel

end Qemu.Memory
