import Qemu.Exec.PhysPageMap

/-! What `phys_page_set_level` does to pages, and how many nodes it takes. -/

namespace Qemu.Exec

open Radix Nat

/-- The section number of a page below an entry over some levels. -/
def sectionAt : Nat → PhysPageEntry → Nat → Nat
  | _, .leaf ptr, _ => ptr
  | _, .empty _, _ => physSectionUnassigned
  | 0, .inner _ _, _ => physSectionUnassigned
  | levels + 1, .inner _ node, page => sectionAt levels (node (slotAt levels page)) page

/-- A tree before compaction: entries skip one level, and leaves hold section numbers below a bound,
above the lowest level never the unassigned one. -/
def Plain (bound : Nat) : Nat → PhysPageEntry → Prop
  | 0, .leaf ptr => ptr < bound
  | 0, _ => False
  | _ + 1, .leaf ptr => ptr ≠ physSectionUnassigned ∧ ptr < bound
  | _ + 1, .empty skip => skip = 1
  | levels + 1, .inner skip node => skip = 1 ∧ ∀ slot, Plain bound levels (node slot)

theorem step_eq (level) : 2 ^ (level * pL2Bits) = pL2Size ^ level := by
  rw [pL2Size, ← pow_mul, Nat.mul_comm]

theorem slotAt_eq_digit (level page) : slotAt level page = digit pL2Size level page := by
  rw [slotAt, digit, shiftRight_eq_div_pow, step_eq, pL2Size, and_two_pow_sub_one_eq_mod]

theorem slotAt_lt (level page) : slotAt level page < pL2Size := by
  rw [slotAt_eq_digit]
  exact digit_lt (by decide) page

/-- A page below an upper slot lies in the block its own slot names. -/
theorem block_eq_slot {level upper page} (lower : upper * pL2Size * pL2Size ^ level ≤ page)
    (inside : page < (upper * pL2Size + pL2Size) * pL2Size ^ level) :
    page / pL2Size ^ level = upper * pL2Size + slotAt level page := by
  have size : 0 < pL2Size ^ level := Nat.pow_pos (by decide)
  have first : upper * pL2Size ≤ page / pL2Size ^ level := (le_div_iff_mul_le size).mpr lower
  have last : page / pL2Size ^ level < upper * pL2Size + pL2Size :=
    Nat.div_lt_of_lt_mul (by rwa [Nat.mul_comm])
  rw [slotAt_eq_digit, digit]
  -- The quotient is the number of the node's first slot plus a slot.
  obtain ⟨offset, quotient⟩ := Nat.exists_eq_add_of_le first
  rw [quotient] at last ⊢
  rw [mul_add_mod_of_lt (by omega)]

section

variable {level upper slot block page : Nat} (numbered : block = upper * pL2Size + slot)

include numbered

theorem le_slotAt
    (lower : block * pL2Size ^ level ≤ page)
    (inside : page < (upper * pL2Size + pL2Size) * pL2Size ^ level) : slot ≤ slotAt level page := by
  have size : 0 < pL2Size ^ level := Nat.pow_pos (by decide)
  have first : block ≤ page / pL2Size ^ level := (le_div_iff_mul_le size).mpr lower
  have from_start : upper * pL2Size * pL2Size ^ level ≤ block * pL2Size ^ level :=
    mul_le_mul_right _ (by omega)
  have := block_eq_slot (by omega) inside
  omega

theorem slotAt_of_slot (within : slot < pL2Size) (lower : block * pL2Size ^ level ≤ page)
    (inside : page < (block + 1) * pL2Size ^ level) : slotAt level page = slot := by
  rw [slotAt_eq_digit, digit_of_block lower inside, numbered, mul_add_mod_of_lt within]

end

/-- There is room for a number of nodes, both in the array and in the numbering. -/
def Room (cost : Nat) (map : NodeCounts) : Prop :=
  map.nodesNb + cost ≤ physMapNodeNil ∧ map.nodesNb + cost ≤ map.nodesNbAlloc

def Takes (cost : Nat) (map map' : NodeCounts) : Prop :=
  map'.nodesNb ≤ map.nodesNb + cost ∧ map'.nodesNbAlloc = map.nodesNbAlloc

theorem Takes.refl (cost map) : Takes cost map map := ⟨le_add_right _ _, rfl⟩

theorem Takes.trans {first second cost map map' map''} (taken : Takes first map map')
    (taken' : Takes second map' map'') (total : first + second ≤ cost) : Takes cost map map'' := by
  obtain ⟨bounded, alloc⟩ := taken
  obtain ⟨bounded', alloc'⟩ := taken'
  exact ⟨by omega, alloc'.trans alloc⟩

theorem Room.after {first second cost map map'} (room : Room cost map)
    (taken : Takes first map map') (total : first + second ≤ cost) : Room second map' := by
  obtain ⟨inNumbers, inArray⟩ := room
  obtain ⟨bounded, alloc⟩ := taken
  exact ⟨by omega, by omega⟩

theorem Room.mono {small cost map} (room : Room cost map) (less : small ≤ cost) :
    Room small map := room.after (Takes.refl 0 map) (by omega)

def slotCost (level stop : Nat) (state : SetState) : Nat :=
  if state.nb = 0 then 0
  else if state.index % pL2Size ^ level = 0 then
    if stop ≤ state.index + state.nb then 0 else level
  else if stop ≤ state.index + state.nb then level else 2 * level

def nodeCost (level stop : Nat) (state : SetState) : Nat :=
  if state.index % pL2Size ^ (level + 1) = 0 ∨
    stop ≤ state.index + state.nb then level + 1 else 2 * level + 1

variable {leaf bound : Nat}

/-- How far a call gets: to the end of the run or of the block. -/
def Moves (stop : Nat) (state state' : SetState) : Prop :=
  state'.index = min (state.index + state.nb) stop ∧
    state'.index + state'.nb = state.index + state.nb

def setRun (leaf : Nat) (state : SetState) (old : Nat → Nat) (page : Nat) : Nat :=
  if state.index ≤ page ∧ page < state.index + state.nb then leaf else old page

/-- What a call for one entry above a node of a level promises. -/
def SetsEntry (leaf bound level : Nat)
    (set : PhysPageEntry → SetState → Option (PhysPageEntry × SetState)) : Prop :=
  ∀ (lp : PhysPageEntry) (state : SetState) (block : Nat), Plain bound (level + 1) lp →
    state.nb ≠ 0 → block * pL2Size ^ (level + 1) ≤ state.index →
      state.index < (block + 1) * pL2Size ^ (level + 1) →
    (∀ page, state.index ≤ page → page < state.index + state.nb →
      page < (block + 1) * pL2Size ^ (level + 1) →
      sectionAt (level + 1) lp page = physSectionUnassigned) →
    Room (nodeCost level ((block + 1) * pL2Size ^ (level + 1)) state) state.map →
    ∃ lp' state', set lp state = some (lp', state') ∧ Plain bound (level + 1) lp' ∧
      Moves ((block + 1) * pL2Size ^ (level + 1)) state state' ∧
      (∀ page, block * pL2Size ^ (level + 1) ≤ page → page < (block + 1) * pL2Size ^ (level + 1) →
        sectionAt (level + 1) lp' page = setRun leaf state (sectionAt (level + 1) lp) page) ∧
      Takes (nodeCost level ((block + 1) * pL2Size ^ (level + 1)) state) state.map state'.map

@[simp] theorem setSlot_same (node : Nat → PhysPageEntry) (slot entry) :
    setSlot node slot entry slot = entry := if_pos rfl

theorem setSlot_other {node slot other entry}
    (differ : other ≠ slot) : setSlot node slot entry other = node other := if_neg differ

theorem plain_leaf (assigned : leaf ≠ physSectionUnassigned) (below : leaf < bound) (level) :
    Plain bound level (.leaf leaf) := by
  cases level with
  | zero => exact below
  | succ level => exact ⟨assigned, below⟩

theorem plain_setSlot {level slot node entry}
    (plain : ∀ other, Plain bound level (node other)) (plain' : Plain bound level entry) (other) :
    Plain bound level (setSlot node slot entry other) := by
  by_cases same : other = slot
  · rw [same, setSlot_same]
    exact plain'
  · rw [setSlot_other same]
    exact plain other

theorem eq_of_aligned {size block index} (aligned : index % size = 0) (lower : block * size ≤ index)
    (upper : index < (block + 1) * size) : index = block * size := by
  have quotient : index / size = block := Nat.div_eq_of_lt_le lower upper
  have split := div_add_mod index size
  rw [quotient, aligned, add_zero, Nat.mul_comm] at split
  exact split.symm

theorem slotCost_whole {level stop state} (aligned : state.index % pL2Size ^ level = 0)
    (whole : pL2Size ^ level ≤ state.nb) (some_left : state.nb ≠ 0) :
    slotCost level stop { state with
      index := state.index + pL2Size ^ level,
      nb := state.nb - pL2Size ^ level } ≤ slotCost level stop state := by
  have same : state.index + pL2Size ^ level + (state.nb - pL2Size ^ level) =
    state.index + state.nb := by omega
  simp only [slotCost, same, add_mod_right, aligned, if_true, some_left, if_false]
  split <;> omega

/-- A partial entry and the rest take what the loop may take. -/
theorem slotCost_partial {lower stop lo state state'} (some_left : state.nb ≠ 0)
    (start : state.index % pL2Size ^ (lower + 1) = 0 → state.index = lo ∧
      state.nb < pL2Size ^ (lower + 1)) (inside : lo + pL2Size ^ (lower + 1) ≤ stop)
    (aligned : (lo + pL2Size ^ (lower + 1)) % pL2Size ^ (lower + 1) = 0)
    (moves : Moves (lo + pL2Size ^ (lower + 1)) state state') :
    nodeCost lower (lo + pL2Size ^ (lower + 1)) state + slotCost (lower + 1) stop state' ≤
      slotCost (lower + 1) stop state := by
  obtain ⟨reached, total⟩ := moves
  simp only [slotCost, nodeCost, some_left, if_false]
  generalize pL2Size ^ (lower + 1) = size at *
  by_cases full : lo + size ≤ state.index + state.nb
  · -- The run goes on after the entry, which therefore begins inside it.
    have index_eq : state'.index = lo + size := by omega
    have unaligned : ¬ state.index % size = 0 := by
      intro zero
      omega
    rw [index_eq, aligned, if_neg unaligned, if_pos (.inr full), if_pos rfl]
    split_ifs <;> omega
  -- The run ends inside the entry.
  have nothing_left : state'.nb = 0 := by omega
  have early : ¬ stop ≤ state.index + state.nb := by omega
  simp only [nothing_left, if_true, early, full, or_false, if_false]
  split_ifs <;> omega

/-- What the loop over a node promises from a slot on. -/
def SetsSlots (leaf bound level stop block slot : Nat)
    (node : Nat → PhysPageEntry) (state : SetState)
    (result : Option ((Nat → PhysPageEntry) × SetState)) : Prop :=
  ∃ node' state', result = some (node', state') ∧ (∀ other, Plain bound level (node' other)) ∧
    (∀ other < slot, node' other = node other) ∧ Moves stop state state' ∧
    (∀ page, block * pL2Size ^ level ≤ page → page < stop →
      sectionAt level (node' (slotAt level page)) page =
        setRun leaf state (fun page => sectionAt level (node (slotAt level page)) page) page) ∧
    Takes (slotCost level stop state) state.map state'.map

variable {level upper stop block slot : Nat} {node : Nat → PhysPageEntry}
  {entry : PhysPageEntry}

/-- Pages of later entries do not see a replaced one. -/
theorem setSlot_later (numbered : block = upper * pL2Size + slot)
    (stop_eq : stop = (upper * pL2Size + pL2Size) * pL2Size ^ level) {page}
    (lower : (block + 1) * pL2Size ^ level ≤ page) (inside : page < stop) :
    setSlot node slot entry (slotAt level page) = node (slotAt level page) := by
  have := @le_slotAt level upper (slot + 1) (block + 1) page (by omega) lower (stop_eq ▸ inside)
  exact setSlot_other (by omega)

/-- An entry that is set and the remaining ones make up the run. -/
theorem SetsSlots.cons {state state' : SetState} {cost result}
    (numbered : block = upper * pL2Size + slot) (slot_lt : slot < pL2Size)
    (stop_eq : stop = (upper * pL2Size + pL2Size) * pL2Size ^ level)
    (index_lt : state.index < (block + 1) * pL2Size ^ level)
    (moves : Moves ((block + 1) * pL2Size ^ level) state state')
    (values : ∀ page, block * pL2Size ^ level ≤ page → page < (block + 1) * pL2Size ^ level →
      sectionAt level entry page = setRun leaf state (sectionAt level (node slot)) page)
    (takes : Takes cost state.map state'.map)
    (costs : cost + slotCost level stop state' ≤ slotCost level stop state)
    (rest : SetsSlots leaf bound level stop (block + 1) (slot + 1) (setSlot node slot entry)
      state' result) :
    SetsSlots leaf bound level stop block slot node state result := by
  obtain ⟨reached, conserved⟩ := moves
  have inside : (block + 1) * pL2Size ^ level ≤ stop := by
    rw [stop_eq]
    exact mul_le_mul_right _ (by omega)
  obtain ⟨node', state'', res, plain', kept, ⟨reached', conserved'⟩, values', takes'⟩ := rest
  refine ⟨node', state'', res, plain', fun other before => ?_, ⟨by omega, by omega⟩,
    fun page lower within => ?_, takes.trans takes' costs⟩
  · rw [kept other (by omega), setSlot_other (by omega)]
  · by_cases here : page < (block + 1) * pL2Size ^ level
    · have slot_eq := slotAt_of_slot numbered slot_lt lower here
      rw [slot_eq, kept slot (by omega), setSlot_same, values page lower here, setRun, setRun,
        slot_eq]
    · rw [values' page (by omega) within, setRun, setRun,
        setSlot_later numbered stop_eq (by omega) within]
      exact if_congr (by omega) rfl rfl

/-- The loop over the entries of a node sets a run of pages from a slot on. -/
theorem setSlots_spec (assigned : leaf ≠ physSectionUnassigned) (below : leaf < bound)
    {descend} (descends : ∀ lower, level = lower + 1 → SetsEntry leaf bound lower descend)
    (stop_eq : stop = (upper * pL2Size + pL2Size) * pL2Size ^ level) (remaining) :
    ∀ (slot block : Nat) (node : Nat → PhysPageEntry) (state : SetState),
      slot + remaining = pL2Size →
      block = upper * pL2Size + slot → (∀ other, Plain bound level (node other)) →
        state.index ≤ stop → (state.nb ≠ 0 → block * pL2Size ^ level ≤ state.index ∧
        state.index < (block + 1) * pL2Size ^ level) →
      (∀ page, state.index ≤ page → page < state.index + state.nb → page < stop →
        sectionAt level (node (slotAt level page)) page = physSectionUnassigned) →
      Room (slotCost level stop state) state.map →
      SetsSlots leaf bound level stop block slot node state
        (setSlots leaf (pL2Size ^ level) descend remaining slot node state) := by
  -- The loop counter goes down while the slot and the page index go up.
  induction remaining with
  | zero =>
    intro slot block node state last numbered plain within place free room
    have block_eq : block = upper * pL2Size + pL2Size := by omega
    refine ⟨node, state, rfl, plain, fun _ _ => rfl, ⟨?_, rfl⟩,
      fun page lower upper => ?_, Takes.refl _ _⟩
    · by_cases some_left : state.nb = 0
      · omega
      · have := (place some_left).1
        rw [block_eq, ← stop_eq] at this
        omega
    · rw [block_eq, ← stop_eq] at lower
      omega
  | succ remaining ih =>
    intro slot block node state total numbered plain within place free room
    have slot_lt : slot < pL2Size := by omega
    -- The block of this slot ends inside the node.
    have next : (block + 1) * pL2Size ^ level = block * pL2Size ^ level + pL2Size ^ level :=
      succ_mul _ _
    have next' : (block + 1 + 1) * pL2Size ^ level =
      (block + 1) * pL2Size ^ level + pL2Size ^ level := succ_mul _ _
    have inside : (block + 1) * pL2Size ^ level ≤ stop := by
      rw [stop_eq]
      exact mul_le_mul_right _ (by omega)
    rw [setSlots]
    by_cases some_left : state.nb = 0
    · -- Nothing is left to set.
      rw [if_pos some_left]
      refine ⟨node, state, rfl, plain, fun _ _ => rfl, ⟨by omega, rfl⟩,
        fun page lower upper => ?_, Takes.refl _ _⟩
      rw [setRun, if_neg (by omega)]
    rw [if_neg some_left]
    obtain ⟨lower_le, index_lt⟩ := place some_left
    -- Whatever was done to this entry, the remaining entries finish the run.
    have finish (entry : PhysPageEntry) (state' : SetState) (cost : Nat)
        (plainEntry : Plain bound level entry)
        (moves : Moves ((block + 1) * pL2Size ^ level) state state')
        (values : ∀ page, block * pL2Size ^ level ≤ page → page < (block + 1) * pL2Size ^ level →
          sectionAt level entry page = setRun leaf state (sectionAt level (node slot)) page)
        (takes : Takes cost state.map state'.map)
        (costs : cost + slotCost level stop state' ≤ slotCost level stop state) :
        SetsSlots leaf bound level stop block slot node state
          (setSlots leaf (pL2Size ^ level) descend remaining (slot + 1)
            (setSlot node slot entry) state') := by
      obtain ⟨reached, conserved⟩ := moves
      refine SetsSlots.cons numbered slot_lt stop_eq index_lt
        ⟨reached, conserved⟩ values takes costs ?_
      refine ih (slot + 1) (block + 1) (setSlot node slot entry) state' (by omega) (by omega)
        (plain_setSlot plain plainEntry) (by omega) (fun left => by omega) ?_
        (room.after takes costs)
      intro page lower upper' inside'
      rw [setSlot_later numbered stop_eq (by omega) inside']
      exact free page (by omega) (by omega) inside'
    by_cases whole : state.index % pL2Size ^ level = 0 ∧ state.nb ≥ pL2Size ^ level
    · -- The entry becomes a leaf.
      rw [if_pos whole]
      have index_eq := eq_of_aligned whole.1 lower_le index_lt
      refine finish (.leaf leaf) _ 0 (plain_leaf assigned below level) ⟨?_, ?_⟩
        (fun page lower here => ?_)
        (Takes.refl 0 _) (by rw [zero_add]; exact slotCost_whole whole.1 whole.2 some_left)
      · change state.index + pL2Size ^ level = _
        omega
      · change state.index + pL2Size ^ level + (state.nb - pL2Size ^ level) = _
        omega
      · rw [setRun, if_pos (by omega)]
        cases level <;> rfl
    -- The entry is set in part, one level down.
    rw [if_neg whole]
    obtain ⟨lower, rfl⟩ : ∃ lower, level = lower + 1 := by
      cases level with
      | zero =>
        rw [pow_zero, mod_one] at whole
        omega
      | succ lower => exact ⟨lower, rfl⟩
    have start : state.index % pL2Size ^ (lower + 1) = 0 →
        state.index = block * pL2Size ^ (lower + 1) ∧ state.nb < pL2Size ^ (lower + 1) :=
      fun aligned => ⟨eq_of_aligned aligned lower_le index_lt, by omega⟩
    have aligned : (block * pL2Size ^ (lower + 1) + pL2Size ^ (lower + 1)) %
        pL2Size ^ (lower + 1) = 0 := by
      rw [← succ_mul, mul_mod_left]
    have costs : ∀ state', Moves ((block + 1) * pL2Size ^ (lower + 1)) state state' →
        nodeCost lower ((block + 1) * pL2Size ^ (lower + 1)) state +
          slotCost (lower + 1) stop state' ≤ slotCost (lower + 1) stop state := by
      rw [next]
      exact fun state' moves => slotCost_partial some_left start (by omega) aligned moves
    -- The room is there before the call, because wherever the call ends the costs add up.
    have room' : Room (nodeCost lower ((block + 1) * pL2Size ^ (lower + 1)) state) state.map := by
      let ended := min (state.index + state.nb) ((block + 1) * pL2Size ^ (lower + 1))
      have := costs ⟨state.map, ended, state.index + state.nb - ended⟩
        ⟨rfl, Nat.add_sub_cancel' (Nat.min_le_left _ _)⟩
      exact room.mono (by omega)
    obtain ⟨entry, state', descended, plainEntry, moves, values, takes⟩ :=
      descends lower rfl (node slot) state block (plain slot) some_left lower_le index_lt
        (fun page lower upper' here => by
          have unset := free page lower upper' (by omega)
          rwa [slotAt_of_slot numbered slot_lt (by omega) here] at unset)
        room'
    rw [descended]
    exact finish entry state' _ plainEntry moves values takes (costs state' moves)

theorem physMapNodeAlloc_some {cost map} (room : Room (cost + 1) map) (lowest) :
    ∃ map', physMapNodeAlloc map lowest =
        some (fun _ => if lowest then .leaf physSectionUnassigned else .empty 1, map') ∧
      Takes 1 map map' := by
  obtain ⟨inNumbers, inArray⟩ := room
  exact ⟨_, if_pos ⟨by omega, by omega⟩, le_rfl, rfl⟩

theorem freshEntry_spec (reg : 0 < bound) (level page) :
    Plain bound level (if level = 0 then .leaf physSectionUnassigned else .empty 1) ∧
      sectionAt level (if level = 0 then .leaf physSectionUnassigned else .empty 1) page =
        physSectionUnassigned := by
  cases level with
  | zero => exact ⟨reg, rfl⟩
  | succ level => exact ⟨rfl, rfl⟩

theorem slotCost_lt_nodeCost {level stop state} (some_left : state.nb ≠ 0) :
    slotCost level stop state + 1 ≤ nodeCost level stop state := by
  have aligned : state.index % pL2Size ^ (level + 1) = 0 → state.index % pL2Size ^ level = 0 := by
    intro zero
    exact mod_eq_zero_of_dvd ((pow_dvd_pow _ (le_succ level)).trans (dvd_of_mod_eq_zero zero))
  simp only [slotCost, nodeCost, some_left, if_false]
  split_ifs <;> omega

section

variable (assigned : leaf ≠ physSectionUnassigned) (below : leaf < bound)

include assigned below

/-- The loop of a level sets the run below the entry. -/
theorem setNode_loop {level upper descend}
    (descends : ∀ lower, level = lower + 1 → SetsEntry leaf bound lower descend) {state}
    (lower_le : upper * pL2Size * pL2Size ^ level ≤ state.index)
    (index_lt : state.index < (upper * pL2Size + pL2Size) * pL2Size ^ level) {node}
    (plain : ∀ slot, Plain bound level (node slot)) {old}
    (same : ∀ page, sectionAt level (node (slotAt level page)) page = old page)
    (free : ∀ page, state.index ≤ page → page < state.index + state.nb →
      page < (upper * pL2Size + pL2Size) * pL2Size ^ level → old page = physSectionUnassigned)
    (room : Room (slotCost level ((upper * pL2Size + pL2Size) * pL2Size ^ level) state) state.map) :
    ∃ node' state', setSlots leaf (pL2Size ^ level) descend (pL2Size - slotAt level state.index)
        (slotAt level state.index) node state = some (node', state') ∧
      (∀ slot, Plain bound level (node' slot)) ∧
      Moves ((upper * pL2Size + pL2Size) * pL2Size ^ level) state state' ∧
      (∀ page, upper * pL2Size * pL2Size ^ level ≤ page →
        page < (upper * pL2Size + pL2Size) * pL2Size ^ level →
        sectionAt level (node' (slotAt level page)) page = setRun leaf state old page) ∧
      Takes (slotCost level ((upper * pL2Size + pL2Size) * pL2Size ^ level) state) state.map
          state'.map := by
  have first_block : ∃ block, block = upper * pL2Size + slotAt level state.index ∧
    block * pL2Size ^ level ≤ state.index ∧ state.index < (block + 1) * pL2Size ^ level := by
    obtain ⟨first, last⟩ := @block_bounds pL2Size level (by decide) state.index
    exact ⟨_, block_eq_slot lower_le index_lt, first, last⟩
  obtain ⟨block, numbered, first, last⟩ := first_block
  have slot_lt := slotAt_lt level state.index
  obtain ⟨node', state', res, plain', kept, moves, values, takes⟩ :=
    setSlots_spec assigned below descends rfl (pL2Size - slotAt level state.index)
      (slotAt level state.index) block node state (by omega) numbered plain (le_of_lt index_lt)
      (fun _ => ⟨first, last⟩) (fun page after before inside =>
        (same page).trans (free page after before inside)) room
  refine ⟨node', state', res, plain', moves, fun page lower inside => ?_, takes⟩
  by_cases before : page < block * pL2Size ^ level
  · -- The loop does not touch the slots before the first page.
    have slotAt_lt_of_before : slotAt level page < (Qemu.Exec.slotAt level state.index) := by
      have first : page / pL2Size ^ level < block := Nat.div_lt_of_lt_mul (by rwa [Nat.mul_comm])
      have := block_eq_slot lower (by omega)
      omega
    rw [kept _ slotAt_lt_of_before, same, setRun, if_neg (by omega)]
  · rw [values page (by omega) inside, setRun, setRun, same]

/-- One level sets the run below its entry, if the next one does. -/
theorem setNode_spec {level descend}
    (descends : ∀ lower, level = lower + 1 → SetsEntry leaf bound lower descend) :
    SetsEntry leaf bound level (setNode leaf level descend) := by
  intro lp state upper plain some_left lower_le index_lt free room
  have power : pL2Size ^ (level + 1) = pL2Size * pL2Size ^ level := pow_succ'
  have stop_eq : (upper + 1) * pL2Size ^ (level + 1) =
      (upper * pL2Size + pL2Size) * pL2Size ^ level := by
    rw [power, ← mul_assoc, succ_mul]
  have start_eq : upper * pL2Size ^ (level + 1) = upper * pL2Size * pL2Size ^ level := by
    rw [power, mul_assoc]
  rw [stop_eq] at index_lt free room ⊢
  rw [start_eq] at lower_le ⊢
  have costs :=
    @slotCost_lt_nodeCost level ((upper * pL2Size + pL2Size) * pL2Size ^ level) state some_left
  cases lp with
  | leaf ptr =>
    -- A leaf above the run would have assigned its first page already.
    exact absurd (free state.index le_rfl (by omega) index_lt) plain.1
  | empty skip =>
    obtain ⟨map', alloc, taken⟩ := physMapNodeAlloc_some (room.mono costs) (level = 0)
    obtain ⟨node', state', res, plain', moves, values, takes⟩ :=
      @setNode_loop leaf bound assigned below level upper descend descends
        { state with map := map' }
        lower_le index_lt _ (fun slot => (freshEntry_spec (by omega) level 0).1) _
        (fun page => (freshEntry_spec (by omega : 0 < bound) level page).2) (fun _ _ _ _ => rfl)
        (room.after taken (by rw [add_comm]; exact costs))
    refine ⟨.inner skip node', state', ?_, ⟨plain, plain'⟩, moves, values,
      taken.trans takes (by rw [add_comm]; exact costs)⟩
    simp only [setNode, alloc, step_eq, Option.bind_eq_bind,
      Option.bind_some, decide_eq_true_eq, res]
    rfl
  | inner skip node =>
    obtain ⟨node', state', res, plain', moves, values, takes⟩ :=
      setNode_loop assigned below descends lower_le index_lt plain.2 (fun page => rfl) free
        (room.mono (by omega))
    refine ⟨.inner skip node', state', ?_, ⟨plain.1, plain'⟩, moves, values,
      takes.trans (Takes.refl 1 _) costs⟩
    simp only [setNode, step_eq, Option.bind_eq_bind, Option.bind_some, res]
    rfl

theorem physPageSetLevel_spec (level) :
    SetsEntry leaf bound level (physPageSetLevel leaf level) := by
  induction level with
  | zero => exact setNode_spec assigned below fun lower absurdity => by omega
  | succ level ih =>
    refine setNode_spec assigned below fun lower same => ?_
    obtain rfl : level = lower := by omega
    exact ih

end

end Qemu.Exec
