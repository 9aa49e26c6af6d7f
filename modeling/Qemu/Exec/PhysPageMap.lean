import Qemu.Lib.Radix

/-! The radix tree from pages to sections: `phys_page_set` in `exec.c`. -/

namespace Qemu.Exec

/-- The bits that one level consumes. -/
def pL2Bits : Nat := 9

/-- Entries of one node. -/
def pL2Size : Nat := 2 ^ pL2Bits

/-- Nothing answers. -/
def physSectionUnassigned : Nat := 0

/-- The node number that stands for no node. -/
def physMapNodeNil : Nat := 2 ^ 26 - 1

/-- A leaf has `skip` zero and a section number, any other entry skips to a node some levels down or
to none. Nodes are read through the entries, since one entry only refers to each. -/
inductive PhysPageEntry where
  | leaf (ptr : Nat)
  | empty (skip : Nat)
  | inner (skip : Nat) (node : Nat → PhysPageEntry)

/-- The node counts of `PhysPageMap`, with the reservation hint. -/
structure NodeCounts where
  nodesNb : Nat
  nodesNbAlloc : Nat
  allocHint : Nat

/-- Make room for a number of nodes. -/
def physMapNodeReserve (map : NodeCounts) (nodes : Nat) : NodeCounts :=
  if map.nodesNb + nodes > map.nodesNbAlloc then
    let alloc := max map.allocHint (map.nodesNb + nodes)
    { map with nodesNbAlloc := alloc, allocHint := alloc }
  else map

/-- Asserts that a node is left. -/
def physMapNodeAlloc (map : NodeCounts) (leaf : Bool) :
    Option ((Nat → PhysPageEntry) × NodeCounts) :=
  if map.nodesNb ≠ physMapNodeNil ∧ map.nodesNb ≠ map.nodesNbAlloc then
    some (fun _ => if leaf then .leaf physSectionUnassigned else .empty 1,
      { map with nodesNb := map.nodesNb + 1 })
  else none

/-- What `phys_page_set_level` changes: counts, and pages to set. -/
structure SetState where
  map : NodeCounts
  index : Nat
  nb : Nat

/-- The slot of a page in a node of the given level. -/
def slotAt (level index : Nat) : Nat := (index >>> (level * pL2Bits)) &&& (pL2Size - 1)

/-- A node with one entry replaced. -/
def setSlot (node : Nat → PhysPageEntry) (slot : Nat)
    (entry : PhysPageEntry) : Nat → PhysPageEntry :=
  fun other => if other = slot then entry else node other

/-- The loop of `phys_page_set_level` over the entries of a node. -/
def setSlots (leaf step : Nat)
    (descend : PhysPageEntry → SetState → Option (PhysPageEntry × SetState)) :
    Nat → Nat → (Nat → PhysPageEntry) → SetState → Option ((Nat → PhysPageEntry) × SetState)
  | 0, _, node, state => some (node, state)
  | remaining + 1, slot, node, state =>
    if state.nb = 0 then some (node, state)
    else if state.index % step = 0 ∧ state.nb ≥ step then
      setSlots leaf step descend remaining (slot + 1) (setSlot node slot (.leaf leaf))
        { state with index := state.index + step, nb := state.nb - step }
    else do
      let (entry, state) ← descend (node slot) state
      setSlots leaf step descend remaining (slot + 1) (setSlot node slot entry) state

/-- The body of `phys_page_set_level`, by the level below. -/
def setNode (leaf level : Nat)
    (descend : PhysPageEntry → SetState → Option (PhysPageEntry × SetState))
    (lp : PhysPageEntry) (state : SetState) : Option (PhysPageEntry × SetState) := do
  let (skip, node, map) ←
    match lp with
    | .leaf _ => none -- The section number would be taken for a node number.
    | .empty skip => do
      let (node, map) ← physMapNodeAlloc state.map (level = 0)
      some (skip, node, map)
    | .inner skip node => some (skip, node, state.map)
  let slot := slotAt level state.index
  let (node, state) ← setSlots leaf (2 ^ (level * pL2Bits)) descend (pL2Size - slot) slot node
    { state with map := map }
  return (.inner skip node, state)

/-- Point a run of pages to a section. -/
def physPageSetLevel (leaf : Nat) : Nat → PhysPageEntry → SetState →
    Option (PhysPageEntry × SetState)
  | 0 => setNode leaf 0 fun _ _ => none -- There is no level below the lowest.
  | level + 1 => setNode leaf (level + 1) (physPageSetLevel leaf level)

/-- Whether an entry counts as a child, that is, does not hold `PHYS_MAP_NODE_NIL`. -/
def PhysPageEntry.valid : PhysPageEntry → Bool
  | .empty _ => false
  | _ => true

/-- The slots of the children of a node, in order. -/
def validSlots (node : Nat → PhysPageEntry) : List Nat :=
  (List.range pL2Size).filter fun slot => (node slot).valid

/-- The end of `phys_page_compact`: a single child replaces the entry. -/
def skipSingle (skip : Nat) (children : Nat → PhysPageEntry) : List Nat → PhysPageEntry
  | [validPtr] =>
    match children validPtr with
    | .leaf ptr => .leaf ptr
    | .empty skip' => .empty (skip + skip')
    -- The number of levels is far below 64, so the sum of two skips always fits its field.
    | .inner skip' node => .inner (skip + skip') node
  | _ => .inner skip children

/-- Skip nodes with a single child. -/
def physPageCompact : PhysPageEntry → PhysPageEntry
  | .leaf ptr => .leaf ptr
  | .empty skip => .empty skip
  | .inner skip node => skipSingle skip (fun slot => physPageCompact (node slot)) (validSlots node)

/-- The walk of `phys_page_find` with the levels that are left; no result if it ends at an entry
that is no leaf. -/
def physPageWalk (index : Nat) : PhysPageEntry → Nat → Option Nat
  | .leaf ptr, _ => some ptr
  | .empty skip, levels => if skip ≤ levels then some physSectionUnassigned else none
  | .inner skip node, levels =>
    if skip ≤ levels then physPageWalk index (node (slotAt (levels - skip) index))
      (levels - skip) else none

end Qemu.Exec
