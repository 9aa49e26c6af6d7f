import Mathlib.Data.Finset.Image
import Mathlib.Order.Iterate
import Mathlib.Algebra.Group.Nat.Defs

/-! Sets of numbers from a height: a step up keeps one for each block. -/

namespace Pyramid

variable {width : Nat} {height index : Nat} {members : Finset Nat} {places : Nat}

/-- The blocks that a set meets, as many steps up as given. -/
def coarsen (width height : Nat) (members : Finset Nat) : Finset Nat :=
  members.image (· / width ^ height)

/-- The blocks that a number of places fills, at least one. -/
def blocks (width places : Nat) : Nat := max ((places + width - 1) / width) 1

theorem mem_coarsen : index ∈ coarsen width height members ↔ ∃ mem ∈ members,
    mem / width ^ height = index :=
  Finset.mem_image

@[simp] theorem coarsen_zero (members : Finset Nat) : coarsen width 0 members = members := by
  ext index
  simp [mem_coarsen]

theorem mem_coarsen_succ :
    index ∈ coarsen width (height + 1) members ↔
        ∃ below ∈ coarsen width height members, below / width = index := by
  simp only [mem_coarsen, exists_exists_and_eq_and, Nat.div_div_eq_div_mul, ← Nat.pow_succ]

theorem coarsen_congr {height' members'} (higher : height ≤ height')
    (same : coarsen width height members = coarsen width height members') :
    coarsen width height' members = coarsen width height' members' := by
  induction higher with
  | refl => exact same
  | step _ ih =>
    ext index
    rw [mem_coarsen_succ, mem_coarsen_succ, ih]

theorem div_lt_blocks (pos : 0 < width) {place} (within : place < places) :
    place / width < blocks width places := by
  have counted : place / width < (places + width - 1) / width := by
    rw [Nat.div_lt_iff_lt_mul pos]
    have split := Nat.div_add_mod (places + width - 1) width
    have rest := Nat.mod_lt (places + width - 1) pos
    rw [Nat.mul_comm] at split
    omega
  exact lt_of_lt_of_le counted (Nat.le_max_left _ _)

/-- Members below a size stay below its blocks at every height. -/
theorem lt_of_mem_coarsen (pos : 0 < width) {size}
    (within : ∀ mem ∈ members, mem < size) (mem : index ∈ coarsen width height members) :
    index < (blocks width)^[height] size := by
  induction height generalizing index with
  | zero =>
    rw [coarsen_zero] at mem
    exact within index mem
  | succ height ih =>
    obtain ⟨below, isMember, rfl⟩ := mem_coarsen_succ.mp mem
    rw [Function.iterate_succ_apply']
    exact div_lt_blocks pos (ih isMember)

theorem blocks_mono : Monotone (blocks width) := fun _ _ order =>
  max_le_max (Nat.div_le_div_right (by omega)) le_rfl

theorem blocks_le (pos : 0 < width) {bound} (some_ : 0 < bound) (fits : places ≤ bound * width) :
    blocks width places ≤ bound := by
  refine Nat.max_le.mpr ⟨?_, some_⟩
  rw [Nat.div_le_iff_le_mul_add_pred pos, Nat.mul_comm]
  omega

theorem iterate_blocks_le (pos : 0 < width) {bound} (some_ : 0 < bound)
    (fits : places ≤ bound * width ^ height) : (blocks width)^[height] places ≤ bound := by
  induction height generalizing places with
  | zero => simpa using fits
  | succ height ih =>
    rw [Function.iterate_succ_apply]
    refine ih (blocks_le pos (Nat.mul_pos some_ (Nat.pow_pos pos)) ?_)
    rwa [Nat.mul_assoc, ← Nat.pow_succ]

end Pyramid
