import Mathlib.Data.List.Basic
import Mathlib.Data.Int.Order.Basic

/-! Sorted disjoint half-open intervals as partial functions. -/

namespace Tiling

open List

variable {ρ : Type*} (start stop : ρ → Int) {bound : Int} {tiles : List ρ} {tile : ρ}

/-- Nonempty intervals in increasing order from a bound on. -/
def TiledFrom : Int → List ρ → Prop
  | _, [] => True
  | bound, tile :: rest => bound ≤ start tile ∧ start tile < stop tile ∧ TiledFrom (stop tile) rest

def covering (tiles : List ρ) (address : Int) : Option ρ :=
  tiles.find? fun tile => start tile ≤ address ∧ address < stop tile

variable {start stop}

theorem TiledFrom.mono {bound'} (lower : bound' ≤ bound)
    (tiled : TiledFrom start stop bound tiles) : TiledFrom start stop bound' tiles := by
  cases tiles with
  | nil => trivial
  | cons tile rest =>
    obtain ⟨first, nonempty, rest⟩ := tiled
    exact ⟨by omega, nonempty, rest⟩

section

variable (tiled : TiledFrom start stop bound tiles)

include tiled

theorem TiledFrom.bounds (mem : tile ∈ tiles) : bound ≤ start tile ∧ start tile < stop tile := by
  induction tiles generalizing bound with
  | nil => simp at mem
  | cons head rest ih =>
    obtain ⟨first, nonempty, later⟩ := tiled
    rcases mem_cons.mp mem with same | mem
    · subst tile
      exact ⟨first, nonempty⟩
    · -- A later interval begins after the end of the head.
      have after := ih later mem
      exact ⟨by omega, after.2⟩

theorem TiledFrom.pairwise : tiles.Pairwise fun left right => stop left ≤ start right := by
  induction tiles generalizing bound with
  | nil => exact List.Pairwise.nil
  | cons head rest ih =>
    obtain ⟨_, _, later⟩ := tiled
    exact List.Pairwise.cons (fun tile mem => (later.bounds mem).1) (ih later)

/-- Earlier tiles stand in the relation to later ones. -/
theorem TiledFrom.rel_of_start_lt {related} (pairs : tiles.Pairwise related) {left right}
    (here : left ∈ tiles) (there : right ∈ tiles)
    (before : start left < start right) : related left right := by
  induction tiles generalizing bound with
  | nil => simp at here
  | cons head rest ih =>
    obtain ⟨_, nonempty, later⟩ := tiled
    obtain ⟨first, others⟩ := pairwise_cons.mp pairs
    rcases mem_cons.mp here with rfl | leftLater
    · rcases mem_cons.mp there with rfl | rightLater
      · omega
      · exact first right rightLater
    rcases mem_cons.mp there with rfl | rightLater
    · -- A tile of the rest cannot begin before the head.
      have after := (later.bounds leftLater).1
      omega
    · exact ih later others leftLater rightLater

end

theorem tiledFrom_of_pairwise
    (lower : ∀ tile ∈ tiles, bound ≤ start tile) (nonempty : ∀ tile ∈ tiles, start tile < stop tile)
    (ordered : tiles.Pairwise fun left right => stop left ≤ start right) :
    TiledFrom start stop bound tiles := by
  induction tiles generalizing bound with
  | nil => trivial
  | cons head rest ih =>
    obtain ⟨before, ordered⟩ := pairwise_cons.mp ordered
    exact ⟨lower _ mem_cons_self, nonempty _ mem_cons_self,
      ih before (fun tile mem => nonempty tile (mem_cons_of_mem _ mem)) ordered⟩

theorem covering_cons (head : ρ) (rest : List ρ) (address) :
    covering start stop (head :: rest) address =
      if start head ≤ address ∧ address < stop head then some head
      else covering start stop rest address := by
  unfold covering
  by_cases here : start head ≤ address ∧ address < stop head
  · rw [if_pos here, find?_cons_of_pos (by simpa using here)]
  · rw [if_neg here, find?_cons_of_neg (by simpa using here)]

variable {address : Int}

theorem TiledFrom.covering_below (tiled : TiledFrom start stop bound tiles)
    (below : address < bound) : covering start stop tiles address = none := by
  apply find?_eq_none.mpr
  intro tile mem
  have after := (tiled.bounds mem).1
  simp only [decide_eq_true_eq]
  omega

theorem mem_of_covering (found : covering start stop tiles address = some tile) :
    tile ∈ tiles ∧ start tile ≤ address ∧ address < stop tile :=
  ⟨mem_of_find?_eq_some found, by simpa using find?_some found⟩

/-- An address inside a tile is covered by that tile. -/
theorem TiledFrom.covering_of_mem (tiled : TiledFrom start stop bound tiles) (mem : tile ∈ tiles)
    (lower : start tile ≤ address) (upper : address < stop tile) :
    covering start stop tiles address = some tile := by
  induction tiles generalizing bound with
  | nil => simp at mem
  | cons head rest ih =>
    obtain ⟨_, _, later⟩ := tiled
    rw [covering_cons]
    rcases mem_cons.mp mem with same | mem
    · subst tile
      rw [if_pos ⟨lower, upper⟩]
    · -- The head ends before any later interval begins.
      have after := (later.bounds mem).1
      rw [if_neg (by omega)]
      exact ih later mem

end Tiling
