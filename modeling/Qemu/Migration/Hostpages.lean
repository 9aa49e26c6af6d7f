import Mathlib.Algebra.GroupWithZero.Nat
import Mathlib.Data.Finset.Card

/-! Whole host pages become dirty for postcopy: `postcopy_chunk_hostpages_pass` of
`migration/ram.c`. -/

namespace Qemu.Migration

open Finset

/-- `find_next_bit` and `find_next_zero_bit`: the first position from `offset` on that passes a
test, or the size. -/
def findNext (test : Nat → Bool) (size offset : Nat) : Nat :=
  ((List.range' offset (size - offset)).find? test).getD size

/-- The dirty pages of a block, and `migration_dirty_pages`. -/
structure DirtyPages where
  bmap : Finset Nat
  count : Nat

/-- The loop that marks all pages of a host page, counting those that were clean. -/
def DirtyPages.mark (dirty : DirtyPages) : List Nat → DirtyPages
  | [] => dirty
  | page :: rest =>
    let count := dirty.count + if page ∈ dirty.bmap then 0 else 1
    mark ⟨insert page dirty.bmap, count⟩ rest

/-- The loop of `postcopy_chunk_hostpages_pass`, with a bound on its rounds. -/
def chunkLoop (hostRatio pages : Nat) : Nat → Nat → DirtyPages → Option DirtyPages
  | 0, _, _ => none
  | rounds + 1, runStart, dirty =>
    if runStart < pages then
      let runStart := if runStart % hostRatio = 0 then findNext (· ∉ dirty.bmap) pages
        (runStart + 1) else runStart
      if runStart % hostRatio ≠ 0 then
        let fixupStartAddr := runStart / hostRatio * hostRatio
        let runStart := (runStart + hostRatio - 1) / hostRatio * hostRatio
        let dirty := dirty.mark (List.range' fixupStartAddr hostRatio)
        chunkLoop hostRatio pages rounds (findNext (· ∈ dirty.bmap) pages runStart) dirty
      else chunkLoop hostRatio pages rounds (findNext (· ∈ dirty.bmap) pages runStart) dirty
    else some dirty

/-- Nothing is to be done if host pages are target pages. -/
def postcopyChunkHostpagesPass (hostRatio pages : Nat) (dirty : DirtyPages) : Option DirtyPages :=
  if hostRatio = 1 then some dirty
  else chunkLoop hostRatio pages (pages + 1) (findNext (· ∈ dirty.bmap) pages 0) dirty

/-- `find_next_bit` answers the first position from the offset on. -/
theorem findNext_spec {test size offset found} (eq : findNext test size offset = found) :
    (∀ p, offset ≤ p → p < found → test p = false) ∧
    (found = size ∨ offset ≤ found ∧ found < size ∧ test found) := by
  rw [findNext] at eq
  cases first : (List.range' offset (size - offset)).find? test with
  | none =>
    rw [first] at eq
    rw [List.find?_range'_eq_none] at first
    exact ⟨fun p lower upper => by simpa using first p lower (by grind), .inl eq.symm⟩
  | some q =>
    obtain rfl : q = found := by rwa [first] at eq
    rw [List.find?_range'_eq_some, List.mem_range'_1] at first
    exact ⟨fun p lower before => by simpa using first.2.2 p lower before,
      .inr ⟨first.2.1.1, by omega, first.1⟩⟩

theorem DirtyPages.mem_mark {dirty : DirtyPages} {list : List Nat} {p : Nat} :
    p ∈ (dirty.mark list).bmap ↔ p ∈ dirty.bmap ∨ p ∈ list := by
  induction list generalizing dirty with
  | nil => simp [mark]
  | cons page rest ih =>
    rw [mark, ih]
    simp [or_assoc, or_left_comm]

/-- What is marked is counted. -/
theorem DirtyPages.count_mark (dirty : DirtyPages) (list : List Nat) :
    (dirty.mark list).count + dirty.bmap.card = dirty.count + (dirty.mark list).bmap.card := by
  induction list generalizing dirty with
  | nil => rfl
  | cons page rest ih =>
    have step := ih ⟨insert page dirty.bmap, dirty.count + if page ∈ dirty.bmap then 0 else 1⟩
    rw [mark]
    split at step <;> simp_all
    omega

def HostDirty (bmap : Finset Nat) (hostRatio pages host : Nat) : Prop :=
  ∃ q ∈ bmap, q < pages ∧ q / hostRatio = host

/-- The host pages before the `k`-th are done. -/
structure Done (hostRatio pages : Nat) (before : DirtyPages) (k : Nat)
    (dirty : DirtyPages) : Prop where
  mem : ∀ p, p ∈ dirty.bmap ↔
    p ∈ before.bmap ∨ p / hostRatio < k ∧ HostDirty before.bmap hostRatio pages (p / hostRatio)
  count : dirty.count + before.bmap.card = before.count + dirty.bmap.card

variable {r pages k j p : Nat} {before dirty : DirtyPages}

theorem Done.same (done : Done r pages before k dirty) (later : k ≤ p / r) :
    p ∈ dirty.bmap ↔ p ∈ before.bmap := by
  rw [done.mem, or_iff_left]
  omega

/-- Host pages that are clean or dirty throughout are done. -/
theorem Done.extend (done : Done r pages before k dirty) (order : k ≤ j)
    (uniform : ∀ p, k ≤ p / r → p / r < j →
      HostDirty before.bmap r pages (p / r) → p ∈ before.bmap) :
    Done r pages before j dirty := by
  refine ⟨fun p => ?_, done.count⟩
  have := uniform p
  rw [done.mem]
  grind

/-- A host page found dirty is marked whole. -/
theorem Done.mark (pos : 0 < r) (done : Done r pages before j dirty)
    (host : HostDirty before.bmap r pages j) :
    Done r pages before (j + 1) (dirty.mark (List.range' (j * r) r)) := by
  refine ⟨fun p => ?_, ?_⟩
  · have inside : p ∈ List.range' (j * r) r ↔ p / r = j := by
      rw [List.mem_range'_1, ← Nat.le_div_iff_mul_le
        pos, ← Nat.add_one_mul, ← Nat.div_lt_iff_lt_mul pos]
      omega
    rw [DirtyPages.mem_mark, done.mem, inside, Nat.lt_succ_iff_lt_or_eq]
    grind
  · have marked := dirty.count_mark (List.range' (j * r) r)
    have := done.count
    omega

/-- The search for the end of a run passes host pages that are done, and stops at one or inside a
dirty one. -/
theorem Done.run (pos : 0 < r) (done : Done r pages before k dirty) {start stop : Nat}
    (start_eq : findNext (· ∈ dirty.bmap) pages (k * r) = start) (inside : start < pages)
    (stop_eq : (if start % r = 0 then findNext (· ∉ dirty.bmap) pages (start + 1) else start) =
      stop) :
    k ≤ stop / r ∧ Done r pages before (stop / r) dirty ∧ (stop % r = 0 → k < stop / r) ∧
      (stop % r ≠ 0 → HostDirty before.bmap r pages (stop / r)) := by
  obtain ⟨first, at_end | ⟨lower, -, isDirty⟩⟩ := findNext_spec start_eq
  · omega
  have least : k ≤ start / r := (Nat.le_div_iff_mul_le pos).mpr lower
  rw [decide_eq_true_iff, done.same least] at isDirty
  -- Nothing is dirty up to the start of the run.
  have clean : ∀ p, k ≤ p / r → p / r < start / r → ¬ HostDirty before.bmap r pages (p / r) := by
    rintro p lower upper ⟨q, mem, -, same⟩
    rw [← same] at lower upper
    have := first q ((Nat.le_div_iff_mul_le pos).mp lower) (Nat.lt_of_div_lt_div upper)
    rw [decide_eq_false_iff_not, done.same lower] at this
    exact this mem
  split at stop_eq
  · rename_i aligned
    have whole := Nat.div_mul_cancel (Nat.dvd_of_mod_eq_zero aligned)
    obtain ⟨dirtyRun, bound⟩ := findNext_spec stop_eq
    have order : start / r ≤ stop / r := Nat.div_le_div_right (by omega)
    have run : ∀ p, start ≤ p → p < stop → p ∈ before.bmap := by
      intro p lower upper
      rcases Nat.eq_or_lt_of_le lower with rfl | lower
      · exact isDirty
      · have := dirtyRun p lower upper
        rwa [decide_eq_false_iff_not, not_not,
          done.same (least.trans (Nat.div_le_div_right (by omega)))] at this
    refine ⟨by omega, done.extend (by omega) fun p lower upper host => ?_,
      fun aligned => ?_, fun ragged => ?_⟩
    · by_cases earlier : p / r < start / r
      · exact absurd host (clean _ lower earlier)
      · refine run p ?_ (Nat.lt_of_div_lt_div upper)
        rw [← whole, ← Nat.le_div_iff_mul_le pos]
        omega
    · refine least.trans_lt (lt_of_le_of_ne order fun same => ?_)
      have := Nat.div_mul_cancel (Nat.dvd_of_mod_eq_zero aligned)
      rw [← same, whole] at this
      omega
    · have split_ := Nat.div_add_mod' stop r
      have := Nat.mul_le_mul_right r order
      exact ⟨stop / r * r, run _ (by omega) (by omega), by omega, Nat.mul_div_cancel _ pos⟩
  · obtain rfl := stop_eq
    exact ⟨least, done.extend least fun p lower upper host => absurd host (clean p lower upper),
      fun aligned => absurd aligned ‹_›, fun _ => ⟨start, isDirty, inside, rfl⟩⟩

theorem alignUp_eq (pos : 0 < r) {n : Nat} (ragged : n % r ≠ 0) : (n + r - 1) / r = n / r + 1 := by
  have split_ := Nat.div_add_mod' n r
  have less := Nat.mod_lt n pos
  have next := Nat.add_one_mul (n / r) r
  have next' := Nat.add_one_mul (n / r + 1) r
  apply Nat.div_eq_of_lt_le <;> omega

/-- The loop does the remaining host pages, in each round at least one. -/
theorem Done.loop (pos : 0 < r) {rounds : Nat} (done : Done r pages before k dirty)
    (enough : pages - k < rounds) :
    ∃ dirty' k', chunkLoop r pages rounds (findNext (· ∈ dirty.bmap) pages (k * r)) dirty =
      some dirty' ∧
      Done r pages before k' dirty' ∧ ∀ host, HostDirty before.bmap r pages host → host < k' := by
  induction rounds generalizing k dirty with
  | zero => omega
  | succ rounds ih =>
    generalize start_eq : findNext (· ∈ dirty.bmap) pages (k * r) = start
    have first := findNext_spec start_eq
    rw [chunkLoop]
    by_cases inside : start < pages
    · rw [if_pos inside]
      have early := Nat.le_mul_of_pos_right k pos
      generalize stop_eq : (if start % r = 0 then findNext (· ∉ dirty.bmap) pages
        (start + 1) else start) = stop
      -- Everything is done up to the end of the run; the host page it ends in, if any, is marked.
      obtain ⟨least, done, further, host⟩ := done.run pos start_eq inside stop_eq
      by_cases aligned : stop % r = 0
      · have whole := Nat.div_mul_cancel (Nat.dvd_of_mod_eq_zero aligned)
        have := further aligned
        simp only [aligned, ne_eq, not_true_eq_false, if_false]
        exact whole ▸ ih done (by omega)
      · simp only [aligned, ne_eq, not_false_eq_true, if_true, alignUp_eq pos aligned]
        exact ih (done.mark pos (host aligned)) (by omega)
    · -- No page is dirty up to the length.
      refine ⟨dirty, k, if_neg inside, done, fun host ⟨q, mem, less, here⟩ => ?_⟩
      by_contra later
      rw [← here, not_lt] at later
      have := first.1 q ((Nat.le_div_iff_mul_le pos).mp later) (by omega)
      rw [decide_eq_false_iff_not, done.same later] at this
      exact this mem

/-- Exactly the pages of dirty host pages become dirty, and are counted. That changes no bit beyond
the block's length unless the last host page is dirty, not whole, and not dirty beyond the length.
-/
theorem postcopyChunkHostpagesPass_exact_iff (order pages : Nat) (dirty : DirtyPages) :
    ∃ dirty', postcopyChunkHostpagesPass (2 ^ order) pages dirty = some dirty' ∧
      (∀ p < pages, p ∈ dirty'.bmap ↔ ∃ q ∈ dirty.bmap, q < pages ∧ q / 2 ^ order = p / 2 ^ order) ∧
      dirty'.count = dirty.count + (dirty'.bmap \ dirty.bmap).card ∧
      ((∀ p, pages ≤ p → (p ∈ dirty'.bmap ↔ p ∈ dirty.bmap)) ↔
        ∀ q ∈ dirty.bmap, q < pages → ∀ p, pages ≤ p →
            p / 2 ^ order = q / 2 ^ order → p ∈ dirty.bmap) := by
  obtain ⟨dirty', passed, mem, count⟩ : ∃ dirty',
    postcopyChunkHostpagesPass (2 ^ order) pages dirty = some dirty' ∧
      (∀ p, p ∈ dirty'.bmap ↔ p ∈ dirty.bmap ∨
        HostDirty dirty.bmap (2 ^ order) pages (p / 2 ^ order)) ∧
      dirty'.count + dirty.bmap.card = dirty.count + dirty'.bmap.card := by
    unfold postcopyChunkHostpagesPass
    split
    · rename_i single
      exact ⟨dirty, rfl, by simp +contextual [single, HostDirty], rfl⟩
    · have start : Done (2 ^ order) pages dirty 0 dirty := ⟨by simp, rfl⟩
      obtain ⟨dirty', k, passed, done, all⟩ :=
        start.loop (Nat.two_pow_pos order) (Nat.lt_succ_self pages)
      rw [Nat.zero_mul] at passed
      exact ⟨dirty', passed, fun p => by rw [done.mem, and_iff_right_of_imp (all _)], done.count⟩
  have subset : dirty.bmap ⊆ dirty'.bmap := fun p isDirty => (mem p).mpr (.inl isDirty)
  refine ⟨dirty', passed, fun p less => ?_, ?_, ?_⟩
  · rw [mem, or_iff_right_of_imp fun isDirty => ⟨p, isDirty, less, rfl⟩, HostDirty]
  · have := card_le_card subset
    rw [card_sdiff_of_subset subset]
    omega
  · simp only [mem, or_iff_left_iff_imp, HostDirty]
    grind

/-- A block of three target pages in host pages of two: the fourth page becomes dirty and is
counted. -/
theorem postcopyChunkHostpagesPass_beyond :
    ∃ dirty', postcopyChunkHostpagesPass 2 3 ⟨{2}, 1⟩ = some dirty' ∧
      3 ∈ dirty'.bmap ∧ dirty'.count = 2 :=
  ⟨_, rfl, by decide +kernel, by decide +kernel⟩

end Qemu.Migration
