import Mathlib.Order.Interval.Finset.Nat

/-! `qemu_iovec_clone`: elements overlap in the clone as in the source. -/

namespace Qemu.Iovec

open Finset

structure Iov where
  base : Nat
  len : Nat

/-- The loop over the sorted elements, each with its `src_index`. -/
def allocate (lastEnd buf : Nat) (destBase : Nat → Nat) : List (Nat × Iov) → (Nat → Nat) × Nat
  | [] => (destBase, buf)
  | (srcIndex, cur) :: rest =>
    let rewind := if lastEnd ≠ 0 ∧ cur.base < lastEnd then lastEnd - cur.base else 0
    allocate (max (cur.base + cur.len) lastEnd) (buf + (cur.len - min rewind cur.len))
      (Function.update destBase srcIndex (buf - rewind)) rest

/-- For the order in which `qsort` leaves the elements. -/
def qemuIovecClone (src : List Iov) (sortelems : List (Nat × Iov)) (buf : Nat) : List Iov × Nat :=
  let placed := allocate 0 buf (fun _ => 0) sortelems
  (src.mapIdx fun i cur => ⟨placed.1 i, cur.len⟩, placed.2)

/-- What `qsort` makes of the elements. -/
structure SortsByBase (src : List Iov) (sortelems : List (Nat × Iov)) : Prop where
  mem : ∀ i cur, (i, cur) ∈ sortelems ↔ src[i]? = some cur
  sorted : sortelems.Pairwise fun a b => a.2.base ≤ b.2.base

def bytes (cur : Iov) : Finset Nat := Ico cur.base (cur.base + cur.len)

/-- The bytes that a vector refers to, each counted once. -/
def union : List Iov → Finset Nat
  | [] => ∅
  | cur :: rest => bytes cur ∪ union rest

theorem mem_union {vector p} : p ∈ union vector ↔ ∃ cur ∈ vector, p ∈ bytes cur := by
  induction vector with
  | nil => simp [union]
  | cons cur rest ih => simp [union, ih]

/-- Sorting a vector does not change the bytes that it refers to. -/
theorem SortsByBase.union_eq (sorts : SortsByBase src elems) :
    union (elems.map Prod.snd) = union src := by
  ext p
  rw [mem_union, mem_union]
  constructor
  · rintro ⟨cur, mem, inside⟩
    obtain ⟨⟨i, cur⟩, here, rfl⟩ := List.mem_map.mp mem
    exact ⟨cur, List.mem_of_getElem? ((sorts.mem i cur).mp here), inside⟩
  · rintro ⟨cur, mem, inside⟩
    obtain ⟨i, found⟩ := List.mem_iff_getElem?.mp mem
    exact ⟨cur, List.mem_map.mpr ⟨(i, cur), (sorts.mem i cur).mpr found, rfl⟩, inside⟩

def rank (taken : Finset Nat) (p : Nat) : Nat := (taken.filter (· < p)).card

variable {taken : Finset Nat} {lastEnd buf p q : Nat} {cur : Iov} {src : List Iov}
    {elems : List (Nat × Iov)}

theorem rank_lt (mem : p ∈ taken) (less : p < q) : rank taken p < rank taken q := by
  refine card_lt_card ⟨fun r below => ?_, fun subset => ?_⟩
  · simp only [mem_filter] at below ⊢
    exact ⟨below.1, below.2.trans less⟩
  · have := subset (mem_filter.mpr ⟨mem, less⟩)
    simp at this

theorem rank_lt_card (mem : p ∈ taken) : rank taken p < taken.card :=
  card_lt_card (filter_ssubset.mpr ⟨p, mem, Nat.lt_irrefl p⟩)

theorem rank_union {more} (above : ∀ r ∈ more, p ≤ r) : rank (taken ∪ more) p = rank taken p := by
  refine congrArg card (Finset.ext fun r => ?_)
  have := above r
  simp only [mem_filter, Finset.mem_union]
  grind

/-- Over a gapless run the rank grows by its length. -/
theorem rank_add (inside : ∀ r, p ≤ r → r < q → r ∈ taken) (order : p ≤ q) :
    rank taken q = rank taken p + (q - p) := by
  have split : {r ∈ taken | r < q} = {r ∈ taken | r < p} ∪ Ico p q := by
    ext r
    have := inside r
    simp only [mem_filter, Finset.mem_union, mem_Ico]
    grind
  have apart : Disjoint {r ∈ taken | r < p} (Ico p q) := by
    simp only [disjoint_left, mem_filter, mem_Ico]
    grind
  rw [rank, split, card_union_of_disjoint apart, Nat.card_Ico, rank]

theorem rank_end (bound : ∀ r ∈ taken, r < p) : rank taken p = taken.card := by
  rw [rank, filter_true_of_mem bound]

theorem card_eq_rank_add (bound : ∀ r ∈ taken, r < q) (dense : ∀ r, p ≤ r → r < q → r ∈ taken) :
    taken.card = rank taken p + (q - p) := by
  by_cases order : p ≤ q
  · rw [← rank_add dense order, rank_end bound]
  · rw [rank_end fun r mem => (bound r mem).trans (by omega)]
    omega

/-- The bytes taken so far end at `last_end`, and have no gap from the next element on. -/
structure Filled (taken : Finset Nat) (lastEnd : Nat) (elems : List (Nat × Iov)) : Prop where
  bound : ∀ p ∈ taken, p < lastEnd
  dense : ∀ elem ∈ elems, ∀ p, elem.2.base ≤ p → p < lastEnd → p ∈ taken

/-- In order of their bases the elements leave no gap behind. -/
theorem Filled.step {i rest} (filled : Filled taken lastEnd ((i, cur) :: rest))
    (sorted : ∀ elem ∈ rest, cur.base ≤ elem.2.base) :
    Filled (taken ∪ bytes cur) (max (cur.base + cur.len) lastEnd) rest := by
  constructor
  · intro p mem
    have := filled.bound p
    simp only [Finset.mem_union, bytes, mem_Ico] at mem
    grind
  · intro elem mem p above below
    have := filled.dense elem (List.mem_cons_of_mem _ mem) p above
    have := sorted elem mem
    simp only [Finset.mem_union, bytes, mem_Ico]
    grind

/-- Each element is put at the rank of its base. -/
theorem allocate_spec (start) {elems destBase}
    (sorted : elems.Pairwise fun a b => a.2.base ≤ b.2.base) (filled : Filled taken lastEnd elems)
    (used : buf = start + taken.card) :
    (allocate lastEnd buf destBase elems).2 = start + (taken ∪ union (elems.map Prod.snd)).card ∧
      ∀ i, (allocate lastEnd buf destBase elems).1 i = destBase i ∧ (∀ cur, (i, cur) ∉ elems) ∨
        ∃ cur, (i, cur) ∈ elems ∧
          (allocate lastEnd buf destBase elems).1 i = start +
              rank (taken ∪ union (elems.map Prod.snd)) cur.base := by
  induction elems generalizing taken lastEnd buf destBase with
  | nil => simp [allocate, union, used]
  | cons elem rest ih =>
    obtain ⟨i, cur⟩ := elem
    obtain ⟨least, sorted⟩ := List.pairwise_cons.mp sorted
    have next := filled.step least
    have dense : ∀ r, cur.base ≤ r → r < lastEnd → r ∈ taken := filled.dense _ List.mem_cons_self
    -- What is taken is what ranks below the element plus the overlap.
    have before := card_eq_rank_add filled.bound dense
    have after := card_eq_rank_add (p := cur.base) next.bound fun r above below => by
      have := dense r above
      simp only [Finset.mem_union, bytes, mem_Ico]
      grind
    have low := @rank_union taken cur.base (bytes cur) fun r mem => (mem_Ico.mp mem).1
    have whole := @rank_union taken cur.base (union (cur :: rest.map Prod.snd)) fun r mem => by
      obtain ⟨other, found, inside⟩ := mem_union.mp mem
      rcases List.mem_cons.mp found with rfl | found
      · exact (mem_Ico.mp inside).1
      · obtain ⟨elem, later, rfl⟩ := List.mem_map.mp found
        exact (least elem later).trans (mem_Ico.mp inside).1
    have rewind_eq : (if lastEnd ≠ 0 ∧ cur.base < lastEnd then lastEnd - cur.base else 0) =
        lastEnd - cur.base := by
      split <;> omega
    obtain ⟨stop, later⟩ :=
      @ih _ _ _ (Function.update destBase i (buf - (lastEnd - cur.base))) sorted next
      (show buf + (cur.len - min (lastEnd - cur.base) cur.len) = start +
        (taken ∪ bytes cur).card by omega)
    rw [Finset.union_assoc] at stop later
    rw [allocate, rewind_eq]
    refine ⟨stop, fun k => ?_⟩
    rcases later k with ⟨kept, absent⟩ | ⟨cur', found, base⟩
    · by_cases same : k = i
      · -- This turn is the last to set the base.
        subst same
        refine .inr ⟨cur, List.mem_cons_self, ?_⟩
        rw [kept, List.map_cons, whole, Function.update_self]
        omega
      · exact .inl ⟨by rw [kept, Function.update_of_ne same], by simp [same, absent]⟩
    · exact .inr ⟨cur', List.mem_cons_of_mem _ found, base⟩

/-- Each buffer moves to its rank within the union. -/
theorem SortsByBase.clone_spec (sorts : SortsByBase src elems) (buf) :
    (qemuIovecClone src elems buf).2 = buf + (union src).card ∧
      ∀ (i : Nat) (cur : Iov), src[i]? = some cur →
        (qemuIovecClone src elems buf).1[i]? = some ⟨buf + rank (union src) cur.base, cur.len⟩ := by
  obtain ⟨stop, placed⟩ := @allocate_spec ∅ 0 buf buf _ (fun _ => 0)
    sorts.sorted ⟨by simp, by simp⟩ rfl
  rw [Finset.empty_union, sorts.union_eq] at stop placed
  refine ⟨stop, fun i cur elem => ?_⟩
  rcases placed i with ⟨_, absent⟩ | ⟨cur', mem, base⟩
  · exact absurd ((sorts.mem i cur).mpr elem) (absent cur)
  · rw [sorts.mem, elem] at mem
    obtain rfl := Option.some.inj mem
    simp [qemuIovecClone, List.getElem?_mapIdx, elem, base]

/-- The bytes of an element follow its base in the union without a gap. -/
theorem rank_byte {i x : Nat} (elem : src[i]? = some cur)
    (inside : x < cur.len) : cur.base + x ∈ union src ∧
      rank (union src) cur.base + x = rank (union src) (cur.base + x) := by
  have mem (r : Nat) (within : cur.base ≤ r ∧ r < cur.base + cur.len) : r ∈ union src :=
    mem_union.mpr ⟨cur, List.mem_of_getElem? elem, mem_Ico.mpr within⟩
  have added := @rank_add _ cur.base (cur.base + x) (fun r _ _ => mem r (by omega)) (by omega)
  exact ⟨mem _ (by omega), by omega⟩

/-- A clone has the lengths of its source, takes as many bytes as the source refers to, and two
bytes of it are the same exactly if they are in the source. -/
theorem qemuIovecClone_aliases (sorts : SortsByBase src elems) (buf : Nat) :
    let (dest, stop) := qemuIovecClone src elems buf
    dest.map (·.len) = src.map (·.len) ∧ stop = buf + (union src).card ∧
      ∀ (i j : Nat) (a b : Iov), src[i]? = some a → src[j]? = some b →
        ∃ a' b', dest[i]? = some a' ∧ dest[j]? = some b' ∧ ∀ x < a.len, a'.base + x ∈ Ico buf stop ∧
          ∀ y < b.len, (a'.base + x = b'.base + y ↔ a.base + x = b.base + y) := by
  obtain ⟨stop, placed⟩ := sorts.clone_spec buf
  refine ⟨?_, stop, fun i j a b atI atJ => ⟨_, _, placed i a atI, placed j b atJ, fun x inA => ?_⟩⟩
  · simp [List.ext_getElem?_iff, Function.comp_def]
  obtain ⟨memA, placeA⟩ := rank_byte atI inA
  have less := rank_lt_card memA
  refine ⟨mem_Ico.mpr ⟨by simp only; omega, stop ▸ by simp only; omega⟩, fun y inB => ?_⟩
  obtain ⟨memB, placeB⟩ := rank_byte atJ inB
  simp only [Nat.add_assoc, placeA, placeB, Nat.add_left_cancel_iff]
  rcases Nat.lt_trichotomy (a.base + x) (b.base + y) with less | same | more
  · have := rank_lt memA less
    omega
  · simp [same]
  · have := rank_lt memB more
    omega

/-- Two elements that share two bytes take eight. -/
theorem qemuIovecClone_aliases_sample :
    (qemuIovecClone [⟨12, 6⟩, ⟨10, 4⟩] [(1, ⟨10, 4⟩), (0, ⟨12, 6⟩)] 100).2 = 108 := by
  have sorts : SortsByBase [⟨12, 6⟩, ⟨10, 4⟩] [(1, ⟨10, 4⟩), (0, ⟨12, 6⟩)] := by
    refine ⟨fun i cur => ?_, by simp⟩
    rcases i with _ | _ | i <;> simp [eq_comm]
  exact (qemuIovecClone_aliases sorts 100).2.1

end Qemu.Iovec
