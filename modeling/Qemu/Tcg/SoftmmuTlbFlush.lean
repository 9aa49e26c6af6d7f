import Qemu.Tcg.SoftmmuTlb

/-! A page flush leaves nothing stale, and one entry at most hits a page. -/

namespace Qemu.Softmmu

open HighMask BitVec CPUTLBEntry Function Target

variable {t : Target} {Attrs : Type} {addr page : t.Addr}

/-- An entry hits a page. -/
def Hits (e : CPUTLBEntry t) (page : t.Addr) : Prop :=
  page &&& t.pageMask = page ∧ tlbHitPageAnyprot e page = true

theorem and_pageMask_idem (addr : t.Addr) :
    addr &&& t.pageMask &&& t.pageMask = addr &&& t.pageMask := by
  rw [BitVec.and_assoc, BitVec.and_self]

/-- The flags lie below the page. -/
theorem tlbFlag_and_pageMask {distance} (pos : 0 < distance) :
    t.tlbFlag distance &&& t.pageMask = 0 := by
  have min_le := t.min_le
  have flags_fit := t.flags_fit
  apply eq_of_getLsbD_eq
  intro i within
  rw [getLsbD_and, tlbFlag, getLsbD_twoPow, pageMask, getLsbD_highMask]
  simp only [ofNat_eq_ofNat, getLsbD_zero]
  by_cases isFlag : t.pageBitsMin - distance = i
  · have below : ¬ t.pageBits ≤ i := by omega
    simp [below]
  · simp [isFlag]

theorem or_tlbFlag_and_pageMask {distance} (pos : 0 < distance) :
    (addr ||| t.tlbFlag distance) &&& t.pageMask = addr &&& t.pageMask := by
  rw [BitVec.and_comm, BitVec.and_or_distrib_left, BitVec.and_comm t.pageMask (t.tlbFlag distance),
    tlbFlag_and_pageMask pos, BitVec.and_comm]
  simp

section

variable (aligned : page &&& t.pageMask = page)

include aligned

theorem eq_of_tlbHitPage (hit : tlbHitPage addr page) : page = addr &&& t.pageMask := by
  rw [tlbHitPage, beq_iff_eq] at hit
  have absorbs : (t.pageMask ||| t.tlbInvalidMask) &&& t.pageMask = t.pageMask := by
    rw [Target.tlbInvalidMask, or_tlbFlag_and_pageMask (by decide), BitVec.and_self]
  rw [← aligned, hit, BitVec.and_assoc, absorbs]

/-- A flushed entry hits no page. -/
theorem not_tlbHitPage_allOnes : tlbHitPage (allOnes t.longBits) page ≠ true := by
  have min_le := t.min_le
  have flags_fit := t.flags_fit
  have page_lt := t.page_lt
  intro hit
  have isMask := eq_of_tlbHitPage aligned hit
  rw [tlbHitPage, beq_iff_eq, allOnes_and] at hit
  rw [allOnes_and] at isMask
  -- The bit of the invalid flag is in one of them and not in the other.
  have same := congrArg (fun word => word.getLsbD (t.pageBitsMin - 1)) (hit.symm.trans isMask)
  simp only [getLsbD_or, pageMask, getLsbD_highMask, Target.tlbInvalidMask,
    tlbFlag, getLsbD_twoPow] at same
  have within : t.pageBitsMin - 1 < t.longBits := by omega
  have below : ¬ t.pageBits ≤ t.pageBitsMin - 1 := by omega
  simp [within, below] at same

theorem tlbHitPage_self : tlbHitPage page page := by
  rw [tlbHitPage, beq_iff_eq, BitVec.and_or_distrib_left, aligned]
  have noFlag : page &&& t.tlbInvalidMask = 0 := by
    rw [← aligned, BitVec.and_assoc, BitVec.and_comm t.pageMask, Target.tlbInvalidMask,
      tlbFlag_and_pageMask (by decide)]
    simp
  rw [noFlag]
  simp

end

variable {e : CPUTLBEntry t} {own size : t.Addr} {tr : Translation Attrs}

theorem Hits.eq_of_forall {own} (hits : Hits e page)
    (belongs : ∀ elt, e.elt elt = allOnes _ ∨ e.elt elt &&& t.pageMask = own) : page = own := by
  obtain ⟨aligned, hit⟩ := hits
  have one (elt : Elt) (hit : tlbHitPage (e.elt elt) page = true) : page = own := by
    rcases belongs elt with unused | belongs
    · rw [unused] at hit
      exact absurd hit (not_tlbHitPage_allOnes aligned)
    · exact (eq_of_tlbHitPage aligned hit).trans belongs
  simp only [tlbHitPageAnyprot, Bool.or_eq_true] at hit
  rcases hit with (read | write) | code
  · exact one .read read
  · exact one .write write
  · exact one .code code

theorem not_hits_empty : ¬ Hits (.empty : CPUTLBEntry t) page := by
  rintro ⟨aligned, hit⟩
  simp only [tlbHitPageAnyprot, empty, Bool.or_self] at hit
  exact not_tlbHitPage_allOnes aligned hit

theorem not_hits_flush : ¬ Hits (tlbFlushEntryLocked e page) page := by
  rw [tlbFlushEntryLocked]
  split
  · exact not_hits_empty
  · rename_i noHit
    exact fun hits => noHit hits.2

theorem Hits.of_flush {flushed} (hits : Hits (tlbFlushEntryLocked e flushed) page) :
    Hits e page := by
  rw [tlbFlushEntryLocked] at hits
  split at hits
  · exact absurd hits not_hits_empty
  · exact hits

section

variable (aligned : own &&& t.pageMask = own)

include aligned

theorem baseAddress_and_pageMask : baseAddress own size tr &&& t.pageMask = own := by
  simp only [baseAddress]
  split <;> split
  all_goals simp only [tlbBswap, Target.tlbInvalidMask,
    or_tlbFlag_and_pageMask (show 0 < 5 by decide),
    or_tlbFlag_and_pageMask (show 0 < 1 by decide), aligned]

theorem writeAddress_and_pageMask : writeAddress own size tr &&& t.pageMask = own := by
  simp only [writeAddress]
  split
  · split
    · split
      · rw [tlbDiscardWrite, or_tlbFlag_and_pageMask (by decide), baseAddress_and_pageMask aligned]
      · split
        · rw [tlbNotdirty, or_tlbFlag_and_pageMask (by decide), baseAddress_and_pageMask aligned]
        · exact baseAddress_and_pageMask aligned
    · exact baseAddress_and_pageMask aligned
  · rw [tlbMmio, or_tlbFlag_and_pageMask (by decide), baseAddress_and_pageMask aligned]

theorem readAddress_and_pageMask : readAddress own size tr &&& t.pageMask = own := by
  rw [readAddress]
  split
  · exact baseAddress_and_pageMask aligned
  · exact writeAddress_and_pageMask aligned

/-- A new entry hits its own page only. -/
theorem Hits.eq_newEntry (hits : Hits (newEntry own size tr) page) : page = own := by
  refine hits.eq_of_forall fun elt => ?_
  cases elt with
  | read =>
    simp only [elt, newEntry]
    split
    · split
      · rw [tlbWatchpoint, or_tlbFlag_and_pageMask (by decide)]
        exact .inr (readAddress_and_pageMask aligned)
      · exact .inr (readAddress_and_pageMask aligned)
    · exact .inl rfl
  | write =>
    simp only [elt, newEntry]
    split
    · right
      split <;> split
      all_goals simp only [tlbWatchpoint, Target.tlbInvalidMask,
        or_tlbFlag_and_pageMask (show 0 < 4 by decide),
        or_tlbFlag_and_pageMask (show 0 < 1 by decide), writeAddress_and_pageMask aligned]
    · exact .inl rfl
  | code =>
    simp only [elt, newEntry]
    split
    · exact .inr (readAddress_and_pageMask aligned)
    · exact .inl rfl

end

variable {tlb : CPUTLB t Attrs} {tlb' : CPUTLB t Attrs}
    {installed : List (Mapping t)} {s : State t Attrs}

/-- All addresses of a page share one index. -/
theorem tlbIndex_page (addr : t.Addr) : tlbIndex tlb (addr &&& t.pageMask) = tlbIndex tlb addr := by
  have same : (addr &&& t.pageMask) >>> t.pageBits = addr >>> t.pageBits := by
    apply eq_of_getLsbD_eq
    intro i within
    rw [getLsbD_ushiftRight, getLsbD_ushiftRight, getLsbD_and, pageMask, getLsbD_highMask]
    by_cases inside : t.pageBits + i < t.longBits
    · simp [inside]
    · simp [getLsbD_of_ge addr _ (Nat.le_of_not_lt inside)]
  rw [tlbIndex, same, tlbIndex]

/-- A page is hit by one entry at most: by the one at its index, or by one victim. -/
structure Unique (tlb : CPUTLB t Attrs) : Prop where
  tableSingle : ∀ i p q, Hits (tlb.table i) p → Hits (tlb.table i) q → p = q
  victimSingle : ∀ k p q, Hits (tlb.vtable k) p → Hits (tlb.vtable k) q → p = q
  indexed : ∀ i p, Hits (tlb.table i) p → tlbIndex tlb p = i
  victims : ∀ k l p, Hits (tlb.vtable k) p → Hits (tlb.vtable l) p → k = l
  apart : ∀ i k p, Hits (tlb.table i) p → ¬ Hits (tlb.vtable k) p

theorem unique_of_empty (table : ∀ i, tlb.table i = .empty)
    (vtable : ∀ k, tlb.vtable k = .empty) : Unique tlb where
  tableSingle i p q hits := absurd hits (by rw [table]; exact not_hits_empty)
  victimSingle k p q hits := absurd hits (by rw [vtable]; exact not_hits_empty)
  indexed i p hits := absurd hits (by rw [table]; exact not_hits_empty)
  victims k l p hits := absurd hits (by rw [vtable]; exact not_hits_empty)
  apart i k p hits := absurd hits (by rw [table]; exact not_hits_empty)

/-- Fewer hits keep pages unique. -/
theorem Unique.mono (unique : Unique tlb) (nEntries : tlb'.nEntries = tlb.nEntries)
    (table : ∀ i p, Hits (tlb'.table i) p → Hits (tlb.table i) p)
    (vtable : ∀ k p, Hits (tlb'.vtable k) p → Hits (tlb.vtable k) p) : Unique tlb' where
  tableSingle i p q first second := unique.tableSingle i p q (table i p first) (table i q second)
  victimSingle k p q first second :=
    unique.victimSingle k p q (vtable k p first) (vtable k q second)
  indexed i p hits := by
    rw [tlbIndex, nEntries]
    exact unique.indexed i p (table i p hits)
  victims k l p first second := unique.victims k l p (vtable k p first) (vtable l p second)
  apart i k p first second := unique.apart i k p (table i p first) (vtable k p second)

theorem Unique.flushVtlb (unique : Unique tlb) : Unique (tlbFlushVtlbPageLocked tlb page) :=
  unique.mono rfl (fun _ _ => id) fun _ _ hits => hits.of_flush

theorem Unique.flushPage (unique : Unique tlb) (nEntries) :
    Unique (tlbFlushPageLocked tlb page nEntries) := by
  rw [tlbFlushPageLocked]
  split
  · exact unique_of_empty (fun _ => rfl) fun _ => rfl
  refine unique.mono rfl (fun i p hits => ?_) fun _ _ hits => hits.of_flush
  by_cases same : i = tlbIndex tlb page
  · subst same
    simp only [tlbFlushVtlbPageLocked, update_self] at hits
    exact hits.of_flush
  · simpa [tlbFlushVtlbPageLocked, same] using hits

/-- Evicting moves an entry of another page to the victim table. -/
theorem evict_cases (tlb : CPUTLB t Attrs) (page : t.Addr) (index) (k : Fin 8) :
    (evict tlb index page).vtable k = tlb.vtable k ∨
    k = Fin.ofNat 8 tlb.vindex ∧ (evict tlb index page).vtable k = tlb.table index ∧
      ¬ tlbHitPageAnyprot (tlb.table index) page = true := by
  simp only [evict]
  split
  · rename_i evicted
    by_cases same : k = Fin.ofNat 8 tlb.vindex
    · subst same
      simp only [Bool.and_eq_true, Bool.not_eq_true'] at evicted
      exact .inr ⟨rfl, update_self _ _ _, by simp [evicted.1]⟩
    · exact .inl (update_of_ne same _ _)
  · exact .inl rfl

theorem evict_frame (tlb : CPUTLB t Attrs) (page : t.Addr) (index) :
    (evict tlb index page).table = tlb.table ∧ (evict tlb index page).nEntries = tlb.nEntries := by
  simp only [evict]
  split <;> exact ⟨rfl, rfl⟩

/-- An entry takes the place of the page that it hits, which no old victim hits; the old entry may
become a victim. -/
theorem Unique.replace (unique : Unique tlb) (page : t.Addr) (entry : CPUTLBEntry t) (slot : Fin 8)
    (nEntries : tlb'.nEntries = tlb.nEntries)
    (table : tlb'.table = update tlb.table (tlbIndex tlb page) entry)
    (own : ∀ p, Hits entry p → p = page)
    (victim : ∀ k, (tlb'.vtable k = tlb.vtable k ∧ ¬ Hits (tlb.vtable k) page) ∨
      (k = slot ∧ tlb'.vtable k = tlb.table (tlbIndex tlb page) ∧
        ¬ Hits (tlb.table (tlbIndex tlb page)) page)) :
    Unique tlb' := by
  have index (p : t.Addr) : tlbIndex tlb' p = tlbIndex tlb p := by rw [tlbIndex, nEntries, tlbIndex]
  -- Another slot still hits what it hit; this one its own page.
  have main {i : Nat} {p : t.Addr} (hits : Hits (tlb'.table i) p) :
      i = tlbIndex tlb page ∧ p = page ∨ i ≠ tlbIndex tlb page ∧ Hits (tlb.table i) p := by
    rw [table] at hits
    by_cases same : i = tlbIndex tlb page
    · subst same
      rw [update_self] at hits
      exact .inl ⟨rfl, own p hits⟩
    · rw [update_of_ne same] at hits
      exact .inr ⟨same, hits⟩
  constructor
  · intro i p q first second
    rcases main first with ⟨here, rfl⟩ | ⟨other, first⟩ <;> rcases main second with
      ⟨also, rfl⟩ | ⟨notHere, second⟩
    · rfl
    · exact absurd here notHere
    · exact absurd also other
    · exact unique.tableSingle i p q first second
  · intro k p q first second
    rcases victim k with ⟨old, _⟩ | ⟨_, evicted, _⟩
    · rw [old] at first second
      exact unique.victimSingle k p q first second
    · rw [evicted] at first second
      exact unique.tableSingle _ p q first second
  · intro i p hits
    rw [index]
    rcases main hits with ⟨rfl, rfl⟩ | ⟨_, hits⟩
    · rfl
    · exact unique.indexed i p hits
  · intro k l p first second
    rcases victim k with ⟨old, _⟩ | ⟨here, evicted, _⟩ <;> rcases victim l with
      ⟨oldToo, _⟩ | ⟨also, evictedToo, _⟩
    · rw [old] at first
      rw [oldToo] at second
      exact unique.victims k l p first second
    · rw [old] at first
      rw [evictedToo] at second
      exact absurd first (unique.apart _ k p second)
    · rw [evicted] at first
      rw [oldToo] at second
      exact absurd second (unique.apart _ l p first)
    · rw [here, also]
  · intro i k p first second
    rcases main first with ⟨rfl, rfl⟩ | ⟨other, first⟩ <;> rcases victim k with
      ⟨old, fresh⟩ | ⟨_, evicted, missed⟩
    · rw [old] at second
      exact fresh second
    · rw [evicted] at second
      exact missed second
    · rw [old] at second
      exact unique.apart i k p first second
    · rw [evicted] at second
      exact other ((unique.indexed i p first).symm.trans (unique.indexed _ p second))

theorem addLargePage_frame (tlb : CPUTLB t Attrs) (vaddr size : t.Addr) :
    (tlbAddLargePage tlb vaddr size).table = tlb.table ∧
    (tlbAddLargePage tlb vaddr size).vtable = tlb.vtable ∧
    (tlbAddLargePage tlb vaddr size).nEntries = tlb.nEntries := by
  rw [tlbAddLargePage]
  split <;> exact ⟨rfl, rfl, rfl⟩

/-- Setting a page leaves no second entry for it. -/
theorem Unique.setPage (unique : Unique tlb) (vaddr size : t.Addr) (tr : Translation Attrs) :
    Unique (tlbSetPageWithAttrs tlb vaddr size tr) := by
  -- Remembering a large page changes no table.
  have remembered : Unique (if size ≤ t.pageSize then tlb else tlbAddLargePage tlb vaddr size) := by
    split
    · exact unique
    · obtain ⟨table, vtable, nEntries⟩ := addLargePage_frame tlb vaddr size
      exact unique.mono nEntries (fun i p hits => by rwa [table] at hits)
        fun k p hits => by rwa [vtable] at hits
  simp only [tlbSetPageWithAttrs]
  generalize (if size ≤ t.pageSize then tlb else tlbAddLargePage tlb vaddr size) =
    tlb at remembered ⊢
  have flushed : Unique (tlbFlushVtlbPageLocked tlb (vaddr &&& t.pageMask)) := remembered.flushVtlb
  obtain ⟨table, nEntries⟩ :=
    evict_frame (tlbFlushVtlbPageLocked tlb (vaddr &&& t.pageMask)) (vaddr &&& t.pageMask)
    (tlbIndex tlb (vaddr &&& t.pageMask))
  apply flushed.replace (vaddr &&& t.pageMask) (newEntry (vaddr &&& t.pageMask) size tr)
    (Fin.ofNat 8 tlb.vindex)
  · exact nEntries
  · simp only [table]
    rfl
  · exact fun p hits => hits.eq_newEntry (and_pageMask_idem vaddr)
  · intro k
    rcases evict_cases (tlbFlushVtlbPageLocked tlb (vaddr &&& t.pageMask)) (vaddr &&& t.pageMask)
      (tlbIndex tlb (vaddr &&& t.pageMask)) k with old | ⟨here, evicted, missed⟩
    · exact .inl ⟨old, not_hits_flush⟩
    · exact .inr ⟨here, evicted, fun hits => missed hits.2⟩

theorem hits_of_elt {elt} (aligned : page &&& t.pageMask = page)
    (equal : e.elt elt = page) : Hits e page := by
  have hit : tlbHitPage (e.elt elt) page := by
    rw [equal]
    exact tlbHitPage_self aligned
  refine ⟨aligned, ?_⟩
  simp only [tlbHitPageAnyprot, Bool.or_eq_true]
  cases elt with
  | read => exact .inl (.inl hit)
  | write => exact .inl (.inr hit)
  | code => exact .inr hit

/-- Swapping with the victim table leaves no second entry. -/
theorem Unique.victimHit (unique : Unique tlb) (elt) (addr : t.Addr) :
    Unique (victimTlbHit tlb (tlbIndex tlb addr) elt (addr &&& t.pageMask)) := by
  rw [victimTlbHit, ← tlbIndex_page]
  split
  · exact unique
  rename_i vidx found
  -- The victim entry hits the page, so nothing else does.
  have equal : (tlb.vtable vidx).elt elt = addr &&& t.pageMask := by
    simpa using List.find?_some found
  have hit := hits_of_elt (and_pageMask_idem addr) equal
  apply unique.replace (addr &&& t.pageMask) (tlb.vtable vidx) vidx
  · rfl
  · rfl
  · exact fun p hits => unique.victimSingle vidx p _ hits hit
  · intro k
    by_cases same : k = vidx
    · subst same
      exact .inr ⟨rfl, update_self _ _ _, fun hits => unique.apart _ k _ hits hit⟩
    · exact .inl ⟨update_of_ne same _ _, fun hits => same (unique.victims k vidx _ hits hit)⟩

/-- The mask is shifted until both addresses agree under it. -/
theorem growMask_spec (difference : t.Addr) (shifts k) (enough : t.longBits ≤ k + shifts) :
    ∃ k', k ≤ k' ∧ growMask difference shifts (highMask t.longBits k) = highMask t.longBits k' ∧
      difference &&& highMask t.longBits k' = 0 := by
  -- Each round shifts the mask by one, and no bit is left of it when the rounds are used up.
  induction shifts generalizing k with
  | zero =>
    refine ⟨k, le_refl k, rfl, ?_⟩
    rw [highMask_of_le (by omega)]
    exact BitVec.and_zero
  | succ shifts ih =>
    rw [growMask]
    split
    · rw [highMask_shiftLeft]
      obtain ⟨k', later, grown, gone⟩ := ih (k + 1) (by omega)
      exact ⟨k', by omega, grown, gone⟩
    · rename_i gone
      exact ⟨k, le_refl k, rfl, not_not.mp gone⟩

/-- A large page's size is a power of two. -/
theorem PageSize.large (size : PageSize t) (large : ¬ size.size ≤ t.pageSize) :
    ∃ j, 0 < j ∧ size.size = twoPow t.longBits j := by
  obtain ⟨j, power⟩ := size.isPage.resolve_left large
  refine ⟨j, Nat.pos_of_ne_zero ?_, power⟩
  rintro rfl
  apply large
  have page_lt := t.page_lt
  rw [power, pageSize, le_def, toNat_twoPow, toNat_twoPow,
    Nat.mod_eq_of_lt (Nat.pow_lt_pow_right (by decide) page_lt),
      Nat.mod_eq_of_lt (Nat.pow_lt_pow_right (by decide) (by omega))]
  exact Nat.pow_le_pow_right (by decide) (Nat.zero_le _)

/-- The region of the TLB holds every large page that was installed. -/
def Region (tlb : CPUTLB t Attrs) (installed : List (Mapping t)) : Prop :=
  (tlb.largePageAddr = allOnes _ ∧ ∀ m ∈ installed, m.pageSize.size ≤ t.pageSize) ∨
  ∃ k, 0 < k ∧ tlb.largePageMask = highMask _ k ∧
    tlb.largePageAddr &&& highMask _ k = tlb.largePageAddr ∧
    ∀ m ∈ installed, ¬ m.pageSize.size ≤ t.pageSize →
      ∃ j, j ≤ k ∧ m.pageSize.size = twoPow _ j ∧ m.vaddr &&& highMask _ k = tlb.largePageAddr

theorem Region.congr (region : Region tlb installed)
    (addr : tlb'.largePageAddr = tlb.largePageAddr)
    (mask : tlb'.largePageMask = tlb.largePageMask) : Region tlb' installed := by
  rw [Region, addr, mask]
  exact region

/-- The large-page region grows to cover the new page. -/
theorem Region.addLargePage (region : Region tlb installed) {m}
    (large : ¬ m.pageSize.size ≤ t.pageSize) :
    Region (tlbAddLargePage tlb m.vaddr m.pageSize.size) (m :: installed) := by
  obtain ⟨j, pos, power⟩ := m.pageSize.large large
  rw [tlbAddLargePage, power, not_twoPow_sub_one]
  rcases region with ⟨none, all⟩ | ⟨k, covered, mask, aligned, all⟩
  · -- The first large page since the last full flush.
    rw [if_pos none]
    refine .inr ⟨j, pos, rfl, ?_, List.forall_mem_cons.mpr
      ⟨fun _ => ⟨j, le_refl j, power, rfl⟩, ?_⟩⟩
    · rw [BitVec.and_assoc, BitVec.and_self]
    · exact fun other listed big => absurd (all other listed) big
  -- The region is widened until the new page and the old ones agree.
  have ne_allOnes_of_and_highMask : tlb.largePageAddr ≠ allOnes _ := by
    intro ones
    have page_lt := t.page_lt
    have lowest := congrArg (fun word => word.getLsbD 0) (aligned.trans ones)
    simp only [getLsbD_and, getLsbD_highMask, getLsbD_allOnes] at lowest
    simp [show ¬ k ≤ 0 by omega, show 0 < t.longBits by omega] at lowest
  rw [if_neg ne_allOnes_of_and_highMask, mask, highMask_and]
  obtain ⟨k', later, grown, gone⟩ :=
    growMask_spec (tlb.largePageAddr ^^^ m.vaddr) t.longBits (max j k) (by omega)
  rw [grown]
  refine .inr
    ⟨k', by omega, rfl, ?_, List.forall_mem_cons.mpr ⟨fun _ => ⟨j, by omega, power, ?_⟩, ?_⟩⟩
  · rw [BitVec.and_assoc, BitVec.and_self]
  · exact and_eq_of_xor_and_eq_zero gone
  · intro other listed big
    obtain ⟨i, below, size, inside⟩ := all other listed big
    exact ⟨i, by omega, size, and_highMask_congr (by omega) (inside.trans aligned.symm)⟩

/-- What holds of the TLB at all times. -/
structure Sound (s : State t Attrs) : Prop where
  unique : Unique s.tlb
  region : Region s.tlb s.installed

theorem setPage_region (tlb : CPUTLB t Attrs) (vaddr size : t.Addr) (tr : Translation Attrs) :
    let remembered := if size ≤ t.pageSize then tlb else tlbAddLargePage tlb vaddr size
    (tlbSetPageWithAttrs tlb vaddr size tr).largePageAddr = remembered.largePageAddr ∧
      (tlbSetPageWithAttrs tlb vaddr size tr).largePageMask = remembered.largePageMask := by
  simp only [tlbSetPageWithAttrs]
  generalize (if size ≤ t.pageSize then tlb else tlbAddLargePage tlb vaddr size) = remembered
  rw [evict]
  split <;> exact ⟨rfl, rfl⟩

theorem sound_of_flush (tlb : CPUTLB t Attrs) (nEntries) :
    Sound ⟨tlbFlushOneMmuidxLocked tlb nEntries, []⟩ where
  unique := unique_of_empty (fun _ => rfl) fun _ => rfl
  region := .inl ⟨rfl, by simp⟩

/-- Every operation keeps the table sound. -/
theorem Sound.step (sound : Sound s) (op : Op t Attrs) : Sound (step s op) := by
  obtain ⟨unique, region⟩ := sound
  cases op with
  | setPage m tr =>
    refine ⟨unique.setPage m.vaddr m.pageSize.size tr, ?_⟩
    obtain ⟨address, mask⟩ := setPage_region s.tlb m.vaddr m.pageSize.size tr
    refine Region.congr ?_ address mask
    split
    · -- A small page needs no large-page region.
      have cons_base : Region s.tlb (m :: s.installed) := by
        rcases region with ⟨none, all⟩ | ⟨k, pos, mask, address, all⟩
        · exact .inl ⟨none, List.forall_mem_cons.mpr ⟨‹_›, all⟩⟩
        · exact .inr ⟨k, pos, mask, address,
            List.forall_mem_cons.mpr ⟨fun large => absurd ‹_› large, all⟩⟩
      exact cons_base
    · exact region.addLargePage ‹_›
  | victimHit elt addr =>
    refine ⟨unique.victimHit elt addr, region.congr ?_ ?_⟩
    all_goals
      simp only [Softmmu.step, victimTlbHit]
      split <;> rfl
  | flushPage addr nEntries =>
    refine ⟨unique.flushPage nEntries, ?_⟩
    simp only [Softmmu.step, tlbFlushPageLocked]
    split
    · exact (sound_of_flush s.tlb nEntries).region
    · exact region.congr rfl rfl
  | flush nEntries => exact sound_of_flush s.tlb nEntries

theorem Sound.run (sound : Sound s) (ops : List (Op t Attrs)) :
    Sound (ops.foldl Softmmu.step s) := by
  induction ops generalizing s with
  | nil => exact sound
  | cons op ops ih => exact ih (sound.step op)

/-- Neither table hits a page that was flushed, nor anything after a full flush. -/
theorem Sound.flushed (sound : Sound s) {q m} (nEntries) (listed : m ∈ s.installed)
    (covers : m.Covers (addr &&& t.pageMask)) (also : m.Covers q) :
    (∀ i, ¬ Hits ((Softmmu.step s (.flushPage addr nEntries)).tlb.table i) q) ∧
      ∀ k, ¬ Hits ((Softmmu.step s (.flushPage addr nEntries)).tlb.vtable k) q := by
  simp only [Softmmu.step, tlbFlushPageLocked]
  split
  · exact ⟨fun _ => not_hits_empty, fun _ => not_hits_empty⟩
  rename_i out
  -- A large page would have forced the full flush, so the mapping is the flushed base page.
  by_cases base : m.pageSize.size ≤ t.pageSize
  · rw [Mapping.Covers, if_pos base] at covers also
    have same : q = addr &&& t.pageMask := also.trans covers.symm
    subst same
    refine ⟨fun i hits => ?_, fun k => not_hits_flush⟩
    by_cases here : i = tlbIndex s.tlb (addr &&& t.pageMask)
    · subst here
      simp only [tlbFlushVtlbPageLocked, update_self] at hits
      exact not_hits_flush hits
    · simp only [tlbFlushVtlbPageLocked, update_of_ne here] at hits
      exact here (sound.unique.indexed i _ hits).symm
  · have of_covers : (addr &&& t.pageMask) &&& s.tlb.largePageMask = s.tlb.largePageAddr := by
      rcases sound.region with ⟨_, all⟩ | ⟨k, _, mask, _, all⟩
      · exact absurd (all m listed) base
      · obtain ⟨j, below, power, inside⟩ := all m listed base
        rw [Mapping.Covers, if_neg base, power, not_twoPow_sub_one] at covers
        rw [mask, ← inside]
        exact and_highMask_congr below covers
    exact absurd of_covers out

theorem sound_initial (nEntries) (iotlb : Nat → CPUIOTLBEntry Attrs)
    (viotlb : Fin 8 → CPUIOTLBEntry Attrs) :
    Sound (initial nEntries iotlb viotlb : State t Attrs) where
  unique := unique_of_empty (fun _ => rfl) fun _ => rfl
  region := .inl ⟨rfl, by simp [initial]⟩

/-- The entries of both tables. -/
def entry (tlb : CPUTLB t Attrs) : Nat ⊕ Fin 8 → CPUTLBEntry t
  | .inl index => tlb.table index
  | .inr vidx => tlb.vtable vidx

/-- A page is found in one slot at most. -/
theorem Unique.entry_eq (unique : Unique tlb) {slot other}
    (hits : Hits (entry tlb slot) page) (also : Hits (entry tlb other) page) : slot = other := by
  cases slot with
  | inl i =>
    cases other with
    | inl j => rw [← unique.indexed i page hits, ← unique.indexed j page also]
    | inr k => exact absurd also (unique.apart i k page hits)
  | inr k =>
    cases other with
    | inl j => exact absurd hits (unique.apart j k page also)
    | inr l => rw [unique.victims k l page hits also]

/-- After any operations a page flush leaves no entry for a page of a mapping that covers the
flushed page, and at most one entry hits a page. -/
theorem tlbFlushPage_leaves_nothing_stale (nEntries : Nat) (iotlb : Nat → CPUIOTLBEntry Attrs)
    (viotlb : Fin 8 → CPUIOTLBEntry Attrs) (ops : List (Op t Attrs)) :
    let s := ops.foldl step (initial nEntries iotlb viotlb)
    (∀ (addr : t.Addr) (resized : Nat) (m : Mapping t) (q : t.Addr), m ∈ s.installed →
      m.Covers (addr &&& t.pageMask) → m.Covers q →
        ∀ slot, ¬ Hits (entry (step s (.flushPage addr resized)).tlb slot) q) ∧
    ∀ (page : t.Addr) (slot other : Nat ⊕ Fin 8), Hits (entry s.tlb slot) page →
      Hits (entry s.tlb other) page → slot = other := by
  have sound := (sound_initial nEntries iotlb viotlb).run ops
  refine ⟨fun addr resized m q listed covers also slot => ?_, fun page slot other hits =>
    sound.unique.entry_eq hits⟩
  obtain ⟨table, vtable⟩ := sound.flushed resized listed covers also
  cases slot with
  | inl index => exact table index
  | inr vidx => exact vtable vidx

/-- A target with addresses of 32 bits and pages of 4 KiB. -/
def smallTarget : Target := ⟨32, 12, 12, by decide, by decide, by decide⟩

/-- An address of that target. -/
def smallAddr (n : Nat) : smallTarget.Addr := BitVec.ofNat _ n

/-- A page of 4 MiB. -/
def largeMapping : Mapping smallTarget :=
  ⟨smallAddr 0x412345, twoPow _ 22, .inr ⟨22, rfl⟩⟩

/-- A translation to writable memory. -/
def plainTranslation : Translation Unit :=
  ⟨(), false, true, true, true, false, true, false, false, false, false, false, 0, 0⟩

/-- A page of 4 KiB outside of the large one. -/
def smallMapping : Mapping smallTarget :=
  ⟨smallAddr 0x901234, twoPow _ 12, .inl (by decide)⟩

/-- A large page is installed through one address and flushed through another, and a small page next
to it is flushed alone. -/
theorem tlbFlushPage_leaves_nothing_stale_both :
    let ops : List (Op smallTarget Unit) :=
      [.setPage largeMapping plainTranslation, .setPage smallMapping plainTranslation]
    let s := ops.foldl step (initial 256 (fun _ => ⟨0, ()⟩) fun _ => ⟨0, ()⟩)
    (∀ slot, ¬ Hits (entry (step s (.flushPage (smallAddr 0x7ffabc) 256)).tlb slot)
      (smallAddr 0x412000)) ∧
      ∀ slot, ¬ Hits (entry (step s (.flushPage (smallAddr 0x901abc) 256)).tlb slot)
          (smallAddr 0x901000) := by
  intro ops s
  have covers : largeMapping.Covers (smallAddr 0x7ffabc &&& smallTarget.pageMask) := by
    unfold Mapping.Covers
    rfl
  have also : largeMapping.Covers (smallAddr 0x412000) := by
    unfold Mapping.Covers
    rfl
  have coversSmall : smallMapping.Covers (smallAddr 0x901abc &&& smallTarget.pageMask) := by
    unfold Mapping.Covers
    rfl
  have alsoSmall : smallMapping.Covers (smallAddr 0x901000) := by
    unfold Mapping.Covers
    rfl
  have flushes :=
    (tlbFlushPage_leaves_nothing_stale 256 (fun _ => ⟨0, ()⟩) (fun _ => ⟨0, ()⟩) ops).1
  exact ⟨flushes _ 256 largeMapping _ (List.mem_cons_of_mem _ List.mem_cons_self) covers also,
    flushes _ 256 smallMapping _ List.mem_cons_self coversSmall alsoSmall⟩

end Qemu.Softmmu
