import Mathlib.Data.Finset.Image
import Mathlib.Data.Finset.Basic
import Qemu.Lib.GuardedRun
import Qemu.Memory.Resolve

/-! Telling a listener of a view: `address_space_update_topology_pass`. -/

namespace Qemu.Memory

open Tiling GuardedRun List

/-- What a listener is told of a range: its place, but neither its logging nor its romd mode. The
start is taken as it is, since `int128_get64` keeps the start of a range in the 64-bit space. -/
structure MemoryRegionSection where
  mr : Nat
  offsetWithinRegion : Nat
  size : Int
  offsetWithinAddressSpace : Int
  readonly : Bool
  nonvolatile : Bool
  deriving DecidableEq

def sectionFromFlatRange (fr : FlatRange) : MemoryRegionSection where
  mr := fr.mr
  offsetWithinRegion := fr.offsetInRegion
  size := fr.addr.size
  offsetWithinAddressSpace := fr.addr.start
  readonly := fr.readonly
  nonvolatile := fr.nonvolatile

/-- The addresses of a section. -/
def MemoryRegionSection.addr (sec : MemoryRegionSection) : AddrRange :=
  ⟨sec.offsetWithinAddressSpace, sec.size⟩

/-- The callbacks of a `MemoryListener` in an update, without the coalesced-io ones, which are not
replayed. -/
inductive Event where
  | regionDel (sec : MemoryRegionSection)
  | regionAdd (sec : MemoryRegionSection)
  | regionNop (sec : MemoryRegionSection)
  | logStart (sec : MemoryRegionSection) (old new : BitVec 8)
  | logStop (sec : MemoryRegionSection) (old new : BitVec 8)
  deriving DecidableEq

/-- The section that a callback is about. -/
def Event.about : Event → MemoryRegionSection
  | .regionDel sec | .regionAdd sec | .regionNop sec | .logStart sec _ _ | .logStop sec _ _ => sec

/-- `MEMORY_LISTENER_UPDATE_REGION` passes the section of a range to a callback. -/
def memoryListenerUpdateRegion (fr : FlatRange) (callback : MemoryRegionSection → Event) : Event :=
  callback (sectionFromFlatRange fr)

/-- The events for a range in both views: only its logging. -/
def unchangedEvents (frold frnew : FlatRange) : List Event :=
  memoryListenerUpdateRegion frnew .regionNop ::
    ((if frnew.dirtyLogMask &&& ~~~frold.dirtyLogMask ≠ 0 then
        [memoryListenerUpdateRegion frnew (.logStart · frold.dirtyLogMask frnew.dirtyLogMask)]
      else []) ++
      (if frold.dirtyLogMask &&& ~~~frnew.dirtyLogMask ≠ 0 then
        [memoryListenerUpdateRegion frnew (.logStop · frold.dirtyLogMask frnew.dirtyLogMask)]
      else []))

/-- One pass over both views. -/
def addressSpaceUpdateTopologyPass (adding : Bool) : FlatView → FlatView → List Event
  | [], [] => []
  | frold :: old, [] =>
    -- In old but not in new.
    (if !adding then [memoryListenerUpdateRegion frold .regionDel] else []) ++
    addressSpaceUpdateTopologyPass adding old []
  | [], frnew :: new =>
    -- In new: the callback is not followed by one about logging.
    (if adding then [memoryListenerUpdateRegion frnew .regionAdd] else []) ++
    addressSpaceUpdateTopologyPass adding [] new
  | frold :: old, frnew :: new =>
    if frold.addr.start < frnew.addr.start ∨
        (frold.addr.start = frnew.addr.start ∧ !flatrangeEqual frold frnew) then
      -- In old but not in new, or in both but attributes changed.
      (if !adding then [memoryListenerUpdateRegion frold .regionDel] else []) ++
        addressSpaceUpdateTopologyPass adding old (frnew :: new)
    else if flatrangeEqual frold frnew then
      -- In both and unchanged, except that logging may have changed.
      (if adding then unchangedEvents frold frnew else []) ++
        addressSpaceUpdateTopologyPass adding old new
    else
      (if adding then [memoryListenerUpdateRegion frnew .regionAdd] else []) ++
        addressSpaceUpdateTopologyPass adding (frold :: old) new
termination_by old new => old.length + new.length

/-- Both passes of `address_space_set_flatview` as a listener sees them. -/
def topologyEvents (old new : FlatView) : List Event :=
  addressSpaceUpdateTopologyPass false old new ++ addressSpaceUpdateTopologyPass true old new

/-- What a listener that mirrors the view knows of a range. -/
structure Mirrored where
  sec : MemoryRegionSection
  logging : BitVec 8
  deriving DecidableEq

/-- All that there is to know of a range. -/
def Mirrored.of (fr : FlatRange) : Mirrored := ⟨sectionFromFlatRange fr, fr.dirtyLogMask⟩

/-- A listener that knows exactly the ranges of a view, each with its logging clients. -/
def mirrorOf (view : FlatView) : Finset Mirrored := (view.map Mirrored.of).toFinset

/-- The logging clients of one section change. -/
def setLogging (sec : MemoryRegionSection) (change : BitVec 8 → BitVec 8)
    (known : Mirrored) : Mirrored :=
  if known.sec = sec then { known with logging := change known.logging } else known

/-- A listener that mirrors the view: what it holds after an event. A section that is added comes
without logging clients, which only the other two callbacks speak of. -/
def mirror (held : Finset Mirrored) : Event → Finset Mirrored
  | .regionDel sec => held.filter (·.sec ≠ sec)
  | .regionAdd sec => insert ⟨sec, 0⟩ held
  | .regionNop _ => held
  | .logStart sec old new => held.image (setLogging sec (· ||| (new &&& ~~~old)))
  | .logStop sec old new => held.image (setLogging sec (· &&& ~~~(old &&& ~~~new)))

/-- What each event presumes of the ranges held. -/
def Presumes (held : Finset Mirrored) : Event → Prop
  | .regionAdd sec => ∀ known ∈ held, addrrangeIntersects known.sec.addr sec.addr = false
  | .regionDel sec | .regionNop sec | .logStart sec _ _ | .logStop sec _ _ =>
    ∃ known ∈ held, known.sec = sec

theorem flatrangeEqual_comm (a b) : flatrangeEqual a b = flatrangeEqual b a := by
  simp only [flatrangeEqual, eq_comm]

/-- Ranges that differ only in logging look the same to a listener. -/
theorem section_of_flatrangeEqual {a b} (equal : flatrangeEqual a b) :
    sectionFromFlatRange a = sectionFromFlatRange b := by
  simp only [flatrangeEqual, Bool.and_eq_true, decide_eq_true_eq] at equal
  obtain ⟨⟨⟨⟨⟨mr, addr⟩, offset⟩, -⟩, readonly⟩, nonvolatile⟩ := equal
  rw [sectionFromFlatRange, sectionFromFlatRange, mr, addr, offset, readonly, nonvolatile]

theorem start_of_section {a b} (same : sectionFromFlatRange a = sectionFromFlatRange b) :
    a.addr.start = b.addr.start :=
  congrArg MemoryRegionSection.offsetWithinAddressSpace same

theorem addr_of_flatrangeEqual {a b} (equal : flatrangeEqual a b) : a.addr = b.addr := by
  simp only [flatrangeEqual, Bool.and_eq_true, decide_eq_true_eq] at equal
  exact equal.1.1.1.1.2

variable {view : FlatView} {head : FlatRange} {bound : Int} {fr : FlatRange}
    {frold frnew : FlatRange}

theorem eq_of_start {bound} (ordered : ViewFrom bound view) {left right}
    (mem : left ∈ view) (member' : right ∈ view) (start : left.addr.start = right.addr.start) :
    left = right := by
  -- Both cover their common start, and an ordered view has one range there.
  have nonempty := (ordered.bounds mem).2
  have nonempty' := (ordered.bounds member').2
  have first := ordered.covering_of_mem mem (le_refl _) nonempty
  have second := ordered.covering_of_mem member' (le_refl _) nonempty'
  have same : left.first = right.first := start
  rw [same, second] at first
  exact (Option.some.inj first).symm

theorem start_lt_of_later {other rest}
    (ordered : ViewFrom bound (head :: rest)) (mem : other ∈ rest) :
    head.addr.start < other.addr.start := by
  obtain ⟨_, nonempty, later⟩ := ordered
  exact lt_of_lt_of_le nonempty (later.bounds mem).1

def partner (view : FlatView) (fr : FlatRange) : Option FlatRange :=
  view.find? fun other => flatrangeEqual other fr

theorem partner_cons_of_equal (rest) (equal : flatrangeEqual head fr) :
    partner (head :: rest) fr = some head := by
  simp [partner, equal]

theorem partner_cons_of_unequal (rest) (unequal : ¬ flatrangeEqual head fr = true) :
    partner (head :: rest) fr = partner rest fr := by
  simp [partner, unequal]

theorem unequal_of_start {a b} (apart : a.addr.start ≠ b.addr.start) :
    ¬ flatrangeEqual a b = true :=
  fun equal => apart (congrArg AddrRange.start (addr_of_flatrangeEqual equal))

theorem partner_of_apart (apart : ∀ other ∈ view, other.addr.start ≠ fr.addr.start) :
    partner view fr = none :=
  find?_eq_none.mpr fun other mem => unequal_of_start (apart other mem)

theorem mem_of_partner {other} (found : partner view fr = some other) :
    other ∈ view ∧ flatrangeEqual other fr := by
  unfold partner at found
  exact ⟨mem_of_find?_eq_some found, by simpa using find?_some found⟩

/-- What the first test of the loop says about the two cursors. -/
structure GoneFirst (frold frnew : FlatRange) : Prop where
  start_le : frold.addr.start ≤ frnew.addr.start
  unequal : ¬ flatrangeEqual frold frnew = true

theorem goneFirst_of_test (test : frold.addr.start < frnew.addr.start ∨
    (frold.addr.start = frnew.addr.start ∧ (!flatrangeEqual frold frnew) = true)) : GoneFirst frold
      frnew := by
  rcases test with before | ⟨same, unequal⟩
  · exact ⟨by omega, unequal_of_start (by omega)⟩
  · exact ⟨by omega, by simpa using unequal⟩

theorem newFirst_of_tests (test : ¬ (frold.addr.start < frnew.addr.start ∨
    (frold.addr.start = frnew.addr.start ∧ (!flatrangeEqual frold frnew) = true)))
    (unequal : ¬ flatrangeEqual frold frnew = true) : frnew.addr.start < frold.addr.start := by
  simp only [Bool.not_eq_true', Bool.not_eq_true] at test unequal
  simp only [unequal, and_true] at test
  omega

variable {new : FlatView}

theorem GoneFirst.partner (gone : GoneFirst frold frnew)
    (ordered : ViewFrom bound (frnew :: new)) : partner (frnew :: new) frold = none := by
  rw [partner_cons_of_unequal _ (flatrangeEqual_comm _ _ ▸ gone.unequal)]
  refine partner_of_apart fun other mem => ?_
  have after := start_lt_of_later ordered mem
  have := gone.start_le
  omega

variable {old : FlatView} {bound' : Int}

/-- The first pass deletes exactly the old ranges without a partner, in order. -/
theorem pass_removing (ordered : ViewFrom bound old) (ordered' : ViewFrom bound' new) :
    addressSpaceUpdateTopologyPass false old new =
      (old.filter fun frold => (partner new frold).isNone).map
        (memoryListenerUpdateRegion · .regionDel) := by
  -- The induction follows the two cursors; the facts speak of what is left of each view.
  induction old, new using addressSpaceUpdateTopologyPass.induct generalizing bound bound' with
  | case1 => simp [addressSpaceUpdateTopologyPass]
  | case2 frold old ih =>
    rw [addressSpaceUpdateTopologyPass, ih ordered.2.2 ordered']
    simp [partner]
  | case3 frnew new ih =>
    rw [addressSpaceUpdateTopologyPass, ih ordered ordered'.2.2]
    simp
  | case4 frold old frnew new test ih =>
    rw [addressSpaceUpdateTopologyPass, if_pos test, ih ordered.2.2 ordered']
    rw [filter_cons_of_pos (by rw [(goneFirst_of_test test).partner ordered']; rfl)]
    rfl
  | case5 frold old frnew new test equal ih =>
    rw [addressSpaceUpdateTopologyPass, if_neg test, if_pos equal, ih ordered.2.2 ordered'.2.2]
    have found := partner_cons_of_equal new (flatrangeEqual_comm frold frnew ▸ equal)
    rw [filter_cons_of_neg (by simp [found])]
    -- The matched new range is no partner of any later old one.
    refine congrArg (List.map (memoryListenerUpdateRegion · .regionDel))
      (filter_congr fun other mem => ?_)
    have after := start_lt_of_later ordered mem
    rw [partner_cons_of_unequal _ (unequal_of_start (by omega))]
  | case6 frold old frnew new test unequal ih =>
    rw [addressSpaceUpdateTopologyPass, if_neg test, if_neg unequal, ih ordered ordered'.2.2]
    -- The new range starts before every old range that is left.
    have first := newFirst_of_tests test unequal
    refine congrArg (List.map (memoryListenerUpdateRegion · .regionDel))
      (filter_congr fun other mem => ?_)
    have after : frold.addr.start ≤ other.addr.start := by
      rcases mem_cons.mp mem with same | mem
      · exact le_of_eq (same ▸ rfl)
      · exact le_of_lt (start_lt_of_later ordered mem)
    rw [partner_cons_of_unequal _ (unequal_of_start (by omega))]

/-- The events of the second pass for a new range. -/
def newEvents (old : FlatView) (frnew : FlatRange) : List Event :=
  match partner old frnew with
  | none => [memoryListenerUpdateRegion frnew .regionAdd]
  | some frold => unchangedEvents frold frnew

theorem newEvents_congr (unequal : ∀ frnew ∈ new, ¬ flatrangeEqual head frnew = true) :
    new.flatMap (newEvents (head :: old)) = new.flatMap (newEvents old) := by
  refine flatMap_congr fun frnew mem => ?_
  rw [newEvents, newEvents, partner_cons_of_unequal _ (unequal frnew mem)]

/-- The second pass goes through the new ranges in order, each with its events. -/
theorem pass_adding (ordered : ViewFrom bound old) (ordered' : ViewFrom bound' new) :
    addressSpaceUpdateTopologyPass true old new = new.flatMap (newEvents old) := by
  -- The induction follows the pass; each case emits one event or none.
  induction old, new using addressSpaceUpdateTopologyPass.induct generalizing bound bound' with
  | case1 => simp [addressSpaceUpdateTopologyPass]
  | case2 frold old ih =>
    rw [addressSpaceUpdateTopologyPass, ih ordered.2.2 ordered']
    simp
  | case3 frnew new ih =>
    rw [addressSpaceUpdateTopologyPass, ih ordered ordered'.2.2]
    rfl
  | case4 frold old frnew new test ih =>
    rw [addressSpaceUpdateTopologyPass, if_pos test, ih ordered.2.2 ordered']
    have gone := goneFirst_of_test test
    refine (newEvents_congr fun other mem => ?_).symm
    rcases mem_cons.mp mem with same | mem
    · exact same ▸ gone.unequal
    · have after := start_lt_of_later ordered' mem
      exact unequal_of_start (by omega)
  | case5 frold old frnew new test equal ih =>
    rw [addressSpaceUpdateTopologyPass, if_neg test, if_pos equal, ih ordered.2.2 ordered'.2.2]
    have start := congrArg AddrRange.start (addr_of_flatrangeEqual equal)
    have here : newEvents (frold :: old) frnew = unchangedEvents frold frnew := by
      rw [newEvents, partner_cons_of_equal old equal]
    rw [flatMap_cons, here, newEvents_congr fun other mem => ?_]
    · rfl
    · have after := start_lt_of_later ordered' mem
      exact unequal_of_start (by omega)
  | case6 frold old frnew new test unequal ih =>
    rw [addressSpaceUpdateTopologyPass, if_neg test, if_neg unequal, ih ordered ordered'.2.2]
    have alone : partner (frold :: old) frnew = none := by
      rw [partner_cons_of_unequal _ unequal]
      refine partner_of_apart fun other mem => ?_
      have after := start_lt_of_later ordered mem
      omega
    rw [flatMap_cons, newEvents, alone]
    rfl

/-- Deleting sections that are held leaves the others. -/
theorem replay_removing (held : Finset Mirrored) {gone : List FlatRange}
    (nodup : gone.Pairwise fun left right => sectionFromFlatRange left ≠ sectionFromFlatRange right)
    (present : ∀ fr ∈ gone, ∃ known ∈ held, known.sec = sectionFromFlatRange fr) :
    Guarded mirror Presumes held (gone.map (memoryListenerUpdateRegion · .regionDel)) ∧
      ∀ known, known ∈ runFrom mirror held (gone.map (memoryListenerUpdateRegion · .regionDel)) ↔
        known ∈ held ∧ ∀ fr ∈ gone, known.sec ≠ sectionFromFlatRange fr := by
  induction gone generalizing held with
  | nil => simp [Guarded]
  | cons first rest ih =>
    obtain ⟨notAgain, nodup⟩ := pairwise_cons.mp nodup
    -- The later sections differ from the first, so the listener still holds them.
    have stillPresent : ∀ fr ∈ rest,
        ∃ known ∈ mirror held (memoryListenerUpdateRegion first .regionDel),
          known.sec = sectionFromFlatRange fr := by
      intro fr mem
      obtain ⟨known, inHeld, same⟩ := present fr (mem_cons_of_mem _ mem)
      refine ⟨known, Finset.mem_filter.mpr ⟨inHeld, ?_⟩, same⟩
      exact fun again => notAgain fr mem (again.symm.trans same)
    obtain ⟨guarded, holds⟩ := ih _ nodup stillPresent
    refine ⟨⟨present first mem_cons_self, guarded⟩, fun known => ?_⟩
    rw [map_cons, runFrom_cons, holds, memoryListenerUpdateRegion, mirror, Finset.mem_filter,
      forall_mem_cons, and_assoc]

/-- A section is held with this logging, and only once. -/
def HoldsWith (sec : MemoryRegionSection) (others : Finset Mirrored) (mask : BitVec 8)
    (held : Finset Mirrored) : Prop :=
  held = insert ⟨sec, mask⟩ others ∧ ∀ other ∈ others, other.sec ≠ sec

variable {others held : Finset Mirrored} {mask : BitVec 8} {sec : MemoryRegionSection}

/-- A change of the logging clients reaches the one range that it is about. -/
theorem HoldsWith.image (holds : HoldsWith sec others mask held) (change : BitVec 8 → BitVec 8) :
    HoldsWith sec others (change mask) (held.image (setLogging sec change)) := by
  obtain ⟨rfl, apart⟩ := holds
  refine ⟨?_, apart⟩
  have changed : setLogging sec change ⟨sec, mask⟩ = ⟨sec, change mask⟩ := if_pos rfl
  have fixed : others.image (setLogging sec change) = others := by
    calc others.image (setLogging sec change)
        = others.image id := Finset.image_congr fun other mem => if_neg (apart other mem)
      _ = others := Finset.image_id
  rw [Finset.image_insert, changed, fixed]

theorem HoldsWith.present (holds : HoldsWith sec others mask held) :
    ∃ known ∈ held, known.sec = sec := by
  obtain ⟨rfl, _⟩ := holds
  exact ⟨_, Finset.mem_insert_self _ _, rfl⟩

/-- The clients that start and those that stop make the new ones of the old ones. -/
theorem mask_started_stopped (old new : BitVec 8) : (old ||| (new &&& ~~~old)) &&&
    ~~~(old &&& ~~~new) = new := by
  ext i
  simp only [BitVec.getElem_and, BitVec.getElem_or, BitVec.getElem_not]
  cases old[i] <;> cases new[i] <;> rfl

/-- A callback about logging changes the clients, and is left out only where it would not. -/
theorem replay_logging {event change needed} [Decidable needed]
    (holds : HoldsWith sec others mask held)
    (presumes : (∃ known ∈ held, known.sec = sec) → Presumes held event)
    (effect : mirror held event = held.image (setLogging sec change))
    (idle : ¬ needed → change mask = mask) :
    Guarded mirror Presumes held (if needed then [event] else []) ∧
      HoldsWith sec others (change mask)
          (runFrom mirror held (if needed then [event] else [])) := by
  split
  · refine ⟨⟨presumes holds.present, trivial⟩, ?_⟩
    rw [runFrom_cons, runFrom_nil, effect]
    exact holds.image change
  · rename_i unneeded
    rw [idle unneeded]
    exact ⟨trivial, holds⟩

/-- After its events a range in both views is held with the new logging clients. -/
theorem replay_unchanged
    (holds : HoldsWith (sectionFromFlatRange frnew) others frold.dirtyLogMask held) :
    Guarded mirror Presumes held (unchangedEvents frold frnew) ∧
      runFrom mirror held (unchangedEvents frold frnew) = insert (.of frnew) others := by
  -- First the clients that start, then those that stop, whether or not there are any.
  have started := @replay_logging others held _ (sectionFromFlatRange frnew)
    (memoryListenerUpdateRegion frnew (.logStart · frold.dirtyLogMask frnew.dirtyLogMask))
    (· ||| (frnew.dirtyLogMask &&& ~~~frold.dirtyLogMask))
    (frnew.dirtyLogMask &&& ~~~frold.dirtyLogMask ≠ 0) _ holds id rfl (by
      intro nobody
      rw [not_not.mp nobody]
      exact BitVec.or_zero)
  have stopped := @replay_logging others _ _ (sectionFromFlatRange frnew)
    (memoryListenerUpdateRegion frnew (.logStop · frold.dirtyLogMask frnew.dirtyLogMask))
    (· &&& ~~~(frold.dirtyLogMask &&& ~~~frnew.dirtyLogMask))
    (frold.dirtyLogMask &&& ~~~frnew.dirtyLogMask ≠ 0) _ started.2 id rfl (by
      intro nobody
      rw [not_not.mp nobody, show ~~~(0 : BitVec 8) = BitVec.allOnes 8 from rfl]
      exact BitVec.and_allOnes)
  rw [unchangedEvents, runFrom_cons, runFrom_append]
  refine ⟨⟨holds.present, guarded_append.mpr ⟨started.1, stopped.1⟩⟩, ?_⟩
  rw [mask_started_stopped] at stopped
  exact stopped.2.1

theorem intersects_of_order {left right} (order : addrrangeEnd left ≤ right.start)
    (nonempty : left.start < addrrangeEnd left) :
    addrrangeIntersects left right = false ∧ addrrangeIntersects right left = false := by
  simp only [addrrangeEnd] at *
  simp only [← Bool.not_eq_true, addrrangeIntersects, Bool.or_eq_true, addrrangeContains_iff]
  omega

/-- What a listener is told of a new range: a range that is added has no logging clients for it. -/
def told (old : FlatView) (frnew : FlatRange) : Mirrored :=
  ⟨sectionFromFlatRange frnew, if (partner old frnew).isSome then frnew.dirtyLogMask else 0⟩

/-- What the listener holds in the middle of the second pass. -/
def HoldsMiddle (old done todo : FlatView) (held : Finset Mirrored) : Prop :=
  ∀ known, known ∈ held ↔ (∃ fr ∈ done, known = told old fr) ∨
    ∃ fr ∈ old, known = .of fr ∧ ∃ frnew ∈ todo, flatrangeEqual fr frnew = true

variable {done rest : FlatView}

theorem done_before (ordered' : ViewFrom bound' (done ++ frnew :: rest)) (mem : fr ∈ done) :
    addrrangeEnd fr.addr ≤ frnew.addr.start :=
  (pairwise_append.mp ordered'.pairwise).2.2 fr mem frnew mem_cons_self

theorem later_after (ordered' : ViewFrom bound' (done ++ frnew :: rest)) (mem : fr ∈ rest) :
    addrrangeEnd frnew.addr ≤ fr.addr.start :=
  rel_of_pairwise_cons (pairwise_append.mp ordered'.pairwise).2.1 mem

theorem nonempty_of_mem (ordered' : ViewFrom bound' view) (mem : fr ∈ view) :
    fr.addr.start < addrrangeEnd fr.addr := (ordered'.bounds mem).2

/-- A new range without a partner is apart from all that is held. -/
theorem replay_added (ordered' : ViewFrom bound' (done ++ frnew :: rest))
    (holds : HoldsMiddle old done (frnew :: rest) held) (alone : partner old frnew = none) :
    Presumes held (memoryListenerUpdateRegion frnew .regionAdd) ∧
      HoldsMiddle old (done ++ [frnew]) rest
        (mirror held (memoryListenerUpdateRegion frnew .regionAdd)) := by
  have nonempty := nonempty_of_mem ordered' (mem_append_right _ mem_cons_self)
  have unequal := find?_eq_none.mp alone
  constructor
  · intro known mem
    rcases (holds known).mp mem with ⟨fr, finished, rfl⟩ | ⟨fr, inOld, rfl, frnew', todo, equal⟩
    · have nonempty' := nonempty_of_mem ordered' (mem_append_left _ finished)
      exact (intersects_of_order (done_before ordered' finished) nonempty').1
    -- An old range that is kept has the addresses of a later new range.
    rcases mem_cons.mp todo with same | later
    · exact absurd (same ▸ equal) (unequal fr inOld)
    · show addrrangeIntersects fr.addr frnew.addr = false
      rw [addr_of_flatrangeEqual equal]
      exact (intersects_of_order (later_after ordered' later) nonempty).2
  · intro known
    have added : told old frnew = ⟨sectionFromFlatRange frnew, 0⟩ := by
      rw [told, alone, if_neg (by decide)]
    have apart : (∃ fr ∈ old, known = .of fr ∧ ∃ other ∈ frnew :: rest,
      flatrangeEqual fr other = true) ↔
        ∃ fr ∈ old, known = .of fr ∧ ∃ other ∈ rest, flatrangeEqual fr other = true := by
      refine exists_congr fun fr => and_congr_right fun inOld => and_congr_right fun _ => ?_
      rw [exists_mem_cons_iff, or_iff_right (unequal fr inOld)]
    rw [memoryListenerUpdateRegion, mirror, Finset.mem_insert, holds known, apart, ← added]
    simp only [mem_append, mem_singleton, or_and_right, exists_or, exists_eq_left]
    rw [or_left_comm, or_assoc]

section

variable (ordered : ViewFrom bound old) (ordered' : ViewFrom bound' (done ++ frnew :: rest))
  (holds : HoldsMiddle old done (frnew :: rest) held)

include ordered ordered' holds

/-- A new range with a partner takes its place. -/
theorem replay_kept (found : partner old frnew = some frold) :
    HoldsWith (sectionFromFlatRange frnew) (held.erase (.of frold)) frold.dirtyLogMask held ∧
      HoldsMiddle old (done ++ [frnew]) rest (insert (.of frnew) (held.erase (.of frold))) := by
  obtain ⟨inOld, equal⟩ := mem_of_partner found
  have start := congrArg AddrRange.start (addr_of_flatrangeEqual equal)
  have same := section_of_flatrangeEqual equal
  -- No other old range and no finished range has the start of the new one.
  have onlyOld : ∀ fr ∈ old, fr.addr.start = frnew.addr.start → fr = frold :=
    fun fr mem start' => eq_of_start ordered mem inOld (by omega)
  have doneApart : ∀ fr ∈ done, fr.addr.start ≠ frnew.addr.start := by
    intro fr mem
    have nonempty := nonempty_of_mem ordered' (mem_append_left _ mem)
    have before := done_before ordered' mem
    omega
  have known : told old frnew = .of frnew := by
    rw [told, found]
    rfl
  refine ⟨⟨?_, ?_⟩, ?_⟩
  · have itself : (⟨sectionFromFlatRange frnew, frold.dirtyLogMask⟩ : Mirrored) = .of frold := by
      rw [Mirrored.of, same]
    rw [itself, Finset.insert_erase]
    exact (holds _).mpr (.inr ⟨frold, inOld, rfl, frnew, mem_cons_self, equal⟩)
  · intro other mem again
    obtain ⟨differ, mem⟩ := Finset.mem_erase.mp mem
    rcases (holds other).mp mem with ⟨fr, finished, rfl⟩ | ⟨fr, inOld', rfl, -⟩
    · exact doneApart fr finished (start_of_section again)
    · exact differ (congrArg _ (onlyOld fr inOld' (start_of_section again)))
  · intro other
    rw [Finset.mem_insert, Finset.mem_erase, holds other]
    constructor
    · rintro (rfl | ⟨differ, ⟨fr, finished, rfl⟩ | ⟨fr, inOld', rfl, frnew', todo, equal'⟩⟩)
      · exact .inl ⟨frnew, mem_append_right _ (mem_singleton.mpr rfl), known.symm⟩
      · exact .inl ⟨fr, mem_append_left _ finished, rfl⟩
      · refine .inr ⟨fr, inOld', rfl, frnew', (mem_cons.mp todo).resolve_left ?_, equal'⟩
        rintro rfl
        have start' := congrArg AddrRange.start (addr_of_flatrangeEqual equal')
        exact differ (congrArg _ (onlyOld fr inOld' start'))
    · rintro (⟨fr, finished, rfl⟩ | ⟨fr, inOld', rfl, frnew', later, equal'⟩)
      · rcases mem_append.mp finished with finished | last
        · refine .inr ⟨fun again => ?_, .inl ⟨fr, finished, rfl⟩⟩
          have start' : fr.addr.start = frold.addr.start :=
            start_of_section (congrArg Mirrored.sec again)
          exact doneApart fr finished (by omega)
        · rw [mem_singleton.mp last]
          exact .inl known
      · refine .inr ⟨fun again => ?_,
          .inr ⟨fr, inOld', rfl, frnew', mem_cons_of_mem _ later, equal'⟩⟩
        have start' : fr.addr.start = frold.addr.start :=
          start_of_section (congrArg Mirrored.sec again)
        have start'' := congrArg AddrRange.start (addr_of_flatrangeEqual equal')
        have after := later_after ordered' later
        have nonempty := nonempty_of_mem ordered' (mem_append_right _ mem_cons_self)
        omega

/-- The events of one new range meet their guards, and the range is done. -/
theorem replay_step : Guarded mirror Presumes held (newEvents old frnew) ∧
      HoldsMiddle old (done ++ [frnew]) rest (runFrom mirror held (newEvents old frnew)) := by
  rw [newEvents]
  cases found : partner old frnew with
  | none =>
    obtain ⟨presumes, holds'⟩ := replay_added ordered' holds found
    exact ⟨⟨presumes, trivial⟩, holds'⟩
  | some frold =>
    obtain ⟨holdsWith, holds'⟩ := replay_kept ordered ordered' holds found
    obtain ⟨guarded, reached⟩ := replay_unchanged holdsWith
    exact ⟨guarded, reached ▸ holds'⟩

end

/-- The second pass ends with what the listener was told of each new range. -/
theorem replay_adding (done todo) (ordered : ViewFrom bound old)
    (ordered' : ViewFrom bound' (done ++ todo)) (holds : HoldsMiddle old done todo held) :
    Guarded mirror Presumes held (todo.flatMap (newEvents old)) ∧
      ∀ known, known ∈ runFrom mirror held (todo.flatMap (newEvents old)) ↔
        ∃ fr ∈ done ++ todo, known = told old fr := by
  -- The list of finished ranges grows as the list of remaining ones shrinks.
  induction todo generalizing done held with
  | nil =>
    refine ⟨trivial, fun known => ?_⟩
    simpa using holds known
  | cons frnew rest ih =>
    obtain ⟨guarded, holds'⟩ := replay_step ordered ordered' holds
    have assoc : done ++ [frnew] ++ rest = done ++ frnew :: rest := by simp
    obtain ⟨guarded', reached⟩ := ih _ (assoc.symm ▸ ordered') holds'
    rw [flatMap_cons, runFrom_append]
    exact ⟨guarded_append.mpr ⟨guarded, guarded'⟩,
      fun known => (reached known).trans (by rw [assoc])⟩

/-- Ordered nonempty ranges are a view from some bound on. -/
theorem exists_viewFrom (ordered : view.Pairwise fun left right =>
    addrrangeEnd left.addr ≤ right.addr.start)
    (nonempty : ∀ fr ∈ view, 0 < fr.addr.size) : ∃ bound, ViewFrom bound view := by
  have nonempty' : ∀ fr ∈ view, fr.first < fr.stop := by
    intro fr mem
    have := nonempty fr mem
    simp only [FlatRange.first, FlatRange.stop, addrrangeEnd]
    omega
  cases view with
  | nil => exact ⟨0, trivial⟩
  | cons head rest =>
    refine ⟨head.first, tiledFrom_of_pairwise (fun fr mem => ?_) nonempty' ordered⟩
    rcases mem_cons.mp mem with same | mem
    · rw [same]
    · have := rel_of_pairwise_cons ordered mem
      exact le_trans (le_of_lt (nonempty' head mem_cons_self)) this

/-- The ranges of an ordered view have different sections. -/
theorem pairwise_section_of_viewFrom (ordered : ViewFrom bound view) :
    view.Pairwise fun left right => sectionFromFlatRange left ≠ sectionFromFlatRange right := by
  induction view generalizing bound with
  | nil => exact .nil
  | cons head rest ih =>
    refine pairwise_cons.mpr ⟨fun other mem same => ?_, ih ordered.2.2⟩
    exact absurd (start_of_section same) (ne_of_lt (start_lt_of_later ordered mem))

theorem about_of_newEvents {event : Event} (mem : event ∈ newEvents old frnew) :
    event.about = sectionFromFlatRange frnew := by
  rw [newEvents] at mem
  split at mem
  · rw [mem_singleton.mp mem]
    rfl
  simp only [unchangedEvents, mem_cons, mem_append] at mem
  rcases mem with rfl | mem | mem
  · rfl
  · split at mem
    · rw [mem_singleton.mp mem]
      rfl
    · simp at mem
  · split at mem
    · rw [mem_singleton.mp mem]
      rfl
    · simp at mem

/-- A range in both views receives exactly its own events. -/
theorem events_of_unchanged (ordered : ViewFrom bound old)
    (ordered' : ViewFrom bound' new) (inOld : frold ∈ old) (inNew : frnew ∈ new)
    (equal : flatrangeEqual frold frnew) :
    (topologyEvents old new).filter (fun event => event.about = sectionFromFlatRange frnew) =
      unchangedEvents frold frnew := by
  rw [topologyEvents, pass_removing ordered ordered', pass_adding ordered ordered', filter_append]
  -- Nothing equal to the new range is deleted, because it would have a partner.
  have deleted : ((old.filter fun frold => (partner new frold).isNone).map
      (memoryListenerUpdateRegion · .regionDel)).filter
      (fun event => event.about = sectionFromFlatRange frnew) = [] := by
    refine filter_eq_nil_iff.mpr fun event mem => ?_
    obtain ⟨gone, kept, rfl⟩ := List.mem_map.mp mem
    obtain ⟨wasOld, alone⟩ := mem_filter.mp kept
    rw [Option.isNone_iff_eq_none] at alone
    have unequal := find?_eq_none.mp alone frnew inNew
    rw [flatrangeEqual_comm] at unequal
    rw [decide_eq_true_eq]
    intro same
    have start := congrArg AddrRange.start (addr_of_flatrangeEqual equal)
    have start' : gone.addr.start = frnew.addr.start := start_of_section same
    exact unequal (eq_of_start ordered wasOld inOld (by omega) ▸ equal)
  -- The only old range equal to the new one is its partner.
  have here : newEvents old frnew = unchangedEvents frold frnew := by
    cases found : partner old frnew with
    | none => exact absurd equal (find?_eq_none.mp found frold inOld)
    | some other =>
      obtain ⟨inOld', equal'⟩ := mem_of_partner found
      have start := congrArg AddrRange.start (addr_of_flatrangeEqual equal)
      have start' := congrArg AddrRange.start (addr_of_flatrangeEqual equal')
      rw [newEvents, found, eq_of_start ordered inOld' inOld (by omega)]
  -- Every other new range starts elsewhere, and so do its events.
  have elsewhere : ∀ part : FlatView, (∀ fr ∈ part, fr.addr.start ≠ frnew.addr.start) →
      (part.flatMap (newEvents old)).filter
          (fun event => event.about = sectionFromFlatRange frnew) = [] := by
    intro part apart
    refine filter_eq_nil_iff.mpr fun event mem => ?_
    obtain ⟨fr, inPart, about⟩ := mem_flatMap.mp mem
    rw [decide_eq_true_eq, about_of_newEvents about]
    exact fun same => apart fr inPart (start_of_section same)
  obtain ⟨before, after, rfl⟩ := append_of_mem inNew
  have nonempty := nonempty_of_mem ordered' inNew
  have itself : (newEvents old frnew).filter
    (fun event => event.about = sectionFromFlatRange frnew) =
      newEvents old frnew := by
    refine filter_eq_self.mpr fun event mem => ?_
    rw [decide_eq_true_eq, about_of_newEvents mem]
  rw [deleted, flatMap_append, flatMap_cons, filter_append, filter_append, elsewhere before,
    elsewhere after, itself, here, nil_append, nil_append, append_nil]
  · intro fr mem
    have := later_after ordered' mem
    omega
  · intro fr mem
    have := done_before ordered' mem
    have := nonempty_of_mem ordered' (mem_append_left _ mem)
    omega

/-- The listener is told all of the new view exactly if the added ranges have no logging clients. -/
theorem told_eq_mirrorOf_iff (ordered : ViewFrom bound new) :
    (new.map (told old)).toFinset = mirrorOf new ↔
      ∀ frnew ∈ new, (∀ frold ∈ old, flatrangeEqual frold frnew = false) →
          frnew.dirtyLogMask = 0 := by
  have alone_iff (frnew) :
      (∀ frold ∈ old, flatrangeEqual frold frnew = false) ↔ partner old frnew = none := by
    simp [partner]
  simp only [alone_iff]
  constructor
  · intro same frnew mem alone
    have inMirror : told old frnew ∈ mirrorOf new := by
      rw [← same, List.mem_toFinset]
      exact mem_map_of_mem mem
    obtain ⟨fr, inNew, eq⟩ := List.mem_map.mp (List.mem_toFinset.mp inMirror)
    -- Both are about the one range that starts there.
    obtain rfl := eq_of_start ordered inNew mem (start_of_section (congrArg Mirrored.sec eq))
    have logging := congrArg Mirrored.logging eq
    rwa [told, alone, if_neg (by decide)] at logging
  · intro quiet
    refine congrArg List.toFinset (map_congr_left fun frnew mem => ?_)
    rw [told, Mirrored.of]
    cases found : partner old frnew with
    | none => rw [if_neg (by decide), quiet frnew mem found]
    | some frold => rw [if_pos (by rfl)]

/--
The events of an update replay the change of the view, up to the logging of what is added.

For a listener that starts with the old view every event finds what it presumes, the sections that
it ends
with are those of the new view, and a range in both views receives only events about its logging.
It ends with the new logging clients as well exactly if the ranges that are added have none.
-/
theorem topologyEvents_replay (old new : FlatView)
    (ordered : old.Pairwise fun left right => addrrangeEnd left.addr ≤ right.addr.start)
    (nonempty : ∀ fr ∈ old, 0 < fr.addr.size)
    (ordered' : new.Pairwise fun left right => addrrangeEnd left.addr ≤ right.addr.start)
    (nonempty' : ∀ fr ∈ new, 0 < fr.addr.size) :
    Guarded mirror Presumes (mirrorOf old) (topologyEvents old new) ∧
      (runFrom mirror (mirrorOf old) (topologyEvents old new)).image Mirrored.sec =
        (new.map sectionFromFlatRange).toFinset ∧
      (∀ frold ∈ old, ∀ frnew ∈ new, flatrangeEqual frold frnew = true →
        (topologyEvents old new).filter (fun event => event.about = sectionFromFlatRange frnew) =
          unchangedEvents frold frnew) ∧
      (runFrom mirror (mirrorOf old) (topologyEvents old new) = mirrorOf new ↔
        ∀ frnew ∈ new, (∀ frold ∈ old, flatrangeEqual frold frnew = false) →
          frnew.dirtyLogMask = 0) := by
  obtain ⟨bound, viewOld⟩ := exists_viewFrom ordered nonempty
  obtain ⟨bound', viewNew⟩ := exists_viewFrom ordered' nonempty'
  have inMirror : ∀ fr ∈ old, Mirrored.of fr ∈ mirrorOf old :=
    fun fr mem => List.mem_toFinset.mpr (mem_map_of_mem mem)
  obtain ⟨guarded, held⟩ := replay_removing (mirrorOf old)
    ((pairwise_section_of_viewFrom viewOld).filter fun frold => (partner new frold).isNone)
    (fun fr mem => ⟨_, inMirror fr (mem_of_mem_filter mem), rfl⟩)
  -- After the first pass the listener holds the old ranges that have a partner.
  have middle : HoldsMiddle old [] new (runFrom mirror (mirrorOf old)
      ((old.filter fun frold => (partner new frold).isNone).map
        (memoryListenerUpdateRegion · .regionDel))) := by
    intro known
    have partner_iff (fr) : partner new fr ≠ none ↔
        ∃ frnew ∈ new, flatrangeEqual fr frnew = true := by
      simp only [partner, ne_eq, find?_eq_none, flatrangeEqual_comm fr,
        not_forall, not_not, exists_prop]
    simp only [held, not_mem_nil, false_and, exists_false, false_or, ← partner_iff]
    constructor
    · rintro ⟨mem, kept⟩
      obtain ⟨fr, inOld, rfl⟩ := List.mem_map.mp (List.mem_toFinset.mp mem)
      refine ⟨fr, inOld, rfl, fun alone => kept fr (mem_filter.mpr ⟨inOld, ?_⟩) rfl⟩
      rw [alone]
      rfl
    · rintro ⟨fr, inOld, rfl, found⟩
      refine ⟨inMirror fr inOld, fun gone mem same => found ?_⟩
      obtain ⟨wasOld, alone⟩ := mem_filter.mp mem
      rw [eq_of_start viewOld inOld wasOld (start_of_section same)]
      exact Option.isNone_iff_eq_none.mp alone
  obtain ⟨guarded', reached⟩ := replay_adding [] new viewOld viewNew middle
  have ends : runFrom mirror (mirrorOf old) (topologyEvents old new) =
      (new.map (told old)).toFinset := by
    rw [topologyEvents, pass_removing viewOld viewNew, pass_adding viewOld viewNew, runFrom_append]
    ext known
    rw [reached, nil_append, List.mem_toFinset, List.mem_map]
    simp only [eq_comm]
  refine ⟨?_, ?_, fun frold inOld frnew inNew equal => ?_, ?_⟩
  · rw [topologyEvents, pass_removing viewOld viewNew, pass_adding viewOld viewNew]
    exact guarded_append.mpr ⟨guarded, guarded'⟩
  · rw [ends]
    ext sec
    simp [told]
  · exact events_of_unchanged viewOld viewNew inOld inNew equal
  · rw [ends, told_eq_mirrorOf_iff viewNew]

/-- RAM that is not logged, next to a device. -/
def sampleOldView : FlatView :=
  [⟨1, 0, ⟨0, 0x1000⟩, 0, true, false, false⟩, ⟨2, 0, ⟨0x2000, 0x100⟩, 0, true, false, false⟩]

/-- The same RAM with a logging client, and another device at the place of the first. -/
def sampleNewView : FlatView :=
  [⟨1, 0, ⟨0, 0x1000⟩, 4, true, false, false⟩, ⟨3, 0, ⟨0x2000, 0x200⟩, 0, true, false, false⟩]

/-- RAM stays with its new client, and the devices are exchanged. -/
theorem topologyEvents_replay_sample :
    Guarded mirror Presumes (mirrorOf sampleOldView) (topologyEvents sampleOldView sampleNewView) ∧
      runFrom mirror (mirrorOf sampleOldView) (topologyEvents sampleOldView sampleNewView) =
        mirrorOf sampleNewView :=
  have replayed :=
    topologyEvents_replay sampleOldView sampleNewView (by decide)
      (by decide) (by decide) (by decide)
  ⟨replayed.1, replayed.2.2.2.mpr (by decide)⟩

/-- RAM that is mapped with a logging client is added without any word of that client. -/
theorem topologyEvents_unlogged :
    topologyEvents [] [⟨1, 0, ⟨0, 0x1000⟩, 4, true, false, false⟩] =
        [.regionAdd ⟨1, 0, 0x1000, 0, false, false⟩] ∧
      runFrom mirror (mirrorOf []) (topologyEvents []
        [⟨1, 0, ⟨0, 0x1000⟩, 4, true, false, false⟩]) ≠
        mirrorOf [⟨1, 0, ⟨0, 0x1000⟩, 4, true, false, false⟩] := by
  have events : topologyEvents [] [⟨1, 0, ⟨0, 0x1000⟩, 4, true, false, false⟩] =
      [.regionAdd ⟨1, 0, 0x1000, 0, false, false⟩] := by
    simp [topologyEvents, addressSpaceUpdateTopologyPass, memoryListenerUpdateRegion,
      sectionFromFlatRange]
  refine ⟨events, ?_⟩
  rw [events]
  decide

end Qemu.Memory
