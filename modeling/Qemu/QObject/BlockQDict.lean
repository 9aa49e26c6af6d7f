import Qemu.QObject.QDict

/-! Flattening a dictionary to dotted keys, and crumpling them back. -/

namespace Qemu.Qmp

open Qemu.Util Assoc

variable {σ : Type}

/-- Neither a dictionary nor a list with something in it. -/
def QObject.isFlat : QObject σ → Bool
  | .qdict (_ :: _) => false
  | .qlist (_ :: _) => false
  | _ => true

mutual

/-- Both loops flatten a value into the target, or put it there. -/
def flattenValue (key : CString) (target : QDict σ) : QObject σ → QDict σ
  | .qdict (entry :: rest) => qdictFlattenQdict key target (entry :: rest)
  | .qlist (elem :: rest) => qdictFlattenQlist key 0 target (elem :: rest)
  | value => qdictPutObj target key value

/-- `qdict_flatten_qdict` with a target of its own. -/
def qdictFlattenQdict (pre : CString) (target : QDict σ) : QDict σ → QDict σ
  | [] => target
  | (key, value) :: rest => qdictFlattenQdict pre
      (flattenValue (pre ++ '.' :: key) target value) rest

/-- `qdict_flatten_qlist` from an index on. -/
def qdictFlattenQlist (pre : CString) (i : Nat) (target : QDict σ) : List (QObject σ) → QDict σ
  | [] => target
  | value :: rest =>
    qdictFlattenQlist pre (i + 1) (flattenValue (pre ++ '.' :: formatInt (intCounter i)) target
      value) rest

end

mutual

def leafCount : QObject σ → Nat
  | .qdict (entry :: rest) => entryLeaves (entry :: rest)
  | .qlist (elem :: rest) => elemLeaves (elem :: rest)
  | _ => 1

/-- The number of values put for the entries. -/
def entryLeaves : QDict σ → Nat
  | [] => 0
  | (_, value) :: rest => leafCount value + entryLeaves rest

def elemLeaves : List (QObject σ) → Nat
  | [] => 0
  | value :: rest => leafCount value + elemLeaves rest

end

/-- The loop of `qdict_flatten_qdict` at the root, its own target: the next entry is looked up
before the dictionary changes, and a value is read when the loop comes to it. -/
def flattenRoot : Nat → QDict σ → Option CString → Option (QDict σ)
  | _, qdict, none => some qdict
  | 0, _, some _ => none
  | fuel + 1, qdict, some key => do
    let next := qdictNext qdict key
    let value ← qdictGet qdict key
    if value.isFlat then flattenRoot fuel qdict next
    else flattenRoot fuel (qdictDel (flattenValue key qdict value) key) next

/-- The root loop goes round once for each entry and each value put. -/
def rootSteps (qdict : QDict σ) : Nat := qdictSize qdict + entryLeaves qdict

def qdictFlatten (qdict : QDict σ) : Option (QDict σ) :=
  flattenRoot (rootSteps qdict) qdict (qdictFirst qdict)

/-- How a call ends: with a value, an `Error`, or a failed assertion. -/
inductive Outcome (α : Type) where
  | returns (value : α)
  | fails (message : String)
  | aborts

/-- Go on with the value of a call that returned. -/
def Outcome.bind {α β : Type} : Outcome α → (α → Outcome β) → Outcome β
  | .returns value, next => next value
  | .fails message, _ => .fails message
  | .aborts, _ => .aborts

instance : Monad Outcome where
  pure := .returns
  bind := Outcome.bind

theorem Outcome.bind_eq_returns {α β : Type} {first : Outcome α}
    {next : α → Outcome β} {result : β} :
    (first >>= next) = .returns result ↔ ∃ value, first = .returns value ∧
    next value = .returns result := by
  cases first with
  | returns value => exact ⟨fun equal => ⟨value, rfl, equal⟩, fun ⟨_, same, equal⟩ =>
      (Outcome.returns.inj same) ▸ equal⟩
  | fails message => exact ⟨fun equal => (by contradiction), fun ⟨_, same, _⟩ => (by contradiction)⟩
  | aborts => exact ⟨fun equal => (by contradiction), fun ⟨_, same, _⟩ => (by contradiction)⟩

def Outcome.asserted {α : Type} : Option α → Outcome α
  | some value => .returns value
  | none => .aborts

/-- The search for the separator in `qdict_split_flat_key`, which a pair of dots is not: what is
before and after it. -/
def splitSeparator : CString → CString × Option CString
  | [] => ([], none)
  | '.' :: '.' :: rest => ('.' :: '.' :: (splitSeparator rest).1, (splitSeparator rest).2)
  | '.' :: rest => ([], some rest)
  | c :: rest => (c :: (splitSeparator rest).1, (splitSeparator rest).2)

/-- The loop that makes one dot of a pair, asserted to be one. -/
def unescape : CString → Option CString
  | [] => some []
  | '.' :: '.' :: rest => (unescape rest).map ('.' :: ·)
  | '.' :: _ => none
  | c :: rest => (unescape rest).map (c :: ·)

def qdictSplitFlatKey (key : CString) : Option (CString × Option CString) :=
  (unescape (splitSeparator key).1).map fun pre => (pre, (splitSeparator key).2)

/-- The loop of `qdict_is_list` over the keys: how many are indices, the largest, and what the first
was. -/
def listKeys : QDict σ → Int → Int → Option Bool → Outcome (Int × Int × Option Bool)
  | [], len, max, isList => .returns (len, max, isList)
  | (key, _) :: rest, len, max, isList =>
    let isIndex := (qemuStrtoi64 key).isSome
    let isList := isList.getD isIndex
    if isIndex ≠ isList then .fails "Cannot mix list and non-list keys"
    else match qemuStrtoi64 key with
      | some val => listKeys rest (len + 1) (if val > max then val else max) (some isList)
      | none => listKeys rest len max (some isList)

/-- Whether all keys look like list indices. -/
def qdictIsList (maybeList : QDict σ) : Outcome Bool := do
  let (len, max, isList) ← listKeys maybeList 0 (-1) none
  if len ≠ max + 1 then
    .fails s!"List indices are not contiguous, saw {len} elements but {max} largest index"
  else return isList.getD false

/-- Put a value under the two parts of its key: in the dictionary of the first part, if there is a
second. -/
def placeValue (twoLevel : QDict σ) (value : QObject σ) :
    CString × Option CString → Outcome (QDict σ)
  | (pre, some suffix) =>
    match qdictGet twoLevel pre with
    -- The child is changed in place.
    | some (.qdict childDict) => .returns
        (qdictPutObj twoLevel pre (.qdict (qdictPutObj childDict suffix value)))
    | some _ => .fails "Cannot mix scalar and non-scalar keys"
    | none => .returns (qdictPutObj twoLevel pre (.qdict (qdictPutObj [] suffix value)))
  | (pre, none) =>
    match qdictGet twoLevel pre with
    | some _ => .fails "Cannot mix scalar and non-scalar keys"
    | none => .returns (qdictPutObj twoLevel pre value)

/-- `qdict_crumple`, first step: an entry goes under its prefix. -/
def splitEntry (twoLevel : QDict σ) (entry : CString × QObject σ) : Outcome (QDict σ) :=
  if entry.2.isFlat = false then .fails s!"Value {String.ofList entry.1} is not flat"
  else do
    let parts ← Outcome.asserted (qdictSplitFlatKey entry.1)
    placeValue twoLevel entry.2 parts

/-- The second step of `qdict_crumple` for a value: a dictionary that is not empty is crumpled in
turn. -/
def crumpleValue (crumple : QDict σ → Outcome (QObject σ)) : QObject σ → Outcome (QObject σ)
  | .qdict (first :: rest) => crumple (first :: rest)
  | value => .returns value

/-- The second step of `qdict_crumple` for one entry. -/
def crumpleEntry (crumple : QDict σ → Outcome (QObject σ)) (multiLevel : QDict σ)
    (entry : CString × QObject σ) : Outcome (QDict σ) := do
  let value ← crumpleValue crumple entry.2
  return qdictPutObj multiLevel entry.1 value

/-- The loop of the third step over the indices from one on, with those left. -/
def listElems (multiLevel : QDict σ) : Nat → Nat → Outcome (List (QObject σ))
  | _, 0 => .returns []
  | i, left + 1 =>
    match qdictGet multiLevel (formatSize i) with
    | some child => do
      let rest ← listElems multiLevel (i + 1) left
      return child :: rest
    | none => .fails s!"Missing list index {i}"

/-- `qdict_crumple`, third step: list indices become a list. -/
def detectList (multiLevel : QDict σ) : Outcome (QObject σ) := do
  let isList ← qdictIsList multiLevel
  if isList then
    let elems ← listElems multiLevel 0 (qdictSize multiLevel)
    return .qlist elems
  else return .qdict multiLevel

/-- Crumple a dictionary whose keys are shorter than a bound. -/
def crumpleWithin : Nat → QDict σ → Outcome (QObject σ)
  | 0, _ => .aborts
  | depth + 1, src => do
    let twoLevel ← src.foldlM splitEntry []
    let multiLevel ← twoLevel.foldlM (crumpleEntry (crumpleWithin depth)) []
    detectList multiLevel

def longestKey (src : QDict σ) : Nat := (src.map fun entry => entry.1.length).foldr max 0

/-- Every further level has shorter keys. -/
def qdictCrumple (src : QDict σ) : Outcome (QObject σ) := crumpleWithin (longestKey src + 1) src

end Qemu.Qmp
