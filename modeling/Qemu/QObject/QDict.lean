import Qemu.Lib.Assoc
import Qemu.Util.Cutils

/-! Dictionaries: a hash table with 512 buckets, and equality of objects. -/

namespace Qemu.Qmp

open Qemu.Util Assoc

/-- An object, with the scalars of the caller, which no function here looks into. Entries are listed
as `qdict_first` and `qdict_next` go through them: bucket by bucket, the newest first. -/
inductive QObject (σ : Type) where
  | scalar (value : σ)
  | qdict (entries : List (CString × QObject σ))
  | qlist (elems : List (QObject σ))

abbrev QDict (σ : Type) := List (CString × QObject σ)

variable {σ : Type} {qdict : QDict σ} {key : CString} {value : QObject σ}

def qdictBucketMax : Nat := 512

/-- The hash of a key, `tdb_hash`, in 32 bits. -/
def tdbHash (name : CString) : UInt32 :=
  let value := name.zipIdx.foldl
    (fun value (c, i) => value + UInt32.ofNat (c.toNat % 256) <<<
      UInt32.ofNat (i * 5 % 2 ^ 32 % 24)) (0x238F13AF * UInt32.ofNat name.length)
  1103515243 * value + 12345

def bucket (key : CString) : Nat := (tdbHash key).toNat % qdictBucketMax

def qdictGet (qdict : QDict σ) (key : CString) : Option (QObject σ) := qdict.lookup key

def qdictSize (qdict : QDict σ) : Nat := qdict.length

/-- The value of a key that exists is replaced, and a new entry goes to the head of its bucket. -/
def qdictPutObj (qdict : QDict σ) (key : CString) (value : QObject σ) : QDict σ :=
  match qdictGet qdict key with
  | some _ => replace key value qdict
  | none => insertBefore (fun other => bucket key ≤ bucket other) (key, value) qdict

def qdictDel (qdict : QDict σ) (key : CString) : QDict σ := remove key qdict

def qdictFirst (qdict : QDict σ) : Option CString := qdict.head?.map Prod.fst

/-- The key of the entry after that of a key. -/
def qdictNext (qdict : QDict σ) (key : CString) : Option CString :=
  qdictFirst (qdict.dropWhile fun entry => entry.1 ≠ key).tail

theorem qdictGet_put (nodup : Distinct qdict) (key other) (value : QObject σ) :
    qdictGet (qdictPutObj qdict key value) other = if other = key then some value
        else qdictGet qdict other := by
  rw [qdictPutObj]
  cases found : qdictGet qdict key with
  | some old =>
    have present : (qdict.lookup key).isSome := by
      rw [← qdictGet, found]
      rfl
    exact lookup_replace (isSome_lookup.mp present) other
  | none => exact lookup_insertBefore (lookup_eq_none.mp found) nodup other

theorem lookup_put (nodup : Distinct qdict) (key other) (value : QObject σ) :
    (qdictPutObj qdict key value).lookup other = if other = key
    then some value else qdict.lookup other :=
  qdictGet_put nodup key other value

theorem distinct_put (nodup : Distinct qdict) (key) (value : QObject σ) :
    Distinct (qdictPutObj qdict key value) := by
  rw [qdictPutObj]
  cases found : qdictGet qdict key with
  | some _ => exact nodup.replace
  | none => exact nodup.insertBefore (lookup_eq_none.mp found)

section Equality

variable [DecidableEq σ]

mutual

/-- Whether two objects are equal. -/
def qobjectIsEqual : QObject σ → QObject σ → Bool
  | .scalar x, .scalar y => x = y
  | .qdict x, .qdict y => qdictSize x = qdictSize y && entriesEqual x y
  | .qlist x, .qlist y => qlistIsEqual x y
  | _, _ => false

/-- The loop of `qdict_is_equal` over the values of one dictionary. -/
def entriesEqual : QDict σ → QDict σ → Bool
  | [], _ => true
  | (key, value) :: rest, other =>
    (match qdictGet other key with
    | some value' => qobjectIsEqual value value'
    | none => false) && entriesEqual rest other

def qlistIsEqual : List (QObject σ) → List (QObject σ) → Bool
  | [], [] => true
  | x :: xs, y :: ys => qobjectIsEqual x y && qlistIsEqual xs ys
  | _, _ => false

end

/-- Whether two dictionaries are equal. -/
def qdictIsEqual (x y : QDict σ) : Bool := qobjectIsEqual (.qdict x) (.qdict y)

/-- Equality asks each entry of one side for its value in the other. -/
theorem entriesEqual_iff {x y : QDict σ} : entriesEqual x y ↔
      ∀ entry ∈ x, ∃ value, qdictGet y entry.1 = some value ∧ qobjectIsEqual entry.2 value := by
  induction x with
  | nil => simp [entriesEqual]
  | cons entry rest ih =>
    rw [entriesEqual, Bool.and_eq_true, ih, List.forall_mem_cons]
    refine and_congr_left fun _ => ?_
    cases qdictGet y entry.1 with
    | none => simp
    | some value => simp

theorem qlistIsEqual_iff {x y : List (QObject σ)} :
    qlistIsEqual x y ↔ List.Forall₂ (fun a b => qobjectIsEqual a b = true) x y := by
  induction x generalizing y with
  | nil => cases y <;> simp [qlistIsEqual]
  | cons a x ih => cases y <;> simp [qlistIsEqual, ih]

end Equality

end Qemu.Qmp
