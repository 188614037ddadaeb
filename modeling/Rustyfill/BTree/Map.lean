import Rustyfill.BTree.Insert

/-!
# Maps, sets and entries

The methods of `TryBTreeMap`, `TryBTreeSet`, `TryBTreeMapVacantEntry` and `TryBTreeMapEntry`. What a
refused insertion hands back is a value here, and a reference into the map is the handle that it was
made of.
-/

namespace Rustyfill.BTree

open RawSlots Guarded

set_option autoImplicit false

section
variable {K V R : Type}

/-- An insertion, with what it hands back as a result. -/
def attempt (p : Routine K V R) : Routine K V (Except (K × V × AllocError) R) := fun w =>
  match p w with
  | (.ok r, w') => (.ok (.ok r), w')
  | (.error (.error key value e), w') => (.ok (.error (key, value, e)), w')
  | (.error (.fault f), w') => (.error (.fault f), w')

/-! ## Occupied entries -/

/-- What a reference to a value reads. -/
def readValue (handle : Handle) : Routine K V V := do
  let n ← deref handle.node.node
  orUndefined (n.vals handle.idx)

def writeValue (handle : Handle) (value : V) : Routine K V Unit :=
  modify handle.node.node fun n => do
    let vals ← writeIn capacity n.vals handle.idx value
    return { n with vals }

def OccupiedEntry.insert (handle : Handle) (value : V) : Routine K V V := do
  let old ← readValue handle
  writeValue handle value
  return old

/-! ## Vacant entries -/

namespace VacantEntry

variable (handle : Option Handle) (key : K) (value : V)

def tryInsertGiveBack : Routine K V (Except (K × V × AllocError) Handle) := do
  match ← attempt (tryInsertKv handle key value) with
  | .ok (node, idx) => return .ok ⟨node, idx⟩
  | .error back => return .error back

def tryInsert : Routine K V (Except AllocError Handle) := do
  match ← tryInsertGiveBack handle key value with
  | .ok occupied => return .ok occupied
  | .error (_, _, e) => return .error e

end VacantEntry

/-! ## Entries -/

/-- `TryBTreeMapEntryWithError`. -/
inductive EntryWithError (ε : Type) where
  | alloc (e : AllocError)
  | closure (e : ε)

namespace Entry

variable {ε : Type} (key : K)

/-- The entry of `key`, which it carries where it is vacant. -/
def orTryInsertGiveBack (entry : Entry) (default : V) :
    Routine K V (Except (K × V × AllocError) Handle) := do
  match entry with
  | .occupied handle => return .ok handle
  | .vacant handle =>
    match ← VacantEntry.tryInsertGiveBack handle key default with
    | .ok handle => return .ok handle
    | .error back => return .error back

def orTryInsertWithGiveBack (entry : Entry) (default : Unit → Except ε V) :
    Routine K V (Except (K × Option V × EntryWithError ε) Handle) := do
  match entry with
  | .occupied handle => return .ok handle
  | .vacant handle =>
    match default () with
    | .error e => return .error (key, none, .closure e)
    | .ok value =>
      match ← VacantEntry.tryInsertGiveBack handle key value with
      | .ok handle => return .ok handle
      | .error (k, v, e) => return .error (k, some v, .alloc e)

def orTryInsertWithKeyGiveBack (entry : Entry) (default : K → Except ε V) :
    Routine K V (Except (K × Option V × EntryWithError ε) Handle) := do
  match entry with
  | .occupied handle => return .ok handle
  | .vacant handle =>
    match default key with
    | .error e => return .error (key, none, .closure e)
    | .ok value =>
      match ← VacantEntry.tryInsertGiveBack handle key value with
      | .ok handle => return .ok handle
      | .error (k, v, e) => return .error (k, some v, .alloc e)

end Entry

end

section
variable {K V : Type} [LinearOrder K]

/-! ## Maps -/

namespace BTreeMap

/-- `BTreeMap::get`, by the same search. -/
def get (key : K) : Routine K V (Option V) := do
  match ← entry key with
  | .occupied handle => return some (← readValue handle)
  | .vacant _ => return none

def tryInsert (key : K) (value : V) : Routine K V (Except AllocError (Option V)) := do
  match ← entry key with
  | .occupied entry => return .ok (some (← OccupiedEntry.insert entry value))
  | .vacant vacant =>
    match ← VacantEntry.tryInsert vacant key value with
    | .ok _ => return .ok none
    | .error e => return .error e

def tryInsertGiveBack (key : K) (value : V) :
    Routine K V (Except (K × V × AllocError) (Option V)) := do
  match ← entry key with
  | .occupied entry => return .ok (some (← OccupiedEntry.insert entry value))
  | .vacant vacant =>
    match ← VacantEntry.tryInsertGiveBack vacant key value with
    | .ok _ => return .ok none
    | .error back => return .error back

end BTreeMap

/-! ## Sets -/

namespace BTreeSet

/-- A set is a map without values. -/
def tryInsert (value : K) : Routine K Unit (Except AllocError Bool) := do
  match ← BTreeMap.tryInsert value () with
  | .ok prev => return .ok prev.isNone
  | .error e => return .error e

def tryInsertGiveBack (value : K) : Routine K Unit (Except (K × AllocError) Bool) := do
  match ← BTreeMap.tryInsertGiveBack value () with
  | .ok prev => return .ok prev.isNone
  | .error (v, _, e) => return .error (v, e)

end BTreeSet

/-! ## What a program does with a map -/

/-- The default of an entry: a value, or a closure that makes one. -/
inductive Default (K V ε : Type) where
  | value (v : V)
  | made (f : Unit → Except ε V)
  | madeOfKey (f : K → Except ε V)

/-- `change` is what is done with the reference that `entry` returns. -/
inductive Op (K V ε : Type) where
  | get (key : K)
  | insert (key : K) (value : V)
  | insertGiveBack (key : K) (value : V)
  | orInsert (key : K) (default : Default K V ε) (change : V → V)

/-- `found` is the value that a key had, `reached` one that is referred to. A refused insertion may
hand back the key and a value. -/
inductive Outcome (K V ε : Type) where
  | found (v : Option V)
  | reached (v : V)
  | refused (back : Option (K × Option V))
  | failed (key : K) (e : ε)

def change {ε : Type} (handle : Handle) (f : V → V) : Routine K V (Outcome K V ε) := do
  let v ← readValue handle
  writeValue handle (f v)
  return .reached v

variable {ε : Type}

def orInsert (key : K) (f : V → V) : Default K V ε → Routine K V (Outcome K V ε)
  | .value v => do
    match ← Entry.orTryInsertGiveBack key (← entry key) v with
    | .ok handle => change handle f
    | .error (k, v, _) => return .refused (some (k, some v))
  | .made g => do
    match ← Entry.orTryInsertWithGiveBack key (← entry key) g with
    | .ok handle => change handle f
    | .error (k, v, .alloc _) => return .refused (some (k, v))
    | .error (k, _, .closure e) => return .failed k e
  | .madeOfKey g => do
    match ← Entry.orTryInsertWithKeyGiveBack key (← entry key) g with
    | .ok handle => change handle f
    | .error (k, v, .alloc _) => return .refused (some (k, v))
    | .error (k, _, .closure e) => return .failed k e

def perform : Op K V ε → Routine K V (Outcome K V ε)
  | .get key => return .found (← BTreeMap.get key)
  | .insert key value => do
    match ← BTreeMap.tryInsert key value with
    | .ok old => return .found old
    | .error _ => return .refused none
  | .insertGiveBack key value => do
    match ← BTreeMap.tryInsertGiveBack key value with
    | .ok old => return .found old
    | .error (k, v, _) => return .refused (some (k, some v))
  | .orInsert key default f => orInsert key f default

end

end Rustyfill.BTree
