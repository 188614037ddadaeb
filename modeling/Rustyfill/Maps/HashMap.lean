import Rustyfill.Maps.Actions

/-!
# `HashMap`

`std/hashmap/hashmap_.rs`: the fallible insertions this crate adds to the map of the standard
library. The map is one table, which `&mut self` borrows exclusively.
-/

namespace Rustyfill

open Maps Interleaving

set_option autoImplicit false

/-- What the methods use of a map. -/
structure HashMap (K : Type) where
  hashOne : K → UInt64

namespace HashMap

inductive InsertUniqueError where
  | reserve (e : TryReserveError)
  | keyAlreadyExists
deriving DecidableEq, Repr

/-- `hash_map::Entry`, as the standard library makes it. -/
inductive Entry (K : Type) where
  | occupied (bucket : Nat)
  | vacant (key : K) (hash : UInt64)

section
variable {K V ε : Type}

def borrowed {R : Type} (p : MapMethod K V ε R) : MapMethod K V ε R := do
  writeTable 0
  let r ← p
  dropWriteGuard 0
  return r

namespace Entry

/-- `OccupiedEntry::insert` and `VacantEntry::insert`: the old value, if there is one. -/
def insert (value : V) : Entry K → MapMethod K V ε (Option V)
  | .occupied bucket => do
    let old ← replaceValue 0 bucket value
    return some old
  | .vacant key hash => do
    let _ ← insertNoGrow 0 hash (key, value)
    return none

def key : Entry K → MapMethod K V ε K
  | .occupied bucket => do
    let kv ← asRef 0 bucket
    return kv.1
  | .vacant key _ => return key

/-- The bucket of the pair is what the entry, or the mutable reference, that comes back is of. -/
def insertEntry (value : V) : Entry K → MapMethod K V ε Nat
  | .occupied bucket => do
    let _ ← replaceValue 0 bucket value
    return bucket
  | .vacant key hash => insertNoGrow 0 hash (key, value)

def orInsert (value : V) : Entry K → MapMethod K V ε Nat
  | .occupied bucket => return bucket
  | .vacant key hash => insertNoGrow 0 hash (key, value)

def orInsertWithKey (value : K → V) : Entry K → MapMethod K V ε Nat
  | .occupied bucket => return bucket
  | .vacant key hash => do
    let v ← call (value key)
    insertNoGrow 0 hash (key, v)

def orInsertWith (value : Unit → V) (entry : Entry K) : MapMethod K V ε Nat :=
  entry.orInsertWithKey fun _ => value ()

def andModify (f : V → V) : Entry K → MapMethod K V ε (Entry K)
  | .occupied bucket => do
    modifyValue 0 bucket f
    return .occupied bucket
  | .vacant key hash => return .vacant key hash

end Entry

variable [BEq K] (m : HashMap K)

/-- The rehash closure of every reservation. -/
def rehash (kv : K × V) : UInt64 := m.hashOne kv.1

def containsKey (key : K) : MapMethod K V ε Bool := do
  let found ← find 0 (m.hashOne key) fun _ kv => kv.1 == key
  return found.isSome

/-- `HashMap::entry`, which reserves a bucket infallibly when none is left. -/
def entry (key : K) : MapMethod K V ε (Entry K) := do
  let hash := m.hashOne key
  match ← findOrFindInsertSlot 0 hash (fun kv => kv.1 == key) m.rehash with
  | .ok bucket => return .occupied bucket
  | .error _ => return .vacant key hash

def tryEntry (key : K) : MapMethod K V ε (Except TryReserveError (Entry K)) := do
  match ← tryReserve 0 1 m.rehash with
  | .error e => return .error e
  | .ok () => do
    let entry ← m.entry key
    return .ok entry

def tryInsert (key : K) (value : V) : MapMethod K V ε (Except TryReserveError (Option V)) := do
  match ← m.tryEntry key with
  | .error e => return .error e
  | .ok entry => do
    let old ← entry.insert value
    return .ok old

def tryInsertGiveBack (key : K) (value : V) :
    MapMethod K V ε (Except (K × V × TryReserveError) (Option V)) := do
  match ← tryReserve 0 1 m.rehash with
  | .error e => return .error (key, value, e)
  | .ok () => do
    let entry ← m.entry key
    let old ← entry.insert value
    return .ok old

def tryInsertUnique (key : K) (value : V) :
    MapMethod K V ε (Except Fault (Except (K × V × InsertUniqueError) Unit)) := do
  if ← m.containsKey (V := V) key then
    return .ok (.error (key, value, .keyAlreadyExists))
  match ← tryReserve 0 1 m.rehash with
  | .error e => return .ok (.error (key, value, .reserve e))
  | .ok () =>
    match ← m.entry key with
    | .occupied _ => return .error (.unreachable "key appeared between contains_key and entry")
    | .vacant key hash => do
      let _ ← insertNoGrow 0 hash (key, value)
      return .ok (.ok ())

end

end HashMap

end Rustyfill
