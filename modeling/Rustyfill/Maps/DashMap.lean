import Rustyfill.Maps.Actions

/-!
# `DashMap`

`dashmap`: the fallible entry methods this crate adds to the map of the `dashmap` crate, and
the insertions built on them. The choice of a shard is that crate's own.
-/

namespace Rustyfill

open Maps Interleaving

set_option autoImplicit false

/-- What the methods use of a map: its hasher and its `determine_shard`. -/
structure DashMap (K : Type) where
  hashOne : K → UInt64
  determineShard : UInt64 → Nat

namespace DashMap

inductive NonblockError where
  | reserve (e : TryReserveError)
  | locked
deriving DecidableEq, Repr

inductive InsertUniqueError where
  | reserve (e : TryReserveError)
  | keyAlreadyExists
deriving DecidableEq, Repr

inductive InsertUniqueNonblockError where
  | reserve (e : TryReserveError)
  | locked
  | keyAlreadyExists
deriving DecidableEq, Repr

inductive EntryByRefError (ε : Type) where
  | reserve (e : TryReserveError)
  | clone (e : ε)

structure OccupiedEntry (K : Type) where
  shard : Nat
  bucket : Nat
  key : K

structure VacantEntry (K : Type) where
  shard : Nat
  key : K
  hash : UInt64
  slot : Nat

inductive Entry (K : Type) where
  | occupied (e : OccupiedEntry K)
  | vacant (e : VacantEntry K)

@[simp] def Entry.shard {K : Type} : Entry K → Nat
  | .occupied e => e.shard
  | .vacant e => e.shard

/-- A reference into a shard, with the write guard it keeps. -/
structure RefMut where
  shard : Nat
  bucket : Nat

def mapNbToUnique : NonblockError → InsertUniqueNonblockError
  | .reserve e => .reserve e
  | .locked => .locked

section
variable {K V ε : Type}

/-! ## References and entries -/

/-- What the caller does through `value_mut`. -/
def RefMut.modify (r : RefMut) (f : V → V) : MapMethod K V ε Unit :=
  modifyValue r.shard r.bucket f

def RefMut.pair (r : RefMut) : MapMethod K V ε (K × V) := asRef r.shard r.bucket

def RefMut.drop (r : RefMut) : MapMethod K V ε Unit := dropWriteGuard r.shard

namespace OccupiedEntry

def get (e : OccupiedEntry K) : MapMethod K V ε V := do
  let (_, v) ← asRef e.shard e.bucket
  return v

/-- What the caller does through `get_mut`. -/
def modify (e : OccupiedEntry K) (f : V → V) : MapMethod K V ε Unit :=
  modifyValue e.shard e.bucket f

def insert (e : OccupiedEntry K) (value : V) : MapMethod K V ε V :=
  replaceValue e.shard e.bucket value

def intoRef (e : OccupiedEntry K) : RefMut := ⟨e.shard, e.bucket⟩

def drop (e : OccupiedEntry K) : MapMethod K V ε Unit := dropWriteGuard e.shard

/-- The key of the call, not the stored one. -/
def intoKey (e : OccupiedEntry K) : MapMethod K V ε K := do
  e.drop
  return e.key

def storedKey (e : OccupiedEntry K) : MapMethod K V ε K := do
  let (k, _) ← asRef e.shard e.bucket
  return k

def remove (e : OccupiedEntry K) : MapMethod K V ε V := do
  let (_, v) ← removePair e.shard e.bucket
  return v

def removeEntry (e : OccupiedEntry K) : MapMethod K V ε (K × V) :=
  removePair e.shard e.bucket

/-- Puts the key of the call in the place of the stored one. -/
def replaceEntry (e : OccupiedEntry K) (value : V) : MapMethod K V ε (K × V) := do
  let kv ← asRef e.shard e.bucket
  write e.shard e.bucket (e.key, value)
  e.drop
  return kv

end OccupiedEntry

namespace VacantEntry

def insert (e : VacantEntry K) (value : V) : MapMethod K V ε RefMut := do
  let bucket ← insertInSlot e.shard e.hash e.slot (e.key, value)
  return ⟨e.shard, bucket⟩

/-- Stores a clone of the key and keeps the key itself. -/
def insertEntry (clone : K → K) (e : VacantEntry K) (value : V) :
    MapMethod K V ε (OccupiedEntry K) := do
  let bucket ← insertInSlot e.shard e.hash e.slot (clone e.key, value)
  return ⟨e.shard, bucket, e.key⟩

def drop (e : VacantEntry K) : MapMethod K V ε Unit := dropWriteGuard e.shard

def intoKey (e : VacantEntry K) : MapMethod K V ε K := do
  e.drop
  return e.key

end VacantEntry

namespace Entry

def drop : Entry K → MapMethod K V ε Unit
  | .occupied e => e.drop
  | .vacant e => e.drop

def andModify (entry : Entry K) (f : V → V) : MapMethod K V ε (Entry K) :=
  match entry with
  | .occupied e => do
    e.modify f
    return .occupied e
  | .vacant e => return .vacant e

def key : Entry K → MapMethod K V ε K
  | .occupied e => e.storedKey
  | .vacant e => return e.key

def intoKey : Entry K → MapMethod K V ε K
  | .occupied e => e.intoKey
  | .vacant e => e.intoKey

def orInsert (entry : Entry K) (value : V) : MapMethod K V ε RefMut :=
  match entry with
  | .occupied e => return e.intoRef
  | .vacant e => e.insert value

def orInsertWith (entry : Entry K) (value : Unit → V) : MapMethod K V ε RefMut :=
  match entry with
  | .occupied e => return e.intoRef
  | .vacant e => do
    let v ← call (value ())
    e.insert v

def orTryInsertWith (entry : Entry K) (value : Unit → Except ε V) :
    MapMethod K V ε (Except ε RefMut) :=
  match entry with
  | .occupied e => return .ok e.intoRef
  | .vacant e => do
    match ← tryCall (value ()) with
    | .error err => do
      e.drop
      return .error err
    | .ok v => do
      let r ← e.insert v
      return .ok r

def orTryDefault (entry : Entry K) (tryDefault : Except ε V) :
    MapMethod K V ε (Except ε RefMut) :=
  entry.orTryInsertWith fun _ => tryDefault

def insert (entry : Entry K) (value : V) : MapMethod K V ε RefMut :=
  match entry with
  | .occupied e => do
    let _ ← e.insert value
    return e.intoRef
  | .vacant e => e.insert value

def insertEntry (clone : K → K) (entry : Entry K) (value : V) :
    MapMethod K V ε (OccupiedEntry K) :=
  match entry with
  | .occupied e => do
    let _ ← e.insert value
    return e
  | .vacant e => e.insertEntry clone value

end Entry

/-! ## The entry of a key -/

variable [BEq K] (m : DashMap K)

def computeHash (key : K) : UInt64 := m.hashOne key

/-- The rehash closure of every reservation. -/
def rehash (kv : K × V) : UInt64 := m.hashOne kv.1

/-- The reservation every entry method starts with; on failure the guard is dropped. -/
def reserveOne {β : Type} (idx : Nat) (fail : TryReserveError → β) :
    MapMethod K V ε (Except β Unit) := do
  match ← tryReserve idx 1 m.rehash with
  | .error e => do
    dropWriteGuard idx
    return .error (fail e)
  | .ok () => return .ok ()

def lookup (idx : Nat) (hash : UInt64) (key : K) : MapMethod K V ε (Entry K) := do
  match ← findOrFindInsertSlot idx hash (fun kv => kv.1 == key) m.rehash with
  | .ok bucket => return .occupied ⟨idx, bucket, key⟩
  | .error slot => return .vacant ⟨idx, key, hash, slot⟩

def reservedEntry {β : Type} (idx : Nat) (hash : UInt64) (key : K) (fail : TryReserveError → β) :
    MapMethod K V ε (Except β (Entry K)) := do
  match ← m.reserveOne idx fail with
  | .error e => return .error e
  | .ok () => do
    let entry ← m.lookup idx hash key
    return .ok entry

def tryEntry (key : K) : MapMethod K V ε (Except TryReserveError (Entry K)) := do
  let hash := m.computeHash key
  let idx := m.determineShard hash
  writeTable idx
  m.reservedEntry idx hash key id

def tryEntryGiveBack (key : K) : MapMethod K V ε (Except (K × TryReserveError) (Entry K)) := do
  let hash := m.computeHash key
  let idx := m.determineShard hash
  writeTable idx
  m.reservedEntry idx hash key fun e => (key, e)

def tryEntryNonblock (key : K) : MapMethod K V ε (Except NonblockError (Entry K)) := do
  let hash := m.computeHash key
  let idx := m.determineShard hash
  if ← tryWriteTable idx then
    m.reservedEntry idx hash key .reserve
  else
    return .error .locked

def tryEntryGiveBackNonblock (key : K) :
    MapMethod K V ε (Except (K × NonblockError) (Entry K)) := do
  let hash := m.computeHash key
  let idx := m.determineShard hash
  if ← tryWriteTable idx then
    m.reservedEntry idx hash key fun e => (key, .reserve e)
  else
    return .error (key, .locked)

/-- The key is cloned between the reservation and the lookup, under the guard. -/
def tryEntryRef (clone : K → Except ε K) (key : K) :
    MapMethod K V ε (Except (EntryByRefError ε) (Entry K)) := do
  let hash := m.computeHash key
  let idx := m.determineShard hash
  writeTable idx
  match ← m.reserveOne idx EntryByRefError.reserve with
  | .error e => return .error e
  | .ok () =>
    match ← tryClone (clone key) with
    | .error e => do
      dropWriteGuard idx
      return .error (.clone e)
    | .ok key => do
      let entry ← m.lookup idx hash key
      return .ok entry

/-! ## Insertion -/

def insertThrough (value : V) : Entry K → MapMethod K V ε (Option V)
  | .occupied e => do
    let old ← e.insert value
    e.drop
    return some old
  | .vacant e => do
    let r ← e.insert value
    r.drop
    return none

/-- What the unique insertions do with the entry: the key of the call comes back. -/
def insertIfVacant {β : Type} (value : V) (exists_ : β) :
    Entry K → MapMethod K V ε (Except (K × V × β) Unit)
  | .occupied e => do
    let returnedKey ← e.intoKey
    return .error (returnedKey, value, exists_)
  | .vacant e => do
    let r ← e.insert value
    r.drop
    return .ok ()

def tryInsert (key : K) (value : V) : MapMethod K V ε (Except TryReserveError (Option V)) := do
  match ← m.tryEntry key with
  | .error e => return .error e
  | .ok entry => do
    let old ← insertThrough value entry
    return .ok old

def tryInsertGiveBack (key : K) (value : V) :
    MapMethod K V ε (Except (K × V × TryReserveError) (Option V)) := do
  match ← m.tryEntryGiveBack key with
  | .error (k, e) => return .error (k, value, e)
  | .ok entry => do
    let old ← insertThrough value entry
    return .ok old

def tryInsertUnique (key : K) (value : V) :
    MapMethod K V ε (Except (K × V × InsertUniqueError) Unit) := do
  match ← m.tryEntryGiveBack key with
  | .error (k, e) => return .error (k, value, .reserve e)
  | .ok entry => insertIfVacant value .keyAlreadyExists entry

def tryInsertNonblock (key : K) (value : V) :
    MapMethod K V ε (Except NonblockError (Option V)) := do
  match ← m.tryEntryNonblock key with
  | .error e => return .error e
  | .ok entry => do
    let old ← insertThrough value entry
    return .ok old

def tryInsertGiveBackNonblock (key : K) (value : V) :
    MapMethod K V ε (Except (K × V × NonblockError) (Option V)) := do
  match ← m.tryEntryGiveBackNonblock key with
  | .error (k, e) => return .error (k, value, e)
  | .ok entry => do
    let old ← insertThrough value entry
    return .ok old

def tryInsertUniqueNonblock (key : K) (value : V) :
    MapMethod K V ε (Except (K × V × InsertUniqueNonblockError) Unit) := do
  match ← m.tryEntryGiveBackNonblock key with
  | .error (k, e) => return .error (k, value, mapNbToUnique e)
  | .ok entry => insertIfVacant value .keyAlreadyExists entry

end

end DashMap

end Rustyfill
