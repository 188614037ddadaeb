import Rustyfill.Maps.Actions

/-!
# `ConcurrentHashMap`

`collections/chashmap`: the shard of a hash, the entry of a key, and the methods built on
them. An entry holds the write guard of its shard until it, or the reference made from it, is
dropped.
-/

namespace Rustyfill

open Maps Interleaving

set_option autoImplicit false

/-- The fields of a map besides its shards, which are part of the shared state. -/
structure ConcurrentHashMap (K : Type) where
  shardCount : Nat
  shift : UInt64
  hashOne : K → UInt64

namespace ConcurrentHashMap

inductive WithHasherError where
  | reserve (e : TryReserveError)
  | invalidShards
deriving DecidableEq, Repr

inductive NonblockError where
  | reserve (e : TryReserveError)
  | locked
deriving DecidableEq, Repr

inductive InsertUniqueError where
  | reserve (e : TryReserveError)
  | keyAlreadyExists
deriving DecidableEq, Repr

structure OccupiedEntry where
  shard : Nat
  bucket : Nat

structure VacantEntry (K : Type) where
  shard : Nat
  key : K
  hash : UInt64
  slot : Nat

inductive Entry (K : Type) where
  | occupied (e : OccupiedEntry)
  | vacant (e : VacantEntry K)

@[simp] def Entry.shard {K : Type} : Entry K → Nat
  | .occupied e => e.shard
  | .vacant e => e.shard

/-- A reference into a shard, with the read guard it keeps. -/
structure Ref where
  shard : Nat
  bucket : Nat

/-- A reference into a shard, with the write guard it keeps. -/
structure RefMut where
  shard : Nat
  bucket : Nat

/-! ## The shard of a hash -/

section
variable {K : Type} (m : ConcurrentHashMap K)

def computeHashInternal (key : K) : UInt64 := m.hashOne key

def fastShardIndex (hash : UInt64) : UInt64 := (hash <<< 7) >>> m.shift

def shardIndexInternal (hash : UInt64) : Nat :=
  (m.fastShardIndex (hash ^^^ (hash >>> 32))).toNat

end

section
variable {K V ε : Type}

/-! ## References and entries -/

def Ref.pair (r : Ref) : MapMethod K V ε (K × V) := asRef r.shard r.bucket

def Ref.drop (r : Ref) : MapMethod K V ε Unit := dropReadGuard r.shard

def RefMut.pair (r : RefMut) : MapMethod K V ε (K × V) := asRef r.shard r.bucket

/-- What the caller does through `DerefMut`. -/
def RefMut.modify (r : RefMut) (f : V → V) : MapMethod K V ε Unit :=
  modifyValue r.shard r.bucket f

def RefMut.drop (r : RefMut) : MapMethod K V ε Unit := dropWriteGuard r.shard

namespace OccupiedEntry

def key (e : OccupiedEntry) : MapMethod K V ε K := do
  let (k, _) ← asRef e.shard e.bucket
  return k

def get (e : OccupiedEntry) : MapMethod K V ε V := do
  let (_, v) ← asRef e.shard e.bucket
  return v

/-- What the caller does through `get_mut`. -/
def modify (e : OccupiedEntry) (f : V → V) : MapMethod K V ε Unit :=
  modifyValue e.shard e.bucket f

def insert (e : OccupiedEntry) (value : V) : MapMethod K V ε V :=
  replaceValue e.shard e.bucket value

def remove (e : OccupiedEntry) : MapMethod K V ε V := do
  let (_, v) ← removePair e.shard e.bucket
  return v

def removeEntry (e : OccupiedEntry) : MapMethod K V ε (K × V) :=
  removePair e.shard e.bucket

def intoRef (e : OccupiedEntry) : RefMut := ⟨e.shard, e.bucket⟩

def drop (e : OccupiedEntry) : MapMethod K V ε Unit := dropWriteGuard e.shard

end OccupiedEntry

namespace VacantEntry

def insert (e : VacantEntry K) (value : V) : MapMethod K V ε RefMut := do
  let bucket ← insertInSlot e.shard e.hash e.slot (e.key, value)
  return ⟨e.shard, bucket⟩

def drop (e : VacantEntry K) : MapMethod K V ε Unit := dropWriteGuard e.shard

end VacantEntry

namespace Entry

def key : Entry K → MapMethod K V ε K
  | .occupied e => e.key
  | .vacant e => return e.key

def insert (entry : Entry K) (value : V) : MapMethod K V ε RefMut :=
  match entry with
  | .occupied e => do
    let _ ← e.insert value
    return e.intoRef
  | .vacant e => e.insert value

def orInsert (entry : Entry K) (value : V) : MapMethod K V ε RefMut :=
  match entry with
  | .occupied e => return e.intoRef
  | .vacant e => e.insert value

def orInsertWith (entry : Entry K) (f : Unit → V) : MapMethod K V ε RefMut :=
  match entry with
  | .occupied e => return e.intoRef
  | .vacant e => do
    let value ← call (f ())
    e.insert value

def andModify (entry : Entry K) (f : V → V) : MapMethod K V ε (Entry K) :=
  match entry with
  | .occupied e => do
    e.modify f
    return .occupied e
  | .vacant e => return .vacant e

def drop : Entry K → MapMethod K V ε Unit
  | .occupied e => e.drop
  | .vacant e => e.drop

end Entry

/-! ## The entry of a key -/

variable [BEq K] (m : ConcurrentHashMap K)

/-- The rehash closure of every reservation. -/
def rehash (kv : K × V) : UInt64 := m.hashOne kv.1

/-- What the three entry methods do once they hold the write guard of the shard. -/
def reservedEntry {β : Type} (idx : Nat) (hash : UInt64) (key : K) (fail : TryReserveError → β) :
    MapMethod K V ε (Except β (Entry K)) := do
  match ← tryReserve idx 1 m.rehash with
  | .error e => do
    dropWriteGuard idx
    return .error (fail e)
  | .ok () =>
    match ← findOrFindInsertSlot idx hash (fun kv => kv.1 == key) m.rehash with
    | .ok bucket => return .ok (.occupied ⟨idx, bucket⟩)
    | .error slot => return .ok (.vacant ⟨idx, key, hash, slot⟩)

def doEntry (key : K) : MapMethod K V ε (Except TryReserveError (Entry K)) := do
  let hash := m.computeHashInternal key
  let idx := m.shardIndexInternal hash
  writeTable idx
  m.reservedEntry idx hash key id

def doEntryNonblock (key : K) : MapMethod K V ε (Except NonblockError (Entry K)) := do
  let hash := m.computeHashInternal key
  let idx := m.shardIndexInternal hash
  if ← tryWriteTable idx then
    m.reservedEntry idx hash key .reserve
  else
    return .error .locked

def doEntryGiveBack (key : K) : MapMethod K V ε (Except (K × TryReserveError) (Entry K)) := do
  let hash := m.computeHashInternal key
  let idx := m.shardIndexInternal hash
  writeTable idx
  m.reservedEntry idx hash key fun e => (key, e)

def tryEntry (key : K) : MapMethod K V ε (Except TryReserveError (Entry K)) := m.doEntry key

def tryEntryNonblock (key : K) : MapMethod K V ε (Except NonblockError (Entry K)) :=
  m.doEntryNonblock key

def tryEntryGiveBack (key : K) : MapMethod K V ε (Except (K × TryReserveError) (Entry K)) :=
  m.doEntryGiveBack key

/-! ## Insertion -/

/-- What `try_insert` and `try_insert_give_back` do with the entry. -/
def insertThrough (value : V) : Entry K → MapMethod K V ε (Option V)
  | .occupied e => do
    let old ← e.insert value
    e.drop
    return some old
  | .vacant e => do
    let r ← e.insert value
    r.drop
    return none

def tryInsert (key : K) (value : V) : MapMethod K V ε (Except TryReserveError (Option V)) := do
  match ← m.tryEntry key with
  | .error e => return .error e
  | .ok entry => do
    let old ← insertThrough value entry
    return .ok old

def tryInsertGiveBack (key : K) (value : V) :
    MapMethod K V ε (Except (K × V × TryReserveError) (Option V)) := do
  match ← m.tryEntryGiveBack key with
  | .error (k, e) => return .error (k, value, e)
  | .ok entry => do
    let old ← insertThrough value entry
    return .ok old

/-- On a duplicate the key that comes back is a clone of the stored one. -/
def tryInsertUnique (clone : K → K) (key : K) (value : V) :
    MapMethod K V ε (Except (K × V × InsertUniqueError) Unit) := do
  match ← m.tryEntryGiveBack key with
  | .error (k, e) => return .error (k, value, .reserve e)
  | .ok (.occupied e) => do
    let k ← e.key
    e.drop
    return .error (clone k, value, .keyAlreadyExists)
  | .ok (.vacant e) => do
    let r ← e.insert value
    r.drop
    return .ok ()

/-! ## Lookup and removal -/

def get (key : K) : MapMethod K V ε (Option Ref) := do
  let hash := m.hashOne key
  let idx := m.shardIndexInternal hash
  readTable idx
  match ← find idx hash fun _ kv => kv.1 == key with
  | some bucket => return some ⟨idx, bucket⟩
  | none => do
    dropReadGuard idx
    return none

def getMut (key : K) : MapMethod K V ε (Option RefMut) := do
  let hash := m.hashOne key
  let idx := m.shardIndexInternal hash
  writeTable idx
  match ← find idx hash fun _ kv => kv.1 == key with
  | some bucket => return some ⟨idx, bucket⟩
  | none => do
    dropWriteGuard idx
    return none

def containsKey (key : K) : MapMethod K V ε Bool := do
  match ← m.get (V := V) key with
  | some r => do
    r.drop
    return true
  | none => return false

def removeEntry (key : K) : MapMethod K V ε (Option (K × V)) := do
  let hash := m.hashOne key
  let idx := m.shardIndexInternal hash
  writeTable idx
  match ← find idx hash fun _ kv => kv.1 == key with
  | some bucket => do
    let kv ← removePair idx bucket
    return some kv
  | none => do
    dropWriteGuard idx
    return none

def remove (key : K) : MapMethod K V ε (Option V) := do
  let hash := m.hashOne key
  let idx := m.shardIndexInternal hash
  writeTable idx
  match ← find idx hash fun _ kv => kv.1 == key with
  | some bucket => do
    let (_, v) ← removePair idx bucket
    return some v
  | none => do
    dropWriteGuard idx
    return none

/-! ## All shards -/

omit [BEq K]

def reserveShards (perShard : Nat) : List Nat → MapMethod K V ε (Except TryReserveError Unit)
  | [] => return .ok ()
  | i :: is => do
    writeTable i
    match ← Maps.tryReserve i perShard m.rehash with
    | .error e => do
      dropWriteGuard i
      return .error e
    | .ok () => do
      dropWriteGuard i
      reserveShards perShard is

def divCeil (a b : Nat) : Nat := (a + b - 1) / b

def tryReserve (additional : Nat) : MapMethod K V ε (Except TryReserveError Unit) :=
  let perShard := divCeil additional m.shardCount
  if perShard = 0 then return .ok ()
  else m.reserveShards perShard (List.range m.shardCount)

/-- The loop of `len`, whose sum is checked. -/
def lenShards (count : Nat) : List Nat → MapMethod K V ε (Except Fault Nat)
  | [] => return .ok count
  | i :: is => do
    readTable i
    let n ← Maps.len i
    dropReadGuard i
    match expect "overflowing on length add is impossible" (checkedAdd usizeMax count n) with
    | .error fault => return .error fault
    | .ok count => lenShards count is

def len : MapMethod K V ε (Except Fault Nat) := lenShards 0 (List.range m.shardCount)

/-- The loop of `visit_all`: the closure `f` sees the pairs one by one. -/
def visitShards {σ : Type} (f : σ → K → V → σ) (acc : σ) : List Nat → MapMethod K V ε σ
  | [] => return acc
  | i :: is => do
    readTable i
    let pairs ← iter i
    dropReadGuard i
    visitShards f (pairs.foldl (fun acc (_, kv) => f acc kv.1 kv.2) acc) is

def visitAll {σ : Type} (f : σ → K → V → σ) (init : σ) : MapMethod K V ε σ :=
  visitShards f init (List.range m.shardCount)

end

/-! ## Construction -/

section
variable {K : Type}

def usizeBits : Nat := 64

/-- `isize::MAX`, the largest size of a layout. -/
def isizeMax : Nat := 9223372036854775807

def trailingZerosUpTo : Nat → Nat → Nat
  | 0, _ => 0
  | bits + 1, n => if n % 2 = 1 then 0 else trailingZerosUpTo bits (n / 2) + 1

def trailingZeros (n : Nat) : Nat := trailingZerosUpTo usizeBits n

def isPowerOfTwo (n : Nat) : Bool := decide (∃ k < usizeBits, n = 2 ^ k)

/-- The fields, once the shard count is checked. -/
def ofShards (hasher : K → UInt64) (shardCount : Nat) (msg : String) :
    Except Fault (ConcurrentHashMap K) := do
  let shift ← expect msg (checkedSub usizeBits (trailingZeros shardCount))
  return ⟨shardCount, UInt64.ofNat shift, hasher⟩

/-- A shard takes `shardBytes` bytes; the shards are one allocation. -/
def tryWithHasherAndShards (shardBytes : Nat) (hasher : K → UInt64) (shardCount : Nat)
    (a : Allocator) :
    Except Fault (Except WithHasherError (ConcurrentHashMap K) × Allocator) := do
  if shardCount < 2 ∨ isPowerOfTwo shardCount = false then
    return (.error .invalidShards, a)
  let m ← ofShards hasher shardCount "trailing zeros <= BITS for nonzero power of two"
  if isizeMax < shardBytes * shardCount then
    return (.error (.reserve .capacityOverflow), a)
  if a.request.1 then
    return (.ok m, a.request.2)
  else
    return (.error (.reserve .allocError), a.request.2)

def fromStatic (hasher : K → UInt64) (shardCount : Nat) : Except Fault (ConcurrentHashMap K) :=
  if 2 ≤ shardCount ∧ isPowerOfTwo shardCount = true then
    ofShards hasher shardCount "power-of-two len has trailing zeros <= BITS"
  else
    .error (.expect "static shard count must be a power of two and >= 2")

/-- What a constructor adds for a capacity. -/
def reserveCapacity {V ε : Type} (m : ConcurrentHashMap K) (capacity : Nat) :
    MapMethod K V ε (Except WithHasherError Unit) := do
  if 0 < capacity then
    match ← m.tryReserve capacity with
    | .error e => return .error (.reserve e)
    | .ok () => return .ok ()
  else
    return .ok ()

end

end ConcurrentHashMap

end Rustyfill
