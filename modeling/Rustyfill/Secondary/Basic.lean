import Rustyfill.Slotmap.Basic

/-!
# The secondary map

`collections/slotmap/secondary.rs`: values kept under the keys of a slot map, each in the slot
of its key's index with the version of its key. Any key can be given, also one that no slot map
issued (`KeyData::from_ffi`).
-/

namespace Rustyfill.Secondary

open Slotmap (KeyData maxSlotsLen TryCloneError)

set_option autoImplicit false

def wrappingSub (a b : Nat) : Nat := (a + (u32Max + 1 - b)) % (u32Max + 1)

def isOlderVersion (a b : Nat) : Bool := decide (2147483648 ≤ wrappingSub a b)

/-- The version of an occupied slot: a `NonZeroU32` with the lowest bit set. -/
abbrev Version := { n : Nat // n ≤ u32Max ∧ n % 2 = 1 }

def versionOf (key : KeyData) : Version := ⟨key.version, key.version_le, key.version_odd⟩

/-- `KeyData::from_ffi`, on a `u64`. -/
def fromFfi (value : Nat) : KeyData := .new (value &&& u32Max) ((value >>> 32) ||| 1)

def isNull (key : KeyData) : Bool := key.idx == u32Max

inductive Slot (V : Type) where
  | occupied (value : V) (version : Version)
  | vacant

section Slots
variable {V E : Type}

/-- `Slot::new_occupied`: the version is forced odd. -/
def Slot.newOccupied (version : Nat) (value : V) : Slot V :=
  .occupied value (versionOf (KeyData.new 0 version))

def Slot.version : Slot V → Nat
  | .occupied _ version => version.val
  | .vacant => 0

def Slot.isOccupied : Slot V → Bool
  | .occupied _ _ => true
  | .vacant => false

def Slot.getUnchecked : Slot V → Except Fault V
  | .occupied value _ => .ok value
  | .vacant => .error .undefined

def Slot.intoOption : Slot V → Option V
  | .occupied value _ => some value
  | .vacant => none

def Slot.tryClone (clone : V → Except E V) : Slot V → Except E (Slot V)
  | .occupied value version => (clone value).map fun value => .occupied value version
  | .vacant => .ok .vacant

end Slots

structure SecondaryMap (V : Type) where
  slots : List (Slot V)
  capacity : Nat
  numElems : Nat

/-- An entry borrows the map, which is passed beside it. -/
inductive Entry where
  | occupied (kd : KeyData)
  | vacant (kd : KeyData)

/-- `Iter`, `IterMut` and `IntoIter`: the slots still to visit with their indices, and the count
of pairs to yield. -/
structure Iter (V : Type) where
  numLeft : Nat
  slots : List (Slot V × Nat)

namespace Iter
variable {V : Type}

def nextLoop (numLeft : Nat) : List (Slot V × Nat) → Except Fault (Option (KeyData × V) × Iter V)
  | [] => .ok (none, ⟨numLeft, []⟩)
  | (.vacant, _) :: rest => nextLoop numLeft rest
  | (.occupied value version, idx) :: rest => do
    let left ← expect "remaining count positive" (checkedSub numLeft 1)
    .ok (some (KeyData.new idx version.val, value), ⟨left, rest⟩)

def next (it : Iter V) : Except Fault (Option (KeyData × V) × Iter V) :=
  nextLoop it.numLeft it.slots

/-- Run the iterator for up to `n` calls: each pair with the `size_hint` read after it. -/
def take : Nat → Iter V → Except Fault (List ((KeyData × V) × Nat) × Iter V)
  | 0, it => .ok ([], it)
  | n + 1, it => do
    match ← it.next with
    | (none, it) => .ok ([], it)
    | (some pair, it) =>
      let (rest, it') ← take n it
      .ok ((pair, it.numLeft) :: rest, it')

end Iter

namespace SecondaryMap
variable {V E : Type} [RawVec (Slot V)]

def tryWithCapacity (capacity : Nat) (a : Allocator) :
    Except TryReserveError (SecondaryMap V) × Allocator :=
  if maxSlotsLen - 1 ≤ capacity then (.error .capacityOverflow, a)
  else
    match vecTryReserve (Slot V) 0 0 (capacity + 1) a with
    | (.error e, a) => (.error e, a)
    | (.ok room, a) => (.ok ⟨[.vacant], room, 0⟩, a)

def trySetCapacity (sm : SecondaryMap V) (newCapacity : Nat) (a : Allocator) :
    Except TryReserveError Unit × SecondaryMap V × Allocator :=
  if maxSlotsLen - 1 ≤ newCapacity then (.error .capacityOverflow, sm, a)
  else if sm.capacity < newCapacity + 1 then
    match vecTryReserve (Slot V) sm.slots.length sm.capacity
        (newCapacity + 1 - sm.slots.length) a with
    | (.error e, a) => (.error e, sm, a)
    | (.ok capacity, a) => (.ok (), { sm with capacity }, a)
  else (.ok (), sm, a)

def containsKey (sm : SecondaryMap V) (key : KeyData) : Bool :=
  match sm.slots[key.idx]? with
  | some slot => slot.version == key.version
  | none => false

def get (sm : SecondaryMap V) (key : KeyData) : Except Fault (Option V) :=
  match sm.slots[key.idx]? with
  | none => .ok none
  | some slot => if slot.version = key.version then slot.getUnchecked.map some else .ok none

/-- `get_unchecked_mut`, with what the caller writes through the reference it gets; the value
that was there is returned. -/
def getUncheckedMut (sm : SecondaryMap V) (idx : Nat) (write : V → V) :
    Except Fault (V × SecondaryMap V) :=
  match sm.slots[idx]? with
  | some (.occupied value version) =>
    .ok (value, { sm with slots := sm.slots.set idx (.occupied (write value) version) })
  | _ => .error .undefined

def getMut (sm : SecondaryMap V) (key : KeyData) (write : V → V) :
    Except Fault (Option V × SecondaryMap V) :=
  match sm.slots[key.idx]? with
  | none => .ok (none, sm)
  | some slot =>
    if slot.version = key.version then do
      let (value, sm) ← sm.getUncheckedMut key.idx write
      .ok (some value, sm)
    else .ok (none, sm)

/-- Count one element less, and leave a vacant slot. -/
def vacate (sm : SecondaryMap V) (idx : Nat) : Except Fault (SecondaryMap V) := do
  let numElems ← expect "at least one element present" (checkedSub sm.numElems 1)
  .ok { sm with slots := sm.slots.set idx .vacant, numElems }

def remove (sm : SecondaryMap V) (key : KeyData) : Except Fault (Option V × SecondaryMap V) :=
  match sm.slots[key.idx]? with
  | none => .ok (none, sm)
  | some slot =>
    if slot.version = key.version then do
      let sm ← sm.vacate key.idx
      .ok (slot.intoOption, sm)
    else .ok (none, sm)

/-- `try_resize_with` on the slots, up. -/
def growTo (sm : SecondaryMap V) (targetLen : Nat) (a : Allocator) :
    Except TryReserveError Unit × SecondaryMap V × Allocator :=
  if sm.slots.length < targetLen then
    match vecTryReserve (Slot V) sm.slots.length sm.capacity (targetLen - sm.slots.length) a with
    | (.error e, a) => (.error e, sm, a)
    | (.ok capacity, a) =>
      (.ok (), { sm with
        slots := sm.slots ++ List.replicate (targetLen - sm.slots.length) .vacant, capacity }, a)
  else (.ok (), sm, a)

def tryEntry (sm : SecondaryMap V) (key : KeyData) (a : Allocator) :
    Except Fault (Except TryReserveError (Option Entry) × SecondaryMap V × Allocator) :=
  if isNull key then .ok (.ok none, sm, a)
  else if maxSlotsLen - 1 ≤ key.idx then .ok (.error .capacityOverflow, sm, a)
  else do
    let targetLen ← expect "slot index below MAX_SLOTS_LEN" (checkedAdd usizeMax key.idx 1)
    match sm.growTo targetLen a with
    | (.error e, sm, a) => .ok (.error e, sm, a)
    | (.ok (), sm, a) =>
      match sm.slots[key.idx]? with
      | none => .error (.unreachable "index out of bounds")
      | some slot =>
        if key.version = slot.version then .ok (.ok (some (.occupied key)), sm, a)
        else if isOlderVersion key.version slot.version then .ok (.ok none, sm, a)
        else .ok (.ok (some (.vacant key)), sm, a)

/-- `OccupiedEntry::insert` returns the value that was there. -/
def occupiedInsert (sm : SecondaryMap V) (kd : KeyData) (value : V) :
    Except Fault (V × SecondaryMap V) :=
  sm.getUncheckedMut kd.idx fun _ => value

def occupiedRemove (sm : SecondaryMap V) (kd : KeyData) : Except Fault (V × SecondaryMap V) :=
  match sm.slots[kd.idx]? with
  | none => .error .undefined
  | some slot => do
    let sm ← sm.vacate kd.idx
    let value ← slot.getUnchecked
    .ok (value, sm)

def vacantInsert (sm : SecondaryMap V) (kd : KeyData) (value : V) :
    Except Fault (SecondaryMap V) :=
  match sm.slots[kd.idx]? with
  | none => .error .undefined
  | some (.occupied _ _) =>
    .ok { sm with slots := sm.slots.set kd.idx (.newOccupied kd.version value) }
  | some .vacant => do
    let numElems ← expect "element count below MAX_SLOTS_LEN" (checkedAdd usizeMax sm.numElems 1)
    .ok { sm with slots := sm.slots.set kd.idx (.newOccupied kd.version value), numElems }

def tryInsertGiveBack (sm : SecondaryMap V) (key : KeyData) (value : V) (a : Allocator) :
    Except Fault (Except (V × TryReserveError) (Option V) × SecondaryMap V × Allocator) := do
  match ← sm.tryEntry key a with
  | (.ok none, sm, a) => .ok (.ok none, sm, a)
  | (.ok (some (.occupied kd)), sm, a) =>
    let (old, sm) ← sm.occupiedInsert kd value
    .ok (.ok (some old), sm, a)
  | (.ok (some (.vacant kd)), sm, a) =>
    let sm ← sm.vacantInsert kd value
    .ok (.ok none, sm, a)
  | (.error e, sm, a) => .ok (.error (value, e), sm, a)

def tryInsert (sm : SecondaryMap V) (key : KeyData) (value : V) (a : Allocator) :
    Except Fault (Except TryReserveError (Option V) × SecondaryMap V × Allocator) := do
  match ← sm.tryInsertGiveBack key value a with
  | (.ok old, sm, a) => .ok (.ok old, sm, a)
  | (.error (_, e), sm, a) => .ok (.error e, sm, a)

/-- `Extend::extend` does not look at the results. -/
def extend : List (KeyData × V) → SecondaryMap V → Allocator →
    Except Fault (SecondaryMap V × Allocator)
  | [], sm, a => .ok (sm, a)
  | (key, value) :: rest, sm, a => do
    let (_, sm, a) ← sm.tryInsert key value a
    extend rest sm a

/-- The loop of `retain`. The predicate is a closure with state, so it is given the number of
its earlier calls. -/
def retainLoop (f : Nat → KeyData → V → Bool × V) :
    Nat → Nat → Nat → SecondaryMap V → Except Fault (SecondaryMap V)
  | 0, _, _, sm => .ok sm
  | n + 1, i, calls, sm =>
    match sm.slots[i]? with
    | some (.occupied value version) =>
      let answer := f calls (KeyData.new i version.val) value
      let sm := { sm with slots := sm.slots.set i (.occupied answer.2 version) }
      if answer.1 then retainLoop f n (i + 1) (calls + 1) sm
      else do
        let sm ← sm.vacate i
        retainLoop f n (i + 1) (calls + 1) sm
    | _ => retainLoop f n (i + 1) calls sm

def retain (sm : SecondaryMap V) (f : Nat → KeyData → V → Bool × V) :
    Except Fault (SecondaryMap V) :=
  retainLoop f sm.slots.length 0 0 sm

/-- `Drain::next`: the `while` loop, which runs at most once for each slot from the cursor on. -/
def drainNextLoop : Nat → Nat → SecondaryMap V →
    Except Fault (Option (KeyData × V) × Nat × SecondaryMap V)
  | 0, cur, sm => .ok (none, cur, sm)
  | n + 1, cur, sm =>
    match sm.slots[cur]? with
    | none => .ok (none, cur, sm)
    | some slot => do
      let nextCur ← expect "cursor below slot length" (checkedAdd usizeMax cur 1)
      match slot with
      | .occupied value version =>
        let sm ← sm.vacate cur
        .ok (some (KeyData.new cur version.val, value), nextCur, sm)
      | .vacant => drainNextLoop n nextCur sm

def drainNext (cur : Nat) (sm : SecondaryMap V) :
    Except Fault (Option (KeyData × V) × Nat × SecondaryMap V) :=
  drainNextLoop (sm.slots.length - cur) cur sm

/-- Call `Drain::next` up to `n` times, stopping at `None`: the pairs it yields, each with the
`size_hint` read after it. -/
def drainTake : Nat → Nat → SecondaryMap V →
    Except Fault (List ((KeyData × V) × Nat) × Nat × SecondaryMap V)
  | 0, cur, sm => .ok ([], cur, sm)
  | n + 1, cur, sm => do
    match ← drainNext cur sm with
    | (none, cur, sm) => .ok ([], cur, sm)
    | (some pair, cur, sm) =>
      let (rest, cur, sm') ← drainTake n cur sm
      .ok ((pair, sm.numElems) :: rest, cur, sm')

/-- A `Drain` that is run for `n` calls and then dropped: its `Drop` runs it to the end. -/
def drain (sm : SecondaryMap V) (n : Nat) :
    Except Fault (List ((KeyData × V) × Nat) × List ((KeyData × V) × Nat) × SecondaryMap V) := do
  let (yielded, cur, sm) ← drainTake n 1 sm
  let (dropped, _, sm) ← drainTake (sm.slots.length + 1 - cur) cur sm
  .ok (yielded, dropped, sm)

def clear (sm : SecondaryMap V) : Except Fault (SecondaryMap V) := do
  let (_, _, sm) ← drain sm 0
  .ok sm

def iter (sm : SecondaryMap V) : Iter V := ⟨sm.numElems, sm.slots.zipIdx⟩

/-- `into_iter`: the enumeration has already stepped over the sentinel slot. -/
def intoIter (sm : SecondaryMap V) : Iter V := ⟨sm.numElems, sm.slots.zipIdx.drop 1⟩

/-- A pass of `iter_mut`, with what the caller writes to the values it is shown. -/
def iterMut (write : KeyData → V → V) (sm : SecondaryMap V) : SecondaryMap V :=
  { sm with slots := sm.slots.zipIdx.map fun
      | (.occupied value version, idx) =>
        .occupied (write (KeyData.new idx version.val) value) version
      | (.vacant, _) => .vacant }

/-- The loop of `eq`, over the pairs of one map. -/
def eqLoop [BEq V] (other : SecondaryMap V) : Nat → Iter V → Except Fault Bool
  | 0, _ => .error (.unreachable "more turns than slots")
  | n + 1, it => do
    match ← it.next with
    | (none, _) => .ok true
    | (some (key, value), it) =>
      match ← other.get key with
      | some ov => if value == ov then eqLoop other n it else .ok false
      | none => .ok false

def eq [BEq V] (sm other : SecondaryMap V) : Except Fault Bool :=
  if sm.numElems != other.numElems then .ok false
  else eqLoop other (sm.slots.length + 1) sm.iter

/-- The element loop of `Vec::try_clone`. The clone of a value may depend on which clone of the
run it is, so it is given the slot's index. -/
def tryCloneSlots (clone : Nat → V → Except E V) : Nat → List (Slot V) → Except E (List (Slot V))
  | _, [] => .ok []
  | i, s :: rest => do
    let s ← s.tryClone (clone i)
    let rest ← tryCloneSlots clone (i + 1) rest
    .ok (s :: rest)

def tryClone (sm : SecondaryMap V) (clone : Nat → V → Except E V) (a : Allocator) :
    Except (TryCloneError E) (SecondaryMap V) × Allocator :=
  match vecTryReserve (Slot V) 0 0 sm.slots.length a with
  | (.error e, a) => (.error (.reserve e), a)
  | (.ok capacity, a) =>
    match tryCloneSlots clone 0 sm.slots with
    | .error e => (.error (.element e), a)
    | .ok slots => (.ok ⟨slots, capacity, sm.numElems⟩, a)

end SecondaryMap

/-- What a caller does with an entry. `matched` is a `match` on it: writes through `get_mut` and
`insert` and then perhaps `remove` when it is occupied, perhaps `insert` when it is vacant. -/
inductive EntryUse (V : Type) where
  | orInsert (default : V) (write : V → V)
  | andModify (f : V → V) (default : Option V)
  | matched (writes : List (V → V)) (remove : Bool) (value : Option V)

namespace EntryUse
variable {V : Type}

def writeAll (kd : KeyData) : List (V → V) → SecondaryMap V → Except Fault (SecondaryMap V)
  | [], sm => .ok sm
  | write :: rest, sm => do
    let (_, sm) ← sm.getUncheckedMut kd.idx write
    writeAll kd rest sm

/-- The reference that `VacantEntry::insert` returns is written through. -/
def insertAndWrite (kd : KeyData) (value : V) (write : V → V) (sm : SecondaryMap V) :
    Except Fault (SecondaryMap V) := do
  let sm ← sm.vacantInsert kd value
  let (_, sm) ← sm.getUncheckedMut kd.idx write
  .ok sm

def exec (sm : SecondaryMap V) : EntryUse V → Entry → Except Fault (SecondaryMap V)
  | orInsert _ write, .occupied kd => writeAll kd [write] sm
  | orInsert default write, .vacant kd => insertAndWrite kd default write sm
  | andModify f _, .occupied kd => writeAll kd [f] sm
  | andModify _ (some default), .vacant kd => sm.vacantInsert kd default
  | andModify _ none, .vacant _ => .ok sm
  | matched writes remove _, .occupied kd => do
    let sm ← writeAll kd writes sm
    if remove then
      let (_, sm) ← sm.occupiedRemove kd
      .ok sm
    else .ok sm
  | matched _ _ (some value), .vacant kd => sm.vacantInsert kd value
  | matched _ _ none, .vacant _ => .ok sm

end EntryUse

end Rustyfill.Secondary
