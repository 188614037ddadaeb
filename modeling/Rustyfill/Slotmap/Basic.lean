import Rustyfill.Runtime

/-!
# The slot map

`collections/slotmap/basic.rs` and `key.rs`: slots that are a union of a value and a
free-list link, told apart by the parity of their version; the free list threaded
through them; and the operations that rewrite it.

A read of the union member that was not written is `Fault.undefined`, and each
`expect` of the source keeps its message, so that "no operation faults" is a
statement about all of them.
-/

namespace Rustyfill.Slotmap

set_option autoImplicit false

/-- The `next_free` of a detached slot. -/
def danglingSentinel : Nat := u32Max

/-- Bound on the length of the slots vector, the sentinel slot included. -/
def maxSlotsLen : Nat := danglingSentinel - 1

/-- A key: a slot index and the odd version the slot had when it was filled. -/
@[ext] structure KeyData where
  idx : Nat
  version : Nat
  idx_le : idx ≤ u32Max
  version_le : version ≤ u32Max
  version_odd : version % 2 = 1
deriving DecidableEq

theorem lor_one_mod_two (n : Nat) : (n ||| 1) % 2 = 1 := by
  rw [Nat.or_mod_two_eq_one]
  exact Or.inr rfl

theorem lor_one_div_two (n : Nat) : (n ||| 1) / 2 = n / 2 := by
  rw [Nat.or_div_two]
  simp

theorem lor_one_of_odd {n : Nat} (h : n % 2 = 1) : n ||| 1 = n := by
  have h1 := lor_one_mod_two n
  have h2 := lor_one_div_two n
  omega

theorem lor_one_of_even {n : Nat} (h : n % 2 = 0) : n ||| 1 = n + 1 := by
  have h1 := lor_one_mod_two n
  have h2 := lor_one_div_two n
  omega

/-- `KeyData::new`: the arguments are `u32`, and the version is forced odd. -/
def KeyData.new (idx version : Nat) : KeyData where
  idx := idx % (u32Max + 1)
  version := (version ||| 1) % (u32Max + 1)
  idx_le := Nat.le_of_lt_succ (Nat.mod_lt idx (Nat.succ_pos u32Max))
  version_le := Nat.le_of_lt_succ (Nat.mod_lt (version ||| 1) (Nat.succ_pos u32Max))
  version_odd := by
    have h := lor_one_mod_two version
    unfold u32Max
    omega

theorem KeyData.new_self (k : KeyData) : KeyData.new k.idx k.version = k := by
  have h1 := k.idx_le
  have h2 := k.version_le
  ext
  · exact Nat.mod_eq_of_lt (by omega)
  · change (k.version ||| 1) % (u32Max + 1) = k.version
    rw [lor_one_of_odd k.version_odd]
    exact Nat.mod_eq_of_lt (by omega)

theorem KeyData.new_idx {idx version : Nat} (h : idx ≤ u32Max) :
    (KeyData.new idx version).idx = idx :=
  Nat.mod_eq_of_lt (by omega)

theorem KeyData.new_version {idx version : Nat} (hodd : version % 2 = 1) (h : version ≤ u32Max) :
    (KeyData.new idx version).version = version := by
  change (version ||| 1) % (u32Max + 1) = version
  rw [lor_one_of_odd hodd]
  exact Nat.mod_eq_of_lt (by omega)

/-- `wrapping_add(1)` and `wrapping_sub(1)` on `u32`. -/
def wrappingSucc (n : Nat) : Nat := (n + 1) % (u32Max + 1)

def wrappingPred (n : Nat) : Nat := (n + u32Max) % (u32Max + 1)

inductive SlotUnion (V : Type) where
  | value (v : V)
  | nextFree (n : Nat)

/-- A slot; an even version means vacant, an odd one occupied. -/
structure Slot (V : Type) where
  u : SlotUnion V
  version : Nat

inductive SlotContent (V : Type) where
  | occupied (v : V)
  | vacant (nextFree : Nat)

section Slots
variable {V : Type}

def SlotUnion.readValue : SlotUnion V → Except Fault V
  | .value v => .ok v
  | .nextFree _ => .error .undefined

def SlotUnion.readNextFree : SlotUnion V → Except Fault Nat
  | .value _ => .error .undefined
  | .nextFree n => .ok n

def Slot.occupied (s : Slot V) : Bool := s.version % 2 != 0

/-- `Slot::get`: the member the parity of the version selects. -/
def Slot.get (s : Slot V) : Except Fault (SlotContent V) :=
  if s.occupied then s.u.readValue.map .occupied else s.u.readNextFree.map .vacant

/-- `Slot::try_clone`. The clone of a value may depend on which clone of the run it is, so it
is given the slot's index. -/
def Slot.tryClone {E : Type} (clone : V → Except E V) (s : Slot V) :
    Except Fault (Except E (Slot V)) := do
  match ← s.get with
  | .occupied value =>
    match clone value with
    | .ok value => .ok (.ok ⟨.value value, s.version⟩)
    | .error e => .ok (.error e)
  | .vacant nextFree => .ok (.ok ⟨.nextFree nextFree, s.version⟩)

end Slots

inductive SlotMapInsertWithError (E : Type) where
  | reserve (e : TryReserveError)
  | closure (e : E)

inductive TryCloneError (E : Type) where
  | reserve (e : TryReserveError)
  | element (e : E)

structure SlotMap (V : Type) where
  slots : List (Slot V)
  capacity : Nat
  freeHead : Nat
  numElems : Nat

/-- `IntoIter`: the slots still to visit with their indices, and the count of pairs to yield. -/
structure IntoIter (V : Type) where
  numLeft : Nat
  slots : List (Slot V × Nat)

section IntoIter
variable {V : Type}

def IntoIter.nextLoop (numLeft : Nat) : List (Slot V × Nat) →
    Except Fault (Option (KeyData × V) × IntoIter V)
  | [] => .ok (none, ⟨numLeft, []⟩)
  | (slot, idx) :: rest =>
    if slot.occupied then do
      let value ← slot.u.readValue
      let left ← expect "remaining count positive" (checkedSub numLeft 1)
      .ok (some (KeyData.new idx slot.version, value), ⟨left, rest⟩)
    else nextLoop numLeft rest

def IntoIter.next (it : IntoIter V) : Except Fault (Option (KeyData × V) × IntoIter V) :=
  nextLoop it.numLeft it.slots

/-- Run the iterator for up to `n` calls: each pair with the `size_hint` read after it. -/
def IntoIter.take : Nat → IntoIter V → Except Fault (List ((KeyData × V) × Nat) × IntoIter V)
  | 0, it => .ok ([], it)
  | n + 1, it => do
    match ← it.next with
    | (none, it) => .ok ([], it)
    | (some pair, it) =>
      let (rest, it') ← IntoIter.take n it
      .ok ((pair, it.numLeft) :: rest, it')

end IntoIter

namespace SlotMap
variable {V E : Type} [RawVec (Slot V)]

def tryWithCapacityAndKey (capacity : Nat) (a : Allocator) :
    Except TryReserveError (SlotMap V) × Allocator :=
  if maxSlotsLen - 1 ≤ capacity then (.error .capacityOverflow, a)
  else
    match vecTryReserve (Slot V) 0 0 (capacity + 1) a with
    | (.error e, a) => (.error e, a)
    | (.ok room, a) => (.ok ⟨[⟨.nextFree 0, 0⟩], room, 1, 0⟩, a)

def tryReserve (sm : SlotMap V) (additional : Nat) (a : Allocator) :
    Except TryReserveError Unit × SlotMap V × Allocator :=
  match checkedAdd usizeMax sm.numElems additional with
  | none => (.error .capacityOverflow, sm, a)
  | some total =>
    if maxSlotsLen - 1 ≤ total then (.error .capacityOverflow, sm, a)
    else
      match vecTryReserve (Slot V) sm.slots.length sm.capacity
          (total - (sm.slots.length - 1)) a with
      | (.error e, a) => (.error e, sm, a)
      | (.ok capacity, a) => (.ok (), { sm with capacity }, a)

def containsKey (sm : SlotMap V) (key : KeyData) : Bool :=
  match sm.slots[key.idx]? with
  | some slot => slot.version == key.version
  | none => false

def insertInner (sm : SlotMap V) (f : KeyData → Except E V) (a : Allocator) :
    Except Fault (Except (SlotMapInsertWithError E) KeyData × SlotMap V × Allocator) :=
  match sm.slots[sm.freeHead]? with
  | some slot =>
    let occupiedVersion := slot.version ||| 1
    let kd := KeyData.new sm.freeHead occupiedVersion
    match f kd with
    | .error e => .ok (.error (.closure e), sm, a)
    | .ok value => do
      let freeHead ← slot.u.readNextFree
      let numElems ← expect "element count below MAX_SLOTS_LEN" (checkedAdd u32Max sm.numElems 1)
      .ok (.ok kd, { sm with
        slots := sm.slots.set sm.freeHead ⟨.value value, occupiedVersion⟩, freeHead, numElems }, a)
  | none =>
    if maxSlotsLen ≤ sm.slots.length then .ok (.error (.reserve .capacityOverflow), sm, a)
    else
      let kd := KeyData.new sm.slots.length 1
      match vecTryReserve (Slot V) sm.slots.length sm.capacity 1 a with
      | (.error e, a) => .ok (.error (.reserve e), sm, a)
      | (.ok capacity, a) =>
        match f kd with
        | .error e => .ok (.error (.closure e), { sm with capacity }, a)
        | .ok value => do
          let freeHead ← expect "slot index below MAX_SLOTS_LEN" (checkedAdd u32Max kd.idx 1)
          let numElems ← expect "element count below MAX_SLOTS_LEN"
            (checkedAdd u32Max sm.numElems 1)
          .ok (.ok kd, ⟨sm.slots ++ [⟨.value value, 1⟩], capacity, freeHead, numElems⟩, a)

def tryInsert (sm : SlotMap V) (value : V) (a : Allocator) :
    Except Fault (Except TryReserveError KeyData × SlotMap V × Allocator) := do
  let (result, sm, a) ← insertInner sm (E := Unit) (fun _ => .ok value) a
  match result with
  | .ok key => .ok (.ok key, sm, a)
  | .error (.reserve e) => .ok (.error e, sm, a)
  | .error (.closure _) => .error (.unreachable "infallible closure reported an error")

def tryInsertWithKey (sm : SlotMap V) (f : KeyData → Except E V) (a : Allocator) :
    Except Fault (Except (SlotMapInsertWithError E) KeyData × SlotMap V × Allocator) :=
  insertInner sm f a

/-- The caller has checked that the slot is occupied. -/
def removeFromSlot (sm : SlotMap V) (idx : Nat) : Except Fault (V × SlotMap V) :=
  match sm.slots[idx]? with
  | none => .error .undefined
  | some slot => do
    let value ← slot.u.readValue
    let numElems ← expect "at least one element present" (checkedSub sm.numElems 1)
    .ok (value, { sm with
      slots := sm.slots.set idx ⟨.nextFree sm.freeHead, wrappingSucc slot.version⟩,
      freeHead := idx, numElems })

def remove (sm : SlotMap V) (key : KeyData) : Except Fault (Option V × SlotMap V) :=
  if containsKey sm key then do
    let (value, sm) ← removeFromSlot sm key.idx
    .ok (some value, sm)
  else .ok (none, sm)

def detach (sm : SlotMap V) (key : KeyData) : Except Fault (Option V × SlotMap V) :=
  if containsKey sm key then
    match sm.slots[key.idx]? with
    | none => .error .undefined
    | some slot => do
      let value ← slot.u.readValue
      let numElems ← expect "at least one element present" (checkedSub sm.numElems 1)
      .ok (some value, { sm with
        slots := sm.slots.set key.idx ⟨.nextFree danglingSentinel, wrappingSucc slot.version⟩,
        numElems })
  else .ok (none, sm)

/-- The two `filter`s of `reattach`, in order: the second reads `next_free`. -/
def detachedSlot (sm : SlotMap V) (key : KeyData) : Except Fault (Option (Slot V)) :=
  match sm.slots[key.idx]? with
  | none => .ok none
  | some slot =>
    if slot.version = wrappingSucc key.version then do
      let nextFree ← slot.u.readNextFree
      .ok (if nextFree = danglingSentinel then some slot else none)
    else .ok none

def reattach (sm : SlotMap V) (detachedKey : KeyData) (value : V) : Except Fault (SlotMap V) := do
  let found ← detachedSlot sm detachedKey
  let slot ← expect "key is not detached" found
  let numElems ← expect "element count below MAX_SLOTS_LEN" (checkedAdd u32Max sm.numElems 1)
  .ok { sm with
    slots := sm.slots.set detachedKey.idx ⟨.value value, wrappingPred slot.version⟩, numElems }

/-- The loop of `retain`. The predicate is a closure with state, so it is given the number of
its earlier calls; the pairs it was shown are returned, in order. -/
def retainLoop (f : Nat → KeyData → V → Bool × V) :
    Nat → Nat → Nat → SlotMap V → Except Fault (List (KeyData × V) × SlotMap V)
  | 0, _, _, sm => .ok ([], sm)
  | n + 1, i, calls, sm =>
    match sm.slots[i]? with
    | none => .error .undefined
    | some slot => do
      match ← slot.get with
      | .vacant _ => retainLoop f n (i + 1) calls sm
      | .occupied value =>
        let key := KeyData.new i slot.version
        let kept : SlotMap V :=
          { sm with slots := sm.slots.set i ⟨.value (f calls key value).2, slot.version⟩ }
        let sm ← if (f calls key value).1 then .ok kept else (removeFromSlot kept i).map Prod.snd
        let (seen, sm) ← retainLoop f n (i + 1) (calls + 1) sm
        .ok ((key, value) :: seen, sm)

def retain (sm : SlotMap V) (f : Nat → KeyData → V → Bool × V) :
    Except Fault (List (KeyData × V) × SlotMap V) :=
  retainLoop f (sm.slots.length - 1) 1 0 sm

/-- `Drain::next`: the `while` loop, which runs at most once for each slot from the cursor on. -/
def drainNextLoop : Nat → Nat → SlotMap V → Except Fault (Option (KeyData × V) × Nat × SlotMap V)
  | 0, cur, sm => .ok (none, cur, sm)
  | n + 1, cur, sm =>
    match sm.slots[cur]? with
    | none => .ok (none, cur, sm)
    | some slot => do
      let nextCur ← expect "cursor below slot length" (checkedAdd usizeMax cur 1)
      if slot.occupied then
        let (value, sm) ← removeFromSlot sm cur
        .ok (some (KeyData.new cur slot.version, value), nextCur, sm)
      else drainNextLoop n nextCur sm

def drainNext (cur : Nat) (sm : SlotMap V) :
    Except Fault (Option (KeyData × V) × Nat × SlotMap V) :=
  drainNextLoop (sm.slots.length - cur) cur sm

/-- Call `Drain::next` up to `n` times, stopping at `None`: the pairs it yields, each with the
`size_hint` read after it. -/
def drainTake : Nat → Nat → SlotMap V →
    Except Fault (List ((KeyData × V) × Nat) × Nat × SlotMap V)
  | 0, cur, sm => .ok ([], cur, sm)
  | n + 1, cur, sm => do
    match ← drainNext cur sm with
    | (none, cur, sm) => .ok ([], cur, sm)
    | (some pair, cur, sm) =>
      let (rest, cur, sm') ← drainTake n cur sm
      .ok ((pair, sm.numElems) :: rest, cur, sm')

/-- A `Drain` that is run for `n` calls and then dropped: its `Drop` runs it to the end. -/
def drain (sm : SlotMap V) (n : Nat) :
    Except Fault (List ((KeyData × V) × Nat) × List ((KeyData × V) × Nat) × SlotMap V) := do
  let (yielded, cur, sm) ← drainTake n 1 sm
  let (dropped, _, sm) ← drainTake (sm.slots.length + 1 - cur) cur sm
  .ok (yielded, dropped, sm)

def clear (sm : SlotMap V) : Except Fault (List ((KeyData × V) × Nat) × SlotMap V) := do
  let (_, dropped, sm) ← drain sm 0
  .ok (dropped, sm)

def get (sm : SlotMap V) (key : KeyData) : Except Fault (Option V) :=
  match sm.slots[key.idx]? with
  | none => .ok none
  | some slot => if slot.version = key.version then slot.u.readValue.map some else .ok none

/-- `get_mut`, with what the caller writes through the reference it gets. -/
def getMut (sm : SlotMap V) (key : KeyData) (write : V → V) : Except Fault (Option V × SlotMap V) :=
  match sm.slots[key.idx]? with
  | none => .ok (none, sm)
  | some slot =>
    if slot.version = key.version then do
      let value ← slot.u.readValue
      .ok (some value,
        { sm with slots := sm.slots.set key.idx ⟨.value (write value), slot.version⟩ })
    else .ok (none, sm)

/-- `into_iter`: the enumeration has already stepped over the sentinel slot. -/
def intoIter (sm : SlotMap V) : IntoIter V := ⟨sm.numElems, sm.slots.zipIdx.drop 1⟩

/-- The element loop of `Vec::try_clone`. -/
def tryCloneSlots (clone : Nat → V → Except E V) :
    Nat → List (Slot V) → Except Fault (Except E (List (Slot V)))
  | _, [] => .ok (.ok [])
  | i, s :: rest => do
    match ← s.tryClone (clone i) with
    | .error e => .ok (.error e)
    | .ok s =>
      match ← tryCloneSlots clone (i + 1) rest with
      | .error e => .ok (.error e)
      | .ok rest => .ok (.ok (s :: rest))

def tryClone (sm : SlotMap V) (clone : Nat → V → Except E V) (a : Allocator) :
    Except Fault (Except (TryCloneError E) (SlotMap V) × Allocator) :=
  match vecTryReserve (Slot V) 0 0 sm.slots.length a with
  | (.error e, a) => .ok (.error (.reserve e), a)
  | (.ok capacity, a) => do
    match ← tryCloneSlots clone 0 sm.slots with
    | .error e => .ok (.error (.element e), a)
    | .ok slots => .ok (.ok ⟨slots, capacity, sm.freeHead, sm.numElems⟩, a)

end SlotMap

end Rustyfill.Slotmap
