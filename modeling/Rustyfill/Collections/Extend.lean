import Rustyfill.Collections.Collect
import Rustyfill.Collections.Shrink
import Rustyfill.Lib.Offering

/-!
# `try_extend` and `try_extend_from_slice`

What these methods did before they failed is kept. An iterator comes back in a `Resumable`, with the
item that was taken from it and not inserted at its head; of a slice, the part that was not
inserted comes back.
-/

namespace Rustyfill.Collections

open Guarded Offering

set_option autoImplicit false

/-- An iterator, by what it has still to yield. The lower bound of its size hint, which need not be
correct, may depend on how much that is. -/
structure Remainder (T : Type) where
  items : List T
  lower : Nat → Nat

/-- `recovery::Resumable`. An iterator that is no `Resumable` has no head. -/
structure Resumable (T : Type) where
  head : Option T
  remainder : Remainder T

namespace Resumable

variable {T : Type}

def new (head : T) (remainder : Remainder T) : Resumable T := ⟨some head, remainder⟩

def fromRemainder (remainder : Remainder T) : Resumable T := ⟨none, remainder⟩

/-- The items of a source, in order. -/
def items (src : Resumable T) : List T := src.head.toList ++ src.remainder.items

end Resumable

section
variable {C T E ε : Type}

/-- `TryClone::try_clone` on the key and on the value of a pair: both are called, and the error of
the key goes first. -/
def tryClonePair {K V : Type} (cloneKey : Nat → K → Answer K ε) (cloneValue : Nat → V → Answer V ε)
    (kv : K × V) (fail : ε → E) : Method C E (K × V) := fun w =>
  match cloneKey w.calls kv.1, cloneValue (w.calls + 1) kv.2 with
  | .panic, _ => (.error .panic, { w with calls := w.calls + 1 })
  | _, .panic => (.error .panic, { w with calls := w.calls + 2 })
  | .ok k, .ok v => (.ok (k, v), { w with calls := w.calls + 2 })
  | .error e, _ => (.error (.error (fail e)), { w with calls := w.calls + 2 })
  | _, .error e => (.error (.error (fail e)), { w with calls := w.calls + 2 })

end

/-- What the extending methods use of a collection that reserves before it grows: `view` is what the
collection holds, and `put` what a push makes of it. -/
structure Growing (T C V : Type) where
  view : C → V
  put : V → T → V
  len : C → Nat
  capacity : C → Nat
  reserve : {E : Type} → Nat → (TryReserveError → E) → Method C E Unit
  push : {E : Type} → T → Method C E Unit

namespace Growing

variable {T C V E ε : Type} (g : Growing T C V)

/-- Insert an item; `back` is what comes back where the reservation is refused. -/
def pushItem (item : T) (back : Resumable T) :
    Method C (Resumable T × TryReserveError) Unit := do
  let collection ← store
  if g.len collection = g.capacity collection then
    g.reserve 1 fun e => (back, e)
  g.push item

def extendRemainder (iter : Remainder T) : Method C (Resumable T × TryReserveError) Unit := do
  let lower := iter.lower iter.items.length
  if 0 < lower then
    g.reserve lower fun e => (.fromRemainder iter, e)
  each (fun item rest => g.pushItem item (.new item ⟨rest, iter.lower⟩)) iter.items

def tryExtend (src : Resumable T) : Method C (Resumable T × TryReserveError) Unit := do
  if let some head := src.head then
    g.pushItem head (.new head src.remainder)
  g.extendRemainder src.remainder

/-- `try_extend_from_slice`, with the clone of an item. -/
def tryExtendFromSlice (cloneItem : {E : Type} → T → (ε → E) → Method C E T)
    (mapReserve : TryReserveError → E) (mapClone : ε → E) (other : List T) :
    Method C (List T × E) Unit := do
  if other.isEmpty then
    return ()
  g.reserve other.length fun e => (other, mapReserve e)
  each (fun item rest => do
    let cloned ← cloneItem item fun e => (item :: rest, mapClone e)
    g.push cloned) other

end Growing

/-! ## The collections that reserve -/

def Buffer.growing {T : Type} (l : Layout) : Growing T (Buffer T) (List T) where
  view := Buffer.elems
  put elems x := elems ++ [x]
  len := Buffer.len
  capacity := Buffer.capacity
  reserve n mapErr := Buffer.reserve l n mapErr
  push x := Buffer.push l x

section
variable {T ε : Type} (l : Layout)

def Vec.tryExtend (src : Resumable T) :
    Method (Buffer T) (Resumable T × TryReserveError) Unit := (Buffer.growing l).tryExtend src

def Vec.tryExtendFromSlice (clone : Nat → T → Answer T ε) (other : List T) :
    Method (Buffer T) (List T × Vec.WithCloneError ε) Unit :=
  (Buffer.growing l).tryExtendFromSlice (tryClone clone) .reserve .clone other

def VecDeque.tryExtend (src : Resumable T) :
    Method (Buffer T) (Resumable T × TryReserveError) Unit := (Buffer.growing l).tryExtend src

def VecDeque.tryExtendFromSlice (clone : Nat → T → Answer T ε) (other : List T) :
    Method (Buffer T) (List T × VecDeque.WithCloneError ε) Unit :=
  (Buffer.growing l).tryExtendFromSlice (tryClone clone) .reserve .clone other

end

namespace BinaryHeap

variable {T ε : Type} [LE T] [DecidableLE T] [Std.IsLinearPreorder T] (l : Layout)

/-- `TryBinaryHeapWithCloneError`. -/
inductive WithCloneError (ε : Type) where
  | reserve (e : TryReserveError)
  | clone (e : ε)

def growing : Growing T (BinaryHeap T) (Multiset T) where
  view a := a.elems
  put elems x := x ::ₘ elems
  len := len
  capacity a := a.data.capacity
  reserve n mapErr := reserveOwn l n mapErr
  push x := push l x

def tryExtend (src : Resumable T) :
    Method (BinaryHeap T) (Resumable T × TryReserveError) Unit := (growing l).tryExtend src

def tryExtendFromSlice (clone : Nat → T → Answer T ε) (other : List T) :
    Method (BinaryHeap T) (List T × WithCloneError ε) Unit :=
  (growing l).tryExtendFromSlice (tryClone clone) .reserve .clone other

end BinaryHeap

section
variable {K V ε : Type} [BEq K]

def PairTable.growing (g : Growth) : Growing (K × V) (PairTable K V) (List (K × V)) where
  view := PairTable.pairs
  put := PairTable.insertPair
  len := PairTable.len
  capacity := PairTable.capacity
  reserve n mapErr := PairTable.reserve g n mapErr
  push kv := PairTable.insert g kv

/-- `TryHashMapWithCloneError`. -/
inductive HashMap.WithCloneError (ε : Type) where
  | reserve (e : TryReserveError)
  | clone (e : ε)

def HashMap.tryExtend (g : Growth) (src : Resumable (K × V)) :
    Method (PairTable K V) (Resumable (K × V) × TryReserveError) Unit :=
  (PairTable.growing g).tryExtend src

def HashMap.tryExtendFromSlice (g : Growth) (cloneKey : Nat → K → Answer K ε)
    (cloneValue : Nat → V → Answer V ε) (other : List (K × V)) :
    Method (PairTable K V) (List (K × V) × HashMap.WithCloneError ε) Unit :=
  (PairTable.growing g).tryExtendFromSlice (tryClonePair cloneKey cloneValue) .reserve .clone other

end

namespace HashSet

variable {T ε : Type} [BEq T]

/-- The elements of a set are the keys of a table without values. An element that is there already
is kept, and the other one dropped. -/
def growing (g : Growth) : Growing T (PairTable T Unit) (List (T × Unit)) where
  view := PairTable.pairs
  put elems x := PairTable.insertPair elems (x, ())
  len := PairTable.len
  capacity := PairTable.capacity
  reserve n mapErr := PairTable.reserve g n mapErr
  push x := PairTable.insert g (x, ())

/-- `TryHashSetWithCloneError`. -/
inductive WithCloneError (ε : Type) where
  | reserve (e : TryReserveError)
  | clone (e : ε)

def tryExtend (g : Growth) (src : Resumable T) :
    Method (PairTable T Unit) (Resumable T × TryReserveError) Unit := (growing g).tryExtend src

def tryExtendFromSlice (g : Growth) (clone : Nat → T → Answer T ε) (other : List T) :
    Method (PairTable T Unit) (List T × WithCloneError ε) Unit :=
  (growing g).tryExtendFromSlice (tryClone clone) .reserve .clone other

end HashSet

/-! ## The collections that insert or hand back -/

section
variable {T C E ε : Type}

/-- `try_extend`, by an insertion that hands an item back where it is refused. -/
def extendGivingBack (insert : T → Resumable T → Method C (Resumable T × E) Unit)
    (src : Resumable T) : Method C (Resumable T × E) Unit := do
  if let some head := src.head then
    insert head (.new head src.remainder)
  each (fun item rest => insert item (.new item ⟨rest, src.remainder.lower⟩)) src.remainder.items

/-- `try_extend_from_slice` by such an insertion: what it hands back is dropped. -/
def extendFromSliceInserting (cloneItem : T → (ε → List T × E) → Method C (List T × E) T)
    (insert : T → List T → Method C (List T × E) Unit) (mapClone : ε → E) (other : List T) :
    Method C (List T × E) Unit :=
  each (fun item rest => do
    let cloned ← cloneItem item fun e => (item :: rest, mapClone e)
    insert cloned (item :: rest)) other

end

namespace LinkedList

variable {T ε : Type} (nodeSize : Nat)

def tryExtend (src : Resumable T) : Method (LinkedList T) (Resumable T × AllocError) Unit :=
  extendGivingBack (fun item back => tryPushBack nodeSize (back, ⟨⟩) item) src

def tryExtendFromSlice (clone : Nat → T → Answer T ε) (other : List T) :
    Method (LinkedList T) (List T × WithCloneError ε) Unit :=
  extendFromSliceInserting (tryClone clone)
    (fun cloned rest => tryPushBack nodeSize (rest, .alloc) cloned) .clone other

end LinkedList

namespace DashMap

variable {K V E ε : Type} {N : Nat} [BEq K] (g : Growth) (shard : K → Fin N)

/-- `TryDashMapWithCloneError`. -/
inductive WithCloneError (ε : Type) where
  | reserve (e : TryReserveError)
  | clone (e : ε)

def tryExtend (src : Resumable (K × V)) :
    Method (Fin N → PairTable K V) (Resumable (K × V) × TryReserveError) Unit :=
  extendGivingBack (fun kv back => tryInsertGiveBack g shard (fun e => (back, e)) kv) src

def tryExtendFromSlice (cloneKey : Nat → K → Answer K ε) (cloneValue : Nat → V → Answer V ε)
    (other : List (K × V)) :
    Method (Fin N → PairTable K V) (List (K × V) × WithCloneError ε) Unit :=
  extendFromSliceInserting (tryClonePair cloneKey cloneValue)
    (fun kv rest => tryInsertGiveBack g shard (fun e => (rest, .reserve e)) kv) .clone other

end DashMap

namespace DashSet

variable {T ε : Type} {N : Nat} [BEq T] (g : Growth) (shard : T → Fin N)

/-- `TryDashSetWithCloneError`. -/
inductive WithCloneError (ε : Type) where
  | reserve (e : TryReserveError)
  | clone (e : ε)

def tryExtend (src : Resumable T) :
    Method (Fin N → PairTable T Unit) (Resumable T × TryReserveError) Unit :=
  extendGivingBack
    (fun x back => DashMap.tryInsertGiveBack g shard (fun e => (back, e)) (x, ())) src

def tryExtendFromSlice (clone : Nat → T → Answer T ε) (other : List T) :
    Method (Fin N → PairTable T Unit) (List T × WithCloneError ε) Unit :=
  extendFromSliceInserting (tryClone clone)
    (fun x rest => DashMap.tryInsertGiveBack g shard (fun e => (rest, .reserve e)) (x, ())) .clone
    other

end DashSet

end Rustyfill.Collections
