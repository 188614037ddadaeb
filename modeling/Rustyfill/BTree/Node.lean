import Rustyfill.Lib.Guarded
import Rustyfill.Lib.Slots
import Rustyfill.Runtime

/-!
# Nodes of a B-tree

`alloc/btrees/entry/helpers.rs`: nodes on the heap, moved and relinked through raw pointers. A
routine that reads an uninitialised slot, follows a dangling pointer or leaves the bounds of an
array ends in a fault. Every request to the allocator and every write to a node that is there
is recorded, in their order.
-/

namespace Rustyfill.BTree

open RawSlots Guarded

set_option autoImplicit false

/-- `CAPACITY`, which is `2 * B - 1` for `B = 6`. -/
def capacity : Nat := 11

def kvIdxCenter : Nat := 5

def edgeIdxLeftOfCenter : Nat := 5

def edgeIdxRightOfCenter : Nat := 6

/-- A `LeafNode`, or with `edges` an `InternalNode` around it. A pointer is the address. -/
structure Node (K V : Type) where
  parent : Option Nat
  parentIdx : Option Nat
  len : Nat
  keys : Slots K
  vals : Slots V
  edges : Option (Slots Nat)

/-- `NodeRef`, whose marker the type system needs. -/
structure NodeRef where
  height : Nat
  node : Nat
deriving DecidableEq

/-- A handle to an edge or to a key of a node. -/
structure Handle where
  node : NodeRef
  idx : Nat
deriving DecidableEq

structure SysBTreeMap where
  root : Option NodeRef
  length : Nat
deriving DecidableEq

structure AllocError where
deriving DecidableEq

/-- The thread-local buffers that splits are planned in. -/
inductive Scratch where
  | probe
  | reserved
deriving DecidableEq

inductive Event where
  | request (granted : Bool)
  | write (node : Nat)
deriving DecidableEq

/-- Addresses from `next` on were never given out. `cached` is the capacity of a buffer that is
kept for the next split. -/
structure World (K V : Type) where
  heap : Nat → Option (Node K V)
  next : Nat
  map : SysBTreeMap
  allocator : Allocator
  cached : Scratch → Option Nat
  events : List Event

/-- How an insertion ends early: by handing the pair back, or in a fault. -/
inductive Exit (K V : Type) where
  | error (key : K) (value : V) (e : AllocError)
  | fault (f : Fault)

abbrev Routine (K V R : Type) := Body (World K V) (Exit K V) R

section
variable {K V R α : Type}

/-! ## The heap -/

def fault (f : Fault) : Routine K V R := Body.exit (.fault f)

/-- What is defined, or undefined behaviour. -/
def orUndefined : Option R → Routine K V R
  | some r => pure r
  | none => fault .undefined

def deref (p : Nat) : Routine K V (Node K V) := fun w => orUndefined (w.heap p) w

def world : Routine K V (World K V) := fun w => (.ok w, w)

def World.wrote (w : World K V) (p : Nat) (n : Node K V) : World K V :=
  { w with heap := Function.update w.heap p (some n), events := w.events ++ [.write p] }

def store (p : Nat) (n : Node K V) : Routine K V Unit := fun w => (.ok (), w.wrote p n)

/-- Change a node in place, as far as that is defined. -/
def modify (p : Nat) (f : Node K V → Option (Node K V)) : Routine K V Unit := do
  let n ← deref p
  let n ← orUndefined (f n)
  store p n

def modifyMap (f : SysBTreeMap → SysBTreeMap) : Routine K V Unit := fun w =>
  (.ok (), { w with map := f w.map })

/-- One request to the allocator. -/
def World.asked (w : World K V) : World K V :=
  { w with
    allocator := w.allocator.request.2
    events := w.events ++ [.request w.allocator.request.1] }

def request : Routine K V Bool := fun w => (.ok w.allocator.request.1, w.asked)

/-- `Box::into_raw` of a node that was allocated and filled in. -/
def World.placed (w : World K V) (n : Node K V) : World K V :=
  { w with heap := Function.update w.heap w.next (some n), next := w.next + 1 }

def place (n : Node K V) : Routine K V Nat := fun w => (.ok w.next, w.placed n)

/-- Dropping the box of a node that is not in the tree. -/
def World.freed (w : World K V) (p : Nat) : World K V :=
  { w with heap := Function.update w.heap p none }

def free (p : Nat) : Routine K V Unit := fun w => (.ok (), w.freed p)

/-! ## Split geometry -/

inductive InsertionSide where
  | left (idx : Nat)
  | right (idx : Nat)
deriving DecidableEq

def splitpoint (edgeIdx : Nat) : Nat × InsertionSide :=
  if edgeIdx < edgeIdxLeftOfCenter then (kvIdxCenter - 1, .left edgeIdx)
  else if edgeIdx = edgeIdxLeftOfCenter then (kvIdxCenter, .left edgeIdx)
  else if edgeIdx = edgeIdxRightOfCenter then (kvIdxCenter, .right 0)
  else (kvIdxCenter + 1, .right (edgeIdx - (kvIdxCenter + 2)))

/-! ## Fallible node allocation -/

def Node.newLeaf : Node K V := ⟨none, none, 0, .uninit, .uninit, none⟩

def Node.newInternal : Node K V := ⟨none, none, 0, .uninit, .uninit, some .uninit⟩

def tryNew (n : Node K V) : Routine K V (Except AllocError Nat) := do
  if ← request then
    let p ← place n
    return .ok p
  else
    return .error ⟨⟩

def tryNewLeaf : Routine K V (Except AllocError Nat) := tryNew .newLeaf

def tryNewLeafBox : Routine K V (Except AllocError Nat) := tryNew .newLeaf

def tryNewInternalBox : Routine K V (Except AllocError Nat) := tryNew .newInternal

/-! ## Infallible mutation -/

/-- A copy between arrays of `size` slots, within their bounds. -/
def copyIn (size : Nat) (s : Slots α) (i : Nat) (d : Slots α) (j n : Nat) : Option (Slots α) :=
  if i + n ≤ size ∧ j + n ≤ size then some (s.copy i d j n) else none

/-- A write to an array of `size` slots, within its bounds. -/
def writeIn (size : Nat) (s : Slots α) (i : Nat) (x : α) : Option (Slots α) :=
  if i < size then some (s.write i x) else none

namespace Node

/-- Shift the keys and values from `idx` on one slot to the right. -/
def shiftKeyValues (n : Node K V) (idx shift : Nat) : Option (Node K V) := do
  let keys ← copyIn capacity n.keys idx n.keys (idx + 1) shift
  let vals ← copyIn capacity n.vals idx n.vals (idx + 1) shift
  return { n with keys, vals }

def writeKeyValue (n : Node K V) (idx : Nat) (key : K) (val : V) : Option (Node K V) := do
  let keys ← writeIn capacity n.keys idx key
  let vals ← writeIn capacity n.vals idx val
  return { n with keys, vals }

/-- The edges of an internal node, of which there are `2 * B` slots. -/
def mapEdges (n : Node K V) (f : Slots Nat → Option (Slots Nat)) : Option (Node K V) := do
  let edges ← n.edges
  let edges ← f edges
  return { n with edges := some edges }

def leafSliceInsert (n : Node K V) (idx : Nat) (key : K) (val : V) : Option (Node K V) := do
  let shifted ← if idx < n.len then n.shiftKeyValues idx (n.len - idx) else some n
  let written ← shifted.writeKeyValue idx key val
  return { written with len := n.len + 1 }

def internalInsertFit (n : Node K V) (edgeIdx : Nat) (key : K) (val : V) (child : Nat) :
    Option (Node K V) := do
  let shift := n.len - edgeIdx
  let shifted ←
    if 0 < shift then do
      let n ← n.shiftKeyValues edgeIdx shift
      n.mapEdges fun edges => copyIn (capacity + 1) edges (edgeIdx + 1) edges (edgeIdx + 2) shift
    else some n
  let written ← shifted.writeKeyValue edgeIdx key val
  let linked ← written.mapEdges fun edges => writeIn (capacity + 1) edges (edgeIdx + 1) child
  return { linked with len := n.len + 1 }

/-- The keys and values after `spIdx`, moved to the start of `right`. -/
def copyKeyValues (source right : Node K V) (spIdx : Nat) : Option (Node K V) := do
  let newRightLen := source.len - spIdx - 1
  if 0 < newRightLen then
    let keys ← copyIn capacity source.keys (spIdx + 1) right.keys 0 newRightLen
    let vals ← copyIn capacity source.vals (spIdx + 1) right.vals 0 newRightLen
    return { right with len := newRightLen, keys, vals }
  else
    return { right with len := newRightLen }

def copyEdges (source right : Node K V) (spIdx : Nat) : Option (Node K V) := do
  let sourceEdges ← source.edges
  right.mapEdges fun edges =>
    copyIn (capacity + 1) sourceEdges (spIdx + 1) edges 0 (source.len - spIdx - 1 + 1)

end Node

def leafSliceInsert (leaf idx : Nat) (key : K) (val : V) : Routine K V Unit :=
  modify leaf fun n => n.leafSliceInsert idx key val

def copyRightHalfLeaf (source right spIdx : Nat) : Routine K V Unit := do
  let s ← deref source
  modify right fun r => s.copyKeyValues r spIdx
  modify source fun s => some { s with len := spIdx }

def internalInsertFit (internal edgeIdx : Nat) (key : K) (val : V) (child : Nat) :
    Routine K V Unit :=
  modify internal fun n => n.internalInsertFit edgeIdx key val child

def copyRightHalfInternal (source right spIdx : Nat) : Routine K V Unit := do
  let s ← deref source
  modify right fun r => do
    let r ← s.copyKeyValues r spIdx
    s.copyEdges r spIdx
  modify source fun s => some { s with len := spIdx }

/-! ## Parent links -/

def setParentLink (child parent idx : Nat) : Routine K V Unit :=
  modify child fun n => some { n with parent := some parent, parentIdx := some idx }

/-- `assume_init_read` of an edge. -/
def readEdge (internal i : Nat) : Routine K V Nat := do
  let n ← deref internal
  orUndefined (n.edges.bind fun edges => edges i)

/-- The links of the children at the edges `first..=last`. -/
def correctParentLinks (internal first last : Nat) : Routine K V Unit :=
  Body.forEach
    (fun i => do
      let child ← readEdge internal i
      setParentLink child internal i)
    (List.range' first (last + 1 - first))

inductive AscendResult where
  | parent (handle : Handle)
  | root (node : NodeRef)

def ascend (node : NodeRef) : Routine K V AscendResult := do
  let leaf ← deref node.node
  match leaf.parent with
  | some parent => do
    let idx ← orUndefined leaf.parentIdx
    return .parent ⟨⟨node.height + 1, parent⟩, idx⟩
  | none => return .root node

end

end Rustyfill.BTree
