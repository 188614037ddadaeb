import Rustyfill.BTree.Node

/-!
# Insertion

`alloc/btrees/entry.rs`: an insertion into a full leaf probes the path that splits, reserves
every node it needs, and then commits. The buffers of the first two phases are kept for the
next split.
-/

namespace Rustyfill.BTree

open RawSlots Guarded

set_option autoImplicit false

/-- A `Vec` behind one of the scratch buffers. -/
structure Buf (α : Type) where
  capacity : Nat
  items : List α

structure CommitInternal where
  ptr : Nat
  childIdx : Nat
  willSplit : Bool
  spIdx : Option Nat
deriving DecidableEq

structure CommitPlan where
  origLeaf : Nat
  leafSp : Nat
  insertRight : Bool
  insertIdx : Nat
  internals : Buf CommitInternal
  newRoot : Bool

section
variable {K V R α : Type}

/-- `Err((key, value, e))`. -/
def giveBack (key : K) (value : V) (e : AllocError) : Routine K V R :=
  Body.exit (.error key value e)

/-! ## Scratch buffers -/

def World.cache (w : World K V) (b : Scratch) (capacity : Option Nat) : World K V :=
  { w with cached := Function.update w.cached b capacity }

def takeCached (b : Scratch) : Routine K V (Option Nat) := fun w =>
  (.ok (w.cached b), w.cache b none)

/-- `RawVec::MIN_NON_ZERO_CAP` for elements of the sizes of the buffers'. -/
def minNonZeroCap : Nat := 4

/-- The capacity that is kept is looked at first; a `Vec` for nothing allocates nothing. -/
def Buf.tryNew (b : Scratch) (capacity : Nat) : Routine K V (Except AllocError (Buf α)) := do
  let cached ← takeCached b
  match cached.filter (capacity ≤ ·) with
  | some enough => return .ok ⟨enough, []⟩
  | none =>
    if 0 < capacity then
      if ← request then return .ok ⟨max minNonZeroCap capacity, []⟩
      else return .error ⟨⟩
    else return .ok ⟨0, []⟩

/-- `Vec::push`, which grows infallibly when the buffer is full. -/
def Buf.push (buf : Buf α) (x : α) : Routine K V (Buf α) := do
  if buf.items.length < buf.capacity then
    return { buf with items := buf.items ++ [x] }
  else if ← request then
    return ⟨max minNonZeroCap (2 * buf.capacity), buf.items ++ [x]⟩
  else fault .abort

/-- The drop of a buffer, which keeps its capacity. -/
def Buf.recycle (b : Scratch) (buf : Buf α) : Routine K V Unit := fun w =>
  (.ok (), w.cache b (some buf.capacity))

/-- `drain_to_pointers`: the `Vec` of the pointers is allocated infallibly. -/
def drainToPointers (buf : Buf Nat) : Routine K V (List Nat × Buf Nat) := do
  if 0 < buf.items.length then
    if ← request then return (buf.items, { buf with items := [] })
    else fault .abort
  else return ([], buf)

/-! ## Probe -/

/-- As many ascents as there are levels. -/
def levels : Routine K V Nat := do
  let w ← world
  return (w.map.root.elim 0 fun root => root.height) + 1

def countInternals : Nat → NodeRef → Nat → Routine K V Nat
  | 0, _, _ => fault .undefined
  | fuel + 1, cur, count => do
    match ← ascend cur with
    | .parent parentHandle => do
      let parent ← deref parentHandle.node.node
      if parent.len < capacity then return count + 1
      else countInternals fuel parentHandle.node (count + 1)
    | .root _ => return count

/-- The second pass, which fills the buffer and says whether the tree grows. -/
def recordInternals : Nat → NodeRef → Buf CommitInternal →
    Routine K V (Buf CommitInternal × Bool)
  | 0, _, _ => fault .undefined
  | fuel + 1, cur, buf => do
    match ← ascend cur with
    | .parent parentHandle => do
      let parentPtr := parentHandle.node.node
      let parent ← deref parentPtr
      let willSplit := decide (capacity ≤ parent.len)
      let spIdx := if willSplit then some (splitpoint parentHandle.idx).1 else none
      let buf ← buf.push ⟨parentPtr, parentHandle.idx, willSplit, spIdx⟩
      if willSplit then recordInternals fuel parentHandle.node buf
      else return (buf, false)
    | .root _ => return (buf, true)

namespace InsertionSide

def isRight : InsertionSide → Bool
  | .left _ => false
  | .right _ => true

def idx : InsertionSide → Nat
  | .left idx => idx
  | .right idx => idx

end InsertionSide

namespace CommitPlan

def build (leafEdge : Handle) : Routine K V (Except AllocError CommitPlan) := do
  let (leafSp, leafSide) := splitpoint leafEdge.idx
  let fuel ← levels
  let numInternals ← countInternals fuel leafEdge.node 0
  match ← Buf.tryNew .probe numInternals with
  | .error e => return .error e
  | .ok buf => do
    let (internals, newRoot) ← recordInternals fuel leafEdge.node buf
    return .ok {
      origLeaf := leafEdge.node.node
      leafSp := leafSp
      insertRight := leafSide.isRight
      insertIdx := leafSide.idx
      internals := internals
      newRoot := newRoot }

/-- How many internal nodes the commit consumes. -/
def numReserved (plan : CommitPlan) : Nat :=
  (plan.internals.items.filter (·.willSplit)).length + if plan.newRoot then 1 else 0

end CommitPlan

/-! ## Commit -/

/-- `assume_init_read` of a key and its value. -/
def readKeyValue (p idx : Nat) : Routine K V (K × V) := do
  let n ← deref p
  let key ← orUndefined (n.keys idx)
  let value ← orUndefined (n.vals idx)
  return (key, value)

def nodeLen (p : Nat) : Routine K V Nat := do
  let n ← deref p
  return n.len

def addOne (m : SysBTreeMap) : SysBTreeMap := { m with length := m.length + 1 }

def finishCommit (insertNode insertIdx : Nat) : Routine K V (NodeRef × Nat) :=
  return (⟨0, insertNode⟩, insertIdx)

/-- The promotion goes into `p`, which has room, at the edge `edgeIdx`. -/
def insertPromoted (p edgeIdx : Nat) (kv : K × V) (right : Nat) : Routine K V Unit := do
  let newLen := (← nodeLen p) + 1
  internalInsertFit p edgeIdx kv.1 kv.2 right
  correctParentLinks p (edgeIdx + 1) newLen

/-- A fresh root over the old one and the last promotion. -/
def growRoot (height : Nat) (kv : K × V) (right newRoot : Nat) : Routine K V Unit := do
  let w ← world
  match w.map.root with
  | none => fault (.expect "root exists")
  | some oldRoot => do
    modifyMap fun m => { m with root := none }
    modify newRoot fun n => do
      let n := { n with parent := none, len := 0 }
      n.mapEdges fun edges => writeIn (capacity + 1) edges 0 oldRoot.node
    setParentLink oldRoot.node newRoot 0
    modify newRoot fun n => do
      let written ← n.writeKeyValue n.len kv.1 kv.2
      let linked ← written.mapEdges fun edges => writeIn (capacity + 1) edges (n.len + 1) right
      return { linked with len := n.len + 1 }
    setParentLink right newRoot 1
    modifyMap fun m => addOne { m with root := some ⟨height, newRoot⟩ }

/-- The upper half of a full node, edges included, goes into a fresh one. -/
def halveInternal (p ri spIdx : Nat) : Routine K V Unit := do
  copyRightHalfInternal p ri spIdx
  correctParentLinks ri 0 (← nodeLen ri)

/-- A full node is split at `spIdx`, and the promotion goes into one of the halves. What is
promoted next is read before. -/
def splitInternal (p ri spIdx childIdx : Nat) (kv : K × V) (right : Nat) :
    Routine K V (K × V) := do
  let promoted ← readKeyValue p spIdx
  halveInternal p ri spIdx
  match (splitpoint childIdx).2 with
  | .left ii => insertPromoted p ii kv right
  | .right ii => insertPromoted ri ii kv right
  return promoted

/-- The steps from the second on: `left` and `right` are the halves the promotion `kv` is
between. -/
def promote (newRoot : Bool) (insertNode insertIdx : Nat) :
    List CommitInternal → List Nat → NodeRef → NodeRef → K × V → Routine K V (NodeRef × Nat)
  | [], reserved, left, right, kv =>
    if newRoot = false then
      fault (.unreachable "reached root-growth step but plan said otherwise")
    else
      match reserved with
      | [] => fault (.expect "a root node was reserved when new_root is set")
      | nr :: _ => do
        growRoot (left.height + 1) kv right.node nr
        finishCommit insertNode insertIdx
  | ci :: internals, reserved, left, right, kv =>
    if ci.willSplit = false then do
      insertPromoted ci.ptr ci.childIdx kv right.node
      modifyMap addOne
      finishCommit insertNode insertIdx
    else
      match ci.spIdx, reserved with
      | none, _ => fault (.expect "will_split implies sp_idx is set")
      | some _, [] => fault (.expect "an internal node was reserved per split")
      | some spIdx, ri :: reserved => do
        let promoted ← splitInternal ci.ptr ri spIdx ci.childIdx kv right.node
        promote newRoot insertNode insertIdx internals reserved ⟨left.height + 1, ci.ptr⟩
          ⟨right.height + 1, ri⟩ promoted

def commitSplit (plan : CommitPlan) (leafRight : Nat) (reserved : List Nat) (key : K) (value : V) :
    Routine K V (NodeRef × Nat) := do
  let insertNode := if plan.insertRight then leafRight else plan.origLeaf
  let promoted ← readKeyValue plan.origLeaf plan.leafSp
  copyRightHalfLeaf plan.origLeaf leafRight plan.leafSp
  leafSliceInsert insertNode plan.insertIdx key value
  promote plan.newRoot insertNode plan.insertIdx plan.internals.items reserved
    ⟨0, plan.origLeaf⟩ ⟨0, leafRight⟩ promoted

/-! ## Reserve -/

/-- The loop that reserves the internal nodes. On a refusal the caller drops what is there. -/
def reserveInternals : Nat → Buf Nat → Routine K V (Except AllocError Unit × Buf Nat)
  | 0, buf => return (.ok (), buf)
  | n + 1, buf => do
    match ← tryNewInternalBox with
    | .error e => return (.error e, buf)
    | .ok node => do
      let buf ← buf.push node
      reserveInternals n buf

/-- The drop of a buffer of boxes frees the nodes first. -/
def dropReserved (buf : Buf Nat) : Routine K V Unit := do
  Body.forEach free buf.items
  buf.recycle .reserved

def tryInsertWithSplit (leafEdge : Handle) (key : K) (value : V) :
    Routine K V (NodeRef × Nat) := do
  match ← CommitPlan.build leafEdge with
  | .error e => giveBack key value e
  | .ok plan =>
    match ← tryNewLeafBox with
    | .error e => do
      plan.internals.recycle .probe
      giveBack key value e
    | .ok leaf =>
      match ← Buf.tryNew .reserved plan.numReserved with
      | .error e => do
        free leaf
        plan.internals.recycle .probe
        giveBack key value e
      | .ok reserveBuf =>
        match ← reserveInternals plan.numReserved reserveBuf with
        | (.error e, reserveBuf) => do
          dropReserved reserveBuf
          free leaf
          plan.internals.recycle .probe
          giveBack key value e
        | (.ok (), reserveBuf) => do
          let (reservedPtrs, reserveBuf) ← drainToPointers reserveBuf
          let inserted ← commitSplit plan leaf reservedPtrs key value
          plan.internals.recycle .probe
          dropReserved reserveBuf
          return inserted

/-! ## Insertion at the edge of a leaf -/

def tryInsertEmptyMap (key : K) (value : V) : Routine K V (NodeRef × Nat) := do
  match ← tryNewLeaf with
  | .error e => giveBack key value e
  | .ok leaf => do
    modify leaf fun n => do
      let n ← n.writeKeyValue 0 key value
      return { n with len := 1 }
    modifyMap fun _ => ⟨some ⟨0, leaf⟩, 1⟩
    return (⟨0, leaf⟩, 0)

def tryInsertIntoExisting (leafEdge : Handle) (key : K) (value : V) :
    Routine K V (NodeRef × Nat) := do
  if (← nodeLen leafEdge.node.node) < capacity then do
    leafSliceInsert leafEdge.node.node leafEdge.idx key value
    modifyMap addOne
    return (leafEdge.node, leafEdge.idx)
  else tryInsertWithSplit leafEdge key value

/-- `handle` is none in the vacant entry of a map without a root. -/
def tryInsertKv (handle : Option Handle) (key : K) (value : V) : Routine K V (NodeRef × Nat) :=
  match handle with
  | none => tryInsertEmptyMap key value
  | some leafEdge => tryInsertIntoExisting leafEdge key value

end

/-! ## The search of the standard library -/

inductive SearchResult where
  | found (handle : Handle)
  | goDown (edge : Handle)

section
variable {K V : Type} [LinearOrder K]

/-- `find_key_index` from the key `i` on. -/
def findKeyIndex (n : Node K V) (key : K) : Nat → Nat → Option (Ordering × Nat)
  | 0, i => some (.lt, i)
  | rest + 1, i => do
    let k ← n.keys i
    match compare key k with
    | .gt => findKeyIndex n key rest (i + 1)
    | .eq => some (.eq, i)
    | .lt => some (.lt, i)

def searchNode (key : K) (node : NodeRef) : Routine K V SearchResult := do
  let n ← deref node.node
  let (order, idx) ← orUndefined (findKeyIndex n key n.len 0)
  match order with
  | .eq => return .found ⟨node, idx⟩
  | _ => return .goDown ⟨node, idx⟩

/-- `search_tree`, from a node of height `height` down. -/
def searchTree (key : K) : Nat → Nat → Routine K V SearchResult
  | 0, p => searchNode key ⟨0, p⟩
  | height + 1, p => do
    match ← searchNode key ⟨height + 1, p⟩ with
    | .found handle => return .found handle
    | .goDown edge => do
      let child ← readEdge p edge.idx
      searchTree key height child

/-- `BTreeMap::entry`: the key that is there, or the edge of a vacant entry. -/
inductive Entry where
  | occupied (handle : Handle)
  | vacant (handle : Option Handle)

def entry (key : K) : Routine K V Entry := do
  let w ← world
  match w.map.root with
  | none => return .vacant none
  | some root =>
    match ← searchTree key root.height root.node with
    | .found handle => return .occupied handle
    | .goDown edge => return .vacant (some edge)

end

end Rustyfill.BTree
