import Rustyfill.Lib.Resumable
import Rustyfill.Maps.ConcurrentHashMap

/-!
# The iterators of `ConcurrentHashMap`

`collections/chashmap/iter.rs`. `Iter` and `IterMut` differ in the guards they take and in the
references they make, so the loop of `next` is written once. The guard is behind an `Arc`, whose
allocation can fail, and each item has a clone of it, which can fail too: one schedule decides
both. Nothing else modifies the map meanwhile, so a shard's table is what it was when its guard
was taken, but for what the caller writes through the references of `IterMut`.
-/

namespace Rustyfill.ConcurrentHashMap

open RawHash Transition

set_option autoImplicit false

variable {K V R : Type}

/-- An entry of a shard, with a clone of the shared guard. -/
structure RefMulti where
  shard : Nat
  bucket : Nat
deriving DecidableEq

/-- An entry of a shard, with a clone of the exclusive guard. -/
structure RefMutMulti where
  shard : Nat
  bucket : Nat
deriving DecidableEq

inductive IterError where
  | alloc
  | clone
deriving DecidableEq

/-- The raw iterator is the list of the full buckets that it has still to pass. -/
structure LockedIter where
  rawIter : List Nat
  pendingBucket : Option Nat

structure Iter where
  shardIdx : Nat
  current : Option LockedIter
  autoUnstall : Bool

abbrev IterMut := Iter

/-- The next bucket: the one that is pending, or else one of the raw iterator. -/
def LockedIter.pop (li : LockedIter) : Option (Nat × LockedIter) :=
  match li.pendingBucket, li.rawIter with
  | some b, rawIter => some (b, ⟨rawIter, none⟩)
  | none, [] => none
  | none, b :: rest => some (b, ⟨rest, none⟩)

/-- How a turn of the loop of `next` ends. -/
inductive Turn (R : Type) where
  | again (it : Iter) (a : Allocator)
  | answer (res : Option (Except IterError R)) (it : Iter) (a : Allocator)

/-! ## What is left -/

/-- The buckets of a shard, as the raw iterator passes them. -/
def shardEntries (tables : Nat → Table (K × V)) (i : Nat) : List (Nat × Nat) :=
  (tables i).places.map fun b => (i, b)

/-- The entries of the shards from an index on. -/
def entriesFrom (m : ConcurrentHashMap K) (tables : Nat → Table (K × V)) (i : Nat) :
    List (Nat × Nat) :=
  (List.range' i (m.shardCount - i)).flatMap (shardEntries tables)

def LockedIter.left (li : LockedIter) : List Nat := li.pendingBucket.toList ++ li.rawIter

def Iter.remaining (m : ConcurrentHashMap K) (tables : Nat → Table (K × V)) (it : Iter) :
    List (Nat × Nat) :=
  match it.current with
  | none => m.entriesFrom tables it.shardIdx
  | some li =>
    li.left.map (fun b => (it.shardIdx, b)) ++ m.entriesFrom tables (it.shardIdx + 1)

/-! ## The operations -/

namespace Iter

def new : Iter := ⟨0, none, false⟩

def advanceShard (it : Iter) : Except Fault Iter := do
  let idx ← expect "shard_idx below shard count" (checkedAdd usizeMax it.shardIdx 1)
  .ok { it with shardIdx := idx }

section
variable (item : Nat → Nat → R) (m : ConcurrentHashMap K) (tables : Nat → Table (K × V))

/-- The second half of a turn, in a shard that is locked. -/
def yieldBucket (it : Iter) (li : LockedIter) (a : Allocator) : Except Fault (Turn R) :=
  match li.pop with
  | none => do
    let it ← { it with current := none }.advanceShard
    .ok (.again it a)
  | some (bucket, li) =>
    if a.request.1 then
      .ok (.answer (some (.ok (item it.shardIdx bucket))) { it with current := some li }
        a.request.2)
    else if it.autoUnstall then .ok (.again { it with current := some li } a.request.2)
    else
      .ok (.answer (some (.error .clone))
        { it with current := some { li with pendingBucket := some bucket } } a.request.2)

def turn (it : Iter) (a : Allocator) : Except Fault (Turn R) :=
  match it.current with
  | some li => it.yieldBucket item li a
  | none =>
    if m.shardCount ≤ it.shardIdx then .ok (.answer none it a)
    else if (tables it.shardIdx).elems.isEmpty then do
      let it ← it.advanceShard
      .ok (.again it a)
    else if a.request.1 then
      it.yieldBucket item ⟨(tables it.shardIdx).places, none⟩ a.request.2
    else if it.autoUnstall then do
      let it ← it.advanceShard
      .ok (.again it a.request.2)
    else .ok (.answer (some (.error .alloc)) it a.request.2)

def nextLoop : Nat → Iter → Allocator →
    Except Fault (Option (Except IterError R) × Iter × Allocator)
  | 0, _, _ => .error (.unreachable "more turns than shards and entries")
  | n + 1, it, a => do
    match ← it.turn item m tables a with
    | .again it a => nextLoop n it a
    | .answer res it a => .ok (res, it, a)

/-- The loop makes at most one turn for each shard and each entry that is left. -/
def nextWith (it : Iter) (a : Allocator) :
    Except Fault (Option (Except IterError R) × Iter × Allocator) :=
  nextLoop item m tables (m.shardCount - it.shardIdx + (it.remaining m tables).length + 1) it a

end

def unstall (m : ConcurrentHashMap K) (it : Iter) : Except Fault (Bool × Iter) :=
  match it.current with
  | some li =>
    .ok (li.pendingBucket.isSome, { it with current := some { li with pendingBucket := none } })
  | none =>
    if it.shardIdx < m.shardCount then do
      let it ← it.advanceShard
      .ok (true, it)
    else .ok (false, it)

def setAutoUnstall (it : Iter) (auto : Bool) : Iter := { it with autoUnstall := auto }

def next (m : ConcurrentHashMap K) (tables : Nat → Table (K × V)) (it : Iter) (a : Allocator) :
    Except Fault (Option (Except IterError RefMulti) × Iter × Allocator) :=
  nextWith RefMulti.mk m tables it a

end Iter

namespace IterMut

def next (m : ConcurrentHashMap K) (tables : Nat → Table (K × V)) (it : IterMut)
    (a : Allocator) : Except Fault (Option (Except IterError RefMutMulti) × IterMut × Allocator) :=
  Iter.nextWith RefMutMulti.mk m tables it a

def unstall (m : ConcurrentHashMap K) (it : IterMut) : Except Fault (Bool × IterMut) :=
  Iter.unstall m it

def setAutoUnstall (it : IterMut) (auto : Bool) : IterMut := Iter.setAutoUnstall it auto

end IterMut

end Rustyfill.ConcurrentHashMap
