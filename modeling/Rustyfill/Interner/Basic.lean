import Mathlib.Data.Finset.Card
import Rustyfill.Maps.ConcurrentHashMap

/-!
# The interner

`collections/interner/mod.rs`: one of the four global maps, from precomputed hashes to weak
references. The strong count of an `Arc` is split into the handles callers own and those that
running calls hold, so that a caller cannot drop what is not its own.
-/

namespace Rustyfill

open Maps Interleaving

set_option autoImplicit false

/-- `MAX_REFCOUNT`, as the interner's upgrades meet it. -/
def Interner.maxRefcount : Nat := 9223372036854775807

def Interner.pruneInterval : Nat := 1024

/-- A map with the hash of borrowed values. The hasher is the map's own; it hashes the keys
of the map, which are hashes, by `map.hashOne`. Equal values have equal hashes. -/
structure Interner (Val : Type) [BEq Val] where
  map : ConcurrentHashMap UInt64
  hashBorrowed : Val → UInt64
  hash_eq : ∀ v w, v == w → hashBorrowed v = hashBorrowed w

namespace Interner

inductive TryToOwnedError where
  | reserve (e : TryReserveError)
  | alloc
  | other (msg : String)
deriving DecidableEq, Repr

/-- An allocation made by the interner: the handles callers own, and the clients whose call
holds one. -/
structure Cell (Val : Type) where
  val : Val
  users : Nat
  busy : Finset Nat

def Cell.strong {Val : Type} (c : Cell Val) : Nat := c.users + c.busy.card

/-- All allocations so far, by number, and `INTERN_CALL_COUNTER`. A `Weak` of an allocation
keeps its number from being used again. -/
structure Arcs (Val : Type) where
  cells : List (Cell Val)
  calls : Nat

def Arcs.setCell {Val : Type} (arcs : Arcs Val) (a : Nat) (c : Cell Val) : Arcs Val :=
  { arcs with cells := arcs.cells.set a c }

inductive ArcAct (Val : Type) where
  | tryUpgrade (weak : Nat)
  | dropUpgraded (arc : Nat)
  | createNewArc (v : Val)
  | returnArc (v : Val) (arc : Nat)
  | cloneByCaller (arc : Nat)
  | dropByCaller (arc : Nat)
  | countCall

@[reducible] def ArcAct.Res {Val : Type} : ArcAct Val → Type
  | .tryUpgrade _ => Except Unit (Option Nat)
  | .createNewArc _ => Except TryToOwnedError Nat
  | .countCall => Nat
  | _ => Unit

/-- What client `t` does to the allocations. `returnArc v arc` is the end of a call for `v`,
which hands its `Arc` to the caller. -/
def ArcAct.sem {Val : Type} (t : Nat) (arcs : Arcs Val) :
    (x : ArcAct Val) → x.Res → Arcs Val → Prop
  | .tryUpgrade weak, r, arcs' =>
    ∃ c, arcs.cells[weak]? = some c ∧
      if c.strong = 0 then r = .ok none ∧ arcs' = arcs
      else if maxRefcount ≤ c.strong then r = .error () ∧ arcs' = arcs
      else r = .ok (some weak) ∧ arcs' = arcs.setCell weak { c with busy := insert t c.busy }
  | .dropUpgraded arc, _, arcs' =>
    ∃ c, arcs.cells[arc]? = some c ∧ arcs' = arcs.setCell arc { c with busy := c.busy.erase t }
  | .createNewArc _, .error _, arcs' => arcs' = arcs
  | .createNewArc v, .ok arc, arcs' =>
    arc = arcs.cells.length ∧ arcs' = { arcs with cells := arcs.cells ++ [⟨v, 0, {t}⟩] }
  | .returnArc _ arc, _, arcs' =>
    ∃ c, arcs.cells[arc]? = some c ∧ arcs' = arcs.setCell arc ⟨c.val, c.users + 1, c.busy.erase t⟩
  | .cloneByCaller arc, _, arcs' =>
    ∃ c, arcs.cells[arc]? = some c ∧ 0 < c.users ∧
      arcs' = arcs.setCell arc { c with users := c.users + 1 }
  | .dropByCaller arc, _, arcs' =>
    ∃ c, arcs.cells[arc]? = some c ∧ 0 < c.users ∧
      arcs' = arcs.setCell arc { c with users := c.users - 1 }
  | .countCall, prev, arcs' =>
    prev = arcs.calls ∧ arcs' = { arcs with calls := (arcs.calls + 1) % (usizeMax + 1) }

@[reducible] def handles (Val : Type) : Outside (Arcs Val) (ArcAct Val) where
  Res := ArcAct.Res
  sem := ArcAct.sem
  fails
    | .createNewArc _, r => !r.isOk
    | _, _ => false

/-- A step sequence of the interner: the elements are a key and the number of an allocation. -/
abbrev InternMethod (Val R : Type) := Method (handles Val) (UInt64 × Nat) R

section
variable {Val : Type}

abbrev tryUpgrade (weak : Nat) : InternMethod Val (Except Unit (Option Nat)) :=
  .perform (Act.user (ArcAct.tryUpgrade weak))

abbrev dropUpgraded (arc : Nat) : InternMethod Val Unit :=
  .perform (Act.user (ArcAct.dropUpgraded arc))

abbrev createNewArc (v : Val) : InternMethod Val (Except TryToOwnedError Nat) :=
  .perform (Act.user (ArcAct.createNewArc v))

abbrev returnArc (v : Val) (arc : Nat) : InternMethod Val Unit :=
  .perform (Act.user (ArcAct.returnArc v arc))

abbrev cloneByCaller (arc : Nat) : InternMethod Val Unit :=
  .perform (Act.user (ArcAct.cloneByCaller arc))

abbrev dropByCaller (arc : Nat) : InternMethod Val Unit :=
  .perform (Act.user (ArcAct.dropByCaller arc))

abbrev countCall : InternMethod Val Nat := .perform (Act.user ArcAct.countCall)

/-! ## Pruning -/

/-- The loop over the buckets of one shard. -/
def pruneBuckets (i : Nat) : List (Nat × UInt64 × Nat) → InternMethod Val Unit
  | [] => return ()
  | (bucket, _, weak) :: rest => do
    match ← tryUpgrade weak with
    | .ok (some arc) => do
      dropUpgraded arc
      pruneBuckets i rest
    | .ok none | .error _ => do
      let _ ← remove i bucket
      pruneBuckets i rest

def pruneShards : List Nat → InternMethod Val Unit
  | [] => return ()
  | i :: is => do
    if ← tryWriteTable i then
      let buckets ← iter i
      pruneBuckets i buckets
      dropWriteGuard i
      pruneShards is
    else
      pruneShards is

variable [BEq Val] (n : Interner Val)

def pruneUnlockedShards : InternMethod Val Unit := pruneShards (List.range n.map.shardCount)

/-- The counter is shared by the four maps; a call that prunes one prunes them all. -/
def maybePruneAllMaps : InternMethod Val Unit := do
  let prevTotal ← countCall
  if prevTotal % pruneInterval = 0 then
    n.pruneUnlockedShards
  else
    return ()

/-! ## Interning -/

/-- The closure given to `find`: the weak reference upgrades to a value equal to `v`. -/
def matches_ (v : Val) (arcs : Arcs Val) (kv : UInt64 × Nat) : Bool :=
  match arcs.cells[kv.2]? with
  | none => false
  | some c => decide (0 < c.strong) && decide (c.strong < maxRefcount) && c.val == v

/-- The rehash closure: it hashes the key, which is a hash. -/
def rehash (kv : UInt64 × Nat) : UInt64 := n.map.hashOne kv.1

/-- The lookup of both paths: the `Arc` found, upgraded, and the bucket it was found in. -/
def lookup (idx : Nat) (hash : UInt64) (v : Val) :
    InternMethod Val (Option (Nat × UInt64 × Option Nat)) := do
  match ← find idx hash (matches_ v) with
  | none => return none
  | some bucket => do
    let (key, weak) ← asRef idx bucket
    match ← tryUpgrade weak with
    | .ok (some arc) => return some (bucket, key, some arc)
    | .ok none | .error _ => return some (bucket, key, none)

/-- Step 1, under the read guard. -/
def fastPath (v : Val) : InternMethod Val (Option Nat) := do
  let hash := n.hashBorrowed v
  let idx := n.map.shardIndexInternal hash
  readTable idx
  let found ← lookup idx hash v
  dropReadGuard idx
  match found with
  | some (_, _, some arc) => return some arc
  | _ => return none

/-- Step 2, under the write guard. The new weak reference cannot fail: the count is fresh. -/
def slowPath (v : Val) : InternMethod Val (Except TryToOwnedError Nat) := do
  let hash := n.hashBorrowed v
  let idx := n.map.shardIndexInternal hash
  writeTable idx
  match ← tryReserve idx 1 n.rehash with
  | .error e => do
    dropWriteGuard idx
    return .error (.reserve e)
  | .ok () =>
    match ← lookup idx hash v with
    | some (_, _, some arc) => do
      dropWriteGuard idx
      return .ok arc
    | some (bucket, key, none) =>
      match ← createNewArc v with
      | .error e => do
        dropWriteGuard idx
        return .error e
      | .ok arc => do
        write idx bucket (key, arc)
        dropWriteGuard idx
        return .ok arc
    | none =>
      match ← createNewArc v with
      | .error e => do
        dropWriteGuard idx
        return .error e
      | .ok arc => do
        let _ ← insertNoGrow idx hash (hash, arc)
        dropWriteGuard idx
        return .ok arc

def doInternWithKey (v : Val) : InternMethod Val (Except TryToOwnedError Nat) := do
  match ← n.fastPath v with
  | some arc => return .ok arc
  | none => n.slowPath v

def intern (v : Val) : InternMethod Val (Except TryToOwnedError Nat) := do
  n.maybePruneAllMaps
  match ← n.doInternWithKey v with
  | .error e => return .error e
  | .ok arc => do
    returnArc v arc
    return .ok arc

end

end Interner

end Rustyfill
