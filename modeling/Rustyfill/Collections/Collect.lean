import Mathlib.Data.Multiset.Basic
import Rustyfill.Collections.BinaryHeap

/-!
# `try_collect`

`Vec`, `VecDeque`, `BinaryHeap` and `HashMap` reserve as many places as the upper bound of the
size hint says, or the lower one where there is no upper bound, and then push the items one by
one, reserving one more place whenever the collection is full. `DashMap` reserves that many in
every shard.

How much a collection asks for when it grows is its `Growth`. That of a hash table is the
table's own affair, and a parameter here.
-/

namespace Rustyfill.Collections

open Guarded

set_option autoImplicit false

/-- An iterator with a correct size hint: what it yields, and the bounds it gives. -/
structure Iter (T : Type) where
  items : List T
  lower : Nat
  upper : Option Nat
  lower_le : lower ≤ items.length
  le_upper : ∀ u ∈ upper, items.length ≤ u
  bounded : ∀ u ∈ upper, u ≤ usizeMax

theorem Iter.none_bounded : ∀ u ∈ (none : Option Nat), u ≤ usizeMax := by simp

/-- `upper.unwrap_or(lower)`. -/
def Iter.capacity {T : Type} (iter : Iter T) : Nat := iter.upper.getD iter.lower

/-- An allocator that refuses the requests larger than `limit`, and no others. -/
def Memory.limited (limit requests : Nat) : Memory := ⟨fun _ size => size ≤ limit, requests⟩

/-- The capacity a collection asks for when it needs a larger one, and the size of that request,
where it has a layout. -/
structure Growth where
  next : Nat → Nat → Nat
  size : Nat → Option Nat
  le_next : ∀ capacity required, required ≤ next capacity required

namespace Growth

variable (g : Growth) (limit : Nat)

/-- The request for room for `required` elements is no larger than the limit. -/
def Grants (capacity required : Nat) : Prop :=
  ∃ size ∈ g.size (g.next capacity required), size ≤ limit

/-- Room for `n` more elements than `used` is there or can be had. -/
def Allows (capacity used n : Nat) : Prop :=
  n ≤ capacity - used ∨ g.Grants limit capacity (used + n)

/-- The capacity with room for `n` more elements than `used`. -/
def after (capacity used n : Nat) : Nat :=
  if n ≤ capacity - used then capacity else g.next capacity (used + n)

/-- A capacity of at least `n` is there, or is reached by growing for one element at a time. -/
inductive Reaches (n : Nat) : Nat → Prop where
  | enough {capacity : Nat} : n ≤ capacity → Reaches n capacity
  | grow {capacity : Nat} : g.Grants limit capacity (capacity + 1) →
      Reaches n (g.next capacity (capacity + 1)) → Reaches n capacity

/-- From a collection without an element: the hint can be reserved, and what is needed
reached. -/
def Collects (capacity hint needed : Nat) : Prop :=
  g.Allows limit capacity 0 hint ∧ g.Reaches limit needed (g.after capacity 0 hint)

end Growth

/-- What `try_collect` uses of a collection: `view` is what the collection holds, and `add` what
a push makes of it. -/
structure Collector (T C V E : Type) where
  growth : Growth
  view : C → V
  size : V → Nat
  add : V → T → V
  capacity : C → Nat
  reserve : Nat → Method C E Unit
  push : T → Method C E Unit
  size_le : ∀ c, size (view c) ≤ capacity c
  size_add : ∀ v x, size v ≤ size (add v x)
  add_size : ∀ v x, size (add v x) ≤ size v + 1
  reserve_allowed : ∀ n limit requests calls c,
    growth.Allows limit (capacity c) (size (view c)) n →
    (reserve n).Meets ⟨c, .limited limit requests, calls⟩
      (fun _ w => view w.store = view c ∧
        capacity w.store = growth.after (capacity c) (size (view c)) n ∧
        ∃ requests, w.memory = .limited limit requests)
      (fun _ _ => False)
  reserve_refused : ∀ n limit requests calls c,
    ¬ growth.Allows limit (capacity c) (size (view c)) n →
    (reserve n).Meets ⟨c, .limited limit requests, calls⟩ (fun _ _ => False) (fun _ _ => True)
  push_roomy : ∀ x w, size (view w.store) < capacity w.store → (push x).Meets w
    (fun _ w' => view w'.store = add (view w.store) x ∧ capacity w'.store = capacity w.store ∧
      w'.memory = w.memory)
    (fun _ _ => False)

namespace Collector

variable {T C V E : Type} (c : Collector T C V E)

/-- The body of the loop: an iterator may yield more than its hint promised. -/
def pushItem (item : T) : Method C E Unit := do
  let collection ← store
  if c.size (c.view collection) = c.capacity collection then
    c.reserve 1
  c.push item

/-- `try_collect`, from the empty collection on. -/
def tryCollect (iter : Iter T) : Method C E Unit := do
  let capacity := iter.capacity
  if 0 < capacity then
    c.reserve capacity
  Body.forEach c.pushItem iter.items

end Collector

/-! ## Buffers -/

/-- How a `RawVec` grows. -/
def Layout.growth (l : Layout) : Growth where
  next := l.amortized
  size n := if l.size ≠ 0 ∧ l.fits n then some (n * l.size) else none
  le_next _ _ := Nat.le_trans (Nat.le_max_right ..) (Nat.le_max_right ..)

section
variable {T E : Type} {l : Layout} {b : Buffer T} {n limit requests : Nat}

theorem Layout.grants_iff {capacity required : Nat} : l.growth.Grants limit capacity required ↔
    (l.size ≠ 0 ∧ l.fits (l.amortized capacity required)) ∧
      l.amortized capacity required * l.size ≤ limit := by
  simp only [Growth.Grants, Layout.growth]
  split
  · rename_i h
    simp [h]
  · rename_i h
    simp [h]

theorem Buffer.allows_iff : l.growth.Allows limit b.capacity b.len n ↔
    b.Grows l n (.limited limit requests) := by
  simp only [Growth.Allows, Layout.grants_iff, Buffer.Grows, Memory.limited, decide_eq_true_eq]

theorem Buffer.tryReserve_allowed (requests : Nat)
    (h : l.growth.Allows limit b.capacity b.len n) :
    ∃ b' requests', b.tryReserve l n (.limited limit requests) =
        (.ok b', .limited limit requests') ∧
      b'.elems = b.elems ∧ b'.capacity = l.growth.after b.capacity b.len n := by
  obtain ⟨b', m', hres⟩ := Buffer.tryReserve_ok_iff.mpr (Buffer.allows_iff.mp h)
  obtain ⟨helems, -⟩ := Buffer.tryReserve_ok hres
  have hres' := hres
  rw [Buffer.tryReserve] at hres
  rw [Growth.after]
  split at hres
  · rename_i hroom
    rw [if_pos hroom]
    cases hres
    exact ⟨b, requests, hres', rfl, rfl⟩
  · rename_i hroom
    rw [if_neg hroom]
    simp only at hres
    split at hres
    · split at hres
      · rename_i hreq
        obtain ⟨-, rfl⟩ := Prod.mk.inj hreq
        cases hres
        refine ⟨_, requests + 1, hres', helems, ?_⟩
        simp only [Buffer.withCapacity, Layout.growth, Layout.amortized]
        omega
      · cases hres
    · cases hres

theorem Buffer.tryReserve_refused (requests : Nat)
    (h : ¬ l.growth.Allows limit b.capacity b.len n) :
    ∃ e m', b.tryReserve l n (.limited limit requests) = (.error e, m') := by
  rcases hres : b.tryReserve l n (.limited limit requests) with ⟨e | b', m'⟩
  · exact ⟨e, m', rfl⟩
  · exact absurd (Buffer.allows_iff.mpr (Buffer.tryReserve_ok_iff.mp ⟨b', m', hres⟩)) h

end

/-- `Vec` and `VecDeque`. -/
def Buffer.collector {T E : Type} (l : Layout) (mapErr : TryReserveError → E) :
    Collector T (Buffer T) (List T) E where
  growth := l.growth
  view := Buffer.elems
  size := List.length
  add elems x := elems ++ [x]
  capacity := Buffer.capacity
  reserve n := Buffer.reserve l n mapErr
  push := Buffer.push l
  size_le b := b.room
  size_add elems x := by simp
  add_size elems x := by simp
  reserve_allowed n limit requests calls b h := by
    obtain ⟨b', requests', hres, helems, hcapacity⟩ := Buffer.tryReserve_allowed requests h
    simp only [Body.Meets, Buffer.reserve, hres]
    exact ⟨helems, hcapacity, requests', rfl⟩
  reserve_refused n limit requests calls b h := by
    obtain ⟨e, m', hres⟩ := Buffer.tryReserve_refused requests h
    simp only [Body.Meets, Buffer.reserve, hres]
  push_roomy x w h := by
    have hpush : (Buffer.push l x : Method (Buffer T) E Unit) w =
        (.ok (), { w with store := w.store.append x h }) := dif_pos h
    rw [Body.Meets, hpush]
    exact ⟨rfl, rfl, rfl⟩

def Vec.tryCollect {T : Type} (l : Layout) (iter : Iter T) :
    Method (Buffer T) TryReserveError Unit := (Buffer.collector l id).tryCollect iter

def VecDeque.tryCollect {T : Type} (l : Layout) (iter : Iter T) :
    Method (Buffer T) TryReserveError Unit := (Buffer.collector l id).tryCollect iter

/-! ## Heaps -/

namespace BinaryHeap

section
variable {T E : Type} [LE T] [DecidableLE T] [Std.IsLinearPreorder T]

def reserveOwn (l : Layout) (n : Nat) (mapErr : TryReserveError → E) :
    Method (BinaryHeap T) E Unit := fun w =>
  match h : w.store.data.tryReserve l n w.memory with
  | (.ok b, m) =>
    (.ok (), { w with store := w.store.withData b (Buffer.tryReserve_ok h).1, memory := m })
  | (.error e, m) => (.error (.error (mapErr e)), { w with memory := m })

omit [DecidableLE T] [Std.IsLinearPreorder T] in
theorem reserveOwn_eq {l : Layout} {n : Nat} {mapErr : TryReserveError → E}
    {w : World (BinaryHeap T)} {b : Buffer T} {m : Memory}
    (hres : w.store.data.tryReserve l n w.memory = (.ok b, m))
    (helems : b.elems = w.store.data.elems) : reserveOwn l n mapErr w =
      (.ok (), { w with store := w.store.withData b helems, memory := m }) := by
  rw [reserveOwn]
  split
  · rename_i hok
    rw [hres] at hok
    cases hok
    rfl
  · rename_i herror
    rw [hres] at herror
    cases herror

omit [DecidableLE T] [Std.IsLinearPreorder T] in
theorem reserveOwn_error {l : Layout} {n : Nat} {mapErr : TryReserveError → E}
    {w : World (BinaryHeap T)} {e : TryReserveError} {m : Memory}
    (hres : w.store.data.tryReserve l n w.memory = (.error e, m)) :
    reserveOwn l n mapErr w = (.error (.error (mapErr e)), { w with memory := m }) := by
  rw [reserveOwn]
  split
  · rename_i hok
    rw [hres] at hok
    cases hok
  · rename_i herror
    rw [hres] at herror
    cases herror
    rfl

def inserted (a : BinaryHeap T) (x : T) (data : Buffer T)
    (h : data.elems = a.data.elems ∧ a.data.len + 1 ≤ data.capacity) : BinaryHeap T where
  data := {
    elems := MaxHeap.push a.elems x
    capacity := data.capacity
    room := by
      rw [(MaxHeap.push_perm a.elems x).length_eq, List.length_append]
      exact h.2
    bounded := data.bounded }
  heap := MaxHeap.push_isHeap a.heap x

/-- `push` of the standard library, which reserves infallibly when the buffer is full. -/
def push (l : Layout) (x : T) : Method (BinaryHeap T) E Unit := fun w =>
  if h : w.store.data.len < w.store.data.capacity then
    (.ok (), { w with store := w.store.inserted x w.store.data ⟨rfl, h⟩ })
  else
    match h : w.store.data.tryReserve l 1 w.memory with
    | (.ok data, m) =>
      (.ok (), { w with store := w.store.inserted x data (Buffer.tryReserve_ok h), memory := m })
    | (.error _, m) => (.error .abort, { w with memory := m })

/-- A heap is seen as the collection of its elements, which its order is no part of. -/
def collector (l : Layout) (mapErr : TryReserveError → E) :
    Collector T (BinaryHeap T) (Multiset T) E where
  growth := l.growth
  view a := a.elems
  size := Multiset.card
  add elems x := x ::ₘ elems
  capacity a := a.data.capacity
  reserve n := reserveOwn l n mapErr
  push := push l
  size_le a := a.data.room
  size_add elems x := by simp
  add_size elems x := by simp
  reserve_allowed n limit requests calls a h := by
    obtain ⟨b', requests', hres, helems, hcapacity⟩ := Buffer.tryReserve_allowed requests h
    rw [Body.Meets, reserveOwn_eq hres helems]
    exact ⟨congrArg _ helems, hcapacity, requests', rfl⟩
  reserve_refused n limit requests calls a h := by
    obtain ⟨e, m', hres⟩ := Buffer.tryReserve_refused requests h
    rw [Body.Meets, reserveOwn_error hres]
    trivial
  push_roomy x w h := by
    have hpush : (push l x : Method (BinaryHeap T) E Unit) w =
        (.ok (), { w with store := w.store.inserted x w.store.data ⟨rfl, h⟩ }) := dif_pos h
    rw [Body.Meets, hpush]
    refine ⟨?_, rfl, rfl⟩
    have hperm : (MaxHeap.push w.store.elems x).Perm (x :: w.store.elems) :=
      (MaxHeap.push_perm w.store.elems x).trans List.perm_append_comm
    exact Multiset.coe_eq_coe.mpr hperm

def new (l : Layout) : BinaryHeap T := ⟨Buffer.new l, fun _ h => absurd h (Nat.not_lt_zero _)⟩

def tryCollect (l : Layout) (iter : Iter T) : Method (BinaryHeap T) TryReserveError Unit :=
  (collector l id).tryCollect iter

end

end BinaryHeap

/-! ## Hash tables -/

/-- The pairs of a hash table, and how many it has room for. -/
structure PairTable (K V : Type) where
  pairs : List (K × V)
  capacity : Nat
  room : pairs.length ≤ capacity

namespace PairTable

section
variable {K V E : Type} {g : Growth} {t t' : PairTable K V} {n limit : Nat} {m m' : Memory}

theorem room_nil : ([] : List (K × V)).length ≤ 0 := Nat.le_refl 0

/-- The table that was never allocated. -/
def new : PairTable K V := ⟨[], 0, room_nil⟩

def len (t : PairTable K V) : Nat := t.pairs.length

def grown (g : Growth) (t : PairTable K V) (n : Nat) : PairTable K V :=
  ⟨t.pairs, g.next t.capacity (t.len + n), Nat.le_trans (Nat.le_add_right ..) (g.le_next ..)⟩

def tryReserve (g : Growth) (t : PairTable K V) (n : Nat) (m : Memory) :
    Except TryReserveError (PairTable K V) × Memory :=
  if n ≤ t.capacity - t.len then (.ok t, m)
  else
    match g.size (g.next t.capacity (t.len + n)) with
    | none => (.error .capacityOverflow, m)
    | some size =>
      match m.request size with
      | (true, m) => (.ok (t.grown g n), m)
      | (false, m) => (.error .allocError, m)

theorem tryReserve_ok (h : t.tryReserve g n m = (.ok t', m')) :
    t'.pairs = t.pairs ∧ t.len + n ≤ t'.capacity := by
  rw [tryReserve] at h
  split at h
  · rename_i hroom
    cases h
    have hle := t.room
    refine ⟨rfl, ?_⟩
    simp only [len] at hroom ⊢
    omega
  · split at h
    · cases h
    · split at h
      · cases h
        exact ⟨rfl, g.le_next ..⟩
      · cases h

theorem tryReserve_allowed (requests : Nat) (h : g.Allows limit t.capacity t.len n) :
    ∃ t' requests', t.tryReserve g n (.limited limit requests) =
        (.ok t', .limited limit requests') ∧
      t'.pairs = t.pairs ∧ t'.capacity = g.after t.capacity t.len n := by
  rw [tryReserve, Growth.after]
  by_cases hroom : n ≤ t.capacity - t.len
  · rw [if_pos hroom, if_pos hroom]
    exact ⟨t, requests, rfl, rfl, rfl⟩
  · obtain ⟨size, hsize, hle⟩ := h.resolve_left hroom
    rw [if_neg hroom, if_neg hroom, Option.mem_def.mp hsize]
    refine ⟨t.grown g n, requests + 1, ?_, rfl, rfl⟩
    simp [Memory.request, Memory.limited, hle]

theorem tryReserve_refused (requests : Nat) (h : ¬ g.Allows limit t.capacity t.len n) :
    ∃ e m', t.tryReserve g n (.limited limit requests) = (.error e, m') := by
  simp only [Growth.Allows, Growth.Grants, not_or, not_exists, not_and] at h
  rw [tryReserve, if_neg h.1]
  cases hsize : g.size (g.next t.capacity (t.len + n)) with
  | none => exact ⟨.capacityOverflow, _, rfl⟩
  | some size =>
    have hlt := h.2 size hsize
    refine ⟨.allocError, .limited limit (requests + 1), ?_⟩
    simp [Memory.request, Memory.limited, hlt]

def reserve (g : Growth) (n : Nat) (mapErr : TryReserveError → E) :
    Method (PairTable K V) E Unit := fun w =>
  match w.store.tryReserve g n w.memory with
  | (.ok t, m) => (.ok (), { w with store := t, memory := m })
  | (.error e, m) => (.error (.error (mapErr e)), { w with memory := m })

variable [BEq K]

/-- The value of a key that is there is replaced, and the key kept. -/
def insertPair : List (K × V) → K × V → List (K × V)
  | [], kv => [kv]
  | p :: ps, kv => if p.1 == kv.1 then (p.1, kv.2) :: ps else p :: insertPair ps kv

theorem length_insertPair (ps : List (K × V)) (kv : K × V) :
    ps.length ≤ (insertPair ps kv).length ∧ (insertPair ps kv).length ≤ ps.length + 1 := by
  induction ps with
  | nil => simp [insertPair]
  | cons p ps ih =>
    rw [insertPair]
    split
    · simp
    · simp only [List.length_cons]
      omega

def inserted (t : PairTable K V) (kv : K × V) (h : t.len < t.capacity) : PairTable K V :=
  ⟨insertPair t.pairs kv, t.capacity, Nat.le_trans (length_insertPair t.pairs kv).2 h⟩

omit [BEq K] in
theorem roomAfter (h : t.tryReserve g 1 m = (.ok t', m')) : t'.len < t'.capacity := by
  obtain ⟨hpairs, hle⟩ := tryReserve_ok h
  rw [len, hpairs]
  exact hle

/-- `insert`, which reserves infallibly when the table is full. -/
def insert (g : Growth) (kv : K × V) : Method (PairTable K V) E Unit := fun w =>
  if h : w.store.len < w.store.capacity then
    (.ok (), { w with store := w.store.inserted kv h })
  else
    match h : w.store.tryReserve g 1 w.memory with
    | (.ok t, m) => (.ok (), { w with store := t.inserted kv (roomAfter h), memory := m })
    | (.error _, m) => (.error .abort, { w with memory := m })

def collector (g : Growth) (mapErr : TryReserveError → E) :
    Collector (K × V) (PairTable K V) (List (K × V)) E where
  growth := g
  view := pairs
  size := List.length
  add := insertPair
  capacity := capacity
  reserve n := reserve g n mapErr
  push := insert g
  size_le t := t.room
  size_add ps kv := (length_insertPair ps kv).1
  add_size ps kv := (length_insertPair ps kv).2
  reserve_allowed n limit requests calls t h := by
    obtain ⟨t', requests', hres, hpairs, hcapacity⟩ := tryReserve_allowed requests h
    simp only [Body.Meets, reserve, hres]
    exact ⟨hpairs, hcapacity, requests', rfl⟩
  reserve_refused n limit requests calls t h := by
    obtain ⟨e, m', hres⟩ := tryReserve_refused requests h
    simp only [Body.Meets, reserve, hres]
  push_roomy kv w h := by
    have hpush : (insert g kv : Method (PairTable K V) E Unit) w =
        (.ok (), { w with store := w.store.inserted kv h }) := dif_pos h
    rw [Body.Meets, hpush]
    exact ⟨rfl, rfl, rfl⟩

end

end PairTable

namespace HashMap

/-- `TryHashMapConstructionError`. -/
inductive ConstructionError (ε : Type) where
  | reserve (e : TryReserveError)
  | default (e : ε)

/-- `try_collect` with the hasher that `try_default` made, or its error. The table grows by
`g`. -/
def tryCollect {K V ε : Type} [BEq K] (g : Growth) (tryDefault : Except ε (K → UInt64))
    (iter : Iter (K × V)) : Method (PairTable K V) (ConstructionError ε) Unit :=
  match tryDefault with
  | .error e => fail (.default e)
  | .ok _ => (PairTable.collector g .reserve).tryCollect iter

end HashMap

/-! ## Shards -/

namespace DashMap

section
variable {K V C E R : Type} {N : Nat}

def onShard (i : Fin N) (p : Method C E R) : Method (Fin N → C) E R := fun w =>
  let (r, w') := p { w with store := w.store i }
  (r, { w' with store := Function.update w.store i w'.store })

def tryReserveShards (g : Growth) (additional : Nat) :
    Method (Fin N → PairTable K V) TryReserveError Unit :=
  Body.forEach (fun i => onShard i (PairTable.reserve g additional id)) (List.finRange N)

variable [BEq K]

/-- `try_insert_give_back`, with what becomes of its error, on a map of which the keys lie in the
shards `shard` says: one place is reserved, and the pair inserted into it. -/
def tryInsertGiveBack (g : Growth) (shard : K → Fin N) (mapErr : TryReserveError → E)
    (kv : K × V) : Method (Fin N → PairTable K V) E Unit :=
  onShard (shard kv.1) do
    PairTable.reserve g 1 mapErr
    PairTable.insert g kv

def tryInsert (g : Growth) (shard : K → Fin N) (kv : K × V) :
    Method (Fin N → PairTable K V) TryReserveError Unit := tryInsertGiveBack g shard id kv

/-- `try_collect` with the hasher that `try_default` made; any error of it is reported as a
refused allocation. -/
def tryCollect {ε : Type} (g : Growth) (determineShard : UInt64 → Fin N)
    (tryDefault : Except ε (K → UInt64)) (iter : Iter (K × V)) :
    Method (Fin N → PairTable K V) TryReserveError Unit :=
  match tryDefault with
  | .error _ => fail .allocError
  | .ok hashOne => do
    let capacity := iter.capacity
    if 0 < capacity then
      tryReserveShards g capacity
    Body.forEach (tryInsert g fun k => determineShard (hashOne k)) iter.items

end

end DashMap

end Rustyfill.Collections
