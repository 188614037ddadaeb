import Rustyfill.Collections.Buffer
import Rustyfill.Collections.LinkedList

/-!
# Extensions that roll back

`try_extend_from_slice_with_rollback`, `try_resize` and `try_resize_with` of `Vec` and
`VecDeque`, and the first of them of `LinkedList`. The clones and the values of a closure are
pushed one after another, and a `TruncateGuard` takes back what was pushed when the body exits
early, also by a panic of the caller's code.
-/

namespace Rustyfill.Collections

open Guarded

set_option autoImplicit false

/-- A collection, the allocator, and how often the caller's code was called. -/
structure World (C : Type) where
  store : C
  memory : Memory
  calls : Nat

/-- How a method exits early: with an error, by a panic, or by an abort. -/
inductive Exit (E : Type) where
  | error (e : E)
  | panic
  | abort
deriving DecidableEq

theorem Exit.error_ne_abort {E : Type} (e : E) : Exit.error e ≠ .abort := nofun

theorem Exit.panic_ne_abort {E : Type} : (Exit.panic : Exit E) ≠ .abort := nofun

abbrev Method (C E R : Type) := Body (World C) (Exit E) R

/-- What a call of the caller's code comes to. -/
inductive Answer (T E : Type) where
  | ok (x : T)
  | error (e : E)
  | panic

section
variable {C T E ε : Type}

/-- A call of the caller's code. Its answer may depend on the calls made before. -/
def call (f : Nat → Answer T ε) (fail : ε → E) : Method C E T := fun w =>
  let w' := { w with calls := w.calls + 1 }
  match f w.calls with
  | .ok x => (.ok x, w')
  | .error e => (.error (.error (fail e)), w')
  | .panic => (.error .panic, w')

def tryClone (clone : Nat → T → Answer T ε) (x : T) (fail : ε → E) : Method C E T :=
  call (fun n => clone n x) fail

/-- The loops of the extensions: values are made one by one and pushed. -/
def pushEach {ι : Type} (push : T → Method C E Unit) (make : ι → Method C E T) (is : List ι) :
    Method C E Unit :=
  Body.forEach (fun i => do
    let x ← make i
    push x) is

/-- Whether the process is gone, so that nothing is dropped any more. -/
def Exit.aborts : Exit E → Bool
  | .abort => true
  | _ => false

def truncateGuard (len : C → Nat) (truncate : C → Nat → C) {R : Type} (p : Method C E R) :
    Method C E R :=
  Body.guarded Exit.aborts (fun w w' => { w' with store := truncate w'.store (len w.store) }) p

def store : Method C E C := fun w => (.ok w.store, w)

def setStore (c : C) : Method C E Unit := fun w => (.ok (), { w with store := c })

def fail {R : Type} (e : E) : Method C E R := Body.exit (.error e)

end

/-! ## `Vec` and `VecDeque` -/

/-- An end of a range of `usize`. -/
inductive Bound where
  | included (i : Nat) (h : i ≤ usizeMax)
  | excluded (i : Nat) (h : i ≤ usizeMax)
  | unbounded
deriving DecidableEq

/-- What `RangeBounds` answers. -/
structure RangeBounds where
  startBound : Bound
  endBound : Bound
deriving DecidableEq

namespace Buffer

section
variable {T E ε R : Type} (l : Layout)

/-- `try_reserve`, with its error mapped. -/
def reserve (additional : Nat) (mapErr : TryReserveError → E) : Method (Buffer T) E Unit := fun w =>
  match w.store.tryReserve l additional w.memory with
  | (.ok b, m) => (.ok (), { w with store := b, memory := m })
  | (.error e, m) => (.error (.error (mapErr e)), { w with memory := m })

/-- `push` and `push_back`, which reserve infallibly when the buffer is full. -/
def push (x : T) : Method (Buffer T) E Unit := fun w =>
  if h : w.store.len < w.store.capacity then
    (.ok (), { w with store := w.store.append x h })
  else
    match h : w.store.tryReserve l 1 w.memory with
    | (.ok b, m) => (.ok (), { w with store := b.append x (roomAfter h), memory := m })
    | (.error _, m) => (.error .abort, { w with memory := m })
where
  roomAfter {b b' : Buffer T} {m m' : Memory} (h : b.tryReserve l 1 m = (.ok b', m')) :
      b'.len < b'.capacity := by
    obtain ⟨helems, hle⟩ := tryReserve_ok h
    rw [len, helems]
    exact hle

def index (i : Nat) : Method (Buffer T) E T := fun w =>
  match w.store.elems[i]? with
  | some x => (.ok x, w)
  | none => (.error .panic, w)

def guarded (p : Method (Buffer T) E R) : Method (Buffer T) E R := truncateGuard len truncate p

/-- An end of a range that is one past an index, which may be `usize::MAX`. -/
def onePast (mapReserve : TryReserveError → E) (i : Nat) : Method (Buffer T) E Nat :=
  match checkedAdd usizeMax i 1 with
  | some i => return i
  | none => fail (mapReserve .capacityOverflow)

def startIndex (mapReserve : TryReserveError → E) : Bound → Method (Buffer T) E Nat
  | .included i _ => return i
  | .excluded i _ => onePast mapReserve i
  | .unbounded => return 0

def endIndex (mapReserve : TryReserveError → E) (len : Nat) : Bound → Method (Buffer T) E Nat
  | .included i _ => onePast mapReserve i
  | .excluded i _ => return i
  | .unbounded => return len

/-- The elements of a range that is in bounds are cloned to the end. -/
def cloneRange (clone : Nat → T → Answer T ε) (mapReserve : TryReserveError → E) (mapClone : ε → E)
    (start count : Nat) : Method (Buffer T) E Unit := do
  reserve l count mapReserve
  guarded (pushEach (push l)
    (fun i => do
      let item ← index i
      tryClone clone item mapClone)
    (List.range' start count))

def extendFromWithin (clone : Nat → T → Answer T ε) (mapReserve : TryReserveError → E)
    (outOfBounds : E) (mapClone : ε → E) (range : RangeBounds) : Method (Buffer T) E Unit := do
  let start ← startIndex mapReserve range.startBound
  let buffer ← store
  let stop ← endIndex mapReserve buffer.len range.endBound
  if start ≥ stop then
    return ()
  if stop > buffer.len ∨ start > buffer.len then
    fail outOfBounds
  cloneRange l clone mapReserve mapClone start (stop - start)

end

end Buffer

/-! ### The methods -/

namespace Vec

variable {T ε : Type} (l : Layout)

/-- `TryVecWithCloneError`. -/
inductive WithCloneError (ε : Type) where
  | reserve (e : TryReserveError)
  | clone (e : ε)

/-- `TryVecExtendFromWithinError`. -/
inductive ExtendFromWithinError (ε : Type) where
  | reserve (e : TryReserveError)
  | outOfBounds
  | clone (e : ε)

def tryExtendFromWithin (clone : Nat → T → Answer T ε) (range : RangeBounds) :
    Method (Buffer T) (ExtendFromWithinError ε) Unit :=
  Buffer.extendFromWithin l clone .reserve .outOfBounds .clone range

end Vec

namespace VecDeque

variable {T ε : Type} (l : Layout)

/-- `TryVecDequeWithCloneError`. -/
inductive WithCloneError (ε : Type) where
  | reserve (e : TryReserveError)
  | clone (e : ε)

/-- `TryVecDequeExtendFromWithinError`. -/
inductive ExtendFromWithinError (ε : Type) where
  | reserve (e : TryReserveError)
  | outOfBounds
  | clone (e : ε)

def tryExtendFromWithin (clone : Nat → T → Answer T ε) (range : RangeBounds) :
    Method (Buffer T) (ExtendFromWithinError ε) Unit :=
  Buffer.extendFromWithin l clone .reserve .outOfBounds .clone range

end VecDeque

/-! ## `LinkedList` -/

/-- A list, one node for each element. -/
structure LinkedList (T : Type) where
  elems : List T

namespace LinkedList

variable {T E ε R : Type}

/-- `TryLinkedListWithCloneError`; an `AllocError` says nothing more. -/
inductive WithCloneError (ε : Type) where
  | alloc
  | clone (e : ε)

def len (list : LinkedList T) : Nat := list.elems.length

def popBack (list : LinkedList T) : LinkedList T := ⟨list.elems.dropLast⟩

/-- The loop of the guard. -/
def truncate (list : LinkedList T) (lenBefore : Nat) : LinkedList T :=
  if lenBefore < list.len then truncate list.popBack lenBefore else list
termination_by list.len
decreasing_by
  simp only [len, popBack, List.length_dropLast] at *
  omega

/-- `try_push_back`: the request for the node is the only step that can fail. -/
def tryPushBack (nodeSize : Nat) (mapErr : E) (x : T) : Method (LinkedList T) E Unit := fun w =>
  match w.memory.request nodeSize with
  | (true, m) => (.ok (), { w with store := ⟨w.store.elems ++ [x]⟩, memory := m })
  | (false, m) => (.error (.error mapErr), { w with memory := m })

/-- The push onto the list of nodes. Where the request for the node is answered alike, both end
alike, and the nodes make up the elements. -/
theorem tryPushBack_refines {nodeSize : Nat} {mapErr : E} {x : T} {w : World (LinkedList T)}
    {heap : LinkedList.World T} (h : LinkedList.WellFormed heap w.store.elems)
    (hsame : heap.fresh.isSome = w.memory.grants w.memory.requests nodeSize) :
    (LinkedList.tryPushBackMutGiveBack x).Meets heap
      (fun _ heap' => (tryPushBack nodeSize mapErr x w).1 = .ok () ∧
        LinkedList.WellFormed heap' (tryPushBack nodeSize mapErr x w).2.store.elems)
      (fun e heap' => e = .error x ⟨⟩ ∧
        (tryPushBack nodeSize mapErr x w).1 = .error (.error mapErr) ∧
        LinkedList.WellFormed heap' (tryPushBack nodeSize mapErr x w).2.store.elems) := by
  apply (LinkedList.tryPushBack_surgery h).mono
  · rintro _ heap' ⟨hfresh, hadded, -⟩
    rw [hsame] at hfresh
    simp only [tryPushBack, Memory.request, hfresh]
    exact ⟨trivial, hadded⟩
  · rintro _ heap' ⟨hfresh, rfl, hheap, hlist⟩
    rw [hsame] at hfresh
    simp only [tryPushBack, Memory.request, hfresh]
    exact ⟨trivial, trivial, h.congr hheap hlist⟩

end LinkedList

end Rustyfill.Collections
