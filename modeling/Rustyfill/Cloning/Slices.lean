import Rustyfill.Collections.Atomic

/-!
# Cloning slices, boxed slices and arrays

`alloc/vec/slice_.rs` and the arrays of `try_clone.rs`. A slot of uninitialised memory holds
`none` until a value is written to it, so that a value which nobody wrote can be told from a
clone. What is dropped is logged by what was in the slots.
-/

namespace Rustyfill.Cloning

open Guarded Collections

set_option autoImplicit false

/-- A slice: no more elements than `usize` counts. -/
structure Slice (T : Type) where
  elems : List T
  bounded : elems.length ≤ usizeMax

inductive TryCloneError where
  | reserve (e : TryReserveError)
  | alloc
  | other (msg : String)
deriving DecidableEq

inductive TryToOwnedError where
  | reserve (e : TryReserveError)
  | alloc
  | other (msg : String)
deriving DecidableEq

def TryToOwnedError.ofClone : TryCloneError → TryToOwnedError
  | .reserve e => .reserve e
  | .alloc => .alloc
  | .other msg => .other msg

/-- Memory for some values, slot by slot. -/
abbrev Cells (T : Type) := List (Option T)

/-- What a call leaves behind: the dropped values, and the buffers that are allocated. -/
structure Ledger (T : Type) where
  dropped : Cells T
  blocks : Nat

/-- Uninitialised memory under an init guard. -/
structure Slots (T : Type) where
  slots : Cells T
  count : Nat

section
variable {T E : Type}

def changeBlocks (f : Nat → Nat) (w : World (Ledger T)) : World (Ledger T) :=
  { w with store := { w.store with blocks := f w.store.blocks } }

def alloc (size : Nat) : Method (Ledger T) E Bool := fun w =>
  match w.memory.request size with
  | (true, m) => (.ok true, changeBlocks (· + 1) { w with memory := m })
  | (false, m) => (.ok false, { w with memory := m })

/-! ## The init guards -/

/-- `ptr::write` into a slot. -/
def write (i : Nat) (x : T) : Method (Slots T) E Unit := fun w =>
  if i < w.store.slots.length then
    (.ok (), { w with store := { w.store with slots := w.store.slots.set i (some x) } })
  else (.error .panic, w)

def addCount : Method (Slots T) E Unit := fun w =>
  match checkedAdd usizeMax w.store.count 1 with
  | some count => (.ok (), { w with store := { w.store with count := count } })
  | none => (.error .panic, w)

def initSlot (i : Nat) (x : T) : Method (Slots T) E Unit := do
  write i x
  addCount

/-- The loop over the elements and the slots, of which there are as many. -/
def initSlots (clone : Nat → T → Answer T E) (elems : List T) : Method (Slots T) E Unit :=
  Body.forEach (fun p => do
    let cloned ← tryClone clone p.1 id
    initSlot p.2 cloned) elems.zipIdx

/-- A body over `n` uninitialised slots, whose guard drops the counted ones when the body exits
early and is disarmed when it does not. -/
def withSlots (n : Nat) (p : Method (Slots T) E Unit) : Method (Ledger T) E (Cells T) := fun w =>
  match p ⟨⟨List.replicate n none, 0⟩, w.memory, w.calls⟩ with
  | (.ok (), w') => (.ok w'.store.slots, ⟨w.store, w'.memory, w'.calls⟩)
  | (.error e, w') =>
    let dropped := if e.aborts then [] else w'.store.slots.take w'.store.count
    (.error e, ⟨{ w.store with dropped := w.store.dropped ++ dropped }, w'.memory, w'.calls⟩)

def arrayTryClone (clone : Nat → T → Answer T TryCloneError) (array : Slice T) :
    Method (Ledger T) TryCloneError (Cells T) :=
  withSlots array.elems.length (initSlots clone array.elems)

/-- `try_clone` of `Box<[T]>`. The slots of an empty or sizeless slice are where a dangling
pointer points to. -/
def boxTryClone (l : Layout) (clone : Nat → T → Answer T TryCloneError) (boxed : Slice T) :
    Method (Ledger T) TryCloneError (Cells T) := do
  let len := boxed.elems.length
  if len = 0 ∨ l.size = 0 then
    return List.replicate len none
  else if ¬ l.fits len then
    fail (.reserve .capacityOverflow)
  else
    let granted ← alloc (len * l.size)
    if granted then
      Body.guarded Exit.aborts (fun _ => changeBlocks (· - 1))
        (withSlots len (initSlots clone boxed.elems))
    else fail (.reserve .allocError)

/-! ## Vectors -/

/-- The buffers a vector has allocated. -/
def vecBlocks (l : Layout) (b : Buffer T) : Nat := if l.size = 0 ∨ b.capacity = 0 then 0 else 1

/-- A body over a vector of its own, which is dropped with its elements and its buffer when the
body exits early. -/
def withVec (l : Layout) (p : Method (Buffer T) E Unit) : Method (Ledger T) E (Cells T) := fun w =>
  match p ⟨Buffer.new l, w.memory, w.calls⟩ with
  | (.ok (), w') => (.ok (w'.store.elems.map some),
      changeBlocks (· + vecBlocks l w'.store) ⟨w.store, w'.memory, w'.calls⟩)
  | (.error e, w') =>
    let dropped := if e.aborts then [] else w'.store.elems.map some
    (.error e, ⟨{ w.store with dropped := w.store.dropped ++ dropped }, w'.memory, w'.calls⟩)

/-- `try_to_vec` and `try_to_owned`, which differ in their errors. -/
def cloneToVec (l : Layout) (clone : Nat → T → Answer T TryCloneError)
    (mapReserve : TryReserveError → E) (mapClone : TryCloneError → E) (slice : Slice T) :
    Method (Ledger T) E (Cells T) :=
  withVec l (do
    if slice.elems ≠ [] then
      Buffer.reserve l slice.elems.length mapReserve
    pushEach (Buffer.push l) (fun elem => tryClone clone elem mapClone) slice.elems)

def tryToVec (l : Layout) (clone : Nat → T → Answer T TryCloneError) (slice : Slice T) :
    Method (Ledger T) (Vec.WithCloneError TryCloneError) (Cells T) :=
  cloneToVec l clone .reserve .clone slice

def tryToOwned (l : Layout) (clone : Nat → T → Answer T TryCloneError) (slice : Slice T) :
    Method (Ledger T) TryToOwnedError (Cells T) :=
  cloneToVec l clone .reserve .ofClone slice

end

/-! ## The account of one call -/

section
variable {T E ε : Type}

/-- How a call ends whose element answers so. -/
def failure (mapClone : ε → E) : Answer T ε → Option (Exit E)
  | .ok _ => none
  | .error e => some (.error (mapClone e))
  | .panic => some .panic

/-- A clone of a slice accounts for its elements: it returns exactly if there is memory and every
element is cloned, with the clones in order; an element that fails ends it, and exactly the clones
made before are dropped, each once, and the buffer is released. -/
structure Accounts (clone : Nat → T → Answer T ε) (mapClone : ε → E) (granted : Prop)
    (elems : List T) (p : Method (Ledger T) E (Cells T)) (w : World (Ledger T)) : Prop where
  returns_iff : (∃ slots, (p w).1 = .ok slots) ↔ granted ∧ ∃ xs, Made clone w.calls elems xs
  returned : ∀ slots, (p w).1 = .ok slots →
    (p w).2.calls = w.calls + elems.length ∧ (p w).2.store.dropped = w.store.dropped ∧
      ∃ xs, Made clone w.calls elems xs ∧ slots = xs.map some
  undone : ∀ before x after xs e, granted → elems = before ++ x :: after →
    Made clone w.calls before xs → failure mapClone (clone (w.calls + before.length) x) = some e →
    (p w).1 = .error e ∧ (p w).2.calls = w.calls + before.length + 1 ∧
      (p w).2.store = ⟨w.store.dropped ++ xs.map some, w.store.blocks⟩
  refused : ¬ granted → (p w).2.calls = w.calls ∧ (p w).2.store = w.store

/-- There is memory for the box of a slice, if it needs any. -/
def BoxGranted (l : Layout) (n : Nat) (m : Memory) : Prop :=
  n = 0 ∨ l.size = 0 ∨ l.fits n ∧ (m.request (n * l.size)).1 = true

/-- There is memory for a vector of so many elements, if it needs any. -/
def VecGranted (T : Type) (l : Layout) (n : Nat) (m : Memory) : Prop :=
  ((Buffer.new l : Buffer T).tryReserve l n m).1.isOk = true

end

end Rustyfill.Cloning
