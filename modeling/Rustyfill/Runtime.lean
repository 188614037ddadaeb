import Mathlib.Data.List.Basic
import Mathlib.Order.Lattice.Nat

/-!
# What the Rust code runs on

The faults a body can end in, the allocator as a schedule of granted and refused
requests, and the one operation of `Vec` that can ask it for memory.

A schedule is an arbitrary function of the number of requests made so far, so a
statement over all allocators is a statement over all schedules of failures.
-/

namespace Rustyfill

set_option autoImplicit false

universe u v

/-- How a body can end without returning. `undefined` is a read the language gives no
meaning to (a union field that was not written, an uninitialised slot, a dangling pointer);
`abort` is an infallible allocation that was refused. -/
inductive Fault where
  | expect (msg : String)
  | unreachable (msg : String)
  | undefined
  | abort
deriving DecidableEq, Repr

def expect {α : Type u} (msg : String) : Option α → Except Fault α
  | some a => .ok a
  | none => .error (.expect msg)

/-- A sequence of bodies returns only through a value of the first. -/
theorem bind_eq_ok {ε : Type u} {α β : Type v} {x : Except ε α} {f : α → Except ε β} {b : β} :
    x >>= f = .ok b ↔ ∃ a, x = .ok a ∧ f a = .ok b := by
  cases x with
  | error e => simp [Bind.bind, Except.bind]
  | ok a => simp [Bind.bind, Except.bind]

@[simp] theorem ok_bind {ε : Type u} {α β : Type v} (a : α) (f : α → Except ε β) :
    (Except.ok a >>= f) = f a := rfl

@[simp] theorem error_bind {ε : Type u} {α β : Type v} (e : ε) (f : α → Except ε β) :
    (Except.error e >>= f) = .error e := rfl

@[simp] theorem isOk_ok {ε : Type u} {α : Type v} (a : α) :
    (Except.ok a : Except ε α).isOk = true := rfl

@[simp] theorem isOk_error {ε : Type u} {α : Type v} (e : ε) :
    (Except.error e : Except ε α).isOk = false := rfl

def u32Max : Nat := 4294967295

/-- `usize::MAX` on a 64-bit target. -/
def usizeMax : Nat := 18446744073709551615

theorem one_le_usizeMax : 1 ≤ usizeMax := by decide

theorem two_le_usizeMax : 2 ≤ usizeMax := by decide

/-- `checked_add` on a type whose largest value is `bound`. -/
def checkedAdd (bound a b : Nat) : Option Nat := if a + b ≤ bound then some (a + b) else none

/-- `checked_sub` on an unsigned type. -/
def checkedSub (a b : Nat) : Option Nat := if b ≤ a then some (a - b) else none

theorem expect_checkedAdd {bound a b : Nat} (msg : String) (h : a + b ≤ bound) :
    expect msg (checkedAdd bound a b) = .ok (a + b) := by
  simp [expect, checkedAdd, h]

theorem expect_checkedSub {a b : Nat} (msg : String) (h : b ≤ a) :
    expect msg (checkedSub a b) = .ok (a - b) := by
  simp [expect, checkedSub, h]

/-- The global allocator: which requests it grants, and how many it has been asked. -/
structure Allocator where
  grants : Nat → Bool
  requests : Nat

namespace Allocator

/-- Ask for one block. -/
def request (a : Allocator) : Bool × Allocator :=
  (a.grants a.requests, { a with requests := a.requests + 1 })

@[simp] theorem request_fst (a : Allocator) : a.request.1 = a.grants a.requests := rfl

@[simp] theorem request_grants (a : Allocator) : a.request.2.grants = a.grants := rfl

@[simp] theorem request_requests (a : Allocator) : a.request.2.requests = a.requests + 1 := rfl

/-- No request is refused for ever. -/
def Fair (a : Allocator) : Prop := ∀ n, ∃ k, a.grants (n + k) = true

/-- How many of the next requests are refused before one is granted. -/
noncomputable def wait (a : Allocator) : Nat := sInf {k | a.grants (a.requests + k) = true}

theorem wait_request {a : Allocator} (h : a.Fair) (hg : a.grants a.requests = false) :
    a.request.2.wait < a.wait := by
  have hmem : a.grants (a.requests + a.wait) = true := Nat.sInf_mem (h a.requests)
  obtain ⟨k, hk⟩ : ∃ k, a.wait = k + 1 := by
    refine ⟨a.wait - 1, ?_⟩
    rcases Nat.eq_zero_or_pos a.wait with hzero | hpos
    · rw [hzero, Nat.add_zero, hg] at hmem
      exact absurd hmem (by simp)
    · omega
  have hle : a.request.2.wait ≤ k := by
    apply Nat.sInf_le
    change a.grants (a.requests + 1 + k) = true
    rwa [Nat.add_assoc, Nat.add_comm 1 k, ← hk]
  omega

end Allocator

/-- `alloc::collections::TryReserveError`, by kind. -/
inductive TryReserveError where
  | capacityOverflow
  | allocError
deriving DecidableEq, Repr

/-- `RawVec<T>::MIN_NON_ZERO_CAP`, the least room of a buffer that was asked for: 8 where the
elements are bytes, 4 where they have at most 1024 bytes, and 1 where they have more. -/
class RawVec (α : Type) where
  minNonZeroCap : Nat

instance : RawVec Bool := ⟨8⟩

/-- `RawVec::grow_amortized`: the room that is asked for, when `needed` elements do not fit. -/
def growAmortized (α : Type) [RawVec α] (capacity needed : Nat) : Nat :=
  max (RawVec.minNonZeroCap α) (max (2 * capacity) needed)

theorem needed_le_growAmortized {α : Type} [RawVec α] (capacity needed : Nat) :
    needed ≤ growAmortized α capacity needed :=
  Nat.le_trans (Nat.le_max_right _ _) (Nat.le_max_right _ _)

/-- `Vec::try_reserve` on a vector with `len` elements and room for `capacity`: no request when
the room is there, otherwise one for a larger buffer. The new capacity comes back on success. -/
def vecTryReserve (α : Type) [RawVec α] (len capacity additional : Nat) (a : Allocator) :
    Except TryReserveError Nat × Allocator :=
  if additional ≤ capacity - len then (.ok capacity, a)
  else if a.request.1 then (.ok (growAmortized α capacity (len + additional)), a.request.2)
  else (.error .allocError, a.request.2)

end Rustyfill
