import Mathlib.Logic.Function.Basic
import Rustyfill.Lib.Run
import Rustyfill.Runtime

/-!
# Clients of one reference-counted allocation

`alloc/arc/arc_.rs`: the four fallible operations on the handles of one allocation, each a
`fetch_update` loop over one of the two counters, interleaved with drops and with the
standard library's `Arc::get_mut`, which locks the weak counter while it looks at the strong
one. A handle is borrowed by the operations that run on it, and a drop or a `get_mut` needs
it unborrowed.
-/

namespace Rustyfill.Arc

open Transition

set_option autoImplicit false

/-- `MAX_REFCOUNT`, which is `isize::MAX`. -/
def maxRefcount : Nat := 9223372036854775807

inductive Handle where
  | arc
  | weak
  | dropped
deriving DecidableEq

/-- The fallible operations. -/
inductive Op where
  | arcTryClone
  | tryDowngrade
  | weakTryClone
  | tryUpgrade
deriving DecidableEq

/-- What an operation is called on. -/
def Op.borrows : Op → Handle
  | .arcTryClone | .tryDowngrade => .arc
  | .weakTryClone | .tryUpgrade => .weak

def Op.makes : Op → Handle
  | .arcTryClone | .tryUpgrade => .arc
  | .tryDowngrade | .weakTryClone => .weak

/-- The closure three of the operations give to `fetch_update`. -/
def checkedNext (cur : Nat) : Option Nat :=
  (checkedAdd usizeMax cur 1).filter fun next => next < maxRefcount

/-- The closure of `try_upgrade`. -/
def upgradeNext (cur : Nat) : Option Nat :=
  if cur = 0 then none
  else if maxRefcount ≤ cur then none
  else checkedAdd usizeMax cur 1

def Op.update : Op → Nat → Option Nat
  | .arcTryClone => checkedNext
  | .tryDowngrade => checkedNext
  | .weakTryClone => checkedNext
  | .tryUpgrade => upgradeNext

/-- `fetch_sub(1)`, which wraps. -/
def fetchSub (cur : Nat) : Nat := if cur = 0 then usizeMax else cur - 1

/-- Where a client is. `looping` holds the value that `fetch_update` read last. -/
inductive Pc where
  | idle
  | looping (op : Op) (h : Nat) (prev : Nat)
  | getMutLocked (h : Nat)
  | getMutLoaded (h : Nat) (unique : Bool)
  | dropSlow
deriving DecidableEq

structure State where
  strong : Nat
  weak : Nat
  handles : List Handle
  pc : Nat → Pc

def Pc.handle : Pc → Option Nat
  | .looping _ h _ => some h
  | .getMutLocked h => some h
  | .getMutLoaded h _ => some h
  | .idle | .dropSlow => none

/-- The client holds the lock on the weak counter. -/
def Pc.Locks : Pc → Prop
  | .getMutLocked _ | .getMutLoaded _ _ => True
  | .idle | .looping .. | .dropSlow => False

namespace State

def set (s : State) (t : Nat) (pc : Pc) : State := { s with pc := Function.update s.pc t pc }

/-- The counter an operation increments. -/
def word (s : State) : Handle → Nat
  | .arc => s.strong
  | _ => s.weak

def setWord (s : State) (w : Handle) (n : Nat) : State :=
  match w with
  | .arc => { s with strong := n }
  | _ => { s with weak := n }

def Shared (s : State) (h : Nat) (k : Handle) : Prop :=
  s.handles[h]? = some k ∧ ∀ u, (s.pc u).handle = some h → ¬ (s.pc u).Locks

/-- A handle nobody borrows. -/
def Owned (s : State) (h : Nat) (k : Handle) : Prop :=
  s.handles[h]? = some k ∧ ∀ u, (s.pc u).handle ≠ some h

end State

inductive Act where
  | read (op : Op) (cur : Nat)
  | reject (op : Op) (cur : Nat)
  | succeed (op : Op) (cur : Nat)
  | dropArc
  | dropSlow
  | dropWeak
  | getMutLock
  | getMutBusy
  | getMutLoad
  | getMutUnlock
deriving DecidableEq

/-- The counter read by an operation that starts or that lost a compare-exchange, and what
`fetch_update` makes of it: return, or go round the loop. -/
def State.decide (s : State) (t : Nat) (op : Op) (h : Nat) : Act × State :=
  match op.update (s.word op.makes) with
  | none => (.reject op (s.word op.makes), s.set t .idle)
  | some _ => (.read op (s.word op.makes), s.set t (.looping op h (s.word op.makes)))

/-- One atomic step of client `t`. -/
inductive Step : State → Nat × Act → State → Prop where
  | start {s : State} {t h : Nat} {op : Op} : s.pc t = .idle → s.Shared h op.borrows →
      Step s (t, (s.decide t op h).1) (s.decide t op h).2
  | retry {s : State} {t h prev : Nat} {op : Op} : s.pc t = .looping op h prev →
      Step s (t, (s.decide t op h).1) (s.decide t op h).2
  | succeed {s : State} {t h prev next : Nat} {op : Op} : s.pc t = .looping op h prev →
      s.word op.makes = prev → op.update prev = some next →
      Step s (t, .succeed op prev)
        { (s.setWord op.makes next).set t .idle with handles := s.handles ++ [op.makes] }
  | dropArc {s : State} {t h : Nat} : s.pc t = .idle → s.Owned h .arc →
      Step s (t, .dropArc)
        { s.set t (if s.strong = 1 then .dropSlow else .idle) with
          strong := fetchSub s.strong, handles := s.handles.set h .dropped }
  | dropSlow {s : State} {t : Nat} : s.pc t = .dropSlow →
      Step s (t, .dropSlow) { s.set t .idle with weak := fetchSub s.weak }
  | dropWeak {s : State} {t h : Nat} : s.pc t = .idle → s.Owned h .weak →
      Step s (t, .dropWeak)
        { s with weak := fetchSub s.weak, handles := s.handles.set h .dropped }
  | getMutLock {s : State} {t h : Nat} : s.pc t = .idle → s.Owned h .arc → s.weak = 1 →
      Step s (t, .getMutLock) { s.set t (.getMutLocked h) with weak := usizeMax }
  | getMutBusy {s : State} {t h : Nat} : s.pc t = .idle → s.Owned h .arc → s.weak ≠ 1 →
      Step s (t, .getMutBusy) s
  | getMutLoad {s : State} {t h : Nat} : s.pc t = .getMutLocked h →
      Step s (t, .getMutLoad) (s.set t (.getMutLoaded h (s.strong = 1)))
  | getMutUnlock {s : State} {t h : Nat} {unique : Bool} : s.pc t = .getMutLoaded h unique →
      Step s (t, .getMutUnlock) { s.set t .idle with weak := 1 }

/-- A new allocation, with its first handle. -/
def State.init : State := ⟨1, 1, [.arc], fun _ => .idle⟩

def State.live (s : State) (k : Handle) : Nat := s.handles.countP (· = k)

end Rustyfill.Arc
