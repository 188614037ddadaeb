import Rustyfill.Lib.Guarded
import Rustyfill.Lib.Trace

/-!
# Random data from the Linux kernel

`sys/random/linux.rs`. What the kernel answers, and what other threads store in the shared flags
in the meantime, is a schedule: a function of how much has been answered so far. The bytes are
known only by the device that wrote them.
-/

namespace Rustyfill.Random

open Guarded

set_option autoImplicit false

/-- An error number, as `raw_os_error` gives it. -/
abbrev Errno := Nat

def eperm : Errno := 1
def eintr : Errno := 4
def eio : Errno := 5
def eagain : Errno := 11
def einval : Errno := 22
def enosys : Errno := 38

def grndNonblock : Nat := 1
def grndInsecure : Nat := 4
def pollin : Nat := 1

inductive RandomError where
  | syscall (code : Errno)
  | platform (msg : String)
  | unsupported
deriving DecidableEq

/-- How a call ends without returning `Ok`. A call that is `running` has not ended. -/
inductive Exit where
  | error (e : RandomError)
  | outOfRange
  | assertFailed
  | running
deriving DecidableEq

inductive Device where
  | getrandom
  | urandom
deriving DecidableEq

/-- A byte of the buffer: the device that wrote it last, if the kernel wrote it at all. -/
abbrev Byte := Option Device

inductive Event where
  /-- A call of `getrandom`, with the error number of one that failed. -/
  | getrandom (flags : Nat) (refused : Option Errno)
  /-- The pool is ready, as `poll` or the shared flag says. -/
  | ready
  /-- A read of `/dev/urandom`. -/
  | urandom
deriving DecidableEq

/-- What one `poll` answers. -/
structure Poll where
  ret : Int
  revents : Nat
  errno : Option Errno

/-- A call that transfers at most `len` bytes fails or says how many it transferred. -/
abbrev Transfer (len : Nat) := Except (Option Errno) (Fin (len + 1))

structure Schedule where
  dlsym : Nat → Bool
  getrandom : Nat → (len : Nat) → Transfer len
  opens : Nat → Bool
  poll : Nat → Poll
  read : Nat → (len : Nat) → Transfer len
  /-- Another thread has stored `false` in `GRND_INSECURE_AVAILABLE`. -/
  clears : Nat → Bool
  /-- Another thread has stored `true` in `URANDOM_READY`. -/
  readies : Nat → Bool

/-- The statics: the two flags, and what the two cells hold once they are initialised. -/
structure Statics where
  insecureAvailable : Bool
  urandomReady : Bool
  getrandomFn : Option Bool
  device : Bool
  now : Nat

structure World where
  statics : Statics
  buffer : List Byte
  events : List Event

abbrev Routine (R : Type) := Body World Exit R

variable (k : Schedule)

/-- One more answer of the schedule. -/
def answered (s : Statics) : Statics := { s with now := s.now + 1 }

def written (buffer : List Byte) (offset n : Nat) (d : Device) : List Byte :=
  buffer.take offset ++ List.replicate n (some d) ++ buffer.drop (offset + n)

def fail {R : Type} (e : RandomError) : Routine R := Body.exit (.error e)

def panic {R : Type} (e : Exit) : Routine R := Body.exit e

/-- The length of the slice that starts at `offset`. -/
def restLen (offset : Nat) : Routine Nat := fun w => (.ok (w.buffer.length - offset), w)

def loadInsecureAvailable : Routine Bool := fun w =>
  let flag := w.statics.insecureAvailable && !k.clears w.statics.now
  (.ok flag, { w with statics := { answered w.statics with insecureAvailable := flag } })

def storeInsecureUnavailable : Routine Unit := fun w =>
  (.ok (), { w with statics := { w.statics with insecureAvailable := false } })

def loadUrandomReady : Routine Bool := fun w =>
  let flag := w.statics.urandomReady || k.readies w.statics.now
  (.ok flag, { w with
    statics := { answered w.statics with urandomReady := flag }
    events := if flag then w.events ++ [.ready] else w.events })

def storeUrandomReady : Routine Unit := fun w =>
  (.ok (), { w with statics := { w.statics with urandomReady := true } })

/-- `resolve_getrandom`: whether the symbol was found. -/
def resolveGetrandom : Routine Bool := fun w =>
  match w.statics.getrandomFn with
  | some found => (.ok found, w)
  | none =>
    let found := k.dlsym w.statics.now
    (.ok found, { w with statics := { answered w.statics with getrandomFn := some found } })

/-- The call through the resolved symbol, on the slice from `offset` on. -/
def getrandomFn (offset flags : Nat) : Routine (Except Errno Nat) := fun w =>
  match k.getrandom w.statics.now (w.buffer.length - offset) with
  | .ok ret => (.ok (.ok ret), {
      statics := answered w.statics
      buffer := written w.buffer offset ret .getrandom
      events := w.events ++ [.getrandom flags none] })
  | .error err => (.ok (.error (err.getD eio)), {
      statics := answered w.statics
      buffer := w.buffer
      events := w.events ++ [.getrandom flags (some (err.getD eio))] })

def getrandomFlags (insecure : Bool) : Routine Nat := do
  if insecure then
    let available ← loadInsecureAvailable k
    return if available then grndInsecure else grndNonblock
  else
    return 0

/-- The loop of `getrandom_syscall`, of which `rest` is the slice from `offset` on. -/
def getrandomLoop (insecure : Bool) : Nat → Nat → Routine Bool
  | 0, _ => panic .running
  | fuel + 1, offset => do
    let len ← restLen offset
    if len = 0 then
      return true
    else
      let flags ← getrandomFlags k insecure
      let answer ← getrandomFn k offset flags
      match answer with
      | .ok ret =>
        if ret ≤ len then getrandomLoop insecure fuel (offset + ret) else panic .outOfRange
      | .error err =>
        if err = eintr then getrandomLoop insecure fuel offset
        else if err = einval ∧ flags = grndInsecure then
          storeInsecureUnavailable
          getrandomLoop insecure fuel offset
        else if err = eagain ∧ flags = grndNonblock then return false
        else if err = enosys ∨ err = eperm then return false
        else fail (.syscall err)

def getrandomSyscall (fuel : Nat) (insecure : Bool) : Routine Bool := do
  let found ← resolveGetrandom k
  if found then getrandomLoop k insecure fuel 0 else return false

def openFile : Routine Bool := fun w =>
  (.ok (k.opens w.statics.now), { w with statics := answered w.statics })

def poll : Routine Poll := fun w =>
  (.ok (k.poll w.statics.now), { w with statics := answered w.statics })

/-- The pool is known to be ready from here on. -/
def reportReady : Routine Unit := fun w => (.ok (), { w with events := w.events ++ [.ready] })

def pollLoop : Nat → Routine Unit
  | 0 => panic .running
  | fuel + 1 => do
    let ready ← loadUrandomReady k
    if ready then
      return ()
    else
      let fd ← poll k
      if fd.ret = 1 then
        if fd.revents = pollin then
          reportReady
          storeUrandomReady
        else panic .assertFailed
      else if fd.ret = -1 ∧ fd.errno = some eintr then pollLoop fuel
      else fail (.platform "poll(\"/dev/random\") failed")

def waitForUrandomReady (fuel : Nat) (insecure : Bool) : Routine Unit := do
  if insecure then
    return ()
  else
    let ready ← loadUrandomReady k
    if ready then
      return ()
    else
      let opened ← openFile k
      if opened then pollLoop k fuel else fail (.platform "failed to open /dev/random")

/-- One `read` of the device, into the slice from `offset` on. -/
def readFile (offset : Nat) : Routine (Except (Option Errno) Nat) := fun w =>
  match k.read w.statics.now (w.buffer.length - offset) with
  | .ok n => (.ok (.ok n), {
      statics := answered w.statics
      buffer := written w.buffer offset n .urandom
      events := w.events ++ [.urandom] })
  | .error err => (.ok (.error err), {
      statics := answered w.statics
      buffer := w.buffer
      events := w.events ++ [.urandom] })

def readFailed {R : Type} : Routine R := fail (.platform "failed to read from /dev/urandom")

/-- `Read::read_exact`, whose errors are all mapped to one. -/
def readExact : Nat → Nat → Routine Unit
  | 0, _ => panic .running
  | fuel + 1, offset => do
    let len ← restLen offset
    if len = 0 then
      return ()
    else
      let answer ← readFile k offset
      match answer with
      | .ok n =>
        if n = 0 then readFailed
        else if n ≤ len then readExact fuel (offset + n)
        else panic .outOfRange
      | .error err => if err = some eintr then readExact fuel offset else readFailed

/-- `get_or_try_init` of the cell that keeps the device open. -/
def openDevice : Routine Bool := fun w =>
  if w.statics.device then (.ok true, w)
  else
    let opened := k.opens w.statics.now
    (.ok opened, { w with statics := { answered w.statics with device := opened } })

def readUrandom (fuel : Nat) : Routine Unit := do
  let opened ← openDevice k
  if opened then readExact k fuel 0 else fail (.platform "failed to open /dev/urandom")

def getrandomImpl (fuel : Nat) (insecure : Bool) : Routine Unit := do
  let filled ← getrandomSyscall k fuel insecure
  if filled then
    return ()
  else
    waitForUrandomReady k fuel insecure
    readUrandom k fuel

/-! ## Calls after each other -/

structure Call where
  insecure : Bool
  outcome : Except Exit Unit
  buffer : List Byte
  events : List Event

/-- Calls for buffers of the given lengths, one after another, on the same statics. -/
def session (fuel : Nat) : List (Bool × Nat) → Statics → List Call
  | [], _ => []
  | (insecure, len) :: requests, s =>
    let done := getrandomImpl k fuel insecure ⟨s, List.replicate len none, []⟩
    ⟨insecure, done.1, done.2.buffer, done.2.events⟩ :: session fuel requests done.2.statics

/-- No flags, and no read of the device before the pool is known to be ready. -/
def SecureAfter (before : List Event) : Event → Prop
  | .getrandom flags _ => flags = 0
  | .ready => True
  | .urandom => .ready ∈ before

def Secure (events : List Event) : Prop := Trace.Each SecureAfter events

def Refused (events : List Event) : Prop := .getrandom grndInsecure (some einval) ∈ events

/-- The flag is not used any more once it has been refused. -/
def AllowedAfter (before : List Event) : Event → Prop
  | .getrandom flags _ => flags = grndInsecure → ¬ Refused before
  | _ => True

def NotAgain (events : List Event) : Prop := Trace.Each AllowedAfter events

end Rustyfill.Random
