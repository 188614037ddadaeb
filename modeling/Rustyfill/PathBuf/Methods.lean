import Rustyfill.Collections.Collect
import Rustyfill.PathBuf.Components

/-!
# The fallible methods of `PathBuf`

`std/path/path_buf.rs`, over an `OsString` that grows by reservations. What is built up beside
the path, a list of components or a string, is in a buffer of its own.
-/

namespace Rustyfill.PathBuf

open Guarded Collections

set_option autoImplicit false

def byte : Layout := ⟨1, 1⟩

abbrev OsString := Buffer UInt8

abbrev PathMethod (E R : Type) := Method OsString E R

section
variable {C D E R T : Type}

/-- A body over a buffer of its own, which is dropped when the body exits early. -/
def onLocal (init : D) (p : Method D E Unit) : Method C E D := fun w =>
  match p ⟨init, w.memory, w.calls⟩ with
  | (.ok (), w') => (.ok w'.store, ⟨w.store, w'.memory, w'.calls⟩)
  | (.error e, w') => (.error e, ⟨w.store, w'.memory, w'.calls⟩)

/-! ## `OsString` -/

/-- `push` in a buffer that has the room. -/
def appended (b : OsString) (s : Bytes) (h : s.length ≤ b.capacity - b.len) : OsString where
  elems := b.elems ++ s
  capacity := b.capacity
  room := by
    have hroom := b.room
    rw [Buffer.len] at h
    rw [List.length_append]
    omega
  bounded := b.bounded

/-- `OsString::push`, which reserves infallibly when there is no room. -/
def push (s : Bytes) : PathMethod E Unit := fun w =>
  if h : s.length ≤ w.store.capacity - w.store.len then
    (.ok (), { w with store := appended w.store s h })
  else
    match h : w.store.tryReserve byte s.length w.memory with
    | (.ok b, m) => (.ok (), { w with store := appended b s (roomAfter h), memory := m })
    | (.error _, m) => (.error .abort, { w with memory := m })
where
  roomAfter {b b' : OsString} {m m' : Memory} {n : Nat} (h : b.tryReserve byte n m = (.ok b', m')) :
      n ≤ b'.capacity - b'.len := by
    obtain ⟨helems, hle⟩ := Buffer.tryReserve_ok h
    rw [Buffer.len] at hle ⊢
    rw [helems]
    omega

def osTryPush (s : Bytes) : PathMethod TryReserveError Unit := do
  if s ≠ [] then
    Buffer.reserve byte s.length id
  push s

/-- The string is swapped out as bytes, truncated, and put back. -/
def truncateTo (n : Nat) : PathMethod E Unit := do
  let current ← store
  setStore (current.truncate n)

/-! ## Vectors of components -/

def vecTryPush (l : Layout) (x : T) : Method (Buffer T) TryReserveError Unit := do
  Buffer.reserve l 1 id
  Buffer.push l x

/-- `Vec::truncate`, and `pop` by one less than there is. -/
def vecTruncate (n : Nat) : Method (Buffer T) E Unit := do
  let vec ← store
  setStore (vec.truncate n)

end

/-! ## `inner_push` -/

section
variable (P : Platform) (component : Layout)

/-- A component iterator says nothing of how many components there are. -/
def componentsIter (path : Bytes) : Iter Component where
  items := P.components path
  lower := 0
  upper := none
  lower_le := Nat.zero_le _
  le_upper := by simp
  bounded := Iter.none_bounded

def appendComponent : Component → Method (Buffer Component) TryReserveError Unit
  | .rootDir => do
    vecTruncate 1
    vecTryPush component .rootDir
  | .curDir => return ()
  | .parentDir => do
    let buf ← store
    if (buf.elems.getLast?.map Component.isNormal).getD false then
      vecTruncate (buf.len - 1)
  | c => vecTryPush component c

def appendNormalized (path : Bytes) : Method (Buffer Component) TryReserveError Unit :=
  Body.forEach (appendComponent component) (P.components path)

def renderComponents : Bool → List Component → PathMethod TryReserveError Unit
  | _, [] => return ()
  | needSep, c :: cs => do
    if needSep && c ≠ .rootDir then
      osTryPush [P.mainSeparator]
    osTryPush (P.asOsStr c)
    renderComponents (Platform.sepAfter c) cs

def pushVerbatimNormalized (path : Bytes) : PathMethod TryReserveError Unit := do
  let target ← store
  let buf ← onLocal (Buffer.new component) (do
    Vec.tryCollect component (componentsIter P target.elems)
    appendNormalized P component path)
  let rendered ← onLocal (Buffer.new byte) (renderComponents P false buf.elems)
  setStore rendered

def findPrefix (path : Bytes) : Option Prefix := (P.components path).findSome? Component.kind?

def childHasPrefix (path : Bytes) : Bool :=
  ((P.components path).head?.bind Component.kind?).isSome

def targetNeedsSep (target : Bytes) : Bool :=
  let needSep := (target.getLast?.map fun c => !P.isSeparator c).getD false
  match findPrefix P target with
  | some p => if 0 < p.len ∧ p.len = target.length ∧ p.isDrive then false else needSep
  | none => needSep

def needClear (path : Bytes) : Bool :=
  if P.cygwin then childHasPrefix P path else P.isAbsolute path || childHasPrefix P path

def innerPush (path : Bytes) : PathMethod TryReserveError Unit := do
  let target ← store
  let needSep := targetNeedsSep P target.elems
  let found := findPrefix P target.elems
  if needClear P path then do
    truncateTo 0
    osTryPush path
  else
    match found with
    | some p =>
      if p.isVerbatim && path ≠ [] then pushVerbatimNormalized P component path
      else osTryPush path
    | none =>
      if P.hasRoot path then do
        truncateTo ((found.map Prefix.len).getD 0)
        osTryPush path
      else if needSep then do
        osTryPush [P.mainSeparator]
        osTryPush path
      else osTryPush path

def tryPush (path : Bytes) : PathMethod TryReserveError Unit := innerPush P component path

/-- `try_to_path_buf`, from an empty path on. -/
def tryToPathBuf (base : Bytes) : PathMethod TryReserveError Unit := do
  if 0 < base.length then
    Buffer.reserve byte base.length id
  push base

def tryJoin (base child : Bytes) : PathMethod TryReserveError Unit := do
  tryToPathBuf base
  innerPush P component child

end

/-! ## Extensions -/

inductive SetExtensionError where
  | reserve (e : TryReserveError)
  | noFileStem
  | separatorInPath
deriving DecidableEq

inductive AddExtensionError where
  | reserve (e : TryReserveError)
  | separatorInPath
deriving DecidableEq

section
variable {E : Type} (P : FileNames)

/-- `Vec::reserve_exact`, infallible. -/
def reserveExact (n : Nat) : PathMethod E Unit := fun w =>
  if n ≤ w.store.capacity - w.store.len then (.ok (), w)
  else if h : byte.fits (w.store.len + n) then
    match w.memory.request ((w.store.len + n) * byte.size) with
    | (true, m) => (.ok (), { w with
        store := w.store.withCapacity (w.store.len + n) (Layout.fits_le (l := byte) (by decide) h)
        memory := m })
    | (false, m) => (.error .abort, { w with memory := m })
  else (.error .panic, w)

/-- `PathBuf::set_extension` of the standard library, for a path with a file stem. -/
def setExtension (stemEnd : Nat) (ext : Bytes) : PathMethod E Unit := do
  truncateTo stemEnd
  if ext ≠ [] then do
    reserveExact (ext.length + 1)
    push [46]
    push ext

def trySetExtension (ext : Bytes) : PathMethod SetExtensionError Unit := do
  let path ← store
  match P.stemEnd path.elems with
  | none => fail .noFileStem
  | some stemEnd => do
    if ext.any P.isSeparator then
      fail .separatorInPath
    if ext ≠ [] then
      match checkedAdd usizeMax ext.length 1 with
      | none => fail (.reserve .capacityOverflow)
      | some needed => Buffer.reserve byte needed .reserve
    setExtension stemEnd ext

def tryAddExtension (ext : Bytes) : PathMethod AddExtensionError Bool := do
  if ext.any P.isSeparator then
    fail .separatorInPath
  let path ← store
  match P.nameEnd path.elems with
  | none => return false
  | some fnameEndOffset => do
    if ext = [] then
      return true
    let bytesToTruncate := path.len - fnameEndOffset
    match checkedAdd usizeMax ext.length 1 with
    | none => fail (.reserve .capacityOverflow)
    | some grown => do
      let needed := grown - bytesToTruncate
      if 0 < needed then
        Buffer.reserve byte needed .reserve
      truncateTo fnameEndOffset
      push [46]
      push ext
      return true

end

end Rustyfill.PathBuf
