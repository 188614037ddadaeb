import Mathlib.Data.List.Basic

/-!
# Paths and their components

What the standard library's parser says of a path, and the methods of its `PathBuf`, as functions
on the bytes of the path. The parser and the separators are those of any platform.
-/

namespace Rustyfill.PathBuf

set_option autoImplicit false

abbrev Bytes := List UInt8

/-- `std::path::Prefix`. -/
inductive Prefix where
  | verbatim (x : Bytes)
  | verbatimUNC (x y : Bytes)
  | verbatimDisk (disk : UInt8)
  | deviceNS (x : Bytes)
  | unc (x y : Bytes)
  | disk (disk : UInt8)
deriving DecidableEq

namespace Prefix

def len : Prefix → Nat
  | verbatim x => 4 + x.length
  | verbatimUNC x y => 8 + x.length + if 0 < y.length then 1 + y.length else 0
  | verbatimDisk _ => 6
  | unc x y => 2 + x.length + if 0 < y.length then 1 + y.length else 0
  | deviceNS x => 4 + x.length
  | disk _ => 2

def isDrive : Prefix → Bool
  | disk _ => true
  | _ => false

def isVerbatim : Prefix → Bool
  | verbatim _ | verbatimDisk _ | verbatimUNC _ _ => true
  | _ => false

end Prefix

/-- `std::path::Component`; a prefix comes with its own bytes. -/
inductive Component where
  | pre (raw : Bytes) (kind : Prefix)
  | rootDir
  | curDir
  | parentDir
  | normal (name : Bytes)
deriving DecidableEq

def Component.kind? : Component → Option Prefix
  | .pre _ kind => some kind
  | _ => none

def Component.isNormal : Component → Bool
  | .normal _ => true
  | _ => false

/-- What a platform fixes. A path has at most one prefix, as its first component. -/
structure Platform where
  components : Bytes → List Component
  isAbsolute : Bytes → Bool
  hasRoot : Bytes → Bool
  isSeparator : UInt8 → Bool
  mainSeparator : UInt8
  cygwin : Bool
  prefixFirst : ∀ path, ∀ c ∈ (components path).tail, c.kind? = none

namespace Platform

variable (P : Platform)

def asOsStr : Component → Bytes
  | .pre raw _ => raw
  | .rootDir => [P.mainSeparator]
  | .curDir => [46]
  | .parentDir => [46, 46]
  | .normal name => name

def pathPrefix (path : Bytes) : Option Prefix := (P.components path).head?.bind Component.kind?

def endsOpen (path : Bytes) : Bool :=
  (path.getLast?.map fun c => !P.isSeparator c).getD false

/-- Whether an absolute child replaces the path. -/
def needClear (child : Bytes) : Bool :=
  if P.cygwin then (P.pathPrefix child).isSome
  else P.isAbsolute child || (P.pathPrefix child).isSome

/-- A separator is added where the rightmost byte is none, but not after a bare drive. -/
def needSep (path : Bytes) : Bool :=
  match P.pathPrefix path with
  | some p => if 0 < p.len ∧ p.len = path.length ∧ p.isDrive then false else P.endsOpen path
  | none => P.endsOpen path

/-! ## `PathBuf::push` of the standard library -/

/-- `.` and `..` are resolved away. -/
def normalizeStep (buf : List Component) : Component → List Component
  | .rootDir => buf.take 1 ++ [.rootDir]
  | .curDir => buf
  | .parentDir => if (buf.getLast?.map Component.isNormal).getD false then buf.dropLast else buf
  | c => buf ++ [c]

def sepAfter : Component → Bool
  | .rootDir => false
  | .pre _ kind => !kind.isDrive && decide (0 < kind.len)
  | _ => true

def render : Bool → List Component → Bytes
  | _, [] => []
  | needSep, c :: cs =>
    (if needSep && c ≠ .rootDir then [P.mainSeparator] else []) ++ P.asOsStr c ++
      render (sepAfter c) cs

/-- `PathBuf::push`. -/
def push (base child : Bytes) : Bytes :=
  if P.needClear child then child
  else if ((P.pathPrefix base).map Prefix.isVerbatim).getD false && child ≠ [] then
    P.render false ((P.components child).foldl normalizeStep (P.components base))
  else if P.hasRoot child then
    base.take (((P.pathPrefix base).map Prefix.len).getD 0) ++ child
  else if P.needSep base then base ++ [P.mainSeparator] ++ child
  else base ++ child

end Platform

/-! ## Extensions -/

/-- Where the file name is in a path, by its offset and length. -/
structure FileNames where
  fileName : Bytes → Option (Nat × Nat)
  isSeparator : UInt8 → Bool
  inside : ∀ path, ∀ file ∈ fileName path, file.1 + file.2 ≤ path.length

namespace FileNames

variable (P : FileNames)

/-- `rsplit_file_at_dot`, as the length of the stem of a file name. -/
def stemLen (name : Bytes) : Nat :=
  if name = [46, 46] then name.length
  else
    match name.reverse.findIdx? (· = 46) with
    | none => name.length
    | some i => if name.length - (i + 1) = 0 then name.length else name.length - (i + 1)

/-- The offset after the file stem. -/
def stemEnd (path : Bytes) : Option Nat :=
  (P.fileName path).map fun file => file.1 + stemLen ((path.drop file.1).take file.2)

def nameEnd (path : Bytes) : Option Nat := (P.fileName path).map fun file => file.1 + file.2

/-- A dot and the extension, where there is one. -/
def dotted (ext : Bytes) : Bytes := if ext = [] then [] else 46 :: ext

/-- `PathBuf::set_extension`, which returns `false` where there is no file stem. -/
def setExtension (path ext : Bytes) : Bytes × Bool :=
  match P.stemEnd path with
  | none => (path, false)
  | some stop => (path.take stop ++ dotted ext, true)

/-- `PathBuf::add_extension`, which returns `false` where there is no file name. -/
def addExtension (path ext : Bytes) : Bytes × Bool :=
  match P.nameEnd path with
  | none => (path, false)
  | some stop => (if ext = [] then path else path.take stop ++ dotted ext, true)

end FileNames

end Rustyfill.PathBuf
