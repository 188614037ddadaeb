import Rustyfill.DocJson.Emit
import Rustyfill.DocJson.Lookup

/-!
# Extracting the declared types

`extract_types` of `docjson/mod.rs`: the table of types and the table of exports, from what
rustdoc says of each library and from the declarations of the spec. A hash map is the list of its
entries, in the order in which it happens to be walked.
-/

namespace Rustyfill.DocJson.Extract

open TypeRepr Emit

set_option autoImplicit false

/-! ## What is read -/

/-- What the extraction reads of a library: its crate, the crate each path belongs to, and the
names of the foreign crates. -/
structure Blob where
  crate : Crate WireType
  crateId : Id → Nat
  externalCrates : Nat → Option String

/-- What the extraction reads of a target of the spec. -/
structure Declarations where
  libName : String
  declaredStructs : List Str
  cfgGatedDecls : List Str

def colons : Str := "::".toList

/-! ## The table of exports -/

def publicPathCorrections : List (String × String) :=
  [("core::ptr::non_null::NonNull", "core::ptr::NonNull"),
    ("core::ptr::unique::Unique", "core::ptr::Unique"),
    ("core::ptr::mut_ptr::MutPtr", "core::ptr::MutPtr"),
    ("core::ptr::const_ptr::ConstPtr", "core::ptr::ConstPtr"),
    ("core::mem::maybe_uninit::MaybeUninit", "core::mem::MaybeUninit"),
    ("core::mem::manually_drop::ManuallyDrop", "core::mem::ManuallyDrop"),
    ("core::alloc::layout::Layout", "core::alloc::Layout"),
    ("core::cell::cell::Cell", "core::cell::Cell"),
    ("core::cell::once_cell::OnceCell", "core::cell::OnceCell"),
    ("core::cell::lazy::LazyCell", "core::cell::LazyCell"),
    ("core::cell::unsafe_cell::UnsafeCell", "core::cell::UnsafeCell")]

/-- The segments of a path, or of the public path in its place. -/
def correctedSegments (path : List String) : List Str :=
  match publicPathCorrections.find? fun c => c.1 == join path with
  | some c => Text.split colons c.2.toList
  | none => path.map String.toList

def isBuiltin (lib : String) : Bool := lib == "core" || lib == "alloc" || lib == "std"

def builtinRoute (libName : String) (segments : List Str) : Str :=
  if isBuiltin libName then
    "::__rustyfill_builtin_".toList ++ libName.toList ++ colons ++
      colons.intercalate (segments.drop 1)
  else colons.intercalate segments

def pathRoute (blob : Blob) (libName : String) (id : Id) (path : List String) : Str :=
  let segments := correctedSegments path
  if blob.crateId id = 0 then builtinRoute libName segments
  else
    let foreignName := (blob.externalCrates (blob.crateId id)).getD ""
    if isBuiltin foreignName then
      "::__rustyfill_builtin_".toList ++ foreignName.toList ++ colons ++
        colons.intercalate (segments.drop 1)
    else colons.intercalate segments

/-- A path without segments has no row. -/
def addPath (blob : Blob) (libName : String) (exports : ExportTable) (entry : Id × ItemSummary) :
    ExportTable :=
  if entry.2.path.isEmpty then exports
  else exports ++ [⟨libName, entry.1.raw, pathRoute blob libName entry.1 entry.2.path⟩]

def buildExportTable (blob : Blob) (libName : String) (exports : ExportTable) : ExportTable :=
  blob.crate.paths.foldl (addPath blob libName) exports

def exportTables (data : List (String × Blob)) : ExportTable :=
  data.foldl (fun exports entry => buildExportTable entry.2 entry.1 exports) []

/-! ## The table of types -/

section
variable (debug : List String → String) (plain : WireType → String)

def locateAndConvert (blob : Blob) (decl : Str) (libName : String) : Except String EmitType := do
  let target := libName :: (Text.split colons decl).map String.ofList
  let id ← resolveTypeId blob.crate debug target
  let item ← orError s!"item id {id.raw} not in index" (blob.crate.index id)
  let docType ← DocType.fromItem blob.crate.index plain item
  return { docType with lib := libName, itemId := id.raw }

structure Tables where
  types : TypeTable
  exports : ExportTable
  errors : List String

/-- The module path of a declaration: all but the name of the type. -/
def modulePath (decl : Str) : String :=
  let segments := Text.split colons decl
  if 1 < segments.length then String.ofList (colons.intercalate segments.dropLast) else ""

def placed (docType : EmitType) (decl : Str) (id : Nat) : EmitType :=
  { docType with modulePath := modulePath decl, id := id }

def mirrorRow (ty : EmitType) : ExportEntry := ⟨ty.lib, ty.itemId, mirrorPath ty⟩

def finalizeEntry (docType : EmitType) (decl : Str) (st : Tables) : Tables :=
  let ty := placed docType decl st.types.length
  { st with types := st.types ++ [ty], exports := st.exports ++ [mirrorRow ty] }

def notFound (libName : String) (decl : Str) (e : String) : String :=
  s!"[{libName}] declared type '{String.ofList decl}' not found in this toolchain's std " ++
    s!"({e}) — the standard library may have renamed or moved it"

def extractDeclared (blob : Blob) (libName : String) (st : Tables) (decl : Str) : Tables :=
  match locateAndConvert debug plain blob decl libName with
  | .ok docType => finalizeEntry docType decl st
  | .error e => { st with errors := st.errors ++ [notFound libName decl e] }

def extractGated (blob : Blob) (libName : String) (st : Tables) (decl : Str) : Tables :=
  match locateAndConvert debug plain blob decl libName with
  | .ok docType => finalizeEntry docType decl st
  | .error _ => st

def extractTarget (data : List (String × Blob)) (st : Tables) (target : Declarations) : Tables :=
  match data.lookup target.libName with
  | none =>
    { st with errors := st.errors ++
        [s!"No doc-JSON data available for library '{target.libName}'"] }
  | some blob =>
    target.cfgGatedDecls.foldl (extractGated debug plain blob target.libName)
      (target.declaredStructs.foldl (extractDeclared debug plain blob target.libName) st)

def extractTypes (data : List (String × Blob)) (targets : List Declarations) :
    Except (List String) (TypeTable × ExportTable) :=
  let st := targets.foldl (extractTarget debug plain data) ⟨[], exportTables data, []⟩
  if st.errors.isEmpty then .ok (st.types, st.exports) else .error st.errors

end

end Rustyfill.DocJson.Extract
