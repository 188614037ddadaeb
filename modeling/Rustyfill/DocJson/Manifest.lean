import Mathlib.Data.Char
import Mathlib.Data.List.Lex
import Rustyfill.DocJson.Emit
import Rustyfill.DocJson.ModulePath
import Rustyfill.Lib.Grouping

/-!
# Which files are written

`emit_all` of `docjson/emit.rs`, with the files and the manifest. A file is its path below the
output directory and what it holds: its types, its stubs, or the lines of the manifest, before they
are formatted. `fails` says of a path with which error, if any, writing to it ends. Directories are
made as they are needed.
-/

namespace Rustyfill.DocJson.Emit

open TypeRepr

set_option autoImplicit false

/-- A line of the manifest, with its indentation. -/
inductive Line where
  | module (indent : Nat) (name : Str)
  | allow (indent : Nat)
  | include (indent : Nat) (path : Str)
  | close (indent : Nat)
deriving DecidableEq

inductive Contents where
  | binding (types : List EmitType)
  | stubs (kts : List KnownExternalType)
  | manifest (lines : List Line)

structure Write where
  path : Str
  contents : Contents

structure Emission where
  writes : List Write
  errors : List Str

/-! ## Binding files -/

/-- The names of the direct children, as they are found. -/
def getChildren (relPath : Str) (allFiles : List Str) : List Str :=
  match ModulePath.fromSlash relPath with
  | none => []
  | some mine =>
    ((allFiles.filterMap ModulePath.fromSlash).filter mine.isDirectParentOf).map ModulePath.leaf

def bindingPath (relPath : Str) (allFiles : List Str) : Str :=
  if (getChildren relPath allFiles).isEmpty then relPath ++ ".rs".toList
  else relPath ++ "/mod.rs".toList

def bindingWrite (spec : LoaderSpec) (exports : ExportTable) (allFiles : List Str)
    (file : Str × List EmitType) : Option Write :=
  if (renderBindingFile file.2 spec exports).isEmpty then none
  else some ⟨bindingPath file.1 allFiles, .binding file.2⟩

/-! ## Known types -/

/-- All stubs go to the module of the first. -/
def emitKnownTypeStubs (kts : List KnownExternalType) : Option Write :=
  kts.head?.bind fun first =>
    let segments := Text.split "::".toList first.path
    if segments.length < 2 then none
    else some ⟨['/'].intercalate segments.dropLast ++ ".rs".toList, .stubs kts⟩

/-! ## The manifest -/

def segmentsOf (relPath : Str) : List Str := (Text.split ['/'] relPath).filter fun s => !s.isEmpty

def modulesWithChildren (allFiles : List Str) : List Str :=
  allFiles.flatMap fun fp =>
    (List.range ((segmentsOf fp).length - 1)).map fun i =>
      ['/'].intercalate ((segmentsOf fp).take (i + 1))

/-- The nodes of one level, sorted by name. -/
inductive ManifestTree where
  | nil
  | cons (name : Str) (children : ManifestTree) (rest : ManifestTree)

def ManifestTree.ofSegments : List Str → ManifestTree
  | [] => nil
  | seg :: segs => cons seg (ofSegments segs) nil

def ManifestTree.insert : ManifestTree → List Str → ManifestTree
  | tree, [] => tree
  | nil, seg :: segs => ofSegments (seg :: segs)
  | cons name children rest, seg :: segs =>
    if seg = name then cons name (children.insert segs) rest
    else if seg < name then cons seg (ofSegments segs) (cons name children rest)
    else cons name children (rest.insert (seg :: segs))

def insertIntoTree (tree : ManifestTree) (relPath : Str) : ManifestTree :=
  tree.insert (segmentsOf relPath)

/-- The last segment. -/
def moduleName (fullPath : Str) : Str :=
  match Text.rsplitOnce ['/'] fullPath with
  | some (_, back) => back
  | none => fullPath

def childPath (parent : Option Str) (name : Str) : Str :=
  parent.elim name fun p => p ++ ['/'] ++ name

def includeLines (withChildren allFiles : List Str) (indent : Nat) (fullPath : Str) : List Line :=
  if allFiles.contains fullPath then
    [.include (indent + 1)
      (if withChildren.contains fullPath then fullPath ++ "/mod.rs".toList
        else fullPath ++ ".rs".toList)]
  else []

def emitManifestNodes (withChildren allFiles : List Str) :
    Option Str → Nat → ManifestTree → List Line
  | _, _, .nil => []
  | parent, indent, .cons name children rest =>
    .module indent (moduleName (childPath parent name)) :: .allow indent ::
      includeLines withChildren allFiles indent (childPath parent name) ++
      emitManifestNodes withChildren allFiles (some (childPath parent name)) (indent + 1)
        children ++
      .close indent :: emitManifestNodes withChildren allFiles parent indent rest

def manifestLines (allFiles : List Str) : List Line :=
  .module 0 wrapperMod ::
    emitManifestNodes (modulesWithChildren allFiles) allFiles none 1
      (allFiles.foldl insertIntoTree .nil) ++
    [.close 0]

def emitManifest (allFiles : List Str) : Write :=
  ⟨"bindings_generated.rs".toList, .manifest (manifestLines allFiles)⟩

/-! ## The whole emission -/

section
variable (toLowercase : Str → Str) (fails : Str → Option Str) (outDir : Str)

def filesByPath (table : TypeTable) : List (Str × List EmitType) :=
  Grouping.group (typeRelPath toLowercase) table

def allFiles (table : TypeTable) : List Str := (filesByPath toLowercase table).map Prod.fst

def bindingWrites (table : TypeTable) (spec : LoaderSpec) (exports : ExportTable) : List Write :=
  (filesByPath toLowercase table).filterMap
    (bindingWrite spec exports (allFiles toLowercase table))

/-- A target without known types, or with a first one at its root, has no stubs. -/
def stubWrites (spec : LoaderSpec) : List Write :=
  spec.targets.filterMap fun target => emitKnownTypeStubs target.knownExternalTypes

def writeError (w : Write) : Option Str :=
  (fails w.path).map fun e =>
    "failed to write ".toList ++ outDir ++ ['/'] ++ w.path ++ ": ".toList ++ e

/-- A stub or a manifest that cannot be written is a panic. -/
def emitAll (table : TypeTable) (spec : LoaderSpec) (exports : ExportTable) : Option Emission :=
  let bindings := bindingWrites toLowercase table spec exports
  let others := stubWrites spec ++ [emitManifest (allFiles toLowercase table)]
  if others.any fun w => (fails w.path).isSome then none
  else some {
    writes := (bindings.filter fun w => (fails w.path).isNone) ++ others
    errors := bindings.filterMap (writeError fails outDir) }

end

end Rustyfill.DocJson.Emit
