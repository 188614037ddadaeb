import Rustyfill.DocJson.Model
import Rustyfill.DocJson.TypeRepr
import Rustyfill.Lib.Text

/-!
# Writing the binding files

`docjson/emit.rs`, up to the text of one binding file. A `str` is the list of its characters.
-/

namespace Rustyfill.DocJson.Emit

open TypeRepr

set_option autoImplicit false

/-! ## What is emitted, and how -/

structure PathReplacement where
  path : Str
  replacement : Option Str
deriving DecidableEq

structure KnownExternalType where
  path : Str
  definition : Str
deriving DecidableEq

structure BindingTarget where
  libName : String
  pathReplacements : List PathReplacement
  ignoredStructs : List Str
  extraDerives : Str → Option (List Str)
  knownExternalTypes : List KnownExternalType

structure LoaderSpec where
  targets : List BindingTarget

structure ExportEntry where
  lib : String
  itemId : UInt32
  route : Str
deriving DecidableEq

/-- The rows, in the order in which they were inserted. -/
abbrev ExportTable := List ExportEntry

/-- The index holds the last row of a key. -/
def ExportTable.resolve (exports : ExportTable) (lib : String) (itemId : UInt32) : Option Str :=
  (exports.reverse.find? fun e => e.lib == lib && e.itemId == itemId).map ExportEntry.route

abbrev EmitType := DocType WireType

abbrev TypeTable := List EmitType

def wrapperMod : Str := "std".toList

/-- The path of a type below the root of its library. -/
def relPath (ty : EmitType) : Str :=
  if ty.modulePath.isEmpty then ty.name.toList
  else ty.modulePath.toList ++ "::".toList ++ ty.name.toList

def mirrorPath (ty : EmitType) : Str := "crate::std::".toList ++ relPath ty

structure RenderCtx where
  replacements : List (Str × Option Str)
  localNames : List Str
  exports : ExportTable
  lib : String
  currentModule : Str

/-! ## References -/

def stripPrefix (front s : Str) : Option Str :=
  if front.isPrefixOf s then some (s.drop front.length) else none

/-- What stands behind the last `::`. -/
def leaf (path : Str) : Str :=
  match Text.rsplitOnce "::".toList path with
  | some (_, back) => back
  | none => path

/-- The path without a front that names the crate it is written in. -/
def stripCrate (path : Str) : Str :=
  ((stripPrefix "$crate::".toList path).or (stripPrefix "crate::".toList path)).getD path

def buildCandidates (path : Str) : List Str :=
  let stripped := stripCrate path
  if stripped ≠ path then
    [path, "core::".toList ++ stripped, "alloc::".toList ++ stripped, "std::".toList ++ stripped,
      stripped]
  else
    let first := (Text.split "::".toList stripped).head?.getD []
    if ["core".toList, "alloc".toList, "std".toList].contains first then
      [path, first ++ "::".toList ++ stripped]
    else [path]

def trySpecReplacement (path : Str) (ctx : RenderCtx) : Option Str :=
  let path := (stripSuffix path "<>".toList).getD path
  (buildCandidates path).findSome? fun cand =>
    ctx.replacements.findSome? fun r =>
      if cand = r.1 ∨ (r.1 ++ "::".toList).isPrefixOf cand then some (r.2.getD []) else none

def sameModuleAsCurrent (route : Str) (ctx : RenderCtx) : Bool :=
  let stripped := (stripPrefix "crate::".toList route).getD route
  let stripped := (stripPrefix wrapperMod stripped).getD stripped
  let stripped := (stripPrefix "::".toList stripped).getD stripped
  let routeModule :=
    match Text.rsplitOnce "::".toList stripped with
    | some (front, _) => front
    | none => []
  routeModule == ctx.currentModule

/-- Where a path without a route leads if it is not kept bare. -/
def fallbackTarget (path : Str) : Str :=
  let stripped := stripCrate path
  match stripPrefix "core::".toList stripped with
  | some rest => "::__rustyfill_builtin_core::".toList ++ rest
  | none =>
    match stripPrefix "alloc::".toList stripped with
    | some rest => "::__rustyfill_builtin_alloc::".toList ++ rest
    | none =>
      match stripPrefix "std::".toList stripped with
      | some rest => "::__rustyfill_builtin_std::".toList ++ rest
      | none =>
        if "crate::".toList.isPrefixOf path || "$crate::".toList.isPrefixOf path then
          "crate::".toList ++ wrapperMod ++ "::".toList ++ stripped
        else if (Text.rsplitOnce "::".toList stripped).isSome then
          "crate::".toList ++ wrapperMod ++ "::".toList ++ stripped
        else stripped

def routeFallback (path : Str) (ctx : RenderCtx) : Str :=
  let leaf := leaf (stripCrate path)
  if ctx.localNames.contains leaf then leaf else fallbackTarget path

/-- `TypeResolver::resolve`. -/
def resolve (ctx : RenderCtx) (path : Str) (id : UInt32) : Str :=
  match ctx.exports.resolve ctx.lib id with
  | some route =>
    if "crate::".toList.isPrefixOf route then
      if ctx.localNames.contains (leaf route) && sameModuleAsCurrent route ctx then leaf route
      else route
    else route
  | none => routeFallback path ctx

def unitBase : Str := "()".toList

def renderType (ty : WireType) (ctx : RenderCtx) : Str :=
  match ty with
  | .resolvedPath (.mk path _ args) =>
    match trySpecReplacement path ctx with
    | some replacedBase =>
      if replacedBase = [] then []
      else if replacedBase = unitBase then unitBase
      else replacedBase ++ (args.map fun a => renderArgs a (resolve ctx)).getD []
    | none => render ty (resolve ctx)
  | _ => render ty (resolve ctx)

/-! ## Definitions -/

def safeDerives : List String := ["PartialEq", "Eq", "Debug", "Clone"]

def internalTraitStrips : List Str :=
  ["PointeeSized", "StructuralPartialEq", "MetaSized", "Unsize"].map String.toList

/-- Every field is made public. -/
def fieldVis (_ : DocVisibility) : Str := "pub ".toList

def renderField (f : DocField WireType) (ctx : RenderCtx) : Str :=
  f.name.toList ++ ": ".toList ++ renderType f.ty ctx

def renderGenericParam (p : DocGenericParam WireType) (ignoredTraits : List Str)
    (ctx : RenderCtx) : Str :=
  if p.isLifetime then
    let outlives :=
      if p.outlives.isEmpty then []
      else ": ".toList ++ TypeRepr.join " + " (p.outlives.map String.toList)
    ['\''] ++ p.name.toList.dropWhile (· == '\'') ++ outlives
  else if p.isConst then
    "const ".toList ++ p.name.toList ++ ": ".toList ++ (p.constTy.getD "usize").toList
  else
    let filtered := (p.bounds.map String.toList).filter fun b =>
      !internalTraitStrips.contains b && !ignoredTraits.contains b
    p.name.toList ++
      (if filtered.isEmpty then [] else ": ".toList ++ TypeRepr.join " + " filtered) ++
      match p.defaultType, p.defaultValue with
      | some defaultTy, _ => " = ".toList ++ renderType defaultTy ctx
      | none, some defaultVal => " = ".toList ++ defaultVal.toList
      | none, none => []

def renderGenerics (params : List (DocGenericParam WireType)) (ignoredTraits : List Str)
    (ctx : RenderCtx) : Str :=
  if params.isEmpty then []
  else
    ['<'] ++ TypeRepr.join ", " (params.map fun p => renderGenericParam p ignoredTraits ctx) ++
      ['>']

def stripTypeSuffix (value expectedTy : Str) : Str :=
  if expectedTy ≠ [] then (stripSuffix value expectedTy).getD value else value

def renderVariant (v : DocVariant WireType) (ctx : RenderCtx) : Str :=
  let disc := v.discriminantExpr.elim [] fun d => " = ".toList ++ d.toList
  match v.kind with
  | .unit => "    ".toList ++ v.name.toList ++ disc ++ ",\n".toList
  | .tuple fields =>
    "    ".toList ++ v.name.toList ++ disc ++ ['('] ++
      TypeRepr.join ", " (fields.map fun f => renderType f.ty ctx) ++ ",),\n".toList
  | .struct fields =>
    "    ".toList ++ v.name.toList ++ disc ++ " \x7b\n".toList ++
      (fields.map fun f => "        ".toList ++ renderField f ctx ++ ",\n".toList).flatten ++
      "    \x7d,\n".toList

/-- The fields between the braces of a struct or a union. -/
def renderFields (fields : List (DocField WireType)) (ctx : RenderCtx) : Str :=
  (fields.map fun f =>
    "    ".toList ++ fieldVis f.visibility ++ renderField f ctx ++ ",\n".toList).flatten

/-- Whether an attribute that is neither a `repr` nor a `derive` is kept. -/
def keepsAttr (attr : Str) : Bool :=
  !"#[lang".toList.isPrefixOf attr && !"#[stable".toList.isPrefixOf attr &&
    !"#[unstable".toList.isPrefixOf attr && !decide ("rustc_".toList <:+: attr) &&
    !decide ("fundamental".toList <:+: attr) && !decide ("doc(search_unbox)".toList <:+: attr)

def renderDerives (derives : List (List String)) (extraDerives : List Str) : Str :=
  let kept := ((derives.flatten.filter safeDerives.contains).map String.toList)
  let all := extraDerives.foldl (fun all d => if all.contains d then all else all ++ [d]) kept
  if all.isEmpty then [] else "#[derive(".toList ++ TypeRepr.join ", " all ++ ")]\n".toList

def renderAttributes (attrs : Attributes) (extraDerives : List Str) : Str :=
  (attrs.repr.map fun r => "#[repr(".toList ++ r.toList ++ ")]\n".toList).flatten ++
    renderDerives attrs.derive extraDerives ++
    (((attrs.other.map String.toList).filter keepsAttr).map fun a => a ++ ['\n']).flatten

/-- The part of `render_doc_type` behind the attributes. -/
def renderDefinition (ty : EmitType) (ctx : RenderCtx) (ignoredTraits : List Str) : Str :=
  let generics := renderGenerics ty.generics ignoredTraits ctx
  let whereClause :=
    if ty.wherePredicates.isEmpty then []
    else " where ".toList ++ TypeRepr.join ", " (ty.wherePredicates.map String.toList)
  let name := ty.name.toList
  match ty.kind with
  | .struct fields true =>
    "pub struct ".toList ++ name ++ generics ++ ['('] ++
      TypeRepr.join ", " (fields.map fun f => fieldVis f.visibility ++ renderType f.ty ctx) ++
      ");\n\n".toList
  | .struct fields false =>
    "pub struct ".toList ++ name ++ generics ++ whereClause ++ "\n\x7b\n".toList ++
      renderFields fields ctx ++ "\x7d\n\n".toList
  | .enum variants =>
    "pub enum ".toList ++ name ++ generics ++ whereClause ++ "\n\x7b\n".toList ++
      (variants.map fun v => renderVariant v ctx).flatten ++ "\x7d\n\n".toList
  | .union fields =>
    "pub union ".toList ++ name ++ generics ++ whereClause ++ "\n\x7b\n".toList ++
      renderFields fields ctx ++ "\x7d\n\n".toList
  | .typeAlias rhs =>
    "pub type ".toList ++ name ++ generics ++ " = ".toList ++ renderType rhs ctx ++
      ";\n\n".toList
  | .constant constTy value =>
    "pub const ".toList ++ name ++ ": ".toList ++ constTy.toList ++ " = ".toList ++
      stripTypeSuffix value.toList constTy.toList ++ ";\n\n".toList

def renderDocType (ty : EmitType) (ctx : RenderCtx) (extraDerives ignoredTraits : List Str) :
    Str :=
  renderAttributes ty.attrs extraDerives ++ renderDefinition ty ctx ignoredTraits

/-! ## Binding files -/

section
variable (toLowercase : Str → Str)

def replace (sep new s : Str) : Str := new.intercalate (Text.split sep s)

/-- The file of a type, without its ending. -/
def typeRelPath (ty : EmitType) : Str :=
  if ty.modulePath.isEmpty then toLowercase ty.name.toList
  else replace "::".toList ['/'] ty.modulePath.toList

def fileTypes (table : TypeTable) (file : Str) : List EmitType :=
  table.filter fun ty => typeRelPath toLowercase ty == file

end

def buildReplacementLookup (spec : LoaderSpec) : List (Str × Option Str) :=
  (spec.targets.flatMap BindingTarget.pathReplacements).map fun pr => (pr.path, pr.replacement)

def ignoredTraits (spec : LoaderSpec) : List Str :=
  ((spec.targets.flatMap BindingTarget.pathReplacements).filter
    fun pr => pr.replacement.isNone).map fun pr => leaf pr.path

def extraDerives (spec : LoaderSpec) (ty : EmitType) : List Str :=
  ((spec.targets.find? fun tgt => tgt.libName == ty.lib).bind
    fun tgt => tgt.extraDerives (relPath ty)).getD []

def isIgnored (spec : LoaderSpec) (ty : EmitType) : Bool :=
  spec.targets.any fun t => t.libName == ty.lib && t.ignoredStructs.contains (relPath ty)

/-- The context that the types of one file share. -/
def renderCtx (types : List EmitType) (spec : LoaderSpec) (exports : ExportTable) : RenderCtx where
  replacements := buildReplacementLookup spec
  localNames := types.map fun t => t.name.toList
  exports := exports
  lib := (types.head?.map fun t => t.lib).getD ""
  currentModule := (types.head?.map fun t => t.modulePath.toList).getD []

def header : Str := "// Auto-generated by rustyfill-sys.\n\n".toList

def renderBindingFile (types : List EmitType) (spec : LoaderSpec) (exports : ExportTable) : Str :=
  header ++
    (types.map fun ty =>
      if isIgnored spec ty then []
      else renderDocType ty (renderCtx types spec exports) (extraDerives spec ty)
        (ignoredTraits spec)).flatten

end Rustyfill.DocJson.Emit
