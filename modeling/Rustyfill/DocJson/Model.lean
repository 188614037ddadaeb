import Rustyfill.DocJson.Wire

/-!
# From rustdoc JSON to the extracted types

`docjson/model.rs`. How a type is rendered where its references are not routed is a parameter.
-/

namespace Rustyfill.DocJson

set_option autoImplicit false

inductive DocVisibility where
  | isPublic
  | crate
  | restricted (path : String)
  | isPrivate
deriving DecidableEq

structure DocField (Ty : Type) where
  name : String
  visibility : DocVisibility
  ty : Ty

inductive DocVariantKind (Ty : Type) where
  | unit
  | tuple (fields : List (DocField Ty))
  | struct (fields : List (DocField Ty))

structure DocVariant (Ty : Type) where
  name : String
  kind : DocVariantKind Ty
  discriminantExpr : Option String

inductive DocTypeKind (Ty : Type) where
  | struct (fields : List (DocField Ty)) (tuple : Bool)
  | enum (variants : List (DocVariant Ty))
  | union (fields : List (DocField Ty))
  | typeAlias (rhs : Ty)
  | constant (ty : String) (value : String)

structure DocGenericParam (Ty : Type) where
  name : String
  isLifetime : Bool
  isConst : Bool
  bounds : List String
  defaultType : Option Ty
  defaultValue : Option String
  constTy : Option String
  outlives : List String

structure Attributes where
  repr : List String
  derive : List (List String)
  other : List String

/-- `DocType`, as `from_item` leaves it: the builder fills in the ids and the paths. -/
structure DocType (Ty : Type) where
  id : Nat
  itemId : UInt32
  lib : String
  name : String
  modulePath : String
  kind : DocTypeKind Ty
  generics : List (DocGenericParam Ty)
  wherePredicates : List String
  attrs : Attributes

/-! ## Attributes -/

/-- The white space that `str::trim` removes. -/
def isWhiteSpace (c : Char) : Bool :=
  (9 ≤ c.toNat && c.toNat ≤ 13) || (8192 ≤ c.toNat && c.toNat ≤ 8202) ||
    [32, 133, 160, 5760, 8232, 8233, 8239, 8287, 12288].contains c.toNat

def trim (s : List Char) : List Char :=
  ((s.dropWhile isWhiteSpace).reverse.dropWhile isWhiteSpace).reverse

def stripSuffix (s suffix : List Char) : Option (List Char) :=
  if suffix.isSuffixOf s then some (s.take (s.length - suffix.length)) else none

/-- What stands between the brackets of an attribute. -/
def attributeInner (s : String) : List Char :=
  let cleaned := trim (s.toList.dropWhile (· == '#'))
  match cleaned with
  | '[' :: rest => (stripSuffix rest [']']).getD cleaned
  | _ => cleaned

def classifyOtherAttr (attrs : Attributes) (s : String) : Attributes :=
  let inner := attributeInner s
  if "repr(".toList.isPrefixOf inner then
    let part := inner.drop 5
    { attrs with repr := attrs.repr ++ [String.ofList ((stripSuffix part [')']).getD part)] }
  else if "derive(".toList.isPrefixOf inner then
    let part := inner.drop 7
    let derives := (((stripSuffix part [')']).getD part).splitOn ',').map trim
    { attrs with
      derive := attrs.derive ++ [(derives.filter fun d => !d.isEmpty).map String.ofList] }
  else if "lang".toList.isPrefixOf inner || "attr".toList.isPrefixOf inner then attrs
  else { attrs with other := attrs.other ++ ["#[" ++ String.ofList inner ++ "]"] }

def parseAttributes (attrs : List String) : Attributes :=
  attrs.foldl classifyOtherAttr ⟨[], [], []⟩

/-! ## Generics -/

section
variable {Ty : Type} (plain : Ty → String)

def renderGenericBound : GenericBound → String
  | .traitBound path => path
  | .outlives lt => lt
  | .use args =>
    let rendered := args.map fun
      | .lifetime lt => lt
      | .param p => p
    "use<" ++ ", ".intercalate rendered ++ ">"

def renderWherePredicate : WherePredicate Ty → String
  | .bound type bounds => plain type ++ ": " ++ " + ".intercalate (bounds.map renderGenericBound)
  | .lifetime lifetime outlives => lifetime ++ ": " ++ " + ".intercalate outlives
  | .eq lhs (.type t) => plain lhs ++ " = " ++ plain t
  | .eq lhs (.constant c) => plain lhs ++ " = " ++ c.expr

def genericParam (p : GenericParamDef Ty) : DocGenericParam Ty :=
  match p.kind with
  | .lifetime outlives => ⟨p.name, true, false, [], none, none, none, outlives⟩
  | .type bounds default =>
    ⟨p.name, false, false, bounds.map renderGenericBound, default, none, none, []⟩
  | .const type default => ⟨p.name, false, true, [], none, default, some (plain type), []⟩

/-- None of the parts can fail. -/
def parseGenerics (g : Generics Ty) : List (DocGenericParam Ty) × List String :=
  (g.params.map (genericParam plain), g.wherePredicates.map (renderWherePredicate plain))

end

/-! ## Items -/

section
variable {Ty : Type} (index : Index Ty)

def orError {α : Type} (msg : String) : Option α → Except String α
  | some a => .ok a
  | none => .error msg

def docVisibility : Visibility → DocVisibility
  | .isPublic => .isPublic
  | .crate => .crate
  | .restricted path => .restricted path
  | .default => .isPrivate

def DocField.fromItem (item : Item Ty) : Except String (DocField Ty) := do
  let name ← orError s!"field {item.id.debug} has no name" item.name
  match item.inner with
  | .structField ty => return ⟨name, docVisibility item.visibility, ty⟩
  | _ => .error "inner is not struct_field"

def fieldOf (absent : Id → String) (fid : Id) : Except String (DocField Ty) := do
  let item ← orError (absent fid) (index fid)
  DocField.fromItem item

/-- The entries of a tuple from position `i` on. -/
def tupleFields (stripped : Nat → String) (absent : Id → String) :
    Nat → List (Option Id) → Except String (List (DocField Ty))
  | _, [] => return []
  | i, none :: _ => .error (stripped i)
  | i, some fid :: entries => do
    let field ← fieldOf index absent fid
    let fields ← tupleFields stripped absent (i + 1) entries
    return field :: fields

def parseStructKind (typeName : String) : StructKind → Except String (List (DocField Ty) × Bool)
  | .unit => return ([], false)
  | .plain fields _ => do
    let fields ← fields.mapM
      (fieldOf index fun fid => s!"field id {fid.debug} not in index (struct {typeName})")
    return (fields, false)
  | .tuple entries => do
    let fields ← tupleFields index
      (fun i => s!"stripped tuple field at position {i} in {typeName}")
      (fun fid => s!"tuple field id {fid.debug} not in index (struct {typeName})") 0 entries
    return (fields, true)

def parseVariantKind (variantName : String) : VariantKind → Except String (DocVariantKind Ty)
  | .plain => return .unit
  | .tuple entries => do
    let fields ← tupleFields index
      (fun i => s!"stripped tuple field at position {i} in variant {variantName}")
      (fun fid => s!"variant field id {fid.debug} not in index") 0 entries
    return .tuple fields
  | .struct fields _ => do
    let fields ← fields.mapM
      (fieldOf index fun fid => s!"variant field id {fid.debug} not in index")
    return .struct fields

def DocVariant.fromItem (item : Item Ty) : Except String (DocVariant Ty) := do
  let name ← orError s!"variant {item.id.debug} has no name" item.name
  match item.inner with
  | .variant v => do
    let kind ← parseVariantKind index name v.kind
    return ⟨name, kind, v.discriminant⟩
  | _ => .error "inner is not variant"

def variantOf (vid : Id) : Except String (DocVariant Ty) := do
  let item ← orError s!"variant id {vid.debug} not in index" (index vid)
  DocVariant.fromItem index item

variable (plain : Ty → String)

def parseKind (name : String) : ItemEnum Ty → Except String (DocTypeKind Ty × Generics Ty)
  | .struct s => do
    let (fields, tuple) ← parseStructKind index name s.kind
    return (.struct fields tuple, s.generics)
  | .enum e => do
    let variants ← e.variants.mapM (variantOf index)
    return (.enum variants, e.generics)
  | .union u => do
    let fields ← u.fields.mapM (fieldOf index fun fid => s!"field id {fid.debug} not in index")
    return (.union fields, u.generics)
  | .typeAlias a => return (.typeAlias a.type, a.generics)
  | .constant type const =>
    return (.constant (plain type) (const.value.getD const.expr), ⟨[], []⟩)
  | inner => .error s!"unsupported item kind '{inner.itemKind.debug}' for type {name}"

/-- `DocType::from_item`. -/
def DocType.fromItem (item : Item Ty) : Except String (DocType Ty) := do
  let name ← orError s!"item {item.id.debug} has no name" item.name
  let (kind, generics) ← parseKind index plain name item.inner
  let (params, wherePredicates) := parseGenerics plain generics
  return {
    id := 0
    itemId := 0
    lib := ""
    name := name
    modulePath := ""
    kind := kind
    generics := params
    wherePredicates := wherePredicates
    attrs := parseAttributes item.attrs }

end

end Rustyfill.DocJson
