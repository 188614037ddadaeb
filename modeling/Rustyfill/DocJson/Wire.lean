import Rustyfill.Runtime

/-!
# The rustdoc JSON a crate is read from

`docjson/wire/original.rs`, as far as the conversion and the lookup of types look at it. Types
are only handed on and rendered, so they are a parameter; items of kinds that neither of the two
looks into have no payload.
-/

namespace Rustyfill.DocJson

set_option autoImplicit false

structure Id where
  raw : UInt32
deriving DecidableEq

def Id.debug (id : Id) : String := s!"Id({id.raw})"

inductive ItemKind where
  | module | externCrate | use | struct | structField | union | enum | variant | function
  | typeAlias | constant | trait | traitAlias | impl | static | externType | macroDef
  | procAttribute | procDerive | assocConst | assocType | primitive | keyword | attributeItem
deriving DecidableEq

def ItemKind.debug : ItemKind → String
  | module => "Module"
  | externCrate => "ExternCrate"
  | use => "Use"
  | struct => "Struct"
  | structField => "StructField"
  | union => "Union"
  | enum => "Enum"
  | variant => "Variant"
  | function => "Function"
  | typeAlias => "TypeAlias"
  | constant => "Constant"
  | trait => "Trait"
  | traitAlias => "TraitAlias"
  | impl => "Impl"
  | static => "Static"
  | externType => "ExternType"
  | macroDef => "Macro"
  | procAttribute => "ProcAttribute"
  | procDerive => "ProcDerive"
  | assocConst => "AssocConst"
  | assocType => "AssocType"
  | primitive => "Primitive"
  | keyword => "Keyword"
  | attributeItem => "Attribute"

inductive Visibility where
  | isPublic
  | default
  | crate
  | restricted (path : String)
deriving DecidableEq

/-! ## Generics -/

inductive PreciseCapturingArg where
  | lifetime (lt : String)
  | param (p : String)

inductive GenericBound where
  | traitBound (path : String)
  | outlives (lt : String)
  | use (args : List PreciseCapturingArg)

structure Constant where
  expr : String
  value : Option String

inductive Term (Ty : Type) where
  | type (t : Ty)
  | constant (c : Constant)

inductive WherePredicate (Ty : Type) where
  | bound (type : Ty) (bounds : List GenericBound)
  | lifetime (lifetime : String) (outlives : List String)
  | eq (lhs : Ty) (rhs : Term Ty)

inductive GenericParamDefKind (Ty : Type) where
  | lifetime (outlives : List String)
  | type (bounds : List GenericBound) (default : Option Ty)
  | const (type : Ty) (default : Option String)

structure GenericParamDef (Ty : Type) where
  name : String
  kind : GenericParamDefKind Ty

structure Generics (Ty : Type) where
  params : List (GenericParamDef Ty)
  wherePredicates : List (WherePredicate Ty)

/-! ## Items -/

inductive StructKind where
  | unit
  | tuple (entries : List (Option Id))
  | plain (fields : List Id) (hasStrippedFields : Bool)

inductive VariantKind where
  | plain
  | tuple (entries : List (Option Id))
  | struct (fields : List Id) (hasStrippedFields : Bool)

structure Variant where
  kind : VariantKind
  discriminant : Option String

structure Struct (Ty : Type) where
  kind : StructKind
  generics : Generics Ty

structure Enum (Ty : Type) where
  generics : Generics Ty
  hasStrippedVariants : Bool
  variants : List Id

structure Union (Ty : Type) where
  generics : Generics Ty
  hasStrippedFields : Bool
  fields : List Id

structure TypeAlias (Ty : Type) where
  type : Ty
  generics : Generics Ty

structure Use where
  name : String
  id : Option Id
  isGlob : Bool

inductive MacroKind where
  | bang
  | attr
  | derive

inductive ItemEnum (Ty : Type) where
  | module (items : List Id)
  | externCrate
  | use (u : Use)
  | union (u : Union Ty)
  | struct (s : Struct Ty)
  | structField (type : Ty)
  | enum (e : Enum Ty)
  | variant (v : Variant)
  | function
  | trait
  | traitAlias
  | impl
  | typeAlias (a : TypeAlias Ty)
  | constant (type : Ty) (const : Constant)
  | static
  | externType
  | macroDef
  | procMacro (kind : MacroKind)
  | primitive
  | assocConst
  | assocType

def ItemEnum.itemKind {Ty : Type} : ItemEnum Ty → ItemKind
  | module _ => .module
  | externCrate => .externCrate
  | use _ => .use
  | union _ => .union
  | struct _ => .struct
  | structField _ => .structField
  | enum _ => .enum
  | variant _ => .variant
  | function => .function
  | trait => .trait
  | traitAlias => .traitAlias
  | impl => .impl
  | typeAlias _ => .typeAlias
  | constant _ _ => .constant
  | static => .static
  | externType => .externType
  | macroDef => .macroDef
  | procMacro .bang => .macroDef
  | procMacro .attr => .procAttribute
  | procMacro .derive => .procDerive
  | primitive => .primitive
  | assocConst => .assocConst
  | assocType => .assocType

structure Item (Ty : Type) where
  id : Id
  name : Option String
  visibility : Visibility
  attrs : List String
  inner : ItemEnum Ty

abbrev Index (Ty : Type) := Id → Option (Item Ty)

end Rustyfill.DocJson
