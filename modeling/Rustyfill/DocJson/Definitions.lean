import Rustyfill.DocJson.Emit
import Rustyfill.Lib.ItemForms

/-!
# What a definition means

The definition that an extracted type stands for, and the extracted types whose text is read as
that definition.
-/

namespace Rustyfill.DocJson.Emit

open TypeRepr Reading TypeSyntax ItemSyntax

set_option autoImplicit false

/-! ## Meaning -/

/-- What the types in a definition mean: the references, and what is kept as a text. -/
structure Meaning (T : Type) where
  ty : WireType → T
  text : Str → T

/-- A number or a truth value. -/
def isLiteral (s : Str) : Bool :=
  s == "true".toList || s == "false".toList ||
    (((stripPrefix ['-'] s).getD s).head?.any Char.isDigit &&
      ((stripPrefix ['-'] s).getD s).all fun c => isWordChar c || c == '.')

/-- The value of a constant, without the type that is named behind a literal. -/
def valueOf (value constTy : Str) : Str :=
  match stripSuffix value constTy with
  | some front => if isLiteral front then front else value
  | none => value

def keptBounds (p : DocGenericParam WireType) (ignoredTraits : List Str) : List Str :=
  (p.bounds.map String.toList).filter fun b =>
    !internalTraitStrips.contains b && !ignoredTraits.contains b

def lifetimeName (p : DocGenericParam WireType) : Str := p.name.toList.dropWhile (· == '\'')

def constTyText (p : DocGenericParam WireType) : Str := (p.constTy.getD "usize").toList

section
variable {T : Type} (m : Meaning T)

def Meaning.param (ignoredTraits : List Str) (p : DocGenericParam WireType) : Param T :=
  if p.isLifetime then .lifetime (lifetimeName p) (p.outlives.map String.toList)
  else if p.isConst then
    .const p.name.toList (m.text (constTyText p)) (p.defaultValue.map String.toList)
  else
    .type p.name.toList (keptBounds p ignoredTraits)
      ((p.defaultType.map m.ty).or (p.defaultValue.map fun v => m.text v.toList))

def Meaning.field (f : DocField WireType) : ItemSyntax.Field T := ⟨f.name.toList, m.ty f.ty⟩

def Meaning.payload : DocVariantKind WireType → Payload T
  | .unit => .unit
  | .tuple fields => .tuple (fields.map fun f => m.ty f.ty)
  | .struct fields => .struct (fields.map m.field)

def Meaning.variant (v : DocVariant WireType) : ItemSyntax.Variant T :=
  ⟨v.name.toList, m.payload v.kind, v.discriminantExpr.map String.toList⟩

def Meaning.body : DocTypeKind WireType → Body T
  | .struct fields true => .tuple (fields.map fun f => m.ty f.ty)
  | .struct fields false => .struct (fields.map m.field)
  | .enum variants => .enum (variants.map m.variant)
  | .union fields => .union (fields.map m.field)
  | .typeAlias rhs => .alias (m.ty rhs)
  | .constant constTy value =>
    .constant (m.text constTy.toList) (valueOf value.toList constTy.toList)

def Meaning.definition (ignoredTraits : List Str) (ty : EmitType) : Definition T where
  repr := ty.attrs.repr.map String.toList
  name := ty.name.toList
  params := ty.generics.map (m.param ignoredTraits)
  predicates := ty.wherePredicates.map String.toList
  body := m.body ty.kind

end

/-! ## What is written as it is meant -/

def faithfulParam (p : DocGenericParam WireType) : Bool :=
  if p.isLifetime then isWord (lifetimeName p) && (p.outlives.map String.toList).all isLifetime
  else isName p.name.toList && (!p.isConst || p.defaultValue.isNone)

def faithfulField (f : DocField WireType) : Bool := isName f.name.toList

def faithfulPayload : DocVariantKind WireType → Bool
  | .unit => true
  | .tuple fields => !fields.isEmpty
  | .struct fields => fields.all faithfulField

/-- A discriminant is written in front of the fields, where only a variant without fields has
it. -/
def faithfulVariant (v : DocVariant WireType) : Bool :=
  isName v.name.toList && faithfulPayload v.kind &&
    match v.kind with
    | .unit => true
    | _ => v.discriminantExpr.isNone

def faithfulKind (ty : EmitType) : Bool :=
  match ty.kind with
  | .struct _ true => ty.wherePredicates.isEmpty
  | .struct fields false => fields.all faithfulField
  | .enum variants => variants.all faithfulVariant
  | .union fields => fields.all faithfulField
  | .typeAlias _ => ty.wherePredicates.isEmpty
  | .constant constTy value =>
    ty.generics.isEmpty && ty.wherePredicates.isEmpty &&
      stripTypeSuffix value.toList constTy.toList == valueOf value.toList constTy.toList

def faithfulDefinition (ty : EmitType) : Bool :=
  isName ty.name.toList && ty.generics.all faithfulParam && faithfulKind ty

/-! ## The parts that are written by others -/

def typeEnds : List Char := [',', ')', '>', '=', ';', '}']

def boundEnds : List Char := [',', '>', '+', '=']

def predicateEnds : List Char := [',', '{']

def exprEnds : List Char := [',', ';']

section
variable {T : Type} (g : Grammar T) (m : Meaning T) (ctx : RenderCtx) (ignoredTraits : List Str)

def IsType (t : Str) (x : T) : Prop :=
  ∀ rest, ends typeEnds rest = true → g.type (t ++ rest) = some (x, rest)

def Renders (t : WireType) : Prop := IsType g (renderType t ctx) (m.ty t)

/-- The derives that are written. -/
def derivesOf (attrs : Attributes) (extraDerives : List Str) : List Str :=
  extraDerives.foldl (fun all d => if all.contains d then all else all ++ [d])
    ((attrs.derive.flatten.filter safeDerives.contains).map String.toList)

def deriveInners (attrs : Attributes) (extraDerives : List Str) : List Str :=
  if (derivesOf attrs extraDerives).isEmpty then []
  else ["derive(".toList ++ TypeRepr.join ", " (derivesOf attrs extraDerives) ++ [')']]

def innerOf (attr : Str) : Str := (attr.drop 2).dropLast

/-- What stands between the brackets of the attributes that are written. -/
def attributeInners (attrs : Attributes) (extraDerives : List Str) : List Str :=
  attrs.repr.map (fun r => "repr(".toList ++ r.toList ++ [')']) ++
    (deriveInners attrs extraDerives ++
      ((attrs.other.map String.toList).filter keepsAttr).map innerOf)

/-- An attribute in its brackets that is no `repr`. -/
structure IsOther (attr : Str) : Prop where
  brackets : attr = "#[".toList ++ innerOf attr ++ [']']
  repr : reprOf (innerOf attr) = none

structure WrittenParam (p : DocGenericParam WireType) : Prop where
  bounds : ∀ b ∈ keptBounds p ignoredTraits, IsPiece g.bound boundEnds b
  defaultType : ∀ t ∈ p.defaultType, Renders g m ctx t
  defaultValue : p.isConst = false → ∀ v ∈ p.defaultValue, IsType g v.toList (m.text v.toList)
  constTy : p.isConst = true → IsType g (constTyText p) (m.text (constTyText p))

def WrittenFields (fields : List (DocField WireType)) : Prop := ∀ f ∈ fields, Renders g m ctx f.ty

def WrittenPayload : DocVariantKind WireType → Prop
  | .unit => True
  | .tuple fields => WrittenFields g m ctx fields
  | .struct fields => WrittenFields g m ctx fields

structure WrittenVariant (v : DocVariant WireType) : Prop where
  payload : WrittenPayload g m ctx v.kind
  discriminant : ∀ d ∈ v.discriminantExpr, IsPiece g.expr exprEnds d.toList

def WrittenKind : DocTypeKind WireType → Prop
  | .struct fields _ => WrittenFields g m ctx fields
  | .enum variants => ∀ v ∈ variants, WrittenVariant g m ctx v
  | .union fields => WrittenFields g m ctx fields
  | .typeAlias rhs => Renders g m ctx rhs
  | .constant constTy value =>
    IsType g constTy.toList (m.text constTy.toList) ∧
      IsPiece g.expr exprEnds (valueOf value.toList constTy.toList)

/-- The types are written as they are meant, and each text of the definition is one piece of its
kind. -/
structure Written (extraDerives : List Str) (ty : EmitType) : Prop where
  inners : ∀ a ∈ attributeInners ty.attrs extraDerives, IsPiece g.inner [']'] a
  others : ∀ a ∈ (ty.attrs.other.map String.toList).filter keepsAttr, IsOther a
  params : ∀ p ∈ ty.generics, WrittenParam g m ctx ignoredTraits p
  predicates : ∀ w ∈ ty.wherePredicates.map String.toList, IsPiece g.predicate predicateEnds w
  kind : WrittenKind g m ctx ty.kind

end

end Rustyfill.DocJson.Emit
