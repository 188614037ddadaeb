import Rustyfill.DocJson.TypeRepr
import Rustyfill.Lib.Text
import Rustyfill.Lib.TypeForms

/-!
# What a type of rustdoc means

The type of the grammar that a wire type stands for, with the path that the resolver gives in place
of each path, and the types whose text has that meaning.
-/

namespace Rustyfill.DocJson.TypeRepr

open TypeSyntax

set_option autoImplicit false

/-- A path without arguments, which is what a resolver answers. -/
structure SimplePath where
  root : Bool
  init : List Ident
  last : Ident
deriving DecidableEq

def rootText (root : Bool) : Str := if root then "::".toList else []

def SimplePath.text (p : SimplePath) : Str :=
  rootText p.root ++ join "::" ((p.init ++ [p.last]).map Ident.text)

abbrev Resolver := Str → UInt32 → SimplePath

def Resolver.resolve (res : Resolver) (path : Str) (id : UInt32) : Str := (res path id).text

/-! ## Meaning -/

/-- The name that rustdoc gives to `!`. -/
def never : Str := ['n', 'e', 'v', 'e', 'r']

def named (n : Ident) : Ty := .path (.mk false [.mk n none])

def abiOf : Abi → Option AbiName
  | .rust => none
  | .c unwind => some (if unwind then ⟨"C-unwind".toList, by decide⟩ else abiC)
  | .cdecl unwind =>
    some (if unwind then ⟨"cdecl-unwind".toList, by decide⟩ else ⟨"cdecl".toList, by decide⟩)
  | .stdcall unwind =>
    some (if unwind then ⟨"stdcall-unwind".toList, by decide⟩ else ⟨"stdcall".toList, by decide⟩)
  | .fastcall unwind =>
    some (if unwind then ⟨"fastcall-unwind".toList, by decide⟩ else ⟨"fastcall".toList, by decide⟩)
  | .aapcs unwind =>
    some (if unwind then ⟨"aapcs-unwind".toList, by decide⟩ else ⟨"aapcs".toList, by decide⟩)
  | .win64 unwind =>
    some (if unwind then ⟨"win64-unwind".toList, by decide⟩ else ⟨"win64".toList, by decide⟩)
  | .sysV64 unwind =>
    some (if unwind then ⟨"sysv64-unwind".toList, by decide⟩ else ⟨"sysv64".toList, by decide⟩)
  | .system unwind =>
    some (if unwind then ⟨"system-unwind".toList, by decide⟩ else ⟨"system".toList, by decide⟩)
  | .other name => some name

def qualifiersOf (header : FunctionHeader) : Qualifiers :=
  ⟨header.isConst, header.isAsync, header.isUnsafe, abiOf header.abi⟩

def capturingOf : PreciseCapturingArg → CapturingArg
  | .lifetime lt => .lifetime lt
  | .param p => .param p

def constantOf : Constant → Arg
  | .name n => .type (named n)
  | .literal c => .const c

/-- An associated item of a type. -/
def extend (item : Segment) : Ty → Ty
  | .path (.mk root segments) => .path (.mk root (segments ++ [item]))
  | .qualified self trait rest => .qualified self trait (rest ++ [item])
  | t => .qualified t none [item]

section
variable (res : Resolver)

mutual

def tyOf : WireType → Ty
  | .resolvedPath p => .path (pathOf p)
  | .dynTrait traits lifetime => .traitObject (polyTraitsOf traits ++ lifetime.toList.map .lifetime)
  | .generic name => named name
  | .primitive name => if name.text = never then .never else named name
  | .functionPointer genericParams header inputs isCVariadic output =>
    .function genericParams (qualifiersOf header)
      ((tysOf inputs).map some ++ if isCVariadic then [none] else []) (outputOf output)
  | .tuple elems => .tuple (tysOf elems)
  | .slice elem => .slice (tyOf elem)
  | .array type len => .array (tyOf type) len
  | .implTrait bounds => .implTrait (boundsOf bounds)
  | .rawPointer isMutable type => .pointer isMutable (tyOf type)
  | .borrowedRef lifetime isMutable type => .reference lifetime isMutable (tyOf type)
  | .qualifiedPath name args selfType (some trait) =>
    .qualified (tyOf selfType) (some (pathOf trait)) [.mk name (optArgsOf args)]
  | .qualifiedPath name args selfType none => extend (.mk name (optArgsOf args)) (tyOf selfType)

def tysOf : List WireType → List Ty
  | [] => []
  | t :: ts => tyOf t :: tysOf ts

def outputOf : Option WireType → Option Ty
  | none => none
  | some t => some (tyOf t)

def pathOf : Path → TypePath
  | .mk path id args =>
    .mk (res path id).root
      ((res path id).init.map (fun n => .mk n none) ++ [.mk (res path id).last (optArgsOf args)])

def polyTraitOf : PolyTrait → Bound
  | .mk trait genericParams => .trait genericParams .none (pathOf trait)

def polyTraitsOf : List PolyTrait → List Bound
  | [] => []
  | t :: ts => polyTraitOf t :: polyTraitsOf ts

def optArgsOf : Option GenericArgs → Option Args
  | none => none
  | some args => some (argsOf args)

def argsOf : GenericArgs → Args
  | .angleBracketed args constraints => .angle (argListOf args ++ constraintsOf constraints)
  | .parenthesized inputs output => .parenthesized (tysOf inputs) (outputOf output)
  | .returnTypeNotation => .returnType

def argOf : GenericArg → Arg
  | .lifetime lt => .lifetime lt
  | .type t => .type (tyOf t)
  | .const c => constantOf c
  | .infer => .type .infer

def argListOf : List GenericArg → List Arg
  | [] => []
  | a :: args => argOf a :: argListOf args

def constraintOf : AssocItemConstraint → Arg
  | .mk name args (.equality term) => .equal name (optArgsOf args) (termOf term)
  | .mk name args (.constraint bounds) => .bounded name (optArgsOf args) (boundsOf bounds)

def constraintsOf : List AssocItemConstraint → List Arg
  | [] => []
  | c :: cs => constraintOf c :: constraintsOf cs

def termOf : Term → Arg
  | .type t => .type (tyOf t)
  | .constant c => constantOf c

def boundOf : GenericBound → Bound
  | .traitBound trait genericParams modifier => .trait genericParams modifier (pathOf trait)
  | .outlives lt => .lifetime lt
  | .use args => .use (args.map capturingOf)

def boundsOf : List GenericBound → List Bound
  | [] => []
  | b :: bounds => boundOf b :: boundsOf bounds

end

end

/-! ## Which types are written with their meaning -/

/-- The types that are written as a path, which a further segment may follow. -/
def isPathLike : WireType → Bool
  | .resolvedPath _ => true
  | .generic _ => true
  | .primitive name => name.text != never
  | .qualifiedPath _ _ _ (some _) => true
  | .qualifiedPath _ _ selfType none => isPathLike selfType
  | _ => false

def Abi.unwinds : Abi → Bool
  | .rust => false
  | .c unwind => unwind
  | .cdecl unwind => unwind
  | .stdcall unwind => unwind
  | .fastcall unwind => unwind
  | .aapcs unwind => unwind
  | .win64 unwind => unwind
  | .sysV64 unwind => unwind
  | .system unwind => unwind
  | .other _ => false

/-- A header without a word that is dropped. -/
def FunctionHeader.isPlain (header : FunctionHeader) : Bool :=
  !header.isConst && !header.isAsync && !header.isUnsafe && !header.abi.unwinds

/-- A `+` stands only where more than one bound may be read. -/
def fits (plus : Bool) (count : Nat) : Bool := plus || decide (count ≤ 1)

mutual

def faithful : Bool → WireType → Bool
  | _, .resolvedPath p => faithfulPath p
  | plus, .dynTrait traits lifetime =>
    !traits.isEmpty && fits plus (traits.length + lifetime.toList.length) &&
      faithfulPolyTraits traits
  | _, .generic _ => true
  | _, .primitive name => name.text != never
  | _, .functionPointer genericParams header inputs _ output =>
    genericParams.isEmpty && header.isPlain && faithfulTypes inputs && faithfulOutput output
  | _, .tuple elems => faithfulTypes elems
  | _, .slice elem => faithful true elem
  | _, .array type _ => faithful true type
  | plus, .implTrait bounds =>
    !bounds.isEmpty && fits plus bounds.length && faithfulBounds bounds
  | _, .rawPointer _ type => faithful false type
  | _, .borrowedRef _ _ type => faithful false type
  | _, .qualifiedPath _ args selfType (some trait) =>
    faithful true selfType && faithfulPath trait && faithfulOptArgs args
  | _, .qualifiedPath _ args selfType none =>
    isPathLike selfType && faithful true selfType && faithfulOptArgs args

def faithfulTypes : List WireType → Bool
  | [] => true
  | t :: ts => faithful true t && faithfulTypes ts

def faithfulOutput : Option WireType → Bool
  | none => true
  | some t => faithful false t

def faithfulPath : Path → Bool
  | .mk _ _ args => faithfulOptArgs args

def faithfulPolyTrait : PolyTrait → Bool
  | .mk trait genericParams => genericParams.isEmpty && faithfulPath trait

def faithfulPolyTraits : List PolyTrait → Bool
  | [] => true
  | t :: ts => faithfulPolyTrait t && faithfulPolyTraits ts

def faithfulOptArgs : Option GenericArgs → Bool
  | none => true
  | some args => faithfulArgs args

def faithfulArgs : GenericArgs → Bool
  | .angleBracketed args constraints => faithfulArgList args && faithfulConstraints constraints
  | .parenthesized _ _ => false
  | .returnTypeNotation => true

def faithfulArg : GenericArg → Bool
  | .type t => faithful true t
  | _ => true

def faithfulArgList : List GenericArg → Bool
  | [] => true
  | a :: args => faithfulArg a && faithfulArgList args

def faithfulConstraint : AssocItemConstraint → Bool
  | .mk _ args binding => args.isNone && faithfulBinding binding

def faithfulConstraints : List AssocItemConstraint → Bool
  | [] => true
  | c :: cs => faithfulConstraint c && faithfulConstraints cs

def faithfulBinding : AssocItemConstraintKind → Bool
  | .equality term => faithfulTerm term
  | .constraint bounds => !bounds.isEmpty && faithfulBounds bounds

def faithfulTerm : Term → Bool
  | .type t => faithful true t
  | .constant _ => true

def faithfulBound : GenericBound → Bool
  | .traitBound trait genericParams modifier =>
    genericParams.isEmpty && decide (modifier = .none) && faithfulPath trait
  | _ => true

def faithfulBounds : List GenericBound → Bool
  | [] => true
  | b :: bounds => faithfulBound b && faithfulBounds bounds

end

end Rustyfill.DocJson.TypeRepr
