import Rustyfill.DocJson.Wire
import Rustyfill.Lib.TypeSyntax

/-!
# Types as rustdoc describes them, and as they are written

The types of `docjson/wire/original.rs` and `docjson/type_repr.rs`. What rustdoc gives as a name, a
lifetime or an expression is one; the path of a reference is any text. Binders are kept by the
lifetimes they bind, and what the writer never looks at is left out: the names of arguments, the
value of a constant.
-/

namespace Rustyfill.DocJson.TypeRepr

open TypeSyntax

set_option autoImplicit false

abbrev Str := List Char

/-! ## Types -/

/-- The expression of a constant that is an argument. -/
inductive Constant where
  | name (n : Ident)
  | literal (c : ConstArg)
deriving DecidableEq

def Constant.text : Constant → Str
  | name n => n.text
  | literal c => c.text

inductive Abi where
  | rust
  | c (unwind : Bool)
  | cdecl (unwind : Bool)
  | stdcall (unwind : Bool)
  | fastcall (unwind : Bool)
  | aapcs (unwind : Bool)
  | win64 (unwind : Bool)
  | sysV64 (unwind : Bool)
  | system (unwind : Bool)
  | other (name : AbiName)
deriving DecidableEq

structure FunctionHeader where
  isConst : Bool
  isUnsafe : Bool
  isAsync : Bool
  abi : Abi
deriving DecidableEq

inductive PreciseCapturingArg where
  | lifetime (lt : Lifetime)
  | param (p : Ident)
deriving DecidableEq

mutual

inductive WireType where
  | resolvedPath (p : Path)
  | dynTrait (traits : List PolyTrait) (lifetime : Option Lifetime)
  | generic (name : Ident)
  | primitive (name : Ident)
  | functionPointer (genericParams : List Lifetime) (header : FunctionHeader)
      (inputs : List WireType) (isCVariadic : Bool) (output : Option WireType)
  | tuple (elems : List WireType)
  | slice (elem : WireType)
  | array (type : WireType) (len : Expr)
  | implTrait (bounds : List GenericBound)
  | rawPointer (isMutable : Bool) (type : WireType)
  | borrowedRef (lifetime : Option Lifetime) (isMutable : Bool) (type : WireType)
  | qualifiedPath (name : Ident) (args : Option GenericArgs) (selfType : WireType)
      (trait : Option Path)

inductive Path where
  | mk (path : Str) (id : UInt32) (args : Option GenericArgs)

inductive PolyTrait where
  | mk (trait : Path) (genericParams : List Lifetime)

inductive GenericArgs where
  | angleBracketed (args : List GenericArg) (constraints : List AssocItemConstraint)
  | parenthesized (inputs : List WireType) (output : Option WireType)
  | returnTypeNotation

inductive GenericArg where
  | lifetime (lt : Lifetime)
  | type (t : WireType)
  | const (c : Constant)
  | infer

inductive AssocItemConstraint where
  | mk (name : Ident) (args : Option GenericArgs) (binding : AssocItemConstraintKind)

inductive AssocItemConstraintKind where
  | equality (term : Term)
  | constraint (bounds : List GenericBound)

inductive Term where
  | type (t : WireType)
  | constant (c : Constant)

inductive GenericBound where
  | traitBound (trait : Path) (genericParams : List Lifetime) (modifier : Modifier)
  | outlives (lt : Lifetime)
  | use (args : List PreciseCapturingArg)

end

/-! ## Writing -/

/-- `slice::join`. -/
def join (sep : String) (parts : List Str) : Str := sep.toList.intercalate parts

/-- Whether the ABI is one of two with the same name is not looked at. -/
def abiName : Abi → Str
  | .rust => "Rust".toList
  | .c _ => "C".toList
  | .cdecl _ => "cdecl".toList
  | .stdcall _ => "stdcall".toList
  | .fastcall _ => "fastcall".toList
  | .aapcs _ => "aapcs".toList
  | .win64 _ => "win64".toList
  | .sysV64 _ => "sysv64".toList
  | .system _ => "system".toList
  | .other name => name.text

def writeAbi : Abi → Str
  | .rust => []
  | abi => "extern \"".toList ++ abiName abi ++ "\" ".toList

def writeCapturingArg : PreciseCapturingArg → Str
  | .lifetime lt => lt.text
  | .param p => p.text

/-- The arguments of a function, with the dots of a variadic one. -/
def writeInputs (inputs : List Str) (isCVariadic : Bool) : Str :=
  join ", " (inputs ++ if isCVariadic then ["...".toList] else [])

section
variable (resolve : Str → UInt32 → Str)

mutual

def writeType : WireType → Str
  | .resolvedPath p => writePath p
  | .dynTrait traits lifetime =>
    "dyn ".toList ++ join " + " (writePolyTraits traits) ++
      lifetime.elim [] fun lt => " + ".toList ++ lt.text
  | .generic name => name.text
  | .primitive name => name.text
  | .functionPointer _ header inputs isCVariadic output =>
    writeAbi header.abi ++ "fn(".toList ++ writeInputs (writeTypes inputs) isCVariadic ++ [')'] ++
      writeOutput output
  | .tuple elems =>
    ['('] ++ join ", " (writeTypes elems) ++ (if elems.length = 1 then [','] else []) ++ [')']
  | .slice elem => ['['] ++ writeType elem ++ [']']
  | .array type len => ['['] ++ writeType type ++ "; ".toList ++ len.text ++ [']']
  | .implTrait bounds => "impl ".toList ++ join " + " (writeBounds bounds)
  | .rawPointer isMutable type =>
    ['*'] ++ (if isMutable then "mut ".toList else "const ".toList) ++ writeType type
  | .borrowedRef lifetime isMutable type =>
    ['&'] ++ (lifetime.elim [] fun lt => lt.text ++ [' ']) ++
      (if isMutable then "mut ".toList else []) ++ writeType type
  | .qualifiedPath name args selfType (some trait) =>
    ['<'] ++ writeType selfType ++ " as ".toList ++ writePath trait ++ ">::".toList ++
      name.text ++ writeOptArgs args
  | .qualifiedPath name args selfType none =>
    writeType selfType ++ "::".toList ++ name.text ++ writeOptArgs args

def writeTypes : List WireType → List Str
  | [] => []
  | t :: ts => writeType t :: writeTypes ts

def writeOutput : Option WireType → Str
  | none => []
  | some t => " -> ".toList ++ writeType t

/-- Also `render_poly_trait_path`. -/
def writePath : Path → Str
  | .mk path id args => resolve path id ++ writeOptArgs args

def writePolyTrait : PolyTrait → Str
  | .mk trait _ => writePath trait

def writePolyTraits : List PolyTrait → List Str
  | [] => []
  | t :: ts => writePolyTrait t :: writePolyTraits ts

def writeOptArgs : Option GenericArgs → Str
  | none => []
  | some args => writeGenericArgs args

def writeGenericArgs : GenericArgs → Str
  | .angleBracketed args constraints =>
    ['<'] ++ join ", " (writeArgs args ++ writeConstraints constraints) ++ ['>']
  | .parenthesized inputs output =>
    "<fn(".toList ++ join ", " (writeTypes inputs) ++ [')'] ++ writeOutput output ++ ['>']
  | .returnTypeNotation => "(..)".toList

def writeArg : GenericArg → Str
  | .lifetime lt => lt.text
  | .type t => writeType t
  | .const c => c.text
  | .infer => ['_']

def writeArgs : List GenericArg → List Str
  | [] => []
  | a :: args => writeArg a :: writeArgs args

def writeConstraint : AssocItemConstraint → Str
  | .mk name _ binding => name.text ++ writeBinding binding

def writeConstraints : List AssocItemConstraint → List Str
  | [] => []
  | c :: cs => writeConstraint c :: writeConstraints cs

def writeBinding : AssocItemConstraintKind → Str
  | .equality term => " = ".toList ++ writeTerm term
  | .constraint bounds => ": ".toList ++ join " + " (writeBounds bounds)

def writeTerm : Term → Str
  | .type t => writeType t
  | .constant c => c.text

def writeBound : GenericBound → Str
  | .traitBound trait _ modifier =>
    match modifier with
    | .none => writePath trait
    | .maybe => writePath trait ++ ['?']
    | .maybeConst => writePath trait ++ ['?']
  | .outlives lt => lt.text
  | .use args => "use<".toList ++ join ", " (args.map writeCapturingArg) ++ ['>']

def writeBounds : List GenericBound → List Str
  | [] => []
  | b :: bounds => writeBound b :: writeBounds bounds

end

end

abbrev render (ty : WireType) (resolve : Str → UInt32 → Str) : Str := writeType resolve ty

abbrev renderArgs (args : GenericArgs) (resolve : Str → UInt32 → Str) : Str :=
  writeGenericArgs resolve args

end Rustyfill.DocJson.TypeRepr
