import Mathlib.Data.List.Basic

/-!
# The syntax of Rust types

The words of the language, and types as its grammar reads them. A type in parentheses is a type of
its own, and a generic argument that names a constant is a path.
-/

namespace TypeSyntax

set_option autoImplicit false

/-! ## Words -/

def isWordChar (c : Char) : Bool := c.isAlphanum || c == '_' || decide (128 ≤ c.toNat)

def isWord (s : List Char) : Bool := !s.isEmpty && s.all isWordChar

/-- The words that the grammar of types gives a meaning of their own. -/
def keywords : List (List Char) :=
  [['_'], ['a', 's'], ['a', 's', 'y', 'n', 'c'], ['c', 'o', 'n', 's', 't'], ['d', 'y', 'n'],
    ['e', 'x', 't', 'e', 'r', 'n'], ['f', 'n'], ['f', 'o', 'r'], ['i', 'm', 'p', 'l'],
    ['m', 'u', 't'], ['u', 'n', 's', 'a', 'f', 'e'], ['u', 's', 'e']]

def isIdent (s : List Char) : Bool :=
  isWord s && !(s.head?.any Char.isDigit) && !keywords.contains s

structure Ident where
  text : List Char
  ok : isIdent text = true
deriving DecidableEq

structure Lifetime where
  name : List Char
  ok : isWord name = true
deriving DecidableEq

def Lifetime.text (lt : Lifetime) : List Char := '\'' :: lt.name

/-! ## Expressions

An expression is kept as its text. -/

def isOpening (c : Char) : Bool := ['(', '[', '{'].contains c

def isClosing (c : Char) : Bool := [')', ']', '}'].contains c

/-- The depth of brackets behind a text, unless it closes more than is open. -/
def depthAfter : Nat → List Char → Option Nat
  | depth, [] => some depth
  | depth, c :: s =>
    if isOpening c then depthAfter (depth + 1) s
    else if isClosing c then
      match depth with
      | 0 => none
      | depth + 1 => depthAfter depth s
    else depthAfter depth s

def isExpr (s : List Char) : Bool :=
  !(s.head?.all fun c => c == ' ' || c == '\n') && depthAfter 0 s == some 0

structure Expr where
  text : List Char
  ok : isExpr text = true
deriving DecidableEq

/-- What stands between the quotes of a character. -/
def isCharBody : List Char → Bool
  | [] => false
  | [c] => c != '\\' && c != '\''
  | c :: _ :: s => c == '\\' && !s.contains '\''

def isNumber (s : List Char) : Bool := isWord s && s.head?.any Char.isDigit

/-- A constant as an argument: a number, a negative one, a block or a character. -/
inductive ConstArg where
  | number (s : List Char) (ok : isNumber s = true)
  | negative (s : List Char) (ok : isWord s = true)
  | block (s : List Char) (ok : depthAfter 0 s = some 0)
  | char (s : List Char) (ok : isCharBody s = true)
deriving DecidableEq

def ConstArg.text : ConstArg → List Char
  | number s _ => s
  | negative s _ => '-' :: s
  | block s _ => '{' :: s ++ ['}']
  | char s _ => '\'' :: s ++ ['\'']

structure AbiName where
  text : List Char
  ok : text.contains '"' = false
deriving DecidableEq

/-! ## Types -/

inductive Modifier where
  | none
  | maybe
  | maybeConst
deriving DecidableEq

/-- What stands in front of `fn`. -/
structure Qualifiers where
  isConst : Bool
  isAsync : Bool
  isUnsafe : Bool
  abi : Option AbiName
deriving DecidableEq

inductive CapturingArg where
  | lifetime (lt : Lifetime)
  | param (name : Ident)
deriving DecidableEq

mutual

inductive Ty where
  | path (p : TypePath)
  | qualified (self : Ty) (trait : Option TypePath) (rest : List Segment)
  | paren (inner : Ty)
  | infer
  | never
  | tuple (elems : List Ty)
  | slice (elem : Ty)
  | array (elem : Ty) (len : Expr)
  | pointer (isMutable : Bool) (pointee : Ty)
  | reference (lifetime : Option Lifetime) (isMutable : Bool) (referent : Ty)
  /-- An input without a type is the dots of a variadic function. -/
  | function (binder : List Lifetime) (qualifiers : Qualifiers) (inputs : List (Option Ty))
      (output : Option Ty)
  | traitObject (bounds : List Bound)
  | implTrait (bounds : List Bound)

inductive TypePath where
  | mk (root : Bool) (segments : List Segment)

inductive Segment where
  | mk (name : Ident) (args : Option Args)

inductive Args where
  | angle (args : List Arg)
  | parenthesized (inputs : List Ty) (output : Option Ty)
  | returnType

inductive Arg where
  | lifetime (lt : Lifetime)
  | type (t : Ty)
  | const (c : ConstArg)
  | equal (name : Ident) (args : Option Args) (term : Arg)
  | bounded (name : Ident) (args : Option Args) (bounds : List Bound)

inductive Bound where
  | trait (binder : List Lifetime) (modifier : Modifier) (path : TypePath)
  | lifetime (lt : Lifetime)
  | use (args : List CapturingArg)

end

end TypeSyntax
