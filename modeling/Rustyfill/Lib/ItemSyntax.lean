import Rustyfill.Lib.TypeForms

/-!
# Definitions of types and constants

The items of Rust that define a type or a constant, and a parser for their grammar. What this
grammar leaves to others is read by readers that are given: types, and as texts bounds, predicates,
expressions, the defaults of constants and what stands between the brackets of an attribute. No
comma is read behind the last predicate, and `pub` is the only visibility.
-/

namespace ItemSyntax

open Reading TypeSyntax

set_option autoImplicit false

abbrev Text := List Char

/-! ## Names -/

/-- The keywords that have no meaning in types. -/
def reserved : List Text :=
  ["Self", "abstract", "await", "become", "box", "break", "continue", "crate", "do", "else", "enum",
    "false", "final", "if", "in", "let", "loop", "macro", "match", "mod", "move", "override",
    "priv", "pub", "ref", "return", "self", "static", "struct", "super", "trait", "true", "try",
    "type", "typeof", "unsized", "virtual", "where", "while", "yield"].map String.toList

def isName (s : Text) : Bool := isIdent s && !reserved.contains s

def isLifetime : Text → Bool
  | '\'' :: s => isWord s
  | _ => false

/-! ## Definitions -/

inductive Param (T : Type) where
  | lifetime (name : Text) (outlives : List Text)
  | type (name : Text) (bounds : List Text) (default : Option T)
  | const (name : Text) (type : T) (default : Option Text)

structure Field (T : Type) where
  name : Text
  type : T

inductive Payload (T : Type) where
  | unit
  | tuple (types : List T)
  | struct (fields : List (Field T))

structure Variant (T : Type) where
  name : Text
  payload : Payload T
  discriminant : Option Text

inductive Body (T : Type) where
  | unit
  | tuple (types : List T)
  | struct (fields : List (Field T))
  | enum (variants : List (Variant T))
  | union (fields : List (Field T))
  | alias (type : T)
  | constant (type : T) (value : Text)

structure Definition (T : Type) where
  repr : List Text
  name : Text
  params : List (Param T)
  predicates : List Text
  body : Body T

/-! ## The grammar -/

/-- How long the piece of a text is that begins in front, if one does. -/
abbrev Measure := Text → Option Nat

def takeText (measure : Measure) : Reader Text := fun s =>
  (measure (skip s)).map fun n => ((skip s).take n, (skip s).drop n)

structure Grammar (T : Type) where
  type : Reader T
  bound : Measure
  predicate : Measure
  expr : Measure
  constant : Measure
  inner : Measure
  type_skip : ∀ s, type (skip s) = type s
  /-- No type begins with what may follow one. -/
  type_ends : ∀ c s, [',', ')', ';'].contains c = true → type (c :: s) = none

def nothing {α : Type} : Reader (List α) := fun s => some ([], s)

/-- A list behind a symbol, which is empty where the symbol is not. -/
def listAfter {α : Type} (t : Text) (p : Reader (List α)) : Reader (List α) := fun s =>
  match symbol t s with
  | some s => p s
  | none => nothing s

def readName : Reader Text := fun s =>
  if isName (word s) then some (word s, behindWord s) else none

def behindPub (s : Text) : Text := if word s = "pub".toList then behindWord s else s

section
variable {T : Type} (g : Grammar T)

/-! ### Generics -/

def readOutlives : Reader (List Text) :=
  listAfter [':'] (sepBy ['+'] (map Lifetime.text readLifetime))

def readLifetimeParam : Reader (Param T) :=
  map (fun p => .lifetime p.1 p.2) (pair (map Lifetime.name readLifetime) readOutlives)

def readTypeParam : Reader (Param T) :=
  map (fun p => .type p.1 p.2.1 p.2.2)
    (pair readName
      (pair (listAfter [':'] (sepBy ['+'] (takeText g.bound))) (whenSymbol ['='] g.type)))

def readConstParam : Reader (Param T) :=
  map (fun p => .const p.1 p.2.1 p.2.2)
    (pair readName (pair (after [':'] g.type) (whenSymbol ['='] (takeText g.constant))))

def readParam : Reader (Param T) := fun s =>
  if (skip s).head? = some '\'' then readLifetimeParam s
  else if word s = "const".toList then readConstParam g (behindWord s)
  else readTypeParam g s

def readParams : Reader (List (Param T)) := listAfter ['<'] (commaList ['>'] (readParam g))

def readWhere : Reader (List Text) := fun s =>
  if word s = "where".toList then sepBy [','] (takeText g.predicate) (behindWord s) else nothing s

/-! ### Fields and variants -/

def readElem : Reader T := fun s => g.type (behindPub s)

def readField : Reader (Field T) := fun s =>
  map (fun p => ⟨p.1, p.2⟩) (pair readName (after [':'] g.type)) (behindPub s)

def readPayload : Reader (Payload T) := fun s =>
  match symbol ['('] s with
  | some s => map .tuple (commaList [')'] g.type) s
  | none =>
    match symbol ['{'] s with
    | some s => map .struct (commaList ['}'] (readField g)) s
    | none => some (.unit, s)

def readVariant : Reader (Variant T) :=
  map (fun p => ⟨p.1, p.2.1, p.2.2⟩)
    (pair readName (pair (readPayload g) (whenSymbol ['='] (takeText g.expr))))

/-! ### Items -/

def readStructBody : Reader (Body T) := fun s =>
  match symbol [';'] s with
  | some s => some (.unit, s)
  | none => map .struct (after ['{'] (commaList ['}'] (readField g))) s

/-- The clause of a tuple struct stands behind its fields. -/
def readStruct : Reader (List Text × Body T) := fun s =>
  match symbol ['('] s with
  | some s =>
    map (fun p => (p.2, .tuple p.1))
      (before (pair (commaList [')'] (readElem g)) (readWhere g)) [';']) s
  | none => pair (readWhere g) (readStructBody g) s

def readEnum : Reader (List Text × Body T) :=
  pair (readWhere g) (map .enum (after ['{'] (commaList ['}'] (readVariant g))))

def readUnion : Reader (List Text × Body T) :=
  pair (readWhere g) (map .union (after ['{'] (commaList ['}'] (readField g))))

def readAlias : Reader (List Text × Body T) :=
  pair (readWhere g) (map .alias (before (after ['='] g.type) [';']))

def readConstant : Reader (List Text × Body T) :=
  pair nothing (map (fun p => .constant p.1 p.2)
    (before (pair (after [':'] g.type) (after ['='] (takeText g.expr))) [';']))

abbrev Item (T : Type) := (Text × List (Param T)) × (List Text × Body T)

def readItem : Reader (Item T) := fun s =>
  if word s = "struct".toList then
    pair (pair readName (readParams g)) (readStruct g) (behindWord s)
  else if word s = "enum".toList then
    pair (pair readName (readParams g)) (readEnum g) (behindWord s)
  else if word s = "union".toList then
    pair (pair readName (readParams g)) (readUnion g) (behindWord s)
  else if word s = "type".toList then
    pair (pair readName (readParams g)) (readAlias g) (behindWord s)
  else if word s = "const".toList then
    pair (pair readName nothing) (readConstant g) (behindWord s)
  else none

/-! ### Attributes -/

def readAttributesFrom : Nat → Reader (List Text)
  | 0, _ => none
  | n + 1, s =>
    match symbol ['#'] s with
    | some s =>
      (before (after ['['] (takeText g.inner)) [']'] s).bind fun r =>
        (readAttributesFrom n r.2).map fun r' => (r.1 :: r'.1, r'.2)
    | none => some ([], s)

def readAttributes : Reader (List Text) := fun s => readAttributesFrom g (s.length + 1) s

/-- The layout that an attribute asks for, if it is a `repr`. -/
def reprOf (inner : Text) : Option Text :=
  if "repr(".toList.isPrefixOf inner && inner.getLast? == some ')' then
    some ((inner.drop 5).dropLast)
  else none

def readDefinition : Reader (Definition T) := fun s =>
  (readAttributes g s).bind fun r =>
    map (fun p => ⟨r.1.filterMap reprOf, p.1.1, p.1.2, p.2.1, p.2.2⟩) (readItem g) (behindPub r.2)

/-- Parse a whole text. -/
def parse (s : Text) : Option (Definition T) :=
  match readDefinition g s with
  | some (d, rest) => if skip rest = [] then some d else none
  | none => none

end

end ItemSyntax
