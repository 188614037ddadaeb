import Rustyfill.Lib.Reading
import Rustyfill.Lib.TypeSyntax

/-!
# Reading Rust types

A parser for the grammar of types. Where the grammar admits one bound only, behind a pointer, a
reference or an arrow, no `+` is read. A binder in front of a type is read for functions only, and
generic arguments behind `::` are not.
-/

namespace TypeSyntax

open Reading

set_option autoImplicit false

/-! ## Words -/

def word (s : List Char) : List Char := (skip s).takeWhile isWordChar

def behindWord (s : List Char) : List Char := (skip s).dropWhile isWordChar

def readIdent : Reader Ident := fun s =>
  if h : isIdent (word s) = true then some (⟨word s, h⟩, behindWord s) else none

def readLifetime : Reader Lifetime := fun s =>
  (symbol ['\''] s).bind fun s =>
    if h : isWord (s.takeWhile isWordChar) = true then
      some (⟨s.takeWhile isWordChar, h⟩, s.dropWhile isWordChar)
    else none

/-! ## Expressions -/

/-- A text up to the bracket that closes more than it opens. -/
def takeExpr : Nat → List Char → Option (List Char × List Char)
  | _, [] => none
  | depth, c :: s =>
    if isOpening c then (takeExpr (depth + 1) s).map fun r => (c :: r.1, r.2)
    else if isClosing c then
      match depth with
      | 0 => some ([], c :: s)
      | depth + 1 => (takeExpr depth s).map fun r => (c :: r.1, r.2)
    else (takeExpr depth s).map fun r => (c :: r.1, r.2)

def readExpr : Reader Expr := fun s =>
  (takeExpr 0 (skip s)).bind fun r =>
    if h : isExpr r.1 = true then some (⟨r.1, h⟩, r.2) else none

/-- The text up to the quote that ends a character, where one begins. -/
def takeChar : List Char → Option (List Char × List Char)
  | '\\' :: c :: s =>
    match s.dropWhile (· != '\'') with
    | '\'' :: rest => some ('\\' :: c :: s.takeWhile (· != '\''), rest)
    | _ => none
  | c :: '\'' :: rest => some ([c], rest)
  | _ => none

def readChar : Reader ConstArg := fun s =>
  (takeChar s).bind fun r => if h : isCharBody r.1 = true then some (.char r.1 h, r.2) else none

def readNegative : Reader ConstArg := fun s =>
  if h : isWord (s.takeWhile isWordChar) = true then
    some (.negative (s.takeWhile isWordChar) h, s.dropWhile isWordChar)
  else none

def readBlock : Reader ConstArg := fun s =>
  (takeExpr 0 s).bind fun r =>
    if h : depthAfter 0 r.1 = some 0 then
      (symbol ['}'] r.2).map fun rest => (.block r.1 h, rest)
    else none

def readNumber : Reader ConstArg := fun s =>
  if h : isNumber (word s) = true then some (.number (word s) h, behindWord s) else none

/-- A constant that is no path, if one begins here. -/
def readConst (s : List Char) : Option (Option (ConstArg × List Char)) :=
  match skip s with
  | '-' :: s => some (readNegative s)
  | '{' :: s => some (readBlock s)
  | c :: s => if c.isDigit then some (readNumber (c :: s)) else none
  | [] => none

/-! ## Types -/

/-- The readers for what stands deeper inside of a type. -/
structure Readers where
  /-- Whether more than one bound may be read. -/
  type : Bool → Reader Ty
  args : Reader Args

section
variable (rs : Readers)

def readOptArgs : Reader (Option Args) := fun s =>
  match skip s with
  | '<' :: _ => map some rs.args s
  | '(' :: _ => map some rs.args s
  | _ => some (none, s)

def readSegment : Reader Segment := map (fun p => .mk p.1 p.2) (pair readIdent (readOptArgs rs))

def readSegments : Reader (List Segment) := sepBy [':', ':'] (readSegment rs)

def readRoot : Reader Bool := fun s =>
  match symbol [':', ':'] s with
  | some s => some (true, s)
  | none => some (false, s)

def readPath : Reader TypePath := map (fun p => .mk p.1 p.2) (pair readRoot (readSegments rs))

/-! ### Bounds -/

def readCapturing : Reader CapturingArg := fun s =>
  match skip s with
  | '\'' :: _ => map .lifetime readLifetime s
  | _ => map .param readIdent s

def readBinder : Reader (List Lifetime) := fun s =>
  if word s = ['f', 'o', 'r'] then after ['<'] (commaList ['>'] readLifetime) (behindWord s)
  else some ([], s)

def readModifier : Reader Modifier := fun s =>
  match symbol ['?'] s with
  | some s => some (.maybe, s)
  | none =>
    match symbol ['~'] s with
    | some s =>
      if word s = ['c', 'o', 'n', 's', 't'] then some (.maybeConst, behindWord s) else none
    | none => some (.none, s)

def readBound : Reader Bound := fun s =>
  match skip s with
  | '\'' :: _ => map .lifetime readLifetime s
  | s =>
    if word s = ['u', 's', 'e'] then
      map .use (after ['<'] (commaList ['>'] readCapturing)) (behindWord s)
    else
      map (fun p => .trait p.1 p.2.1 p.2.2) (pair readBinder (pair readModifier (readPath rs))) s

def readBounds (plus : Bool) : Reader (List Bound) :=
  if plus then sepBy ['+'] (readBound rs) else map (fun b => [b]) (readBound rs)

/-! ### Arguments -/

/-- The name of an associated item, where a type is one. -/
def constraintName : Ty → Option (Ident × Option Args)
  | .path (.mk false [.mk name args]) => some (name, args)
  | _ => none

def readTerm : Reader Arg := fun s =>
  match symbol ['\''] s with
  | some s => map .const readChar s
  | none =>
    match readConst s with
    | some r => r.map fun r => (.const r.1, r.2)
    | none => map .type (rs.type true) s

/-- What an argument that began as a type turns out to be. -/
def readConstraint (t : Ty) : Reader Arg := fun s =>
  match symbol ['='] s with
  | some s => (constraintName t).bind fun name => map (.equal name.1 name.2) (readTerm rs) s
  | none =>
    match symbol [':'] s with
    | some s =>
      (constraintName t).bind fun name => map (.bounded name.1 name.2) (readBounds rs true) s
    | none => some (.type t, s)

def readArg : Reader Arg := fun s =>
  match symbol ['\''] s with
  | some rest =>
    match readChar rest with
    | some r => some (.const r.1, r.2)
    | none => map .lifetime readLifetime s
  | none =>
    match readConst s with
    | some r => r.map fun r => (.const r.1, r.2)
    | none => (rs.type true s).bind fun r => readConstraint rs r.1 r.2

def readArgs : Reader Args := fun s =>
  match symbol ['<'] s with
  | some s => map .angle (commaList ['>'] (readArg rs)) s
  | none =>
    match symbol ['('] s with
    | some s =>
      match symbol ['.', '.'] s with
      | some s => (symbol [')'] s).map fun s => (.returnType, s)
      | none =>
        map (fun p => .parenthesized p.1 p.2)
          (pair (commaList [')'] (rs.type true)) (whenSymbol ['-', '>'] (rs.type false))) s
    | none => none

/-! ### The forms of a type -/

/-- What follows the first type behind a parenthesis. -/
def readTupleRest (t : Ty) : Reader Ty := fun s =>
  match symbol [')'] s with
  | some s => some (.paren t, s)
  | none => after [','] (map (fun ts => .tuple (t :: ts)) (commaList [')'] (rs.type true))) s

def readTuple : Reader Ty := fun s =>
  match symbol [')'] s with
  | some s => some (.tuple [], s)
  | none => (rs.type true s).bind fun r => readTupleRest rs r.1 r.2

def readBracketsRest (t : Ty) : Reader Ty := fun s =>
  match symbol [']'] s with
  | some s => some (.slice t, s)
  | none => after [';'] (map (.array t) (before readExpr [']'])) s

def readBrackets : Reader Ty := fun s =>
  (rs.type true s).bind fun r => readBracketsRest r.1 r.2

def readMutability : Reader Bool := fun s =>
  if word s = ['m', 'u', 't'] then some (true, behindWord s)
  else if word s = ['c', 'o', 'n', 's', 't'] then some (false, behindWord s)
  else none

def readPointer : Reader Ty := map (fun p => .pointer p.1 p.2) (pair readMutability (rs.type false))

def readOptLifetime : Reader (Option Lifetime) := fun s =>
  match skip s with
  | '\'' :: _ => map some readLifetime s
  | _ => some (none, s)

/-- Whether a word stands here. -/
def readFlag (w : List Char) : Reader Bool := fun s =>
  if word s = w then some (true, behindWord s) else some (false, s)

def readReference : Reader Ty :=
  map (fun p => .reference p.1 p.2.1 p.2.2)
    (pair readOptLifetime (pair (readFlag ['m', 'u', 't']) (rs.type false)))

def readAs : Reader (Option TypePath) := fun s =>
  if word s = ['a', 's'] then map some (readPath rs) (skip (behindWord s)) else some (none, s)

def readQualified : Reader Ty :=
  map (fun p => .qualified p.1.1 p.1.2 p.2)
    (pair (before (pair (rs.type true) (readAs rs)) ['>']) (after [':', ':'] (readSegments rs)))

def abiC : AbiName := ⟨['C'], rfl⟩

/-- The ABI is C where none is given. -/
def readAbi : Reader (Option AbiName) := fun s =>
  if word s = ['e', 'x', 't', 'e', 'r', 'n'] then
    match symbol ['"'] (behindWord s) with
    | some s =>
      if h : (s.takeWhile (· != '"')).contains '"' = false then
        (symbol ['"'] (s.dropWhile (· != '"'))).map fun rest =>
          (some ⟨s.takeWhile (· != '"'), h⟩, rest)
      else none
    | none => some (some abiC, behindWord s)
  else some (none, s)

def readInput : Reader (Option Ty) := fun s =>
  match symbol ['.', '.', '.'] s with
  | some s => some (none, s)
  | none => map some (rs.type true) s

def readInputs : Reader (List (Option Ty)) := fun s =>
  if word s = ['f', 'n'] then after ['('] (commaList [')'] (readInput rs)) (behindWord s) else none

def readQualifiers : Reader Qualifiers :=
  map (fun p => ⟨p.1.1, p.1.2, p.2.1, p.2.2⟩)
    (pair (pair (readFlag ['c', 'o', 'n', 's', 't']) (readFlag ['a', 's', 'y', 'n', 'c']))
      (pair (readFlag ['u', 'n', 's', 'a', 'f', 'e']) readAbi))

def readFunction : Reader Ty :=
  map (fun p => .function p.1.1 p.1.2 p.2.1 p.2.2)
    (pair (pair readBinder readQualifiers)
      (pair (readInputs rs) (whenSymbol ['-', '>'] (rs.type false))))

def functionWords : List (List Char) :=
  [['f', 'o', 'r'], ['c', 'o', 'n', 's', 't'], ['a', 's', 'y', 'n', 'c'],
    ['u', 'n', 's', 'a', 'f', 'e'], ['e', 'x', 't', 'e', 'r', 'n'], ['f', 'n']]

def readWords (plus : Bool) : Reader Ty := fun s =>
  if word s = ['_'] then some (.infer, behindWord s)
  else if word s = ['d', 'y', 'n'] then map .traitObject (readBounds rs plus) (behindWord s)
  else if word s = ['i', 'm', 'p', 'l'] then map .implTrait (readBounds rs plus) (behindWord s)
  else if functionWords.contains (word s) then readFunction rs s
  else map .path (readPath rs) s

def readType (plus : Bool) : Reader Ty := fun s =>
  match skip s with
  | '(' :: s => readTuple rs s
  | '[' :: s => readBrackets rs s
  | '*' :: s => readPointer rs s
  | '&' :: s => readReference rs s
  | '<' :: s => readQualified rs s
  | '!' :: s => some (.never, s)
  | s => readWords rs plus s

end

/-- The readers for types of some depth. -/
def readers : Nat → Readers
  | 0 => ⟨fun _ _ => none, fun _ => none⟩
  | n + 1 => ⟨readType (readers n), readArgs (readers n)⟩

/-- Parse a whole text. A type is never deeper than its text is long. -/
def parse (s : List Char) : Option Ty :=
  match (readers (s.length + 1)).type true s with
  | some (t, []) => some t
  | _ => none

end TypeSyntax
