import Mathlib.Logic.Function.Basic
import Rustyfill.Format.Grammar
import Rustyfill.Runtime

/-!
# `try_format_args!`

`rustyfill-macros/src/try_format_args.rs`: the scanner of the format string, the splitting of the
macro's input into arguments, and the choice of a wrapper for each of them.
-/

namespace Rustyfill.TryFormatArgs

open Format

set_option autoImplicit false

/-- The wrapper types, as `TryDebugWrapper` and so on. -/
inductive Wrapper where
  | debug
  | display
  | lowerHex
  | upperHex
  | lowerExp
  | upperExp
deriving DecidableEq

inductive WrapKind where
  | debug
  | display
  | lowerHex
  | upperHex
  | lowerExp
  | upperExp
  | measure
  | multi
deriving DecidableEq

def WrapKind.merge (a b : WrapKind) : WrapKind :=
  if a = b then a
  else if a = .measure then b
  else if b = .measure then a
  else .multi

/-! ## The format string -/

inductive ArgKind where
  | positional (idx : Nat)
  | named (name : Name)
  | auto

/-- The maps are only looked up. -/
structure FormatAnalysis where
  positional : Nat → Option WrapKind
  named : Name → Option WrapKind
  autoKinds : List WrapKind

namespace FormatAnalysis

def empty : FormatAnalysis := ⟨fun _ => none, fun _ => none, []⟩

/-- The new entry of a map. -/
def merged (old : Option WrapKind) (new : WrapKind) : WrapKind :=
  match old with
  | some existing => existing.merge new
  | none => new

def mergeKindP (a : FormatAnalysis) (key : Nat) (new : WrapKind) : FormatAnalysis :=
  { a with positional := Function.update a.positional key (some (merged (a.positional key) new)) }

def mergeKindN (a : FormatAnalysis) (key : Name) (new : WrapKind) : FormatAnalysis :=
  { a with named := Function.update a.named key (some (merged (a.named key) new)) }

def pushAuto (a : FormatAnalysis) (kind : WrapKind) : FormatAnalysis :=
  { a with autoKinds := a.autoKinds ++ [kind] }

end FormatAnalysis

section Scanner
variable (u : Unicode)

def isIdentChar (c : Char) : Bool := u.isAlphanumeric c || c == '_'

/-- `num.parse::<usize>().unwrap_or(0)`. -/
def parseUsize (num : List Char) : Nat := if digitsVal num ≤ usizeMax then digitsVal num else 0

def parseArgSpec (chars : List Char) : ArgKind × List Char :=
  match chars with
  | [] => (.auto, [])
  | c :: _ =>
    if c = ':' ∨ c = '}' then (.auto, chars)
    else if c.isDigit then
      (.positional (parseUsize (chars.takeWhile Char.isDigit)), chars.dropWhile Char.isDigit)
    else
      let name := chars.takeWhile (isIdentChar u)
      if name.isEmpty then (.auto, chars)
      else (.named name, chars.dropWhile (isIdentChar u))

def parseWidthOrPrecision (a : FormatAnalysis) (chars : List Char) : FormatAnalysis × List Char :=
  match chars with
  | [] => (a, [])
  | c :: rest =>
    if c = '*' then (a, rest)
    else if c.isDigit then
      match chars.dropWhile Char.isDigit with
      | '$' :: rest =>
        (a.mergeKindP (parseUsize (chars.takeWhile Char.isDigit)) .measure, rest)
      | rest => (a, rest)
    else (a, chars)

/-- The characters that the loop over alignment and flags steps over. -/
def isFlag (c : Char) : Bool :=
  c == '<' || c == '>' || c == '^' || c == '=' || c == '+' || c == '-' || c == ' ' || c == '#' ||
    c == '0'

/-- The end of `parse_format_spec`: a format character, unless the placeholder is at its end. -/
def formatChar (a : FormatAnalysis) (chars : List Char) :
    Option Char × FormatAnalysis × List Char :=
  match chars with
  | [] => (none, a, [])
  | c :: rest => if c = '}' then (none, a, chars) else (some c, a, rest)

/-- The part of `parse_format_spec` after width and precision. -/
def parseIdent (a : FormatAnalysis) (chars : List Char) :
    Option Char × FormatAnalysis × List Char :=
  match chars with
  | [] => (none, a, [])
  | c :: _ =>
    if u.isAlphabetic c || c == '_' then
      let ident := chars.takeWhile (isIdentChar u)
      match chars.dropWhile (isIdentChar u) with
      | '$' :: rest => formatChar (a.mergeKindN ident .measure) rest
      | rest => (ident.head?, a, rest)
    else formatChar a chars

/-- A dot, and what follows it. -/
def parsePrecision (a : FormatAnalysis) (chars : List Char) : FormatAnalysis × List Char :=
  match chars with
  | '.' :: rest => parseWidthOrPrecision a rest
  | _ => (a, chars)

def parseFormatSpec (a : FormatAnalysis) (chars : List Char) :
    Option Char × FormatAnalysis × List Char :=
  let chars := chars.dropWhile isFlag
  let (a, chars) := parseWidthOrPrecision a chars
  let (a, chars) := parsePrecision a chars
  parseIdent u a chars

def wrapOfChar : Option Char → Wrapper
  | some '?' => .debug
  | some 'x' => .lowerHex
  | some 'X' => .upperHex
  | some 'e' => .lowerExp
  | some 'E' => .upperExp
  | _ => .display

def Wrapper.kind : Wrapper → WrapKind
  | debug => .debug
  | display => .display
  | lowerHex => .lowerHex
  | upperHex => .upperHex
  | lowerExp => .lowerExp
  | upperExp => .upperExp

def record (a : FormatAnalysis) (kind : ArgKind) (wrap : WrapKind) : FormatAnalysis :=
  match kind with
  | .positional idx => a.mergeKindP idx wrap
  | .named name => a.mergeKindN name wrap
  | .auto => a.pushAuto wrap

/-- A turn of the loop of `analyze_format_string`, after a brace that is not doubled. -/
def analyzePlaceholder (a : FormatAnalysis) (chars : List Char) : FormatAnalysis × List Char :=
  let (kind, chars) := parseArgSpec u chars
  let (fmtChar, a, chars) :=
    match chars with
    | ':' :: rest => parseFormatSpec u a rest
    | _ => (none, a, chars)
  (record a kind (wrapOfChar fmtChar).kind, chars.drop 1)

/-- Every turn of the loop takes a character, so as many turns as there are characters do. -/
def analyzeLoop : Nat → FormatAnalysis → List Char → FormatAnalysis
  | 0, a, _ => a
  | _ + 1, a, [] => a
  | n + 1, a, c :: rest =>
    if c ≠ '{' then analyzeLoop n a rest
    else
      match rest with
      | '{' :: rest => analyzeLoop n a rest
      | _ => analyzeLoop n (analyzePlaceholder u a rest).1 (analyzePlaceholder u a rest).2

def analyzeFormatString (s : List Char) : FormatAnalysis := analyzeLoop u s.length .empty s

end Scanner

/-! ## The arguments -/

/-- A token tree. What is inside a group is not looked at. -/
inductive TokenTree where
  | group (stream : String)
  | punct (c : Char)
  | ident (name : Name)
  | strLit (value : List Char)
  | literal (text : String)
deriving DecidableEq

inductive ParseError where
  | expectedFormatString
  | expectedStringLiteral
deriving DecidableEq

/-- A named binding has the text of its identifier for a name. -/
structure Arg where
  name : Option Name
  expr : List TokenTree
deriving DecidableEq

structure TryFormatArgsInput where
  formatString : List Char
  args : List Arg

def collectArgTrees (depth : Nat) : List TokenTree → List TokenTree × List TokenTree
  | [] => ([], [])
  | .group s :: rest =>
    let (collected, rest) := collectArgTrees (depth + 1) rest
    (.group s :: collected, rest)
  | t :: rest =>
    if t = .punct ',' ∧ depth = 0 then ([], rest)
    else
      let (collected, rest) := collectArgTrees depth rest
      (t :: collected, rest)

/-- The loop of `parse_arg`: whether an equals sign is found, and the first identifier. -/
def scanArg (depth : Nat) (firstIdent : Option Name) : List TokenTree → Bool × Option Name
  | [] => (false, firstIdent)
  | .group _ :: rest => scanArg (depth + 1) firstIdent rest
  | .ident id :: rest =>
    scanArg depth (if firstIdent.isNone && depth == 0 then some id else firstIdent) rest
  | t :: rest =>
    if t = .punct '=' ∧ depth = 0 then (true, firstIdent) else scanArg depth firstIdent rest

def splitAfterEq (pastEq : Bool) : List TokenTree → List TokenTree
  | [] => []
  | t :: rest =>
    if t = .punct '=' then splitAfterEq true rest
    else if pastEq then t :: splitAfterEq pastEq rest
    else splitAfterEq pastEq rest

def parseArg (tokens : List TokenTree) : Arg :=
  match scanArg 0 none tokens with
  | (true, some name) => ⟨some name, splitAfterEq false tokens⟩
  | _ => ⟨none, tokens⟩

/-- The loop of `parse` over the arguments, at most one turn for each token. -/
def parseArgs : Nat → List TokenTree → List Arg
  | 0, _ => []
  | _ + 1, [] => []
  | n + 1, t :: rest =>
    if t = .punct ',' then parseArgs n rest
    else
      let (trees, rest) := collectArgTrees 0 (t :: rest)
      if trees.isEmpty then [] else parseArg trees :: parseArgs n rest

def parse : List TokenTree → Except ParseError TryFormatArgsInput
  | [] => .error .expectedFormatString
  | .strLit value :: rest => .ok ⟨value, parseArgs rest.length rest⟩
  | _ :: _ => .error .expectedStringLiteral

/-! ## The output -/

/-- An argument of the `format_args!` that is emitted: `Wrapper::new(&(expr))`, or the tokens as
they are. -/
structure Emitted where
  name : Option Name
  wrapper : Option Wrapper
  expr : List TokenTree

def WrapKind.wrapper : WrapKind → Option Wrapper
  | debug => some .debug
  | display => some .display
  | multi => some .display
  | lowerHex => some .lowerHex
  | upperHex => some .upperHex
  | lowerExp => some .lowerExp
  | upperExp => some .upperExp
  | measure => none

/-- The kind of the arguments that have no name, if a placeholder does not give its argument. -/
def autoDefault (autoKinds : List WrapKind) : Option WrapKind :=
  match autoKinds with
  | [] => none
  | first :: _ => if autoKinds.all (· == first) then some first else some .display

def argKind (a : FormatAnalysis) (i : Nat) (name : Option Name) : Option WrapKind :=
  match name with
  | some name => a.named name
  | none =>
    match autoDefault a.autoKinds with
    | some kind => some kind
    | none => a.positional i

/-- `Ident::new` does not take a raw identifier. -/
def identNew (name : Name) : Except Fault Name :=
  if ['r', '#'] <+: name then .error (.expect "raw identifier") else .ok name

def emitArg (a : FormatAnalysis) (i : Nat) (arg : Arg) : Except Fault Emitted := do
  let wrapper := (argKind a i arg.name).bind WrapKind.wrapper
  match arg.name with
  | some name => do
    let name ← identNew name
    .ok ⟨some name, wrapper, arg.expr⟩
  | none => .ok ⟨none, wrapper, arg.expr⟩

def emitArgs (a : FormatAnalysis) : Nat → List Arg → Except Fault (List Emitted)
  | _, [] => .ok []
  | i, arg :: rest => do
    let first ← emitArg a i arg
    let others ← emitArgs a (i + 1) rest
    .ok (first :: others)

def emit (u : Unicode) (input : TryFormatArgsInput) : Except Fault (List Emitted) :=
  emitArgs (analyzeFormatString u input.formatString) 0 input.args

/-- `try_format_args`: a compile error, a panic, or the arguments that are emitted. -/
def tryFormatArgs (u : Unicode) (tokens : List TokenTree) :
    Except ParseError (Except Fault (List Emitted)) :=
  (parse tokens).map (emit u)

end Rustyfill.TryFormatArgs
