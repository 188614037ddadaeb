import Mathlib.Data.List.Basic

/-!
# The language of format strings

The grammar of `std::fmt`, as syntax trees with the text they are written as, and the numbering
of arguments by the compiler: which argument each placeholder displays, and which arguments it
takes a width or a precision from.
-/

namespace Format

set_option autoImplicit false

def isWhitespace (c : Char) : Bool :=
  c.toNat == 32 || (9 ≤ c.toNat && c.toNat ≤ 13) || c.toNat == 0x85 || c.toNat == 0xa0 ||
    c.toNat == 0x1680 || (0x2000 ≤ c.toNat && c.toNat ≤ 0x200a) || c.toNat == 0x2028 ||
    c.toNat == 0x2029 || c.toNat == 0x202f || c.toNat == 0x205f || c.toNat == 0x3000

/-- The tables behind `char::is_alphabetic` and `char::is_alphanumeric`, and those of the
characters that an identifier starts and goes on with. -/
structure Unicode where
  isAlphabetic : Char → Bool
  isAlphanumeric : Char → Bool
  isXidStart : Char → Bool
  isXidContinue : Char → Bool
  alphanumeric_of_alphabetic : ∀ c, isAlphabetic c = true → isAlphanumeric c = true
  alphabetic_ascii : ∀ c, c.toNat < 128 → isAlphabetic c = c.isAlpha
  alphanumeric_ascii : ∀ c, c.toNat < 128 → isAlphanumeric c = c.isAlphanum
  alphanumeric_of_whitespace : ∀ c, isWhitespace c = true → isAlphanumeric c = false
  xidStart_ascii : ∀ c, c.toNat < 128 → isXidStart c = c.isAlpha
  xidContinue_ascii : ∀ c, c.toNat < 128 → isXidContinue c = (c.isAlphanum || c == '_')

abbrev Name := List Char

structure IsIdent (u : Unicode) (s : Name) : Prop where
  start : ∃ c rest, s = c :: rest ∧ (u.isXidStart c = true ∨ c = '_')
  continues : ∀ c ∈ s, u.isXidContinue c = true
  ne_underscore : s ≠ ['_']

theorem toNat_of_isDigit {c : Char} (h : c.isDigit = true) : 48 ≤ c.toNat ∧ c.toNat ≤ 57 := by
  simp only [Char.isDigit, Bool.and_eq_true, decide_eq_true_eq] at h
  exact h

theorem not_isAlpha_of_isDigit {c : Char} (h : c.isDigit = true) : c.isAlpha = false := by
  obtain ⟨hle, hge⟩ := toNat_of_isDigit h
  have hval : c.val.toNat = c.toNat := rfl
  delta Char.isAlpha Char.isUpper Char.isLower
  simp only [UInt32.le_iff_toNat_le, hval]
  simp
  omega

namespace IsIdent
variable {u : Unicode} {s : Name}

theorem not_mem (h : IsIdent u s) {c : Char}
    (hc : c.toNat < 128 ∧ (c.isAlphanum || c == '_') = false) : c ∉ s := by
  intro hmem
  have hcontinue := h.continues c hmem
  rw [u.xidContinue_ascii c hc.1, hc.2] at hcontinue
  simp at hcontinue

theorem no_brace (h : IsIdent u s) : '{' ∉ s := h.not_mem (by decide)

theorem not_isDigit (h : IsIdent u s) {c : Char} {rest : List Char} (hs : s = c :: rest) :
    c.isDigit = false := by
  obtain ⟨c', rest', hcons, hstart⟩ := h.start
  obtain ⟨rfl, -⟩ := List.cons.inj (hs.symm.trans hcons)
  rw [← Bool.not_eq_true]
  intro hdigit
  obtain ⟨hle, hge⟩ := toNat_of_isDigit hdigit
  rcases hstart with hstart | rfl
  · rw [u.xidStart_ascii c (by omega), not_isAlpha_of_isDigit hdigit] at hstart
    simp at hstart
  · simp at hge

end IsIdent

/-- The tables, as far as ASCII goes. -/
def Unicode.ascii : Unicode where
  isAlphabetic := Char.isAlpha
  isAlphanumeric := Char.isAlphanum
  isXidStart := Char.isAlpha
  isXidContinue c := c.isAlphanum || c == '_'
  alphanumeric_of_alphabetic c h := by simp [Char.isAlphanum, h]
  alphabetic_ascii _ _ := rfl
  alphanumeric_ascii _ _ := rfl
  alphanumeric_of_whitespace c h := by
    have hval : c.val.toNat = c.toNat := rfl
    simp only [isWhitespace, Bool.or_eq_true, Bool.and_eq_true, beq_iff_eq,
      decide_eq_true_eq] at h
    rw [← Bool.not_eq_true]
    delta Char.isAlphanum Char.isAlpha Char.isUpper Char.isLower Char.isDigit
    simp only [Bool.or_eq_true, Bool.and_eq_true, decide_eq_true_eq, UInt32.le_iff_toNat_le,
      ge_iff_le, hval]
    change ¬ (((65 ≤ c.toNat ∧ c.toNat ≤ 90) ∨ (97 ≤ c.toNat ∧ c.toNat ≤ 122)) ∨
      (48 ≤ c.toNat ∧ c.toNat ≤ 57))
    omega
  xidStart_ascii _ _ := rfl
  xidContinue_ascii _ _ := rfl

structure Integer where
  digits : List Char
  ne_nil : digits ≠ []
  isDigit : ∀ c ∈ digits, c.isDigit = true

def digitsVal (digits : List Char) : Nat := digits.foldl (fun n c => 10 * n + (c.toNat - 48)) 0

def Integer.val (n : Integer) : Nat := digitsVal n.digits

inductive Align where
  | left
  | center
  | right

inductive Sign where
  | plus
  | minus

inductive Parameter where
  | index (n : Integer)
  | name (s : Name)

inductive Count where
  | integer (n : Integer)
  | parameter (p : Parameter)

inductive Precision where
  | count (c : Count)
  | star

/-- The types of a format: `lowerDebug` and `upperDebug` are `x?` and `X?`. -/
inductive FormatType where
  | display
  | debug
  | lowerDebug
  | upperDebug
  | octal
  | lowerHex
  | upperHex
  | pointer
  | binary
  | lowerExp
  | upperExp
deriving DecidableEq

/-- The traits of `std::fmt`. -/
inductive Trait where
  | display
  | debug
  | octal
  | lowerHex
  | upperHex
  | pointer
  | binary
  | lowerExp
  | upperExp
deriving DecidableEq

def FormatType.trait : FormatType → Trait
  | display => .display
  | debug => .debug
  | lowerDebug => .debug
  | upperDebug => .debug
  | octal => .octal
  | lowerHex => .lowerHex
  | upperHex => .upperHex
  | pointer => .pointer
  | binary => .binary
  | lowerExp => .lowerExp
  | upperExp => .upperExp

/-- `align` goes with a fill character or without one. -/
structure FormatSpec where
  align : Option (Option Char × Align)
  sign : Option Sign
  alternate : Bool
  zero : Bool
  width : Option Count
  precision : Option Precision
  type : FormatType

structure Placeholder where
  argument : Option Parameter
  spec : Option FormatSpec
  trailing : List Char
  whitespace : ∀ c ∈ trailing, isWhitespace c = true

inductive Piece where
  | text (c : Char)
  | placeholder (p : Placeholder)

abbrev FormatString := List Piece

/-! ## The text -/

def Align.char : Align → Char
  | left => '<'
  | center => '^'
  | right => '>'

def Sign.char : Sign → Char
  | plus => '+'
  | minus => '-'

def Parameter.chars : Parameter → List Char
  | index n => n.digits
  | name s => s

def Count.chars : Count → List Char
  | integer n => n.digits
  | parameter p => p.chars ++ ['$']

def Precision.chars : Precision → List Char
  | count c => '.' :: c.chars
  | star => ['.', '*']

def FormatType.chars : FormatType → List Char
  | display => []
  | debug => ['?']
  | lowerDebug => ['x', '?']
  | upperDebug => ['X', '?']
  | octal => ['o']
  | lowerHex => ['x']
  | upperHex => ['X']
  | pointer => ['p']
  | binary => ['b']
  | lowerExp => ['e']
  | upperExp => ['E']

namespace FormatSpec

def alignChars (s : FormatSpec) : List Char :=
  match s.align with
  | none => []
  | some (fill, align) => fill.toList ++ [align.char]

def flagChars (s : FormatSpec) : List Char :=
  (s.sign.map Sign.char).toList ++ (if s.alternate then ['#'] else []) ++
    if s.zero then ['0'] else []

def widthChars (s : FormatSpec) : List Char := (s.width.map Count.chars).getD []

def precisionChars (s : FormatSpec) : List Char := (s.precision.map Precision.chars).getD []

def chars (s : FormatSpec) : List Char :=
  s.alignChars ++ (s.flagChars ++ (s.widthChars ++ (s.precisionChars ++ s.type.chars)))

end FormatSpec

namespace Placeholder

def argumentChars (p : Placeholder) : List Char := (p.argument.map Parameter.chars).getD []

def specChars (p : Placeholder) : List Char :=
  match p.spec with
  | none => []
  | some s => ':' :: s.chars

/-- What stands after the opening brace. -/
def body (p : Placeholder) : List Char :=
  p.argumentChars ++ (p.specChars ++ (p.trailing ++ ['}']))

end Placeholder

/-- The braces of the text are doubled. -/
def Piece.chars : Piece → List Char
  | text c => if c = '{' ∨ c = '}' then [c, c] else [c]
  | placeholder p => '{' :: p.body

def render (s : FormatString) : List Char := s.flatMap Piece.chars

/-! ## The arguments of a placeholder -/

inductive Slot where
  | index (n : Nat)
  | name (s : Name)
deriving DecidableEq

def Parameter.slot : Parameter → Slot
  | index n => .index n.val
  | name s => .name s

/-- What a format string does with an argument: display it, or take a width or a precision
from it. -/
inductive Use where
  | display (slot : Slot) (type : FormatType)
  | measure (slot : Slot)

def Use.slot : Use → Slot
  | display slot _ => slot
  | measure slot => slot

def Count.uses : Count → List Use
  | integer _ => []
  | parameter p => [.measure p.slot]

def Placeholder.type (p : Placeholder) : FormatType := (p.spec.map FormatSpec.type).getD .display

def Placeholder.width (p : Placeholder) : Option Count := p.spec.bind FormatSpec.width

def Placeholder.precision (p : Placeholder) : Option Precision := p.spec.bind FormatSpec.precision

/-- The uses of a placeholder, when `next` is the index of the next argument that is not given
explicitly. A star takes an argument before the value does. -/
def Placeholder.uses (next : Nat) (p : Placeholder) : Nat × List Use :=
  let widths := (p.width.map Count.uses).getD []
  let (next, precisions) :=
    match p.precision with
    | none => (next, [])
    | some (.count c) => (next, c.uses)
    | some .star => (next + 1, [.measure (.index next)])
  match p.argument with
  | some a => (next, widths ++ precisions ++ [.display a.slot p.type])
  | none => (next + 1, widths ++ precisions ++ [.display (.index next) p.type])

def usesFrom : Nat → FormatString → List Use
  | _, [] => []
  | next, .text _ :: rest => usesFrom next rest
  | next, .placeholder p :: rest => (p.uses next).2 ++ usesFrom (p.uses next).1 rest

def uses (s : FormatString) : List Use := usesFrom 0 s

def placeholders : FormatString → List Placeholder
  | [] => []
  | .text _ :: rest => placeholders rest
  | .placeholder p :: rest => p :: placeholders rest

theorem exists_uses {p : Placeholder} {s : FormatString} (hp : p ∈ placeholders s) (next : Nat) :
    ∃ n, ∀ use ∈ (p.uses n).2, use ∈ usesFrom next s := by
  induction s generalizing next with
  | nil => simp [placeholders] at hp
  | cons piece s ih =>
    cases piece with
    | text c => exact ih hp next
    | placeholder q =>
      rcases List.mem_cons.mp hp with rfl | hmem
      · exact ⟨next, fun use huse => List.mem_append_left _ huse⟩
      · obtain ⟨n, hn⟩ := ih hmem (q.uses next).1
        exact ⟨n, fun use huse => List.mem_append_right _ (hn use huse)⟩

theorem Placeholder.mem_uses (p : Placeholder) (n : Nat) :
    (∀ x, p.argument = some x → .display x.slot p.type ∈ (p.uses n).2) ∧
      (∀ c, p.width = some c → ∀ use ∈ c.uses, use ∈ (p.uses n).2) ∧
      ∀ c, p.precision = some (.count c) → ∀ use ∈ c.uses, use ∈ (p.uses n).2 := by
  refine ⟨fun x hx => ?_, fun c hc use huse => ?_, fun c hc use huse => ?_⟩
  · simp only [Placeholder.uses, hx]
    exact List.mem_append_right _ (List.mem_singleton_self _)
  · have hmem : use ∈ (p.width.map Count.uses).getD [] := by simpa [hc] using huse
    unfold Placeholder.uses
    cases p.argument <;>
      exact List.mem_append_left _ (List.mem_append_left _ hmem)
  · unfold Placeholder.uses
    rw [hc]
    cases p.argument <;>
      exact List.mem_append_left _ (List.mem_append_right _ huse)

end Format
