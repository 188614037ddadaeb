import Mathlib.Data.List.TakeWhile
import Rustyfill.Format.TryFormatArgs

/-!
# What the scanner makes of a placeholder

The scanner takes the characters after the colon for other parts of the specification than the
grammar does: a fill character that is no flag for the type, the zero of a width `0$` for a flag,
the dot after a width `name$` for the type, and `x?` for `x`. Of an identifier it takes what comes
before the first character that is not alphanumeric. In closed form this is the reading of a
placeholder. Whatever it reads, it leaves the placeholder before its end, so that the next one is
not affected.
-/

namespace Rustyfill.TryFormatArgs

open Format

set_option autoImplicit false

variable {u : Unicode}

/-! ## Characters -/

def IsIdentStart (u : Unicode) (c : Char) : Prop := u.isAlphabetic c = true ∨ c = '_'

/-- An identifier that the scanner takes as a whole. -/
structure PlainName (u : Unicode) (s : Name) : Prop where
  start : ∃ c rest, s = c :: rest ∧ IsIdentStart u c
  isIdentChar : ∀ c ∈ s, isIdentChar u c = true

def isPlain (u : Unicode) (s : Name) : Bool :=
  match s with
  | [] => false
  | c :: _ => (u.isAlphabetic c || c == '_') && s.all (isIdentChar u)

theorem isPlain_iff {s : Name} : isPlain u s = true ↔ PlainName u s := by
  cases s with
  | nil =>
    refine iff_of_false (by simp [isPlain]) ?_
    rintro ⟨⟨c, rest, hnil, -⟩, -⟩
    simp at hnil
  | cons c rest =>
    simp only [isPlain, Bool.and_eq_true, Bool.or_eq_true, beq_iff_eq, List.all_eq_true]
    constructor
    · exact fun h => ⟨⟨c, rest, rfl, h.1⟩, h.2⟩
    · rintro ⟨⟨c', rest', hcons, hstart⟩, hall⟩
      obtain ⟨rfl, rfl⟩ := List.cons.inj hcons
      exact ⟨hstart, hall⟩

theorem isIdentChar_ascii {c : Char} (h : c.toNat < 128) :
    isIdentChar u c = (c.isAlphanum || c == '_') := by
  rw [isIdentChar, u.alphanumeric_ascii c h]

theorem isIdentStart_ascii {c : Char} (h : c.toNat < 128) :
    IsIdentStart u c ↔ c.isAlpha = true ∨ c = '_' := by
  rw [IsIdentStart, u.alphabetic_ascii c h]

theorem not_isIdentStart {c : Char} (h : c.toNat < 128 ∧ c.isAlpha = false ∧ c ≠ '_') :
    ¬ IsIdentStart u c := by
  rw [isIdentStart_ascii h.1, h.2.1]
  simp [h.2.2]

theorem isIdentChar_of_start {c : Char} (h : IsIdentStart u c) : isIdentChar u c = true := by
  rcases h with halpha | rfl
  · rw [isIdentChar, u.alphanumeric_of_alphabetic c halpha]
    rfl
  · simp [isIdentChar]

theorem isFlag_iff {c : Char} : isFlag c = true ↔
    c = '<' ∨ c = '>' ∨ c = '^' ∨ c = '=' ∨ c = '+' ∨ c = '-' ∨ c = ' ' ∨ c = '#' ∨ c = '0' := by
  simp only [isFlag, Bool.or_eq_true, beq_iff_eq, or_assoc]

theorem isFlag_of_isDigit {c : Char} (h : c.isDigit = true) (hflag : isFlag c = true) :
    c = '0' := by
  rcases isFlag_iff.mp hflag with rfl | rfl | rfl | rfl | rfl | rfl | rfl | rfl | rfl <;>
    first
    | rfl
    | simp at h

theorem not_isIdentStart_of_whitespace {c : Char} (h : isWhitespace c = true) :
    ¬ IsIdentStart u c := by
  rintro (halpha | rfl)
  · have hnum := u.alphanumeric_of_whitespace c h
    rw [u.alphanumeric_of_alphabetic c halpha] at hnum
    simp at hnum
  · exact absurd h (by decide)

theorem wrapOfChar_of_whitespace {c : Char} (h : isWhitespace c = true) :
    wrapOfChar (some c) = .display := by
  unfold wrapOfChar
  split
  case h_6 => rfl
  all_goals
    rename_i heq
    obtain rfl := Option.some.inj heq
    exact absurd h (by decide)

theorem not_isDigit_of_whitespace {c : Char} (h : isWhitespace c = true) : c.isDigit = false := by
  rw [← Bool.not_eq_true]
  intro hdigit
  obtain ⟨hle, hge⟩ := toNat_of_isDigit hdigit
  simp only [isWhitespace, Bool.or_eq_true, Bool.and_eq_true, beq_iff_eq, decide_eq_true_eq] at h
  omega

theorem not_isIdentChar_of_whitespace {c : Char} (h : isWhitespace c = true) :
    isIdentChar u c = false := by
  rw [isIdentChar, u.alphanumeric_of_whitespace c h, Bool.false_or, beq_eq_false_iff_ne]
  rintro rfl
  exact absurd h (by decide)

theorem no_brace_of_whitespace {l : List Char} (h : ∀ c ∈ l, isWhitespace c = true) :
    '{' ∉ l := by
  intro hmem
  exact absurd (h _ hmem) (by decide)

theorem no_brace_of_isDigit {l : List Char} (h : ∀ c ∈ l, c.isDigit = true) : '{' ∉ l := by
  intro hmem
  exact absurd (h _ hmem) (by decide)

/-! ## From the type on -/

/-- A scan ends with a format character that stands for `w` and stays in front of the closing
brace. -/
def Scans (res : Option Char × FormatAnalysis × List Char) (w : Wrapper) (a : FormatAnalysis)
    (rest : List Char) : Prop :=
  ∃ o l, res = (o, a, l ++ '}' :: rest) ∧ wrapOfChar o = w ∧ '{' ∉ l

section
variable {a : FormatAnalysis} {trailing rest : List Char}

theorem formatChar_closing (h : ∀ c ∈ trailing, isWhitespace c = true) :
    Scans (formatChar a (trailing ++ '}' :: rest)) .display a rest := by
  cases trailing with
  | nil => exact ⟨none, [], rfl, rfl, by simp⟩
  | cons c l =>
    obtain ⟨hc, hl⟩ := List.forall_mem_cons.mp h
    refine ⟨some c, l, ?_, wrapOfChar_of_whitespace hc, no_brace_of_whitespace hl⟩
    rw [List.cons_append, formatChar, if_neg]
    rintro rfl
    exact absurd hc (by decide)

def typeWrapper (t : FormatType) : Wrapper := wrapOfChar t.chars.head?

theorem formatChar_type (h : ∀ c ∈ trailing, isWhitespace c = true) (t : FormatType) :
    Scans (formatChar a (t.chars ++ (trailing ++ '}' :: rest))) (typeWrapper t) a rest := by
  have hbrace := no_brace_of_whitespace h
  cases t with
  | display => exact formatChar_closing h
  | lowerDebug =>
    refine ⟨some 'x', '?' :: trailing, rfl, rfl, ?_⟩
    simpa using hbrace
  | upperDebug =>
    refine ⟨some 'X', '?' :: trailing, rfl, rfl, ?_⟩
    simpa using hbrace
  | debug | octal | lowerHex | upperHex | pointer | binary | lowerExp | upperExp =>
    exact ⟨_, trailing, rfl, rfl, hbrace⟩

theorem parseIdent_of_not_start {c : Char} {l : List Char} (h : ¬ IsIdentStart u c) :
    parseIdent u a (c :: l) = formatChar a (c :: l) := by
  rw [parseIdent, if_neg]
  rw [IsIdentStart] at h
  simpa using h

theorem parseIdent_letter {x c : Char} {l : List Char} (hx : IsIdentStart u x)
    (hc : isIdentChar u c = false) (hne : c ≠ '$') :
    parseIdent u a (x :: c :: l) = (some x, a, c :: l) := by
  have hcond : (u.isAlphabetic x || x == '_') = true := by
    rw [IsIdentStart] at hx
    simpa using hx
  have hneg : ¬ isIdentChar u c = true := by simp [hc]
  rw [parseIdent, if_pos hcond, List.takeWhile_cons_of_pos (isIdentChar_of_start hx),
    List.dropWhile_cons_of_pos (isIdentChar_of_start hx), List.takeWhile_cons_of_neg hneg,
    List.dropWhile_cons_of_neg hneg]
  split
  · rename_i heq
    exact absurd (List.cons.inj heq).1 hne
  · rfl

theorem parseIdent_name {s : Name} (hs : PlainName u s) (l : List Char) :
    parseIdent u a (s ++ '$' :: l) = formatChar (a.mergeKindN s .measure) l := by
  obtain ⟨c, t, rfl, hc⟩ := hs.start
  have hcond : (u.isAlphabetic c || c == '_') = true := by
    rw [IsIdentStart] at hc
    simpa using hc
  have hdollar : ¬ isIdentChar u '$' = true := by
    rw [isIdentChar_ascii (by decide)]
    decide
  have htake : ((c :: t) ++ '$' :: l).takeWhile (isIdentChar u) = c :: t := by
    rw [List.takeWhile_append_of_pos hs.isIdentChar, List.takeWhile_cons_of_neg hdollar,
      List.append_nil]
  have hdrop : ((c :: t) ++ '$' :: l).dropWhile (isIdentChar u) = '$' :: l := by
    rw [List.dropWhile_append_of_pos hs.isIdentChar, List.dropWhile_cons_of_neg hdollar]
  rw [List.cons_append] at htake hdrop ⊢
  rw [parseIdent, if_pos hcond, htake, hdrop]
  rfl

/-- An identifier that is not taken as a whole: its first character is taken for the type. -/
theorem parseIdent_cut {s : Name} (hs : IsIdent u s) (hcut : ¬ PlainName u s) (l : List Char) :
    ∃ l', '{' ∉ l' ∧ parseIdent u a (s ++ '$' :: l) = (s.head?, a, l' ++ '$' :: l) := by
  obtain ⟨c, t, rfl, -⟩ := hs.start
  have hbrace : ∀ {l' : List Char}, (∀ x ∈ l', x ∈ c :: t) → '{' ∉ l' :=
    fun hsub hmem => hs.no_brace (hsub _ hmem)
  rw [List.cons_append, parseIdent]
  by_cases hstart : IsIdentStart u c
  · have hcond : (u.isAlphabetic c || c == '_') = true := by
      rw [IsIdentStart] at hstart
      simpa using hstart
    have hnotAll : ¬ ∀ x ∈ c :: t, isIdentChar u x = true :=
      fun hall => hcut ⟨⟨c, t, rfl, hstart⟩, hall⟩
    have hdrop : (c :: t).dropWhile (isIdentChar u) ≠ [] :=
      fun hnil => hnotAll (List.dropWhile_eq_nil_iff.mp hnil)
    obtain ⟨d, t', hd⟩ := List.exists_cons_of_ne_nil hdrop
    have hsub : ∀ x ∈ d :: t', x ∈ c :: t := by
      rw [← hd]
      exact fun x hx => (List.dropWhile_sublist _).mem hx
    have hdollar : d ≠ '$' := by
      rintro rfl
      exact hs.not_mem (c := '$') (by decide) (hsub _ (List.mem_cons_self ..))
    have hdrop' : (c :: (t ++ '$' :: l)).dropWhile (isIdentChar u) = d :: (t' ++ '$' :: l) := by
      rw [← List.cons_append, List.dropWhile_append, hd]
      rfl
    have hhead : ((c :: (t ++ '$' :: l)).takeWhile (isIdentChar u)).head? = some c := by
      rw [List.takeWhile_cons_of_pos (isIdentChar_of_start hstart)]
      rfl
    rw [if_pos hcond, hdrop']
    refine ⟨d :: t', hbrace hsub, ?_⟩
    dsimp only
    split
    · rename_i heq
      exact absurd (List.cons.inj heq).1 hdollar
    · rw [hhead]
      rfl
  · have hcond : ¬ (u.isAlphabetic c || c == '_') = true := by
      rw [IsIdentStart] at hstart
      simpa using hstart
    have hclose : c ≠ '}' := by
      rintro rfl
      exact hs.not_mem (c := '}') (by decide) (List.mem_cons_self ..)
    rw [if_neg hcond, formatChar, if_neg hclose]
    exact ⟨t, hbrace fun x hx => List.mem_cons_of_mem _ hx, rfl⟩

/-- A character that can follow a specification. -/
def Closing (c : Char) : Prop := c = '}' ∨ isWhitespace c = true

theorem closing_cons (h : ∀ c ∈ trailing, isWhitespace c = true) (rest : List Char) :
    ∃ c l, trailing ++ '}' :: rest = c :: l ∧ Closing c := by
  cases trailing with
  | nil => exact ⟨'}', rest, rfl, Or.inl rfl⟩
  | cons c l => exact ⟨c, l ++ '}' :: rest, rfl, Or.inr (h c (List.mem_cons_self ..))⟩

namespace Closing
variable {c : Char}

theorem not_start (h : Closing c) : ¬ IsIdentStart u c := by
  rcases h with rfl | h
  · exact not_isIdentStart (by decide)
  · exact not_isIdentStart_of_whitespace h

theorem not_isIdentChar (h : Closing c) : isIdentChar u c = false := by
  rcases h with rfl | h
  · rw [isIdentChar_ascii (by decide)]
    decide
  · exact not_isIdentChar_of_whitespace h

theorem not_isDigit (h : Closing c) : c.isDigit = false := by
  rcases h with rfl | h
  · decide
  · exact not_isDigit_of_whitespace h

theorem ne {x : Char} (h : Closing c) (hx : x ≠ '}' ∧ isWhitespace x = false) : c ≠ x := by
  rintro rfl
  rcases h with rfl | h
  · exact hx.1 rfl
  · rw [hx.2] at h
    simp at h

end Closing

theorem parseIdent_type (h : ∀ c ∈ trailing, isWhitespace c = true) (t : FormatType) :
    Scans (parseIdent u a (t.chars ++ (trailing ++ '}' :: rest))) (typeWrapper t) a rest := by
  have hbrace := no_brace_of_whitespace h
  obtain ⟨c, l, hcons, hclosing⟩ := closing_cons h rest
  have hletter : ∀ x, x.toNat < 128 ∧ (x.isAlpha = true ∨ x = '_') →
      parseIdent u a (x :: (trailing ++ '}' :: rest)) = (some x, a, trailing ++ '}' :: rest) := by
    rintro x ⟨hascii, hx⟩
    rw [hcons]
    exact parseIdent_letter ((isIdentStart_ascii hascii).mpr hx) hclosing.not_isIdentChar
      (hclosing.ne (by decide))
  have hquestion : ∀ x, x.toNat < 128 ∧ (x.isAlpha = true ∨ x = '_') →
      parseIdent u a (x :: '?' :: (trailing ++ '}' :: rest)) =
        (some x, a, '?' :: (trailing ++ '}' :: rest)) := by
    rintro x ⟨hascii, hx⟩
    apply parseIdent_letter ((isIdentStart_ascii hascii).mpr hx) ?_ (by decide)
    rw [isIdentChar_ascii (by decide)]
    decide
  have hquestion' : '{' ∉ '?' :: trailing := by simpa using hbrace
  cases t with
  | display =>
    change Scans (parseIdent u a (trailing ++ '}' :: rest)) _ _ _
    have hclose := @formatChar_closing a trailing rest h
    rw [hcons] at hclose ⊢
    rw [parseIdent_of_not_start hclosing.not_start]
    exact hclose
  | debug =>
    change Scans (parseIdent u a ('?' :: (trailing ++ '}' :: rest))) _ _ _
    rw [parseIdent_of_not_start (not_isIdentStart (by decide))]
    exact formatChar_type h .debug
  | lowerDebug => exact ⟨_, '?' :: trailing, hquestion 'x' (by decide), rfl, hquestion'⟩
  | upperDebug => exact ⟨_, '?' :: trailing, hquestion 'X' (by decide), rfl, hquestion'⟩
  | octal => exact ⟨_, trailing, hletter 'o' (by decide), rfl, hbrace⟩
  | lowerHex => exact ⟨_, trailing, hletter 'x' (by decide), rfl, hbrace⟩
  | upperHex => exact ⟨_, trailing, hletter 'X' (by decide), rfl, hbrace⟩
  | pointer => exact ⟨_, trailing, hletter 'p' (by decide), rfl, hbrace⟩
  | binary => exact ⟨_, trailing, hletter 'b' (by decide), rfl, hbrace⟩
  | lowerExp => exact ⟨_, trailing, hletter 'e' (by decide), rfl, hbrace⟩
  | upperExp => exact ⟨_, trailing, hletter 'E' (by decide), rfl, hbrace⟩

/-! ## Width and precision -/

/-- What the scanner notes of an argument that a width or a precision is taken from. -/
def noteMeasure (a : FormatAnalysis) : Slot → FormatAnalysis
  | .index i => a.mergeKindP i .measure
  | .name s => a.mergeKindN s .measure

theorem parseUsize_val {n : Integer} (h : n.val ≤ usizeMax) : parseUsize n.digits = n.val :=
  if_pos h

theorem parseWidth_other {c : Char} {l : List Char} (hstar : c ≠ '*') (hdigit : c.isDigit = false) :
    parseWidthOrPrecision a (c :: l) = (a, c :: l) := by
  rw [parseWidthOrPrecision, if_neg hstar, if_neg (by simp [hdigit])]

theorem takeWhile_digits {digits : List Char} (hd : ∀ c ∈ digits, c.isDigit = true) {c : Char}
    (l : List Char) (hc : c.isDigit = false) :
    (digits ++ c :: l).takeWhile Char.isDigit = digits ∧
      (digits ++ c :: l).dropWhile Char.isDigit = c :: l := by
  have hneg : ¬ c.isDigit = true := by simp [hc]
  rw [List.takeWhile_append_of_pos hd, List.dropWhile_append_of_pos hd,
    List.takeWhile_cons_of_neg hneg, List.dropWhile_cons_of_neg hneg, List.append_nil]
  exact ⟨rfl, rfl⟩

theorem parseWidth_digits {digits : List Char} (hne : digits ≠ [])
    (hd : ∀ c ∈ digits, c.isDigit = true) {c : Char} {l : List Char} (hc : c.isDigit = false) :
    parseWidthOrPrecision a (digits ++ c :: l) =
      if c = '$' then (a.mergeKindP (parseUsize digits) .measure, l) else (a, c :: l) := by
  obtain ⟨htake, hdrop⟩ := takeWhile_digits hd l hc
  obtain ⟨d, ds, rfl⟩ := List.exists_cons_of_ne_nil hne
  have hdigit := hd d (List.mem_cons_self ..)
  have hstar : d ≠ '*' := by
    rintro rfl
    exact absurd hdigit (by decide)
  rw [List.cons_append] at htake hdrop ⊢
  rw [parseWidthOrPrecision, if_neg hstar, if_pos hdigit, htake, hdrop]
  by_cases hdollar : c = '$'
  · subst hdollar
    rfl
  · rw [if_neg hdollar]
    split
    · rename_i heq
      exact absurd (List.cons.inj heq).1 hdollar
    · rfl

/-- A character that neither a width nor a precision starts with. -/
structure Inert (c : Char) : Prop where
  not_isDigit : c.isDigit = false
  ne_star : c ≠ '*'
  ne_dot : c ≠ '.'
  ne_dollar : c ≠ '$'

theorem Closing.inert {c : Char} (h : Closing c) : Inert c :=
  ⟨h.not_isDigit, h.ne (by decide), h.ne (by decide), h.ne (by decide)⟩

theorem ident_cons {s : Name} (h : IsIdent u s) :
    ∃ c rest, s = c :: rest ∧ Inert c ∧ isFlag c = false ∧ c ≠ ':' ∧ c ≠ '}' := by
  obtain ⟨c, rest, hs, -⟩ := h.start
  have hne : ∀ x : Char, x.toNat < 128 ∧ (x.isAlphanum || x == '_') = false → c ≠ x := by
    rintro x hx rfl
    exact h.not_mem hx (by simp [hs])
  refine ⟨c, rest, hs, ⟨h.not_isDigit hs, hne _ (by decide), hne _ (by decide),
    hne _ (by decide)⟩, ?_, hne _ (by decide), hne _ (by decide)⟩
  rw [← Bool.not_eq_true, isFlag_iff]
  rintro (rfl | rfl | rfl | rfl | rfl | rfl | rfl | rfl | rfl)
  case inr.inr.inr.inr.inr.inr.inr.inr => exact absurd (h.not_isDigit hs) (by decide)
  all_goals exact hne _ (by decide) rfl

theorem type_cons (h : ∀ c ∈ trailing, isWhitespace c = true) (t : FormatType)
    (rest : List Char) : ∃ c l, t.chars ++ (trailing ++ '}' :: rest) = c :: l ∧ Inert c := by
  cases t with
  | display =>
    obtain ⟨c, l, hcons, hclosing⟩ := closing_cons h rest
    exact ⟨c, l, hcons, hclosing.inert⟩
  | _ => exact ⟨_, _, rfl, by constructor <;> decide⟩

theorem parsePrecision_inert {c : Char} {l : List Char} (h : Inert c) :
    parsePrecision a (c :: l) = (a, c :: l) := by
  unfold parsePrecision
  split
  · rename_i heq
    exact absurd (List.cons.inj heq).1 h.ne_dot
  · rfl

/-- The name of a parameter is an identifier, and its index fits the type of an index. -/
def Parameter.Plain (u : Unicode) : Parameter → Prop
  | .index n => n.val ≤ usizeMax
  | .name s => IsIdent u s

def Count.Plain (u : Unicode) : Count → Prop
  | .integer _ => True
  | .parameter p => Parameter.Plain u p

def Precision.Plain (u : Unicode) : Precision → Prop
  | .count c => Count.Plain u c
  | .star => True

/-- The part of `parse_format_spec` after the width. -/
def afterWidth (u : Unicode) (a : FormatAnalysis) (chars : List Char) :
    Option Char × FormatAnalysis × List Char :=
  parseIdent u (parsePrecision a chars).1 (parsePrecision a chars).2

theorem afterWidth_of {a' : FormatAnalysis} {chars chars' : List Char}
    (h : parsePrecision a chars = (a', chars')) :
    afterWidth u a chars = parseIdent u a' chars' := by
  rw [afterWidth, h]

/-- A scan that takes notes of arguments. -/
def Notes (res : Option Char × FormatAnalysis × List Char) (w : Wrapper) (a : FormatAnalysis)
    (rest : List Char) : Prop :=
  ∃ ms : List Slot, Scans res w (ms.foldl noteMeasure a) rest

theorem Notes.cons {m : Slot} {res : Option Char × FormatAnalysis × List Char} {w : Wrapper}
    (h : Notes res w (noteMeasure a m) rest) : Notes res w a rest := by
  obtain ⟨ms, hscans⟩ := h
  exact ⟨m :: ms, hscans⟩

/-- What is read from a width or a precision with a name on: `w` is read after its dollar sign. -/
def readName (u : Unicode) (s : Name) (w : Wrapper) : Wrapper :=
  if isPlain u s then w else wrapOfChar s.head?

theorem name_notes_of {s : Name} (hs : IsIdent u s) {w : Wrapper} {tail l : List Char}
    (htail : tail = l ++ '}' :: rest) (hl : '{' ∉ l)
    (hscans : Scans (formatChar (noteMeasure a (.name s)) tail) w (noteMeasure a (.name s)) rest) :
    Notes (parseIdent u a (s ++ '$' :: tail)) (readName u s w) a rest := by
  unfold readName
  by_cases hplain : isPlain u s = true
  · rw [if_pos hplain, parseIdent_name (isPlain_iff.mp hplain)]
    exact ⟨[.name s], hscans⟩
  · obtain ⟨l', hl', hparse⟩ := @parseIdent_cut u a s hs (fun h => hplain (isPlain_iff.mpr h)) tail
    rw [if_neg hplain, hparse, htail]
    refine ⟨[], s.head?, l' ++ '$' :: l, by simp, rfl, ?_⟩
    simp only [List.mem_append, List.mem_cons, not_or]
    exact ⟨hl', by decide, hl⟩

def readPrecision (u : Unicode) (pr : Option Precision) (t : FormatType) : Wrapper :=
  match pr with
  | some (.count (.parameter (.name s))) => readName u s (typeWrapper t)
  | _ => typeWrapper t

theorem FormatType.no_brace (t : FormatType) : '{' ∉ t.chars := by
  cases t <;> decide

theorem precision_notes (h : ∀ c ∈ trailing, isWhitespace c = true) (pr : Option Precision)
    (hplain : ∀ p, pr = some p → Precision.Plain u p) (t : FormatType) :
    Notes (afterWidth u a
      ((pr.map Precision.chars).getD [] ++ (t.chars ++ (trailing ++ '}' :: rest))))
      (readPrecision u pr t) a rest := by
  obtain ⟨c, l, hcons, hinert⟩ := type_cons h t rest
  have htype := fun a' => @parseIdent_type u a' trailing rest h t
  rcases pr with _ | ⟨⟨n⟩ | ⟨n | s⟩⟩ | _
  · refine ⟨[], ?_⟩
    change Scans (afterWidth u a (t.chars ++ (trailing ++ '}' :: rest))) _ _ _
    rw [hcons, afterWidth_of (parsePrecision_inert hinert), ← hcons]
    exact htype a
  · refine ⟨[], ?_⟩
    change Scans
      (afterWidth u a ('.' :: (n.digits ++ (t.chars ++ (trailing ++ '}' :: rest))))) _ _ _
    have hparse : parsePrecision a ('.' :: (n.digits ++ c :: l)) = (a, c :: l) := by
      rw [parsePrecision, parseWidth_digits n.ne_nil n.isDigit hinert.not_isDigit,
        if_neg hinert.ne_dollar]
    rw [hcons, afterWidth_of hparse, ← hcons]
    exact htype a
  · refine ⟨[.index n.val], ?_⟩
    have hval := parseUsize_val (hplain _ rfl)
    change Scans (afterWidth u a
      ('.' :: ((n.digits ++ ['$']) ++ (t.chars ++ (trailing ++ '}' :: rest))))) _ _ _
    have hparse : ∀ l, parsePrecision a ('.' :: ((n.digits ++ ['$']) ++ l)) =
        (a.mergeKindP n.val .measure, l) := by
      intro l
      rw [List.append_assoc, parsePrecision, List.singleton_append,
        parseWidth_digits n.ne_nil n.isDigit (by decide), if_pos rfl, hval]
    rw [afterWidth_of (hparse _)]
    exact htype _
  · have hname : IsIdent u s := hplain _ rfl
    change Notes (afterWidth u a
      ('.' :: ((s ++ ['$']) ++ (t.chars ++ (trailing ++ '}' :: rest))))) (readName u s _) _ _
    have hparse : ∀ l, parsePrecision a ('.' :: ((s ++ ['$']) ++ l)) = (a, s ++ '$' :: l) := by
      intro l
      obtain ⟨x, t', rfl, hx, -⟩ := ident_cons hname
      rw [List.append_assoc, parsePrecision]
      exact parseWidth_other hx.ne_star hx.not_isDigit
    have hbrace : '{' ∉ t.chars ++ trailing := by
      rw [List.mem_append, not_or]
      exact ⟨FormatType.no_brace t, no_brace_of_whitespace h⟩
    rw [afterWidth_of (hparse _)]
    exact name_notes_of hname (List.append_assoc ..).symm hbrace (formatChar_type h t)
  · refine ⟨[], ?_⟩
    change Scans (afterWidth u a ('.' :: '*' :: (t.chars ++ (trailing ++ '}' :: rest)))) _ _ _
    have hparse : ∀ l, parsePrecision a ('.' :: '*' :: l) = (a, l) := fun _ => rfl
    rw [afterWidth_of (hparse _)]
    exact htype a

theorem parseFormatSpec_eq (chars : List Char) : parseFormatSpec u a chars =
    afterWidth u (parseWidthOrPrecision a (chars.dropWhile isFlag)).1
      (parseWidthOrPrecision a (chars.dropWhile isFlag)).2 := rfl

theorem parseFormatSpec_of {a' : FormatAnalysis} {chars chars' : List Char}
    (h : parseWidthOrPrecision a (chars.dropWhile isFlag) = (a', chars')) :
    parseFormatSpec u a chars = afterWidth u a' chars' := by
  rw [parseFormatSpec_eq, h]

theorem dropWhile_append_of_neg {α : Type} {q : α → Bool} {c : α} (h : ¬ q c = true)
    (l r : List α) :
    (l ++ c :: r).dropWhile q = l.dropWhile q ++ c :: r := by
  rw [List.dropWhile_append]
  split
  · rename_i hempty
    rw [List.isEmpty_iff.mp hempty, List.dropWhile_cons_of_neg h, List.nil_append]
  · rfl

/-- What follows the width. -/
def specTail (s : FormatSpec) (trailing rest : List Char) : List Char :=
  s.precisionChars ++ (s.type.chars ++ (trailing ++ '}' :: rest))

/-- Of what follows the width, the loop over the flags can only take spaces at the end. -/
theorem dropWhile_tail (h : ∀ c ∈ trailing, isWhitespace c = true) (s : FormatSpec)
    (rest : List Char) : ∃ trailing', (∀ c ∈ trailing', isWhitespace c = true) ∧
      (specTail s trailing rest).dropWhile isFlag = specTail s trailing' rest := by
  have hkeep : ∀ c l, isFlag c = false → (c :: l).dropWhile isFlag = c :: l := by
    intro c l hc
    exact List.dropWhile_cons_of_neg (by simp [hc])
  unfold specTail FormatSpec.precisionChars
  rcases s.precision with _ | c | _
  · cases s.type with
    | display =>
      refine ⟨trailing.dropWhile isFlag, ?_, dropWhile_append_of_neg (by decide) trailing rest⟩
      exact fun c hc => h c ((List.dropWhile_sublist _).mem hc)
    | _ => exact ⟨trailing, h, hkeep _ _ (by decide)⟩
  · exact ⟨trailing, h, hkeep '.' _ (by decide)⟩
  · exact ⟨trailing, h, hkeep '.' _ (by decide)⟩

/-! ## The whole specification -/

/-- The width is `0$`, which the scanner takes for a flag and the type `$`. -/
def zeroWidth : Option Count → Bool
  | some (.parameter (.index n)) => n.digits.all isFlag
  | _ => false

/-- What is read after the alignment. After the dollar sign of a name the scanner expects the
type. -/
def readFlags (u : Unicode) (s : FormatSpec) : Wrapper :=
  if zeroWidth s.width then .display
  else
    match s.width with
    | some (.parameter (.name name)) =>
      readName u name (if s.precision.isSome then .display else typeWrapper s.type)
    | _ => readPrecision u s.precision s.type

/-- What is read of a specification: a fill character that is no flag is read as the type. -/
def readSpec (u : Unicode) (s : FormatSpec) : Wrapper :=
  match s.align with
  | some (some fill, _) => if isFlag fill then readFlags u s else wrapOfChar (some fill)
  | _ => readFlags u s

structure PlainSpec (u : Unicode) (s : FormatSpec) : Prop where
  width : ∀ c, s.width = some c → Count.Plain u c
  precision : ∀ p, s.precision = some p → Precision.Plain u p

theorem digitsVal_dropWhile {digits : List Char} (hd : ∀ c ∈ digits, c.isDigit = true) :
    digitsVal (digits.dropWhile isFlag) = digitsVal digits := by
  induction digits with
  | nil => rfl
  | cons c l ih =>
    obtain ⟨hc, hl⟩ := List.forall_mem_cons.mp hd
    by_cases hflag : isFlag c = true
    · obtain rfl := isFlag_of_isDigit hc hflag
      rw [List.dropWhile_cons_of_pos hflag, ih hl]
      rfl
    · rw [List.dropWhile_cons_of_neg hflag]

theorem Parameter.Plain.no_brace {p : Parameter} (h : Parameter.Plain u p) : '{' ∉ p.chars := by
  cases p with
  | index n => exact no_brace_of_isDigit n.isDigit
  | name s => exact IsIdent.no_brace h

theorem Count.Plain.no_brace {c : Count} (h : Count.Plain u c) : '{' ∉ c.chars := by
  cases c with
  | integer n => exact no_brace_of_isDigit n.isDigit
  | parameter p => simpa [Count.chars] using Parameter.Plain.no_brace h

theorem precision_no_brace {pr : Option Precision}
    (hplain : ∀ p, pr = some p → Precision.Plain u p) :
    '{' ∉ (pr.map Precision.chars).getD [] := by
  rcases pr with _ | c | _
  · simp
  · simpa [Precision.chars] using Count.Plain.no_brace (hplain _ rfl)
  · simp [Precision.chars]

theorem tail_cons (h : ∀ c ∈ trailing, isWhitespace c = true) (s : FormatSpec)
    (rest : List Char) : ∃ c l, specTail s trailing rest = c :: l ∧
      c.isDigit = false ∧ c ≠ '*' ∧ c ≠ '$' := by
  unfold specTail FormatSpec.precisionChars
  rcases s.precision with _ | c | _
  · obtain ⟨c, l, hcons, hinert⟩ := type_cons h s.type rest
    exact ⟨c, l, hcons, hinert.not_isDigit, hinert.ne_star, hinert.ne_dollar⟩
  · exact ⟨'.', _, rfl, by decide, by decide, by decide⟩
  · exact ⟨'.', _, rfl, by decide, by decide, by decide⟩

theorem tail_brace (h : ∀ c ∈ trailing, isWhitespace c = true) {s : FormatSpec}
    (hplain : PlainSpec u s) (rest : List Char) :
    ∃ l, specTail s trailing rest = l ++ '}' :: rest ∧ '{' ∉ l := by
  refine ⟨s.precisionChars ++ (s.type.chars ++ trailing), ?_, ?_⟩
  · simp only [specTail, List.append_assoc]
  · simp only [List.mem_append, not_or]
    exact ⟨precision_no_brace hplain.precision, FormatType.no_brace s.type,
      no_brace_of_whitespace h⟩

theorem tail_notes (h : ∀ c ∈ trailing, isWhitespace c = true) {s : FormatSpec}
    (hplain : PlainSpec u s) :
    Notes (afterWidth u a (specTail s trailing rest))
      (readPrecision u s.precision s.type) a rest :=
  precision_notes h s.precision hplain.precision s.type

theorem skip_notes (h : ∀ c ∈ trailing, isWhitespace c = true) {s : FormatSpec}
    (hplain : PlainSpec u s) {chars : List Char}
    (hchars : chars.dropWhile isFlag = (specTail s trailing rest).dropWhile isFlag) :
    Notes (parseFormatSpec u a chars) (readPrecision u s.precision s.type) a
      rest := by
  obtain ⟨trailing', h', hdrop⟩ := dropWhile_tail h s rest
  obtain ⟨c, l, hcons, hdigit, hstar, -⟩ := tail_cons h' s rest
  have hparse : parseWidthOrPrecision a (chars.dropWhile isFlag) =
      (a, specTail s trailing' rest) := by
    rw [hchars, hdrop, hcons]
    exact parseWidth_other hstar hdigit
  rw [parseFormatSpec_of hparse]
  exact tail_notes h' hplain

theorem integer_notes (h : ∀ c ∈ trailing, isWhitespace c = true) {s : FormatSpec}
    (hplain : PlainSpec u s) (n : Integer) :
    Notes (parseFormatSpec u a (n.digits ++ specTail s trailing rest))
      (readPrecision u s.precision s.type) a
      rest := by
  have hchars := @List.dropWhile_append _ isFlag n.digits (specTail s trailing rest)
  by_cases hall : n.digits.dropWhile isFlag = []
  · rw [hall] at hchars
    exact skip_notes h hplain hchars
  · obtain ⟨c, l, hcons, hdigit, -, hdollar⟩ := tail_cons h s rest
    have hdigits : ∀ x ∈ n.digits.dropWhile isFlag, x.isDigit = true :=
      fun x hx => n.isDigit x ((List.dropWhile_sublist _).mem hx)
    have hparse : parseWidthOrPrecision a
        ((n.digits ++ specTail s trailing rest).dropWhile isFlag) =
        (a, specTail s trailing rest) := by
      rw [hchars, if_neg (by rwa [List.isEmpty_iff]), hcons,
        parseWidth_digits hall hdigits hdigit, if_neg hdollar]
    rw [parseFormatSpec_of hparse]
    exact tail_notes h hplain

theorem index_notes (h : ∀ c ∈ trailing, isWhitespace c = true) {s : FormatSpec}
    (hplain : PlainSpec u s) {n : Integer} (hn : n.val ≤ usizeMax) :
    Notes (parseFormatSpec u a (n.digits ++ '$' :: specTail s trailing rest))
      (if n.digits.all isFlag then .display else readPrecision u s.precision s.type) a rest := by
  have hflag : ¬ isFlag '$' = true := by decide
  have hchars := dropWhile_append_of_neg hflag n.digits (specTail s trailing rest)
  by_cases hall : n.digits.dropWhile isFlag = []
  · have hzero : n.digits.all isFlag = true := by
      rw [List.all_eq_true]
      exact List.dropWhile_eq_nil_iff.mp hall
    obtain ⟨l, hl, hbrace⟩ := tail_brace h hplain rest
    have hparse : parseWidthOrPrecision a
        ((n.digits ++ '$' :: specTail s trailing rest).dropWhile isFlag) =
          (a, '$' :: specTail s trailing rest) := by
      rw [hchars, hall]
      exact parseWidth_other (by decide) (by decide)
    have hprecision : parsePrecision a ('$' :: specTail s trailing rest) =
        (a, '$' :: specTail s trailing rest) := rfl
    rw [parseFormatSpec_of hparse, afterWidth_of hprecision, if_pos hzero,
      parseIdent_of_not_start (not_isIdentStart (by decide)), hl]
    exact ⟨[], some '$', l, rfl, rfl, hbrace⟩
  · have hzero : ¬ n.digits.all isFlag = true := by
      rw [List.all_eq_true]
      exact fun hflags => hall (List.dropWhile_eq_nil_iff.mpr hflags)
    have hdigits : ∀ x ∈ n.digits.dropWhile isFlag, x.isDigit = true :=
      fun x hx => n.isDigit x ((List.dropWhile_sublist _).mem hx)
    have husize : parseUsize (n.digits.dropWhile isFlag) = n.val := by
      rw [parseUsize, digitsVal_dropWhile n.isDigit]
      exact if_pos hn
    have hparse : parseWidthOrPrecision a
        ((n.digits ++ '$' :: specTail s trailing rest).dropWhile isFlag) =
          (noteMeasure a (.index n.val), specTail s trailing rest) := by
      rw [hchars, parseWidth_digits hall hdigits (by decide), if_pos rfl, husize]
      rfl
    rw [parseFormatSpec_of hparse, if_neg hzero]
    exact Notes.cons (tail_notes h hplain)

/-- After the dollar sign of an identifier the scanner takes one character for the type. -/
theorem formatChar_tail (h : ∀ c ∈ trailing, isWhitespace c = true) {s : FormatSpec}
    (hplain : PlainSpec u s) : Scans (formatChar a (specTail s trailing rest))
      (if s.precision.isSome then .display else typeWrapper s.type) a rest := by
  have hbrace := precision_no_brace hplain.precision
  unfold specTail FormatSpec.precisionChars
  rcases hpr : s.precision with _ | c | _
  · exact formatChar_type h s.type
  · rw [hpr] at hbrace
    refine ⟨some '.', c.chars ++ (s.type.chars ++ trailing), ?_, rfl, ?_⟩
    · simp [Precision.chars, formatChar]
    · simp only [List.mem_append, not_or]
      exact ⟨fun hmem => hbrace (List.mem_cons_of_mem _ hmem), FormatType.no_brace s.type,
        no_brace_of_whitespace h⟩
  · refine ⟨some '.', '*' :: (s.type.chars ++ trailing), ?_, rfl, ?_⟩
    · simp [Precision.chars, formatChar]
    · simp only [List.mem_cons, List.mem_append, not_or]
      exact ⟨by decide, FormatType.no_brace s.type, no_brace_of_whitespace h⟩

theorem name_notes (h : ∀ c ∈ trailing, isWhitespace c = true) {s : FormatSpec}
    (hplain : PlainSpec u s) {name : Name} (hname : IsIdent u name) :
    Notes (parseFormatSpec u a (name ++ '$' :: specTail s trailing rest))
      (readName u name (if s.precision.isSome then .display else typeWrapper s.type)) a rest := by
  obtain ⟨x, t, hx', hx, hflag, -⟩ := ident_cons hname
  have hparse : parseWidthOrPrecision a
      ((name ++ '$' :: specTail s trailing rest).dropWhile isFlag) =
        (a, name ++ '$' :: specTail s trailing rest) := by
    rw [hx', List.cons_append, List.dropWhile_cons_of_neg (by simp [hflag])]
    exact parseWidth_other hx.ne_star hx.not_isDigit
  have hprecision : parsePrecision a (name ++ '$' :: specTail s trailing rest) =
      (a, name ++ '$' :: specTail s trailing rest) := by
    rw [hx', List.cons_append]
    exact parsePrecision_inert hx
  obtain ⟨l, hl, hbrace⟩ := tail_brace h hplain rest
  rw [parseFormatSpec_of hparse, afterWidth_of hprecision]
  exact name_notes_of hname hl hbrace (formatChar_tail h hplain)

theorem width_notes (h : ∀ c ∈ trailing, isWhitespace c = true) {s : FormatSpec}
    (hplain : PlainSpec u s) :
    Notes (parseFormatSpec u a (s.widthChars ++ specTail s trailing rest))
      (readFlags u s) a rest := by
  unfold FormatSpec.widthChars readFlags
  rcases hw : s.width with _ | n | ⟨n | name⟩
  · exact skip_notes h hplain rfl
  · exact integer_notes h hplain n
  · have hn : n.val ≤ usizeMax := hplain.width _ hw
    have hnotes := @index_notes u a trailing rest h s hplain n hn
    simpa [Count.chars, Parameter.chars, zeroWidth] using hnotes
  · have hname : IsIdent u name := hplain.width _ hw
    have hnotes := @name_notes u a trailing rest h s hplain name hname
    simpa [Count.chars, Parameter.chars, zeroWidth] using hnotes

theorem width_no_brace {s : FormatSpec} (hplain : PlainSpec u s) : '{' ∉ s.widthChars := by
  unfold FormatSpec.widthChars
  rcases hw : s.width with _ | c
  · simp
  · exact Count.Plain.no_brace (hplain.width _ hw)

theorem flag_no_brace {l : List Char} (h : ∀ c ∈ l, isFlag c = true) : '{' ∉ l := by
  intro hmem
  exact absurd (h _ hmem) (by decide)

theorem flagChars_isFlag (s : FormatSpec) : ∀ c ∈ s.flagChars, isFlag c = true := by
  unfold FormatSpec.flagChars
  simp only [List.forall_mem_append]
  refine ⟨⟨?_, ?_⟩, ?_⟩
  · rcases s.sign with _ | _ | _
    · exact List.forall_mem_nil _
    · exact List.forall_mem_singleton.mpr rfl
    · exact List.forall_mem_singleton.mpr rfl
  · split
    · exact List.forall_mem_singleton.mpr rfl
    · exact List.forall_mem_nil _
  · split
    · exact List.forall_mem_singleton.mpr rfl
    · exact List.forall_mem_nil _

theorem parseFormatSpec_flags {flags : List Char} (h : ∀ c ∈ flags, isFlag c = true)
    (chars : List Char) : parseFormatSpec u a (flags ++ chars) = parseFormatSpec u a chars := by
  rw [parseFormatSpec_eq, parseFormatSpec_eq, List.dropWhile_append_of_pos h]

theorem Align.char_cases (al : Align) : isFlag al.char = true ∧ Inert al.char ∧
    ¬ IsIdentStart u al.char ∧ isIdentChar u al.char = false ∧ al.char ≠ '{' ∧ al.char ≠ '}' ∧
    wrapOfChar (some al.char) = .display := by
  have hident : isIdentChar u al.char = false := by
    rw [isIdentChar_ascii (by cases al <;> decide)]
    cases al <;> decide
  refine ⟨by cases al <;> decide, by cases al <;> constructor <;> decide, ?_, hident,
    by cases al <;> decide, by cases al <;> decide, by cases al <;> rfl⟩
  intro hstart
  rw [isIdentChar_of_start hstart] at hident
  simp at hident

theorem fill_scans {fill : Char} (hfill : isFlag fill = false) (al : Align) {l : List Char}
    (hbrace : '{' ∉ l) :
    Scans (parseFormatSpec u a (fill :: al.char :: (l ++ '}' :: rest))) (wrapOfChar (some fill)) a
      rest := by
  obtain ⟨-, hinert, hstart, hident, hopen, hclose, hdisplay⟩ := @Align.char_cases u al
  have hdrop : (fill :: al.char :: (l ++ '}' :: rest)).dropWhile isFlag =
      fill :: al.char :: (l ++ '}' :: rest) := List.dropWhile_cons_of_neg (by simp [hfill])
  have hbrace' : '{' ∉ al.char :: l := by
    rw [List.mem_cons, not_or]
    exact ⟨hopen.symm, hbrace⟩
  -- the fill character is taken for a width, or for a dot
  have htaken : afterWidth u a (al.char :: (l ++ '}' :: rest)) =
      (some al.char, a, l ++ '}' :: rest) := by
    rw [afterWidth_of (parsePrecision_inert hinert), parseIdent_of_not_start hstart, formatChar,
      if_neg hclose]
  by_cases hstar : fill = '*'
  · subst hstar
    have hparse : parseWidthOrPrecision a
        (('*' :: al.char :: (l ++ '}' :: rest)).dropWhile isFlag) =
        (a, al.char :: (l ++ '}' :: rest)) := by
      rw [hdrop]
      rfl
    rw [parseFormatSpec_of hparse, htaken]
    exact ⟨_, l, rfl, hdisplay, hbrace⟩
  · by_cases hdigit : fill.isDigit = true
    · have hparse : parseWidthOrPrecision a
          ((fill :: al.char :: (l ++ '}' :: rest)).dropWhile isFlag) =
            (a, al.char :: (l ++ '}' :: rest)) := by
        rw [hdrop, ← List.singleton_append, parseWidth_digits (by simp) (by simpa using hdigit)
          hinert.not_isDigit, if_neg hinert.ne_dollar]
      rw [parseFormatSpec_of hparse, htaken]
      refine ⟨_, l, rfl, hdisplay.trans ?_, hbrace⟩
      unfold wrapOfChar
      split <;> first | rfl | skip
      all_goals
        rename_i heq
        obtain rfl := Option.some.inj heq
        exact absurd hdigit (by decide)
    · have hparse : parseWidthOrPrecision a
          ((fill :: al.char :: (l ++ '}' :: rest)).dropWhile isFlag) =
            (a, fill :: al.char :: (l ++ '}' :: rest)) := by
        rw [hdrop]
        exact parseWidth_other hstar (by simpa using hdigit)
      rw [parseFormatSpec_of hparse]
      by_cases hdot : fill = '.'
      · subst hdot
        have hprecision : parsePrecision a ('.' :: al.char :: (l ++ '}' :: rest)) =
            (a, al.char :: (l ++ '}' :: rest)) :=
          parseWidth_other hinert.ne_star hinert.not_isDigit
        rw [afterWidth_of hprecision, parseIdent_of_not_start hstart, formatChar, if_neg hclose]
        exact ⟨_, l, rfl, hdisplay, hbrace⟩
      · have hprecision : parsePrecision a (fill :: al.char :: (l ++ '}' :: rest)) =
            (a, fill :: al.char :: (l ++ '}' :: rest)) := by
          unfold parsePrecision
          split
          · rename_i heq
            exact absurd (List.cons.inj heq).1 hdot
          · rfl
        rw [afterWidth_of hprecision]
        by_cases hletter : IsIdentStart u fill
        · rw [parseIdent_letter hletter hident hinert.ne_dollar]
          exact ⟨_, al.char :: l, rfl, rfl, hbrace'⟩
        · rw [parseIdent_of_not_start hletter, formatChar]
          by_cases hbraceClose : fill = '}'
          · subst hbraceClose
            rw [if_pos rfl]
            refine ⟨none, '}' :: al.char :: l, rfl, rfl, ?_⟩
            rw [List.mem_cons, not_or]
            exact ⟨by decide, hbrace'⟩
          · rw [if_neg hbraceClose]
            exact ⟨_, al.char :: l, rfl, rfl, hbrace'⟩

/-- The scan of a specification: its closed form, notes of its own arguments, and a rest that is
still inside the placeholder. -/
theorem spec_notes (h : ∀ c ∈ trailing, isWhitespace c = true) {s : FormatSpec}
    (hplain : PlainSpec u s) :
    Notes (parseFormatSpec u a (s.chars ++ (trailing ++ '}' :: rest)))
      (readSpec u s) a rest := by
  have hchars : s.chars ++ (trailing ++ '}' :: rest) =
      s.alignChars ++ (s.flagChars ++ (s.widthChars ++ specTail s trailing rest)) := by
    simp only [FormatSpec.chars, specTail, List.append_assoc]
  have hflags : ∀ flags : List Char, (∀ c ∈ flags, isFlag c = true) →
      Notes (parseFormatSpec u a
        (flags ++ (s.flagChars ++ (s.widthChars ++ specTail s trailing rest)))) (readFlags u s) a
        rest := by
    intro flags hflags
    rw [parseFormatSpec_flags hflags, parseFormatSpec_flags (flagChars_isFlag s)]
    exact width_notes h hplain
  rw [hchars]
  unfold FormatSpec.alignChars readSpec
  rcases s.align with _ | ⟨_ | fill, al⟩
  · exact hflags [] (by simp)
  · apply hflags [al.char]
    simpa using (@Align.char_cases u al).1
  · by_cases hfill : isFlag fill = true
    · simp only [if_pos hfill]
      apply hflags [fill, al.char]
      simpa using ⟨hfill, (@Align.char_cases u al).1⟩
    · simp only [if_neg hfill]
      obtain ⟨l, hl, hbrace⟩ := tail_brace h hplain rest
      have hrest : s.flagChars ++ (s.widthChars ++ specTail s trailing rest) =
          (s.flagChars ++ (s.widthChars ++ l)) ++ '}' :: rest := by
        rw [hl]
        simp only [List.append_assoc]
      rw [hrest]
      refine ⟨[], fill_scans (by simpa using hfill) al ?_⟩
      simp only [List.mem_append, not_or]
      exact ⟨flag_no_brace (flagChars_isFlag s), width_no_brace hplain, hbrace⟩

/-! ## A placeholder -/

/-- The slot that is taken from the argument of a placeholder: of a name, what comes before the
first character that is not alphanumeric. -/
def readSlot (u : Unicode) : Option Parameter → Option Slot
  | none => none
  | some (.index n) => some (.index n.val)
  | some (.name s) =>
    let name := s.takeWhile (isIdentChar u)
    if name.isEmpty then none else some (.name name)

def argKindOf : Option Slot → ArgKind
  | none => .auto
  | some (.index i) => .positional i
  | some (.name s) => .named s

theorem takeWhile_append_of_neg {α : Type} {q : α → Bool} {c : α} (h : ¬ q c = true)
    (l r : List α) :
    (l ++ c :: r).takeWhile q = l.takeWhile q := by
  rw [List.takeWhile_append]
  split
  · rename_i hlen
    rw [List.takeWhile_cons_of_neg h, List.append_nil]
    exact ((List.takeWhile_prefix q).eq_of_length hlen).symm
  · rfl

theorem parseArgSpec_index {n : Integer} (hn : n.val ≤ usizeMax) {c : Char} (l : List Char)
    (hc : c.isDigit = false) :
    parseArgSpec u (n.digits ++ c :: l) = (.positional n.val, c :: l) := by
  obtain ⟨htake, hdrop⟩ := takeWhile_digits n.isDigit l hc
  obtain ⟨d, ds, hcons⟩ := List.exists_cons_of_ne_nil n.ne_nil
  have hdigit := n.isDigit d (hcons ▸ List.mem_cons_self ..)
  have hspecial : ¬ (d = ':' ∨ d = '}') := by
    rintro (rfl | rfl)
    · exact absurd hdigit (by decide)
    · exact absurd hdigit (by decide)
  have hparse := parseUsize_val hn
  rw [hcons, List.cons_append] at htake hdrop ⊢
  rw [hcons] at hparse
  rw [parseArgSpec, if_neg hspecial, if_pos hdigit, htake, hdrop, hparse]

theorem parseArgSpec_name {name : Name} (hname : IsIdent u name) {c : Char} (l : List Char)
    (hc : isIdentChar u c = false) : parseArgSpec u (name ++ c :: l) =
      (argKindOf (readSlot u (some (.name name))), name.dropWhile (isIdentChar u) ++ c :: l) := by
  have hneg : ¬ isIdentChar u c = true := by simp [hc]
  have htake := takeWhile_append_of_neg hneg name l
  have hdrop := dropWhile_append_of_neg hneg name l
  obtain ⟨x, t, hs, hx, -, hcolon, hbrace⟩ := ident_cons hname
  have hspecial : ¬ (x = ':' ∨ x = '}') := by
    rintro (h | h)
    · exact hcolon h
    · exact hbrace h
  have hdigit : ¬ x.isDigit = true := by simp [hx.not_isDigit]
  unfold readSlot
  rw [hs, List.cons_append] at htake hdrop ⊢
  rw [parseArgSpec, if_neg hspecial, if_neg hdigit, htake, hdrop]
  by_cases hempty : ((x :: t).takeWhile (isIdentChar u)).isEmpty = true
  · have hstart : ¬ isIdentChar u x = true := by
      intro hstart
      rw [List.takeWhile_cons_of_pos hstart] at hempty
      simp at hempty
    simp only [hempty, if_true, argKindOf, List.dropWhile_cons_of_neg hstart, List.cons_append]
  · simp only [hempty, if_false, argKindOf, Bool.false_eq_true]

theorem parseArgSpec_auto {c : Char} (l : List Char) (hc : c = ':' ∨ Closing c) :
    parseArgSpec u (c :: l) = (.auto, c :: l) := by
  rw [parseArgSpec]
  by_cases hspecial : c = ':' ∨ c = '}'
  · rw [if_pos hspecial]
  · have hspace : isWhitespace c = true := by
      rcases hc with rfl | rfl | hspace
      · exact absurd (Or.inl rfl) hspecial
      · exact absurd (Or.inr rfl) hspecial
      · exact hspace
    have hneg : ¬ isIdentChar u c = true := by simp [not_isIdentChar_of_whitespace hspace]
    rw [if_neg hspecial, if_neg (by simp [not_isDigit_of_whitespace hspace]),
      List.takeWhile_cons_of_neg hneg]
    rfl

structure PlainPlaceholder (u : Unicode) (p : Placeholder) : Prop where
  argument : ∀ x, p.argument = some x → Parameter.Plain u x
  spec : ∀ s, p.spec = some s → PlainSpec u s

/-- What the scanner leaves of the argument. -/
def argumentRest (u : Unicode) : Option Parameter → List Char
  | some (.name s) => s.dropWhile (isIdentChar u)
  | _ => []

/-- What is read of a placeholder: of one whose argument is not taken as a whole, the
specification is not read at all. -/
def readPlaceholder (u : Unicode) (p : Placeholder) : Wrapper :=
  if (argumentRest u p.argument).isEmpty then (p.spec.map (readSpec u)).getD .display else .display

def fillsBrace (p : Placeholder) : Bool :=
  match p.spec.bind FormatSpec.align with
  | some (some fill, _) => fill == '{'
  | _ => false

/-- A placeholder whose fill character is taken for the start of another one. -/
def strays (u : Unicode) (p : Placeholder) : Bool :=
  !(argumentRest u p.argument).isEmpty && fillsBrace p

theorem parseArgSpec_argument {p : Placeholder} (hplain : PlainPlaceholder u p) {c : Char}
    (l : List Char) (hc : c = ':' ∨ Closing c) :
    parseArgSpec u (p.argumentChars ++ c :: l) =
      (argKindOf (readSlot u p.argument), argumentRest u p.argument ++ c :: l) := by
  have hdigit : c.isDigit = false := by
    rcases hc with rfl | hc
    · decide
    · exact hc.not_isDigit
  have hident : isIdentChar u c = false := by
    rcases hc with rfl | hc
    · rw [isIdentChar_ascii (by decide)]
      decide
    · exact hc.not_isIdentChar
  unfold Placeholder.argumentChars
  rcases harg : p.argument with _ | n | s
  · exact parseArgSpec_auto l hc
  · exact parseArgSpec_index (hplain.argument _ harg) l hdigit
  · exact parseArgSpec_name (hplain.argument _ harg) l hident

/-- What is left of the argument starts with a character of its name. -/
theorem argumentRest_cases {p : Placeholder} (hplain : PlainPlaceholder u p) :
    argumentRest u p.argument = [] ∨ ∃ d t, argumentRest u p.argument = d :: t ∧ d ≠ ':' ∧
      '{' ∉ t := by
  rcases harg : p.argument with _ | n | s
  · exact Or.inl rfl
  · exact Or.inl rfl
  · have hs : IsIdent u s := hplain.argument _ harg
    have hsub : ∀ x ∈ s.dropWhile (isIdentChar u), x ∈ s :=
      fun x hx => (List.dropWhile_sublist _).mem hx
    unfold argumentRest
    rcases hdrop : s.dropWhile (isIdentChar u) with _ | ⟨d, t⟩
    · exact Or.inl hdrop
    · rw [hdrop] at hsub
      refine Or.inr ⟨d, t, hdrop, ?_, ?_⟩
      · rintro rfl
        exact hs.not_mem (c := ':') (by decide) (hsub _ (List.mem_cons_self ..))
      · exact fun hmem => hs.no_brace (hsub _ (List.mem_cons_of_mem _ hmem))

/-- What is left of a placeholder: braces only where a fill character strays. -/
def Leaves (stray : Bool) (l : List Char) : Prop :=
  stray = false ∧ '{' ∉ l ∨ stray = true ∧ ∃ (l₁ : List Char) (al : Align) (l₂ : List Char),
    l = l₁ ++ '{' :: al.char :: l₂ ∧ '{' ∉ l₁ ∧ '{' ∉ l₂

theorem Leaves.append {stray : Bool} {l l' : List Char} (h : Leaves stray l) (hl' : '{' ∉ l') :
    Leaves stray (l ++ l') := by
  rcases h with ⟨hstray, hl⟩ | ⟨hstray, l₁, al, l₂, rfl, h₁, h₂⟩
  · refine Or.inl ⟨hstray, ?_⟩
    rw [List.mem_append, not_or]
    exact ⟨hl, hl'⟩
  · refine Or.inr ⟨hstray, l₁, al, l₂ ++ l', by simp, h₁, ?_⟩
    rw [List.mem_append, not_or]
    exact ⟨h₂, hl'⟩

theorem Leaves.prepend {stray : Bool} {l l' : List Char} (h : Leaves stray l) (hl' : '{' ∉ l') :
    Leaves stray (l' ++ l) := by
  rcases h with ⟨hstray, hl⟩ | ⟨hstray, l₁, al, l₂, rfl, h₁, h₂⟩
  · refine Or.inl ⟨hstray, ?_⟩
    rw [List.mem_append, not_or]
    exact ⟨hl', hl⟩
  · refine Or.inr ⟨hstray, l' ++ l₁, al, l₂, by simp, ?_, h₂⟩
    rw [List.mem_append, not_or]
    exact ⟨hl', h₁⟩

theorem specChars_leaves {p : Placeholder} (hplain : PlainPlaceholder u p) :
    Leaves (fillsBrace p) p.specChars := by
  unfold Placeholder.specChars fillsBrace
  rcases hspec : p.spec with _ | s
  · exact Or.inl ⟨rfl, by simp⟩
  · have hs := hplain.spec s hspec
    have htail : '{' ∉ s.flagChars ++ (s.widthChars ++ (s.precisionChars ++ s.type.chars)) := by
      simp only [List.mem_append, not_or]
      exact ⟨flag_no_brace (flagChars_isFlag s), width_no_brace hs,
        precision_no_brace hs.precision, FormatType.no_brace s.type⟩
    have hal : ∀ al : Align, '{' ≠ al.char := fun al => (@Align.char_cases u al).2.2.2.2.1.symm
    have hcolon : '{' ∉ [':'] := by decide
    dsimp only [FormatSpec.chars]
    rw [← List.singleton_append]
    refine Leaves.prepend ?_ hcolon
    refine Leaves.append ?_ htail
    unfold FormatSpec.alignChars
    rcases halign : s.align with _ | ⟨_ | fill, al⟩
    · refine Or.inl ⟨?_, by simp⟩
      simp [halign]
    · refine Or.inl ⟨?_, by simpa using hal al⟩
      simp [halign]
    · simp only [Option.bind_some, halign, Option.toList_some, List.singleton_append]
      by_cases hfill : fill = '{'
      · subst hfill
        exact Or.inr ⟨rfl, [], al, [], rfl, by simp, by simp⟩
      · refine Or.inl ⟨by simpa using hfill, ?_⟩
        simp only [List.mem_cons, List.not_mem_nil, or_false, not_or]
        exact ⟨fun h => hfill h.symm, hal al⟩

theorem analyzePlaceholder_spec {p : Placeholder} (hplain : PlainPlaceholder u p)
    (rest : List Char) : ∃ (ms : List Slot) (l : List Char), Leaves (strays u p) l ∧
      analyzePlaceholder u a (p.body ++ rest) =
        (record (ms.foldl noteMeasure a) (argKindOf (readSlot u p.argument))
          (readPlaceholder u p).kind, l ++ rest) := by
  have hbody : p.body ++ rest =
      p.argumentChars ++ (p.specChars ++ (p.trailing ++ '}' :: rest)) := by
    simp [Placeholder.body]
  have hspace := no_brace_of_whitespace p.whitespace
  have hdrop : ∀ l : List Char, '{' ∉ l →
      ∃ l', '{' ∉ l' ∧ (l ++ '}' :: rest).drop 1 = l' ++ rest := by
    intro l hl
    cases l with
    | nil => exact ⟨[], by simp, rfl⟩
    | cons c t =>
      refine ⟨t ++ ['}'], ?_, by simp⟩
      simpa using fun hmem => hl (List.mem_cons_of_mem _ hmem)
  obtain ⟨c, t, hcons, hc⟩ : ∃ c t, p.specChars ++ (p.trailing ++ '}' :: rest) = c :: t ∧
      (c = ':' ∨ Closing c) := by
    unfold Placeholder.specChars
    cases p.spec with
    | none =>
      obtain ⟨c, t, hcons, hclosing⟩ := closing_cons p.whitespace rest
      exact ⟨c, t, hcons, Or.inr hclosing⟩
    | some s => exact ⟨':', _, rfl, Or.inl rfl⟩
  have harg := parseArgSpec_argument hplain t hc
  rw [hbody, analyzePlaceholder, hcons, harg, ← hcons]
  rcases argumentRest_cases hplain with hnil | ⟨d, l, hcut, hcolon, hl⟩
  · -- the specification is read
    unfold readPlaceholder strays Placeholder.specChars
    rw [hnil]
    dsimp only [List.nil_append, List.isEmpty_nil]
    cases hspec : p.spec with
    | none =>
      obtain ⟨c', t', hcons', hclosing⟩ := closing_cons p.whitespace rest
      obtain ⟨l', hl', hrest⟩ := hdrop _ hspace
      refine ⟨[], l', Or.inl ⟨rfl, hl'⟩, ?_⟩
      rw [← hrest]
      dsimp only [List.nil_append]
      rw [hcons']
      split
      · rename_i heq
        exact absurd (List.cons.inj heq).1 (hclosing.ne (by decide))
      · rfl
    | some s =>
      obtain ⟨ms, o, l, hscan, hwrap, hl⟩ :=
        @spec_notes u a p.trailing rest p.whitespace s (hplain.spec s hspec)
      obtain ⟨l', hl', hrest⟩ := hdrop l hl
      refine ⟨ms, l', Or.inl ⟨rfl, hl'⟩, ?_⟩
      simp only [List.cons_append, hscan, hwrap, hrest, Option.map_some, Option.getD_some, if_true]
  · -- the scanner goes on after the first character that is left of the name
    have hread : readPlaceholder u p = .display := by simp [readPlaceholder, hcut]
    have hstray : strays u p = fillsBrace p := by simp [strays, hcut]
    have hend : '{' ∉ p.trailing ++ ['}'] := by simpa using hspace
    refine ⟨[], l ++ (p.specChars ++ (p.trailing ++ ['}'])), ?_, ?_⟩
    · rw [hstray]
      exact ((specChars_leaves hplain).append hend).prepend hl
    · rw [hread, hcut]
      dsimp only [List.cons_append]
      split
      · rename_i heq
        exact absurd (List.cons.inj heq).1 hcolon
      · simp [wrapOfChar]

theorem analyzePlaceholder_align (al : Align) (l : List Char) :
    analyzePlaceholder u a (al.char :: l) = (a.pushAuto .display, l) := by
  obtain ⟨-, hinert, -, hident, -, hclose, -⟩ := @Align.char_cases u al
  have hcolon : al.char ≠ ':' := by cases al <;> decide
  have hspecial : ¬ (al.char = ':' ∨ al.char = '}') := by simp [hcolon, hclose]
  have hdigit : ¬ al.char.isDigit = true := by simp [hinert.not_isDigit]
  have hneg : ¬ isIdentChar u al.char = true := by simp [hident]
  have hparse : parseArgSpec u (al.char :: l) = (.auto, al.char :: l) := by
    rw [parseArgSpec, if_neg hspecial, if_neg hdigit, List.takeWhile_cons_of_neg hneg]
    rfl
  rw [analyzePlaceholder, hparse]
  dsimp only
  split
  · rename_i heq
    exact absurd (List.cons.inj heq).1 hcolon
  · rfl

end

end Rustyfill.TryFormatArgs
