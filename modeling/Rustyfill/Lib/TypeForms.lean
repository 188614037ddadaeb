import Rustyfill.Lib.TypeReading

/-!
# The words of a type

What the readers for words, lifetimes and constants find, and what may stand behind a word, behind a
segment of a path, behind a path and behind a type so that it ends there.
-/

namespace TypeSyntax

open Reading

set_option autoImplicit false

/-! ## Where a word, a path and a type end -/

def endsWord (s : List Char) : Bool := !(s.head?.any isWordChar)

def endsSegment (s : List Char) : Bool :=
  endsWord s && !((skip s).head?.any fun c => c == '<' || c == '(')

def endsPath (s : List Char) : Bool := endsSegment s && (symbol [':', ':'] s).isNone

def endsType (s : List Char) : Bool :=
  endsPath s && ((symbol ['+'] s).isNone && (symbol ['-', '>'] s).isNone)

section
variable {c : Char} {s w rest : List Char}

theorem endsWord_of_endsSegment (h : endsSegment s = true) : endsWord s = true :=
  (Bool.and_eq_true_iff.mp h).1

theorem endsSegment_of_endsPath (h : endsPath s = true) : endsSegment s = true :=
  (Bool.and_eq_true_iff.mp h).1

theorem endsPath_of_endsType (h : endsType s = true) : endsPath s = true :=
  (Bool.and_eq_true_iff.mp h).1

theorem endsWord_of_endsType (h : endsType s = true) : endsWord s = true :=
  endsWord_of_endsSegment (endsSegment_of_endsPath (endsPath_of_endsType h))

theorem endsPath_symbol (h : endsPath s = true) : symbol [':', ':'] s = none :=
  Option.isNone_iff_eq_none.mp (Bool.and_eq_true_iff.mp h).2

theorem endsType_plus (h : endsType s = true) : symbol ['+'] s = none :=
  Option.isNone_iff_eq_none.mp (Bool.and_eq_true_iff.mp (Bool.and_eq_true_iff.mp h).2).1

theorem endsType_arrow (h : endsType s = true) : symbol ['-', '>'] s = none :=
  Option.isNone_iff_eq_none.mp (Bool.and_eq_true_iff.mp (Bool.and_eq_true_iff.mp h).2).2

/-! ## Words -/

theorem isSpace_of_isWordChar (h : isWordChar c = true) : isSpace c = false := by
  cases hc : isSpace c with
  | false => rfl
  | true =>
    rw [isSpace, Bool.or_eq_true, beq_iff_eq, beq_iff_eq] at hc
    rcases hc with rfl | rfl
    · exact absurd h (by decide)
    · exact absurd h (by decide)

theorem takeWhile_word (hw : w.all isWordChar = true) (hs : endsWord s = true) :
    (w ++ s).takeWhile isWordChar = w := by
  rw [List.takeWhile_append_of_pos (List.all_eq_true.mp hw)]
  cases s with
  | nil => exact List.append_nil w
  | cons c s =>
    have hc : isWordChar c = false := Bool.not_eq_true' _ |>.mp hs
    rw [List.takeWhile_cons, hc, if_neg Bool.false_ne_true, List.append_nil]

theorem dropWhile_word (hw : w.all isWordChar = true) (hs : endsWord s = true) :
    (w ++ s).dropWhile isWordChar = s := by
  rw [List.dropWhile_append_of_pos (List.all_eq_true.mp hw)]
  cases s with
  | nil => rfl
  | cons c s =>
    have hc : isWordChar c = false := Bool.not_eq_true' _ |>.mp hs
    rw [List.dropWhile_cons, hc, if_neg Bool.false_ne_true]

theorem exists_cons_of_isWord (h : isWord w = true) :
    ∃ c s, w = c :: s ∧ isWordChar c = true ∧ s.all isWordChar = true := by
  obtain ⟨hne, hall⟩ := Bool.and_eq_true_iff.mp h
  cases w with
  | nil => cases hne
  | cons c s =>
    obtain ⟨hc, hs⟩ := Bool.and_eq_true_iff.mp (List.all_cons ▸ hall)
    exact ⟨c, s, rfl, hc, hs⟩

theorem all_of_isWord (h : isWord w = true) : w.all isWordChar = true :=
  (Bool.and_eq_true_iff.mp h).2

theorem skip_word (h : isWord w = true) (s : List Char) : skip (w ++ s) = w ++ s := by
  obtain ⟨c, w, rfl, hc, -⟩ := exists_cons_of_isWord h
  exact skip_cons (isSpace_of_isWordChar hc)

theorem word_append (hw : isWord w = true) (hs : endsWord s = true) : word (w ++ s) = w := by
  rw [word, skip_word hw, takeWhile_word (all_of_isWord hw) hs]

theorem behindWord_append (hw : isWord w = true) (hs : endsWord s = true) :
    behindWord (w ++ s) = s := by
  rw [behindWord, skip_word hw, dropWhile_word (all_of_isWord hw) hs]

theorem symbol_word (hw : isWord w = true) (hc : isWordChar c = false) (t s : List Char) :
    symbol (c :: t) (w ++ s) = none := by
  obtain ⟨d, w, rfl, hd, -⟩ := exists_cons_of_isWord hw
  refine symbol_ne (isSpace_of_isWordChar hd) ?_ t (w ++ s)
  rintro rfl
  rw [hc] at hd
  cases hd

theorem word_cons (hspace : isSpace c = false) (hc : isWordChar c = false) (s : List Char) :
    word (c :: s) = [] := by
  rw [word, skip_cons hspace, List.takeWhile_cons, hc, if_neg Bool.false_ne_true]

@[simp] theorem word_space : word (' ' :: s) = word s := rfl

@[simp] theorem behindWord_space : behindWord (' ' :: s) = behindWord s := rfl

/-! ## Identifiers and lifetimes -/

theorem isWord_of_isIdent (h : isIdent w = true) : isWord w = true :=
  (Bool.and_eq_true_iff.mp (Bool.and_eq_true_iff.mp h).1).1

theorem Ident.isWord (n : Ident) : isWord n.text = true := isWord_of_isIdent n.ok

theorem Ident.not_keyword (n : Ident) {w : List Char} (hw : keywords.contains w = true) :
    n.text ≠ w := by
  rintro rfl
  have hok := (Bool.and_eq_true_iff.mp n.ok).2
  rw [hw] at hok
  cases hok

theorem Ident.text_ne_nil (n : Ident) : n.text ≠ [] := by
  obtain ⟨c, s, hn, -⟩ := exists_cons_of_isWord n.isWord
  rw [hn]
  exact List.cons_ne_nil c s

theorem readIdent_append (n : Ident) (hs : endsWord s = true) :
    readIdent (n.text ++ s) = some (n, s) := by
  have hok : isIdent (word (n.text ++ s)) = true := by
    rw [word_append n.isWord hs]
    exact n.ok
  rw [readIdent, dif_pos hok, behindWord_append n.isWord hs]
  simp only [word_append n.isWord hs]

theorem readLifetime_append (lt : Lifetime) (hs : endsWord s = true) :
    readLifetime (lt.text ++ s) = some (lt, s) := by
  have htake := takeWhile_word (all_of_isWord lt.ok) hs
  have hok : isWord ((lt.name ++ s).takeWhile isWordChar) = true := by
    rw [htake]
    exact lt.ok
  rw [readLifetime, Lifetime.text, List.cons_append, symbol_self rfl, Option.bind_some, dif_pos hok,
    dropWhile_word (all_of_isWord lt.ok) hs]
  simp only [htake]

/-! ## Expressions and constants -/

theorem takeExpr_append (hc : isClosing c = true) {depth : Nat}
    (hs : depthAfter depth s = some 0) :
    takeExpr depth (s ++ c :: rest) = some (s, c :: rest) := by
  induction s generalizing depth with
  | nil =>
    obtain rfl := Option.some.inj hs
    have hopen : isOpening c = false := by
      rw [isClosing, List.contains_iff_mem] at hc
      rcases List.mem_cons.mp hc with rfl | hc
      · rfl
      · rcases List.mem_cons.mp hc with rfl | hc
        · rfl
        · obtain rfl := List.mem_singleton.mp hc
          rfl
    rw [List.nil_append, takeExpr, hopen, if_neg Bool.false_ne_true, if_pos hc]
  | cons d s ih =>
    unfold depthAfter at hs
    rw [List.cons_append]
    unfold takeExpr
    split_ifs at hs ⊢ with hopen hclose
    · rw [ih hs]
      rfl
    · cases depth with
      | zero => cases hs
      | succ depth =>
        simp only at hs ⊢
        rw [ih hs]
        rfl
    · rw [ih hs]
      rfl

theorem readExpr_append (e : Expr) (hc : isClosing c = true) :
    readExpr (e.text ++ c :: rest) = some (e, c :: rest) := by
  obtain ⟨hhead, hdepth⟩ := Bool.and_eq_true_iff.mp e.ok
  have hskip : skip (e.text ++ c :: rest) = e.text ++ c :: rest := by
    cases htext : e.text with
    | nil =>
      rw [htext] at hhead
      cases hhead
    | cons d s =>
      rw [htext] at hhead
      exact skip_cons (Bool.not_eq_true' _ |>.mp hhead)
  have htake : takeExpr 0 (e.text ++ c :: rest) = some (e.text, c :: rest) :=
    takeExpr_append hc (beq_iff_eq.mp hdepth)
  rw [readExpr, hskip, htake, Option.bind_some, dif_pos e.ok]

theorem dropWhile_quote (hs : s.contains '\'' = false) (rest : List Char) :
    (s ++ '\'' :: rest).dropWhile (· != '\'') = '\'' :: rest ∧
      (s ++ '\'' :: rest).takeWhile (· != '\'') = s := by
  have hall : ∀ c ∈ s, (c != '\'') = true := by
    intro c hc
    rw [bne_iff_ne]
    rintro rfl
    rw [List.contains_iff_mem.mpr hc] at hs
    cases hs
  rw [List.dropWhile_append_of_pos hall, List.takeWhile_append_of_pos hall]
  exact ⟨rfl, List.append_nil s⟩

theorem readChar_append {body : List Char} (ok : isCharBody body = true) (rest : List Char) :
    readChar (body ++ '\'' :: rest) = some (.char body ok, rest) := by
  have htake : takeChar (body ++ '\'' :: rest) = some (body, rest) := by
    cases body with
    | nil => cases ok
    | cons c body =>
      cases body with
      | nil =>
        have hc : c ≠ '\\' := bne_iff_ne.mp (Bool.and_eq_true_iff.mp ok).1
        rw [List.singleton_append, takeChar]
        exact hc
      | cons d s =>
        obtain ⟨hc, hs⟩ := Bool.and_eq_true_iff.mp ok
        obtain rfl := beq_iff_eq.mp hc
        obtain ⟨hdrop, htake⟩ := dropWhile_quote (Bool.not_eq_true' _ |>.mp hs) rest
        simp only [List.cons_append, takeChar, hdrop, htake]
  rw [readChar, htake, Option.bind_some, dif_pos ok]

theorem readChar_lifetime (lt : Lifetime) (hquote : s.head? ≠ some '\'') :
    readChar (lt.name ++ s) = none := by
  obtain ⟨c, w, hname, hc, hw⟩ := exists_cons_of_isWord lt.ok
  have htake : takeChar (lt.name ++ s) = none := by
    rw [hname]
    unfold takeChar
    split
    · rename_i heq
      obtain rfl := (List.cons.inj heq).1
      cases hc
    · rename_i heq
      have hrest := (List.cons.inj heq).2
      cases w with
      | nil =>
        exact absurd (congrArg List.head? hrest) hquote
      | cons d w =>
        obtain rfl := (List.cons.inj hrest).1
        cases hw
    · rfl
  rw [readChar, htake]
  rfl

theorem readConst_append (a : ConstArg) (hchar : ∀ s ok, a ≠ .char s ok) (hs : endsWord s = true) :
    readConst (a.text ++ s) = some (some (a, s)) := by
  cases a with
  | number w ok =>
    obtain ⟨hw, hdigit⟩ := Bool.and_eq_true_iff.mp ok
    have hnumber : readNumber (w ++ s) = some (.number w ok, s) := by
      have hok : isNumber (word (w ++ s)) = true := by
        rw [word_append hw hs]
        exact ok
      rw [readNumber, dif_pos hok, behindWord_append hw hs]
      simp only [word_append hw hs]
    obtain ⟨c, w, rfl, hc, -⟩ := exists_cons_of_isWord hw
    have hdigit' : c.isDigit = true := hdigit
    rw [ConstArg.text, readConst, skip_word hw]
    rw [List.cons_append] at hnumber ⊢
    split
    · rename_i heq
      obtain rfl := (List.cons.inj heq).1
      cases hdigit'
    · rename_i heq
      obtain rfl := (List.cons.inj heq).1
      cases hdigit'
    · rename_i heq
      obtain ⟨rfl, rfl⟩ := List.cons.inj heq
      rw [if_pos hdigit', hnumber]
    · rename_i heq
      cases heq
  | negative w ok =>
    have htake := takeWhile_word (all_of_isWord ok) hs
    have hok : isWord ((w ++ s).takeWhile isWordChar) = true := by
      rw [htake]
      exact ok
    have hnegative : readNegative (w ++ s) = some (.negative w ok, s) := by
      rw [readNegative, dif_pos hok, dropWhile_word (all_of_isWord ok) hs]
      simp only [htake]
    rw [ConstArg.text, List.cons_append, readConst, skip_cons rfl]
    exact congrArg some hnegative
  | block body ok =>
    have htake : takeExpr 0 (body ++ '}' :: s) = some (body, '}' :: s) := takeExpr_append rfl ok
    have hblock : readBlock (body ++ '}' :: s) = some (.block body ok, s) := by
      rw [readBlock, htake, Option.bind_some, dif_pos ok, symbol_self rfl]
      rfl
    rw [ConstArg.text, List.append_assoc, List.cons_append, List.singleton_append, readConst,
      skip_cons rfl]
    exact congrArg some hblock
  | char body ok => exact absurd rfl (hchar body ok)

end

/-! ## How a type begins -/

def opensChar (c : Char) : Bool :=
  ['(', '[', '*', '&', '<', ':'].contains c || (isWordChar c && !c.isDigit)

/-- The words that a type begins with, unless its header says more. -/
def opensWord (w : List Char) : Bool :=
  isIdent w || [['d', 'y', 'n'], ['i', 'm', 'p', 'l'], ['e', 'x', 't', 'e', 'r', 'n'],
    ['f', 'n']].contains w

inductive Opens : List Char → Prop where
  | sign (c : Char) (s : List Char) (hc : ['(', '[', '*', '&', '<', ':'].contains c = true) :
      Opens (c :: s)
  | word (w s : List Char) (hw : opensWord w = true) (hs : endsWord s = true) : Opens (w ++ s)

section
variable {c d : Char} {s t w : List Char}

theorem isWord_of_opensWord (h : opensWord w = true) :
    isWord w = true ∧ w.head?.any Char.isDigit = false := by
  rcases Bool.or_eq_true_iff.mp h with h | h
  · have hdigit := (Bool.and_eq_true_iff.mp (Bool.and_eq_true_iff.mp h).1).2
    exact ⟨isWord_of_isIdent h, Bool.not_eq_true' _ |>.mp hdigit⟩
  · have hall : ([['d', 'y', 'n'], ['i', 'm', 'p', 'l'], ['e', 'x', 't', 'e', 'r', 'n'],
        ['f', 'n']].all fun w => isWord w && !(w.head?.any Char.isDigit)) = true := rfl
    obtain ⟨hword, hdigit⟩ := Bool.and_eq_true_iff.mp
      (List.all_eq_true.mp hall w (List.contains_iff_mem.mp h))
    exact ⟨hword, Bool.not_eq_true' _ |>.mp hdigit⟩

theorem Ident.opensWord (n : Ident) : opensWord n.text = true := by
  rw [TypeSyntax.opensWord, n.ok, Bool.true_or]

theorem Opens.append (h : Opens s) (ht : endsWord t = true) : Opens (s ++ t) := by
  cases h with
  | sign c s hc => exact .sign c (s ++ t) hc
  | word w s hw hs =>
    rw [List.append_assoc]
    refine .word w (s ++ t) hw ?_
    cases s with
    | nil => exact ht
    | cons c s => exact hs

theorem Opens.exists_cons (h : Opens s) : ∃ c t, s = c :: t ∧ opensChar c = true := by
  cases h with
  | sign c s hc => exact ⟨c, s, rfl, by rw [opensChar, hc, Bool.true_or]⟩
  | word w s hw hs =>
    obtain ⟨hword, hdigit⟩ := isWord_of_opensWord hw
    obtain ⟨c, w, rfl, hc, -⟩ := exists_cons_of_isWord hword
    have hdigit' : c.isDigit = false := hdigit
    exact ⟨c, w ++ s, rfl, by rw [opensChar, hc, hdigit', Bool.not_false, Bool.and_true,
      Bool.or_true]⟩

theorem isSpace_of_opensChar (h : opensChar c = true) : isSpace c = false := by
  cases hc : isSpace c with
  | false => rfl
  | true =>
    rw [isSpace, Bool.or_eq_true, beq_iff_eq, beq_iff_eq] at hc
    rcases hc with rfl | rfl
    · exact absurd h (by decide)
    · exact absurd h (by decide)

theorem Opens.skip (h : Opens s) : skip s = s := by
  obtain ⟨c, t, rfl, hc⟩ := h.exists_cons
  exact skip_cons (isSpace_of_opensChar hc)

theorem Opens.symbol (h : Opens s) (hd : opensChar d = false) : symbol (d :: t) s = none := by
  obtain ⟨c, s, rfl, hc⟩ := h.exists_cons
  refine symbol_ne (isSpace_of_opensChar hc) ?_ t s
  rintro rfl
  rw [hc] at hd
  cases hd

theorem Opens.head_ne (h : Opens s) (hd : opensChar d = false) : s.head? ≠ some d := by
  obtain ⟨c, s, rfl, hc⟩ := h.exists_cons
  intro heq
  rw [Option.some.inj heq, hd] at hc
  cases hc

theorem Opens.readConst (h : Opens s) : readConst s = none := by
  obtain ⟨c, t, rfl, hc⟩ := h.exists_cons
  rw [TypeSyntax.readConst, h.skip]
  split
  · rename_i heq
    obtain rfl := (List.cons.inj heq).1
    cases hc
  · rename_i heq
    obtain rfl := (List.cons.inj heq).1
    cases hc
  · rename_i heq
    obtain ⟨rfl, rfl⟩ := List.cons.inj heq
    have hdigit : c.isDigit = false := by
      rw [opensChar] at hc
      rcases Bool.or_eq_true_iff.mp hc with hc | hc
      · have hall : (['(', '[', '*', '&', '<', ':'].all fun c => !c.isDigit) = true := rfl
        exact Bool.not_eq_true' _ |>.mp (List.all_eq_true.mp hall c (List.contains_iff_mem.mp hc))
      · exact Bool.not_eq_true' _ |>.mp (Bool.and_eq_true_iff.mp hc).2
    rw [if_neg (by rw [hdigit]; exact Bool.false_ne_true)]
  · rfl

theorem Opens.word_ne (h : Opens s) (hw : opensWord w = false) (hne : w ≠ []) :
    TypeSyntax.word s ≠ w := by
  cases h with
  | sign c s hc =>
    have hall : (['(', '[', '*', '&', '<', ':'].all fun c => !isSpace c && !isWordChar c) = true :=
      rfl
    obtain ⟨hspace, hchar⟩ := Bool.and_eq_true_iff.mp
      (List.all_eq_true.mp hall c (List.contains_iff_mem.mp hc))
    rw [word_cons (Bool.not_eq_true' _ |>.mp hspace) (Bool.not_eq_true' _ |>.mp hchar)]
    exact hne.symm
  | word w' s hw' hs =>
    rw [word_append (isWord_of_opensWord hw').1 hs]
    rintro rfl
    rw [hw] at hw'
    cases hw'

end

/-! ## Readers that look at what comes first -/

section
variable {rs : Readers} {s : List Char} {t t' : Ty}

theorem readOptArgs_none (h : endsSegment s = true) : readOptArgs rs s = some (none, s) := by
  have hhead := Bool.not_eq_true' _ |>.mp (Bool.and_eq_true_iff.mp h).2
  unfold readOptArgs
  split
  · rename_i heq
    rw [heq] at hhead
    cases hhead
  · rename_i heq
    rw [heq] at hhead
    cases hhead
  · rfl

theorem readBinder_of_opens (h : Opens s) : readBinder s = some ([], s) :=
  if_neg (h.word_ne rfl (List.cons_ne_nil _ _))

theorem readModifier_of_opens (h : Opens s) : readModifier s = some (.none, s) := by
  rw [readModifier, h.symbol rfl, h.symbol rfl]

theorem readBound_of_opens (h : Opens s) :
    readBound rs s = map (fun p => .trait p.1 p.2.1 p.2.2)
      (pair readBinder (pair readModifier (readPath rs))) s := by
  unfold readBound
  rw [h.skip]
  split
  · exact absurd rfl (h.head_ne rfl)
  · exact if_neg (h.word_ne rfl (List.cons_ne_nil _ _))

theorem readBound_use (hs : endsWord s = true) : readBound rs (['u', 's', 'e'] ++ s) =
    map .use (after ['<'] (commaList ['>'] readCapturing)) s := by
  have hword : word (['u', 's', 'e'] ++ s) = ['u', 's', 'e'] := word_append rfl hs
  have hbehind : behindWord (['u', 's', 'e'] ++ s) = s := behindWord_append rfl hs
  have hskip : skip (['u', 's', 'e'] ++ s) = ['u', 's', 'e'] ++ s := skip_word rfl s
  unfold readBound
  rw [hskip]
  split
  · rename_i heq
    cases (List.cons.inj heq).1
  · rw [if_pos hword, hbehind]

theorem readArg_of_opens (h : Opens s) : readArg rs s =
    (rs.type true s).bind fun r => readConstraint rs r.1 r.2 := by
  rw [readArg, h.symbol rfl, h.readConst]

theorem readTerm_of_opens (h : Opens s) : readTerm rs s = map .type (rs.type true) s := by
  rw [readTerm, h.symbol rfl, h.readConst]

theorem readConstraint_type {l : List Char} (h : readConstraint rs t s = some (.type t', l)) :
    t = t' := by
  unfold readConstraint at h
  split at h
  · obtain ⟨name, -, h⟩ := Option.bind_eq_some_iff.mp h
    obtain ⟨a, ha⟩ := of_map h
    cases ha
  · split at h
    · obtain ⟨name, -, h⟩ := Option.bind_eq_some_iff.mp h
      obtain ⟨a, ha⟩ := of_map h
      cases ha
    · cases h
      rfl

/-! ### Words -/

theorem readFlag_of_opens {w : List Char} (h : Opens s) (hw : opensWord w = false) (hne : w ≠ []) :
    readFlag w s = some (false, s) :=
  if_neg (h.word_ne hw hne)

theorem readAbi_append (name : AbiName) (s : List Char) :
    readAbi (['e', 'x', 't', 'e', 'r', 'n'] ++ (' ' :: '"' :: (name.text ++ '"' :: s))) =
      some (some name, s) := by
  have hall : ∀ c ∈ name.text, (c != '"') = true := by
    intro c hc
    rw [bne_iff_ne]
    rintro rfl
    have hok := name.ok
    rw [List.contains_iff_mem.mpr hc] at hok
    cases hok
  have htake : (name.text ++ '"' :: s).takeWhile (· != '"') = name.text := by
    rw [List.takeWhile_append_of_pos hall]
    exact List.append_nil _
  have hdrop : (name.text ++ '"' :: s).dropWhile (· != '"') = '"' :: s :=
    List.dropWhile_append_of_pos hall
  have hword : word (['e', 'x', 't', 'e', 'r', 'n'] ++ (' ' :: '"' :: (name.text ++ '"' :: s))) =
      ['e', 'x', 't', 'e', 'r', 'n'] := word_append rfl rfl
  have hbehind : behindWord (['e', 'x', 't', 'e', 'r', 'n'] ++
      (' ' :: '"' :: (name.text ++ '"' :: s))) = ' ' :: '"' :: (name.text ++ '"' :: s) :=
    behindWord_append rfl rfl
  rw [readAbi, if_pos hword, hbehind, symbol_space, symbol_self rfl]
  simp only [htake, hdrop, symbol_self (c := '"') rfl, Option.map_some, name.ok, dite_true]

theorem not_keyword {w : List Char} (hw : keywords.contains w = false) {k : List Char}
    (hk : keywords.contains k = true) : w ≠ k := by
  rintro rfl
  rw [hw] at hk
  cases hk

theorem readWords_path (plus : Bool) (hw : keywords.contains (word s) = false) :
    readWords rs plus s = map .path (readPath rs) s := by
  have hfunction : ¬ functionWords.contains (word s) = true := by
    intro h
    have hall : (functionWords.all keywords.contains) = true := rfl
    rw [List.all_eq_true.mp hall _ (List.contains_iff_mem.mp h)] at hw
    cases hw
  rw [readWords, if_neg (not_keyword hw rfl), if_neg (not_keyword hw rfl),
    if_neg (not_keyword hw rfl), if_neg hfunction]

theorem readWords_function (plus : Bool) (hw : functionWords.contains (word s) = true) :
    readWords rs plus s = readFunction rs s := by
  have hne : ∀ w, functionWords.contains w = false → word s ≠ w := by
    rintro w h rfl
    rw [hw] at h
    cases h
  rw [readWords, if_neg (hne _ rfl), if_neg (hne _ rfl), if_neg (hne _ rfl), if_pos hw]

theorem readWords_dyn (plus : Bool) (hs : endsWord s = true) :
    readWords rs plus (['d', 'y', 'n'] ++ s) = map .traitObject (readBounds rs plus) s := by
  have hword : word (['d', 'y', 'n'] ++ s) = ['d', 'y', 'n'] := word_append rfl hs
  have hbehind : behindWord (['d', 'y', 'n'] ++ s) = s := behindWord_append rfl hs
  rw [readWords, hword, hbehind]
  rfl

theorem readWords_impl (plus : Bool) (hs : endsWord s = true) :
    readWords rs plus (['i', 'm', 'p', 'l'] ++ s) = map .implTrait (readBounds rs plus) s := by
  have hword : word (['i', 'm', 'p', 'l'] ++ s) = ['i', 'm', 'p', 'l'] := word_append rfl hs
  have hbehind : behindWord (['i', 'm', 'p', 'l'] ++ s) = s := behindWord_append rfl hs
  rw [readWords, hword, hbehind]
  rfl

/-- A type that begins with no sign of its own begins with a word or is a path. -/
theorem readType_words (plus : Bool) {c : Char} (hspace : isSpace c = false)
    (hc : ['(', '[', '*', '&', '<', '!'].contains c = false) :
    readType rs plus (c :: s) = readWords rs plus (c :: s) := by
  unfold readType
  rw [skip_cons hspace]
  split <;> first | rfl | (rename_i heq; obtain rfl := (List.cons.inj heq).1; cases hc)

theorem readBounds_ne_nil (plus : Bool) (l : List Char) : readBounds rs plus s ≠ some ([], l) := by
  cases plus with
  | true => exact sepBy_ne_nil s l
  | false =>
    intro h
    obtain ⟨b, hb⟩ := of_map (p := readBound rs) (f := fun b => [b]) h
    cases hb

theorem of_readBounds {plus : Bool} {b : Bound} {bs : List Bound} {l : List Char}
    (h : readBounds rs plus s = some (b :: bs, l)) : ∃ l', readBound rs s = some (b, l') := by
  cases plus with
  | true => exact of_sepBy h
  | false =>
    obtain ⟨r, hr, heq⟩ := Option.map_eq_some_iff.mp h
    obtain ⟨rfl, -⟩ := List.cons.inj (congrArg Prod.fst heq)
    exact ⟨r.2, hr⟩

/-- Only a type that begins with an angle bracket is a qualified path. -/
theorem readType_ne_qualified {plus : Bool} (hs : (skip s).head? ≠ some '<') (self : Ty)
    (trait : Option TypePath) (segments : List Segment) (l : List Char) :
    readType rs plus s ≠ some (.qualified self trait segments, l) := by
  intro h
  unfold readType at h
  split at h
  · unfold readTuple at h
    split at h
    · cases h
    · obtain ⟨r, -, h⟩ := Option.bind_eq_some_iff.mp h
      unfold readTupleRest at h
      split at h
      · cases h
      · obtain ⟨s', -, h⟩ := Option.bind_eq_some_iff.mp h
        obtain ⟨ts, hts⟩ := of_map h
        cases hts
  · unfold readBrackets at h
    obtain ⟨r, -, h⟩ := Option.bind_eq_some_iff.mp h
    unfold readBracketsRest at h
    split at h
    · cases h
    · obtain ⟨s', -, h⟩ := Option.bind_eq_some_iff.mp h
      obtain ⟨e, he⟩ := of_map h
      cases he
  · obtain ⟨p, hp⟩ := of_map h
    cases hp
  · obtain ⟨p, hp⟩ := of_map h
    cases hp
  · rename_i heq
    rw [heq] at hs
    exact hs rfl
  · cases h
  · unfold readWords at h
    split_ifs at h
    · cases h
    · obtain ⟨bs, hbs⟩ := of_map h
      cases hbs
    · obtain ⟨bs, hbs⟩ := of_map h
      cases hbs
    · obtain ⟨p, hp⟩ := of_map h
      cases hp
    · obtain ⟨p, hp⟩ := of_map h
      cases hp

/-! ### Inside of brackets -/

theorem readTupleRest_tuple {ts : List Ty} {l : List Char}
    (h : readTupleRest rs t s = some (.tuple (t' :: ts), l)) : t = t' := by
  unfold readTupleRest at h
  split at h
  · cases h
  · obtain ⟨s', -, h⟩ := Option.bind_eq_some_iff.mp h
    obtain ⟨ts', hts⟩ := of_map h
    exact (List.cons.inj (Ty.tuple.inj hts)).1

theorem readBracketsRest_slice {l : List Char} (h : readBracketsRest t s = some (.slice t', l)) :
    t = t' := by
  unfold readBracketsRest at h
  split at h
  · exact Ty.slice.inj (congrArg Prod.fst (Option.some.inj h))
  · obtain ⟨s', -, h⟩ := Option.bind_eq_some_iff.mp h
    obtain ⟨e, he⟩ := of_map h
    cases he

theorem readBracketsRest_array {e : Expr} {l : List Char}
    (h : readBracketsRest t s = some (.array t' e, l)) : t = t' := by
  unfold readBracketsRest at h
  split at h
  · cases h
  · obtain ⟨s', -, h⟩ := Option.bind_eq_some_iff.mp h
    obtain ⟨e', he⟩ := of_map h
    exact (Ty.array.inj he).1

theorem readType_infer (plus : Bool) (hs : endsWord s = true) :
    readType rs plus ('_' :: s) = some (.infer, s) := by
  have hword : word (['_'] ++ s) = ['_'] := word_append rfl hs
  have hbehind : behindWord (['_'] ++ s) = s := behindWord_append rfl hs
  have hread : readType rs plus ('_' :: s) = readWords rs plus (['_'] ++ s) := rfl
  rw [hread, readWords, if_pos hword, hbehind]

theorem readMutability_append (isMutable : Bool) (s : List Char) :
    readMutability ((if isMutable then ['m', 'u', 't'] else ['c', 'o', 'n', 's', 't']) ++
      (' ' :: s)) = some (isMutable, ' ' :: s) := by
  cases isMutable with
  | true =>
    have hword : word (['m', 'u', 't'] ++ (' ' :: s)) = ['m', 'u', 't'] := word_append rfl rfl
    have hbehind : behindWord (['m', 'u', 't'] ++ (' ' :: s)) = ' ' :: s :=
      behindWord_append rfl rfl
    exact (if_pos hword).trans (congrArg (fun s => some (true, s)) hbehind)
  | false =>
    have hword : word (['c', 'o', 'n', 's', 't'] ++ (' ' :: s)) = ['c', 'o', 'n', 's', 't'] :=
      word_append rfl rfl
    have hbehind : behindWord (['c', 'o', 'n', 's', 't'] ++ (' ' :: s)) = ' ' :: s :=
      behindWord_append rfl rfl
    have hne : word (['c', 'o', 'n', 's', 't'] ++ (' ' :: s)) ≠ ['m', 'u', 't'] := by
      rw [hword]
      decide
    exact (if_neg hne).trans ((if_pos hword).trans (congrArg (fun s => some (false, s)) hbehind))

end

end TypeSyntax
