import Rustyfill.Lib.ItemSyntax

/-!
# The parts of a definition

What may follow a part of a definition, and what the readers for names, lists and clauses find.
-/

namespace ItemSyntax

open Reading TypeSyntax

set_option autoImplicit false

/-! ## What follows -/

/-- Whether one of the characters comes next. -/
def ends (cs : List Char) (s : Text) : Bool := (skip s).head?.any cs.contains

section
variable {c : Char} {cs : List Char} {s rest : Text}

theorem exists_of_ends (h : ends cs s = true) : ∃ c t, skip s = c :: t ∧ cs.contains c = true := by
  rw [ends] at h
  cases hs : skip s with
  | nil =>
    rw [hs] at h
    cases h
  | cons c t =>
    rw [hs] at h
    exact ⟨c, t, rfl, h⟩

theorem ends_mono {cs' : List Char} (hcs : cs.all cs'.contains = true) (h : ends cs s = true) :
    ends cs' s = true := by
  obtain ⟨c, t, hs, hc⟩ := exists_of_ends h
  rw [ends, hs]
  exact List.all_eq_true.mp hcs c (List.contains_iff_mem.mp hc)

theorem symbol_of_ends (h : ends cs s = true) (hc : cs.contains c = false) (t : Text) :
    symbol (c :: t) s = none := by
  obtain ⟨d, s', hs, hd⟩ := exists_of_ends h
  have hne : (c == d) = false := by
    rw [beq_eq_false_iff_ne]
    rintro rfl
    rw [hc] at hd
    cases hd
  rw [symbol, hs, List.isPrefixOf, hne, Bool.false_and, if_neg Bool.false_ne_true]

theorem word_of_ends (h : ends cs s = true) (hcs : cs.all (!isWordChar ·) = true) :
    word s = [] := by
  obtain ⟨c, t, hs, hc⟩ := exists_of_ends h
  have hword : isWordChar c = false :=
    Bool.not_eq_true' _ |>.mp (List.all_eq_true.mp hcs c (List.contains_iff_mem.mp hc))
  rw [word, hs, List.takeWhile_cons, hword, if_neg Bool.false_ne_true]

theorem endsWord_of_ends (h : ends cs s = true) (hcs : cs.all (!isWordChar ·) = true) :
    endsWord s = true := by
  cases s with
  | nil => rfl
  | cons c s =>
    rw [endsWord, List.head?_cons, Option.any_some, Bool.not_eq_true']
    cases hspace : isSpace c with
    | true =>
      rw [isSpace, Bool.or_eq_true, beq_iff_eq, beq_iff_eq] at hspace
      rcases hspace with rfl | rfl
      · decide
      · decide
    | false =>
      obtain ⟨d, t, hs, hd⟩ := exists_of_ends h
      rw [skip_cons hspace] at hs
      obtain ⟨rfl, -⟩ := List.cons.inj hs
      exact Bool.not_eq_true' _ |>.mp (List.all_eq_true.mp hcs c (List.contains_iff_mem.mp hd))

theorem endsPath_of_ends (h : ends cs s = true)
    (hcs : cs.all (fun c => !isWordChar c && (c != '<' && c != '(' && c != ':')) = true) :
    endsPath s = true := by
  have hall := List.all_eq_true.mp hcs
  have hword : endsWord s = true :=
    endsWord_of_ends h (List.all_eq_true.mpr fun c hc => (Bool.and_eq_true_iff.mp (hall c hc)).1)
  have hcolon : cs.contains ':' = false := by
    rw [List.contains_eq_mem, decide_eq_false_iff_not]
    intro hmem
    have hc := hall ':' hmem
    cases hc
  obtain ⟨c, t, hs, hc⟩ := exists_of_ends h
  have hsign := (Bool.and_eq_true_iff.mp (hall c (List.contains_iff_mem.mp hc))).2
  simp only [bne, Bool.and_eq_true, Bool.not_eq_true'] at hsign
  rw [endsPath, endsSegment, hword, hs, symbol_of_ends h hcolon [':'], List.head?_cons,
    Option.any_some, hsign.1.1, hsign.1.2]
  rfl

theorem endsType_of_ends (h : ends cs s = true)
    (hcs : cs.all (fun c => !isWordChar c && (c != '<' && c != '(' && c != ':')) = true)
    (hplus : cs.contains '+' = false) (hminus : cs.contains '-' = false) : endsType s = true := by
  rw [endsType, endsPath_of_ends h hcs, symbol_of_ends h hplus [], symbol_of_ends h hminus ['>']]
  rfl

end

/-! ## What has been read -/

section
variable {α β : Type} {p : Reader α} {q : Reader β} {f : α → β} {a : α} {b : β} {s rest : Text}

theorem exists_of_map (h : map f p s = some (b, rest)) : ∃ a, p s = some (a, rest) ∧ f a = b := by
  obtain ⟨⟨a, l⟩, hread, heq⟩ := Option.map_eq_some_iff.mp h
  obtain ⟨rfl, rfl⟩ := Prod.mk.inj heq
  exact ⟨a, hread, rfl⟩

theorem exists_of_pair (h : pair p q s = some ((a, b), rest)) :
    ∃ s', p s = some (a, s') ∧ q s' = some (b, rest) := by
  obtain ⟨⟨a', s'⟩, hfirst, h⟩ := Option.bind_eq_some_iff.mp h
  obtain ⟨⟨b', l⟩, hsecond, heq⟩ := Option.map_eq_some_iff.mp h
  obtain ⟨hab, rfl⟩ := Prod.mk.inj heq
  obtain ⟨rfl, rfl⟩ := Prod.mk.inj hab
  exact ⟨s', hfirst, hsecond⟩

end

/-! ## Names and pieces -/

section
variable {cs : List Char} {measure : Measure} {n s t rest : Text} {name : Text}

theorem isWord_of_isName (h : isName n = true) : isWord n = true :=
  isWord_of_isIdent (Bool.and_eq_true_iff.mp h).1

theorem ne_of_isName {w : Text} (h : isName n = true)
    (hw : keywords.contains w = true ∨ reserved.contains w = true) : n ≠ w := by
  rintro rfl
  obtain ⟨hident, hreserved⟩ := Bool.and_eq_true_iff.mp h
  rcases hw with hw | hw
  · have hkeyword := (Bool.and_eq_true_iff.mp hident).2
    rw [hw] at hkeyword
    cases hkeyword
  · rw [hw] at hreserved
    cases hreserved

theorem isName_of_readName (h : readName s = some (n, rest)) : isName n = true := by
  rw [readName] at h
  split at h
  · rename_i hname
    obtain rfl := congrArg Prod.fst (Option.some.inj h)
    exact hname
  · cases h

theorem reads_name (hrest : endsWord rest = true) (n : Text) :
    Reads (readName (n ++ rest)) (isName n = true) n rest where
  of_good h := by
    have hword := isWord_of_isName h
    rw [readName, word_append hword hrest, if_pos h, behindWord_append hword hrest]
  good_of _ hl := isName_of_readName hl

theorem reads_lifetimeName (hrest : endsWord rest = true) (n : Text) :
    Reads (map Lifetime.name readLifetime ('\'' :: n ++ rest)) (isWord n = true) n rest where
  of_good h := by
    have hread := readLifetime_append ⟨n, h⟩ hrest
    rw [Lifetime.text] at hread
    rw [map, hread]
    rfl
  good_of _ hl := by
    obtain ⟨lt, rfl⟩ := of_map hl
    exact lt.ok

theorem reads_lifetime (hrest : endsWord rest = true) (t : Text) :
    Reads (map Lifetime.text readLifetime (t ++ rest)) (isLifetime t = true) t rest where
  of_good h := by
    unfold isLifetime at h
    split at h
    · rename_i s
      rw [map, ← Lifetime.text.eq_1 ⟨s, h⟩, readLifetime_append ⟨s, h⟩ hrest]
      rfl
    · cases h
  good_of _ hl := by
    obtain ⟨lt, rfl⟩ := of_map hl
    exact lt.ok

/-- A text is one piece wherever one of the characters follows it. -/
structure IsPiece (measure : Measure) (cs : List Char) (t : Text) : Prop where
  ne_nil : t ≠ []
  read : ∀ rest, ends cs rest = true → takeText measure (t ++ rest) = some (t, rest)

theorem IsPiece.reads (h : IsPiece measure cs t) (hrest : ends cs rest = true) :
    Reads (takeText measure (t ++ rest)) True t rest := reads_of_eq (h.read rest hrest)

theorem skip_of_takeText (h : takeText measure s = some (t, rest)) : skip s = t ++ rest := by
  obtain ⟨n, -, heq⟩ := Option.map_eq_some_iff.mp h
  obtain ⟨rfl, rfl⟩ := Prod.mk.inj heq
  exact (List.take_append_drop n (skip s)).symm

theorem skip_of_isSpace {c : Char} (h : isSpace c = true) : skip (c :: s) = skip s := by
  rw [skip, List.dropWhile_cons, h, if_pos rfl]
  rfl

theorem isSpace_of_skip {c : Char} (h : skip (c :: s) = c :: s) : isSpace c = false := by
  cases hspace : isSpace c with
  | false => rfl
  | true =>
    have hlength : (skip s).length ≤ s.length := (List.dropWhile_sublist isSpace).length_le
    rw [← skip_of_isSpace hspace, h, List.length_cons] at hlength
    omega

/-- A text from which the end is cut is not read as the whole, unless the end is what follows. -/
theorem exists_of_cut {c : Char} {front back tail l : Text} (hback : back ≠ [])
    (hc : isSpace c = false)
    (hwhole : takeText measure (front ++ back ++ tail) = some (front ++ back, tail))
    (hcut : takeText measure (front ++ c :: rest) = some (front ++ back, l)) :
    ∃ s, back = c :: s := by
  have hskip : skip (front ++ c :: rest) = front ++ c :: rest := by
    cases front with
    | nil => exact skip_cons hc
    | cons d front => exact skip_cons (isSpace_of_skip (skip_of_takeText hwhole))
  have hrest : front ++ c :: rest = front ++ (back ++ l) := by
    rw [← hskip, skip_of_takeText hcut, List.append_assoc]
  cases back with
  | nil => exact absurd rfl hback
  | cons d back =>
    obtain ⟨rfl, -⟩ := List.cons.inj (List.append_cancel_left hrest)
    exact ⟨back, rfl⟩

theorem Grammar.type_skips {T : Type} (g : Grammar T) : Skips g.type := fun s => by
  rw [← g.type_skip, skip_space, g.type_skip]

theorem Grammar.symbol_of_type {T : Type} (g : Grammar T) {r : T × Text} {c : Char}
    (h : g.type s = some r) (hc : [',', ')', ';'].contains c = true) : symbol [c] s = none := by
  rw [← g.type_skip] at h
  cases hs : skip s with
  | nil =>
    rw [symbol, hs]
    rfl
  | cons d t =>
    have hne : (c == d) = false := by
      rw [beq_eq_false_iff_ne]
      rintro rfl
      rw [hs, g.type_ends c t hc] at h
      cases h
    rw [symbol, hs, List.isPrefixOf, hne, Bool.false_and, if_neg Bool.false_ne_true]

theorem behindPub_of_ne (h : word s ≠ "pub".toList) : behindPub s = s := if_neg h

end

/-! ## Lists -/

section
variable {α ι : Type} {close gap rest s s' t tail : Text} {item : Reader α} {p : Reader (List α)}
  {good : Prop} {as : List α}

theorem reads_whenSymbol_fixed {p : Reader α} (h : symbol t s = none) (a : Option α) :
    Reads (whenSymbol t p s) (none = a) a s := by
  rw [whenSymbol, h]
  exact reads_fixed none a s

theorem reads_listAfter_none (h : symbol t s = none) (as : List α) :
    Reads (listAfter t p s) ([] = as) as s := by
  rw [listAfter, h]
  exact reads_fixed [] as s

theorem reads_listAfter (ht : symbol t s = some s') (h : Reads (p s') good as rest) :
    Reads (listAfter t p s) good as rest := by
  rw [listAfter, ht]
  exact h

theorem reads_separated {c : Char} {glue : Text} {item : Reader Text} {good : Text → Prop}
    {xs : List Text} (hskip : Skips item) (hne : glue ≠ [])
    (hglue : ∀ s, symbol [c] (glue ++ s) = some (' ' :: s)) (hsep : symbol [c] rest = none)
    (hitem : ∀ x ∈ xs, ∀ tail, (∃ s, tail = glue ++ s) ∨ tail = rest →
      Reads (item (x ++ tail)) (good x) x tail)
    (hxs : xs ≠ []) :
    Reads (sepBy [c] item (' ' :: (glue.intercalate xs ++ rest))) (∀ x ∈ xs, good x) xs rest := by
  have hread := (reads_sepBy (fun s => ⟨' ' :: s, hglue s, fun n => sepByFrom_space hskip n s⟩) hsep
    (hitem : ∀ x ∈ xs, ∀ tail, (∃ s, tail = glue ++ s) ∨ tail = rest →
      Reads (item (id x ++ tail)) (good x) (id x) tail) hxs hne).2 hskip
  rw [List.map_id'] at hread
  exact hread

/-- A list behind a colon, which is not written where the list is empty. -/
def behindColon (xs : List Text) : Text :=
  if xs.isEmpty then [] else ": ".toList ++ " + ".toList.intercalate xs

theorem endsWord_behindColon (hrest : endsWord rest = true) (xs : List Text) :
    endsWord (behindColon xs ++ rest) = true := by
  rw [behindColon]
  cases xs.isEmpty with
  | true => exact hrest
  | false => rfl

theorem reads_behindColon {item : Reader Text} {good : Text → Prop} {xs : List Text}
    (hskip : Skips item) (hcolon : symbol [':'] rest = none) (hplus : symbol ['+'] rest = none)
    (hitem : ∀ x ∈ xs, ∀ tail, (∃ s, tail = " + ".toList ++ s) ∨ tail = rest →
      Reads (item (x ++ tail)) (good x) x tail) :
    Reads (listAfter [':'] (sepBy ['+'] item) (behindColon xs ++ rest)) (∀ x ∈ xs, good x) xs
      rest := by
  rw [behindColon]
  cases hxs : xs.isEmpty with
  | true =>
    obtain rfl := List.isEmpty_iff.mp hxs
    rw [if_pos rfl]
    exact (reads_listAfter_none hcolon []).congr (by simp)
  | false =>
    rw [if_neg Bool.false_ne_true, List.append_assoc]
    exact reads_listAfter (symbol_self rfl _) (reads_separated hskip (List.cons_ne_nil _ _)
      (fun _ => rfl) hplus hitem (List.isEmpty_eq_false_iff.mp hxs))

variable {xs : List ι} {text : ι → Text} {goods : ι → Prop} {val : ι → α}

/-- Items with a comma behind each, the last one included. -/
theorem reads_trailing
    (hgap : ∀ n s, commaListFrom close item n (gap ++ s) = commaListFrom close item n s)
    (hclose : symbol close tail = some rest)
    (hitem : ∀ x ∈ xs, ∀ s, Reads (item (text x ++ ',' :: s)) (goods x) (val x) (',' :: s))
    (hopen : ∀ x ∈ xs, goods x → ∀ s, symbol close (text x ++ ',' :: s) = none)
    (hxs : xs ≠ []) {n : Nat} (hn : xs.length < n) :
    Reads
      (commaListFrom close item n ((',' :: gap).intercalate (xs.map text) ++ ',' :: tail))
      (∀ x ∈ xs, goods x) (xs.map val) rest := by
  induction xs generalizing n with
  | nil => exact absurd rfl hxs
  | cons x xs ih =>
    obtain ⟨n, rfl⟩ := Nat.exists_eq_add_one_of_ne_zero (Nat.ne_of_gt (Nat.lt_of_le_of_lt
      (Nat.zero_le _) hn))
    have hx := List.mem_cons_self (a := x) (l := xs)
    cases xs with
    | nil =>
      obtain ⟨n, rfl⟩ := Nat.exists_eq_add_one_of_ne_zero (Nat.ne_of_gt (Nat.lt_of_succ_lt_succ hn))
      rw [List.map_cons, List.map_nil, List.intercalate_singleton]
      exact (reads_comma_cons (fun hg => hopen x hx hg _) (hitem x hx _) (symbol_self rfl _)
        (reads_comma_nil hclose)).congr (by simp)
    | cons y xs =>
      have hrest := ih (fun z hz => hitem z (List.mem_cons_of_mem x hz))
        (fun z hz => hopen z (List.mem_cons_of_mem x hz)) (List.cons_ne_nil y xs)
        (Nat.lt_of_succ_lt_succ hn)
      rw [← hgap] at hrest
      rw [List.map_cons, List.map_cons, List.intercalate_cons_cons]
      simp only [List.append_assoc, List.cons_append] at hrest ⊢
      exact (reads_comma_cons (fun hg => hopen x hx hg _) (hitem x hx _) (symbol_self rfl _)
        hrest).congr (by simp)

theorem flatten_eq_intercalate (glue : Text) {xs : List ι} (hxs : xs ≠ []) :
    (xs.map fun x => text x ++ glue).flatten = glue.intercalate (xs.map text) ++ glue := by
  induction xs with
  | nil => exact absurd rfl hxs
  | cons x xs ih =>
    cases xs with
    | nil => rw [List.map_singleton, List.flatten_singleton, List.map_singleton,
        List.intercalate_singleton]
    | cons y xs =>
      rw [List.map_cons, List.flatten_cons, ih (List.cons_ne_nil y xs)]
      simp only [List.map_cons, List.intercalate_cons_cons, List.append_assoc]

/-- Items on one line. -/
theorem reads_commaList_trailing (hskip : Skips item) (hclose : symbol close tail = some rest)
    (hitem : ∀ x ∈ xs, ∀ s, Reads (item (text x ++ ',' :: s)) (goods x) (val x) (',' :: s))
    (hopen : ∀ x ∈ xs, goods x → ∀ s, symbol close (text x ++ ',' :: s) = none) (hxs : xs ≠ []) :
    Reads (commaList close item ([',', ' '].intercalate (xs.map text) ++ ',' :: tail))
      (∀ x ∈ xs, goods x) (xs.map val) rest := by
  have hlength := length_le_intercalate (List.cons_ne_nil ',' [' ']) (xs.map text)
  rw [List.length_map] at hlength
  have hgap : ∀ n s, commaListFrom close item n ([' '] ++ s) = commaListFrom close item n s :=
    commaListFrom_space hskip
  refine reads_trailing hgap hclose hitem hopen hxs ?_
  rw [List.length_append, List.length_cons]
  omega

/-- Items on lines of their own. -/
theorem reads_lines (hskip : ∀ s, item ('\n' :: s) = item s)
    (hclose : symbol close tail = some rest)
    (hitem : ∀ x ∈ xs, ∀ s, Reads (item (text x ++ ',' :: s)) (goods x) (val x) (',' :: s))
    (hopen : ∀ x ∈ xs, goods x → ∀ s, symbol close (text x ++ ',' :: s) = none) :
    Reads
      (commaList close item ('\n' :: ((xs.map fun x => text x ++ [',', '\n']).flatten ++ tail)))
      (∀ x ∈ xs, goods x) (xs.map val) rest := by
  have hgap : ∀ n s, commaListFrom close item n (['\n'] ++ s) = commaListFrom close item n s := by
    intro n s
    cases n with
    | zero => rfl
    | succ n =>
      rw [List.singleton_append, commaListFrom, commaListFrom, symbol_newline, hskip]
  cases xs with
  | nil =>
    have hread : Reads (commaList close item ('\n' :: tail)) True [] rest := reads_comma_nil hclose
    exact hread.congr (by simp)
  | cons x xs =>
    have hlength := length_le_intercalate (List.cons_ne_nil ',' ['\n']) ((x :: xs).map text)
    rw [flatten_eq_intercalate [',', '\n'] (List.cons_ne_nil x xs), List.append_assoc, commaList,
      ← List.singleton_append, hgap]
    rw [List.length_map] at hlength
    have hclose' : symbol close ('\n' :: tail) = some rest := hclose
    refine reads_trailing hgap hclose' hitem hopen (List.cons_ne_nil x xs) ?_
    rw [List.length_append, List.length_append, List.length_append, List.length_singleton,
      List.length_cons (a := ',')]
    omega

end

/-! ## Fields -/

section
variable {T : Type} (g : Grammar T)

theorem readElem_skips : Skips (readElem g) := by
  intro s
  rw [readElem, readElem, behindPub, behindPub, word_space]
  split_ifs
  · rfl
  · exact g.type_skips s

theorem readField_newline (s : Text) : readField g ('\n' :: s) = readField g s := by
  have hword : word ('\n' :: s) = word s := rfl
  rw [readField, readField, behindPub, behindPub, hword]
  split_ifs <;> rfl

theorem variant_injective : Function.Injective
    fun p : Text × Payload T × Option Text => (⟨p.1, p.2.1, p.2.2⟩ : Variant T) := fun _ _ h =>
  Prod.ext (Variant.mk.inj h).1 (Prod.ext (Variant.mk.inj h).2.1 (Variant.mk.inj h).2.2)

variable {s l : Text}

theorem isName_of_readField {x : Field T} (h : readField g s = some (x, l)) :
    isName x.name = true := by
  obtain ⟨⟨n, t⟩, hread, rfl⟩ := exists_of_map h
  obtain ⟨s', hname, -⟩ := exists_of_pair hread
  exact isName_of_readName hname

theorem isName_of_readVariant {x : Variant T} (h : readVariant g s = some (x, l)) :
    isName x.name = true := by
  obtain ⟨⟨n, t⟩, hread, rfl⟩ := exists_of_map h
  obtain ⟨s', hname, -⟩ := exists_of_pair hread
  exact isName_of_readName hname

end

/-! ## Attributes -/

section
variable {T : Type} {g : Grammar T} {s t rest : Text}

theorem symbol_of_skip (h : skip s = skip t) (sign : Text) : symbol sign s = symbol sign t := by
  rw [symbol, symbol, h]

theorem behindPub_of_skip (h : skip s = "pub ".toList ++ t) : behindPub s = ' ' :: t := by
  have hword : word s = "pub".toList := by
    rw [word, h]
    rfl
  rw [behindPub, if_pos hword, behindWord, h]
  rfl

def attributeLine (inner : Text) : Text := "#[".toList ++ inner ++ "]\n".toList

theorem before_inner {inner : Text} (h : IsPiece g.inner [']'] inner) (s : Text) :
    before (after ['['] (takeText g.inner)) [']'] ('[' :: (inner ++ ']' :: s)) = some (inner, s) :=
  (((h.reads rfl).after (symbol_self rfl _)).before (symbol_self rfl _)).of_good trivial

/-- The attributes on lines of their own are all read. -/
theorem exists_readAttributesFrom {inners : List Text} (h : ∀ a ∈ inners, IsPiece g.inner [']'] a)
    (hrest : symbol ['#'] rest = none) {n : Nat} (hn : inners.length < n)
    (hs : skip s = skip ((inners.map attributeLine).flatten ++ rest)) :
    ∃ s', readAttributesFrom g n s = some (inners, s') ∧ skip s' = skip rest := by
  induction inners generalizing n s with
  | nil =>
    obtain ⟨n, rfl⟩ := Nat.exists_eq_add_one_of_ne_zero (Nat.ne_of_gt (Nat.lt_of_le_of_lt
      (Nat.zero_le _) hn))
    refine ⟨s, ?_, hs⟩
    rw [readAttributesFrom, symbol_of_skip hs, List.map_nil, List.flatten_nil, List.nil_append,
      hrest]
  | cons a inners ih =>
    obtain ⟨n, rfl⟩ := Nat.exists_eq_add_one_of_ne_zero (Nat.ne_of_gt (Nat.lt_of_le_of_lt
      (Nat.zero_le _) hn))
    rw [List.map_cons, List.flatten_cons, List.append_assoc] at hs
    generalize hmore : (inners.map attributeLine).flatten ++ rest = more at hs ih
    obtain ⟨s', hread, hs'⟩ := ih (fun b hb => h b (List.mem_cons_of_mem a hb))
      (Nat.lt_of_succ_lt_succ hn) (s := '\n' :: more) rfl
    have hsign : symbol ['#'] s = some ('[' :: (a ++ ']' :: '\n' :: more)) := by
      rw [symbol_of_skip hs, attributeLine, List.append_assoc, List.append_assoc]
      rfl
    refine ⟨s', ?_, hs'⟩
    rw [readAttributesFrom, hsign]
    simp only [before_inner (h a List.mem_cons_self), Option.bind_some, hread, Option.map_some]

theorem length_le_attributeLines (inners : List Text) :
    inners.length ≤ (inners.map attributeLine).flatten.length := by
  induction inners with
  | nil => exact Nat.zero_le _
  | cons a inners ih =>
    have hsign : "#[".toList.length = 2 := rfl
    rw [List.map_cons, List.flatten_cons, List.length_append, List.length_cons, attributeLine,
      List.length_append, List.length_append, hsign]
    omega

theorem exists_readAttributes {inners : List Text} (h : ∀ a ∈ inners, IsPiece g.inner [']'] a)
    (hrest : symbol ['#'] rest = none) :
    ∃ s', readAttributes g ((inners.map attributeLine).flatten ++ rest) = some (inners, s') ∧
      skip s' = skip rest := by
  have hlength := length_le_attributeLines inners
  refine exists_readAttributesFrom h hrest ?_ rfl
  rw [List.length_append]
  omega

theorem reprOf_repr (s : Text) : reprOf ("repr(".toList ++ s ++ [')']) = some s := by
  have hprefix : "repr(".toList.isPrefixOf ("repr(".toList ++ s ++ [')']) = true := by
    rw [List.append_assoc]
    exact List.isPrefixOf_iff_prefix.mpr (List.prefix_append _ _)
  have hlast : ("repr(".toList ++ s ++ [')']).getLast? = some ')' := List.getLast?_concat
  have hdrop : ("repr(".toList ++ s ++ [')']).drop 5 = s ++ [')'] := rfl
  rw [reprOf, hprefix, hlast, hdrop, List.dropLast_concat]
  rfl

end

/-! ## With the types that are read here

Bounds and predicates are read as far as the grammar of types goes, of expressions a single word,
and of attributes those with arguments in parentheses. -/

section
variable {α : Type} {p : Reader α} {a : α} {cs : List Char} {s t w rest : Text}

def measureOf (p : Reader α) : Measure := fun s => (p s).map fun r => s.length - r.2.length

theorem takeText_measureOf (hskip : skip (t ++ rest) = t ++ rest)
    (h : p (t ++ rest) = some (a, rest)) :
    takeText (measureOf p) (t ++ rest) = some (t, rest) := by
  rw [takeText, hskip, measureOf, h, Option.map_some, Option.map_some, List.length_append,
    Nat.add_sub_cancel, List.take_left, List.drop_left]

theorem skip_skip (s : Text) : skip (skip s) = skip s := by
  induction s with
  | nil => rfl
  | cons c s ih =>
    cases hspace : isSpace c with
    | true => rw [skip_of_isSpace hspace, ih]
    | false => rw [skip_cons hspace, skip_cons hspace]

def readWholeType : Reader Ty := fun s => (readers ((skip s).length + 1)).type true (skip s)

def readWholeBounds : Reader (List Bound) := fun s => readBounds (readers (s.length + 1)) true s

def readWord : Reader Text := fun s =>
  if isWord (word s) then some (word s, behindWord s) else none

def readMeta : Reader (Text × Option Text) :=
  pair readWord (whenSymbol ['('] (before (takeExpr 0) [')']))

def rust : Grammar Ty where
  type := readWholeType
  bound := measureOf fun s => readBound (readers (s.length + 1)) s
  predicate := measureOf (pair readWholeType (after [':'] readWholeBounds))
  expr := measureOf readWord
  constant := measureOf readWord
  inner := measureOf readMeta
  type_skip s := by rw [readWholeType, readWholeType, skip_skip]
  type_ends c s hc := by
    have hmem := List.contains_iff_mem.mp hc
    rcases List.mem_cons.mp hmem with rfl | hmem
    · rfl
    · rcases List.mem_cons.mp hmem with rfl | hmem
      · rfl
      · obtain rfl := List.mem_singleton.mp hmem
        rfl

theorem readWord_append (hw : isWord w = true) (hrest : endsWord rest = true) :
    readWord (w ++ rest) = some (w, rest) := by
  rw [readWord, word_append hw hrest, if_pos hw, behindWord_append hw hrest]

theorem isPiece_word (hw : isWord w = true) (hcs : cs.all (!isWordChar ·) = true) :
    IsPiece (measureOf readWord) cs w where
  ne_nil := by
    obtain ⟨c, s, rfl, -⟩ := exists_cons_of_isWord hw
    exact List.cons_ne_nil c s
  read _ hrest :=
    takeText_measureOf (skip_word hw _) (readWord_append hw (endsWord_of_ends hrest hcs))

theorem isPiece_meta (hw : isWord w = true) (hs : depthAfter 0 s = some 0) :
    IsPiece rust.inner [']'] (w ++ ('(' :: (s ++ [')']))) where
  ne_nil := List.append_ne_nil_of_right_ne_nil w (List.cons_ne_nil _ _)
  read rest _ := by
    have hargs : before (takeExpr 0) [')'] (s ++ ')' :: rest) = some (s, rest) := by
      rw [before, takeExpr_append rfl hs, Option.bind_some, symbol_self rfl]
      rfl
    have hread : readMeta (w ++ ('(' :: (s ++ [')'])) ++ rest) = some ((w, some s), rest) := by
      simp only [List.append_assoc, List.cons_append, List.nil_append]
      rw [readMeta, pair, readWord_append hw rfl, Option.bind_some, whenSymbol, symbol_self rfl]
      simp only [map, hargs, Option.map_some]
    refine takeText_measureOf ?_ hread
    rw [List.append_assoc]
    exact skip_word hw _

end

end ItemSyntax
