import Mathlib.Data.List.Basic
import Mathlib.Logic.Function.Basic

/-!
# Reading a text

A reader takes a value off the front of a text and leaves the rest. `Reads` says under which
condition a reader finds a value: where the condition holds it finds that value and leaves the rest,
and it finds the value in no other case, whatever it leaves. Both directions are kept by every way
in which readers are put together.
-/

namespace Reading

set_option autoImplicit false

abbrev Reader (α : Type) := List Char → Option (α × List Char)

variable {α β γ ι : Type}

/-! ## White space and symbols -/

def isSpace (c : Char) : Bool := c == ' ' || c == '\n'

def skip (s : List Char) : List Char := s.dropWhile isSpace

/-- The rest behind a symbol. -/
def symbol (t s : List Char) : Option (List Char) :=
  if t.isPrefixOf (skip s) then some ((skip s).drop t.length) else none

section
variable {c d : Char} {s t rest : List Char}

@[simp] theorem skip_nil : skip [] = [] := rfl

@[simp] theorem skip_space : skip (' ' :: s) = skip s := rfl

@[simp] theorem skip_newline : skip ('\n' :: s) = skip s := rfl

theorem skip_cons (h : isSpace c = false) : skip (c :: s) = c :: s := by
  rw [skip, List.dropWhile_cons, h, if_neg Bool.false_ne_true]

@[simp] theorem symbol_space : symbol t (' ' :: s) = symbol t s := rfl

@[simp] theorem symbol_newline : symbol t ('\n' :: s) = symbol t s := rfl

theorem symbol_append (h : isSpace c = false) (t rest : List Char) :
    symbol (c :: t) (c :: t ++ rest) = some rest := by
  have hprefix : (c :: t).isPrefixOf (c :: (t ++ rest)) = true :=
    List.isPrefixOf_iff_prefix.mpr (List.prefix_append (c :: t) rest)
  rw [symbol, List.cons_append, skip_cons h, if_pos hprefix, ← List.cons_append, List.drop_left]

theorem symbol_self (h : isSpace c = false) (rest : List Char) :
    symbol [c] (c :: rest) = some rest := symbol_append h [] rest

theorem symbol_ne (h : isSpace c = false) (hne : c ≠ d) (t s : List Char) :
    symbol (d :: t) (c :: s) = none := by
  rw [symbol, skip_cons h]
  simp [List.isPrefixOf, hne.symm]

end

/-! ## What a reader finds -/

structure Reads (r : Option (α × List Char)) (good : Prop) (a : α) (rest : List Char) : Prop where
  of_good : good → r = some (a, rest)
  good_of : ∀ l, r = some (a, l) → good

section
variable {r : Option (α × List Char)} {good good' : Prop} {a : α} {b : β}
  {s s' rest : List Char} {p : Reader α} {q : Reader β}

theorem Reads.congr (h : Reads r good a rest) (hgood : good ↔ good') : Reads r good' a rest :=
  ⟨fun hg => h.of_good (hgood.mpr hg), fun l hl => hgood.mp (h.good_of l hl)⟩

theorem reads_pure (a : α) (rest : List Char) : Reads (some (a, rest)) True a rest :=
  ⟨fun _ => rfl, fun _ _ => trivial⟩

theorem reads_of_eq (h : r = some (a, rest)) : Reads r True a rest := h ▸ reads_pure a rest

theorem reads_fixed (a' a : α) (rest : List Char) : Reads (some (a', rest)) (a' = a) a rest :=
  ⟨fun h => h ▸ rfl, fun _ h => congrArg Prod.fst (Option.some.inj h)⟩

theorem reads_never (h : ∀ l, r ≠ some (a, l)) (rest : List Char) : Reads r False a rest :=
  ⟨False.elim, fun l hl => h l hl⟩

theorem Reads.never (h : Reads r good a s) (hn : ¬ good) (rest : List Char) :
    Reads r False a rest :=
  reads_never (fun l hl => hn (h.good_of l hl)) rest

theorem Reads.bind {k : α → List Char → Option (β × List Char)} (h : Reads r good a s)
    (hk : Reads (k a s) good' b rest)
    (hin : ∀ a' s' l, k a' s' = some (b, l) → a' = a) :
    Reads (r.bind fun p => k p.1 p.2) (good ∧ good') b rest where
  of_good hgood := by
    rw [h.of_good hgood.1]
    exact hk.of_good hgood.2
  good_of l hl := by
    obtain ⟨⟨a', s'⟩, hr, hl⟩ := Option.bind_eq_some_iff.mp hl
    obtain rfl := hin a' s' l hl
    have hgood := h.good_of s' hr
    rw [h.of_good hgood] at hr
    obtain rfl := congrArg Prod.snd (Option.some.inj hr)
    exact ⟨hgood, hk.good_of l hl⟩

/-! ## Ways to put readers together -/

def map (f : α → β) (p : Reader α) : Reader β := fun s => (p s).map fun r => (f r.1, r.2)

def pair (p : Reader α) (q : Reader β) : Reader (α × β) := fun s =>
  (p s).bind fun r => (q r.2).map fun r' => ((r.1, r'.1), r'.2)

def after (t : List Char) (p : Reader α) : Reader α := fun s => (symbol t s).bind p

def before (p : Reader α) (t : List Char) : Reader α := fun s =>
  (p s).bind fun r => (symbol t r.2).map fun s => (r.1, s)

/-- What follows a symbol, if that stands there. -/
def whenSymbol (t : List Char) (p : Reader α) : Reader (Option α) := fun s =>
  match symbol t s with
  | some s => map some p s
  | none => some (none, s)

theorem of_map {f : α → β} {l : List Char} (h : map f p s = some (b, l)) : ∃ a, f a = b := by
  obtain ⟨r, -, heq⟩ := Option.map_eq_some_iff.mp h
  exact ⟨r.1, congrArg Prod.fst heq⟩

theorem Reads.map {f : α → β} (h : Reads (p s) good a rest) (hf : Function.Injective f) :
    Reads (map f p s) good (f a) rest where
  of_good hgood := by rw [Reading.map, h.of_good hgood]; rfl
  good_of l hl := by
    obtain ⟨⟨a', l'⟩, hr, heq⟩ := Option.map_eq_some_iff.mp hl
    obtain rfl := hf (congrArg Prod.fst heq)
    exact h.good_of l' hr

theorem Reads.pair (h : Reads (p s) good a s') (h' : Reads (q s') good' b rest) :
    Reads (pair p q s) (good ∧ good') (a, b) rest := by
  have hk : Reads ((q s').map fun r' => ((a, r'.1), r'.2)) good' (a, b) rest :=
    h'.map (f := Prod.mk a) fun _ _ h => congrArg Prod.snd h
  refine h.bind (k := fun a s => (q s).map fun r' => ((a, r'.1), r'.2)) hk ?_
  intro a' s' l hl
  obtain ⟨r', -, heq⟩ := Option.map_eq_some_iff.mp hl
  exact congrArg (fun x => x.1.1) heq

theorem Reads.after {t : List Char} (ht : symbol t s = some s') (h : Reads (p s') good a rest) :
    Reads (after t p s) good a rest := by
  rw [Reading.after, ht]
  exact h

theorem Reads.before {t : List Char} (h : Reads (p s) good a s') (ht : symbol t s' = some rest) :
    Reads (before p t s) good a rest := by
  have hk : Reads ((symbol t s').map fun s => (a, s)) True a rest := by
    rw [ht]
    exact reads_pure a rest
  refine (h.bind (k := fun a s => (symbol t s).map fun s => (a, s)) hk ?_).congr
    (iff_of_eq (and_true good))
  intro a' s'' l hl
  obtain ⟨l', -, heq⟩ := Option.map_eq_some_iff.mp hl
  exact congrArg Prod.fst heq

theorem Reads.whenSymbol {t : List Char} (ht : symbol t s = some s')
    (h : Reads (p s') good a rest) : Reads (whenSymbol t p s) good (some a) rest := by
  rw [Reading.whenSymbol, ht]
  exact h.map fun _ _ h => Option.some.inj h

theorem reads_whenSymbol_none {t : List Char} (ht : symbol t s = none) :
    Reads (whenSymbol t p s) True none s := by
  rw [Reading.whenSymbol, ht]
  exact reads_pure none s

end

/-! ## Lists -/

/-- Items between commas, up to a closing symbol, with or without a comma before it. -/
def commaListFrom (close : List Char) (item : Reader α) : Nat → Reader (List α)
  | 0, _ => none
  | n + 1, s =>
    match symbol close s with
    | some s => some ([], s)
    | none =>
      (item s).bind fun r =>
        match symbol [','] r.2 with
        | some s => (commaListFrom close item n s).map fun r' => (r.1 :: r'.1, r'.2)
        | none => (symbol close r.2).map fun s => ([r.1], s)

def commaList (close : List Char) (item : Reader α) : Reader (List α) := fun s =>
  commaListFrom close item (s.length + 1) s

/-- One or more items, with a symbol between them. -/
def sepByFrom (sep : List Char) (item : Reader α) : Nat → Reader (List α)
  | 0, _ => none
  | n + 1, s =>
    (item s).bind fun r =>
      match symbol sep r.2 with
      | some s => (sepByFrom sep item n s).map fun r' => (r.1 :: r'.1, r'.2)
      | none => some ([r.1], r.2)

def sepBy (sep : List Char) (item : Reader α) : Reader (List α) := fun s =>
  sepByFrom sep item (s.length + 1) s

/-- A reader skips white space in front. -/
def Skips (p : Reader α) : Prop := ∀ s, p (' ' :: s) = p s

section
variable {close sep glue rest : List Char} {item : Reader α} {xs : List ι}
  {text : ι → List Char} {good : ι → Prop} {val : ι → α}

theorem commaListFrom_space (hskip : Skips item) (n : Nat) (s : List Char) :
    commaListFrom close item n (' ' :: s) = commaListFrom close item n s := by
  cases n with
  | zero => rfl
  | succ n => rw [commaListFrom, commaListFrom, symbol_space, hskip]

theorem of_commaListFrom {n : Nat} {a : α} {as : List α} {s l : List Char}
    (h : commaListFrom close item (n + 1) s = some (a :: as, l)) : ∃ l', item s = some (a, l') := by
  rw [commaListFrom] at h
  split at h
  · cases h
  · obtain ⟨r, hr, h⟩ := Option.bind_eq_some_iff.mp h
    refine ⟨r.2, ?_⟩
    split at h
    · obtain ⟨r', -, heq⟩ := Option.map_eq_some_iff.mp h
      obtain ⟨rfl, -⟩ := List.cons.inj (congrArg Prod.fst heq)
      exact hr
    · obtain ⟨l', -, heq⟩ := Option.map_eq_some_iff.mp h
      obtain ⟨rfl, -⟩ := List.cons.inj (congrArg Prod.fst heq)
      exact hr

section
variable {n : Nat} {s s' s'' : List Char} {a : α} {as : List α} {g g' : Prop}

theorem reads_comma_nil (hclose : symbol close s = some rest) :
    Reads (commaListFrom close item (n + 1) s) True [] rest := by
  rw [commaListFrom, hclose]
  exact reads_pure [] rest

theorem reads_comma_last (hopen : g → symbol close s = none) (ha : Reads (item s) g a s')
    (hcomma : symbol [','] s' = none) (hclose : symbol close s' = some rest) :
    Reads (commaListFrom close item (n + 1) s) g [a] rest where
  of_good hg := by
    rw [commaListFrom, hopen hg, ha.of_good hg]
    simp only [Option.bind_some, hcomma, hclose, Option.map_some]
  good_of l hl := by
    obtain ⟨l', hl'⟩ := of_commaListFrom hl
    exact ha.good_of l' hl'

theorem reads_comma_cons (hopen : g → symbol close s = none) (ha : Reads (item s) g a s')
    (hcomma : symbol [','] s' = some s'')
    (has : Reads (commaListFrom close item n s'') g' as rest) :
    Reads (commaListFrom close item (n + 1) s) (g ∧ g') (a :: as) rest where
  of_good hg := by
    rw [commaListFrom, hopen hg.1, ha.of_good hg.1]
    simp only [Option.bind_some, hcomma, has.of_good hg.2, Option.map_some]
  good_of l hl := by
    obtain ⟨l', hl'⟩ := of_commaListFrom hl
    have hg := ha.good_of l' hl'
    rw [commaListFrom, hopen hg, ha.of_good hg] at hl
    simp only [Option.bind_some, hcomma] at hl
    obtain ⟨r, hr, heq⟩ := Option.map_eq_some_iff.mp hl
    obtain ⟨-, rfl⟩ := List.cons.inj (congrArg Prod.fst heq)
    exact ⟨hg, has.good_of r.2 hr⟩

end

theorem reads_commaListFrom (hskip : Skips item) (hclose : symbol close (close ++ rest) = some rest)
    (hcomma : symbol [','] (close ++ rest) = none)
    (hitem : ∀ x ∈ xs, ∀ tail, (∃ s, tail = ',' :: s) ∨ tail = close ++ rest →
      Reads (item (text x ++ tail)) (good x) (val x) tail)
    (hopen : ∀ x ∈ xs, good x → ∀ tail, symbol close (text x ++ tail) = none)
    {n : Nat} (hn : xs.length < n) :
    Reads (commaListFrom close item n ([',', ' '].intercalate (xs.map text) ++ (close ++ rest)))
      (∀ x ∈ xs, good x) (xs.map val) rest := by
  induction xs generalizing n with
  | nil =>
    obtain ⟨n, rfl⟩ := Nat.exists_eq_add_one_of_ne_zero (Nat.ne_of_gt hn)
    rw [List.map_nil, List.intercalate_nil, List.nil_append]
    exact (reads_comma_nil hclose).congr (by simp)
  | cons x xs ih =>
    obtain ⟨n, rfl⟩ := Nat.exists_eq_add_one_of_ne_zero (Nat.ne_of_gt (Nat.lt_of_le_of_lt
      (Nat.zero_le _) hn))
    have hx := List.mem_cons_self (a := x) (l := xs)
    cases xs with
    | nil =>
      rw [List.map_cons, List.map_nil, List.intercalate_singleton]
      exact (reads_comma_last (fun hg => hopen x hx hg _) (hitem x hx _ (Or.inr rfl)) hcomma
        hclose).congr (by simp)
    | cons y xs =>
      have hrest := ih (fun z hz => hitem z (List.mem_cons_of_mem x hz))
        (fun z hz => hopen z (List.mem_cons_of_mem x hz)) (Nat.lt_of_succ_lt_succ hn)
      rw [← commaListFrom_space hskip] at hrest
      rw [List.map_cons, List.map_cons, List.intercalate_cons_cons]
      simp only [List.append_assoc, List.cons_append, List.nil_append] at hrest ⊢
      exact (reads_comma_cons (fun hg => hopen x hx hg _) (hitem x hx _ (Or.inl ⟨_, rfl⟩))
        (symbol_self rfl _) hrest).congr (by simp)

theorem length_le_intercalate (hglue : glue ≠ []) (parts : List (List Char)) :
    parts.length ≤ (glue.intercalate parts).length + 1 := by
  induction parts with
  | nil => exact Nat.zero_le _
  | cons s parts ih =>
    cases parts with
    | nil => exact Nat.le_add_left 1 _
    | cons t parts =>
      have hglue := List.length_pos_iff.mpr hglue
      rw [List.intercalate_cons_cons, List.length_append, List.length_append, List.length_cons]
      omega

theorem reads_commaList (hskip : Skips item) (hclose : symbol close (close ++ rest) = some rest)
    (hcomma : symbol [','] (close ++ rest) = none) (hne : close ≠ [])
    (hitem : ∀ x ∈ xs, ∀ tail, (∃ s, tail = ',' :: s) ∨ tail = close ++ rest →
      Reads (item (text x ++ tail)) (good x) (val x) tail)
    (hopen : ∀ x ∈ xs, good x → ∀ tail, symbol close (text x ++ tail) = none) :
    Reads (commaList close item ([',', ' '].intercalate (xs.map text) ++ (close ++ rest)))
        (∀ x ∈ xs, good x) (xs.map val) rest ∧
      Reads
        (commaList close item (' ' :: ([',', ' '].intercalate (xs.map text) ++ (close ++ rest))))
        (∀ x ∈ xs, good x) (xs.map val) rest := by
  have hlength := length_le_intercalate (List.cons_ne_nil ',' [' ']) (xs.map text)
  have hclose' := List.length_pos_iff.mpr hne
  rw [List.length_map] at hlength
  constructor
  · refine reads_commaListFrom hskip hclose hcomma hitem hopen ?_
    rw [List.length_append, List.length_append]
    omega
  · rw [commaList, commaListFrom_space hskip]
    refine reads_commaListFrom hskip hclose hcomma hitem hopen ?_
    rw [List.length_cons, List.length_append, List.length_append]
    omega

theorem sepByFrom_space (hskip : Skips item) (n : Nat) (s : List Char) :
    sepByFrom sep item n (' ' :: s) = sepByFrom sep item n s := by
  cases n with
  | zero => rfl
  | succ n => rw [sepByFrom, sepByFrom, hskip]

theorem sepByFrom_ne_nil (n : Nat) (s l : List Char) : sepByFrom sep item n s ≠ some ([], l) := by
  intro h
  cases n with
  | zero => cases h
  | succ n =>
    rw [sepByFrom] at h
    obtain ⟨r, -, h⟩ := Option.bind_eq_some_iff.mp h
    split at h
    · obtain ⟨r', -, heq⟩ := Option.map_eq_some_iff.mp h
      cases congrArg Prod.fst heq
    · cases congrArg Prod.fst (Option.some.inj h)

theorem of_sepByFrom {n : Nat} {a : α} {as : List α} {s l : List Char}
    (h : sepByFrom sep item (n + 1) s = some (a :: as, l)) : ∃ l', item s = some (a, l') := by
  rw [sepByFrom] at h
  obtain ⟨r, hr, h⟩ := Option.bind_eq_some_iff.mp h
  refine ⟨r.2, ?_⟩
  split at h
  · obtain ⟨r', -, heq⟩ := Option.map_eq_some_iff.mp h
    obtain ⟨rfl, -⟩ := List.cons.inj (congrArg Prod.fst heq)
    exact hr
  · obtain ⟨rfl, -⟩ := List.cons.inj (congrArg Prod.fst (Option.some.inj h))
    exact hr

theorem of_sepBy {a : α} {as : List α} {s l : List Char}
    (h : sepBy sep item s = some (a :: as, l)) : ∃ l', item s = some (a, l') := of_sepByFrom h

theorem sepBy_ne_nil (s l : List Char) : sepBy sep item s ≠ some ([], l) :=
  sepByFrom_ne_nil _ s l

theorem reads_sep_last {n : Nat} {s : List Char} {a : α} {g : Prop} (ha : Reads (item s) g a rest)
    (hsep : symbol sep rest = none) : Reads (sepByFrom sep item (n + 1) s) g [a] rest where
  of_good hg := by
    rw [sepByFrom, ha.of_good hg]
    simp only [Option.bind_some, hsep]
  good_of l hl := by
    obtain ⟨l', hl'⟩ := of_sepByFrom hl
    exact ha.good_of l' hl'

theorem reads_sep_cons {n : Nat} {s s' s'' : List Char} {a : α} {as : List α} {g g' : Prop}
    (ha : Reads (item s) g a s') (hsep : symbol sep s' = some s'')
    (has : Reads (sepByFrom sep item n s'') g' as rest) :
    Reads (sepByFrom sep item (n + 1) s) (g ∧ g') (a :: as) rest where
  of_good hg := by
    rw [sepByFrom, ha.of_good hg.1]
    simp only [Option.bind_some, hsep, has.of_good hg.2, Option.map_some]
  good_of l hl := by
    obtain ⟨l', hl'⟩ := of_sepByFrom hl
    have hg := ha.good_of l' hl'
    rw [sepByFrom, ha.of_good hg] at hl
    simp only [Option.bind_some, hsep] at hl
    obtain ⟨r, hr, heq⟩ := Option.map_eq_some_iff.mp hl
    obtain ⟨-, rfl⟩ := List.cons.inj (congrArg Prod.fst heq)
    exact ⟨hg, has.good_of r.2 hr⟩

theorem reads_sepByFrom (hglue : ∀ s, ∃ s', symbol sep (glue ++ s) = some s' ∧
      ∀ n, sepByFrom sep item n s' = sepByFrom sep item n s)
    (hsep : symbol sep rest = none)
    (hitem : ∀ x ∈ xs, ∀ tail, (∃ s, tail = glue ++ s) ∨ tail = rest →
      Reads (item (text x ++ tail)) (good x) (val x) tail)
    (hxs : xs ≠ []) {n : Nat} (hn : xs.length ≤ n) :
    Reads (sepByFrom sep item n (glue.intercalate (xs.map text) ++ rest))
      (∀ x ∈ xs, good x) (xs.map val) rest := by
  induction xs generalizing n with
  | nil => exact absurd rfl hxs
  | cons x xs ih =>
    obtain ⟨n, rfl⟩ := Nat.exists_eq_add_one_of_ne_zero (Nat.ne_of_gt (Nat.lt_of_lt_of_le
      (Nat.succ_pos _) hn))
    have hx := List.mem_cons_self (a := x) (l := xs)
    cases xs with
    | nil =>
      rw [List.map_cons, List.map_nil, List.intercalate_singleton]
      exact (reads_sep_last (hitem x hx rest (Or.inr rfl)) hsep).congr (by simp)
    | cons y xs =>
      have hrest := ih (fun z hz => hitem z (List.mem_cons_of_mem x hz)) (List.cons_ne_nil _ _)
        (Nat.le_of_succ_le_succ hn)
      obtain ⟨s', hsym, hsame⟩ := hglue (glue.intercalate ((y :: xs).map text) ++ rest)
      rw [← hsame] at hrest
      rw [List.map_cons, List.map_cons, List.intercalate_cons_cons]
      simp only [List.append_assoc]
      exact (reads_sep_cons (hitem x hx _ (Or.inl ⟨_, rfl⟩)) hsym hrest).congr (by simp)

/-- One or more items are read if every one is, also behind a space. -/
theorem reads_sepBy (hglue : ∀ s, ∃ s', symbol sep (glue ++ s) = some s' ∧
      ∀ n, sepByFrom sep item n s' = sepByFrom sep item n s)
    (hsep : symbol sep rest = none)
    (hitem : ∀ x ∈ xs, ∀ tail, (∃ s, tail = glue ++ s) ∨ tail = rest →
      Reads (item (text x ++ tail)) (good x) (val x) tail)
    (hxs : xs ≠ []) (hne : glue ≠ []) :
    Reads (sepBy sep item (glue.intercalate (xs.map text) ++ rest)) (∀ x ∈ xs, good x)
        (xs.map val) rest ∧
      (Skips item → Reads (sepBy sep item (' ' :: (glue.intercalate (xs.map text) ++ rest)))
        (∀ x ∈ xs, good x) (xs.map val) rest) := by
  have hlength := length_le_intercalate hne (xs.map text)
  rw [List.length_map] at hlength
  constructor
  · refine reads_sepByFrom hglue hsep hitem hxs ?_
    rw [List.length_append]
    omega
  · intro hskip
    rw [sepBy, sepByFrom_space hskip]
    refine reads_sepByFrom hglue hsep hitem hxs ?_
    rw [List.length_cons, List.length_append]
    omega

end

end Reading
