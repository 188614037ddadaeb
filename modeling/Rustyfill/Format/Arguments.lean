import Rustyfill.Format.TryFormatArgs

/-!
# How the macro splits its arguments

Nothing is split after the first group of an argument, an equals sign makes an argument a named
one when an identifier stands before it, and the equals signs of the expression of a named
argument are lost. Apart from this, the arguments that are parsed are those that were written.
-/

namespace Rustyfill.TryFormatArgs

open Format

set_option autoImplicit false

/-- The tokens of an argument, as it is written. -/
def argTokens (arg : Arg) : List TokenTree :=
  match arg.name with
  | none => arg.expr
  | some name => .ident name :: .punct '=' :: arg.expr

/-- Every argument comes after a comma, and a comma may come after the last one. -/
def argsTokens (trailing : Bool) : List Arg → List TokenTree
  | [] => if trailing then [.punct ','] else []
  | arg :: rest => .punct ',' :: (argTokens arg ++ argsTokens trailing rest)

def inputTokens (s : FormatString) (args : List Arg) (trailing : Bool) : List TokenTree :=
  .strLit (render s) :: argsTokens trailing args

def IsGroup (t : TokenTree) : Prop := ∃ s, t = .group s

/-! ## Where an argument ends -/

theorem collectArgTrees_succ (depth : Nat) (l : List TokenTree) :
    collectArgTrees (depth + 1) l = (l, []) := by
  induction l generalizing depth with
  | nil => rfl
  | cons t rest ih =>
    cases t with
    | group s => simp only [collectArgTrees, ih]
    | punct c => simp only [collectArgTrees, Nat.succ_ne_zero, and_false, if_false, ih]
    | ident n => simp only [collectArgTrees, Nat.succ_ne_zero, and_false, if_false, ih]
    | strLit v => simp only [collectArgTrees, Nat.succ_ne_zero, and_false, if_false, ih]
    | literal x => simp only [collectArgTrees, Nat.succ_ne_zero, and_false, if_false, ih]

/-- Tokens that neither end an argument nor keep the next comma from ending it. -/
def Flat (l : List TokenTree) : Prop := ∀ t ∈ l, ¬ IsGroup t ∧ t ≠ .punct ','

theorem collectArgTrees_append {l : List TokenTree} (h : Flat l) (rest : List TokenTree) :
    collectArgTrees 0 (l ++ rest) =
      (l ++ (collectArgTrees 0 rest).1, (collectArgTrees 0 rest).2) := by
  induction l with
  | nil => rfl
  | cons t l ih =>
    obtain ⟨⟨hgroup, hcomma⟩, hl⟩ := List.forall_mem_cons.mp h
    cases t with
    | group s => exact absurd ⟨s, rfl⟩ hgroup
    | punct c => simp only [List.cons_append, collectArgTrees, hcomma, false_and, if_false, ih hl]
    | ident n => simp only [List.cons_append, collectArgTrees, hcomma, false_and, if_false, ih hl]
    | strLit v => simp only [List.cons_append, collectArgTrees, hcomma, false_and, if_false, ih hl]
    | literal x => simp only [List.cons_append, collectArgTrees, hcomma, false_and, if_false, ih hl]

theorem collectArgTrees_comma {l : List TokenTree} (h : Flat l) (rest : List TokenTree) :
    collectArgTrees 0 (l ++ .punct ',' :: rest) = (l, rest) := by
  rw [collectArgTrees_append h]
  simp [collectArgTrees]

theorem collectArgTrees_group {l : List TokenTree} (h : Flat l) (s : String)
    (rest : List TokenTree) :
    collectArgTrees 0 (l ++ .group s :: rest) = (l ++ .group s :: rest, []) := by
  rw [collectArgTrees_append h]
  simp only [collectArgTrees, collectArgTrees_succ]

theorem collectArgTrees_flat {l : List TokenTree} (h : Flat l) : collectArgTrees 0 l = (l, []) := by
  have := collectArgTrees_append h []
  simpa [collectArgTrees] using this

theorem flat_cases (l : List TokenTree) : Flat l ∨
    (∃ l₁ l₂, l = l₁ ++ .punct ',' :: l₂ ∧ Flat l₁) ∨
    ∃ l₁ s l₂, l = l₁ ++ .group s :: l₂ ∧ Flat l₁ := by
  induction l with
  | nil => exact Or.inl (by simp [Flat])
  | cons t l ih =>
    by_cases hgroup : IsGroup t
    · obtain ⟨s, rfl⟩ := hgroup
      exact Or.inr (Or.inr ⟨[], s, l, rfl, by simp [Flat]⟩)
    · by_cases hcomma : t = .punct ','
      · subst hcomma
        exact Or.inr (Or.inl ⟨[], l, rfl, by simp [Flat]⟩)
      · have hcons : ∀ {l'}, Flat l' → Flat (t :: l') :=
          fun h => List.forall_mem_cons.mpr ⟨⟨hgroup, hcomma⟩, h⟩
        rcases ih with hflat | ⟨l₁, l₂, rfl, h₁⟩ | ⟨l₁, s, l₂, rfl, h₁⟩
        · exact Or.inl (hcons hflat)
        · exact Or.inr (Or.inl ⟨t :: l₁, l₂, rfl, hcons h₁⟩)
        · exact Or.inr (Or.inr ⟨t :: l₁, s, l₂, rfl, hcons h₁⟩)

/-! ## The name of an argument -/

/-- The argument is taken for a named one: an equals sign with an identifier before it. -/
def Binds (l : List TokenTree) : Prop :=
  ∃ l₁ l₂ name, l = l₁ ++ .punct '=' :: l₂ ∧ .punct '=' ∉ l₁ ∧ (∀ t ∈ l₁, ¬ IsGroup t) ∧
    .ident name ∈ l₁

theorem scanArg_succ (depth : Nat) (first : Option Name) (l : List TokenTree) :
    scanArg (depth + 1) first l = (false, first) := by
  induction l generalizing depth first with
  | nil => rfl
  | cons t l ih =>
    cases t with
    | group s => simp only [scanArg, ih]
    | ident n => simp [scanArg, ih]
    | punct c => simp [scanArg, ih]
    | strLit v => simp [scanArg, ih]
    | literal x => simp [scanArg, ih]

theorem scanArg_some (name : Name) (l : List TokenTree) :
    scanArg 0 (some name) l = ((scanArg 0 (some name) l).1, some name) := by
  induction l with
  | nil => rfl
  | cons t l ih =>
    cases t with
    | group s => simp only [scanArg, scanArg_succ]
    | ident n => simpa [scanArg] using ih
    | punct c =>
      by_cases heq : TokenTree.punct c = .punct '='
      · simp [scanArg, heq]
      · simpa [scanArg, heq] using ih
    | strLit v => simpa [scanArg] using ih
    | literal x => simpa [scanArg] using ih

/-- An equals sign before the first group. -/
def HasEq (l : List TokenTree) : Prop :=
  ∃ l₁ l₂, l = l₁ ++ .punct '=' :: l₂ ∧ .punct '=' ∉ l₁ ∧ ∀ t ∈ l₁, ¬ IsGroup t

theorem hasEq_cons {t : TokenTree} (hgroup : ¬ IsGroup t) (heq : t ≠ .punct '=')
    {l : List TokenTree} : HasEq (t :: l) ↔ HasEq l := by
  constructor
  · rintro ⟨_ | ⟨t', l₁⟩, l₂, hl, hnot, hflat⟩
    · exact absurd (List.cons.inj hl).1 heq
    · obtain ⟨rfl, rfl⟩ := List.cons.inj hl
      exact ⟨l₁, l₂, rfl, fun hmem => hnot (List.mem_cons_of_mem _ hmem),
        fun t' ht => hflat t' (List.mem_cons_of_mem _ ht)⟩
  · rintro ⟨l₁, l₂, rfl, hnot, hflat⟩
    refine ⟨t :: l₁, l₂, rfl, ?_, List.forall_mem_cons.mpr ⟨hgroup, hflat⟩⟩
    rw [List.mem_cons, not_or]
    exact ⟨heq.symm, hnot⟩

theorem hasEq_group (s : String) (l : List TokenTree) : ¬ HasEq (.group s :: l) := by
  rintro ⟨_ | ⟨t', l₁⟩, l₂, hl, -, hflat⟩
  · simp at hl
  · obtain ⟨rfl, -⟩ := List.cons.inj hl
    exact hflat _ (List.mem_cons_self ..) ⟨s, rfl⟩

theorem scanArg_some_iff (name : Name) (l : List TokenTree) :
    (scanArg 0 (some name) l).1 = true ↔ HasEq l := by
  induction l with
  | nil => simp [scanArg, HasEq]
  | cons t l ih =>
    cases t with
    | group s => simp [scanArg, scanArg_succ, hasEq_group]
    | punct c =>
      by_cases heq : TokenTree.punct c = .punct '='
      · rw [heq]
        simp only [scanArg]
        exact iff_of_true rfl ⟨[], l, rfl, by simp, by simp⟩
      · rw [hasEq_cons (by simp [IsGroup]) heq, ← ih]
        simp [scanArg, heq]
    | ident n => rw [hasEq_cons (by simp [IsGroup]) (by simp), ← ih]; simp [scanArg]
    | strLit v => rw [hasEq_cons (by simp [IsGroup]) (by simp), ← ih]; simp [scanArg]
    | literal x => rw [hasEq_cons (by simp [IsGroup]) (by simp), ← ih]; simp [scanArg]

theorem binds_cons {t : TokenTree} (hgroup : ¬ IsGroup t) (heq : t ≠ .punct '=')
    (hident : ∀ name, t ≠ .ident name) {l : List TokenTree} : Binds (t :: l) ↔ Binds l := by
  constructor
  · rintro ⟨_ | ⟨t', l₁⟩, l₂, name, hl, hnot, hflat, hmem⟩
    · simp at hmem
    · obtain ⟨rfl, rfl⟩ := List.cons.inj hl
      refine ⟨l₁, l₂, name, rfl, fun h => hnot (List.mem_cons_of_mem _ h),
        fun t' ht => hflat t' (List.mem_cons_of_mem _ ht), ?_⟩
      rcases List.mem_cons.mp hmem with h | h
      · exact absurd h.symm (hident name)
      · exact h
  · rintro ⟨l₁, l₂, name, rfl, hnot, hflat, hmem⟩
    refine ⟨t :: l₁, l₂, name, rfl, ?_, List.forall_mem_cons.mpr ⟨hgroup, hflat⟩,
      List.mem_cons_of_mem _ hmem⟩
    rw [List.mem_cons, not_or]
    exact ⟨heq.symm, hnot⟩

theorem binds_ident (name : Name) (l : List TokenTree) : Binds (.ident name :: l) ↔ HasEq l := by
  rw [← hasEq_cons (t := .ident name) (by simp [IsGroup]) (by simp)]
  constructor
  · rintro ⟨l₁, l₂, name', hl, hnot, hflat, -⟩
    exact ⟨l₁, l₂, hl, hnot, hflat⟩
  · rintro ⟨_ | ⟨t', l₁⟩, l₂, hl, hnot, hflat⟩
    · simp at hl
    · obtain ⟨rfl, -⟩ := List.cons.inj hl
      exact ⟨_ :: l₁, l₂, name, hl, hnot, hflat, List.mem_cons_self ..⟩

theorem scanArg_none_iff (l : List TokenTree) :
    (∃ name, scanArg 0 none l = (true, some name)) ↔ Binds l := by
  induction l with
  | nil => simp [scanArg, Binds]
  | cons t l ih =>
    cases t with
    | group s =>
      refine iff_of_false (by simp [scanArg, scanArg_succ]) ?_
      rintro ⟨_ | ⟨t', l₁⟩, l₂, name, hl, -, hflat, -⟩
      · simp at hl
      · obtain ⟨rfl, -⟩ := List.cons.inj hl
        exact hflat _ (List.mem_cons_self ..) ⟨s, rfl⟩
    | punct c =>
      by_cases heq : TokenTree.punct c = .punct '='
      · rw [heq]
        refine iff_of_false (by simp [scanArg]) ?_
        rintro ⟨_ | ⟨t', l₁⟩, l₂, name, hl, hnot, -, hmem⟩
        · simp at hmem
        · obtain ⟨rfl, -⟩ := List.cons.inj hl
          exact hnot (List.mem_cons_self ..)
      · rw [binds_cons (by simp [IsGroup]) heq (by simp), ← ih]
        simp [scanArg, heq]
    | ident n =>
      rw [binds_ident, ← scanArg_some_iff n l]
      have hscan := scanArg_some n l
      simp only [scanArg, Option.isNone_none, beq_self_eq_true, Bool.and_self, if_true]
      rw [hscan]
      simp
    | strLit v => rw [binds_cons (by simp [IsGroup]) (by simp) (by simp), ← ih]; simp [scanArg]
    | literal x => rw [binds_cons (by simp [IsGroup]) (by simp) (by simp), ← ih]; simp [scanArg]

theorem parseArg_positional (l : List TokenTree) :
    (parseArg l).name = none ∧ parseArg l = ⟨none, l⟩ ∧ ¬ Binds l ∨
      (parseArg l).name.isSome = true ∧ Binds l := by
  by_cases hbinds : Binds l
  · obtain ⟨name, hscan⟩ := (scanArg_none_iff l).mpr hbinds
    exact Or.inr ⟨by rw [parseArg, hscan]; rfl, hbinds⟩
  · have hparse : parseArg l = ⟨none, l⟩ := by
      unfold parseArg
      split
      · rename_i name hscan
        exact absurd ((scanArg_none_iff l).mp ⟨name, hscan⟩) hbinds
      · rfl
    exact Or.inl ⟨by rw [hparse], hparse, hbinds⟩

theorem splitAfterEq_true (l : List TokenTree) :
    splitAfterEq true l = l.filter (· ≠ .punct '=') := by
  induction l with
  | nil => rfl
  | cons t l ih =>
    by_cases heq : t = .punct '='
    · rw [splitAfterEq, if_pos heq, ih, List.filter_cons_of_neg (by simp [heq])]
    · rw [splitAfterEq, if_neg heq, if_pos rfl, ih, List.filter_cons_of_pos (by simp [heq])]

theorem parseArg_named (name : Name) (l : List TokenTree) :
    parseArg (.ident name :: .punct '=' :: l) = ⟨some name, l.filter (· ≠ .punct '=')⟩ := by
  rw [← splitAfterEq_true]
  simp [parseArg, scanArg, splitAfterEq]

/-- The argument is parsed as it is written, once it is split from the others. -/
def Binding (arg : Arg) : Prop :=
  match arg.name with
  | none => ¬ Binds arg.expr
  | some _ => .punct '=' ∉ arg.expr

theorem binding_of_not_mem {arg : Arg} (h : .punct '=' ∉ arg.expr) : Binding arg := by
  rcases arg with ⟨_ | name, expr⟩
  · rintro ⟨l₁, l₂, name, hl, -⟩
    refine h ?_
    rw [hl]
    simp
  · exact h

theorem parseArg_eq_iff (arg : Arg) : parseArg (argTokens arg) = arg ↔ Binding arg := by
  rcases arg with ⟨_ | name, expr⟩
  · rcases parseArg_positional expr with ⟨-, hparse, hbinds⟩ | ⟨hsome, hbinds⟩
    · exact iff_of_true hparse hbinds
    · refine iff_of_false (fun hparse => ?_) (fun hnot => hnot hbinds)
      rw [argTokens] at hparse
      rw [hparse] at hsome
      simp at hsome
  · simp only [argTokens, parseArg_named, Binding, Arg.mk.injEq, true_and, List.filter_eq_self]
    constructor
    · intro hall hmem
      simpa using hall _ hmem
    · intro hnot t ht
      simpa using fun heq : t = .punct '=' => hnot (heq ▸ ht)

/-- Tokens that go on after an argument do not make the same argument. -/
theorem parseArg_longer (arg : Arg) (rest : List TokenTree) :
    parseArg (argTokens arg ++ .punct ',' :: rest) ≠ arg := by
  rcases arg with ⟨_ | name, expr⟩
  · intro hparse
    rcases parseArg_positional (expr ++ .punct ',' :: rest) with ⟨-, hpos, -⟩ | ⟨hsome, -⟩
    · rw [argTokens, hpos] at hparse
      have hlen := congrArg (fun a => a.expr.length) hparse
      simp at hlen
    · rw [argTokens] at hparse
      rw [hparse] at hsome
      simp at hsome
  · intro hparse
    simp only [argTokens, List.cons_append, parseArg_named, Arg.mk.injEq, true_and] at hparse
    have hself : expr.filter (· ≠ .punct '=') = expr := by
      rw [List.filter_eq_self, ← hparse]
      exact fun t ht => (List.mem_filter.mp ht).2
    rw [List.filter_append, hself] at hparse
    have hlen := congrArg List.length hparse
    simp at hlen

theorem parseArg_shorter {arg : Arg} {l₁ l₂ : List TokenTree}
    (htokens : argTokens arg = l₁ ++ .punct ',' :: l₂) : parseArg l₁ ≠ arg := by
  rcases arg with ⟨_ | name, expr⟩
  · intro hparse
    rcases parseArg_positional l₁ with ⟨-, hpos, -⟩ | ⟨hsome, -⟩
    · rw [hpos] at hparse
      have hlen := congrArg List.length htokens
      obtain rfl : l₁ = expr := by simpa using hparse
      simp [argTokens] at hlen
    · rw [hparse] at hsome
      simp at hsome
  · intro hparse
    rcases l₁ with _ | ⟨t, _ | ⟨t', l₁⟩⟩
    · simp [argTokens] at htokens
    · simp [argTokens] at htokens
    · simp only [argTokens, List.cons_append, List.cons.injEq] at htokens
      obtain ⟨rfl, rfl, rfl⟩ := htokens
      rw [parseArg_named] at hparse
      have hlen := congrArg (fun a => a.expr.length) hparse
      have hle := List.length_filter_le (fun t => decide (t ≠ TokenTree.punct '=')) l₁
      simp at hlen hle
      omega

/-! ## The arguments of the macro -/

/-- No comma stands before the first group. -/
def CommaLate (l : List TokenTree) : Prop :=
  ∀ l₁ l₂, l = l₁ ++ .punct ',' :: l₂ → ∃ t ∈ l₁, IsGroup t

/-- Every argument binds as it is written, and has neither group nor comma outside of one, unless
it is the last one with no comma after it: then no comma may stand before its first group. -/
def Splits (trailing : Bool) : List Arg → Prop
  | [] => True
  | arg :: rest => Binding arg ∧
      (Flat arg.expr ∨ (rest = [] ∧ trailing = false ∧ CommaLate arg.expr)) ∧ Splits trailing rest

def IsExpr (l : List TokenTree) : Prop := ∃ t rest, l = t :: rest ∧ t ≠ .punct ','

theorem argTokens_cons {arg : Arg} (h : IsExpr arg.expr) :
    ∃ t rest, argTokens arg = t :: rest ∧ t ≠ .punct ',' := by
  rcases arg with ⟨_ | name, expr⟩
  · exact h
  · exact ⟨_, _, rfl, by simp⟩

theorem flat_argTokens (arg : Arg) : Flat (argTokens arg) ↔ Flat arg.expr := by
  rcases arg with ⟨_ | name, expr⟩
  · rfl
  · simp [argTokens, Flat, IsGroup]

theorem commaLate_argTokens {arg : Arg} (h : CommaLate arg.expr) : CommaLate (argTokens arg) := by
  rcases arg with ⟨_ | name, expr⟩
  · exact h
  · rintro (_ | ⟨t, _ | ⟨t', l₁⟩⟩) l₂ hl
    · simp [argTokens] at hl
    · simp [argTokens] at hl
    · simp only [argTokens, List.cons_append, List.cons.injEq] at hl
      obtain ⟨t'', hmem, hgroup⟩ := h l₁ l₂ hl.2.2
      exact ⟨t'', List.mem_cons_of_mem _ (List.mem_cons_of_mem _ hmem), hgroup⟩

theorem commaLate_of_group {arg : Arg} {l₁ l₂ : List TokenTree} {s : String} (h : Flat l₁)
    (htokens : argTokens arg = l₁ ++ .group s :: l₂) : CommaLate arg.expr := by
  have hlate : CommaLate (argTokens arg) := by
    rintro l l' hl
    by_contra hnone
    rw [htokens] at hl
    rcases List.append_eq_append_iff.mp hl with ⟨c, hc, hc'⟩ | ⟨c, hc, hc'⟩
    · cases c with
      | nil => simp at hc'
      | cons t c =>
        obtain ⟨rfl, -⟩ := List.cons.inj hc'
        exact hnone ⟨.group s, by rw [hc]; simp, s, rfl⟩
    · cases c with
      | nil => simp at hc'
      | cons t c =>
        obtain ⟨rfl, -⟩ := List.cons.inj hc'
        exact (h _ (by rw [hc]; simp)).2 rfl
  rcases arg with ⟨_ | name, expr⟩
  · exact hlate
  · intro l l' hl
    obtain ⟨t, hmem, hgroup⟩ :=
      hlate (.ident name :: .punct '=' :: l) l' (by simp [argTokens, show expr = _ from hl])
    simp only [List.mem_cons] at hmem
    rcases hmem with rfl | rfl | hmem
    · simp [IsGroup] at hgroup
    · simp [IsGroup] at hgroup
    · exact ⟨t, hmem, hgroup⟩

theorem parseArgs_comma (n : Nat) (l : List TokenTree) :
    parseArgs (n + 1) (.punct ',' :: l) = parseArgs n l := by
  rw [parseArgs, if_pos rfl]

theorem parseArgs_cons (n : Nat) {t : TokenTree} (ht : t ≠ .punct ',') (l : List TokenTree) :
    parseArgs (n + 1) (t :: l) = parseArg (collectArgTrees 0 (t :: l)).1 ::
      parseArgs n (collectArgTrees 0 (t :: l)).2 := by
  have hne : (collectArgTrees 0 (t :: l)).1.isEmpty = false := by
    cases t with
    | group s => simp [collectArgTrees]
    | punct c => simp [collectArgTrees, ht]
    | ident n => simp [collectArgTrees]
    | strLit v => simp [collectArgTrees]
    | literal x => simp [collectArgTrees]
  rw [parseArgs, if_neg ht]
  simp [hne]

theorem argsTokens_cases (trailing : Bool) (args : List Arg) :
    argsTokens trailing args = [] ∧ args = [] ∧ trailing = false ∨
      ∃ l, argsTokens trailing args = .punct ',' :: l := by
  cases args with
  | nil =>
    cases trailing with
    | false => exact Or.inl ⟨rfl, rfl, rfl⟩
    | true => exact Or.inr ⟨[], rfl⟩
  | cons arg rest => exact Or.inr ⟨_, rfl⟩

/-- The arguments that are parsed are those that are written exactly when they split. -/
theorem parseArgs_spec (trailing : Bool) (args : List Arg) (n : Nat)
    (hexpr : ∀ a ∈ args, IsExpr a.expr) (hn : (argsTokens trailing args).length ≤ n) :
    ((parseArgs n (argsTokens trailing args)).take args.length = args ↔ Splits trailing args) ∧
      (Splits trailing args → parseArgs n (argsTokens trailing args) = args) := by
  induction args generalizing n with
  | nil =>
    refine ⟨iff_of_true rfl trivial, fun _ => ?_⟩
    rcases argsTokens_cases trailing [] with ⟨hnil, -, -⟩ | ⟨l, hcons⟩
    · rw [hnil]
      cases n <;> rfl
    · cases trailing with
      | false => simp [argsTokens] at hcons
      | true =>
        cases n with
        | zero => rfl
        | succ n => cases n <;> rfl
  | cons arg rest ih =>
    obtain ⟨hfirst, hrest⟩ := List.forall_mem_cons.mp hexpr
    obtain ⟨t, l, htokens, ht⟩ := argTokens_cons hfirst
    obtain ⟨n, rfl⟩ : ∃ n', n = n' + 2 := by
      refine ⟨n - 2, ?_⟩
      simp only [argsTokens, htokens, List.length_cons, List.cons_append] at hn
      omega
    have hlen : (argsTokens trailing rest).length ≤ n := by
      simp only [argsTokens, htokens, List.length_cons, List.cons_append, List.length_append] at hn
      omega
    have hparse := parseArgs_cons n ht (l ++ argsTokens trailing rest)
    rw [← List.cons_append, ← htokens] at hparse
    rw [argsTokens, parseArgs_comma, hparse, List.length_cons, List.take_succ_cons, Splits,
      List.cons.injEq, List.cons.injEq]
    rcases flat_cases (argTokens arg) with hflat | ⟨l₁, l₂, hl, hflat⟩ | ⟨l₁, s, l₂, hl, hflat⟩
    · -- the argument ends where it does
      obtain ⟨n', hn', hcollect, hothers⟩ : ∃ n', (argsTokens trailing rest).length ≤ n' ∧
          (collectArgTrees 0 (argTokens arg ++ argsTokens trailing rest)).1 = argTokens arg ∧
          parseArgs n (collectArgTrees 0 (argTokens arg ++ argsTokens trailing rest)).2 =
            parseArgs n' (argsTokens trailing rest) := by
        rcases argsTokens_cases trailing rest with ⟨hnil, -, -⟩ | ⟨l', hcons⟩
        · rw [hnil, List.append_nil, collectArgTrees_flat hflat]
          exact ⟨n, Nat.zero_le _, rfl, rfl⟩
        · rw [hcons, collectArgTrees_comma hflat]
          refine ⟨n + 1, ?_, rfl, (parseArgs_comma n l').symm⟩
          rw [← hcons]
          omega
      obtain ⟨hiff, hself⟩ := ih n' hrest hn'
      rw [hcollect, hothers, parseArg_eq_iff, hiff]
      have hflat' := (flat_argTokens arg).mp hflat
      exact ⟨⟨fun h => ⟨h.1, Or.inl hflat', h.2⟩, fun h => ⟨h.1, h.2.2⟩⟩,
        fun h => ⟨h.1, hself h.2.2⟩⟩
    · -- it is cut at a comma of its own
      have hshort := parseArg_shorter hl
      have hnot : ¬ (Flat arg.expr ∨ rest = [] ∧ trailing = false ∧ CommaLate arg.expr) := by
        rintro (hflat' | ⟨-, -, hlate⟩)
        · have hall := (flat_argTokens arg).mpr hflat'
          exact (hall (.punct ',') (by rw [hl]; simp)).2 rfl
        · obtain ⟨t', hmem, hgroup⟩ := commaLate_argTokens hlate l₁ l₂ hl
          exact (hflat t' hmem).1 hgroup
      have hcollect : (collectArgTrees 0 (argTokens arg ++ argsTokens trailing rest)).1 = l₁ := by
        rw [hl, List.append_assoc, List.cons_append, collectArgTrees_comma hflat]
      rw [hcollect]
      exact ⟨iff_of_false (fun h => hshort h.1) fun h => hnot h.2.1, fun h => absurd h.2.1 hnot⟩
    · -- nothing ends it after its group
      have hcollect : collectArgTrees 0 (argTokens arg ++ argsTokens trailing rest) =
          (argTokens arg ++ argsTokens trailing rest, []) := by
        rw [hl, List.append_assoc, List.cons_append, collectArgTrees_group hflat]
      have hgroup : ¬ Flat arg.expr := by
        intro hflat'
        have hall := (flat_argTokens arg).mpr hflat'
        exact (hall (.group s) (by rw [hl]; simp)).1 ⟨s, rfl⟩
      rw [hcollect]
      rcases argsTokens_cases trailing rest with ⟨hnil, rfl, rfl⟩ | ⟨l', hcons⟩
      · have hend : parseArgs n [] = [] := by cases n <;> rfl
        rw [hnil, List.append_nil, parseArg_eq_iff, hend]
        have hlate := commaLate_of_group hflat hl
        exact ⟨⟨fun h => ⟨h.1, Or.inr ⟨rfl, rfl, hlate⟩, trivial⟩, fun h => ⟨h.1, rfl⟩⟩,
          fun h => ⟨h.1, rfl⟩⟩
      · have hlong := parseArg_longer arg l'
        have hnot : ¬ (Flat arg.expr ∨ rest = [] ∧ trailing = false ∧ CommaLate arg.expr) := by
          rintro (hflat' | ⟨rfl, rfl, -⟩)
          · exact hgroup hflat'
          · simp [argsTokens] at hcons
        rw [hcons]
        exact ⟨iff_of_false (fun h => hlong h.1) fun h => hnot h.2.1, fun h => absurd h.2.1 hnot⟩

end Rustyfill.TryFormatArgs
