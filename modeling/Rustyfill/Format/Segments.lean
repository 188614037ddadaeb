import Rustyfill.Format.Arguments

/-!
# Segments between commas

What the input of the macros should be split into: the segments between the commas outside of
groups, of which those that start with an identifier and a single equals sign are named. Whether
an equals sign is single depends on what it is joined to, so the tokens have their spacing here;
the macros do not look at it.
-/

namespace Rustyfill.TryFormatArgs

open Format

set_option autoImplicit false

/-- A token tree, and whether the next character follows at once, in the case of a `Punct`. -/
structure Spaced where
  tree : TokenTree
  joint : Bool

/-- The tokens as the macros look at them. -/
def erase (ts : List Spaced) : List TokenTree := ts.map Spaced.tree

def Spaced.isComma (t : Spaced) : Bool := t.tree = .punct ','

/-! ## `try_write!` and `try_writeln!` -/

/-- The loop that looks for the comma after the destination. -/
def commaPos (depth : Nat) : List TokenTree → Option Nat
  | [] => none
  | .group _ :: rest => (commaPos (depth + 1) rest).map (· + 1)
  | t :: rest => if t = .punct ',' ∧ depth = 0 then some 0 else (commaPos depth rest).map (· + 1)

/-- What the macros expand to: `(dst).write_str(..)`, or `(dst).write_fmt(..)` with the rest handed
to `try_format_args!`, and then `(dst).write_str("\n")` if there is a newline. -/
inductive Expansion where
  | writeStr (dst : List TokenTree) (s : String)
  | writeFmt (dst fmt : List TokenTree) (newline : Bool)
deriving DecidableEq

/-- The body of the two macros, which differ in the newline. -/
def writeWith (newline : Bool) (tts : List TokenTree) : Expansion :=
  match commaPos 0 tts with
  | none => .writeStr tts (if newline then "\n" else "")
  | some idx => .writeFmt (tts.take idx) (tts.drop (idx + 1)) newline

def tryWrite (tts : List TokenTree) : Expansion := writeWith false tts

def tryWriteln (tts : List TokenTree) : Expansion := writeWith true tts

/-- `::lang_std::io::stdout()`. -/
def stdout : List TokenTree :=
  [.punct ':', .punct ':', .ident "lang_std".toList, .punct ':', .punct ':', .ident "io".toList,
    .punct ':', .punct ':', .ident "stdout".toList, .group "()"]

def tryPrint (tokens : List TokenTree) : Expansion := tryWrite (stdout ++ .punct ',' :: tokens)

def tryPrintln (tokens : List TokenTree) : Expansion := tryWriteln (stdout ++ .punct ',' :: tokens)

/-! ## What they should split -/

/-- The segments between the commas, empty ones left out: a comma may come before the first and
after the last. -/
def segments (ts : List Spaced) : List (List Spaced) :=
  (ts.splitOnP Spaced.isComma).filter fun seg => !seg.isEmpty

/-- The equals sign is the first half of `==` or `=>`. -/
def goesOn (joint : Bool) : List Spaced → Bool
  | [] => false
  | t :: _ => joint && (t.tree = .punct '=' || t.tree = .punct '>')

/-- The argument of a segment: named if it starts with an identifier and a single equals sign. -/
def segmentArg : List Spaced → Arg
  | ⟨.ident name, j⟩ :: ⟨.punct '=', joint⟩ :: rest =>
    if goesOn joint rest then ⟨none, erase (⟨.ident name, j⟩ :: ⟨.punct '=', joint⟩ :: rest)⟩
    else ⟨some name, erase rest⟩
  | seg => ⟨none, erase seg⟩

/-- After the literal come exactly the arguments of the segments. -/
def ArgsSplit (value : List Char) (ts : List Spaced) : Prop :=
  parse (.strLit value :: erase ts) = .ok ⟨value, (segments ts).map segmentArg⟩

/-- The destination ends at the first comma outside of a group. -/
def splitDestination (newline : Bool) (tts : List TokenTree) : Expansion :=
  if .punct ',' ∈ tts then
    .writeFmt (tts.takeWhile (· ≠ .punct ',')) ((tts.dropWhile (· ≠ .punct ',')).drop 1) newline
  else .writeStr tts (if newline then "\n" else "")

def DestinationSplit (tts : List TokenTree) : Prop :=
  tryWrite tts = splitDestination false tts ∧ tryWriteln tts = splitDestination true tts

/-! ## Where they do -/

/-- No comma comes after a group. -/
def CommasFirst (l : List TokenTree) : Prop :=
  ∀ l₁ s l₂, l = l₁ ++ .group s :: l₂ → .punct ',' ∉ l₂

/-- No group comes before the first comma. -/
def GroupFree (l : List TokenTree) : Prop :=
  ∀ l₁ l₂, l = l₁ ++ .punct ',' :: l₂ → .punct ',' ∉ l₁ → ∀ t ∈ l₁, ¬ IsGroup t

/-! ## Arguments -/

theorem argTokens_segmentArg (seg : List Spaced) : argTokens (segmentArg seg) = erase seg := by
  unfold segmentArg
  split
  · split_ifs
    · rfl
    · rfl
  · rfl

theorem parseArg_segment (seg : List Spaced) :
    parseArg (erase seg) = segmentArg seg ↔ Binding (segmentArg seg) := by
  rw [← parseArg_eq_iff, argTokens_segmentArg]

theorem parseArgs_nil (n : Nat) : parseArgs n [] = [] := by
  cases n <;> rfl

theorem segments_comma {t : Spaced} {ts : List Spaced} (h : t.isComma = true) :
    segments (t :: ts) = segments ts := by
  rw [segments, List.splitOnP_cons_eq_if_modifyHead, if_pos h]
  rfl

theorem segments_append {l : List Spaced} {sep : Spaced} {ts : List Spaced} (hne : l ≠ [])
    (hl : ∀ t ∈ l, t.isComma = false) (hsep : sep.isComma = true) :
    segments (l ++ sep :: ts) = l :: segments ts := by
  rw [segments, List.splitOnP_append_cons_of_forall_mem hl sep hsep, List.filter_cons_of_pos]
  · rfl
  · rw [Bool.not_eq_true', List.isEmpty_eq_false_iff]
    exact hne

theorem segments_single {l : List Spaced} (hne : l ≠ []) (hl : ∀ t ∈ l, t.isComma = false) :
    segments l = [l] := by
  rw [segments, List.splitOnP_eq_singleton hl, List.filter_cons_of_pos]
  · rfl
  · rw [Bool.not_eq_true', List.isEmpty_eq_false_iff]
    exact hne

theorem isComma_iff {t : Spaced} : t.isComma = true ↔ t.tree = .punct ',' := by
  rw [Spaced.isComma, decide_eq_true_iff]

theorem isComma_of_not_mem {l : List Spaced} (h : .punct ',' ∉ erase l) :
    ∀ t ∈ l, t.isComma = false := by
  intro t ht
  rw [Bool.eq_false_iff, Ne, isComma_iff]
  intro hcomma
  exact h (List.mem_map.mpr ⟨t, ht, hcomma⟩)

theorem flat_no_comma {l : List TokenTree} (h : Flat l) : .punct ',' ∉ l :=
  fun hmem => (h _ hmem).2 rfl

theorem erase_eq_append {ts : List Spaced} {l₁ l₂ : List TokenTree} {x : TokenTree}
    (h : erase ts = l₁ ++ x :: l₂) :
    ∃ s₁ t s₂, ts = s₁ ++ t :: s₂ ∧ erase s₁ = l₁ ∧ t.tree = x ∧ erase s₂ = l₂ := by
  obtain ⟨s₁, s, rfl, hs₁, hs⟩ := List.map_eq_append_iff.mp h
  obtain ⟨t, s₂, rfl, ht, hs₂⟩ := List.map_eq_cons_iff.mp hs
  exact ⟨s₁, t, s₂, rfl, hs₁, ht, hs₂⟩

theorem commasFirst_comma {l₁ l₂ : List TokenTree} (h : Flat l₁) :
    CommasFirst (l₁ ++ .punct ',' :: l₂) ↔ CommasFirst l₂ := by
  constructor
  · intro hfirst m₁ s m₂ hl
    apply hfirst (l₁ ++ .punct ',' :: m₁) s m₂
    rw [hl, List.append_assoc, List.cons_append]
  · intro hfirst m₁ s m₂ hl
    rcases List.append_eq_append_iff.mp hl with ⟨c, hc, hc'⟩ | ⟨c, hc, hc'⟩
    · cases c with
      | nil => cases hc'
      | cons x c =>
        obtain ⟨-, hc'⟩ := List.cons.inj hc'
        exact hfirst c s m₂ hc'
    · cases c with
      | nil => cases hc'
      | cons x c =>
        obtain ⟨rfl, -⟩ := List.cons.inj hc'
        exact ((h (.group s) (by rw [hc]; simp)).1 ⟨s, rfl⟩).elim

theorem commasFirst_flat {l : List TokenTree} (h : Flat l) : CommasFirst l := by
  intro l₁ s l₂ hl
  refine absurd ⟨s, rfl⟩ (h (.group s) ?_).1
  rw [hl]
  simp

theorem first_comma {ts : List Spaced} (h : .punct ',' ∈ erase ts) :
    ∃ l sep rest, ts = l ++ sep :: rest ∧ .punct ',' ∉ erase l ∧ sep.tree = .punct ',' := by
  obtain ⟨l₁, l₂, hl, hnot⟩ := List.eq_append_cons_of_mem h
  obtain ⟨s₁, t, s₂, rfl, rfl, ht, -⟩ := erase_eq_append hl
  exact ⟨s₁, t, s₂, rfl, hnot, ht⟩

theorem isComma_sep {sep : Spaced} (h : sep.tree = .punct ',') : sep.isComma = true :=
  isComma_iff.mpr h

theorem erase_append (l : List Spaced) {sep : Spaced} (hsep : sep.tree = .punct ',')
    (rest : List Spaced) : erase (l ++ sep :: rest) = erase l ++ .punct ',' :: erase rest := by
  rw [erase, List.map_append, List.map_cons, hsep]
  rfl

/-- A group that is not in the last segment takes the segments after it along. -/
theorem parseArgs_group {ts : List Spaced} {l₁ l₂ : List TokenTree} {s : String}
    (hflat : Flat l₁) (htokens : erase ts = l₁ ++ .group s :: l₂)
    (hhead : ∀ t ∈ ts.head?, t.tree ≠ .punct ',') :
    [parseArg (erase ts)] = (segments ts).map segmentArg ↔
      CommasFirst (erase ts) ∧ ∀ seg ∈ segments ts, Binding (segmentArg seg) := by
  by_cases hmem : .punct ',' ∈ erase ts
  · obtain ⟨l, sep, rest, rfl, hnot, hsep⟩ := first_comma hmem
    have hne : l ≠ [] := by
      rintro rfl
      exact hhead sep rfl hsep
    rw [segments_append hne (isComma_of_not_mem hnot) (isComma_sep hsep), List.map_cons]
    refine iff_of_false (fun heq => ?_) (fun h => ?_)
    · have hlong := parseArg_longer (segmentArg l) (erase rest)
      rw [argTokens_segmentArg, ← erase_append l hsep] at hlong
      exact hlong (List.cons.inj heq).1
    · apply h.1 l₁ s l₂ htokens
      rw [htokens, List.mem_append, List.mem_cons] at hmem
      rcases hmem with hmem | hmem | hmem
      · exact absurd hmem (flat_no_comma hflat)
      · cases hmem
      · exact hmem
  · have hne : ts ≠ [] := by
      rintro rfl
      simp [erase] at htokens
    have hfirst : CommasFirst (erase ts) := by
      intro m₁ s' m₂ hl hcomma
      apply hmem
      rw [hl]
      exact List.mem_append_right _ (List.mem_cons_of_mem _ hcomma)
    rw [segments_single hne (isComma_of_not_mem hmem), List.map_singleton, List.singleton_inj,
      parseArg_segment, List.forall_mem_singleton, and_iff_right hfirst]

/-- The arguments are those of the segments exactly if no comma is swallowed and each binds as it
is written. -/
theorem parseArgs_segments (n : Nat) (ts : List Spaced) (hn : ts.length ≤ n) :
    parseArgs n (erase ts) = (segments ts).map segmentArg ↔
      CommasFirst (erase ts) ∧ ∀ seg ∈ segments ts, Binding (segmentArg seg) := by
  induction n generalizing ts with
  | zero =>
    obtain rfl := List.length_eq_zero_iff.mp (Nat.le_zero.mp hn)
    exact iff_of_true rfl ⟨commasFirst_flat (fun t ht => nomatch ht), fun seg hseg => nomatch hseg⟩
  | succ n ih =>
    rcases ts with _ | ⟨t, rest⟩
    · exact iff_of_true rfl
        ⟨commasFirst_flat (fun t ht => nomatch ht), fun seg hseg => nomatch hseg⟩
    · by_cases hcomma : t.tree = .punct ','
      · have hfirst := @commasFirst_comma [] (erase rest) (fun t ht => nomatch ht)
        have htokens : erase (t :: rest) = .punct ',' :: erase rest := erase_append [] hcomma rest
        rw [segments_comma (isComma_sep hcomma), htokens, parseArgs_comma,
          ih rest (Nat.le_of_succ_le_succ hn), ← hfirst, List.nil_append]
      · have hparse := parseArgs_cons n hcomma (erase rest)
        have htokens : t.tree :: erase rest = erase (t :: rest) := rfl
        rw [htokens] at hparse
        rcases flat_cases (erase (t :: rest)) with
          hflat | ⟨l₁, l₂, hl, hflat⟩ | ⟨l₁, s, l₂, hl, hflat⟩
        · -- it is the only one
          rw [hparse, collectArgTrees_flat hflat, parseArgs_nil,
            segments_single (List.cons_ne_nil _ _) (isComma_of_not_mem (flat_no_comma hflat)),
            List.map_singleton, List.singleton_inj, parseArg_segment, List.forall_mem_singleton,
            and_iff_right (commasFirst_flat hflat)]
        · -- it ends at the first comma
          obtain ⟨seg, sep, after, hts, rfl, hsep, rfl⟩ := erase_eq_append hl
          have hne : seg ≠ [] := by
            rintro rfl
            obtain ⟨rfl, -⟩ := List.cons.inj hts
            exact hcomma hsep
          have hafter : after.length ≤ n := by
            have hlen := congrArg List.length hts
            rw [List.length_append, List.length_cons, List.length_cons] at hlen
            rw [List.length_cons] at hn
            have := List.length_pos_iff.mpr hne
            omega
          have hnot := isComma_of_not_mem (flat_no_comma hflat)
          rw [hparse, hl, collectArgTrees_comma hflat, hts,
            segments_append hne hnot (isComma_sep hsep), List.map_cons, List.cons.injEq,
            parseArg_segment, ih after hafter, commasFirst_comma hflat, List.forall_mem_cons]
          exact and_left_comm
        · -- nothing ends it
          rw [hparse, hl, collectArgTrees_group hflat, parseArgs_nil, ← hl]
          apply parseArgs_group hflat hl
          intro t' ht'
          cases ht'
          exact hcomma

/-! ## Destinations -/

theorem commaPos_succ (depth : Nat) (l : List TokenTree) : commaPos (depth + 1) l = none := by
  induction l generalizing depth with
  | nil => rfl
  | cons t l ih =>
    cases t with
    | group s => simp only [commaPos, ih, Option.map_none]
    | punct c => simp only [commaPos, Nat.succ_ne_zero, and_false, if_false, ih, Option.map_none]
    | ident n => simp only [commaPos, Nat.succ_ne_zero, and_false, if_false, ih, Option.map_none]
    | strLit v => simp only [commaPos, Nat.succ_ne_zero, and_false, if_false, ih, Option.map_none]
    | literal x => simp only [commaPos, Nat.succ_ne_zero, and_false, if_false, ih, Option.map_none]

theorem commaPos_cons {t : TokenTree} (hgroup : ¬ IsGroup t) (hcomma : t ≠ .punct ',')
    (l : List TokenTree) : commaPos 0 (t :: l) = (commaPos 0 l).map (· + 1) := by
  cases t with
  | group s => exact absurd ⟨s, rfl⟩ hgroup
  | punct c => rw [commaPos, if_neg (fun h => hcomma h.1)]; simp
  | ident n => rw [commaPos, if_neg (fun h => hcomma h.1)]; simp
  | strLit v => rw [commaPos, if_neg (fun h => hcomma h.1)]; simp
  | literal x => rw [commaPos, if_neg (fun h => hcomma h.1)]; simp

theorem commaPos_flat {l : List TokenTree} (h : Flat l) (rest : List TokenTree) :
    commaPos 0 (l ++ .punct ',' :: rest) = some l.length := by
  induction l with
  | nil => rfl
  | cons t l ih =>
    obtain ⟨⟨hgroup, hcomma⟩, hl⟩ := List.forall_mem_cons.mp h
    rw [List.cons_append, commaPos_cons hgroup hcomma, ih hl]
    rfl

theorem commaPos_none {l : List TokenTree} (hcomma : .punct ',' ∉ l) (rest : List TokenTree)
    (hrest : (∃ t ∈ l, IsGroup t) ∨ rest = []) : commaPos 0 (l ++ rest) = none := by
  induction l with
  | nil =>
    rcases hrest with ⟨t, ht, -⟩ | rfl
    · cases ht
    · rfl
  | cons t l ih =>
    rw [List.mem_cons, not_or] at hcomma
    by_cases hgroup : IsGroup t
    · obtain ⟨s, rfl⟩ := hgroup
      rw [List.cons_append, commaPos, commaPos_succ]
      rfl
    · rw [List.cons_append, commaPos_cons hgroup (Ne.symm hcomma.1), ih hcomma.2]
      · rfl
      · rw [List.exists_mem_cons_iff] at hrest
        exact hrest.imp_left (fun h => h.resolve_left hgroup)

theorem splitDestination_comma {l : List TokenTree} (hcomma : .punct ',' ∉ l) (newline : Bool)
    (rest : List TokenTree) :
    splitDestination newline (l ++ .punct ',' :: rest) = .writeFmt l rest newline := by
  have hl : ∀ t ∈ l, decide (t ≠ .punct ',') = true := by
    intro t ht
    rw [decide_eq_true_iff]
    rintro rfl
    exact hcomma ht
  rw [splitDestination, if_pos (by simp), List.takeWhile_append_of_pos hl,
    List.dropWhile_append_of_pos hl]
  simp

theorem groupFree_comma {l : List TokenTree} (hcomma : .punct ',' ∉ l) (rest : List TokenTree) :
    GroupFree (l ++ .punct ',' :: rest) ↔ ∀ t ∈ l, ¬ IsGroup t := by
  constructor
  · intro hfree
    exact hfree l rest rfl hcomma
  · intro hfree l₁ l₂ hl hnot
    rcases List.append_eq_append_iff.mp hl with ⟨c, rfl, hc⟩ | ⟨c, rfl, hc⟩
    · cases c with
      | nil =>
        rw [List.append_nil]
        exact hfree
      | cons t c =>
        obtain ⟨rfl, -⟩ := List.cons.inj hc
        simp at hnot
    · intro t ht
      exact hfree t (List.mem_append_left _ ht)

/-- The destination is split off exactly if no group comes before the first comma. -/
theorem destinationSplit_iff (tts : List TokenTree) : DestinationSplit tts ↔ GroupFree tts := by
  by_cases hmem : .punct ',' ∈ tts
  · obtain ⟨l, rest, rfl, hcomma⟩ := List.eq_append_cons_of_mem hmem
    rw [groupFree_comma hcomma, DestinationSplit, splitDestination_comma hcomma,
      splitDestination_comma hcomma, tryWrite, tryWriteln, writeWith, writeWith]
    by_cases hgroup : ∃ t ∈ l, IsGroup t
    · rw [commaPos_none hcomma _ (Or.inl hgroup)]
      refine iff_of_false (fun h => nomatch h.1) (fun h => ?_)
      obtain ⟨t, ht, hg⟩ := hgroup
      exact h t ht hg
    · have hfree : ∀ t ∈ l, ¬ IsGroup t := fun t ht hg => hgroup ⟨t, ht, hg⟩
      have hflat : Flat l := fun t ht => ⟨hfree t ht, fun heq => hcomma (heq ▸ ht)⟩
      rw [commaPos_flat hflat]
      refine iff_of_true ?_ hfree
      simp
  · have hnone := commaPos_none hmem [] (Or.inr rfl)
    rw [List.append_nil] at hnone
    rw [DestinationSplit, splitDestination, splitDestination, if_neg hmem, if_neg hmem, tryWrite,
      tryWriteln, writeWith, writeWith, hnone]
    refine iff_of_true ⟨rfl, rfl⟩ ?_
    intro l₁ l₂ hl
    refine absurd ?_ hmem
    rw [hl]
    simp

/-- What is printed is never looked at: the call of `stdout()` is a group. -/
theorem tryPrint_eq (tokens : List TokenTree) :
    tryPrint tokens = .writeStr (stdout ++ .punct ',' :: tokens) "" ∧
      tryPrintln tokens = .writeStr (stdout ++ .punct ',' :: tokens) "\n" := by
  have hnone : commaPos 0 (stdout ++ .punct ',' :: tokens) = none := by
    apply commaPos_none
    · simp [stdout]
    · exact Or.inl ⟨.group "()", by simp [stdout], "()", rfl⟩
  rw [tryPrint, tryPrintln, tryWrite, tryWriteln, writeWith, writeWith, hnone]
  exact ⟨rfl, rfl⟩

/-! ## Both -/

theorem argsSplit_iff (value : List Char) (ts : List Spaced) : ArgsSplit value ts ↔
    CommasFirst (erase ts) ∧ ∀ seg ∈ segments ts, Binding (segmentArg seg) := by
  rw [ArgsSplit, parse, ← parseArgs_segments (erase ts).length ts (by simp [erase])]
  simp

/-- The macros split their input as they should exactly if no comma comes after a group among the
arguments, every segment binds as it is written, and no group comes before the comma after a
destination. -/
theorem macros_split_iff (value : List Char) (ts : List Spaced) (tts : List TokenTree) :
    (ArgsSplit value ts ↔
      CommasFirst (erase ts) ∧ ∀ seg ∈ segments ts, Binding (segmentArg seg)) ∧
    (DestinationSplit tts ↔ GroupFree tts) :=
  ⟨argsSplit_iff value ts, destinationSplit_iff tts⟩

/-- `f(1), x` is taken for one argument, and `f(1), "{}"` for a destination. -/
theorem call_swallows_comma :
    ¬ (∀ value ts, ArgsSplit value ts) ∧ ¬ ∀ tts, DestinationSplit tts := by
  constructor
  · intro h
    have hsplit := h "{} {}".toList [⟨.punct ',', false⟩, ⟨.ident ['f'], false⟩,
      ⟨.group "(1)", false⟩, ⟨.punct ',', false⟩, ⟨.ident ['x'], false⟩]
    obtain ⟨hfirst, -⟩ := (argsSplit_iff _ _).mp hsplit
    exact hfirst [.punct ',', .ident ['f']] "(1)" [.punct ',', .ident ['x']] rfl (by simp)
  · intro h
    have hfree := (destinationSplit_iff _).mp
      (h [.ident ['f'], .group "(1)", .punct ',', .strLit "{}".toList])
    exact hfree [.ident ['f'], .group "(1)"] [.strLit "{}".toList] rfl (by simp) (.group "(1)")
      (by simp) ⟨"(1)", rfl⟩

end Rustyfill.TryFormatArgs
