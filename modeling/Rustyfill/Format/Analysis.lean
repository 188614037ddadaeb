import Rustyfill.Format.Scan

/-!
# What the analysis finds out

For every slot the analysis keeps the wrapper that the readings of the placeholders with that slot
agree on, and `TryDisplayWrapper` if they do not agree; widths and precisions change nothing. The
readings of the placeholders that do not give their argument are kept together.
-/

namespace Rustyfill.TryFormatArgs

open Format

set_option autoImplicit false

variable {u : Unicode}

/-- What readings come to: the wrapper they agree on, or else the one for display. -/
def combine : List Wrapper → Option Wrapper
  | [] => none
  | w :: ws => if ws.all (· == w) then some w else some .display

/-- The readings of the placeholders whose argument is taken for a slot. -/
def readsAt (u : Unicode) (slot : Slot) (s : FormatString) : List Wrapper :=
  (placeholders s).filterMap fun p =>
    if readSlot u p.argument = some slot then some (readPlaceholder u p) else none

/-- What a placeholder adds to the readings of those that do not give their argument. -/
def autoReading (u : Unicode) (p : Placeholder) : List Wrapper :=
  (if readSlot u p.argument = none then [readPlaceholder u p] else []) ++
    if strays u p then [.display] else []

/-- The readings of the placeholders that do not give their argument. -/
def autoReads (u : Unicode) (s : FormatString) : List Wrapper :=
  (placeholders s).flatMap (autoReading u)

/-! ## Merging -/

/-- The kind of readings that have been merged. -/
def total : List Wrapper → WrapKind
  | [] => .measure
  | w :: ws => if ws.all (· == w) then w.kind else .multi

/-- The entry of a map after readings, and any widths and precisions, have been merged. -/
def Sums (old : Option WrapKind) (ws : List Wrapper) : Prop :=
  old = some (total ws) ∨ old = none ∧ ws = []

@[simp] theorem Wrapper.kind_wrapper (w : Wrapper) : w.kind.wrapper = some w := by
  cases w <;> rfl

theorem Wrapper.kind_ne_measure (w : Wrapper) : w.kind ≠ .measure := by
  cases w <;> decide

theorem Wrapper.kind_ne_multi (w : Wrapper) : w.kind ≠ .multi := by
  cases w <;> decide

theorem Wrapper.kind_inj {v w : Wrapper} (h : v.kind = w.kind) : v = w := by
  have := congrArg WrapKind.wrapper h
  simpa using this

@[simp] theorem WrapKind.merge_measure (k : WrapKind) : k.merge .measure = k := by
  cases k <;> rfl

theorem Sums.measure {old : Option WrapKind} {ws : List Wrapper} (h : Sums old ws) :
    Sums (some (FormatAnalysis.merged old .measure)) ws := by
  rcases h with rfl | ⟨rfl, rfl⟩
  · left
    rw [FormatAnalysis.merged, WrapKind.merge_measure]
  · exact Or.inl rfl

theorem total_append (ws : List Wrapper) (w : Wrapper) :
    (total ws).merge w.kind = total (ws ++ [w]) := by
  cases ws with
  | nil => cases w <;> rfl
  | cons v t =>
    have hw := w.kind_ne_measure
    simp only [total, List.cons_append, List.all_append, List.all_cons, List.all_nil,
      Bool.and_true]
    by_cases hall : t.all (· == v) = true
    · rw [if_pos hall, hall, Bool.true_and]
      by_cases hvw : w = v
      · subst hvw
        simp [WrapKind.merge]
      · have hkind : v.kind ≠ w.kind := fun heq => hvw (Wrapper.kind_inj heq).symm
        rw [WrapKind.merge, if_neg hkind, if_neg v.kind_ne_measure, if_neg hw,
          if_neg (by simp [hvw])]
    · have hmulti : WrapKind.multi ≠ w.kind := w.kind_ne_multi.symm
      rw [if_neg hall, WrapKind.merge, if_neg hmulti, if_neg (by decide), if_neg hw,
        if_neg (by simp [hall])]

theorem Sums.read {old : Option WrapKind} {ws : List Wrapper} (h : Sums old ws) (w : Wrapper) :
    Sums (some (FormatAnalysis.merged old w.kind)) (ws ++ [w]) := by
  rcases h with rfl | ⟨rfl, rfl⟩
  · exact Or.inl (congrArg some (total_append ws w))
  · exact Or.inl rfl

theorem Sums.wrapper {old : Option WrapKind} {ws : List Wrapper} (h : Sums old ws) :
    old.bind WrapKind.wrapper = combine ws := by
  rcases h with rfl | ⟨rfl, rfl⟩
  · cases ws with
    | nil => rfl
    | cons w t =>
      simp only [Option.bind_some, total, combine]
      split
      · exact w.kind_wrapper
      · rfl
  · rfl

theorem autoDefault_eq (ws : List Wrapper) :
    autoDefault (ws.map Wrapper.kind) = (combine ws).map Wrapper.kind := by
  cases ws with
  | nil => rfl
  | cons w t =>
    have hall : (t.map Wrapper.kind).all (· == w.kind) = t.all (· == w) := by
      rw [List.all_map]
      congr 1
      funext v
      have hiff : v.kind = w.kind ↔ v = w := ⟨Wrapper.kind_inj, congrArg _⟩
      simp only [Function.comp_apply, beq_eq_beq, hiff]
    simp only [List.map_cons, autoDefault, List.all_cons, beq_self_eq_true, Bool.true_and, hall,
      combine]
    split <;> rfl

/-! ## What is left to scan -/

theorem formatChar_suffix (a : FormatAnalysis) (chars : List Char) :
    (formatChar a chars).2.2 <:+ chars := by
  cases chars with
  | nil => exact List.suffix_refl _
  | cons c rest =>
    rw [formatChar]
    split
    · exact List.suffix_refl _
    · exact List.suffix_cons ..

theorem parseArgSpec_suffix (u : Unicode) (chars : List Char) :
    (parseArgSpec u chars).2 <:+ chars := by
  cases chars with
  | nil => exact List.suffix_refl _
  | cons c rest =>
    rw [parseArgSpec]
    split
    · exact List.suffix_refl _
    · split
      · exact List.dropWhile_suffix _
      · dsimp only
        split
        · exact List.suffix_refl _
        · exact List.dropWhile_suffix _

theorem parseWidth_suffix (a : FormatAnalysis) (chars : List Char) :
    (parseWidthOrPrecision a chars).2 <:+ chars := by
  cases chars with
  | nil => exact List.suffix_refl _
  | cons c rest =>
    rw [parseWidthOrPrecision]
    split
    · exact List.suffix_cons ..
    · split
      · have hdrop := @List.dropWhile_suffix _ (c :: rest) Char.isDigit
        split
        · rename_i heq
          rw [heq] at hdrop
          exact (List.suffix_cons ..).trans hdrop
        · exact hdrop
      · exact List.suffix_refl _

theorem parsePrecision_suffix (a : FormatAnalysis) (chars : List Char) :
    (parsePrecision a chars).2 <:+ chars := by
  unfold parsePrecision
  split
  · exact (parseWidth_suffix a _).trans (List.suffix_cons ..)
  · exact List.suffix_refl _

theorem parseIdent_suffix (u : Unicode) (a : FormatAnalysis) (chars : List Char) :
    (parseIdent u a chars).2.2 <:+ chars := by
  cases chars with
  | nil => exact List.suffix_refl _
  | cons c rest =>
    rw [parseIdent]
    split
    · have hdrop := @List.dropWhile_suffix _ (c :: rest) (isIdentChar u)
      dsimp only
      split
      · rename_i heq
        rw [heq] at hdrop
        exact (formatChar_suffix _ _).trans ((List.suffix_cons ..).trans hdrop)
      · exact hdrop
    · exact formatChar_suffix a _

theorem parseFormatSpec_suffix (u : Unicode) (a : FormatAnalysis) (chars : List Char) :
    (parseFormatSpec u a chars).2.2 <:+ chars :=
  ((parseIdent_suffix u _ _).trans (parsePrecision_suffix _ _)).trans
    ((parseWidth_suffix a _).trans (List.dropWhile_suffix _))

/-- The scan of a placeholder leaves a part of the string that is at its end. -/
theorem analyzePlaceholder_suffix (u : Unicode) (a : FormatAnalysis) (chars : List Char) :
    (analyzePlaceholder u a chars).2 <:+ chars := by
  have harg := parseArgSpec_suffix u chars
  unfold analyzePlaceholder
  dsimp only
  refine (List.drop_suffix 1 _).trans ?_
  split
  · rename_i heq
    rw [heq] at harg
    exact (parseFormatSpec_suffix u a _).trans ((List.suffix_cons ..).trans harg)
  · exact harg

/-! ## The whole string -/

def FormatAnalysis.get (a : FormatAnalysis) : Slot → Option WrapKind
  | .index i => a.positional i
  | .name s => a.named s

structure Tracks (a : FormatAnalysis) (reads : Slot → List Wrapper) (autos : List Wrapper) :
    Prop where
  sums : ∀ slot, Sums (a.get slot) (reads slot)
  autoKinds : a.autoKinds = autos.map Wrapper.kind

/-- The analysis after a new entry for a slot. -/
def FormatAnalysis.mergeAt (a : FormatAnalysis) : Slot → WrapKind → FormatAnalysis
  | .index i, kind => a.mergeKindP i kind
  | .name s, kind => a.mergeKindN s kind

theorem FormatAnalysis.get_mergeAt (a : FormatAnalysis) (m slot : Slot) (kind : WrapKind) :
    (a.mergeAt m kind).get slot =
      if slot = m then some (merged (a.get slot) kind) else a.get slot := by
  cases m with
  | index i =>
    cases slot with
    | index j => by_cases h : j = i <;> simp [mergeAt, get, mergeKindP, h]
    | name s => simp [mergeAt, get, mergeKindP]
  | name t =>
    cases slot with
    | index j => simp [mergeAt, get, mergeKindN]
    | name s => by_cases h : s = t <;> simp [mergeAt, get, mergeKindN, h]

theorem FormatAnalysis.autoKinds_mergeAt (a : FormatAnalysis) (m : Slot) (kind : WrapKind) :
    (a.mergeAt m kind).autoKinds = a.autoKinds := by
  cases m <;> rfl

theorem noteMeasure_eq (a : FormatAnalysis) (m : Slot) :
    noteMeasure a m = a.mergeAt m .measure := by
  cases m <;> rfl

theorem record_some (a : FormatAnalysis) (m : Slot) (kind : WrapKind) :
    record a (argKindOf (some m)) kind = a.mergeAt m kind := by
  cases m <;> rfl

section
variable {a : FormatAnalysis} {reads : Slot → List Wrapper} {autos : List Wrapper}

theorem Tracks.measure (h : Tracks a reads autos) (m : Slot) :
    Tracks (noteMeasure a m) reads autos := by
  rw [noteMeasure_eq]
  refine ⟨fun slot => ?_, (a.autoKinds_mergeAt m _).trans h.autoKinds⟩
  rw [a.get_mergeAt]
  split
  · exact (h.sums slot).measure
  · exact h.sums slot

theorem Tracks.measures (h : Tracks a reads autos) (ms : List Slot) :
    Tracks (ms.foldl noteMeasure a) reads autos := by
  induction ms generalizing a with
  | nil => exact h
  | cons m ms ih => exact ih (h.measure m)

theorem Tracks.pushAuto (h : Tracks a reads autos) (w : Wrapper) :
    Tracks (a.pushAuto w.kind) reads (autos ++ [w]) := by
  refine ⟨h.sums, ?_⟩
  rw [FormatAnalysis.pushAuto, h.autoKinds, List.map_append]
  rfl

/-- The reading of a placeholder whose argument is taken for `slot`, or for none. -/
theorem Tracks.record (h : Tracks a reads autos) (slot : Option Slot) (w : Wrapper) :
    Tracks (record a (argKindOf slot) w.kind)
      (fun m => reads m ++ if slot = some m then [w] else [])
      (autos ++ if slot = none then [w] else []) := by
  cases slot with
  | none => simpa [TryFormatArgs.record, argKindOf] using h.pushAuto w
  | some m =>
    rw [record_some]
    refine ⟨fun m' => ?_, ?_⟩
    · rw [a.get_mergeAt]
      by_cases hm : m' = m
      · rw [if_pos hm, if_pos (congrArg some hm.symm)]
        exact (h.sums m').read w
      · rw [if_neg hm, if_neg (fun heq => hm (Option.some.inj heq).symm), List.append_nil]
        exact h.sums m'
    · rw [a.autoKinds_mergeAt, h.autoKinds]
      simp

theorem analyzeLoop_skip {l : List Char} (hl : '{' ∉ l) (rest : List Char) {n : Nat}
    (hn : (l ++ rest).length ≤ n) :
    ∃ n', rest.length ≤ n' ∧ analyzeLoop u n a (l ++ rest) = analyzeLoop u n' a rest := by
  induction l generalizing n with
  | nil => exact ⟨n, hn, rfl⟩
  | cons c l ih =>
    rw [List.mem_cons, not_or] at hl
    obtain ⟨n, rfl⟩ : ∃ m, n = m + 1 := ⟨n - 1, by simp at hn; omega⟩
    obtain ⟨n', hn', hloop⟩ := ih hl.2 (n := n) (by simpa using hn)
    refine ⟨n', hn', ?_⟩
    rw [List.cons_append, ← hloop]
    exact if_pos (Ne.symm hl.1)

theorem analyzeLoop_brace {c : Char} (hc : c ≠ '{') (l : List Char) (n : Nat) :
    analyzeLoop u (n + 1) a ('{' :: c :: l) =
      analyzeLoop u n (analyzePlaceholder u a (c :: l)).1 (analyzePlaceholder u a (c :: l)).2 := by
  simp only [analyzeLoop, ne_eq, not_true_eq_false, if_false]
  split
  · rename_i heq
    exact absurd (List.cons.inj heq).1 hc
  · rfl

/-- Nor is what is left of a placeholder a placeholder, but for a fill character that strays. -/
theorem analyzeLoop_leaves {stray : Bool} {l : List Char} (hl : Leaves stray l)
    (rest : List Char) {n : Nat} (hn : (l ++ rest).length ≤ n) :
    ∃ n', rest.length ≤ n' ∧ analyzeLoop u n a (l ++ rest) =
      analyzeLoop u n' (if stray then a.pushAuto .display else a) rest := by
  rcases hl with ⟨rfl, hl⟩ | ⟨rfl, l₁, al, l₂, rfl, h₁, h₂⟩
  · exact analyzeLoop_skip hl rest hn
  · rw [List.append_assoc] at hn ⊢
    obtain ⟨n₁, hn₁, hloop₁⟩ := @analyzeLoop_skip u a l₁ h₁ ('{' :: al.char :: l₂ ++ rest) n hn
    obtain ⟨n₁, rfl⟩ : ∃ m, n₁ = m + 1 := ⟨n₁ - 1, by simp at hn₁; omega⟩
    obtain ⟨n₂, hn₂, hloop₂⟩ := @analyzeLoop_skip u (a.pushAuto .display) l₂ h₂ rest n₁
      (by simp at hn₁; simp; omega)
    refine ⟨n₂, hn₂, ?_⟩
    have hopen : al.char ≠ '{' := (@Align.char_cases u al).2.2.2.2.1
    rw [hloop₁, List.cons_append, List.cons_append, analyzeLoop_brace hopen,
      analyzePlaceholder_align, hloop₂]
    rfl

/-- The body of a placeholder does not start with a brace that would double its own. -/
theorem body_cons {p : Placeholder} (hplain : PlainPlaceholder u p) (rest : List Char) :
    ∃ c l, p.body ++ rest = c :: l ∧ c ≠ '{' := by
  have hne : ∀ l : List Char, l ≠ [] → '{' ∉ l → ∀ l', ∃ c t, l ++ l' = c :: t ∧ c ≠ '{' := by
    intro l hnil hl l'
    obtain ⟨c, t, rfl⟩ := List.exists_cons_of_ne_nil hnil
    refine ⟨c, t ++ l', rfl, ?_⟩
    rintro rfl
    exact hl (List.mem_cons_self ..)
  unfold Placeholder.body Placeholder.argumentChars
  rcases harg : p.argument with _ | x
  · unfold Placeholder.specChars
    rcases p.spec with _ | s
    · simpa using hne (p.trailing ++ ['}']) (by simp)
        (by simpa using no_brace_of_whitespace p.whitespace) rest
    · exact ⟨':', _, rfl, by decide⟩
  · have hx := hplain.argument x harg
    have hnil : x.chars ≠ [] := by
      cases x with
      | index n => exact n.ne_nil
      | name s =>
        obtain ⟨c, t, hs, -⟩ := IsIdent.start hx
        simp [Parameter.chars, hs]
    simpa using hne x.chars hnil (Parameter.Plain.no_brace hx)
      (p.specChars ++ (p.trailing ++ ['}']) ++ rest)

theorem analyzeLoop_placeholder {p : Placeholder} (hplain : PlainPlaceholder u p)
    (h : Tracks a reads autos) (rest : List Char) {n : Nat}
    (hn : ('{' :: (p.body ++ rest)).length ≤ n) :
    ∃ n' a', rest.length ≤ n' ∧
      analyzeLoop u n a ('{' :: (p.body ++ rest)) = analyzeLoop u n' a' rest ∧
      Tracks a' (fun m => reads m ++ if readSlot u p.argument = some m then [readPlaceholder u p]
        else []) (autos ++ autoReading u p) := by
  obtain ⟨n, rfl⟩ : ∃ m, n = m + 1 := ⟨n - 1, by simp at hn; omega⟩
  obtain ⟨ms, l, hl, hscan⟩ := @analyzePlaceholder_spec u a p hplain rest
  have htracks := (h.measures ms).record (readSlot u p.argument) (readPlaceholder u p)
  obtain ⟨c, t, hbody, hc⟩ := body_cons hplain rest
  have hsuffix := analyzePlaceholder_suffix u a (p.body ++ rest)
  rw [hscan] at hsuffix
  have hlen : (l ++ rest).length ≤ n := hsuffix.length_le.trans (by simpa using hn)
  generalize record (ms.foldl noteMeasure a) (argKindOf (readSlot u p.argument))
    (readPlaceholder u p).kind = a₁ at hscan htracks
  obtain ⟨n', hn', hloop⟩ := @analyzeLoop_leaves u a₁ _ l hl rest n hlen
  refine ⟨n', if strays u p then a₁.pushAuto .display else a₁, hn', ?_, ?_⟩
  · rw [hbody, analyzeLoop_brace hc, ← hbody, hscan]
    exact hloop
  · unfold autoReading
    rw [← List.append_assoc]
    by_cases hstray : strays u p = true
    · rw [if_pos hstray, if_pos hstray]
      exact htracks.pushAuto .display
    · rw [if_neg hstray, if_neg hstray, List.append_nil]
      exact htracks

theorem readsAt_cons (slot : Slot) (p : Placeholder) (s : FormatString) :
    readsAt u slot (.placeholder p :: s) =
      (if readSlot u p.argument = some slot then [readPlaceholder u p] else []) ++
        readsAt u slot s := by
  unfold readsAt
  rw [placeholders, List.filterMap_cons]
  by_cases hslot : readSlot u p.argument = some slot
  · simp only [if_pos hslot, List.singleton_append]
  · simp only [if_neg hslot, List.nil_append]

theorem autoReads_cons (p : Placeholder) (s : FormatString) :
    autoReads u (.placeholder p :: s) = autoReading u p ++ autoReads u s := rfl

theorem analyzeLoop_tracks {s : FormatString} (hplain : ∀ p ∈ placeholders s, PlainPlaceholder u p)
    (h : Tracks a reads autos) {n : Nat} (hn : (render s).length ≤ n) :
    Tracks (analyzeLoop u n a (render s)) (fun m => reads m ++ readsAt u m s)
      (autos ++ autoReads u s) := by
  induction s generalizing a reads autos n with
  | nil =>
    have hloop : analyzeLoop u n a (render []) = a := by cases n <;> rfl
    rw [hloop]
    simpa [readsAt, autoReads, placeholders] using h
  | cons piece s ih =>
    cases piece with
    | text c =>
      have hrender : render (.text c :: s) = (Piece.text c).chars ++ render s := rfl
      rw [hrender] at hn ⊢
      by_cases hopen : c = '{'
      · subst hopen
        obtain ⟨n, rfl⟩ : ∃ m, n = m + 1 := ⟨n - 1, by simp [Piece.chars] at hn; omega⟩
        have hloop : analyzeLoop u (n + 1) a ((Piece.text '{').chars ++ render s) =
            analyzeLoop u n a (render s) := rfl
        rw [hloop]
        exact ih hplain h (by simp [Piece.chars] at hn; omega)
      · have hbrace : '{' ∉ (Piece.text c).chars := by
          have hne : ¬ '{' = c := fun h => hopen h.symm
          change '{' ∉ if c = '{' ∨ c = '}' then [c, c] else [c]
          split
          · simpa using hne
          · simpa using hne
        obtain ⟨n', hn', hloop⟩ := @analyzeLoop_skip u a _ hbrace (render s) n hn
        rw [hloop]
        exact ih hplain h hn'
    | placeholder p =>
      obtain ⟨hp, hs⟩ := List.forall_mem_cons.mp hplain
      have hrender : render (.placeholder p :: s) = '{' :: (p.body ++ render s) := rfl
      rw [hrender] at hn ⊢
      obtain ⟨n', a', hn', hloop, htracks⟩ := analyzeLoop_placeholder hp h (render s) hn
      have hrest := ih hs htracks hn'
      rw [hloop]
      simpa only [readsAt_cons, autoReads_cons, List.append_assoc] using hrest

end

theorem analyzeFormatString_tracks {s : FormatString}
    (hplain : ∀ p ∈ placeholders s, PlainPlaceholder u p) :
    Tracks (analyzeFormatString u (render s)) (fun m => readsAt u m s) (autoReads u s) := by
  have hempty : Tracks .empty (fun _ => []) [] := by
    refine ⟨fun slot => Or.inr ⟨?_, rfl⟩, rfl⟩
    cases slot <;> rfl
  have htracks := analyzeLoop_tracks hplain hempty (Nat.le_refl _)
  unfold analyzeFormatString
  simpa using htracks

end Rustyfill.TryFormatArgs
