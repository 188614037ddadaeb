import Rustyfill.DocJson.TypeSpine

/-!
# Paths, bounds and arguments are read back

What the grammar reads off the text of a path, a bound or a list of arguments, as long as the types
inside of it are read back.
-/

namespace Rustyfill.DocJson.TypeRepr

open TypeSyntax Reading

set_option autoImplicit false

/-- The readers find the meaning of what has a shorter text. -/
structure Sound (res : Resolver) (rs : Readers) (n : Nat) : Prop where
  skips : ∀ plus, Skips (rs.type plus)
  infer : 0 < n → ∀ plus rest, endsWord rest = true →
    rs.type plus ('_' :: rest) = some (.infer, rest)
  type : ∀ t plus rest, (writeType res.resolve t).length < n → endsType rest = true →
    Reads (rs.type plus (writeType res.resolve t ++ rest)) (faithful plus t = true)
      (tyOf res t) rest
  args : ∀ args rest, (writeGenericArgs res.resolve args).length < n →
    Reads (rs.args (writeGenericArgs res.resolve args ++ rest)) (faithfulArgs args = true)
      (argsOf res args) rest

section
variable {res : Resolver} {rs : Readers} {n : Nat} {rest : Str}

/-! ## Segments and paths -/

theorem reads_optArgs (h : Sound res rs n) {args : Option GenericArgs}
    (hlen : (writeOptArgs res.resolve args).length < n) (hrest : endsSegment rest = true) :
    Reads (readOptArgs rs (writeOptArgs res.resolve args ++ rest)) (faithfulOptArgs args = true)
      (optArgsOf res args) rest := by
  cases args with
  | none =>
    rw [writeOptArgs, List.nil_append, optArgsOf, faithfulOptArgs]
    exact (reads_of_eq (readOptArgs_none hrest)).congr (by simp)
  | some args =>
    rw [writeOptArgs] at hlen ⊢
    rw [optArgsOf, faithfulOptArgs]
    have hread : readOptArgs rs (writeGenericArgs res.resolve args ++ rest) =
        map some rs.args (writeGenericArgs res.resolve args ++ rest) := by
      cases args <;> rw [writeGenericArgs] <;> rfl
    rw [hread]
    exact (h.args args rest hlen).map fun _ _ => Option.some.inj

theorem reads_segment (h : Sound res rs n) {seg : Seg} (hlen : (segText res seg).length ≤ n)
    (hrest : endsSegment rest = true) :
    Reads (readSegment rs (segText res seg ++ rest)) (faithfulOptArgs seg.2 = true) (segOf res seg)
      rest := by
  have hargs : (writeOptArgs res.resolve seg.2).length < n := by
    have hname := List.length_pos_iff.mpr seg.1.text_ne_nil
    rw [segText, List.length_append] at hlen
    omega
  have hends := endsWord_optArgs res seg.2 (endsWord_of_endsSegment hrest)
  have hinj : Function.Injective fun p : Ident × Option Args => Segment.mk p.1 p.2 :=
    fun _ _ hpq => Prod.ext (Segment.mk.inj hpq).1 (Segment.mk.inj hpq).2
  rw [segText, List.append_assoc]
  exact (((reads_of_eq (readIdent_append seg.1 hends)).pair (reads_optArgs h hargs hrest)).map
    hinj).congr (by simp)

theorem reads_segments (h : Sound res rs n) {segs : List Seg} (hne : segs ≠ [])
    (hlen : (join "::" (segs.map (segText res))).length ≤ n) (hrest : endsPath rest = true) :
    Reads (readSegments rs (join "::" (segs.map (segText res)) ++ rest))
      (∀ seg ∈ segs, faithfulOptArgs seg.2 = true) (segs.map (segOf res)) rest := by
  refine (reads_sepBy ?_ (endsPath_symbol hrest) ?_ hne (List.cons_ne_nil _ _)).1
  · intro s
    exact ⟨s, symbol_append rfl [':'] s, fun _ => rfl⟩
  · intro seg hseg tail htail
    refine reads_segment h ?_ ?_
    · exact Nat.le_trans (Text.length_le_intercalate (List.mem_map_of_mem hseg)) hlen
    · rcases htail with ⟨s, rfl⟩ | rfl
      · rfl
      · exact endsSegment_of_endsPath hrest

theorem reads_root {segs : List Seg} (hne : segs ≠ []) (root : Bool) (rest : Str) :
    Reads (readRoot (rootText root ++ (join "::" (segs.map (segText res)) ++ rest))) True root
      (join "::" (segs.map (segText res)) ++ rest) := by
  cases root with
  | true => exact reads_of_eq rfl
  | false =>
    obtain ⟨name, s, hjoin, -⟩ := exists_join res hne
    have hnone : symbol [':', ':'] (join "::" (segs.map (segText res)) ++ rest) = none := by
      rw [hjoin, List.append_assoc]
      exact symbol_word name.isWord rfl [':'] (s ++ rest)
    refine reads_of_eq ?_
    rw [rootText, if_neg Bool.false_ne_true, List.nil_append, readRoot, hnone]

theorem reads_segs (h : Sound res rs n) {segs : List Seg} (hne : segs ≠ []) {root : Bool}
    (hlen : (rootText root ++ join "::" (segs.map (segText res))).length ≤ n)
    (hrest : endsPath rest = true) :
    Reads (readPath rs (rootText root ++ join "::" (segs.map (segText res)) ++ rest))
      (∀ seg ∈ segs, faithfulOptArgs seg.2 = true) (.mk root (segs.map (segOf res))) rest := by
  rw [List.length_append] at hlen
  have hinj : Function.Injective fun p : Bool × List Segment => TypePath.mk p.1 p.2 :=
    fun _ _ hpq => Prod.ext (TypePath.mk.inj hpq).1 (TypePath.mk.inj hpq).2
  have hsegs := reads_segments h hne (Nat.le_trans (Nat.le_add_left _ _) hlen) hrest
  rw [List.append_assoc]
  exact (((reads_root hne root rest).pair hsegs).map hinj).congr (by simp)

theorem reads_path (h : Sound res rs n) {p : Path} (hlen : (writePath res.resolve p).length ≤ n)
    (hrest : endsPath rest = true) :
    Reads (readPath rs (writePath res.resolve p ++ rest)) (faithfulPath p = true) (pathOf res p)
      rest := by
  rw [writePath_eq] at hlen ⊢
  rw [pathOf_eq]
  exact (reads_segs h (p.segs_ne_nil res) hlen hrest).congr (faithfulPath_iff res p).symm

/-! ## Bounds -/

theorem symbol_capturing (c : PreciseCapturingArg) (rest : Str) :
    symbol ['>'] (writeCapturingArg c ++ rest) = none := by
  cases c with
  | lifetime lt => rfl
  | param p => exact symbol_word p.isWord rfl [] rest

theorem reads_capturing (c : PreciseCapturingArg) (hrest : endsWord rest = true) :
    Reads (readCapturing (writeCapturingArg c ++ rest)) True (capturingOf c) rest := by
  cases c with
  | lifetime lt =>
    exact (reads_of_eq (readLifetime_append lt hrest)).map fun _ _ => CapturingArg.lifetime.inj
  | param p =>
    have hopens : Opens (p.text ++ rest) := .word p.text rest p.opensWord hrest
    have hread : readCapturing (p.text ++ rest) = map .param readIdent (p.text ++ rest) := by
      unfold readCapturing
      rw [hopens.skip]
      split
      · rename_i heq
        exact absurd (congrArg List.head? heq) (hopens.head_ne rfl)
      · rfl
    rw [writeCapturingArg, hread]
    exact (reads_of_eq (readIdent_append p hrest)).map fun _ _ => CapturingArg.param.inj

theorem reads_binder {s : Str} (h : Opens s) (genericParams : List Lifetime) :
    Reads (readBinder s) ([] = genericParams) genericParams s := by
  rw [readBinder_of_opens h]
  exact reads_fixed [] genericParams s

theorem reads_traitBound (h : Sound res rs n) {trait : Path}
    (hlen : (writePath res.resolve trait).length ≤ n) (hrest : endsPath rest = true)
    (genericParams : List Lifetime) (modifier : Modifier) :
    Reads (readBound rs (writePath res.resolve trait ++ rest))
      ([] = genericParams ∧ Modifier.none = modifier ∧ faithfulPath trait = true)
      (.trait genericParams modifier (pathOf res trait)) rest := by
  have hopens : Opens (writePath res.resolve trait ++ rest) :=
    (opens_writePath res trait).append
      (endsWord_of_endsSegment (endsSegment_of_endsPath hrest))
  have hbinder := reads_binder hopens genericParams
  have hmodifier : Reads (readModifier (writePath res.resolve trait ++ rest))
      (Modifier.none = modifier) modifier (writePath res.resolve trait ++ rest) := by
    rw [readModifier_of_opens hopens]
    exact reads_fixed Modifier.none modifier _
  have hinj : Function.Injective fun p : List Lifetime × Modifier × TypePath =>
      Bound.trait p.1 p.2.1 p.2.2 := fun _ _ hpq =>
    Prod.ext (Bound.trait.inj hpq).1 (Prod.ext (Bound.trait.inj hpq).2.1 (Bound.trait.inj hpq).2.2)
  rw [readBound_of_opens hopens]
  exact (hbinder.pair (hmodifier.pair (reads_path h hlen hrest))).map hinj

theorem reads_use (args : List PreciseCapturingArg) (rest : Str) :
    Reads (readBound rs (writeBound res.resolve (.use args) ++ rest)) True
      (.use (args.map capturingOf)) rest := by
  have htext : writeBound res.resolve (.use args) ++ rest = ['u', 's', 'e'] ++
      ('<' :: (join ", " (args.map writeCapturingArg) ++ ('>' :: rest))) := by
    rw [writeBound, List.append_assoc, List.append_assoc]
    rfl
  have hlist : Reads (commaList ['>'] readCapturing
      (join ", " (args.map writeCapturingArg) ++ (['>'] ++ rest)))
      (∀ c ∈ args, True) (args.map capturingOf) rest := by
    refine (reads_commaList (fun _ => rfl) (symbol_self rfl rest) rfl (List.cons_ne_nil _ _) ?_
      ?_).1
    · intro c _ tail htail
      refine reads_capturing c ?_
      rcases htail with ⟨s, rfl⟩ | rfl <;> rfl
    · intro c _ _ tail
      exact symbol_capturing c tail
  rw [htext, readBound_use rfl]
  exact ((hlist.after (symbol_self rfl _)).map fun _ _ => Bound.use.inj).congr (by simp)

theorem reads_bound (h : Sound res rs n) {b : GenericBound}
    (hlen : (writeBound res.resolve b).length ≤ n) (hrest : endsPath rest = true) :
    Reads (readBound rs (writeBound res.resolve b ++ rest)) (faithfulBound b = true) (boundOf res b)
      rest := by
  cases b with
  | traitBound trait genericParams modifier =>
    have hgood : ([] = genericParams ∧ Modifier.none = modifier ∧ faithfulPath trait = true) ↔
        faithfulBound (.traitBound trait genericParams modifier) = true := by
      rw [faithfulBound, Bool.and_eq_true, Bool.and_eq_true, List.isEmpty_iff, decide_eq_true_iff,
        and_assoc, eq_comm, @eq_comm _ Modifier.none]
    rw [boundOf]
    cases modifier with
    | none =>
      rw [writeBound] at hlen ⊢
      exact (reads_traitBound h hlen hrest genericParams .none).congr hgood
    | maybe =>
      rw [writeBound, List.length_append] at hlen
      rw [writeBound, List.append_assoc]
      have hread := @reads_traitBound res rs n (['?'] ++ rest) h trait
        (Nat.le_trans (Nat.le_add_right _ _) hlen) rfl genericParams .maybe
      exact (hread.never (fun hg => by cases hg.2.1) rest).congr
        ⟨False.elim, fun hg => by cases (hgood.mpr hg).2.1⟩
    | maybeConst =>
      rw [writeBound, List.length_append] at hlen
      rw [writeBound, List.append_assoc]
      have hread := @reads_traitBound res rs n (['?'] ++ rest) h trait
        (Nat.le_trans (Nat.le_add_right _ _) hlen) rfl genericParams .maybeConst
      exact (hread.never (fun hg => by cases hg.2.1) rest).congr
        ⟨False.elim, fun hg => by cases (hgood.mpr hg).2.1⟩
  | outlives lt =>
    have hends := endsWord_of_endsSegment (endsSegment_of_endsPath hrest)
    rw [writeBound, boundOf, faithfulBound]
    · exact ((reads_of_eq (readLifetime_append lt hends)).map fun _ _ => Bound.lifetime.inj).congr
        (by simp)
    · exact fun _ _ _ => GenericBound.noConfusion
  | use args =>
    rw [boundOf, faithfulBound]
    · exact (reads_use args rest).congr (by simp)
    · exact fun _ _ _ => GenericBound.noConfusion

theorem reads_bounds (h : Sound res rs n) {bounds : List GenericBound}
    (hlen : (join " + " (bounds.map (writeBound res.resolve))).length ≤ n)
    (hrest : endsType rest = true) (plus : Bool) :
    Reads (readBounds rs plus (' ' :: (join " + " (bounds.map (writeBound res.resolve)) ++ rest)))
      (bounds ≠ [] ∧ fits plus bounds.length = true ∧ ∀ b ∈ bounds, faithfulBound b = true)
      (bounds.map (boundOf res)) rest := by
  have hends := endsPath_of_endsType hrest
  cases plus with
  | true =>
    by_cases hne : bounds = []
    · subst hne
      exact (reads_never (fun l => sepBy_ne_nil _ l) rest).congr ⟨False.elim, fun hg => hg.1 rfl⟩
    · have hread : Reads (sepBy ['+'] (readBound rs)
          (' ' :: (" + ".toList.intercalate (bounds.map (writeBound res.resolve)) ++ rest)))
          (∀ b ∈ bounds, faithfulBound b = true) (bounds.map (boundOf res)) rest := by
        refine (reads_sepBy ?_ (endsType_plus hrest) ?_ hne (List.cons_ne_nil _ _)).2 fun _ => rfl
        · intro s
          exact ⟨' ' :: s, rfl, fun m => sepByFrom_space (fun _ => rfl) m s⟩
        · intro b hb tail htail
          refine reads_bound h ?_ ?_
          · exact Nat.le_trans (Text.length_le_intercalate (List.mem_map_of_mem hb)) hlen
          · rcases htail with ⟨s, rfl⟩ | rfl
            · rfl
            · exact hends
      exact hread.congr (by simp [hne, fits])
  | false =>
    have hsingle : ∀ bs : List Bound, (∀ b, [b] ≠ bs) → ∀ s l,
        readBounds rs false s ≠ some (bs, l) := by
      intro bs hbs s l hread
      obtain ⟨b, hb⟩ := of_map (p := readBound rs) (f := fun b => [b]) hread
      exact hbs b hb
    cases bounds with
    | nil =>
      refine (reads_never (hsingle [] ?_ _) rest).congr ⟨False.elim, fun hg => hg.1 rfl⟩
      exact fun b => List.cons_ne_nil b []
    | cons b bounds =>
      cases bounds with
      | nil =>
        rw [List.map_singleton, join, List.intercalate_singleton] at hlen ⊢
        have hinj : Function.Injective fun b : Bound => [b] := fun _ _ => List.singleton_inj.mp
        have hread : Reads (readBound rs (' ' :: (writeBound res.resolve b ++ rest)))
            (faithfulBound b = true) (boundOf res b) rest := reads_bound h hlen hends
        exact (hread.map hinj).congr (by simp [fits])
      | cons b' bounds =>
        refine (reads_never (hsingle _ ?_ _) rest).congr ⟨False.elim, fun hg => ?_⟩
        · intro c hc
          cases (List.cons.inj hc).2
        · have hfits := of_decide_eq_true ((Bool.false_or _).symm.trans hg.2.1)
          rw [List.length_cons, List.length_cons] at hfits
          omega

/-! ## Arguments -/

/-- What stands behind an argument. -/
def endsArg (s : Str) : Bool := s.head?.any fun c => c == ',' || c == '>'

theorem exists_of_endsArg (h : endsArg rest = true) : ∃ s, rest = ',' :: s ∨ rest = '>' :: s := by
  cases rest with
  | nil => cases h
  | cons c s =>
    have hc : (c == ',' || c == '>') = true := h
    rw [Bool.or_eq_true, beq_iff_eq, beq_iff_eq] at hc
    rcases hc with rfl | rfl
    · exact ⟨s, Or.inl rfl⟩
    · exact ⟨s, Or.inr rfl⟩

theorem endsType_of_endsArg (h : endsArg rest = true) : endsType rest = true := by
  obtain ⟨s, rfl | rfl⟩ := exists_of_endsArg h <;> rfl

theorem readConstraint_of_endsArg (h : endsArg rest = true) (t : Ty) :
    readConstraint rs t rest = some (.type t, rest) := by
  obtain ⟨s, rfl | rfl⟩ := exists_of_endsArg h <;> rfl

theorem reads_typeArg (h : Sound res rs n) {t : WireType}
    (hlen : (writeType res.resolve t).length < n) (hrest : endsArg rest = true) :
    Reads (readArg rs (writeType res.resolve t ++ rest)) (faithful true t = true)
      (.type (tyOf res t)) rest := by
  have hends := endsType_of_endsArg hrest
  have hopens := (opens_writeType res t).append (endsWord_of_endsType hends)
  have hconstraint : Reads (readConstraint rs (tyOf res t) rest) True (.type (tyOf res t)) rest :=
    reads_of_eq (readConstraint_of_endsArg hrest _)
  rw [readArg_of_opens hopens]
  exact ((h.type t true rest hlen hends).bind hconstraint
    fun _ _ _ hread => readConstraint_type hread).congr (by simp)

theorem reads_literal {c : ConstArg} (hchar : ∀ s ok, c ≠ .char s ok) (s : Str) :
    symbol ['\''] (c.text ++ s) = none := by
  cases c with
  | number w ok => exact symbol_word (Bool.and_eq_true_iff.mp ok).1 rfl [] s
  | negative w ok => rfl
  | block body ok => rfl
  | char body ok => exact absurd rfl (hchar body ok)

/-- A constant as an argument, and as the value of an associated one. -/
theorem readArg_literal (c : ConstArg) (hrest : endsWord rest = true) :
    readArg rs (c.text ++ rest) = some (.const c, rest) ∧
      readTerm rs (c.text ++ rest) = some (.const c, rest) := by
  by_cases hchar : ∃ s ok, c = .char s ok
  · obtain ⟨body, ok, rfl⟩ := hchar
    have hread := readChar_append ok rest
    have htext : (ConstArg.char body ok).text ++ rest = '\'' :: (body ++ '\'' :: rest) := by
      rw [ConstArg.text, List.append_assoc]
      rfl
    constructor
    · rw [htext, readArg, symbol_self rfl]
      simp only [hread]
    · rw [htext, readTerm, symbol_self rfl]
      simp only [map, hread]
      rfl
  · have hchar' : ∀ s ok, c ≠ .char s ok := fun s ok hc => hchar ⟨s, ok, hc⟩
    have hconst := readConst_append c hchar' hrest
    constructor
    · rw [readArg, reads_literal hchar', hconst]
      rfl
    · rw [readTerm, reads_literal hchar', hconst]
      rfl

theorem reads_constant (h : Sound res rs n) {c : Constant} (hlen : c.text.length < n)
    (hrest : endsArg rest = true) :
    Reads (readArg rs (c.text ++ rest)) True (constantOf c) rest := by
  cases c with
  | name name =>
    have hread := @reads_typeArg res rs n rest h (.generic name) (by rw [writeType]; exact hlen)
      hrest
    rw [writeType, faithful, tyOf] at hread
    exact hread.congr (by simp)
  | literal c =>
    exact reads_of_eq (readArg_literal c (endsWord_of_endsType (endsType_of_endsArg hrest))).1

theorem reads_term (h : Sound res rs n) {term : Term}
    (hlen : (writeTerm res.resolve term).length < n) (hrest : endsArg rest = true) :
    Reads (readTerm rs (writeTerm res.resolve term ++ rest)) (faithfulTerm term = true)
      (termOf res term) rest := by
  have hends := endsType_of_endsArg hrest
  have htype : ∀ t, (writeType res.resolve t).length < n →
      Reads (readTerm rs (writeType res.resolve t ++ rest)) (faithful true t = true)
        (.type (tyOf res t)) rest := by
    intro t hlen
    rw [readTerm_of_opens ((opens_writeType res t).append (endsWord_of_endsType hends))]
    exact (h.type t true rest hlen hends).map fun _ _ => Arg.type.inj
  cases term with
  | type t =>
    rw [writeTerm] at hlen ⊢
    rw [faithfulTerm, termOf]
    exact htype t hlen
  | constant c =>
    rw [writeTerm] at hlen ⊢
    rw [faithfulTerm, termOf]
    cases c with
    | name name =>
      have hread := htype (.generic name) (by rw [writeType]; exact hlen)
      rw [writeType, faithful, tyOf] at hread
      exact hread
    | literal c =>
      exact (reads_of_eq (readArg_literal c (endsWord_of_endsType hends)).2).congr (by simp)

theorem readTerm_space (h : Sound res rs n) (s : Str) : readTerm rs (' ' :: s) = readTerm rs s := by
  have hconst : readConst (' ' :: s) = readConst s := rfl
  simp only [readTerm, symbol_space, hconst, map, h.skips true s]

theorem readArg_space (h : Sound res rs n) (s : Str) : readArg rs (' ' :: s) = readArg rs s := by
  have hconst : readConst (' ' :: s) = readConst s := rfl
  have hlifetime : readLifetime (' ' :: s) = readLifetime s := rfl
  simp only [readArg, symbol_space, hconst, map, hlifetime, h.skips true s]

theorem endsType_writeBinding (binding : AssocItemConstraintKind) (rest : Str) :
    endsType (writeBinding res.resolve binding ++ rest) = true := by
  cases binding <;> rw [writeBinding] <;> rfl

theorem reads_binding (h : Sound res rs n) (name : Ident) (args : Option GenericArgs)
    {binding : AssocItemConstraintKind}
    (hlen : (writeBinding res.resolve binding).length < n) (hrest : endsArg rest = true) :
    Reads (readConstraint rs (named name) (writeBinding res.resolve binding ++ rest))
      (faithfulConstraint (.mk name args binding) = true) (constraintOf res (.mk name args binding))
      rest := by
  cases binding with
  | equality term =>
    rw [writeBinding, List.length_append] at hlen
    have hterm := reads_term h (Nat.lt_of_le_of_lt (Nat.le_add_left _ _) hlen) hrest
    have hread : readConstraint rs (named name)
        (writeBinding res.resolve (.equality term) ++ rest) =
        map (.equal name none) (readTerm rs) (writeTerm res.resolve term ++ rest) := by
      rw [writeBinding, List.append_assoc, map, ← readTerm_space h]
      rfl
    rw [hread, constraintOf, faithfulConstraint, faithfulBinding]
    cases args with
    | none =>
      rw [optArgsOf]
      exact (hterm.map fun _ _ heq => (Arg.equal.inj heq).2.2).congr (by simp)
    | some args =>
      rw [optArgsOf]
      refine (reads_never (fun l hl => ?_) rest).congr (by simp)
      obtain ⟨a, ha⟩ := of_map hl
      cases (Arg.equal.inj ha).2.1
  | constraint bounds =>
    rw [writeBinding, writeBounds_eq, List.length_append] at hlen
    have hbounds := reads_bounds h (Nat.le_of_lt (Nat.lt_of_le_of_lt (Nat.le_add_left _ _) hlen))
      (endsType_of_endsArg hrest) true
    have hread : readConstraint rs (named name)
        (writeBinding res.resolve (.constraint bounds) ++ rest) =
        map (.bounded name none) (readBounds rs true)
          (' ' :: (join " + " (bounds.map (writeBound res.resolve)) ++ rest)) := by
      rw [writeBinding, writeBounds_eq]
      rfl
    rw [hread, constraintOf, boundsOf_eq, faithfulConstraint, faithfulBinding, faithfulBounds_eq]
    cases args with
    | none =>
      rw [optArgsOf]
      exact (hbounds.map fun _ _ heq => (Arg.bounded.inj heq).2.2).congr (by simp [fits])
    | some args =>
      rw [optArgsOf]
      refine (reads_never (fun l hl => ?_) rest).congr (by simp)
      obtain ⟨bs, hbs⟩ := of_map hl
      cases (Arg.bounded.inj hbs).2.1

theorem reads_constraint (h : Sound res rs n) {c : AssocItemConstraint}
    (hlen : (writeConstraint res.resolve c).length < n) (hrest : endsArg rest = true) :
    Reads (readArg rs (writeConstraint res.resolve c ++ rest)) (faithfulConstraint c = true)
      (constraintOf res c) rest := by
  obtain ⟨name, args, binding⟩ := c
  rw [writeConstraint, List.length_append] at hlen
  have hends := @endsType_writeBinding res binding rest
  have hname := h.type (.generic name) true _
    (by rw [writeType]; exact Nat.lt_of_le_of_lt (Nat.le_add_right _ _) hlen) hends
  rw [writeType, faithful, tyOf] at hname
  have hopens : Opens (name.text ++ (writeBinding res.resolve binding ++ rest)) :=
    .word name.text _ name.opensWord (endsWord_of_endsType hends)
  rw [writeConstraint, List.append_assoc, readArg_of_opens hopens, hname.of_good rfl,
    Option.bind_some]
  exact reads_binding h name args (Nat.lt_of_le_of_lt (Nat.le_add_left _ _) hlen) hrest

theorem reads_arg (h : Sound res rs n) {a : GenericArg}
    (hlen : (writeArg res.resolve a).length < n) (hrest : endsArg rest = true) :
    Reads (readArg rs (writeArg res.resolve a ++ rest)) (faithfulArg a = true) (argOf res a)
      rest := by
  have hends := endsWord_of_endsType (endsType_of_endsArg hrest)
  cases a with
  | lifetime lt =>
    have hquote : rest.head? ≠ some '\'' := by
      obtain ⟨s, rfl | rfl⟩ := exists_of_endsArg hrest
      · exact fun heq => by cases heq
      · exact fun heq => by cases heq
    have hread : readArg rs (lt.text ++ rest) = map .lifetime readLifetime (lt.text ++ rest) := by
      rw [readArg, Lifetime.text, List.cons_append, symbol_self rfl]
      simp only [readChar_lifetime lt hquote]
    rw [writeArg, hread, argOf, faithfulArg]
    · exact ((reads_of_eq (readLifetime_append lt hends)).map fun _ _ => Arg.lifetime.inj).congr
        (by simp)
    · exact fun _ => GenericArg.noConfusion
  | type t =>
    rw [writeArg] at hlen ⊢
    rw [argOf, faithfulArg]
    exact reads_typeArg h hlen hrest
  | const c =>
    rw [writeArg] at hlen ⊢
    rw [argOf, faithfulArg]
    · exact (reads_constant h hlen hrest).congr (by simp)
    · exact fun _ => GenericArg.noConfusion
  | infer =>
    rw [writeArg] at hlen ⊢
    have hinfer := h.infer (Nat.lt_of_le_of_lt (Nat.zero_le _) hlen) true rest hends
    have hread : readArg rs (['_'] ++ rest) =
        (rs.type true ('_' :: rest)).bind fun r => readConstraint rs r.1 r.2 := rfl
    rw [hread, hinfer, Option.bind_some, argOf, faithfulArg]
    · exact (reads_of_eq (readConstraint_of_endsArg hrest .infer)).congr (by simp)
    · exact fun _ => GenericArg.noConfusion

/-- What stands between commas in angle brackets. -/
abbrev Item := GenericArg ⊕ AssocItemConstraint

def itemText (res : Resolver) : Item → Str :=
  Sum.elim (writeArg res.resolve) (writeConstraint res.resolve)

theorem symbol_item (x : Item) (rest : Str) : symbol ['>'] (itemText res x ++ rest) = none := by
  rcases x with a | ⟨name, args, binding⟩
  · cases a with
    | lifetime lt =>
      rw [itemText, Sum.elim_inl, writeArg]
      rfl
    | type t =>
      obtain ⟨c, s, hcons, hc⟩ := (opens_writeType res t).exists_cons
      rw [itemText, Sum.elim_inl, writeArg, hcons]
      refine symbol_ne (isSpace_of_opensChar hc) ?_ [] (s ++ rest)
      rintro rfl
      cases hc
    | const c =>
      rw [itemText, Sum.elim_inl, writeArg]
      cases c with
      | name name => exact symbol_word name.isWord rfl [] rest
      | literal c =>
        cases c with
        | number w ok => exact symbol_word (Bool.and_eq_true_iff.mp ok).1 rfl [] rest
        | negative w ok => rfl
        | block body ok => rfl
        | char body ok => rfl
    | infer =>
      rw [itemText, Sum.elim_inl, writeArg]
      rfl
  · rw [itemText, Sum.elim_inr, writeConstraint, List.append_assoc]
    exact symbol_word name.isWord rfl [] _

theorem reads_item (h : Sound res rs n) {x : Item} (hlen : (itemText res x).length < n)
    (hrest : endsArg rest = true) :
    Reads (readArg rs (itemText res x ++ rest))
      (Sum.elim faithfulArg faithfulConstraint x = true) (Sum.elim (argOf res) (constraintOf res) x)
      rest := by
  cases x with
  | inl a => exact reads_arg h hlen hrest
  | inr c => exact reads_constraint h hlen hrest

theorem reads_args (h : Sound res rs n) {args : GenericArgs}
    (hlen : (writeGenericArgs res.resolve args).length ≤ n) (rest : Str) :
    Reads (readArgs rs (writeGenericArgs res.resolve args ++ rest)) (faithfulArgs args = true)
      (argsOf res args) rest := by
  cases args with
  | angleBracketed args constraints =>
    have hitems : writeArgs res.resolve args ++ writeConstraints res.resolve constraints =
        (args.map Sum.inl ++ constraints.map Sum.inr).map (itemText res) := by
      rw [writeArgs_eq, writeConstraints_eq, List.map_append, List.map_map, List.map_map]
      rfl
    have hmeaning : argListOf res args ++ constraintsOf res constraints =
        (args.map Sum.inl ++ constraints.map Sum.inr).map
          (Sum.elim (argOf res) (constraintOf res)) := by
      rw [argListOf_eq, constraintsOf_eq, List.map_append, List.map_map, List.map_map]
      rfl
    have hgood : (∀ x ∈ (args.map Sum.inl ++ constraints.map Sum.inr : List Item),
        Sum.elim faithfulArg faithfulConstraint x = true) ↔
        faithfulArgs (.angleBracketed args constraints) = true := by
      rw [faithfulArgs, faithfulArgList_eq, faithfulConstraints_eq, Bool.and_eq_true,
        List.all_eq_true, List.all_eq_true, List.forall_mem_append, List.forall_mem_map,
        List.forall_mem_map]
      rfl
    rw [writeGenericArgs, hitems] at hlen ⊢
    rw [argsOf, hmeaning]
    have hlist : Reads (commaList ['>'] (readArg rs) (join ", "
        ((args.map Sum.inl ++ constraints.map Sum.inr).map (itemText res)) ++ (['>'] ++ rest)))
        (∀ x ∈ (args.map Sum.inl ++ constraints.map Sum.inr : List Item),
          Sum.elim faithfulArg faithfulConstraint x = true)
        ((args.map Sum.inl ++ constraints.map Sum.inr).map
          (Sum.elim (argOf res) (constraintOf res))) rest := by
      refine (reads_commaList (readArg_space h) (symbol_self rfl rest) rfl (List.cons_ne_nil _ _) ?_
        ?_).1
      · intro x hx tail htail
        refine reads_item h ?_ ?_
        · have hx' : (itemText res x).length ≤ (join ", " _).length :=
            Text.length_le_intercalate (List.mem_map_of_mem hx)
          rw [List.length_append, List.length_append, List.length_singleton] at hlen
          omega
        · rcases htail with ⟨s, rfl⟩ | rfl <;> rfl
      · exact fun x _ _ tail => symbol_item x tail
    rw [List.append_assoc, List.append_assoc]
    exact (hlist.map fun _ _ => Args.angle.inj).congr hgood
  | parenthesized inputs output =>
    rw [writeGenericArgs, argsOf, faithfulArgs]
    refine (reads_never (fun l hl => ?_) rest).congr (by simp)
    obtain ⟨as, has⟩ := of_map hl
    cases has
  | returnTypeNotation =>
    rw [writeGenericArgs, argsOf, faithfulArgs]
    exact (reads_of_eq rfl).congr (by simp)

end

end Rustyfill.DocJson.TypeRepr
