import Rustyfill.DocJson.DefinitionParts
import Rustyfill.DocJson.TypeFidelity

/-!
# The written definitions

What is read of the items and attributes that are written, and which definitions are read as they
are meant.
-/

namespace Rustyfill.DocJson.Emit

open TypeRepr Reading TypeSyntax ItemSyntax

set_option autoImplicit false

/-! ## Items -/

section
variable {T : Type} {g : Grammar T} {m : Meaning T} {ctx : RenderCtx} {ignoredTraits : List Str}
  {extraDerives : List Str} {ty : EmitType} {rest : Str}

def whereClause (preds : List String) : Str :=
  if preds.isEmpty then [] else " where ".toList ++ TypeRepr.join ", " (preds.map String.toList)

theorem reads_noWhere (hrest : word rest = []) (preds : List Str) :
    Reads (readWhere g rest) ([] = preds) preds rest := by
  have hword : word rest ≠ "where".toList := by
    rw [hrest]
    exact (List.cons_ne_nil _ _).symm
  rw [readWhere, if_neg hword]
  exact reads_fixed [] preds rest

theorem reads_where {preds : List String}
    (h : ∀ w ∈ preds.map String.toList, IsPiece g.predicate predicateEnds w)
    (hrest : ends ['{'] rest = true) :
    Reads (readWhere g (whereClause preds ++ rest)) True (preds.map String.toList) rest := by
  cases hpreds : preds.isEmpty with
  | true =>
    obtain rfl := List.isEmpty_iff.mp hpreds
    exact (reads_noWhere (word_of_ends hrest rfl) []).congr (by simp)
  | false =>
    have hread : ∀ s, readWhere g (" where ".toList ++ s) =
        sepBy [','] (takeText g.predicate) (' ' :: s) := fun _ => rfl
    have hlist : Reads (sepBy [','] (takeText g.predicate)
        (' ' :: (", ".toList.intercalate (preds.map String.toList) ++ rest)))
        (∀ w ∈ preds.map String.toList, True) (preds.map String.toList) rest := by
      refine reads_separated (fun _ => rfl) (List.cons_ne_nil _ _) (fun _ => rfl)
        (symbol_of_ends hrest rfl []) ?_ ?_
      · intro w hw tail htail
        refine (h w hw).reads ?_
        rcases htail with ⟨s, rfl⟩ | rfl
        · rfl
        · exact ends_mono rfl hrest
      · rw [ne_eq, List.map_eq_nil_iff]
        exact List.isEmpty_eq_false_iff.mp hpreds
    rw [whereClause, hpreds, if_neg Bool.false_ne_true, List.append_assoc, hread]
    exact hlist.congr (by simp)


theorem reads_head (h : ∀ p ∈ ty.generics, WrittenParam g m ctx ignoredTraits p)
    (hword : endsWord rest = true) (hrest : symbol ['<'] rest = none) :
    Reads (pair readName (readParams g)
        (' ' :: (ty.name.toList ++ (renderGenerics ty.generics ignoredTraits ctx ++ rest))))
      (isName ty.name.toList = true ∧ ty.generics.all faithfulParam = true)
      (ty.name.toList, ty.generics.map (m.param ignoredTraits)) rest := by
  have hname : Reads (readName
      (' ' :: (ty.name.toList ++ (renderGenerics ty.generics ignoredTraits ctx ++ rest))))
      (isName ty.name.toList = true) ty.name.toList
      (renderGenerics ty.generics ignoredTraits ctx ++ rest) := by
    refine reads_name ?_ ty.name.toList
    rw [renderGenerics]
    cases ty.generics.isEmpty with
    | true => exact hword
    | false => rfl
  exact hname.pair (reads_params h hrest)

/-! ### The value of a constant -/

theorem eq_append_of_stripSuffix {s suffix front : Str} (h : stripSuffix s suffix = some front) :
    s = front ++ suffix := by
  rw [stripSuffix] at h
  split_ifs at h with hsuffix
  obtain ⟨t, rfl⟩ := List.isSuffixOf_iff_suffix.mp hsuffix
  obtain rfl := Option.some.inj h
  rw [List.length_append, Nat.add_sub_cancel, List.take_left]

/-- A value loses the name of its type as a literal does, or the name is the end of it. -/
theorem stripTypeSuffix_cases (value constTy : Str) :
    stripTypeSuffix value constTy = valueOf value constTy ∨
      constTy ≠ [] ∧ valueOf value constTy = value ∧
        value = stripTypeSuffix value constTy ++ constTy := by
  by_cases hempty : constTy = []
  · left
    have hsuffix : stripSuffix value [] = some value := by
      rw [stripSuffix, if_pos (List.isSuffixOf_iff_suffix.mpr List.nil_suffix)]
      exact congrArg some (List.take_length)
    rw [hempty, stripTypeSuffix, valueOf, hsuffix, if_neg (not_not_intro rfl)]
    exact (ite_self value).symm
  · rw [stripTypeSuffix, if_pos hempty, valueOf]
    cases hsuffix : stripSuffix value constTy with
    | none => exact Or.inl rfl
    | some front =>
      simp only [Option.getD_some]
      split_ifs
      · exact Or.inl rfl
      · exact Or.inr ⟨hempty, rfl, eq_append_of_stripSuffix hsuffix⟩

/-- The value is read unless its end is taken for the type of a literal. -/
theorem reads_value {value constTy : Str} (hvalue : IsPiece g.expr exprEnds (valueOf value constTy))
    (htype : IsType g constTy (m.text constTy)) :
    Reads (takeText g.expr (' ' :: (stripTypeSuffix value constTy ++ ";\n\n".toList)))
      ((stripTypeSuffix value constTy == valueOf value constTy) = true) (valueOf value constTy)
      ";\n\n".toList where
  of_good h := by
    rw [beq_iff_eq.mp h]
    exact hvalue.read _ rfl
  good_of l hl := by
    rcases stripTypeSuffix_cases value constTy with heq | ⟨hne, hkept, heq⟩
    · exact beq_iff_eq.mpr heq
    · exfalso
      have hwhole := hvalue.read [';'] rfl
      rw [hkept] at hwhole hl
      generalize hfront : stripTypeSuffix value constTy = front at heq hl
      subst heq
      have hcut : takeText g.expr (front ++ ';' :: ['\n', '\n']) = some (front ++ constTy, l) := hl
      obtain ⟨s, rfl⟩ := exists_of_cut hne rfl hwhole hcut
      have hnone := g.type_ends ';' (s ++ [';']) rfl
      rw [← List.cons_append, htype [';'] rfl] at hnone
      cases hnone

/-! ### Each kind -/

theorem ends_whereClause (preds : List String) (hrest : ends ['{'] rest = true) :
    ends ['w', '{'] (whereClause preds ++ rest) = true := by
  rw [whereClause]
  cases preds.isEmpty with
  | true => exact ends_mono rfl hrest
  | false => rfl

theorem endsWord_whereClause (preds : List String) (hrest : ends ['{'] rest = true) :
    endsWord (whereClause preds ++ rest) = true := by
  rw [whereClause]
  cases preds.isEmpty with
  | true => exact endsWord_of_ends hrest rfl
  | false => rfl

/-- What is written of the lines of a definition. -/
def inBraces (lines : Str) : Str := "\n\x7b\n".toList ++ (lines ++ "\x7d\n\n".toList)

theorem symbol_inBraces (lines : Str) :
    symbol ['{'] (inBraces lines) = some ('\n' :: (lines ++ "\x7d\n\n".toList)) := rfl

theorem reads_block {fields : List (DocField WireType)} (h : WrittenFields g m ctx fields) :
    Reads (after ['{'] (commaList ['}'] (readField g)) (inBraces (renderFields fields ctx)))
      (fields.all faithfulField = true) (fields.map m.field) "\n\n".toList := by
  have htext : renderFields fields ctx =
      (fields.map fun f => "    pub ".toList ++ renderField f ctx ++ [',', '\n']).flatten := rfl
  refine Reads.after (symbol_inBraces _) ?_
  rw [htext]
  exact reads_fields (Or.inl rfl) h rfl

def renderVariants (variants : List (DocVariant WireType)) (ctx : RenderCtx) : Str :=
  (variants.map fun v => renderVariant v ctx).flatten

theorem reads_variants {variants : List (DocVariant WireType)}
    (h : ∀ v ∈ variants, WrittenVariant g m ctx v) :
    Reads (after ['{'] (commaList ['}'] (readVariant g)) (inBraces (renderVariants variants ctx)))
      (variants.all faithfulVariant = true) (variants.map m.variant) "\n\n".toList := by
  have htext : variants.map (fun v => renderVariant v ctx) =
      variants.map fun v => variantText ctx v ++ [',', '\n'] :=
    List.map_congr_left fun v _ => renderVariant_eq v
  refine Reads.after (symbol_inBraces _) ?_
  rw [renderVariants, htext]
  refine (reads_lines (fun _ => rfl) rfl ?_ ?_).congr List.all_eq_true.symm
  · exact fun v hv s => reads_variant (h v hv) s
  · intro v _ hgood s
    have hname := (Bool.and_eq_true_iff.mp (Bool.and_eq_true_iff.mp hgood).1).1
    rw [variantText, List.append_assoc, List.append_assoc]
    exact symbol_word (isWord_of_isName hname) rfl [] _

variable {preds : List String}

theorem reads_struct {fields : List (DocField WireType)}
    (hpreds : ∀ w ∈ preds.map String.toList, IsPiece g.predicate predicateEnds w)
    (h : WrittenFields g m ctx fields) :
    Reads (readStruct g (whereClause preds ++ inBraces (renderFields fields ctx)))
      (fields.all faithfulField = true)
      (preds.map String.toList, .struct (fields.map m.field)) "\n\n".toList := by
  have hopen : symbol ['('] (whereClause preds ++ inBraces (renderFields fields ctx)) = none :=
    symbol_of_ends (ends_whereClause preds rfl) rfl []
  have hbody : Reads (readStructBody g (inBraces (renderFields fields ctx)))
      (fields.all faithfulField = true) (.struct (fields.map m.field)) "\n\n".toList :=
    (reads_block h).map fun _ _ => Body.struct.inj
  rw [readStruct, hopen]
  exact ((reads_where hpreds rfl).pair hbody).congr (iff_of_eq (true_and _))

theorem reads_union {fields : List (DocField WireType)}
    (hpreds : ∀ w ∈ preds.map String.toList, IsPiece g.predicate predicateEnds w)
    (h : WrittenFields g m ctx fields) :
    Reads (readUnion g (whereClause preds ++ inBraces (renderFields fields ctx)))
      (fields.all faithfulField = true)
      (preds.map String.toList, .union (fields.map m.field)) "\n\n".toList :=
  ((reads_where hpreds rfl).pair ((reads_block h).map fun _ _ => Body.union.inj)).congr
    (iff_of_eq (true_and _))

theorem reads_enum {variants : List (DocVariant WireType)}
    (hpreds : ∀ w ∈ preds.map String.toList, IsPiece g.predicate predicateEnds w)
    (h : ∀ v ∈ variants, WrittenVariant g m ctx v) :
    Reads (readEnum g (whereClause preds ++ inBraces (renderVariants variants ctx)))
      (variants.all faithfulVariant = true)
      (preds.map String.toList, .enum (variants.map m.variant)) "\n\n".toList :=
  ((reads_where hpreds rfl).pair ((reads_variants h).map fun _ _ => Body.enum.inj)).congr
    (iff_of_eq (true_and _))

/-- The clause of a tuple struct is not written. -/
theorem reads_tuple {fields : List (DocField WireType)} (h : WrittenFields g m ctx fields)
    (preds : List Str) :
    Reads (readStruct g ('(' :: (TypeRepr.join ", "
        (fields.map fun f => fieldVis f.visibility ++ renderType f.ty ctx) ++ ");\n\n".toList)))
      ([] = preds) (preds, .tuple (fields.map fun f => m.ty f.ty)) "\n\n".toList := by
  have hread : ∀ s, readStruct g ('(' :: s) = map (fun p => (p.2, .tuple p.1))
      (before (pair (commaList [')'] (readElem g)) (readWhere g)) [';']) s := fun _ => rfl
  have hlist : Reads (commaList [')'] (readElem g) (", ".toList.intercalate
      (fields.map fun f => fieldVis f.visibility ++ renderType f.ty ctx) ++
        ([')'] ++ ";\n\n".toList)))
      (∀ f ∈ fields, True) (fields.map fun f => m.ty f.ty) ";\n\n".toList := by
    refine (reads_commaList (readElem_skips g) (symbol_self rfl _) rfl (List.cons_ne_nil _ _) ?_
      ?_).1
    · intro f hf tail htail
      have helem : ∀ s, readElem g ("pub ".toList ++ s) = g.type (' ' :: s) := fun _ => rfl
      refine reads_of_eq ?_
      rw [fieldVis, List.append_assoc, helem, g.type_skips]
      refine h f hf tail ?_
      rcases htail with ⟨s, rfl⟩ | rfl <;> rfl
    · intro f _ _ tail
      rfl
  have hwhere : Reads (readWhere g ";\n\n".toList) ([] = preds) preds ";\n\n".toList :=
    reads_noWhere rfl preds
  rw [hread]
  refine (((hlist.pair hwhere).before (symbol_self rfl _)).map fun p q hpq => ?_).congr (by simp)
  exact Prod.ext (Body.tuple.inj (Prod.mk.inj hpq).2) (Prod.mk.inj hpq).1

/-- The clause of an alias is not written. -/
theorem reads_alias {rhs : WireType} (h : Renders g m ctx rhs) (preds : List Str) :
    Reads (readAlias g (" = ".toList ++ (renderType rhs ctx ++ ";\n\n".toList)))
      ([] = preds) (preds, .alias (m.ty rhs)) "\n\n".toList := by
  have hwhere : Reads (readWhere g (" = ".toList ++ (renderType rhs ctx ++ ";\n\n".toList)))
      ([] = preds) preds (" = ".toList ++ (renderType rhs ctx ++ ";\n\n".toList)) :=
    reads_noWhere rfl preds
  have hsymbol : symbol ['='] (" = ".toList ++ (renderType rhs ctx ++ ";\n\n".toList)) =
      some (' ' :: (renderType rhs ctx ++ ";\n\n".toList)) := rfl
  have htype : Reads (g.type (' ' :: (renderType rhs ctx ++ ";\n\n".toList))) True (m.ty rhs)
      ";\n\n".toList := by
    refine reads_of_eq ?_
    rw [g.type_skips, h _ rfl]
  exact (hwhere.pair (((htype.after hsymbol).before (symbol_self rfl _)).map
    fun _ _ => Body.alias.inj)).congr (iff_of_eq (and_true _))

/-- A constant has no clause, and is read with its value as it is written. -/
theorem reads_constant {constTy value : Str}
    (hvalue : IsPiece g.expr exprEnds (valueOf value constTy))
    (htype : IsType g constTy (m.text constTy)) (preds : List Str) :
    Reads (readConstant g (": ".toList ++ (constTy ++ (" = ".toList ++
        (stripTypeSuffix value constTy ++ ";\n\n".toList)))))
      ([] = preds ∧ (stripTypeSuffix value constTy == valueOf value constTy) = true)
      (preds, .constant (m.text constTy) (valueOf value constTy)) "\n\n".toList := by
  have hcolon : ∀ s, symbol [':'] (": ".toList ++ s) = some (' ' :: s) := fun _ => rfl
  have hequal : ∀ s, symbol ['='] (" = ".toList ++ s) = some (' ' :: s) := fun _ => rfl
  have hty : Reads (g.type (' ' :: (constTy ++ (" = ".toList ++
      (stripTypeSuffix value constTy ++ ";\n\n".toList))))) True (m.text constTy)
      (" = ".toList ++ (stripTypeSuffix value constTy ++ ";\n\n".toList)) := by
    refine reads_of_eq ?_
    rw [g.type_skips, htype _ rfl]
  refine ((reads_fixed [] preds _).pair ((((hty.after (hcolon _)).pair
    ((reads_value hvalue htype).after (hequal _))).before (symbol_self rfl _)).map
      fun p q hpq => ?_)).congr (by simp)
  exact Prod.ext (Body.constant.inj hpq).1 (Body.constant.inj hpq).2

/-! ### Each item -/

theorem readItem_struct (s : Str) : readItem g (' ' :: ("struct ".toList ++ s)) =
    pair (pair readName (readParams g)) (readStruct g) (' ' :: s) := rfl

theorem readItem_enum (s : Str) : readItem g (' ' :: ("enum ".toList ++ s)) =
    pair (pair readName (readParams g)) (readEnum g) (' ' :: s) := rfl

theorem readItem_union (s : Str) : readItem g (' ' :: ("union ".toList ++ s)) =
    pair (pair readName (readParams g)) (readUnion g) (' ' :: s) := rfl

theorem readItem_type (s : Str) : readItem g (' ' :: ("type ".toList ++ s)) =
    pair (pair readName (readParams g)) (readAlias g) (' ' :: s) := rfl

theorem readItem_const (s : Str) : readItem g (' ' :: ("const ".toList ++ s)) =
    pair (pair readName nothing) (readConstant g) (' ' :: s) := rfl

theorem nil_eq_map_iff {α β : Type} {f : α → β} {xs : List α} :
    [] = xs.map f ↔ xs.isEmpty = true := by
  rw [eq_comm, List.map_eq_nil_iff, List.isEmpty_iff]

/-- Whether the item behind the visibility is read as it is meant. -/
def ReadsItem (g : Grammar T) (m : Meaning T) (ctx : RenderCtx) (ignoredTraits : List Str)
    (ty : EmitType) : Prop :=
  ∃ t, skip (renderDefinition ty ctx ignoredTraits) = "pub ".toList ++ t ∧
    Reads (readItem g (' ' :: t)) (faithfulDefinition ty = true)
      ((ty.name.toList, ty.generics.map (m.param ignoredTraits)),
        (ty.wherePredicates.map String.toList, m.body ty.kind)) "\n\n".toList

/-- An item with generics is read if its head and what stands behind it are. -/
theorem readsItem_of_tail (h : Written g m ctx ignoredTraits extraDerives ty)
    {tail : Reader (List Str × Body T)} {t : Str}
    (htext : skip (renderDefinition ty ctx ignoredTraits) = "pub ".toList ++ (rest ++
      (ty.name.toList ++ (renderGenerics ty.generics ignoredTraits ctx ++ t))))
    (hread : ∀ s, readItem g (' ' :: (rest ++ s)) =
      pair (pair readName (readParams g)) tail (' ' :: s))
    (hword : endsWord t = true) (hopen : symbol ['<'] t = none)
    (htail : Reads (tail t) (faithfulKind ty = true)
      (ty.wherePredicates.map String.toList, m.body ty.kind) "\n\n".toList) :
    ReadsItem g m ctx ignoredTraits ty := by
  refine ⟨_, htext, ?_⟩
  rw [hread]
  refine ((reads_head h.params hword hopen).pair htail).congr ?_
  rw [faithfulDefinition, Bool.and_eq_true, Bool.and_eq_true]

/-- An item with its clause and lines in braces. -/
theorem readsItem_of_block (h : Written g m ctx ignoredTraits extraDerives ty)
    {tail : Reader (List Str × Body T)} {t : Str}
    (htext : skip (renderDefinition ty ctx ignoredTraits) = "pub ".toList ++ (rest ++
      (ty.name.toList ++ (renderGenerics ty.generics ignoredTraits ctx ++
        (whereClause ty.wherePredicates ++ inBraces t)))))
    (hread : ∀ s, readItem g (' ' :: (rest ++ s)) =
      pair (pair readName (readParams g)) tail (' ' :: s))
    (htail : Reads (tail (whereClause ty.wherePredicates ++ inBraces t)) (faithfulKind ty = true)
      (ty.wherePredicates.map String.toList, m.body ty.kind) "\n\n".toList) :
    ReadsItem g m ctx ignoredTraits ty :=
  readsItem_of_tail h htext hread (endsWord_whereClause _ rfl)
    (symbol_of_ends (ends_whereClause _ rfl) rfl []) htail

theorem readsItem_struct (h : Written g m ctx ignoredTraits extraDerives ty)
    {fields : List (DocField WireType)} {tuple : Bool} (hkind : ty.kind = .struct fields tuple) :
    ReadsItem g m ctx ignoredTraits ty := by
  have hwritten := h.kind
  rw [hkind] at hwritten
  cases tuple with
  | true =>
    refine readsItem_of_tail h (t := '(' :: (TypeRepr.join ", " (fields.map fun f =>
      fieldVis f.visibility ++ renderType f.ty ctx) ++ ");\n\n".toList)) ?_ readItem_struct rfl rfl
      ?_
    · rw [renderDefinition, hkind]
      simp only [List.append_assoc]
      rfl
    · rw [faithfulKind, hkind]
      exact (reads_tuple hwritten _).congr nil_eq_map_iff
  | false =>
    refine readsItem_of_block h (t := renderFields fields ctx) ?_ readItem_struct ?_
    · rw [renderDefinition, hkind]
      simp only [List.append_assoc]
      rfl
    · rw [faithfulKind, hkind]
      exact reads_struct h.predicates hwritten

theorem readsItem_enum (h : Written g m ctx ignoredTraits extraDerives ty)
    {variants : List (DocVariant WireType)} (hkind : ty.kind = .enum variants) :
    ReadsItem g m ctx ignoredTraits ty := by
  have hwritten := h.kind
  rw [hkind] at hwritten
  refine readsItem_of_block h (t := renderVariants variants ctx) ?_ readItem_enum ?_
  · rw [renderDefinition, hkind]
    simp only [List.append_assoc]
    rfl
  · rw [faithfulKind, hkind]
    exact reads_enum h.predicates hwritten

theorem readsItem_union (h : Written g m ctx ignoredTraits extraDerives ty)
    {fields : List (DocField WireType)} (hkind : ty.kind = .union fields) :
    ReadsItem g m ctx ignoredTraits ty := by
  have hwritten := h.kind
  rw [hkind] at hwritten
  refine readsItem_of_block h (t := renderFields fields ctx) ?_ readItem_union ?_
  · rw [renderDefinition, hkind]
    simp only [List.append_assoc]
    rfl
  · rw [faithfulKind, hkind]
    exact reads_union h.predicates hwritten

theorem readsItem_typeAlias (h : Written g m ctx ignoredTraits extraDerives ty) {rhs : WireType}
    (hkind : ty.kind = .typeAlias rhs) : ReadsItem g m ctx ignoredTraits ty := by
  have hwritten := h.kind
  rw [hkind] at hwritten
  refine readsItem_of_tail h (t := " = ".toList ++ (renderType rhs ctx ++ ";\n\n".toList)) ?_
    readItem_type rfl rfl ?_
  · rw [renderDefinition, hkind]
    simp only [List.append_assoc]
    rfl
  · rw [faithfulKind, hkind]
    exact (reads_alias hwritten _).congr nil_eq_map_iff

theorem readsItem_constant (h : Written g m ctx ignoredTraits extraDerives ty)
    {constTy value : String} (hkind : ty.kind = .constant constTy value) :
    ReadsItem g m ctx ignoredTraits ty := by
  have hwritten := h.kind
  rw [hkind] at hwritten
  have hhead : Reads (pair readName nothing (' ' :: (ty.name.toList ++ (": ".toList ++
      (constTy.toList ++ (" = ".toList ++ (stripTypeSuffix value.toList constTy.toList ++
        ";\n\n".toList)))))))
      (isName ty.name.toList = true ∧ [] = ty.generics.map (m.param ignoredTraits))
      (ty.name.toList, ty.generics.map (m.param ignoredTraits)) (": ".toList ++
      (constTy.toList ++ (" = ".toList ++ (stripTypeSuffix value.toList constTy.toList ++
        ";\n\n".toList)))) :=
    (reads_name rfl ty.name.toList).pair (reads_fixed [] _ _)
  refine ⟨"const ".toList ++ (ty.name.toList ++ (": ".toList ++ (constTy.toList ++
    (" = ".toList ++ (stripTypeSuffix value.toList constTy.toList ++ ";\n\n".toList))))), ?_, ?_⟩
  · rw [renderDefinition, hkind]
    simp only [List.append_assoc]
    rfl
  · rw [readItem_const, hkind]
    refine (hhead.pair (reads_constant hwritten.2 hwritten.1 _)).congr ?_
    rw [faithfulDefinition, faithfulKind, hkind, nil_eq_map_iff, nil_eq_map_iff]
    cases hgenerics : ty.generics with
    | nil => simp
    | cons p ps => simp

theorem readsItem (h : Written g m ctx ignoredTraits extraDerives ty) :
    ReadsItem g m ctx ignoredTraits ty := by
  cases hkind : ty.kind with
  | struct fields tuple => exact readsItem_struct h hkind
  | enum variants => exact readsItem_enum h hkind
  | union fields => exact readsItem_union h hkind
  | typeAlias rhs => exact readsItem_typeAlias h hkind
  | constant constTy value => exact readsItem_constant h hkind

end

/-! ## Attributes -/

section
variable {attrs : Attributes} {extraDerives : List Str}

theorem renderDerives_eq (attrs : Attributes) (extraDerives : List Str) :
    renderDerives attrs.derive extraDerives =
      ((deriveInners attrs extraDerives).map attributeLine).flatten := by
  have hunfold : renderDerives attrs.derive extraDerives =
      if (derivesOf attrs extraDerives).isEmpty then []
      else "#[derive(".toList ++ TypeRepr.join ", " (derivesOf attrs extraDerives) ++
        ")]\n".toList := rfl
  rw [hunfold, deriveInners]
  split_ifs
  · rfl
  · rw [List.map_singleton, List.flatten_singleton, attributeLine]
    simp only [List.append_assoc]
    rfl

theorem renderAttributes_eq
    (h : ∀ a ∈ (attrs.other.map String.toList).filter keepsAttr, IsOther a) :
    renderAttributes attrs extraDerives =
      ((attributeInners attrs extraDerives).map attributeLine).flatten := by
  have hrepr : attrs.repr.map (fun r => "#[repr(".toList ++ r.toList ++ ")]\n".toList) =
      (attrs.repr.map fun r => "repr(".toList ++ r.toList ++ [')']).map attributeLine := by
    rw [List.map_map]
    refine List.map_congr_left fun r _ => ?_
    rw [Function.comp_apply, attributeLine]
    simp only [List.append_assoc]
    rfl
  have hother : ((attrs.other.map String.toList).filter keepsAttr).map (fun a => a ++ ['\n']) =
      (((attrs.other.map String.toList).filter keepsAttr).map innerOf).map attributeLine := by
    rw [List.map_map]
    refine List.map_congr_left fun a ha => ?_
    rw [Function.comp_apply, attributeLine]
    conv_lhs => rw [(h a ha).brackets]
    simp only [List.append_assoc]
    rfl
  rw [renderAttributes, renderDerives_eq, hrepr, hother, attributeInners, List.map_append,
    List.map_append, List.flatten_append, List.flatten_append, List.append_assoc]

theorem innerOf_brackets (t : Str) : innerOf ("#[".toList ++ t ++ [']']) = t :=
  List.dropLast_concat

theorem toList_brackets (t : Str) :
    ("#[" ++ String.ofList t ++ "]").toList = "#[".toList ++ t ++ [']'] := by
  have hlist : (String.ofList t).toList = t := String.toList_ofList
  rw [String.toList_append, String.toList_append, hlist]
  rfl

theorem isOther_brackets {t : Str} (h : "repr(".toList.isPrefixOf t = false) :
    IsOther ("#[".toList ++ t ++ [']']) where
  brackets := by rw [innerOf_brackets]
  repr := by rw [innerOf_brackets, reprOf, h, Bool.false_and, if_neg Bool.false_ne_true]

/-- The attributes that are kept as they are found are such. -/
theorem isOther_of_parseAttributes (raw : List String) :
    ∀ a ∈ (parseAttributes raw).other.map String.toList, IsOther a := by
  have hstep : ∀ (attrs : Attributes) (s : String),
      (∀ a ∈ attrs.other.map String.toList, IsOther a) →
        ∀ a ∈ (classifyOtherAttr attrs s).other.map String.toList, IsOther a := by
    intro attrs s h
    rw [classifyOtherAttr]
    split_ifs with hrepr hderive hlang
    · exact h
    · exact h
    · exact h
    · intro a ha
      rw [List.map_append, List.mem_append, List.map_singleton, List.mem_singleton] at ha
      rcases ha with ha | ha
      · exact h a ha
      · rw [ha, toList_brackets]
        exact isOther_brackets (Bool.not_eq_true _ |>.mp hrepr)
  have hrun : ∀ (attrs : Attributes), (∀ a ∈ attrs.other.map String.toList, IsOther a) →
      ∀ a ∈ (raw.foldl classifyOtherAttr attrs).other.map String.toList, IsOther a := by
    induction raw with
    | nil => exact fun _ h => h
    | cons s raw ih => exact fun attrs h => ih _ (hstep attrs s h)
  exact hrun ⟨[], [], []⟩ (fun a ha => nomatch ha)

theorem filterMap_reprOf (h : ∀ a ∈ (attrs.other.map String.toList).filter keepsAttr, IsOther a) :
    (attributeInners attrs extraDerives).filterMap reprOf = attrs.repr.map String.toList := by
  have hrepr : (attrs.repr.map fun r => "repr(".toList ++ r.toList ++ [')']).filterMap reprOf =
      attrs.repr.map String.toList := by
    rw [List.filterMap_map, ← List.filterMap_eq_map]
    exact congrArg (List.filterMap · attrs.repr) (funext fun r => reprOf_repr r.toList)
  have hderive : (deriveInners attrs extraDerives).filterMap reprOf = [] := by
    rw [deriveInners]
    split_ifs <;> rfl
  have hother : (((attrs.other.map String.toList).filter keepsAttr).map innerOf).filterMap reprOf =
      [] := by
    rw [List.filterMap_map, List.filterMap_eq_nil_iff]
    exact fun a ha => (h a ha).repr
  rw [attributeInners, List.filterMap_append, List.filterMap_append, hrepr, hderive, hother,
    List.append_nil, List.append_nil]

end

/-! ## Whole definitions -/

section
variable {T : Type} {g : Grammar T} {m : Meaning T} {ctx : RenderCtx} {ignoredTraits : List Str}
  {extraDerives : List Str} {ty : EmitType}

theorem reads_docType (h : Written g m ctx ignoredTraits extraDerives ty) :
    Reads (readDefinition g (renderDocType ty ctx extraDerives ignoredTraits))
      (faithfulDefinition ty = true) (m.definition ignoredTraits ty) "\n\n".toList := by
  obtain ⟨t, htext, hread⟩ := readsItem h
  have hrest : symbol ['#'] (renderDefinition ty ctx ignoredTraits) = none := by
    rw [symbol, htext]
    rfl
  obtain ⟨s', hattributes, hs'⟩ := exists_readAttributes h.inners hrest
  rw [readDefinition, renderDocType, renderAttributes_eq h.others, hattributes, Option.bind_some,
    behindPub_of_skip (hs'.trans htext), filterMap_reprOf h.others]
  refine hread.map fun p q hpq => ?_
  obtain ⟨-, hname, hparams, hpredicates, hbody⟩ := Definition.mk.inj hpq
  exact Prod.ext (Prod.ext hname hparams) (Prod.ext hpredicates hbody)

/-- The text of a definition is read as that definition unless a part is written in another place or
not at all. -/
theorem parse_renderDocType_iff (h : Written g m ctx ignoredTraits extraDerives ty) :
    ItemSyntax.parse g (renderDocType ty ctx extraDerives ignoredTraits) =
      some (m.definition ignoredTraits ty) ↔ faithfulDefinition ty = true := by
  have hread := reads_docType h
  rw [ItemSyntax.parse]
  constructor
  · intro hparse
    split at hparse
    · rename_i d rest hd
      split_ifs at hparse
      obtain rfl := Option.some.inj hparse
      exact hread.good_of rest hd
    · cases hparse
  · intro hgood
    rw [hread.of_good hgood]
    rfl

end

/-! ### With the types that are read -/

section
variable (res : Resolver)

theorem skip_append_of_opens {t : Str} (h : Opens t) (rest : Str) :
    skip (t ++ rest) = t ++ rest := by
  obtain ⟨c, s, rfl, hc⟩ := h.exists_cons
  exact skip_cons (isSpace_of_opensChar hc)

theorem readWholeType_append {t : WireType} (h : faithful true t = true) {rest : Str}
    (hrest : endsType rest = true) :
    readWholeType (writeType res.resolve t ++ rest) = some (tyOf res t, rest) := by
  rw [readWholeType, skip_append_of_opens (opens_writeType res t)]
  refine ((sound_readers res _).type t true rest ?_ hrest).of_good h
  rw [List.length_append]
  omega

/-- Types that are written with their meaning are so in front of what may follow a type. -/
theorem isType_of_faithful {t : WireType} (h : faithful true t = true) :
    IsType rust (render t res.resolve) (tyOf res t) :=
  fun _ hrest => readWholeType_append res h (endsType_of_ends hrest rfl rfl rfl)

theorem isPiece_bound {b : TypeRepr.GenericBound} (h : faithfulBound b = true) :
    IsPiece rust.bound boundEnds (writeBound res.resolve b) := by
  have hopen : ∃ c s, writeBound res.resolve b = c :: s ∧ isSpace c = false := by
    cases b with
    | traitBound trait genericParams modifier =>
      obtain ⟨c, s, hcons, hc⟩ := (opens_writePath res trait).exists_cons
      cases modifier <;> rw [writeBound, hcons] <;> exact ⟨c, _, rfl, isSpace_of_opensChar hc⟩
    | outlives lt => exact ⟨'\'', lt.name, by rw [writeBound]; rfl, rfl⟩
    | use args =>
      rw [writeBound]
      exact ⟨'u', _, rfl, rfl⟩
  obtain ⟨c, s, hcons, hspace⟩ := hopen
  constructor
  · rw [hcons]
    exact List.cons_ne_nil c s
  · intro rest hrest
    refine takeText_measureOf ?_ (a := boundOf res b) ?_
    · rw [hcons]
      exact skip_cons hspace
    · refine (reads_bound (sound_readers res _) ?_ (endsPath_of_ends hrest rfl)).of_good h
      rw [List.length_append]
      omega

theorem isPiece_predicate {t : WireType} {bounds : List TypeRepr.GenericBound}
    (ht : faithful true t = true) (hne : bounds ≠ []) (h : ∀ b ∈ bounds, faithfulBound b = true) :
    IsPiece rust.predicate predicateEnds (writeType res.resolve t ++ (": ".toList ++
      TypeRepr.join " + " (bounds.map (writeBound res.resolve)))) := by
  constructor
  · exact List.append_ne_nil_of_right_ne_nil _ (List.cons_ne_nil _ _)
  · intro rest hrest
    have hbounds : after [':'] readWholeBounds (": ".toList ++
        (TypeRepr.join " + " (bounds.map (writeBound res.resolve)) ++ rest)) =
        some (bounds.map (boundOf res), rest) := by
      have hsymbol : ∀ s, after [':'] readWholeBounds (": ".toList ++ s) =
          readWholeBounds (' ' :: s) := fun _ => rfl
      rw [hsymbol, readWholeBounds]
      refine (reads_bounds (sound_readers res _) ?_ (endsType_of_ends hrest rfl rfl rfl)
        true).of_good ⟨hne, rfl, h⟩
      rw [List.length_cons, List.length_append]
      omega
    refine takeText_measureOf ?_ (a := (tyOf res t, bounds.map (boundOf res))) ?_
    · rw [List.append_assoc]
      exact skip_append_of_opens (opens_writeType res t) _
    · rw [List.append_assoc, List.append_assoc, pair, readWholeType_append res ht rfl,
        Option.bind_some, hbounds]
      rfl

end

/-! ### Definitions with and without their clauses -/

def copyPath : Resolver := fun _ _ => ⟨false, [], ⟨"Copy".toList, rfl⟩⟩

def rustMeaning : Meaning Ty := ⟨tyOf copyPath, fun s => (TypeSyntax.parse s).getD .infer⟩

def plainCtx : RenderCtx := ⟨[], [], [], "core", []⟩

theorem isIdent_T : isIdent ['T'] = true := rfl

def genericT : WireType := .generic ⟨['T'], isIdent_T⟩

def copyBound : TypeRepr.GenericBound := .traitBound (.mk [] 0 none) [] .none

/-- `T: Copy = u8` -/
def copyParam : DocGenericParam WireType where
  name := "T"
  isLifetime := false
  isConst := false
  bounds := ["Copy"]
  defaultType := some (.primitive ⟨"u8".toList, rfl⟩)
  defaultValue := none
  constTy := none
  outlives := []

/-- `const N: usize` -/
def sizeParam : DocGenericParam WireType where
  name := "N"
  isLifetime := false
  isConst := true
  bounds := []
  defaultType := none
  defaultValue := none
  constTy := some "usize"
  outlives := []

/-- `'a: 'static` -/
def lifetimeParam : DocGenericParam WireType where
  name := "'a"
  isLifetime := true
  isConst := false
  bounds := []
  defaultType := none
  defaultValue := none
  constTy := none
  outlives := ["'static"]

def copyClause (kind : DocTypeKind WireType) : EmitType where
  id := 0
  itemId := 0
  lib := "core"
  name := "Wrapper"
  modulePath := ""
  kind := kind
  generics := [lifetimeParam, sizeParam, copyParam]
  wherePredicates := ["T: Copy"]
  attrs := ⟨["C"], [["Clone", "Copy"]], []⟩

theorem written_copyClause (kind : DocTypeKind WireType)
    (h : WrittenKind rust rustMeaning plainCtx kind) :
    Written rust rustMeaning plainCtx [] [] (copyClause kind) where
  inners a ha := by
    have hinners : attributeInners (copyClause kind).attrs [] =
        ["repr(C)".toList, "derive(Clone)".toList] := rfl
    rw [hinners] at ha
    rcases List.mem_cons.mp ha with rfl | ha
    · exact isPiece_meta (w := "repr".toList) (s := ['C']) rfl rfl
    · obtain rfl := List.mem_singleton.mp ha
      exact isPiece_meta (w := "derive".toList) (s := "Clone".toList) rfl rfl
  others a ha := nomatch ha
  params p hp := by
    rcases List.mem_cons.mp hp with rfl | hp
    · exact ⟨fun b hb => (nomatch hb), fun t ht => (nomatch ht), fun _ v hv => (nomatch hv),
        fun hconst => (nomatch hconst)⟩
    · rcases List.mem_cons.mp hp with rfl | hp
      · have husize : faithful true (.primitive ⟨"usize".toList, rfl⟩) = true := rfl
        exact ⟨fun b hb => (nomatch hb), fun t ht => (nomatch ht), fun hconst => (nomatch hconst),
          fun _ => isType_of_faithful copyPath husize⟩
      · obtain rfl := List.mem_singleton.mp hp
        refine ⟨fun b hb => ?_, fun t ht => ?_, fun _ v hv => (nomatch hv),
          fun hconst => (nomatch hconst)⟩
        · obtain rfl := List.mem_singleton.mp hb
          have hbound : faithfulBound copyBound = true := rfl
          exact isPiece_bound copyPath hbound
        · obtain rfl := Option.some.inj ht
          have hu8 : faithful true (.primitive ⟨"u8".toList, rfl⟩) = true := rfl
          exact isType_of_faithful copyPath hu8
  predicates w hw := by
    obtain rfl := List.mem_singleton.mp hw
    have hT : faithful true genericT = true := rfl
    have hbounds : ∀ b ∈ [copyBound], faithfulBound b = true := fun b hb => by
      rw [List.mem_singleton.mp hb]
      rfl
    exact isPiece_predicate copyPath hT (List.cons_ne_nil _ _) hbounds
  kind := h

/-- `&'a [T]` -/
def sliceT : WireType := .borrowedRef (some ⟨['a'], rfl⟩) false (.slice genericT)

def valueField : DocField WireType := ⟨"value", .isPublic, sliceT⟩

def valueVariants : List (DocVariant WireType) :=
  [⟨"Empty", .unit, some "1"⟩, ⟨"Whole", .tuple [valueField, valueField], none⟩,
    ⟨"Part", .struct [valueField], none⟩]

theorem written_fields {fields : List (DocField WireType)} (h : ∀ f ∈ fields, f = valueField) :
    WrittenFields rust rustMeaning plainCtx fields := fun f hf => by
  have hT : faithful true sliceT = true := rfl
  rw [h f hf]
  exact isType_of_faithful copyPath hT

theorem written_valueVariants :
    WrittenKind rust rustMeaning plainCtx (.enum valueVariants) := fun v hv => by
  rcases List.mem_cons.mp hv with rfl | hv
  · refine ⟨trivial, fun d hd => ?_⟩
    obtain rfl := Option.some.inj hd
    exact isPiece_word (w := ['1']) rfl rfl
  · rcases List.mem_cons.mp hv with rfl | hv
    · exact ⟨written_fields (by simp), fun d hd => (nomatch hd)⟩
    · obtain rfl := List.mem_singleton.mp hv
      exact ⟨written_fields (by simp), fun d hd => (nomatch hd)⟩

/-- The clause of a struct with named fields and of an enum is read again, that of a tuple struct is
not. -/
theorem parse_renderDocType_iff_clause :
    ItemSyntax.parse rust (renderDocType (copyClause (.struct [valueField] false)) plainCtx [] []) =
        some (rustMeaning.definition [] (copyClause (.struct [valueField] false))) ∧
      ItemSyntax.parse rust (renderDocType (copyClause (.enum valueVariants)) plainCtx [] []) =
        some (rustMeaning.definition [] (copyClause (.enum valueVariants))) ∧
      ItemSyntax.parse rust
          (renderDocType (copyClause (.struct [valueField] true)) plainCtx [] []) ≠
        some (rustMeaning.definition [] (copyClause (.struct [valueField] true))) := by
  have hfields := (written_fields (by simp) : WrittenFields rust rustMeaning plainCtx [valueField])
  refine ⟨?_, ?_, fun h => ?_⟩
  · exact (parse_renderDocType_iff
      (written_copyClause (.struct [valueField] false) hfields)).mpr rfl
  · exact (parse_renderDocType_iff (written_copyClause _ written_valueVariants)).mpr rfl
  · exact Bool.false_ne_true
      ((parse_renderDocType_iff (written_copyClause (.struct [valueField] true) hfields)).mp h)

set_option maxRecDepth 1000 in
theorem clause_is_lost :
    Written rust rustMeaning plainCtx [] [] (copyClause (.struct [valueField] true)) ∧
      ItemSyntax.parse rust
          (renderDocType (copyClause (.struct [valueField] true)) plainCtx [] []) ≠
        some (rustMeaning.definition [] (copyClause (.struct [valueField] true))) := by
  have hread : (ItemSyntax.parse rust (renderDocType (copyClause (.struct [valueField] true))
      plainCtx [] [])).map Definition.predicates = some [] := rfl
  refine ⟨written_copyClause (.struct [valueField] true) (written_fields (by simp)), fun h => ?_⟩
  rw [h] at hread
  cases hread

end Rustyfill.DocJson.Emit
