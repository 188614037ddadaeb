import Rustyfill.DocJson.Definitions

/-!
# The parts of the written definitions

What is read of the parameters, the fields and the variants that are written.
-/

namespace Rustyfill.DocJson.Emit

open TypeRepr Reading TypeSyntax ItemSyntax

set_option autoImplicit false

/-! ## Generics -/

section
variable {T : Type} {g : Grammar T} {m : Meaning T} {ctx : RenderCtx} {ignoredTraits : List Str}
  {p : DocGenericParam WireType} {rest : Str}

theorem readParam_lifetime (s : Str) :
    readParam g ('\'' :: s) = readLifetimeParam ('\'' :: s) := rfl

theorem readParam_const (s : Str) :
    readParam g ("const ".toList ++ s) = readConstParam g (' ' :: s) := rfl

theorem readParam_name {n : Str} (h : isName n = true) (hrest : endsWord rest = true) :
    readParam g (n ++ rest) = readTypeParam g (n ++ rest) := by
  have hword := isWord_of_isName h
  have hquote : (skip (n ++ rest)).head? ≠ some '\'' := by
    rw [skip_word hword]
    obtain ⟨c, s, rfl, hc, -⟩ := exists_cons_of_isWord hword
    intro heq
    obtain rfl := Option.some.inj heq
    cases hc
  have hconst : word (n ++ rest) ≠ "const".toList := by
    rw [word_append hword hrest]
    exact ne_of_isName h (Or.inl rfl)
  rw [readParam, if_neg hquote, if_neg hconst]

/-- A parameter for a type is named by a name. -/
theorem isName_of_readParam {s l n : Str} {bounds : List Str} {default : Option T}
    (h : readParam g s = some (.type n bounds default, l)) : isName n = true := by
  rw [readParam] at h
  split_ifs at h
  · obtain ⟨p, hp⟩ := of_map h
    cases hp
  · obtain ⟨p, hp⟩ := of_map h
    cases hp
  · obtain ⟨⟨n', p⟩, hread, hp⟩ := exists_of_map h
    obtain ⟨s', hname, -⟩ := exists_of_pair hread
    obtain rfl := (Param.type.inj hp).1
    exact isName_of_readName hname

theorem reads_lifetimeParam (hlifetime : p.isLifetime = true)
    (hrest : ends [',', '>'] rest = true) :
    Reads (readParam g (renderGenericParam p ignoredTraits ctx ++ rest)) (faithfulParam p = true)
      (m.param ignoredTraits p) rest := by
  have hword := endsWord_of_ends hrest rfl
  have houtlives : Reads (readOutlives (behindColon (p.outlives.map String.toList) ++ rest))
      (∀ t ∈ p.outlives.map String.toList, isLifetime t = true) (p.outlives.map String.toList)
      rest := by
    refine reads_behindColon (fun _ => rfl) (symbol_of_ends hrest rfl [])
      (symbol_of_ends hrest rfl []) ?_
    intro t _ tail htail
    refine reads_lifetime ?_ t
    rcases htail with ⟨s, rfl⟩ | rfl
    · rfl
    · exact hword
  have htext : renderGenericParam p ignoredTraits ctx ++ rest = '\'' :: lifetimeName p ++
      (behindColon (p.outlives.map String.toList) ++ rest) := by
    rw [renderGenericParam, if_pos hlifetime, behindColon, List.isEmpty_map, List.append_assoc,
      List.append_assoc]
    rfl
  rw [htext, List.cons_append, readParam_lifetime, faithfulParam, if_pos hlifetime, Meaning.param,
    if_pos hlifetime]
  have hname := reads_lifetimeName (endsWord_behindColon hword (p.outlives.map String.toList))
    (lifetimeName p)
  refine ((hname.pair houtlives).map fun p q hpq => ?_).congr ?_
  · exact Prod.ext (Param.lifetime.inj hpq).1 (Param.lifetime.inj hpq).2
  · rw [Bool.and_eq_true, List.all_eq_true]

theorem reads_constParam (hlifetime : p.isLifetime = false) (hconst : p.isConst = true)
    (h : WrittenParam g m ctx ignoredTraits p) (hrest : ends [',', '>'] rest = true) :
    Reads (readParam g (renderGenericParam p ignoredTraits ctx ++ rest)) (faithfulParam p = true)
      (m.param ignoredTraits p) rest := by
  have htext : renderGenericParam p ignoredTraits ctx ++ rest =
      "const ".toList ++ (p.name.toList ++ (':' :: ' ' :: (constTyText p ++ rest))) := by
    rw [renderGenericParam, hlifetime, if_neg Bool.false_ne_true, if_pos hconst]
    simp only [List.append_assoc]
    rfl
  have htype : Reads (g.type (' ' :: (constTyText p ++ rest))) True (m.text (constTyText p))
      rest := by
    refine reads_of_eq ?_
    rw [g.type_skips, h.constTy hconst rest (ends_mono rfl hrest)]
  have hdefault : Reads (whenSymbol ['='] (takeText g.constant) rest)
      (none = p.defaultValue.map String.toList) (p.defaultValue.map String.toList) rest :=
    reads_whenSymbol_fixed (symbol_of_ends hrest rfl []) _
  have hname : Reads (readName (' ' :: (p.name.toList ++ (':' :: ' ' :: (constTyText p ++ rest)))))
      (isName p.name.toList = true) p.name.toList (':' :: ' ' :: (constTyText p ++ rest)) :=
    reads_name rfl p.name.toList
  rw [htext, readParam_const, faithfulParam, hlifetime, if_neg Bool.false_ne_true, Meaning.param,
    hlifetime, if_neg Bool.false_ne_true, if_pos hconst]
  refine ((hname.pair ((htype.after (symbol_self rfl _)).pair hdefault)).map
    fun p q hpq => ?_).congr ?_
  · exact Prod.ext (Param.const.inj hpq).1
      (Prod.ext (Param.const.inj hpq).2.1 (Param.const.inj hpq).2.2)
  · rw [hconst]
    cases p.defaultValue <;> simp

/-- What is written behind the bounds of a parameter for a type. -/
def defaultText (p : DocGenericParam WireType) (ctx : RenderCtx) : Str :=
  match p.defaultType, p.defaultValue with
  | some defaultTy, _ => " = ".toList ++ renderType defaultTy ctx
  | none, some defaultVal => " = ".toList ++ defaultVal.toList
  | none, none => []

theorem renderGenericParam_type (hlifetime : p.isLifetime = false) (hconst : p.isConst = false)
    (rest : Str) : renderGenericParam p ignoredTraits ctx ++ rest = p.name.toList ++
      (behindColon (keptBounds p ignoredTraits) ++ (defaultText p ctx ++ rest)) := by
  rw [renderGenericParam, hlifetime, hconst, if_neg Bool.false_ne_true, if_neg Bool.false_ne_true]
  simp only [List.append_assoc]
  rfl

theorem ends_defaultText (hrest : ends [',', '>'] rest = true) :
    ends [',', '>', '='] (defaultText p ctx ++ rest) = true := by
  rw [defaultText]
  cases p.defaultType with
  | some t => rfl
  | none =>
    cases p.defaultValue with
    | some v => rfl
    | none => exact ends_mono rfl hrest

theorem reads_default (hconst : p.isConst = false) (h : WrittenParam g m ctx ignoredTraits p)
    (hrest : ends [',', '>'] rest = true) :
    Reads (whenSymbol ['='] g.type (defaultText p ctx ++ rest)) True
      ((p.defaultType.map m.ty).or (p.defaultValue.map fun v => m.text v.toList)) rest := by
  have htype : ∀ t x, IsType g t x →
      Reads (whenSymbol ['='] g.type (" = ".toList ++ t ++ rest)) True (some x) rest := by
    intro t x ht
    have hsymbol : symbol ['='] (" = ".toList ++ (t ++ rest)) = some (' ' :: (t ++ rest)) := rfl
    rw [List.append_assoc]
    refine Reads.whenSymbol hsymbol (reads_of_eq ?_)
    rw [g.type_skips, ht rest (ends_mono rfl hrest)]
  have hty := h.defaultType
  have hvalue := h.defaultValue hconst
  rw [defaultText]
  cases hdefault : p.defaultType with
  | some t => exact htype _ _ (hty t hdefault)
  | none =>
    cases hdefault' : p.defaultValue with
    | some v => exact htype _ _ (hvalue v hdefault')
    | none => exact reads_whenSymbol_none (symbol_of_ends hrest rfl [])

theorem reads_typeParam (hlifetime : p.isLifetime = false) (hconst : p.isConst = false)
    (h : WrittenParam g m ctx ignoredTraits p) (hrest : ends [',', '>'] rest = true) :
    Reads (readParam g (renderGenericParam p ignoredTraits ctx ++ rest)) (faithfulParam p = true)
      (m.param ignoredTraits p) rest := by
  have hends : ends [',', '>', '='] (defaultText p ctx ++ rest) = true := ends_defaultText hrest
  have hword := endsWord_of_ends hends rfl
  have hbounds : Reads (listAfter [':'] (sepBy ['+'] (takeText g.bound))
      (behindColon (keptBounds p ignoredTraits) ++ (defaultText p ctx ++ rest)))
      (∀ b ∈ keptBounds p ignoredTraits, True) (keptBounds p ignoredTraits)
      (defaultText p ctx ++ rest) := by
    refine reads_behindColon (fun _ => rfl) (symbol_of_ends hends rfl [])
      (symbol_of_ends hends rfl []) ?_
    intro b hb tail htail
    refine (h.bounds b hb).reads ?_
    rcases htail with ⟨s, rfl⟩ | rfl
    · rfl
    · exact ends_mono rfl hends
  have hfaithful : faithfulParam p = isName p.name.toList := by
    rw [faithfulParam, hlifetime, hconst, if_neg Bool.false_ne_true, Bool.not_false, Bool.true_or,
      Bool.and_true]
  rw [renderGenericParam_type hlifetime hconst, hfaithful, Meaning.param, hlifetime, hconst,
    if_neg Bool.false_ne_true, if_neg Bool.false_ne_true]
  by_cases hname : isName p.name.toList = true
  · rw [readParam_name hname (endsWord_behindColon hword _)]
    refine (((reads_name (endsWord_behindColon hword _) p.name.toList).pair
      (hbounds.pair (reads_default hconst h hrest))).map fun p q hpq => ?_).congr (by simp)
    exact Prod.ext (Param.type.inj hpq).1
      (Prod.ext (Param.type.inj hpq).2.1 (Param.type.inj hpq).2.2)
  · exact (reads_never (fun l hl => hname (isName_of_readParam hl)) rest).congr
      (iff_of_false id hname)

theorem reads_param (h : WrittenParam g m ctx ignoredTraits p)
    (hrest : ends [',', '>'] rest = true) :
    Reads (readParam g (renderGenericParam p ignoredTraits ctx ++ rest)) (faithfulParam p = true)
      (m.param ignoredTraits p) rest := by
  cases hlifetime : p.isLifetime with
  | true => exact reads_lifetimeParam hlifetime hrest
  | false =>
    cases hconst : p.isConst with
    | true => exact reads_constParam hlifetime hconst h hrest
    | false => exact reads_typeParam hlifetime hconst h hrest

/-- A parameter with its name does not close the list. -/
theorem symbol_renderGenericParam (h : faithfulParam p = true) (s : Str) :
    symbol ['>'] (renderGenericParam p ignoredTraits ctx ++ s) = none := by
  cases hlifetime : p.isLifetime with
  | true =>
    rw [renderGenericParam, if_pos hlifetime, List.append_assoc, List.append_assoc]
    rfl
  | false =>
    cases hconst : p.isConst with
    | true =>
      rw [renderGenericParam, hlifetime, if_neg Bool.false_ne_true, if_pos hconst]
      simp only [List.append_assoc]
      rfl
    | false =>
      rw [faithfulParam, hlifetime, if_neg Bool.false_ne_true, Bool.and_eq_true] at h
      rw [renderGenericParam_type hlifetime hconst]
      exact symbol_word (isWord_of_isName h.1) rfl [] _

theorem reads_params {ps : List (DocGenericParam WireType)}
    (h : ∀ p ∈ ps, WrittenParam g m ctx ignoredTraits p) (hrest : symbol ['<'] rest = none) :
    Reads (readParams g (renderGenerics ps ignoredTraits ctx ++ rest)) (ps.all faithfulParam = true)
      (ps.map (m.param ignoredTraits)) rest := by
  rw [renderGenerics, List.all_eq_true]
  cases ps with
  | nil => exact (reads_listAfter_none hrest []).congr (by simp)
  | cons p ps =>
    rw [List.isEmpty_cons, if_neg Bool.false_ne_true, List.append_assoc, List.append_assoc]
    refine reads_listAfter (symbol_self rfl _)
      (reads_commaList (fun _ => rfl) (symbol_self rfl rest) rfl (List.cons_ne_nil _ _) ?_ ?_).1
    · intro p hp tail htail
      refine reads_param (h p hp) ?_
      rcases htail with ⟨s, rfl⟩ | rfl <;> rfl
    · exact fun p _ hp s => symbol_renderGenericParam hp s

end

/-! ## Fields and variants -/

section
variable {T : Type} {g : Grammar T} {m : Meaning T} {ctx : RenderCtx} {f : DocField WireType}
  {fields : List (DocField WireType)} {rest : Str}

/-- A field, in front of which a visibility stands or not. -/
theorem reads_field {lead : Str} (hlead : lead = "    pub ".toList ∨ lead = "        ".toList)
    (h : Renders g m ctx f.ty) (hrest : ends typeEnds rest = true) :
    Reads (readField g (lead ++ renderField f ctx ++ rest)) (faithfulField f = true) (m.field f)
      rest := by
  have htext : lead ++ renderField f ctx ++ rest =
      lead ++ (f.name.toList ++ (':' :: ' ' :: (renderType f.ty ctx ++ rest))) := by
    rw [renderField]
    simp only [List.append_assoc]
    rfl
  have htype : Reads (g.type (' ' :: (renderType f.ty ctx ++ rest))) True (m.ty f.ty) rest := by
    refine reads_of_eq ?_
    rw [g.type_skips, h rest hrest]
  rw [htext, faithfulField]
  by_cases hname : isName f.name.toList = true
  · have hread : readField g
        (lead ++ (f.name.toList ++ (':' :: ' ' :: (renderType f.ty ctx ++ rest)))) =
        map (fun p => ⟨p.1, p.2⟩) (pair readName (after [':'] g.type))
          (f.name.toList ++ (':' :: ' ' :: (renderType f.ty ctx ++ rest))) := by
      rcases hlead with rfl | rfl
      · rfl
      · have hword : word ("        ".toList ++ (f.name.toList ++
            (':' :: ' ' :: (renderType f.ty ctx ++ rest)))) = f.name.toList :=
          word_append (isWord_of_isName hname) rfl
        rw [readField, behindPub_of_ne fun hpub =>
          ne_of_isName hname (Or.inr rfl) (hword.symm.trans hpub)]
        rfl
    rw [hread]
    refine (((reads_name rfl f.name.toList).pair
      (htype.after (symbol_self rfl _))).map fun p q hpq => ?_).congr (by simp)
    exact Prod.ext (ItemSyntax.Field.mk.inj hpq).1 (ItemSyntax.Field.mk.inj hpq).2
  · exact (reads_never (fun l hl => hname (isName_of_readField g hl)) rest).congr
      (iff_of_false id hname)

theorem reads_fields {lead tail : Str} (hlead : lead = "    pub ".toList ∨ lead = "        ".toList)
    (h : WrittenFields g m ctx fields) (hclose : symbol ['}'] tail = some rest) :
    Reads (commaList ['}'] (readField g)
      ('\n' :: ((fields.map fun f => lead ++ renderField f ctx ++ [',', '\n']).flatten ++ tail)))
      (fields.all faithfulField = true) (fields.map m.field) rest := by
  refine (reads_lines (readField_newline g) hclose ?_ ?_).congr List.all_eq_true.symm
  · exact fun f hf s => reads_field hlead (h f hf) rfl
  · intro f _ hname s
    rw [renderField, List.append_assoc, List.append_assoc, List.append_assoc]
    rcases hlead with rfl | rfl
    · rfl
    · exact symbol_word (isWord_of_isName hname) rfl [] _

/-- What is written of the fields of a variant. -/
def payloadText (ctx : RenderCtx) : DocVariantKind WireType → Str
  | .unit => []
  | .tuple fields =>
    ['('] ++ TypeRepr.join ", " (fields.map fun f => renderType f.ty ctx) ++ [',', ')']
  | .struct fields =>
    " \x7b\n".toList ++
      (fields.map fun f => "        ".toList ++ renderField f ctx ++ [',', '\n']).flatten ++
      "    \x7d".toList

theorem reads_payload {kind : DocVariantKind WireType} (h : WrittenPayload g m ctx kind) (s : Str) :
    Reads (readPayload g (payloadText ctx kind ++ ',' :: s)) (faithfulPayload kind = true)
      (m.payload kind) (',' :: s) := by
  cases kind with
  | unit => exact (reads_of_eq rfl).congr (by simp [faithfulPayload])
  | tuple fields =>
    have hread : ∀ s, readPayload g ('(' :: s) = map .tuple (commaList [')'] g.type) s :=
      fun _ => rfl
    have htext : payloadText ctx (.tuple fields) ++ ',' :: s = '(' ::
        ([',', ' '].intercalate (fields.map fun f => renderType f.ty ctx) ++
          ',' :: ')' :: ',' :: s) := by
      rw [payloadText, List.append_assoc, List.append_assoc]
      rfl
    rw [htext, hread, faithfulPayload]
    cases fields with
    | nil =>
      -- Nothing stands in front of the comma.
      refine (reads_never (fun l hl => ?_) (',' :: s)).congr (by simp)
      have hnone : commaList [')'] g.type (',' :: ')' :: ',' :: s) = none := by
        rw [commaList, commaListFrom, symbol_ne rfl (by decide), g.type_ends ',' _ rfl]
        rfl
      obtain ⟨ts, hts, -⟩ := exists_of_map hl
      rw [List.map_nil, List.intercalate_nil, List.nil_append, hnone] at hts
      cases hts
    | cons f fields =>
      have hlist : Reads (commaList [')'] g.type
          ([',', ' '].intercalate ((f :: fields).map fun f => renderType f.ty ctx) ++
            ',' :: ')' :: ',' :: s))
          (∀ x ∈ f :: fields, True) ((f :: fields).map fun f => m.ty f.ty) (',' :: s) := by
        have hclose : symbol [')'] (')' :: ',' :: s) = some (',' :: s) := symbol_self rfl (',' :: s)
        refine reads_commaList_trailing g.type_skips hclose ?_ ?_ (List.cons_ne_nil f fields)
        · exact fun f hf s => reads_of_eq (h f hf _ rfl)
        · exact fun f hf _ s => g.symbol_of_type (h f hf (',' :: s) rfl) rfl
      exact (hlist.map fun _ _ => Payload.tuple.inj).congr (by simp)
  | struct fields =>
    have htext : payloadText ctx (.struct fields) ++ ',' :: s = ' ' :: '{' :: ('\n' ::
        ((fields.map fun f => "        ".toList ++ renderField f ctx ++ [',', '\n']).flatten ++
          ("    \x7d".toList ++ ',' :: s))) := by
      rw [payloadText, List.append_assoc, List.append_assoc]
      rfl
    have hread : ∀ s, readPayload g (' ' :: '{' :: s) =
        map .struct (commaList ['}'] (readField g)) s := fun _ => rfl
    rw [htext, hread, faithfulPayload]
    exact (reads_fields (Or.inr rfl) h rfl).map fun _ _ => Payload.struct.inj

def discriminantText (v : DocVariant WireType) : Str :=
  v.discriminantExpr.elim [] fun d => " = ".toList ++ d.toList

/-- The line of a variant, up to the comma. -/
def variantText (ctx : RenderCtx) (v : DocVariant WireType) : Str :=
  "    ".toList ++ (v.name.toList ++ (discriminantText v ++ payloadText ctx v.kind))

theorem renderVariant_eq (v : DocVariant WireType) :
    renderVariant v ctx = variantText ctx v ++ [',', '\n'] := by
  rw [renderVariant, variantText, discriminantText]
  cases v.kind with
  | unit => simp only [payloadText, List.append_assoc, List.append_nil]; rfl
  | tuple fields => simp only [payloadText, List.append_assoc]; rfl
  | struct fields => simp only [payloadText, List.append_assoc]; rfl

theorem readVariant_eq (v : DocVariant WireType) (s : Str) :
    readVariant g (variantText ctx v ++ s) =
      map (fun p => ⟨p.1, p.2.1, p.2.2⟩)
        (pair readName (pair (readPayload g) (whenSymbol ['='] (takeText g.expr))))
        (v.name.toList ++ (discriminantText v ++ (payloadText ctx v.kind ++ s))) := by
  rw [variantText, List.append_assoc, List.append_assoc, List.append_assoc]
  rfl

theorem reads_plainVariant {v : DocVariant WireType} (hnone : v.discriminantExpr = none)
    (h : WrittenVariant g m ctx v) (s : Str) :
    Reads (readVariant g (variantText ctx v ++ ',' :: s)) (faithfulVariant v = true) (m.variant v)
      (',' :: s) := by
  have hname : Reads (readName (v.name.toList ++ (payloadText ctx v.kind ++ ',' :: s)))
      (isName v.name.toList = true) v.name.toList (payloadText ctx v.kind ++ ',' :: s) := by
    refine reads_name ?_ v.name.toList
    cases v.kind <;> rfl
  have hdiscriminant : Reads (whenSymbol ['='] (takeText g.expr) (',' :: s)) True none (',' :: s) :=
    reads_whenSymbol_none rfl
  rw [readVariant_eq, discriminantText, Meaning.variant, hnone]
  refine ((hname.pair ((reads_payload h.payload s).pair hdiscriminant)).map
    variant_injective).congr ?_
  rw [faithfulVariant, hnone]
  cases v.kind <;> simp

theorem reads_unitVariant {v : DocVariant WireType} {d : String}
    (hsome : v.discriminantExpr = some d) (hkind : v.kind = .unit) (h : WrittenVariant g m ctx v)
    (s : Str) :
    Reads (readVariant g (variantText ctx v ++ ',' :: s)) (faithfulVariant v = true) (m.variant v)
      (',' :: s) := by
  have hname : Reads (readName (v.name.toList ++ (" = ".toList ++ d.toList ++ ',' :: s)))
      (isName v.name.toList = true) v.name.toList (" = ".toList ++ d.toList ++ ',' :: s) :=
    reads_name rfl v.name.toList
  have hpayload : Reads (readPayload g (" = ".toList ++ d.toList ++ ',' :: s)) True .unit
      (" = ".toList ++ d.toList ++ ',' :: s) := reads_of_eq rfl
  have hdiscriminant : Reads (whenSymbol ['='] (takeText g.expr)
      (" = ".toList ++ d.toList ++ ',' :: s)) True (some d.toList) (',' :: s) := by
    have hsymbol : symbol ['='] (" = ".toList ++ d.toList ++ ',' :: s) =
        some (' ' :: (d.toList ++ ',' :: s)) := rfl
    exact Reads.whenSymbol hsymbol ((h.discriminant d hsome).reads rfl)
  rw [readVariant_eq, discriminantText, Meaning.variant, hsome, hkind]
  refine ((hname.pair (hpayload.pair hdiscriminant)).map variant_injective).congr ?_
  rw [faithfulVariant, hkind]
  simp [faithfulPayload]

/-- Behind a discriminant, no fields are read. -/
theorem payload_of_readVariant {v : DocVariant WireType} {d : String} {x : ItemSyntax.Variant T}
    {s l : Str} (hname : isName v.name.toList = true) (hsome : v.discriminantExpr = some d)
    (h : readVariant g (variantText ctx v ++ s) = some (x, l)) : x.payload = .unit := by
  rw [readVariant_eq, discriminantText, hsome] at h
  obtain ⟨⟨n, payload, discriminant⟩, hread, rfl⟩ := exists_of_map h
  obtain ⟨s', hn, hread⟩ := exists_of_pair hread
  obtain ⟨s'', hpayload, -⟩ := exists_of_pair hread
  have hname' : readName (v.name.toList ++ (" = ".toList ++ d.toList ++
      (payloadText ctx v.kind ++ s))) = some (v.name.toList, " = ".toList ++ d.toList ++
      (payloadText ctx v.kind ++ s)) := (reads_name rfl v.name.toList).of_good hname
  rw [Option.elim_some, hname'] at hn
  obtain ⟨rfl, rfl⟩ := Prod.mk.inj (Option.some.inj hn)
  exact (congrArg Prod.fst (Option.some.inj hpayload)).symm

theorem reads_variant {v : DocVariant WireType} (h : WrittenVariant g m ctx v) (s : Str) :
    Reads (readVariant g (variantText ctx v ++ ',' :: s)) (faithfulVariant v = true) (m.variant v)
      (',' :: s) := by
  cases hdisc : v.discriminantExpr with
  | none => exact reads_plainVariant hdisc h s
  | some d =>
    by_cases hkind : v.kind = .unit
    · exact reads_unitVariant hdisc hkind h s
    · have hfaithful : faithfulVariant v = false := by
        rw [faithfulVariant, hdisc]
        cases hv : v.kind with
        | unit => exact absurd hv hkind
        | tuple fields => exact Bool.and_false _
        | struct fields => exact Bool.and_false _
      refine (reads_never (fun l hl => hkind ?_) (',' :: s)).congr (by simp [hfaithful])
      have hpayload := payload_of_readVariant (isName_of_readVariant g hl) hdisc hl
      rw [Meaning.variant] at hpayload
      cases hv : v.kind with
      | unit => rfl
      | tuple fields =>
        rw [hv] at hpayload
        cases hpayload
      | struct fields =>
        rw [hv] at hpayload
        cases hpayload

end

end Rustyfill.DocJson.Emit
