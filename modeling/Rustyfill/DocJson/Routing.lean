import Rustyfill.DocJson.Emit
import Rustyfill.DocJson.References

/-!
# Where references are routed

The rule by which the text of a reference was found. It is to be the documented one: a replacement
of the spec, else the route of the item in the library of the type that is written, else the
fallback.
-/

namespace Rustyfill.DocJson.Emit

open TypeSyntax TypeRepr

set_option autoImplicit false

/-! ## What is chosen for a reference -/

/-- The rules for a reference, in their order. -/
inductive Rule where
  | replaced (base : Str)
  | routed (route : Str)
  | fallback
deriving DecidableEq

/-- A rule, and whether the leaf alone is written. -/
structure Choice where
  rule : Rule
  bare : Bool
deriving DecidableEq

/-- The text of a reference, without its arguments. -/
def Choice.text (c : Choice) (path : Str) : Str :=
  match c.rule with
  | .replaced base => base
  | .routed route => if c.bare then leaf route else route
  | .fallback => if c.bare then leaf (stripCrate path) else fallbackTarget path

/-- The documented rule for a reference in a type of a library. -/
def documented (ctx : RenderCtx) (lib : String) (r : Reference) : Rule :=
  match trySpecReplacement r.path ctx with
  | some base => .replaced base
  | none =>
    match ctx.exports.resolve lib r.id with
    | some route => .routed route
    | none => .fallback

def bareRoute (ctx : RenderCtx) (route : Str) : Bool :=
  "crate::".toList.isPrefixOf route && ctx.localNames.contains (leaf route) &&
    sameModuleAsCurrent route ctx

/-- The test for a path without a route that is kept bare. -/
def barePath (ctx : RenderCtx) (path : Str) : Bool :=
  ctx.localNames.contains (leaf (stripCrate path))

/-- What the resolver goes by: it knows no replacements. -/
def resolverChoice (ctx : RenderCtx) (r : Reference) : Choice :=
  match ctx.exports.resolve ctx.lib r.id with
  | some route => ⟨.routed route, bareRoute ctx route⟩
  | none => ⟨.fallback, barePath ctx r.path⟩

/-- What the code goes by, for a reference that is a whole type or stands inside of one. -/
def choice (ctx : RenderCtx) (whole : Bool) (r : Reference) : Choice :=
  if whole then
    match trySpecReplacement r.path ctx with
    | some base => ⟨.replaced base, false⟩
    | none => resolverChoice ctx r
  else resolverChoice ctx r

/-- The references whose text the code writes for a type, each with whether it is the whole type. A
replacement by nothing or by `()` is written without arguments. -/
def occurrences (ctx : RenderCtx) : WireType → List (Bool × Reference)
  | .resolvedPath (.mk path id args) =>
    let inside := (optArgsReferences args).map fun r => (false, r)
    (true, ⟨path, id⟩) ::
      match trySpecReplacement path ctx with
      | some base => if base = [] ∨ base = unitBase then [] else inside
      | none => inside
  | t => (typeReferences t).map fun r => (false, r)

def variantTypes (v : DocVariant WireType) : List WireType :=
  match v.kind with
  | .unit => []
  | .tuple fields => fields.map DocField.ty
  | .struct fields => fields.map DocField.ty

/-- The types that the code writes for a definition. -/
def emittedTypes (ty : EmitType) : List WireType :=
  ((ty.generics.filter fun p => !p.isLifetime && !p.isConst).filterMap
      DocGenericParam.defaultType) ++
    match ty.kind with
    | .struct fields _ => fields.map DocField.ty
    | .enum variants => variants.flatMap variantTypes
    | .union fields => fields.map DocField.ty
    | .typeAlias rhs => [rhs]
    | .constant _ _ => []

/-- The text of a type, put together from what is chosen for its references. -/
def written (ctx : RenderCtx) (t : WireType) : Str :=
  let inside := fun path id => (choice ctx false ⟨path, id⟩).text path
  match t with
  | .resolvedPath (.mk path id args) =>
    let c := choice ctx true ⟨path, id⟩
    if c.rule = .replaced [] ∨ c.rule = .replaced unitBase then c.text path
    else c.text path ++ writeOptArgs inside args
  | t => writeType inside t

/-! ## The documented routing -/

/-- The types of a file that are not left out of it. -/
def emitted (spec : LoaderSpec) (types : List EmitType) : List EmitType :=
  types.filter fun ty => !isIgnored spec ty

def LeadsTo (r : Reference) (rule : Rule) (e : EmitType) : Prop :=
  match rule with
  | .replaced _ => False
  | .routed route => route = mirrorPath e
  | .fallback => r.path = e.name.toList ∨ fallbackTarget r.path = mirrorPath e

/-- A type of a file is written with its references routed. -/
structure Routed (spec : LoaderSpec) (exports : ExportTable) (types : List EmitType)
    (ty : EmitType) : Prop where
  rule : ∀ t ∈ emittedTypes ty, ∀ o ∈ occurrences (renderCtx types spec exports) t,
    (choice (renderCtx types spec exports) o.1 o.2).rule =
      documented (renderCtx types spec exports) ty.lib o.2
  bare : ∀ t ∈ emittedTypes ty, ∀ o ∈ occurrences (renderCtx types spec exports) t,
    (choice (renderCtx types spec exports) o.1 o.2).bare = true →
      ∃ e ∈ emitted spec types, LeadsTo o.2 (choice (renderCtx types spec exports) o.1 o.2).rule e
  text : ∀ t ∈ emittedTypes ty,
    renderType t (renderCtx types spec exports) = written (renderCtx types spec exports) t
  ownLibrary : renderDocType ty (renderCtx types spec exports) (extraDerives spec ty)
      (ignoredTraits spec) =
    renderDocType ty { renderCtx types spec exports with lib := ty.lib } (extraDerives spec ty)
      (ignoredTraits spec)

/-- A reference in a type of a file, in a context that was made for another library, is routed. -/
structure Safe (ctx : RenderCtx) (types : List EmitType) (lib : String) (whole : Bool)
    (r : Reference) : Prop where
  inside : whole = false → trySpecReplacement r.path ctx = none
  library : trySpecReplacement r.path ctx = none →
    ctx.exports.resolve ctx.lib r.id = ctx.exports.resolve lib r.id
  route : trySpecReplacement r.path ctx = none → ∀ route,
    ctx.exports.resolve lib r.id = some route → bareRoute ctx route = true →
      ∃ e ∈ types, route = mirrorPath e
  path : trySpecReplacement r.path ctx = none → ctx.exports.resolve lib r.id = none →
    barePath ctx r.path = true →
      ∃ e ∈ types, r.path = e.name.toList ∨ fallbackTarget r.path = mirrorPath e

section
variable {ctx : RenderCtx} {types : List EmitType} {lib : String} {whole : Bool} {r : Reference}

theorem resolve_eq (ctx : RenderCtx) (path : Str) (id : UInt32) :
    resolve ctx path id = (resolverChoice ctx ⟨path, id⟩).text path := by
  rw [resolve, resolverChoice]
  cases ctx.exports.resolve ctx.lib id with
  | none => rfl
  | some route =>
    by_cases hcrate : "crate::".toList.isPrefixOf route = true
    · simp only [hcrate, Choice.text, bareRoute, Bool.true_and, if_true]
    · simp only [hcrate, Choice.text, bareRoute, Bool.false_and, Bool.false_eq_true, if_false]

theorem choice_of_none (h : trySpecReplacement r.path ctx = none) :
    choice ctx whole r = resolverChoice ctx r := by
  simp only [choice, h, ite_self]

theorem choice_of_some {base : Str} (h : trySpecReplacement r.path ctx = some base) :
    choice ctx true r = ⟨.replaced base, false⟩ := by
  simp only [choice, h, if_true]

theorem resolverChoice_rule_ne (ctx : RenderCtx) (r : Reference) (base : Str) :
    (resolverChoice ctx r).rule ≠ .replaced base := by
  rw [resolverChoice]
  cases ctx.exports.resolve ctx.lib r.id with
  | none => exact Rule.noConfusion
  | some route => exact Rule.noConfusion

theorem renderType_eq_written (ctx : RenderCtx) (t : WireType) :
    renderType t ctx = written ctx t := by
  have hres : resolve ctx = fun path id => (choice ctx false ⟨path, id⟩).text path :=
    funext fun path => funext fun id => resolve_eq ctx path id
  cases t with
  | resolvedPath p =>
    obtain ⟨path, id, args⟩ := p
    rw [renderType, written, hres]
    cases h : trySpecReplacement path ctx with
    | none =>
      rw [choice_of_none (r := ⟨path, id⟩) h]
      simp only [resolverChoice_rule_ne, or_self, if_false, render, writeType, writePath]
      rfl
    | some base =>
      rw [choice_of_some (r := ⟨path, id⟩) h]
      simp only [Choice.text, Rule.replaced.injEq]
      by_cases hnil : base = []
      · simp only [hnil, if_true, true_or]
      · by_cases hunit : base = unitBase
        · rw [if_neg hnil, if_pos hunit, if_pos (Or.inr hunit), hunit]
        · rw [if_neg hnil, if_neg hunit, if_neg (not_or.mpr ⟨hnil, hunit⟩)]
          cases args <;> rfl
  | _ => simp only [renderType, written, hres, render]

theorem safe_iff : Safe ctx types lib whole r ↔
    (choice ctx whole r).rule = documented ctx lib r ∧
      ((choice ctx whole r).bare = true → ∃ e ∈ types, LeadsTo r (choice ctx whole r).rule e) := by
  cases h : trySpecReplacement r.path ctx with
  | some base =>
    have hdoc : documented ctx lib r = .replaced base := by rw [documented, h]
    have hnone : trySpecReplacement r.path ctx ≠ none := by simp [h]
    cases whole with
    | true =>
      rw [choice_of_some h, hdoc]
      simp only [Bool.false_eq_true, false_implies, and_true, iff_true]
      exact ⟨fun hw => absurd hw (by decide), fun hn => absurd hn hnone,
        fun hn => absurd hn hnone, fun hn => absurd hn hnone⟩
    | false =>
      constructor
      · intro hs
        exact absurd (hs.inside rfl) hnone
      · intro hs
        exact absurd (hs.1.trans hdoc) (resolverChoice_rule_ne ctx r base)
  | none =>
    rw [choice_of_none h]
    constructor
    · intro hs
      rw [documented, h, resolverChoice, hs.library h]
      cases hroute : ctx.exports.resolve lib r.id with
      | some route => exact ⟨rfl, hs.route h route hroute⟩
      | none => exact ⟨rfl, hs.path h hroute⟩
    · rintro ⟨hrule, hbare⟩
      have hlib : ctx.exports.resolve ctx.lib r.id = ctx.exports.resolve lib r.id := by
        rw [documented, h, resolverChoice] at hrule
        cases hroute : ctx.exports.resolve lib r.id <;>
          cases hroute' : ctx.exports.resolve ctx.lib r.id <;> simp_all
      rw [resolverChoice, hlib] at hbare
      refine ⟨fun _ => h, fun _ => hlib, ?_, ?_⟩
      · intro _ route hroute
        rw [hroute] at hbare
        exact hbare
      · intro _ hroute
        rw [hroute] at hbare
        exact hbare

/-! ### With the library of the type itself -/

theorem resolve_of_library {id : UInt32}
    (h : ctx.exports.resolve ctx.lib id = ctx.exports.resolve lib id) (path : Str) :
    resolve ctx path id = resolve { ctx with lib := lib } path id := by
  simp only [resolve, h]
  rfl

theorem sameAnswers_of_safe {refs : List Reference}
    (h : ∀ r ∈ refs, Safe ctx types lib false r) :
    SameAnswers (resolve ctx) (resolve { ctx with lib := lib }) refs :=
  fun r hr => resolve_of_library ((h r hr).library ((h r hr).inside rfl)) r.path

theorem inside_of_occurrences {refs : List Reference}
    (h : ∀ o ∈ refs.map fun r => (false, r), Safe ctx types lib o.1 o.2) :
    ∀ r ∈ refs, Safe ctx types lib false r :=
  fun r hr => h (false, r) (List.mem_map_of_mem hr)

theorem renderType_of_safe {t : WireType}
    (h : ∀ o ∈ occurrences ctx t, Safe ctx types lib o.1 o.2) :
    renderType t ctx = renderType t { ctx with lib := lib } := by
  cases t with
  | resolvedPath p =>
    obtain ⟨path, id, args⟩ := p
    have hspec :
        trySpecReplacement path { ctx with lib := lib } = trySpecReplacement path ctx := rfl
    rw [renderType, renderType, hspec]
    rw [occurrences, List.forall_mem_cons] at h
    obtain ⟨hwhole, hargs⟩ := h
    cases hbase : trySpecReplacement path ctx with
    | none =>
      rw [hbase] at hargs
      have hres := resolve_of_library (hwhole.library hbase) path
      have hrest := writeOptArgs_congr args (sameAnswers_of_safe (inside_of_occurrences hargs))
      simp only [render, writeType, writePath, hres, hrest]
    | some base =>
      rw [hbase] at hargs
      by_cases hnil : base = []
      · simp only [hnil, if_true]
      · by_cases hunit : base = unitBase
        · simp only [hunit, if_true]
        · simp only [hnil, hunit, or_self, if_false] at hargs ⊢
          cases args with
          | none => rfl
          | some args =>
            have hrest := writeOptArgs_congr (some args)
              (sameAnswers_of_safe (inside_of_occurrences hargs))
            exact congrArg (base ++ ·) hrest
  | _ => exact writeType_congr _ (sameAnswers_of_safe (inside_of_occurrences h))

theorem renderGenericParam_congr {ctx' : RenderCtx} {p : DocGenericParam WireType}
    {traits : List Str}
    (h : p.isLifetime = false → p.isConst = false → ∀ t, p.defaultType = some t →
      renderType t ctx = renderType t ctx') :
    renderGenericParam p traits ctx = renderGenericParam p traits ctx' := by
  cases hlt : p.isLifetime with
  | true => simp only [renderGenericParam, hlt, if_true]
  | false =>
    cases hconst : p.isConst with
    | true => simp only [renderGenericParam, hlt, hconst, Bool.false_eq_true, if_false, if_true]
    | false =>
      cases hdefault : p.defaultType with
      | none =>
        simp only [renderGenericParam, hlt, hconst, hdefault]
        cases p.defaultValue <;> rfl
      | some t =>
        simp only [renderGenericParam, hlt, hconst, hdefault, h hlt hconst t hdefault]

theorem renderFields_congr {ctx' : RenderCtx} {fields : List (DocField WireType)}
    (h : ∀ t ∈ fields.map DocField.ty, renderType t ctx = renderType t ctx') :
    renderFields fields ctx = renderFields fields ctx' := by
  have hfield : ∀ f ∈ fields, renderField f ctx = renderField f ctx' := fun f hf =>
    congrArg (f.name.toList ++ ": ".toList ++ ·) (h f.ty (List.mem_map_of_mem hf))
  simp only [renderFields]
  exact congrArg List.flatten (List.map_congr_left fun f hf => by rw [hfield f hf])

theorem renderVariant_congr {ctx' : RenderCtx} {v : DocVariant WireType}
    (h : ∀ t ∈ variantTypes v, renderType t ctx = renderType t ctx') :
    renderVariant v ctx = renderVariant v ctx' := by
  obtain ⟨name, kind, disc⟩ := v
  cases kind with
  | unit => rfl
  | tuple fields =>
    have hfields : fields.map (fun f => renderType f.ty ctx) =
        fields.map fun f => renderType f.ty ctx' :=
      List.map_congr_left fun f hf => h f.ty (List.mem_map_of_mem hf)
    simp only [renderVariant, hfields]
  | struct fields =>
    have hfields : ∀ f ∈ fields, renderField f ctx = renderField f ctx' := fun f hf =>
      congrArg (f.name.toList ++ ": ".toList ++ ·) (h f.ty (List.mem_map_of_mem hf))
    have hlines : fields.map (fun f => "        ".toList ++ renderField f ctx ++ ",\n".toList) =
        fields.map fun f => "        ".toList ++ renderField f ctx' ++ ",\n".toList :=
      List.map_congr_left fun f hf => by rw [hfields f hf]
    simp only [renderVariant, hlines]

theorem renderDocType_congr {ctx' : RenderCtx} {ty : EmitType} {derives traits : List Str}
    (h : ∀ t ∈ emittedTypes ty, renderType t ctx = renderType t ctx') :
    renderDocType ty ctx derives traits = renderDocType ty ctx' derives traits := by
  have hgenerics :
      renderGenerics ty.generics traits ctx = renderGenerics ty.generics traits ctx' := by
    have hparams : ty.generics.map (fun p => renderGenericParam p traits ctx) =
        ty.generics.map fun p => renderGenericParam p traits ctx' :=
      List.map_congr_left fun p hp => renderGenericParam_congr fun hlt hconst t ht =>
        h t (List.mem_append_left _ (List.mem_filterMap.mpr
          ⟨p, List.mem_filter.mpr ⟨hp, by simp [hlt, hconst]⟩, ht⟩))
    simp only [renderGenerics, hparams]
  have hkind := fun t ht => h t (List.mem_append_right _ ht)
  simp only [renderDocType, renderDefinition, hgenerics]
  cases hk : ty.kind with
  | struct fields tuple =>
    rw [hk] at hkind
    cases tuple with
    | true =>
      have hfields : fields.map (fun f => fieldVis f.visibility ++ renderType f.ty ctx) =
          fields.map fun f => fieldVis f.visibility ++ renderType f.ty ctx' :=
        List.map_congr_left fun f hf => by rw [hkind f.ty (List.mem_map_of_mem hf)]
      simp only [hfields]
    | false => simp only [renderFields_congr hkind]
  | enum variants =>
    rw [hk] at hkind
    have hvariants : variants.map (fun v => renderVariant v ctx) =
        variants.map fun v => renderVariant v ctx' :=
      List.map_congr_left fun v hv => renderVariant_congr fun t ht =>
        hkind t (List.mem_flatMap.mpr ⟨v, hv, ht⟩)
    simp only [hvariants]
  | union fields =>
    rw [hk] at hkind
    simp only [renderFields_congr hkind]
  | typeAlias rhs =>
    rw [hk] at hkind
    simp only [hkind rhs (List.mem_singleton_self rhs)]
  | constant constTy value => rfl

end

/-! ## All files of a table -/

section
variable (toLowercase : Str → Str) (table : TypeTable) (spec : LoaderSpec) (exports : ExportTable)

/-- Every type that is written is routed in its file. -/
def TableRouted : Prop :=
  ∀ file, ∀ ty ∈ fileTypes toLowercase table file, isIgnored spec ty = false →
    Routed spec exports (fileTypes toLowercase table file) ty

/-- No reference inside of a type is to be replaced, the library of the first type of a file has the
same routes as that of every other type for what that one refers to, and what is kept bare by its
leaf leads to a type that is written to the file. -/
def TableSafe : Prop :=
  ∀ file, ∀ ty ∈ fileTypes toLowercase table file, isIgnored spec ty = false →
    ∀ t ∈ emittedTypes ty,
      ∀ o ∈ occurrences (renderCtx (fileTypes toLowercase table file) spec exports) t,
        Safe (renderCtx (fileTypes toLowercase table file) spec exports)
          (emitted spec (fileTypes toLowercase table file)) ty.lib o.1 o.2

theorem routed_iff :
    TableRouted toLowercase table spec exports ↔ TableSafe toLowercase table spec exports := by
  constructor
  · intro h file ty hty hignored t ht o ho
    have hrouted := h file ty hty hignored
    exact safe_iff.mpr ⟨hrouted.rule t ht o ho, hrouted.bare t ht o ho⟩
  · intro h file ty hty hignored
    have hsafe := h file ty hty hignored
    refine ⟨?_, ?_, ?_, ?_⟩
    · intro t ht o ho
      exact (safe_iff.mp (hsafe t ht o ho)).1
    · intro t ht o ho
      exact (safe_iff.mp (hsafe t ht o ho)).2
    · intro t _
      exact renderType_eq_written _ t
    · exact renderDocType_congr fun t ht => renderType_of_safe (hsafe t ht)

end

/-! ### A replacement inside of a type -/

/-- A struct with a field whose type has an argument that the spec replaces. -/
def replacedInside : EmitType where
  id := 0
  itemId := 1
  lib := "alloc"
  name := "Holder"
  modulePath := "raw"
  kind := .struct [⟨"inner", .isPublic, .resolvedPath (.mk "Box".toList 2 (some (.angleBracketed
    [.type (.resolvedPath (.mk "crate::alloc::Global".toList 3 none))] [])))⟩] false
  generics := []
  wherePredicates := []
  attrs := ⟨[], [], []⟩

def replacingSpec : LoaderSpec :=
  ⟨[⟨"alloc", [⟨"alloc::alloc::Global".toList, some unitBase⟩], [], fun _ => none, []⟩]⟩

theorem replacement_inside_is_missed :
    ¬ TableRouted id [replacedInside] replacingSpec [] := by
  intro h
  have hmem : replacedInside ∈ fileTypes id [replacedInside] "raw".toList :=
    List.mem_filter.mpr ⟨List.mem_singleton_self _, by decide⟩
  have hrouted := h "raw".toList replacedInside hmem (by decide)
  have hrule := hrouted.rule _ List.mem_cons_self
    (false, ⟨"crate::alloc::Global".toList, 3⟩) (by decide)
  revert hrule
  decide

end Rustyfill.DocJson.Emit
