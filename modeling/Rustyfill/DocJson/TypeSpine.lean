import Rustyfill.DocJson.TypeMeaning
import Rustyfill.Lib.Lists

/-!
# The types that are paths

A type that is written as a path is taken apart into what stands in front and the segments behind
it, also where an associated item is named of another one. How the texts of types begin.
-/

namespace Rustyfill.DocJson.TypeRepr

open TypeSyntax Reading

set_option autoImplicit false

/-! ## Lists -/

section
variable (res : Resolver)

theorem writeTypes_eq (resolve : Str → UInt32 → Str) (ts : List WireType) :
    writeTypes resolve ts = ts.map (writeType resolve) :=
  ListRec.eq_map (by rw [writeTypes]) (fun t ts => by rw [writeTypes]) ts

theorem writePolyTraits_eq (resolve : Str → UInt32 → Str) (ts : List PolyTrait) :
    writePolyTraits resolve ts = ts.map (writePolyTrait resolve) :=
  ListRec.eq_map (by rw [writePolyTraits]) (fun t ts => by rw [writePolyTraits]) ts

theorem writeArgs_eq (resolve : Str → UInt32 → Str) (args : List GenericArg) :
    writeArgs resolve args = args.map (writeArg resolve) :=
  ListRec.eq_map (by rw [writeArgs]) (fun a args => by rw [writeArgs]) args

theorem writeConstraints_eq (resolve : Str → UInt32 → Str) (cs : List AssocItemConstraint) :
    writeConstraints resolve cs = cs.map (writeConstraint resolve) :=
  ListRec.eq_map (by rw [writeConstraints]) (fun c cs => by rw [writeConstraints]) cs

theorem writeBounds_eq (resolve : Str → UInt32 → Str) (bounds : List GenericBound) :
    writeBounds resolve bounds = bounds.map (writeBound resolve) :=
  ListRec.eq_map (by rw [writeBounds]) (fun b bounds => by rw [writeBounds]) bounds

theorem tysOf_eq (ts : List WireType) : tysOf res ts = ts.map (tyOf res) :=
  ListRec.eq_map (by rw [tysOf]) (fun t ts => by rw [tysOf]) ts

theorem polyTraitsOf_eq (ts : List PolyTrait) : polyTraitsOf res ts = ts.map (polyTraitOf res) :=
  ListRec.eq_map (by rw [polyTraitsOf]) (fun t ts => by rw [polyTraitsOf]) ts

theorem argListOf_eq (args : List GenericArg) : argListOf res args = args.map (argOf res) :=
  ListRec.eq_map (by rw [argListOf]) (fun a args => by rw [argListOf]) args

theorem constraintsOf_eq (cs : List AssocItemConstraint) :
    constraintsOf res cs = cs.map (constraintOf res) :=
  ListRec.eq_map (by rw [constraintsOf]) (fun c cs => by rw [constraintsOf]) cs

theorem boundsOf_eq (bounds : List GenericBound) : boundsOf res bounds = bounds.map (boundOf res) :=
  ListRec.eq_map (by rw [boundsOf]) (fun b bounds => by rw [boundsOf]) bounds

end

theorem faithfulTypes_eq (ts : List WireType) : faithfulTypes ts = ts.all (faithful true) :=
  ListRec.eq_all (by rw [faithfulTypes]) (fun t ts => by rw [faithfulTypes]) ts

theorem faithfulPolyTraits_eq (ts : List PolyTrait) :
    faithfulPolyTraits ts = ts.all faithfulPolyTrait :=
  ListRec.eq_all (by rw [faithfulPolyTraits]) (fun t ts => by rw [faithfulPolyTraits]) ts

theorem faithfulArgList_eq (args : List GenericArg) : faithfulArgList args = args.all faithfulArg :=
  ListRec.eq_all (by rw [faithfulArgList]) (fun a args => by rw [faithfulArgList]) args

theorem faithfulConstraints_eq (cs : List AssocItemConstraint) :
    faithfulConstraints cs = cs.all faithfulConstraint :=
  ListRec.eq_all (by rw [faithfulConstraints]) (fun c cs => by rw [faithfulConstraints]) cs

theorem faithfulBounds_eq (bounds : List GenericBound) :
    faithfulBounds bounds = bounds.all faithfulBound :=
  ListRec.eq_all (by rw [faithfulBounds]) (fun b bounds => by rw [faithfulBounds]) bounds

/-! ## Paths -/

/-- What stands in front of the segments of a path. -/
inductive Front where
  | plain (root : Bool)
  | qualified (selfType : WireType) (trait : Path)

def Front.isFaithful : Front → Bool
  | .plain _ => true
  | .qualified selfType trait => faithful true selfType && faithfulPath trait

/-- A name of a path, with its arguments. -/
abbrev Seg := Ident × Option GenericArgs

section
variable (res : Resolver)

def segText (seg : Seg) : Str := seg.1.text ++ writeOptArgs res.resolve seg.2

def segOf (seg : Seg) : Segment := .mk seg.1 (optArgsOf res seg.2)

def Path.root : Path → Bool
  | .mk path id _ => (res path id).root

def Path.segs : Path → List Seg
  | .mk path id args =>
    (res path id).init.map (fun n => (n, none)) ++ [((res path id).last, args)]

def Front.text : Front → Str
  | .plain root => rootText root
  | .qualified selfType trait =>
    ['<'] ++ writeType res.resolve selfType ++ " as ".toList ++ writePath res.resolve trait ++
      ">::".toList

def Front.meaning (segments : List Segment) : Front → Ty
  | .plain root => .path (.mk root segments)
  | .qualified selfType trait => .qualified (tyOf res selfType) (some (pathOf res trait)) segments

theorem Path.segs_ne_nil (p : Path) : p.segs res ≠ [] := by
  cases p
  exact List.append_ne_nil_of_right_ne_nil _ (List.cons_ne_nil _ _)

theorem writePath_eq (p : Path) : writePath res.resolve p =
    rootText (p.root res) ++ join "::" ((p.segs res).map (segText res)) := by
  obtain ⟨path, id, args⟩ := p
  have hinit : ((res path id).init.map fun n => ((n, none) : Seg)).map (segText res) =
      (res path id).init.map Ident.text := by
    rw [List.map_map]
    exact List.map_congr_left fun n _ => List.append_nil n.text
  rw [writePath, Resolver.resolve, SimplePath.text, List.append_assoc, join, Path.segs,
    List.map_append, List.map_append, hinit]
  exact congrArg (rootText _ ++ ·) (Text.intercalate_append_last _ _ _).symm

theorem pathOf_eq (p : Path) :
    pathOf res p = .mk (p.root res) ((p.segs res).map (segOf res)) := by
  obtain ⟨path, id, args⟩ := p
  have hinit : ((res path id).init.map fun n => ((n, none) : Seg)).map (segOf res) =
      (res path id).init.map fun n => Segment.mk n none := by
    rw [List.map_map]
    refine List.map_congr_left fun n _ => ?_
    rw [Function.comp_apply, segOf, optArgsOf]
  rw [pathOf, Path.segs, List.map_append, hinit]
  rfl

theorem faithfulPath_iff (p : Path) :
    faithfulPath p = true ↔ ∀ seg ∈ p.segs res, faithfulOptArgs seg.2 = true := by
  obtain ⟨path, id, args⟩ := p
  rw [faithfulPath, Path.segs]
  constructor
  · intro h seg hseg
    rcases List.mem_append.mp hseg with hseg | hseg
    · obtain ⟨n, -, rfl⟩ := List.mem_map.mp hseg
      rw [faithfulOptArgs]
    · obtain rfl := List.mem_singleton.mp hseg
      exact h
  · intro h
    exact h _ (List.mem_append_right _ (List.mem_singleton_self _))

/-- A type is written as segments behind a front. -/
structure IsSpine (t : WireType) (front : Front) (segs : List Seg) : Prop where
  text : writeType res.resolve t = front.text res ++ join "::" (segs.map (segText res))
  meaning : tyOf res t = front.meaning res (segs.map (segOf res))
  isFaithful : ∀ plus, faithful plus t = true ↔
    front.isFaithful = true ∧ ∀ seg ∈ segs, faithfulOptArgs seg.2 = true
  ne_nil : segs ≠ []

theorem isSpine_named (n : Ident) {t : WireType} (htext : writeType res.resolve t = n.text)
    (hty : tyOf res t = named n) (hfaithful : ∀ plus, faithful plus t = true) :
    IsSpine res t (.plain false) [(n, none)] where
  text := by
    rw [htext, List.map_singleton, join, List.intercalate_singleton, segText, writeOptArgs,
      List.append_nil]
    rfl
  meaning := by
    rw [hty, List.map_singleton, segOf, optArgsOf]
    rfl
  isFaithful plus := by
    rw [hfaithful]
    simp [Front.isFaithful, faithfulOptArgs]
  ne_nil := List.cons_ne_nil _ _

theorem IsSpine.extend {t : WireType} {front : Front} {segs : List Seg}
    (h : IsSpine res t front segs) (hpath : isPathLike t = true) (name : Ident)
    (args : Option GenericArgs) :
    IsSpine res (.qualifiedPath name args t none) front (segs ++ [(name, args)]) where
  text := by
    have hne : segs.map (segText res) ≠ [] := mt List.map_eq_nil_iff.mp h.ne_nil
    rw [writeType, h.text, List.map_append, List.map_singleton, join, join,
      Text.intercalate_concat hne, segText]
    simp only [List.append_assoc]
  meaning := by
    rw [tyOf, h.meaning, List.map_append, List.map_singleton, segOf]
    cases front <;> rfl
  isFaithful plus := by
    rw [faithful, hpath, Bool.true_and, Bool.and_eq_true, h.isFaithful, and_assoc,
      List.forall_mem_append, List.forall_mem_singleton]
  ne_nil := List.append_ne_nil_of_right_ne_nil _ (List.cons_ne_nil _ _)

theorem exists_spine : (t : WireType) → isPathLike t = true → ∃ front segs, IsSpine res t front segs
  | .resolvedPath p, _ => by
    refine ⟨.plain (p.root res), p.segs res, ?_, ?_, ?_, p.segs_ne_nil res⟩
    · rw [writeType, writePath_eq]
      rfl
    · rw [tyOf, pathOf_eq]
      rfl
    · intro plus
      rw [faithful, faithfulPath_iff res]
      exact ⟨fun h => ⟨rfl, h⟩, And.right⟩
  | .generic n, _ => by
    refine ⟨_, _, isSpine_named res n ?_ ?_ ?_⟩
    · rw [writeType]
    · rw [tyOf]
    · intro plus
      rw [faithful]
  | .primitive n, h => by
    rw [isPathLike, bne_iff_ne] at h
    refine ⟨_, _, isSpine_named res n ?_ ?_ ?_⟩
    · rw [writeType]
    · rw [tyOf, if_neg h]
    · intro plus
      rw [faithful, bne_iff_ne]
      exact h
  | .qualifiedPath name args selfType (some trait), _ => by
    refine ⟨.qualified selfType trait, [(name, args)], ?_, ?_, ?_, List.cons_ne_nil _ _⟩
    · rw [writeType, List.map_singleton, join, List.intercalate_singleton, segText, Front.text]
      simp only [List.append_assoc]
    · rw [tyOf, List.map_singleton, segOf]
      rfl
    · intro plus
      rw [faithful, Bool.and_eq_true, List.forall_mem_singleton]
      rfl
  | .qualifiedPath name args selfType none, h => by
    obtain ⟨front, segs, hspine⟩ := exists_spine selfType h
    exact ⟨front, _, hspine.extend res h name args⟩

end

/-! ## How texts begin -/

section
variable (res : Resolver)

theorem endsWord_optArgs (args : Option GenericArgs) {s : Str} (hs : endsWord s = true) :
    endsWord (writeOptArgs res.resolve args ++ s) = true := by
  cases args with
  | none =>
    rw [writeOptArgs]
    exact hs
  | some args =>
    rw [writeOptArgs]
    cases args <;> rw [writeGenericArgs] <;> rfl

theorem exists_join {segs : List Seg} (hne : segs ≠ []) : ∃ (n : Ident) (s : Str),
    join "::" (segs.map (segText res)) = n.text ++ s ∧ ∀ rest, endsWord rest = true →
      endsWord (s ++ rest) = true := by
  cases segs with
  | nil => exact absurd rfl hne
  | cons seg segs =>
    cases segs with
    | nil =>
      refine ⟨seg.1, writeOptArgs res.resolve seg.2, ?_, fun rest hrest => ?_⟩
      · rw [List.map_singleton, join, List.intercalate_singleton, segText]
      · exact endsWord_optArgs res seg.2 hrest
    | cons seg' segs =>
      refine ⟨seg.1, writeOptArgs res.resolve seg.2 ++ ("::".toList ++
        join "::" ((seg' :: segs).map (segText res))), ?_, fun rest _ => ?_⟩
      · rw [List.map_cons, List.map_cons, join, List.intercalate_cons_cons, List.append_assoc,
          segText]
        exact List.append_assoc _ _ _
      · rw [List.append_assoc]
        exact endsWord_optArgs res seg.2 rfl

theorem opens_join {segs : List Seg} (hne : segs ≠ []) :
    Opens (join "::" (segs.map (segText res))) := by
  obtain ⟨n, s, hjoin, hs⟩ := exists_join res hne
  have hends := hs [] rfl
  rw [List.append_nil] at hends
  rw [hjoin]
  exact .word n.text s n.opensWord hends

theorem opens_path {segs : List Seg} (hne : segs ≠ []) (root : Bool) :
    Opens (rootText root ++ join "::" (segs.map (segText res))) := by
  cases root with
  | true => exact .sign ':' _ rfl
  | false => exact opens_join res hne

theorem opens_writePath (p : Path) : Opens (writePath res.resolve p) := by
  rw [writePath_eq]
  exact opens_path res (p.segs_ne_nil res) _

theorem opens_writeAbi (abi : Abi) (s : Str) : Opens (writeAbi abi ++ "fn(".toList ++ s) := by
  cases abi with
  | rust => exact .word ['f', 'n'] ('(' :: s) rfl rfl
  | _ => exact .word ['e', 'x', 't', 'e', 'r', 'n'] _ rfl rfl

theorem opens_writeType : (t : WireType) → Opens (writeType res.resolve t)
  | .resolvedPath p => by
    rw [writeType]
    exact opens_writePath res p
  | .dynTrait traits lifetime => by
    rw [writeType]
    exact .word ['d', 'y', 'n'] _ rfl rfl
  | .generic n => by
    rw [writeType, ← List.append_nil n.text]
    exact .word n.text [] n.opensWord rfl
  | .primitive n => by
    rw [writeType, ← List.append_nil n.text]
    exact .word n.text [] n.opensWord rfl
  | .functionPointer _ header inputs isCVariadic output => by
    rw [writeType, List.append_assoc, List.append_assoc]
    exact opens_writeAbi header.abi _
  | .tuple elems => by
    rw [writeType]
    exact .sign '(' _ rfl
  | .slice elem => by
    rw [writeType]
    exact .sign '[' _ rfl
  | .array type len => by
    rw [writeType]
    exact .sign '[' _ rfl
  | .implTrait bounds => by
    rw [writeType]
    exact .word ['i', 'm', 'p', 'l'] _ rfl rfl
  | .rawPointer isMutable type => by
    rw [writeType]
    exact .sign '*' _ rfl
  | .borrowedRef lifetime isMutable type => by
    rw [writeType]
    exact .sign '&' _ rfl
  | .qualifiedPath name args selfType (some trait) => by
    rw [writeType]
    exact .sign '<' _ rfl
  | .qualifiedPath name args selfType none => by
    rw [writeType, List.append_assoc, List.append_assoc]
    exact (opens_writeType selfType).append rfl

/-- A type that is not written as a path does not begin like a qualified one. -/
theorem head_of_not_isPathLike : (t : WireType) → isPathLike t = false →
    ∀ rest, (writeType res.resolve t ++ rest).head? ≠ some '<'
  | .dynTrait traits lifetime, _, rest => by
    rw [writeType]
    exact fun h => by cases h
  | .primitive n, _, rest => by
    obtain ⟨c, w, hn, hc, -⟩ := exists_cons_of_isWord n.isWord
    rw [writeType, hn]
    rintro heq
    obtain rfl := Option.some.inj heq
    cases hc
  | .functionPointer _ header inputs isCVariadic output, _, rest => by
    rw [writeType]
    cases header.abi <;> exact fun h => by cases h
  | .tuple elems, _, rest => by
    rw [writeType]
    exact fun h => by cases h
  | .slice elem, _, rest => by
    rw [writeType]
    exact fun h => by cases h
  | .array type len, _, rest => by
    rw [writeType]
    exact fun h => by cases h
  | .implTrait bounds, _, rest => by
    rw [writeType]
    exact fun h => by cases h
  | .rawPointer isMutable type, _, rest => by
    rw [writeType]
    exact fun h => by cases h
  | .borrowedRef lifetime isMutable type, _, rest => by
    rw [writeType]
    exact fun h => by cases h
  | .qualifiedPath name args selfType none, h, rest => by
    rw [writeType, List.append_assoc, List.append_assoc, List.append_assoc]
    exact head_of_not_isPathLike selfType h _

/-- Its meaning is no path either, so what is behind it makes it a qualified one. -/
theorem extend_of_not_isPathLike : (t : WireType) → isPathLike t = false → ∀ item,
    ∃ self rest, extend item (tyOf res t) = .qualified self none rest
  | .dynTrait traits lifetime, _, item => by
    rw [tyOf]
    exact ⟨_, _, rfl⟩
  | .primitive n, h, item => by
    rw [isPathLike, bne_eq_false_iff_eq] at h
    rw [tyOf, if_pos h]
    exact ⟨_, _, rfl⟩
  | .functionPointer genericParams header inputs isCVariadic output, _, item => by
    rw [tyOf]
    exact ⟨_, _, rfl⟩
  | .tuple elems, _, item => by
    rw [tyOf]
    exact ⟨_, _, rfl⟩
  | .slice elem, _, item => by
    rw [tyOf]
    exact ⟨_, _, rfl⟩
  | .array type len, _, item => by
    rw [tyOf]
    exact ⟨_, _, rfl⟩
  | .implTrait bounds, _, item => by
    rw [tyOf]
    exact ⟨_, _, rfl⟩
  | .rawPointer isMutable type, _, item => by
    rw [tyOf]
    exact ⟨_, _, rfl⟩
  | .borrowedRef lifetime isMutable type, _, item => by
    rw [tyOf]
    exact ⟨_, _, rfl⟩
  | .qualifiedPath name args selfType none, h, item => by
    obtain ⟨self, rest, hself⟩ :=
      extend_of_not_isPathLike selfType h (.mk name (optArgsOf res args))
    rw [tyOf, hself]
    exact ⟨_, _, rfl⟩

end

end Rustyfill.DocJson.TypeRepr
