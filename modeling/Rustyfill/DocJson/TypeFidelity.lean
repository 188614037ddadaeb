import Rustyfill.DocJson.TypeArgs

/-!
# The text of a type is read back

What the grammar reads off the text of a type is its meaning, for exactly the types that the writer
is faithful to. The induction is on the length of the text.
-/

namespace Rustyfill.DocJson.TypeRepr

open TypeSyntax Reading

set_option autoImplicit false

section
variable {res : Resolver} {rs : Readers} {n : Nat} {rest : Str}

/-! ## Paths -/

theorem path_head {segs : List Seg} (hne : segs ≠ []) (root : Bool) (hrest : endsWord rest = true) :
    ∃ c s, rootText root ++ join "::" (segs.map (segText res)) ++ rest = c :: s ∧
      isSpace c = false ∧ ['(', '[', '*', '&', '<', '!'].contains c = false ∧
      keywords.contains (word (c :: s)) = false := by
  cases root with
  | true => exact ⟨':', _, rfl, rfl, rfl, rfl⟩
  | false =>
    obtain ⟨name, s, hjoin, hends⟩ := exists_join res hne
    have htext : rootText false ++ join "::" (segs.map (segText res)) ++ rest =
        name.text ++ (s ++ rest) := by
      rw [hjoin]
      exact List.append_assoc name.text s rest
    have hword := word_append name.isWord (hends rest hrest)
    have hkeyword := Bool.not_eq_true' _ |>.mp (Bool.and_eq_true_iff.mp name.ok).2
    obtain ⟨c, w, hcons, hc, -⟩ := exists_cons_of_isWord name.isWord
    refine ⟨c, w ++ (s ++ rest), ?_, isSpace_of_isWordChar hc, ?_, ?_⟩
    · rw [htext, hcons]
      rfl
    · have hall : (['(', '[', '*', '&', '<', '!'].all fun d => !isWordChar d) = true := rfl
      refine Bool.eq_false_iff.mpr fun hcontains => ?_
      have hword := List.all_eq_true.mp hall c (List.contains_iff_mem.mp hcontains)
      rw [hc] at hword
      cases hword
    · rw [← List.cons_append, ← hcons, hword]
      exact hkeyword

theorem reads_plain (h : Sound res rs n) {segs : List Seg} (hne : segs ≠ []) {root : Bool}
    (hlen : (rootText root ++ join "::" (segs.map (segText res))).length ≤ n)
    (hrest : endsPath rest = true) (plus : Bool) :
    Reads (readType rs plus (rootText root ++ join "::" (segs.map (segText res)) ++ rest))
      (∀ seg ∈ segs, faithfulOptArgs seg.2 = true) (.path (.mk root (segs.map (segOf res))))
      rest := by
  have hends := endsWord_of_endsSegment (endsSegment_of_endsPath hrest)
  have hpath := reads_segs h hne hlen hrest
  obtain ⟨c, s, hcons, hspace, hsign, hkeyword⟩ := @path_head res rest segs hne root hends
  rw [hcons] at hpath ⊢
  rw [readType_words plus hspace hsign, readWords_path plus hkeyword]
  exact hpath.map fun _ _ => Ty.path.inj

theorem readAs_append {p : Path} {s : Str} (hs : endsWord s = true) :
    readAs rs (" as ".toList ++ (writePath res.resolve p ++ s)) =
      map some (readPath rs) (writePath res.resolve p ++ s) := by
  have hopens := (opens_writePath res p).append hs
  have hword : word (' ' :: (['a', 's'] ++ (' ' :: (writePath res.resolve p ++ s)))) =
      ['a', 's'] := word_append rfl rfl
  have hbehind : behindWord (' ' :: (['a', 's'] ++ (' ' :: (writePath res.resolve p ++ s)))) =
      ' ' :: (writePath res.resolve p ++ s) := behindWord_append rfl rfl
  have hskip : skip (behindWord (" as ".toList ++ (writePath res.resolve p ++ s))) =
      writePath res.resolve p ++ s := (congrArg skip hbehind).trans hopens.skip
  refine (if_pos hword).trans ?_
  rw [hskip]

theorem reads_qualified (h : Sound res rs n) {selfType : WireType} {trait : Path} {segs : List Seg}
    (hne : segs ≠ []) (hlen : ((Front.qualified selfType trait).text res ++
      join "::" (segs.map (segText res))).length ≤ n) (hrest : endsPath rest = true) (plus : Bool) :
    Reads (readType rs plus ((Front.qualified selfType trait).text res ++
        join "::" (segs.map (segText res)) ++ rest))
      ((Front.qualified selfType trait).isFaithful = true ∧
        ∀ seg ∈ segs, faithfulOptArgs seg.2 = true)
      ((Front.qualified selfType trait).meaning res (segs.map (segOf res))) rest := by
  have htext : (Front.qualified selfType trait).text res ++
      join "::" (segs.map (segText res)) ++ rest =
      '<' :: (writeType res.resolve selfType ++ (" as ".toList ++ (writePath res.resolve trait ++
        (">::".toList ++ (join "::" (segs.map (segText res)) ++ rest))))) := by
    simp only [Front.text, List.append_assoc]
    rfl
  simp only [Front.text, List.length_append, List.length_singleton] at hlen
  have hself := h.type selfType true (" as ".toList ++ (writePath res.resolve trait ++
    (">::".toList ++ (join "::" (segs.map (segText res)) ++ rest)))) (by omega) rfl
  have htrait : Reads (readAs rs (" as ".toList ++ (writePath res.resolve trait ++
      (">::".toList ++ (join "::" (segs.map (segText res)) ++ rest)))))
      (faithfulPath trait = true) (some (pathOf res trait))
      (">::".toList ++ (join "::" (segs.map (segText res)) ++ rest)) := by
    rw [readAs_append rfl]
    exact (reads_path h (by omega) rfl).map fun _ _ => Option.some.inj
  have hsegs := reads_segments h hne (by omega) hrest
  have hfront := (hself.pair htrait).before (t := ['>']) rfl
  have hwhole := hfront.pair (hsegs.after (t := [':', ':']) rfl)
  have hinj : Function.Injective fun p : (Ty × Option TypePath) × List Segment =>
      Ty.qualified p.1.1 p.1.2 p.2 := fun _ _ hpq =>
    Prod.ext (Prod.ext (Ty.qualified.inj hpq).1 (Ty.qualified.inj hpq).2.1)
      (Ty.qualified.inj hpq).2.2
  rw [htext]
  refine (hwhole.map hinj).congr ?_
  rw [Front.isFaithful, Bool.and_eq_true]

theorem reads_spine (h : Sound res rs n) {t : WireType} {front : Front} {segs : List Seg}
    (hspine : IsSpine res t front segs) (hlen : (writeType res.resolve t).length ≤ n)
    (hrest : endsPath rest = true) (plus : Bool) :
    Reads (readType rs plus (writeType res.resolve t ++ rest)) (faithful plus t = true)
      (tyOf res t) rest := by
  rw [hspine.text] at hlen ⊢
  rw [hspine.meaning]
  refine Reads.congr ?_ (hspine.isFaithful plus).symm
  cases front with
  | plain root =>
    refine (reads_plain h hspine.ne_nil hlen hrest plus).congr ?_
    exact ⟨fun hsegs => ⟨rfl, hsegs⟩, And.right⟩
  | qualified selfType trait => exact reads_qualified h hspine.ne_nil hlen hrest plus

/-! ## Bounds -/

def PolyTrait.bound : PolyTrait → GenericBound
  | .mk trait genericParams => .traitBound trait genericParams .none

def dynBounds (traits : List PolyTrait) (lifetime : Option Lifetime) : List GenericBound :=
  traits.map PolyTrait.bound ++ lifetime.toList.map .outlives

theorem writePolyTrait_eq (resolve : Str → UInt32 → Str) (t : PolyTrait) :
    writePolyTrait resolve t = writeBound resolve t.bound := by
  obtain ⟨trait, genericParams⟩ := t
  rw [writePolyTrait, PolyTrait.bound, writeBound]

theorem polyTraitOf_eq (t : PolyTrait) : polyTraitOf res t = boundOf res t.bound := by
  obtain ⟨trait, genericParams⟩ := t
  rw [polyTraitOf, PolyTrait.bound, boundOf]

theorem faithfulPolyTrait_eq (t : PolyTrait) : faithfulPolyTrait t = faithfulBound t.bound := by
  obtain ⟨trait, genericParams⟩ := t
  rw [faithfulPolyTrait, PolyTrait.bound, faithfulBound, decide_eq_true rfl, Bool.and_true]

theorem writeType_dynTrait {traits : List PolyTrait} (hne : traits ≠ [])
    (lifetime : Option Lifetime) (rest : Str) :
    writeType res.resolve (.dynTrait traits lifetime) ++ rest = ['d', 'y', 'n'] ++
      (' ' :: (join " + " ((dynBounds traits lifetime).map (writeBound res.resolve)) ++ rest)) := by
  have hpoly : traits.map (writePolyTrait res.resolve) =
      (traits.map PolyTrait.bound).map (writeBound res.resolve) := by
    rw [List.map_map]
    exact List.map_congr_left fun t _ => writePolyTrait_eq res.resolve t
  have hjoin : join " + " ((dynBounds traits lifetime).map (writeBound res.resolve)) =
      join " + " (writePolyTraits res.resolve traits) ++
        lifetime.elim [] fun lt => " + ".toList ++ lt.text := by
    rw [writePolyTraits_eq, hpoly, dynBounds]
    cases lifetime with
    | none => simp only [Option.toList_none, List.map_nil, List.append_nil, Option.elim_none]
    | some lt =>
      have hne' : (traits.map PolyTrait.bound).map (writeBound res.resolve) ≠ [] :=
        mt (fun hnil => List.map_eq_nil_iff.mp (List.map_eq_nil_iff.mp hnil)) hne
      rw [Option.toList_some, List.map_singleton, List.map_append, List.map_singleton, join,
        Text.intercalate_concat hne', writeBound]
      rfl
  rw [hjoin, writeType]
  simp only [List.append_assoc]
  rfl

theorem tyOf_dynTrait (traits : List PolyTrait) (lifetime : Option Lifetime) :
    tyOf res (.dynTrait traits lifetime) =
      .traitObject ((dynBounds traits lifetime).map (boundOf res)) := by
  have hpoly : traits.map (polyTraitOf res) = (traits.map PolyTrait.bound).map (boundOf res) := by
    rw [List.map_map]
    exact List.map_congr_left fun t _ => polyTraitOf_eq t
  have hlifetime : lifetime.toList.map Bound.lifetime =
      (lifetime.toList.map GenericBound.outlives).map (boundOf res) := by
    rw [List.map_map]
    refine List.map_congr_left fun lt _ => ?_
    rw [Function.comp_apply, boundOf]
  rw [tyOf, polyTraitsOf_eq, hpoly, hlifetime, dynBounds, List.map_append]

theorem faithful_dynTrait {traits : List PolyTrait} (hne : traits ≠ [])
    (lifetime : Option Lifetime) (plus : Bool) :
    (dynBounds traits lifetime ≠ [] ∧ fits plus (dynBounds traits lifetime).length = true ∧
        ∀ b ∈ dynBounds traits lifetime, faithfulBound b = true) ↔
      faithful plus (.dynTrait traits lifetime) = true := by
  have hlength : (dynBounds traits lifetime).length = traits.length + lifetime.toList.length := by
    rw [dynBounds, List.length_append, List.length_map, List.length_map]
  have hall : (∀ b ∈ dynBounds traits lifetime, faithfulBound b = true) ↔
      faithfulPolyTraits traits = true := by
    rw [dynBounds, List.forall_mem_append, List.forall_mem_map, List.forall_mem_map,
      faithfulPolyTraits_eq, List.all_eq_true]
    constructor
    · intro h t ht
      rw [faithfulPolyTrait_eq]
      exact h.1 t ht
    · intro h
      refine ⟨fun t ht => ?_, fun lt _ => ?_⟩
      · rw [← faithfulPolyTrait_eq]
        exact h t ht
      · rw [faithfulBound]
        exact fun _ _ _ => GenericBound.noConfusion
  have hne' : dynBounds traits lifetime ≠ [] :=
    List.append_ne_nil_of_left_ne_nil (mt List.map_eq_nil_iff.mp hne) _
  have hempty : traits.isEmpty = false := List.isEmpty_eq_false_iff.mpr hne
  rw [faithful, hlength, hall, hempty, Bool.not_false, Bool.true_and, Bool.and_eq_true]
  exact and_iff_right hne'

theorem reads_dynTrait (h : Sound res rs n) {traits : List PolyTrait} {lifetime : Option Lifetime}
    (hlen : (writeType res.resolve (.dynTrait traits lifetime)).length ≤ n)
    (hrest : endsType rest = true) (plus : Bool) :
    Reads (readType rs plus (writeType res.resolve (.dynTrait traits lifetime) ++ rest))
      (faithful plus (.dynTrait traits lifetime) = true) (tyOf res (.dynTrait traits lifetime))
      rest := by
  by_cases hne : traits = []
  · subst hne
    -- Without a trait, no bound is read in front of the `+`.
    have hread : readType rs plus (writeType res.resolve (.dynTrait [] lifetime) ++ rest) =
        map .traitObject (readBounds rs plus) (' ' :: (lifetime.elim [] (fun lt =>
          " + ".toList ++ lt.text) ++ rest)) := by
      rw [writeType, writePolyTraits]
      exact readWords_dyn plus rfl
    rw [hread, tyOf_dynTrait, faithful]
    refine (reads_never (fun l hl => ?_) rest).congr (by simp)
    obtain ⟨r, hr, heq⟩ := Option.map_eq_some_iff.mp hl
    have hbounds := Ty.traitObject.inj (congrArg Prod.fst heq)
    cases lifetime with
    | none => exact readBounds_ne_nil plus r.2 (hr.trans (congrArg some (Prod.ext hbounds rfl)))
    | some lt =>
      obtain ⟨l', hbound⟩ := of_readBounds (hr.trans (congrArg some (Prod.ext hbounds rfl)))
      have htrait : readBound rs (' ' :: (" + ".toList ++ lt.text ++ rest)) =
          map (fun p => .trait p.1 p.2.1 p.2.2) (pair readBinder (pair readModifier (readPath rs)))
            ('+' :: ' ' :: (lt.text ++ rest)) := rfl
      obtain ⟨b, hb⟩ := of_map (htrait.symm.trans hbound)
      rw [boundOf] at hb
      cases hb
  · have htext := @writeType_dynTrait res traits hne lifetime
    have hlen' : (join " + " ((dynBounds traits lifetime).map (writeBound res.resolve))).length ≤
        n := by
      have hlength := congrArg List.length (htext [])
      simp only [List.append_nil, List.length_append, List.length_cons] at hlength
      omega
    rw [htext, tyOf_dynTrait]
    refine Reads.congr ?_ (faithful_dynTrait hne lifetime plus)
    have hread : ∀ s, readType rs plus (['d', 'y', 'n'] ++ (' ' :: s)) =
        map .traitObject (readBounds rs plus) (' ' :: s) := fun _ => readWords_dyn plus rfl
    rw [hread]
    exact (reads_bounds h hlen' hrest plus).map fun _ _ => Ty.traitObject.inj

theorem reads_implTrait (h : Sound res rs n) {bounds : List GenericBound}
    (hlen : (writeType res.resolve (.implTrait bounds)).length ≤ n)
    (hrest : endsType rest = true) (plus : Bool) :
    Reads (readType rs plus (writeType res.resolve (.implTrait bounds) ++ rest))
      (faithful plus (.implTrait bounds) = true) (tyOf res (.implTrait bounds)) rest := by
  rw [writeType, writeBounds_eq, List.length_append] at hlen
  have hread : readType rs plus (writeType res.resolve (.implTrait bounds) ++ rest) =
      map .implTrait (readBounds rs plus)
        (' ' :: (join " + " (bounds.map (writeBound res.resolve)) ++ rest)) := by
    rw [writeType, writeBounds_eq, List.append_assoc]
    exact readWords_impl plus rfl
  rw [hread, tyOf, boundsOf_eq, faithful, faithfulBounds_eq]
  refine ((reads_bounds h (Nat.le_trans (Nat.le_add_left _ _) hlen) hrest plus).map
    fun _ _ => Ty.implTrait.inj).congr ?_
  rw [Bool.and_eq_true, Bool.and_eq_true, List.all_eq_true, Bool.not_eq_true', and_assoc,
    List.isEmpty_eq_false_iff]

/-! ## Brackets, pointers and references -/

theorem reads_types (h : Sound res rs n) {ts : List WireType}
    (hlen : ∀ t ∈ ts, (writeType res.resolve t).length < n) (rest : Str) :
    Reads (commaList [')'] (rs.type true)
        (' ' :: (join ", " (ts.map (writeType res.resolve)) ++ ([')'] ++ rest))))
      (∀ t ∈ ts, faithful true t = true) (ts.map (tyOf res)) rest := by
  refine (reads_commaList (h.skips true) (symbol_self rfl rest) rfl (List.cons_ne_nil _ _) ?_ ?_).2
  · intro t ht tail htail
    refine h.type t true tail (hlen t ht) ?_
    rcases htail with ⟨s, rfl⟩ | rfl <;> rfl
  · intro t _ _ tail
    obtain ⟨c, s, hcons, hc⟩ := (opens_writeType res t).exists_cons
    rw [hcons]
    refine symbol_ne (isSpace_of_opensChar hc) ?_ [] (s ++ tail)
    rintro rfl
    cases hc

theorem readTuple_append {t : WireType} {s : Str} (hs : endsWord s = true) :
    readTuple rs (writeType res.resolve t ++ s) =
      (rs.type true (writeType res.resolve t ++ s)).bind fun r => readTupleRest rs r.1 r.2 := by
  rw [readTuple, ((opens_writeType res t).append hs).symbol rfl]

theorem reads_tuple (h : Sound res rs n) {elems : List WireType}
    (hlen : (writeType res.resolve (.tuple elems)).length ≤ n) (plus : Bool) :
    Reads (readType rs plus (writeType res.resolve (.tuple elems) ++ rest))
      (faithful plus (.tuple elems) = true) (tyOf res (.tuple elems)) rest := by
  rw [writeType, writeTypes_eq] at hlen ⊢
  rw [tyOf, tysOf_eq, faithful, faithfulTypes_eq]
  have hparts : ∀ t ∈ elems, (writeType res.resolve t).length < n := by
    intro t ht
    have hpart : (writeType res.resolve t).length ≤ (join ", " _).length :=
      Text.length_le_intercalate (List.mem_map_of_mem ht)
    simp only [List.length_append, List.length_singleton] at hlen
    omega
  cases elems with
  | nil => exact (reads_of_eq rfl).congr (by simp)
  | cons t ts =>
    have ht := hparts t List.mem_cons_self
    cases ts with
    | nil =>
      have htext : ['('] ++ join ", " ([t].map (writeType res.resolve)) ++
          (if [t].length = 1 then [','] else []) ++ [')'] ++ rest =
          '(' :: (writeType res.resolve t ++ (',' :: ')' :: rest)) := by
        rw [List.map_singleton, join, List.intercalate_singleton, List.length_singleton, if_pos rfl]
        simp only [List.append_assoc]
        rfl
      have hread : readType rs plus ('(' :: (writeType res.resolve t ++ (',' :: ')' :: rest))) =
          (rs.type true (writeType res.resolve t ++ (',' :: ')' :: rest))).bind fun r =>
            readTupleRest rs r.1 r.2 := readTuple_append rfl
      have hrest : Reads (readTupleRest rs (tyOf res t) (',' :: ')' :: rest)) True
          (.tuple [tyOf res t]) rest := reads_of_eq rfl
      rw [htext, hread]
      exact ((h.type t true _ ht rfl).bind hrest fun _ _ _ hl => readTupleRest_tuple hl).congr
        (by simp)
    | cons u ts =>
      have htext : ['('] ++ join ", " ((t :: u :: ts).map (writeType res.resolve)) ++
          (if (t :: u :: ts).length = 1 then [','] else []) ++ [')'] ++ rest =
          '(' :: (writeType res.resolve t ++ (',' :: ' ' ::
            (join ", " ((u :: ts).map (writeType res.resolve)) ++ ([')'] ++ rest)))) := by
        rw [List.map_cons, List.map_cons, join, List.intercalate_cons_cons, if_neg (by simp)]
        simp only [List.append_assoc]
        rfl
      have hread : ∀ s, endsWord s = true →
          readType rs plus ('(' :: (writeType res.resolve t ++ s)) =
            (rs.type true (writeType res.resolve t ++ s)).bind fun r => readTupleRest rs r.1 r.2 :=
        fun _ hs => readTuple_append hs
      have hmore := reads_types h (fun v hv => hparts v (List.mem_cons_of_mem t hv)) rest
      have hrest : Reads (readTupleRest rs (tyOf res t) (',' :: ' ' ::
          (join ", " ((u :: ts).map (writeType res.resolve)) ++ ([')'] ++ rest))))
          (∀ v ∈ u :: ts, faithful true v = true) (.tuple ((t :: u :: ts).map (tyOf res))) rest :=
        hmore.map (f := fun ts => Ty.tuple (tyOf res t :: ts)) fun _ _ heq =>
          (List.cons.inj (Ty.tuple.inj heq)).2
      rw [htext, hread _ rfl]
      exact ((h.type t true _ ht rfl).bind hrest fun _ _ _ hl => readTupleRest_tuple hl).congr
        (by simp)

theorem reads_slice (h : Sound res rs n) {elem : WireType}
    (hlen : (writeType res.resolve (.slice elem)).length ≤ n) (plus : Bool) :
    Reads (readType rs plus (writeType res.resolve (.slice elem) ++ rest))
      (faithful plus (.slice elem) = true) (tyOf res (.slice elem)) rest := by
  rw [writeType] at hlen ⊢
  rw [tyOf, faithful]
  have hread : readType rs plus (['['] ++ writeType res.resolve elem ++ [']'] ++ rest) =
      (rs.type true (writeType res.resolve elem ++ (']' :: rest))).bind fun r =>
        readBracketsRest r.1 r.2 := by
    rw [List.append_assoc, List.append_assoc]
    rfl
  have hrest : Reads (readBracketsRest (tyOf res elem) (']' :: rest)) True (.slice (tyOf res elem))
      rest := reads_of_eq rfl
  simp only [List.length_append, List.length_singleton] at hlen
  rw [hread]
  exact ((h.type elem true _ (by omega) rfl).bind hrest
    fun _ _ _ hl => readBracketsRest_slice hl).congr (by simp)

theorem reads_array (h : Sound res rs n) {type : WireType} {len : Expr}
    (hlen : (writeType res.resolve (.array type len)).length ≤ n) (plus : Bool) :
    Reads (readType rs plus (writeType res.resolve (.array type len) ++ rest))
      (faithful plus (.array type len) = true) (tyOf res (.array type len)) rest := by
  rw [writeType] at hlen ⊢
  rw [tyOf, faithful]
  have hread : readType rs plus (['['] ++ writeType res.resolve type ++ "; ".toList ++ len.text ++
      [']'] ++ rest) =
      (rs.type true (writeType res.resolve type ++ (';' :: ' ' :: (len.text ++ ']' :: rest)))).bind
        fun r => readBracketsRest r.1 r.2 := by
    simp only [List.append_assoc]
    rfl
  have hexpr : Reads (readExpr (' ' :: (len.text ++ ']' :: rest))) True len (']' :: rest) :=
    reads_of_eq (readExpr_append len rfl)
  have hrest : Reads (readBracketsRest (tyOf res type) (';' :: ' ' :: (len.text ++ ']' :: rest)))
      True (.array (tyOf res type) len) rest :=
    (hexpr.before (t := [']']) (symbol_self rfl rest)).map (f := Ty.array (tyOf res type))
      fun _ _ heq => (Ty.array.inj heq).2
  simp only [List.length_append, List.length_singleton] at hlen
  rw [hread]
  exact ((h.type type true _ (by omega) rfl).bind hrest
    fun _ _ _ hl => readBracketsRest_array hl).congr (by simp)

theorem reads_rawPointer (h : Sound res rs n) {isMutable : Bool} {type : WireType}
    (hlen : (writeType res.resolve (.rawPointer isMutable type)).length ≤ n)
    (hrest : endsType rest = true) (plus : Bool) :
    Reads (readType rs plus (writeType res.resolve (.rawPointer isMutable type) ++ rest))
      (faithful plus (.rawPointer isMutable type) = true) (tyOf res (.rawPointer isMutable type))
      rest := by
  rw [writeType] at hlen ⊢
  rw [tyOf, faithful]
  have hread : readType rs plus (['*'] ++ (if isMutable then "mut ".toList else "const ".toList) ++
      writeType res.resolve type ++ rest) = readPointer rs
        ((if isMutable then ['m', 'u', 't'] else ['c', 'o', 'n', 's', 't']) ++
          (' ' :: (writeType res.resolve type ++ rest))) := by
    simp only [List.append_assoc]
    cases isMutable <;> rfl
  have htype := h.type type false rest (by
    simp only [List.length_append, List.length_singleton] at hlen
    omega) hrest
  rw [← h.skips] at htype
  have hinj : Function.Injective fun p : Bool × Ty => Ty.pointer p.1 p.2 :=
    fun _ _ hpq => Prod.ext (Ty.pointer.inj hpq).1 (Ty.pointer.inj hpq).2
  rw [hread]
  exact (((reads_of_eq (readMutability_append isMutable _)).pair htype).map hinj).congr (by simp)

theorem readFlag_mut (h : Sound res rs n) (isMutable : Bool) (t : WireType)
    (hrest : endsWord rest = true) (pad : Bool) :
    ∃ s, readFlag ['m', 'u', 't'] ((if pad then [' '] else []) ++
        ((if isMutable then "mut ".toList else []) ++ (writeType res.resolve t ++ rest))) =
        some (isMutable, s) ∧
      rs.type false s = rs.type false (writeType res.resolve t ++ rest) := by
  have hpad : ∀ s, ∃ s', readFlag ['m', 'u', 't'] ((if pad then [' '] else []) ++ s) =
      (if word s = ['m', 'u', 't'] then some (true, behindWord s) else some (false, s')) ∧
        rs.type false s' = rs.type false s := by
    intro s
    cases pad with
    | true => exact ⟨' ' :: s, rfl, h.skips false s⟩
    | false => exact ⟨s, rfl, rfl⟩
  cases isMutable with
  | true =>
    obtain ⟨s', hflag, -⟩ := hpad (['m', 'u', 't'] ++ (' ' :: (writeType res.resolve t ++ rest)))
    refine ⟨' ' :: (writeType res.resolve t ++ rest), ?_, h.skips false _⟩
    rw [word_append rfl rfl, if_pos rfl, behindWord_append rfl rfl] at hflag
    exact hflag
  | false =>
    obtain ⟨s', hflag, hskip⟩ := hpad (writeType res.resolve t ++ rest)
    have hne := ((opens_writeType res t).append hrest).word_ne (w := ['m', 'u', 't']) rfl
      (List.cons_ne_nil _ _)
    rw [if_neg hne] at hflag
    exact ⟨s', hflag, hskip⟩

theorem reads_borrowedRef (h : Sound res rs n) {lifetime : Option Lifetime} {isMutable : Bool}
    {type : WireType}
    (hlen : (writeType res.resolve (.borrowedRef lifetime isMutable type)).length ≤ n)
    (hrest : endsType rest = true) (plus : Bool) :
    Reads (readType rs plus (writeType res.resolve (.borrowedRef lifetime isMutable type) ++ rest))
      (faithful plus (.borrowedRef lifetime isMutable type) = true)
      (tyOf res (.borrowedRef lifetime isMutable type)) rest := by
  rw [writeType] at hlen ⊢
  rw [tyOf, faithful]
  have htype := h.type type false rest (by
    simp only [List.length_append, List.length_singleton] at hlen
    omega) hrest
  have hflag := fun pad => readFlag_mut h isMutable type (endsWord_of_endsType hrest) pad
  have hread : readType rs plus (['&'] ++ (lifetime.elim [] fun lt => lt.text ++ [' ']) ++
      (if isMutable then "mut ".toList else []) ++ writeType res.resolve type ++ rest) =
      map (.reference lifetime isMutable) (rs.type false) (writeType res.resolve type ++ rest) := by
    simp only [List.append_assoc]
    cases lifetime with
    | none =>
      obtain ⟨s, hflag, hskip⟩ := hflag false
      have hopt : readOptLifetime ((if isMutable then "mut ".toList else []) ++
          (writeType res.resolve type ++ rest)) = some (none, (if isMutable then "mut ".toList else
            []) ++ (writeType res.resolve type ++ rest)) := by
        cases isMutable with
        | true => rfl
        | false =>
          have hopens := (opens_writeType res type).append (endsWord_of_endsType hrest)
          rw [if_neg Bool.false_ne_true, List.nil_append]
          unfold readOptLifetime
          rw [hopens.skip]
          split
          · rename_i heq
            exact absurd (congrArg List.head? heq) (hopens.head_ne rfl)
          · rfl
      have hstep : readType rs plus (['&'] ++ ([] ++ ((if isMutable then "mut ".toList else []) ++
          (writeType res.resolve type ++ rest)))) = readReference rs
            ((if isMutable then "mut ".toList else []) ++
              (writeType res.resolve type ++ rest)) := rfl
      rw [Option.elim_none, hstep]
      rw [if_neg Bool.false_ne_true, List.nil_append] at hflag
      simp only [readReference, map, pair, hopt, Option.bind_some, hflag, hskip, Option.map_map]
      rfl
    | some lt =>
      obtain ⟨s, hflag, hskip⟩ := hflag true
      have hopt : readOptLifetime
          (lt.text ++ ([' '] ++ ((if isMutable then "mut ".toList else []) ++
            (writeType res.resolve type ++ rest)))) = some (some lt, [' '] ++
            ((if isMutable then "mut ".toList else []) ++
              (writeType res.resolve type ++ rest))) := by
        have hlt : ∀ s, readOptLifetime (lt.text ++ s) = map some readLifetime (lt.text ++ s) :=
          fun _ => rfl
        rw [hlt, map, readLifetime_append lt rfl]
        rfl
      have hstep : readType rs plus (['&'] ++ (lt.text ++ ([' '] ++ ((if isMutable then
          "mut ".toList else []) ++ (writeType res.resolve type ++ rest))))) = readReference rs
            (lt.text ++ ([' '] ++ ((if isMutable then "mut ".toList else []) ++
              (writeType res.resolve type ++ rest)))) := rfl
      rw [Option.elim_some, List.append_assoc, hstep]
      rw [if_pos rfl] at hflag
      simp only [readReference, map, pair, hopt, Option.bind_some, hflag, hskip, Option.map_map]
      rfl
  rw [hread]
  exact htype.map fun _ _ heq => (Ty.reference.inj heq).2.2

/-! ## Functions -/

/-- The ABI that is written in place of one. -/
def Abi.caught : Abi → Abi
  | .rust => .rust
  | .c _ => .c false
  | .cdecl _ => .cdecl false
  | .stdcall _ => .stdcall false
  | .fastcall _ => .fastcall false
  | .aapcs _ => .aapcs false
  | .win64 _ => .win64 false
  | .sysV64 _ => .sysV64 false
  | .system _ => .system false
  | .other name => .other name

theorem writeAbi_eq (abi : Abi) : (abi = .rust ∨ ∃ name, abiOf abi.caught = some name ∧
    writeAbi abi = "extern \"".toList ++ name.text ++ "\" ".toList) := by
  cases abi with
  | rust => exact Or.inl rfl
  | _ => exact Or.inr ⟨_, rfl, rfl⟩

theorem abiOf_caught_iff (abi : Abi) : abiOf abi.caught = abiOf abi ↔ abi.unwinds = false := by
  cases abi with
  | rust => exact ⟨fun _ => rfl, fun _ => rfl⟩
  | other name => exact ⟨fun _ => rfl, fun _ => rfl⟩
  | _ unwind => cases unwind <;> decide

theorem readAbi_writeAbi (abi : Abi) (s : Str) :
    ∃ s', readAbi (writeAbi abi ++ ("fn(".toList ++ s)) = some (abiOf abi.caught, s') ∧
      readInputs rs s' = readInputs rs ("fn(".toList ++ s) := by
  rcases writeAbi_eq abi with rfl | ⟨name, hname, htext⟩
  · have hword : word (['f', 'n'] ++ ('(' :: s)) = ['f', 'n'] := word_append rfl rfl
    have hne : word (['f', 'n'] ++ ('(' :: s)) ≠ ['e', 'x', 't', 'e', 'r', 'n'] := by
      rw [hword]
      decide
    exact ⟨_, if_neg hne, rfl⟩
  · refine ⟨' ' :: ("fn(".toList ++ s), ?_, rfl⟩
    rw [htext, hname, List.append_assoc, List.append_assoc]
    exact readAbi_append name (' ' :: ("fn(".toList ++ s))

theorem readType_function (abi : Abi) (plus : Bool) (s : Str) :
    readType rs plus (writeAbi abi ++ ("fn(".toList ++ s)) =
      readFunction rs (writeAbi abi ++ ("fn(".toList ++ s)) := by
  rcases writeAbi_eq abi with rfl | ⟨name, -, htext⟩
  · have hword : word (['f', 'n'] ++ ('(' :: s)) = ['f', 'n'] := word_append rfl rfl
    have hcontains : functionWords.contains (word (['f', 'n'] ++ ('(' :: s))) = true := by
      rw [hword]
      rfl
    exact readWords_function plus hcontains
  · have hread : ∀ s, readType rs plus (['e', 'x', 't', 'e', 'r', 'n'] ++ (' ' :: s)) =
        readFunction rs (['e', 'x', 't', 'e', 'r', 'n'] ++ (' ' :: s)) := by
      intro s
      have hword : word (['e', 'x', 't', 'e', 'r', 'n'] ++ (' ' :: s)) =
          ['e', 'x', 't', 'e', 'r', 'n'] := word_append rfl rfl
      have hcontains : functionWords.contains
          (word (['e', 'x', 't', 'e', 'r', 'n'] ++ (' ' :: s))) = true := by
        rw [hword]
        rfl
      exact readWords_function plus hcontains
    rw [htext, List.append_assoc, List.append_assoc]
    exact hread ('"' :: (name.text ++ ("\" ".toList ++ ("fn(".toList ++ s))))

theorem reads_qualifiers (header : FunctionHeader) {t s' : Str}
    (hopens : Opens t) (habi : readAbi t = some (abiOf header.abi.caught, s')) :
    Reads (readQualifiers t) (header.isPlain = true) (qualifiersOf header) s' := by
  have hconst : Reads (readFlag ['c', 'o', 'n', 's', 't'] t) (false = header.isConst)
      header.isConst t := by
    rw [readFlag_of_opens hopens rfl (List.cons_ne_nil _ _)]
    exact reads_fixed false header.isConst t
  have hasync : Reads (readFlag ['a', 's', 'y', 'n', 'c'] t) (false = header.isAsync)
      header.isAsync t := by
    rw [readFlag_of_opens hopens rfl (List.cons_ne_nil _ _)]
    exact reads_fixed false header.isAsync t
  have hflag : Reads (readFlag ['u', 'n', 's', 'a', 'f', 'e'] t) (false = header.isUnsafe)
      header.isUnsafe t := by
    rw [readFlag_of_opens hopens rfl (List.cons_ne_nil _ _)]
    exact reads_fixed false header.isUnsafe t
  have hname : Reads (readAbi t) (abiOf header.abi.caught = abiOf header.abi) (abiOf header.abi)
      s' := by
    rw [habi]
    exact reads_fixed _ (abiOf header.abi) s'
  have hinj : Function.Injective fun p : (Bool × Bool) × Bool × Option AbiName =>
      (⟨p.1.1, p.1.2, p.2.1, p.2.2⟩ : Qualifiers) := fun _ _ hpq =>
    Prod.ext (Prod.ext (Qualifiers.mk.inj hpq).1 (Qualifiers.mk.inj hpq).2.1)
      (Prod.ext (Qualifiers.mk.inj hpq).2.2.1 (Qualifiers.mk.inj hpq).2.2.2)
  refine (((hconst.pair hasync).pair (hflag.pair hname)).map hinj).congr ?_
  rw [abiOf_caught_iff, FunctionHeader.isPlain, Bool.and_eq_true, Bool.and_eq_true,
    Bool.and_eq_true, Bool.not_eq_true', Bool.not_eq_true', Bool.not_eq_true', Bool.not_eq_true',
    @eq_comm _ false, @eq_comm _ false, @eq_comm _ false]
  constructor
  · rintro ⟨⟨h₁, h₂⟩, h₃, h₄⟩
    exact ⟨⟨⟨h₁, h₂⟩, h₃⟩, h₄⟩
  · rintro ⟨⟨⟨h₁, h₂⟩, h₃⟩, h₄⟩
    exact ⟨⟨h₁, h₂⟩, h₃, h₄⟩

/-- An input of a function, or the dots behind the last one. -/
def inputText (res : Resolver) (x : Option WireType) : Str :=
  x.elim "...".toList (writeType res.resolve)

def variadicInputs (inputs : List WireType) (isCVariadic : Bool) : List (Option WireType) :=
  inputs.map some ++ if isCVariadic then [none] else []

theorem reads_input (h : Sound res rs n) {x : Option WireType}
    (hlen : (inputText res x).length < n) (hrest : endsType rest = true) :
    Reads (readInput rs (inputText res x ++ rest)) (∀ t, x = some t → faithful true t = true)
      (x.map (tyOf res)) rest := by
  cases x with
  | none =>
    refine (reads_of_eq rfl).congr ⟨fun _ t heq => ?_, fun _ => trivial⟩
    cases heq
  | some t =>
    have hopens := (opens_writeType res t).append (endsWord_of_endsType hrest)
    have hread : readInput rs (writeType res.resolve t ++ rest) =
        map some (rs.type true) (writeType res.resolve t ++ rest) := by
      rw [readInput, hopens.symbol rfl]
    rw [inputText, Option.elim_some, hread]
    refine ((h.type t true rest hlen hrest).map fun _ _ => Option.some.inj).congr ?_
    constructor
    · rintro hg _ ⟨⟩
      exact hg
    · intro hg
      exact hg t rfl

theorem readInputs_append (s : Str) :
    readInputs rs ("fn(".toList ++ s) = commaList [')'] (readInput rs) s := by
  have hword : word (['f', 'n'] ++ ('(' :: s)) = ['f', 'n'] := word_append rfl rfl
  have hbehind : behindWord (['f', 'n'] ++ ('(' :: s)) = '(' :: s := behindWord_append rfl rfl
  refine (if_pos hword).trans ?_
  exact congrArg (after ['('] (commaList [')'] (readInput rs))) hbehind

theorem reads_inputs (h : Sound res rs n) {inputs : List WireType} {isCVariadic : Bool}
    (hlen : (writeInputs (writeTypes res.resolve inputs) isCVariadic).length + 3 ≤ n)
    (rest : Str) :
    Reads (readInputs rs ("fn(".toList ++
        (writeInputs (writeTypes res.resolve inputs) isCVariadic ++ ([')'] ++ rest))))
      (faithfulTypes inputs = true)
      ((tysOf res inputs).map some ++ if isCVariadic then [none] else []) rest := by
  have htext : writeInputs (writeTypes res.resolve inputs) isCVariadic =
      join ", " ((variadicInputs inputs isCVariadic).map (inputText res)) := by
    rw [writeInputs, writeTypes_eq, variadicInputs, List.map_append, List.map_map]
    cases isCVariadic <;> rfl
  have hmeaning : ((tysOf res inputs).map some ++ if isCVariadic then [none] else []) =
      (variadicInputs inputs isCVariadic).map (Option.map (tyOf res)) := by
    rw [tysOf_eq, variadicInputs, List.map_append, List.map_map, List.map_map]
    cases isCVariadic <;> rfl
  have hgood : (∀ x ∈ variadicInputs inputs isCVariadic, ∀ t, x = some t → faithful true t = true) ↔
      faithfulTypes inputs = true := by
    rw [faithfulTypes_eq, List.all_eq_true, variadicInputs, List.forall_mem_append,
      List.forall_mem_map]
    constructor
    · intro hg t ht
      exact hg.1 t ht t rfl
    · intro hg
      refine ⟨?_, ?_⟩
      · rintro t ht _ ⟨⟩
        exact hg t ht
      · intro x hx t heq
        cases isCVariadic with
        | true =>
          rw [List.mem_singleton.mp hx] at heq
          cases heq
        | false => cases hx
  rw [htext] at hlen ⊢
  rw [readInputs_append, hmeaning]
  refine Reads.congr ?_ hgood
  refine (reads_commaList ?_ (symbol_self rfl rest) rfl (List.cons_ne_nil _ _) ?_ ?_).1
  · intro s
    rw [readInput, readInput, symbol_space, map, map, h.skips]
  · intro x hx tail htail
    refine reads_input h ?_ ?_
    · have hx' : (inputText res x).length ≤ (join ", " _).length :=
        Text.length_le_intercalate (List.mem_map_of_mem hx)
      omega
    · rcases htail with ⟨s, rfl⟩ | rfl <;> rfl
  · intro x _ _ tail
    cases x with
    | none => rfl
    | some t =>
      obtain ⟨c, s, hcons, hc⟩ := (opens_writeType res t).exists_cons
      rw [inputText, Option.elim_some, hcons]
      refine symbol_ne (isSpace_of_opensChar hc) ?_ [] (s ++ tail)
      rintro rfl
      cases hc

theorem reads_output (h : Sound res rs n) {output : Option WireType}
    (hlen : (writeOutput res.resolve output).length < n) (hrest : endsType rest = true) :
    Reads (whenSymbol ['-', '>'] (rs.type false) (writeOutput res.resolve output ++ rest))
      (faithfulOutput output = true) (outputOf res output) rest := by
  cases output with
  | none =>
    rw [writeOutput, faithfulOutput, outputOf, List.nil_append]
    exact (reads_whenSymbol_none (endsType_arrow hrest)).congr (by simp)
  | some t =>
    rw [writeOutput, List.length_append] at hlen
    have htype := h.type t false rest (by omega) hrest
    rw [← h.skips] at htype
    rw [writeOutput, faithfulOutput, outputOf, List.append_assoc]
    exact htype.whenSymbol rfl

theorem reads_functionPointer (h : Sound res rs n) {genericParams : List Lifetime}
    {header : FunctionHeader} {inputs : List WireType} {isCVariadic : Bool}
    {output : Option WireType} (hlen : (writeType res.resolve (.functionPointer genericParams header
      inputs isCVariadic output)).length ≤ n) (hrest : endsType rest = true) (plus : Bool) :
    Reads (readType rs plus (writeType res.resolve (.functionPointer genericParams header inputs
        isCVariadic output) ++ rest))
      (faithful plus (.functionPointer genericParams header inputs isCVariadic output) = true)
      (tyOf res (.functionPointer genericParams header inputs isCVariadic output)) rest := by
  have htext : writeType res.resolve (.functionPointer genericParams header inputs isCVariadic
      output) ++ rest = writeAbi header.abi ++ ("fn(".toList ++ (writeInputs (writeTypes res.resolve
        inputs) isCVariadic ++ ([')'] ++ (writeOutput res.resolve output ++ rest)))) := by
    rw [writeType]
    simp only [List.append_assoc]
  have hfn : "fn(".toList.length = 3 := rfl
  rw [writeType] at hlen
  simp only [List.length_append, List.length_singleton, hfn] at hlen
  have hopens := opens_writeAbi header.abi (writeInputs (writeTypes res.resolve inputs)
    isCVariadic ++ ([')'] ++ (writeOutput res.resolve output ++ rest)))
  rw [List.append_assoc] at hopens
  have hbinder := reads_binder hopens genericParams
  obtain ⟨s', habi, hsame⟩ := @readAbi_writeAbi rs header.abi (writeInputs (writeTypes res.resolve
    inputs) isCVariadic ++ ([')'] ++ (writeOutput res.resolve output ++ rest)))
  have hinputs := @reads_inputs res rs n h inputs isCVariadic (by omega)
    (writeOutput res.resolve output ++ rest)
  rw [← hsame] at hinputs
  have houtput := @reads_output res rs n rest h output (by omega) hrest
  have hinj : Function.Injective fun p : (List Lifetime × Qualifiers) × List (Option Ty) ×
      Option Ty => Ty.function p.1.1 p.1.2 p.2.1 p.2.2 := fun _ _ hpq =>
    Prod.ext (Prod.ext (Ty.function.inj hpq).1 (Ty.function.inj hpq).2.1)
      (Prod.ext (Ty.function.inj hpq).2.2.1 (Ty.function.inj hpq).2.2.2)
  rw [htext, readType_function, tyOf, faithful]
  refine (((hbinder.pair (reads_qualifiers header hopens habi)).pair
    (hinputs.pair houtput)).map hinj).congr ?_
  rw [Bool.and_eq_true, Bool.and_eq_true, Bool.and_eq_true, List.isEmpty_iff, eq_comm]
  exact and_assoc.symm

/-! ## All types -/

theorem reads_bareItem {name : Ident} {args : Option GenericArgs} {selfType : WireType}
    (hbare : isPathLike selfType = false) (hrest : endsWord rest = true) (plus : Bool) :
    Reads
      (readType rs plus (writeType res.resolve (.qualifiedPath name args selfType none) ++ rest))
      (faithful plus (.qualifiedPath name args selfType none) = true)
      (tyOf res (.qualifiedPath name args selfType none)) rest := by
  have hopens := (opens_writeType res (.qualifiedPath name args selfType none)).append hrest
  have hhead := head_of_not_isPathLike res (.qualifiedPath name args selfType none) hbare rest
  obtain ⟨self, segments, hself⟩ :=
    extend_of_not_isPathLike res selfType hbare (.mk name (optArgsOf res args))
  rw [← hopens.skip] at hhead
  rw [tyOf, hself, faithful, hbare]
  exact (reads_never (fun l => readType_ne_qualified hhead self none segments l) rest).congr
    (by simp)

theorem reads_type (h : Sound res rs n) (t : WireType) (hlen : (writeType res.resolve t).length ≤ n)
    (hrest : endsType rest = true) (plus : Bool) :
    Reads (readType rs plus (writeType res.resolve t ++ rest)) (faithful plus t = true)
      (tyOf res t) rest := by
  by_cases hpath : isPathLike t = true
  · obtain ⟨front, segs, hspine⟩ := exists_spine res t hpath
    exact reads_spine h hspine hlen (endsPath_of_endsType hrest) plus
  · cases t with
    | resolvedPath p => exact absurd rfl hpath
    | generic name => exact absurd rfl hpath
    | primitive name =>
      -- What is written for `!` is read as a path.
      have hnever : name.text = never := by
        rw [isPathLike, bne_iff_ne, not_not] at hpath
        exact hpath
      obtain ⟨front, segs, hspine⟩ := exists_spine res (.generic name) rfl
      rw [writeType] at hlen
      have hread := reads_spine h hspine (by rw [writeType]; exact hlen)
        (endsPath_of_endsType hrest) plus
      rw [writeType, tyOf, faithful] at hread
      rw [writeType, tyOf, if_pos hnever, faithful]
      refine (reads_never (fun l hl => ?_) rest).congr (by simp [hnever])
      rw [hread.of_good rfl] at hl
      cases hl
    | dynTrait traits lifetime => exact reads_dynTrait h hlen hrest plus
    | functionPointer genericParams header inputs isCVariadic output =>
      exact reads_functionPointer h hlen hrest plus
    | tuple elems => exact reads_tuple h hlen plus
    | slice elem => exact reads_slice h hlen plus
    | array type len => exact reads_array h hlen plus
    | implTrait bounds => exact reads_implTrait h hlen hrest plus
    | rawPointer isMutable type => exact reads_rawPointer h hlen hrest plus
    | borrowedRef lifetime isMutable type => exact reads_borrowedRef h hlen hrest plus
    | qualifiedPath name args selfType trait =>
      cases trait with
      | none =>
        have hbare : isPathLike selfType = false := Bool.not_eq_true _ |>.mp hpath
        exact reads_bareItem hbare (endsWord_of_endsType hrest) plus
      | some trait => exact absurd rfl hpath

end

/-- One more level of the readers reads texts that are one longer. -/
theorem Sound.succ {res : Resolver} {n : Nat} (h : Sound res (readers n) n) :
    Sound res (readers (n + 1)) (n + 1) where
  skips _ _ := rfl
  infer _ plus _ hrest := readType_infer plus hrest
  type t plus _ hlen hrest := reads_type h t (Nat.le_of_lt_succ hlen) hrest plus
  args _ rest hlen := reads_args h (Nat.le_of_lt_succ hlen) rest

theorem sound_readers (res : Resolver) (n : Nat) : Sound res (readers n) n := by
  induction n with
  | zero =>
    refine ⟨fun _ _ => rfl, fun h => absurd h (Nat.lt_irrefl 0), ?_, ?_⟩
    · exact fun t plus rest hlen => absurd hlen (Nat.not_lt_zero _)
    · exact fun args rest hlen => absurd hlen (Nat.not_lt_zero _)
  | succ n ih => exact ih.succ

/-! ## Whole texts -/

section
variable (res : Resolver)

theorem reads_render (t : WireType) :
    Reads ((readers ((render t res.resolve).length + 1)).type true (render t res.resolve))
      (faithful true t = true) (tyOf res t) [] := by
  have hread := (sound_readers res ((render t res.resolve).length + 1)).type t true []
    (Nat.lt_succ_self _) rfl
  rw [List.append_nil] at hread
  exact hread

theorem parse_of_faithful {t : WireType} (h : faithful true t = true) :
    parse (render t res.resolve) = some (tyOf res t) := by
  rw [parse, (reads_render res t).of_good h]

/-- Types that are written with their meaning are told apart by their texts, as far as their
meanings differ. -/
theorem tyOf_eq_of_render {t t' : WireType} (h : faithful true t = true)
    (h' : faithful true t' = true) (heq : render t res.resolve = render t' res.resolve) :
    tyOf res t = tyOf res t' := by
  have hparse := parse_of_faithful res h
  rw [heq, parse_of_faithful res h'] at hparse
  exact (Option.some.inj hparse).symm

/-- The text of a type is read back as the type it was written for, unless a binder, a modifier or a
word of a header is dropped, arguments are written in another style, an item is named of what is no
path, or a `+` stands where one bound only is read. -/
theorem parse_render_iff (t : WireType) :
    parse (render t res.resolve) = some (tyOf res t) ↔ faithful true t = true := by
  constructor
  · intro h
    unfold parse at h
    split at h
    · rename_i u hread
      obtain rfl := Option.some.inj h
      exact (reads_render res t).good_of [] hread
    · cases h
  · exact parse_of_faithful res

end

/-! ### A function without its word -/

def unsafeFunction : WireType := .functionPointer [] ⟨false, true, false, .rust⟩ [] false none

def safeFunction : WireType := .functionPointer [] ⟨false, false, false, .rust⟩ [] false none

def anyPath : Resolver := fun _ _ => ⟨false, [], ⟨['T'], rfl⟩⟩

theorem unsafe_is_dropped :
    parse (render unsafeFunction anyPath.resolve) ≠ some (tyOf anyPath unsafeFunction) ∧
      render unsafeFunction anyPath.resolve = render safeFunction anyPath.resolve := by
  have hparse : parse "fn()".toList = some (.function [] ⟨false, false, false, none⟩ [] none) := rfl
  have htext : render unsafeFunction anyPath.resolve = "fn()".toList := rfl
  refine ⟨?_, rfl⟩
  rw [htext, hparse]
  intro h
  have hqualifiers := (Ty.function.inj (Option.some.inj h)).2.1
  exact absurd (congrArg Qualifiers.isUnsafe hqualifiers) Bool.false_ne_true

end Rustyfill.DocJson.TypeRepr
