import Rustyfill.Errors.Search

/-!
# Which match a search finds

The searches take the children of a frame from the back, where the oldest are, and the walk takes
them from the front. They come to the same place first when there is only one child to go to.
-/

namespace Rustyfill.Errors

set_option autoImplicit false

variable {C I : Type}

/-- Some place holds a value of the type. -/
def TypeTest.anywhere {P : Type} (t : TypeTest C I) (l : List (P × Held C I)) : Bool :=
  l.any fun x => t.holds x.2

def DynamicFrame.holds (t : TypeTest C I) (df : DynamicFrame I) : Bool :=
  t.anywhere (df.places false)

def StaticFrame.holds (t : TypeTest C I) (sf : StaticFrame C I) : Bool :=
  t.anywhere (sf.places false)

mutual

/-- The frame holds a value of the type itself, or those below it are in one child, and so on. -/
def DynamicFrame.OneWay (t : TypeTest C I) : DynamicFrame I → Prop
  | ⟨context, attachments, children, _, _⟩ =>
    t.item context = true ∨ attachments.any t.item = true ∨ OneChild t children

def OneChild (t : TypeTest C I) : List (DynamicFrame I) → Prop
  | [] => True
  | child :: rest =>
    if child.holds t then (∀ other ∈ rest, other.holds t = false) ∧ child.OneWay t
    else OneChild t rest

end

def StaticFrame.OneWay (t : TypeTest C I) (sf : StaticFrame C I) : Prop :=
  t.context sf.context.context = true ∨ sf.attachments.any t.item = true ∨ OneChild t sf.children

/-- Only the first frame that holds a value of the type counts. -/
def OneRoot (t : TypeTest C I) : List (StaticFrame C I) → Prop
  | [] => True
  | sf :: rest => if sf.holds t then sf.OneWay t else OneRoot t rest

/-- Wherever a search has to go below a frame, it can only go to one child. -/
def Report.OneWay (t : TypeTest C I) (r : Report C I) : Prop := OneRoot t (r.head :: r.peers.items)

section
variable {P Q : Type} (t : TypeTest C I)

/-! ## What is held -/

theorem firstOf_eq_none {l : List (P × Held C I)} : firstOf t l = none ↔ t.anywhere l = false := by
  rw [firstOf, Option.map_eq_none_iff, List.find?_eq_none, TypeTest.anywhere, List.any_eq_false]

theorem firstOf_eq_some {l : List (P × Held C I)} (h : t.anywhere l = true) :
    ∃ p, firstOf t l = some p := by
  cases hfirst : firstOf t l with
  | none =>
    rw [firstOf_eq_none, h] at hfirst
    exact absurd hfirst (by decide)
  | some p => exact ⟨p, rfl⟩

theorem anywhere_append (l l' : List (P × Held C I)) :
    t.anywhere (l ++ l') = (t.anywhere l || t.anywhere l') := List.any_append

theorem anywhere_cons (x : P × Held C I) (l : List (P × Held C I)) :
    t.anywhere (x :: l) = (t.holds x.2 || t.anywhere l) := List.any_cons

theorem anywhere_map (f : P → Q) (l : List (P × Held C I)) :
    t.anywhere (l.map fun x => (f x.1, x.2)) = t.anywhere l := by
  rw [TypeTest.anywhere, List.any_map]
  rfl

theorem anywhere_under (i : Nat) (l : List (Place × Held C I)) :
    t.anywhere (l.map (heldUnder i)) = t.anywhere l := anywhere_map t (Place.under i) l

mutual

theorem anywhere_places (rev : Bool) : ∀ df : DynamicFrame I,
    t.anywhere (df.places rev) = df.holds t
  | ⟨context, attachments, children, lostAttachments, lostChildren⟩ => by
    rw [DynamicFrame.holds, DynamicFrame.places, DynamicFrame.places, anywhere_cons, anywhere_cons,
      anywhere_append, anywhere_append, anywhere_children rev 0 children,
      anywhere_children false 0 children]

theorem anywhere_children (rev : Bool) (i : Nat) : ∀ l : List (DynamicFrame I),
    t.anywhere (childPlaces rev i l) = l.any (DynamicFrame.holds t)
  | [] => by
    rw [childPlaces]
    rfl
  | child :: rest => by
    have hchild := anywhere_places rev child
    have hrest := anywhere_children rev (i + 1) rest
    rw [childPlaces, List.any_cons]
    cases rev with
    | true =>
      rw [if_pos rfl, anywhere_append, anywhere_under, hchild, hrest]
      exact Bool.or_comm _ _
    | false => rw [if_neg (by decide), anywhere_append, anywhere_under, hchild, hrest]

end

theorem StaticFrame.anywhere_places (rev : Bool) (sf : StaticFrame C I) :
    t.anywhere (sf.places rev) = sf.holds t := by
  rw [holds, places, places, anywhere_cons, anywhere_cons, anywhere_append, anywhere_append,
    anywhere_children t rev, anywhere_children t false]

/-! ## The first place -/

theorem Place.under_injective (i : Nat) : Function.Injective (Place.under i) := by
  intro p q h
  obtain ⟨hpath, hpart⟩ := Prod.mk.inj h
  exact Prod.ext (List.cons.inj hpath).2 hpart

theorem firstOf_children_ne {rev : Bool} {i : Nat} {l : List (DynamicFrame I)} {p : Place}
    (h : firstOf t (childPlaces rev (i + 1) l) = some p) (q : Place) : p ≠ q.under i := by
  obtain ⟨⟨p', x⟩, hfind, rfl⟩ := Option.map_eq_some_iff.mp h
  obtain ⟨j, -, path, hpath, -⟩ := childItem_of_mem rev (i + 1) l p' x
    (List.mem_of_find?_eq_some hfind)
  rintro rfl
  have hhead := (List.cons.inj hpath).1
  omega

/-- A frame holds it itself, in both directions at one place, or it is below. -/
theorem firstOf_own {context : Held C I} {attachments : List I}
    {below below' : List (Place × Held C I)} :
    firstOf t ((([], .context), context) :: (attachmentPlaces attachments ++ below)) =
        firstOf t ((([], .context), context) :: (attachmentPlaces attachments ++ below')) ↔
      t.holds context = true ∨ attachments.any t.item = true ∨
        firstOf t below = firstOf t below' := by
  rw [firstOf_cons, firstOf_cons, firstOf_append, firstOf_append, ← findAttachment_eq,
    ← findAttachment_isSome t]
  cases t.holds context with
  | true => simp
  | false => cases findAttachment t attachments <;> simp

mutual

theorem oneWay_iff : ∀ df : DynamicFrame I,
    firstOf t (df.places true) = firstOf t (df.places false) ↔ df.OneWay t
  | ⟨context, attachments, children, lostAttachments, lostChildren⟩ => by
    rw [DynamicFrame.places, DynamicFrame.places, firstOf_own, oneChild_iff 0 children,
      DynamicFrame.OneWay]
    rfl

theorem oneChild_iff (i : Nat) : ∀ l : List (DynamicFrame I),
    firstOf t (childPlaces true i l) = firstOf t (childPlaces false i l) ↔ OneChild t l
  | [] => by
    rw [childPlaces, childPlaces, OneChild]
    exact iff_of_true rfl trivial
  | child :: rest => by
    have hunder : ∀ rev, firstOf t ((child.places rev).map (heldUnder i)) =
        (firstOf t (child.places rev)).map (Place.under i) :=
      fun rev => firstOf_map t (Place.under i) (child.places rev)
    rw [childPlaces, childPlaces, if_pos rfl, if_neg (by decide), firstOf_append, firstOf_append,
      hunder, hunder, OneChild]
    cases hchild : child.holds t with
    | false =>
      -- Both go on to the other children.
      have hnone : ∀ rev, firstOf t (child.places rev) = none :=
        fun rev => (firstOf_eq_none t).mpr ((anywhere_places t rev child).trans hchild)
      rw [hnone, hnone, if_neg (by decide), ← oneChild_iff (i + 1) rest]
      simp
    | true =>
      obtain ⟨p, hp⟩ := firstOf_eq_some t ((anywhere_places t false child).trans hchild)
      rw [hp, if_pos rfl, Option.map_some, Option.some_or]
      cases hrest : rest.any (DynamicFrame.holds t) with
      | true =>
        -- The search finds it in a later child, and the walk in this one.
        obtain ⟨q, hq⟩ := firstOf_eq_some t ((anywhere_children t true (i + 1) rest).trans hrest)
        rw [hq, Option.some_or]
        refine iff_of_false (fun heq => firstOf_children_ne t hq p (Option.some.inj heq)) ?_
        rintro ⟨hnone, -⟩
        obtain ⟨other, hmem, hholds⟩ := List.any_eq_true.mp hrest
        rw [hnone other hmem] at hholds
        exact absurd hholds (by decide)
      | false =>
        have hnone := (firstOf_eq_none t).mpr ((anywhere_children t true (i + 1) rest).trans hrest)
        have hothers : ∀ other ∈ rest, other.holds t = false := by
          simpa using List.any_eq_false.mp hrest
        rw [hnone, Option.none_or, ← oneWay_iff child, hp, ← Option.map_some,
          (Option.map_injective (Place.under_injective i)).eq_iff]
        exact (and_iff_right hothers).symm

end

theorem StaticFrame.oneWay_iff (sf : StaticFrame C I) :
    firstOf t (sf.places true) = firstOf t (sf.places false) ↔ sf.OneWay t := by
  rw [places, places, firstOf_own, oneChild_iff, OneWay]
  rfl

theorem oneRoot_iff (i : Nat) (l : List (StaticFrame C I)) :
    firstOf t (rootPlaces true i l) = firstOf t (rootPlaces false i l) ↔ OneRoot t l := by
  induction l generalizing i with
  | nil => exact iff_of_true rfl trivial
  | cons sf rest ih =>
    have hroot : ∀ rev, firstOf t ((sf.places rev).map fun x => ((i, x.1), x.2)) =
        (firstOf t (sf.places rev)).map (Prod.mk i) :=
      fun rev => firstOf_map t (Prod.mk i) (sf.places rev)
    rw [rootPlaces, rootPlaces, firstOf_append, firstOf_append, hroot, hroot, OneRoot]
    cases hsf : sf.holds t with
    | false =>
      have hnone : ∀ rev, firstOf t (sf.places rev) = none :=
        fun rev => (firstOf_eq_none t).mpr ((sf.anywhere_places t rev).trans hsf)
      rw [hnone, hnone, if_neg (by decide), ← ih (i + 1)]
      simp
    | true =>
      obtain ⟨p, hp⟩ := firstOf_eq_some t ((sf.anywhere_places t true).trans hsf)
      obtain ⟨q, hq⟩ := firstOf_eq_some t ((sf.anywhere_places t false).trans hsf)
      rw [if_pos rfl, ← sf.oneWay_iff t, hp, hq]
      simp

end

namespace Report

/-- The places come in the order in which `frames` visits the frames, and the searches agree with
each other and find the first of them exactly when no search has a choice of children. -/
theorem searches_as_walk_iff (t : TypeTest C I) (wrap : Nat → Nat) (r : Report C I) :
    (r.places false).map Prod.snd = r.preorder.flatMap (fun x => x.1.held) ∧
      (((r.contains t = true ↔ (r.downcastRef t).isSome = true) ∧
        ((r.downcastRef t).isSome = true ↔ (r.downcastMut t wrap).isSome = true) ∧
        r.downcastMut t wrap = r.downcastRef t ∧
        r.downcastRef t = firstOf t (r.places false)) ↔ r.OneWay t) := by
  obtain ⟨hcontains, hsome, hsame, hfirst, -⟩ := r.searches_agree t wrap
  refine ⟨r.places_held, ?_⟩
  rw [OneWay, ← oneRoot_iff t 0]
  constructor
  · rintro ⟨-, -, -, hwalk⟩
    exact hfirst.symm.trans hwalk
  · exact fun hwalk => ⟨hcontains, hsome, hsame, hfirst.trans hwalk⟩

def numbered (context : String) (n : Nat) : StaticFrame String (ContextFrame String ⊕ Nat) :=
  { StaticFrame.new (.new context here) with attachments := [.inr n] }

def numberTest : TypeTest String (ContextFrame String ⊕ Nat) := ⟨fun _ => false, Sum.isRight⟩

/-- Two peers with a number each are pushed and then demoted: the number of the older one is found,
though the walk comes to that of the newer one before. -/
theorem searches_find_the_older : ∃ r₁ r₂ r a₁ a₂ a₃,
    push 1 (Report.new "head" here) (numbered "older" 1) ⟨fun _ => true, 0⟩ =
        some (.ok (r₁, a₁)) ∧
      push 2 r₁ (numbered "newer" 2) a₁ = some (.ok (r₂, a₂)) ∧
      changeContext Sum.inl r₂ "request failed" here a₂ = .ok (r, a₃) ∧
      r.downcastRef numberTest = some (0, [2], .attachment 0) ∧
      r.item? (0, [2], .attachment 0) = some (.inr (.inr 1)) ∧
      firstOf numberTest (r.places false) = some (0, [1], .attachment 0) ∧
      r.downcastRef numberTest ≠ firstOf numberTest (r.places false) := by
  refine ⟨_, _, _, _, _, _, rfl, rfl, rfl, rfl, rfl, rfl, ?_⟩
  decide

end Report

end Rustyfill.Errors
