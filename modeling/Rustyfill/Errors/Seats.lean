import Rustyfill.Errors.Spots

/-!
# Where the spots stand in the list

The parent, the siblings and the ancestors of a frame are found in the list of all frames by
their depth: the nearest one before or after it that is not deeper.
-/

namespace Rustyfill.Errors

set_option autoImplicit false

open Positions

variable {C I : Type}

def nearest (depth : Nat) (l : List (Spot C I)) : Option (Spot C I) :=
  l.find? fun p => p.depth ≤ depth

theorem nearest_cons_of_le {depth : Nat} {p : Spot C I} (h : p.depth ≤ depth)
    (l : List (Spot C I)) : nearest depth (p :: l) = some p :=
  List.find?_cons_of_pos (decide_eq_true h)

theorem nearest_cons_of_lt {depth : Nat} {p : Spot C I} (h : depth < p.depth)
    (l : List (Spot C I)) : nearest depth (p :: l) = nearest depth l := by
  apply List.find?_cons_of_neg
  rw [decide_eq_true_eq]
  exact Nat.not_le.mpr h

theorem nearest_append {depth k : Nat} {l : List (Spot C I)} (h : Deep depth l) (hk : k ≤ depth)
    (l' : List (Spot C I)) : nearest k (l ++ l') = nearest k l' := by
  apply find?_append_of_forall
  intro p hp
  rw [decide_eq_false_iff_not]
  exact Nat.not_le.mpr (Nat.lt_of_le_of_lt hk (h p hp).1)

/-- The nearest one is at the depth itself. -/
def Meets (depth : Nat) (l : List (Spot C I)) (P : Spot C I → Prop) : Prop :=
  ∃ q, nearest depth l = some q ∧ q.depth = depth ∧ P q

theorem meets_cons_of_lt {depth : Nat} {p : Spot C I} (h : depth < p.depth)
    (l : List (Spot C I)) (P : Spot C I → Prop) : Meets depth (p :: l) P ↔ Meets depth l P := by
  rw [Meets, nearest_cons_of_lt h]
  rfl

theorem meets_cons_of_le {depth : Nat} {p : Spot C I} (h : p.depth ≤ depth)
    (l : List (Spot C I)) (P : Spot C I → Prop) :
    Meets depth (p :: l) P ↔ p.depth = depth ∧ P p := by
  rw [Meets, nearest_cons_of_le h]
  constructor
  · rintro ⟨q, hq, hmeets⟩
    cases hq
    exact hmeets
  · intro hmeets
    exact ⟨p, rfl, hmeets⟩

theorem meets_cons {depth : Nat} {p : Spot C I} (h : p.depth = depth) (l : List (Spot C I))
    (P : Spot C I → Prop) : Meets depth (p :: l) P ↔ P p := by
  rw [meets_cons_of_le (Nat.le_of_eq h), and_iff_right h]

theorem meets_append {depth k : Nat} {l : List (Spot C I)} (h : Deep depth l) (hk : k ≤ depth)
    (l' : List (Spot C I)) (P : Spot C I → Prop) : Meets k (l ++ l') P ↔ Meets k l' P := by
  rw [Meets, nearest_append h hk]
  rfl

theorem not_meets {depth : Nat} {l : List (Spot C I)} {P : Spot C I → Prop}
    (h : ∀ p ∈ l.head?, p.depth < depth) : ¬ Meets depth l P := by
  cases l with
  | nil => exact fun ⟨q, hq, _⟩ => nomatch hq
  | cons p l =>
    have hp := h p rfl
    rw [meets_cons_of_le (Nat.le_of_lt hp)]
    exact fun hmeets => Nat.ne_of_lt hp hmeets.1

theorem Deep.reverse {depth : Nat} {l : List (Spot C I)} (h : Deep depth l) :
    Deep depth l.reverse :=
  fun p hp => h p (List.mem_reverse.mp hp)

/-! ## What a spot says of the list -/

section
variable (counted : Bool)

/-- What can be a later sibling. -/
def Counts (q : Spot C I) : Prop := counted = true ∨ q.Dynamic

structure Seated (past : List (Spot C I)) (p : Spot C I) (post : List (Spot C I)) : Prop where
  length : p.columns.length = p.depth - 1
  column : ∀ k later, p.columns[k]? = some later →
    Meets (k + 1) past fun q => q.Dynamic ∧ q.later = later
  parent : 0 < p.depth → Meets (p.depth - 1) past fun q => q.frame.children ≠ []
  earlier : p.Dynamic → (p.earlier = true ↔ Meets p.depth past fun _ => True)
  later : p.Dynamic → (p.later = true ↔ Meets p.depth post (Counts counted))
  child : p.frame.children ≠ [] → ∃ q ∈ post.head?, q.Dynamic ∧ q.depth = p.depth + 1
  root : ∀ sf, p.frame = .static sf → p.depth = 0 ∧ (p.earlier = false ↔ past = []) ∧
    (sf.children = [] → (p.later = true ↔ ∃ q ∈ post.head?, q.depth = 0 ∧
      ∃ n, q.frame = .lostFrames n))
  marker : ∀ n, p.frame = .lostFrames n → 0 < p.depth → Meets p.depth past Spot.Dynamic
  deeper : p.Dynamic → 0 < p.depth

/-- The ancestors of siblings, as the list before them has them. -/
structure Under (past : List (Spot C I)) (columns : List Bool) : Prop where
  column : ∀ k later, columns[k]? = some later →
    Meets (k + 1) past fun q => q.Dynamic ∧ q.later = later
  parent : Meets columns.length past fun q => q.frame.children ≠ []

variable {counted}

theorem Under.append {past l : List (Spot C I)} {columns : List Bool} (h : Under past columns)
    (hl : Deep columns.length l) : Under (l ++ past) columns where
  column := fun k later hk => by
    have hlen := (List.getElem?_eq_some_iff.mp hk).1
    rw [meets_append hl (Nat.succ_le_of_lt hlen)]
    exact h.column k later hk
  parent := by
    rw [meets_append hl (Nat.le_refl _)]
    exact h.parent

theorem Under.down {past : List (Spot C I)} {columns : List Bool} (h : Under past columns)
    {df : DynamicFrame I} (hchildren : df.children ≠ []) (earlier later : Bool) :
    Under ((⟨.dynamic df, columns.length + 1, columns, earlier, later⟩ : Spot C I) :: past)
      (columns ++ [later]) where
  column := fun k later' hk => by
    rcases Nat.lt_or_ge k columns.length with hlt | hge
    · rw [List.getElem?_append_left hlt] at hk
      rw [meets_cons_of_lt (Nat.succ_lt_succ hlt)]
      exact h.column k later' hk
    · have hlen := (List.getElem?_eq_some_iff.mp hk).1
      rw [List.length_append, List.length_singleton] at hlen
      obtain rfl : k = columns.length := by omega
      rw [List.getElem?_append_right (Nat.le_refl _), Nat.sub_self] at hk
      cases hk
      exact (meets_cons rfl _ _).mpr ⟨⟨df, rfl⟩, rfl⟩
  parent := by
    rw [List.length_append]
    exact (meets_cons rfl _ _).mpr hchildren

theorem head_spotsAll {columns : List Bool} {earlier : Bool} {lost : Nat}
    {l : List (DynamicFrame I)} (h : l ≠ []) :
    ∃ q ∈ (spotsAll counted columns earlier lost l : List (Spot C I)).head?,
      q.Dynamic ∧ q.depth = columns.length + 1 := by
  cases l with
  | nil => exact absurd rfl h
  | cons df rest =>
    rw [spotsAll, DynamicFrame.spots_eq]
    exact ⟨_, rfl, ⟨df, rfl⟩, rfl⟩

theorem last_spotsAll (past : List (Spot C I)) (columns : List Bool) (earlier : Bool)
    (lost : Nat) {l : List (DynamicFrame I)} (h : l ≠ []) :
    Meets (columns.length + 1) ((spotsAll counted columns earlier lost l).reverse ++ past)
      Spot.Dynamic := by
  induction l generalizing past earlier with
  | nil => exact absurd rfl h
  | cons df rest ih =>
    rw [spotsAll, List.reverse_append, List.append_assoc]
    cases rest with
    | nil =>
      rw [spotsAll, DynamicFrame.spots_eq, List.reverse_cons, List.append_assoc,
        List.reverse_nil, List.nil_append, meets_append (below_deep _ _ _ _).reverse
        (Nat.le_refl _), List.singleton_append]
      exact (meets_cons rfl _ _).mpr ⟨df, rfl⟩
    | cons df' rest => exact ih _ true (List.cons_ne_nil _ _)

theorem lostSpot_seated {past : List (Spot C I)} {columns : List Bool} (h : Under past columns)
    (lost : Nat) (post : List (Spot C I)) (hmarker : Meets (columns.length + 1) past Spot.Dynamic) :
    Everywhere (Seated counted) past (lostSpot (columns.length + 1) columns lost) post := by
  unfold lostSpot
  split
  · refine ⟨?_, trivial⟩
    exact {
      length := rfl
      column := h.column
      parent := fun _ => h.parent
      earlier := fun ⟨df, hdf⟩ => nomatch hdf
      later := fun ⟨df, hdf⟩ => nomatch hdf
      child := fun hne => absurd rfl hne
      root := fun sf hsf => nomatch hsf
      marker := fun _ _ _ => hmarker
      deeper := fun ⟨df, hdf⟩ => nomatch hdf }
  · trivial

/-- What comes after siblings: the marker, or something further up. -/
theorem meets_lostSpot {columns : List Bool} {lost : Nat} {post : List (Spot C I)}
    (h : ∀ p ∈ post.head?, p.depth < columns.length + 1) :
    (counted && 0 < lost) = true ↔
      Meets (columns.length + 1) (lostSpot (columns.length + 1) columns lost ++ post)
        (Counts counted) := by
  unfold lostSpot
  by_cases hlost : 0 < lost
  · rw [if_pos hlost, List.singleton_append, decide_eq_true hlost, Bool.and_true]
    refine Iff.trans ?_ (meets_cons rfl _ _).symm
    refine (or_iff_left ?_).symm
    exact fun ⟨df, hdf⟩ => nomatch hdf
  · rw [if_neg hlost, List.nil_append, decide_eq_false hlost, Bool.and_false]
    exact iff_of_false Bool.false_ne_true (not_meets h)

theorem levelSpots_seated {past : List (Spot C I)} {columns : List Bool}
    {children : List (DynamicFrame I)} {lost : Nat} {post : List (Spot C I)}
    (hunder : children ≠ [] → Under past columns)
    (hall : children ≠ [] → ∀ post', ((counted && 0 < lost) = true ↔
        Meets (columns.length + 1) post' (Counts counted)) →
      (∀ p ∈ post'.head?, p.depth ≤ columns.length + 1) →
      Everywhere (Seated counted) past (spotsAll counted columns false lost children) post')
    (hpost : ∀ p ∈ post.head?, p.depth < columns.length + 1) :
    Everywhere (Seated counted) past (levelSpots counted columns children lost) post := by
  by_cases hne : children = []
  · rw [hne, levelSpots_nil]
    trivial
  · rw [levelSpots_of_ne hne, everywhere_append]
    constructor
    · apply hall hne _ (meets_lostSpot hpost)
      unfold lostSpot
      split
      · intro p hp
        cases hp
        exact Nat.le_refl _
      · intro p hp
        exact Nat.le_of_lt (hpost p hp)
    · apply lostSpot_seated
      · exact (hunder hne).append (spotsAll_deep columns false lost children).reverse
      · exact last_spotsAll past columns false lost hne

theorem child_level {columns : List Bool} {children : List (DynamicFrame I)} {lost : Nat}
    (h : children ≠ []) (post : List (Spot C I)) :
    ∃ q ∈ (levelSpots counted columns children lost ++ post).head?,
      q.Dynamic ∧ q.depth = columns.length + 1 := by
  obtain ⟨q, hq, hchild⟩ := @head_spotsAll C I counted columns false lost children h
  refine ⟨q, ?_, hchild⟩
  rw [levelSpots_of_ne h, List.append_assoc, List.head?_append, hq]
  rfl

mutual

theorem DynamicFrame.spots_seated {past post : List (Spot C I)} {columns : List Bool}
    {earlier later : Bool} (hunder : Under past columns)
    (hearlier : earlier = true ↔ Meets (columns.length + 1) past fun _ => True)
    (hlater : later = true ↔ Meets (columns.length + 1) post (Counts counted))
    (hpost : ∀ p ∈ post.head?, p.depth ≤ columns.length + 1) : ∀ df : DynamicFrame I,
      Everywhere (Seated counted) past (df.spots counted columns earlier later) post
  | ⟨context, attachments, children, lostAttachments, lostChildren⟩ => by
    rw [DynamicFrame.spots_eq]
    have hdown := fun hne => @Under.down C I past columns hunder
      ⟨context, attachments, children, lostAttachments, lostChildren⟩ hne earlier later
    constructor
    · exact {
        length := rfl
        column := hunder.column
        parent := fun _ => hunder.parent
        earlier := fun _ => hearlier
        later := fun _ => by
          rw [meets_append (below_deep _ _ _ _) (Nat.le_refl _)]
          exact hlater
        child := fun hne => by
          have hlevel :=
            @child_level C I counted (columns ++ [later]) children lostChildren hne post
          rw [List.length_append] at hlevel
          exact hlevel
        root := fun sf hsf => nomatch hsf
        marker := fun n hn => nomatch hn
        deeper := fun _ => Nat.succ_pos _ }
    · apply levelSpots_seated hdown
      · intro hne post' hlast hhead
        apply spotsAll_seated (hdown hne) _ hlast hhead children
        refine iff_of_false Bool.false_ne_true (not_meets ?_)
        intro p hp
        cases hp
        rw [List.length_append]
        exact Nat.lt_succ_self _
      · intro p hp
        rw [List.length_append]
        exact Nat.lt_succ_of_le (hpost p hp)

theorem spotsAll_seated {past post : List (Spot C I)} {columns : List Bool} {earlier : Bool}
    {lost : Nat} (hunder : Under past columns)
    (hearlier : earlier = true ↔ Meets (columns.length + 1) past fun _ => True)
    (hlast : (counted && 0 < lost) = true ↔ Meets (columns.length + 1) post (Counts counted))
    (hpost : ∀ p ∈ post.head?, p.depth ≤ columns.length + 1) : ∀ l : List (DynamicFrame I),
      Everywhere (Seated counted) past (spotsAll counted columns earlier lost l) post
  | [] => by
    rw [spotsAll]
    trivial
  | df :: rest => by
    rw [spotsAll, everywhere_append]
    have hdeep := @DynamicFrame.spots_deep C I counted columns earlier
      (!rest.isEmpty || counted && 0 < lost) df
    constructor
    · cases rest with
      | nil =>
        rw [spotsAll]
        exact df.spots_seated hunder hearlier hlast hpost
      | cons df' rest =>
        obtain ⟨q, hq, hdynamic, hdepth⟩ := @head_spotsAll C I counted columns true lost
          (df' :: rest) (List.cons_ne_nil _ _)
        obtain ⟨l, hl⟩ : ∃ l, spotsAll counted columns true lost (df' :: rest) = q :: l :=
          List.head?_eq_some_iff.mp hq
        rw [hl, List.cons_append]
        apply df.spots_seated hunder hearlier
        · rw [meets_cons hdepth]
          exact iff_of_true rfl (Or.inr hdynamic)
        · intro p hp
          cases hp
          exact Nat.le_of_eq hdepth
    · apply spotsAll_seated (hunder.append hdeep.reverse) _ hlast hpost rest
      rw [DynamicFrame.spots_eq, List.reverse_cons, List.append_assoc,
        meets_append (below_deep _ _ _ _).reverse (Nat.le_refl _), List.singleton_append]
      exact iff_of_true rfl ((meets_cons rfl _ _).mpr trivial)

end

theorem head_rootSpots {lostPeers : Nat} {earlier : Bool} {roots : List (StaticFrame C I)} :
    ∀ p ∈ (rootSpots counted lostPeers earlier roots).head?, p.depth = 0 := by
  cases roots with
  | nil =>
    rw [rootSpots, lostSpot]
    split
    · intro p hp
      cases hp
      rfl
    · intro p hp
      cases hp
  | cons sf rest =>
    intro p hp
    cases hp
    rfl

/-- The count of the lost peers comes at once after the last frame at the root, or not at all. -/
theorem marked_iff (lostPeers : Nat) (rest : List (StaticFrame C I)) :
    (rest.isEmpty && 0 < lostPeers) = true ↔
      ∃ q ∈ (rootSpots counted lostPeers true rest).head?, q.depth = 0 ∧
        ∃ n, q.frame = .lostFrames n := by
  cases rest with
  | nil =>
    rw [rootSpots, lostSpot, List.isEmpty_nil, Bool.true_and, decide_eq_true_iff]
    split
    · next hpos => exact iff_of_true hpos ⟨_, rfl, rfl, _, rfl⟩
    · next hzero =>
      refine iff_of_false hzero ?_
      rintro ⟨q, hq, -⟩
      cases hq
  | cons sf rest =>
    refine iff_of_false Bool.false_ne_true ?_
    rintro ⟨q, hq, -, n, hn⟩
    cases hq
    cases hn

theorem Under.root {sf : StaticFrame C I} (h : sf.children ≠ []) (past : List (Spot C I))
    (earlier later : Bool) :
    Under ((⟨.static sf, 0, [], earlier, later⟩ : Spot C I) :: past) [] where
  column := fun k later hk => nomatch hk
  parent := by
    refine (meets_cons ?_ _ _).mpr h
    rfl

theorem rootSpots_seated (lostPeers : Nat) {past : List (Spot C I)} {earlier : Bool}
    (h : earlier = false ↔ past = []) (roots : List (StaticFrame C I)) :
    Everywhere (Seated counted) past (rootSpots counted lostPeers earlier roots) [] := by
  induction roots generalizing past earlier with
  | nil =>
    rw [rootSpots]
    unfold lostSpot
    split
    · refine ⟨?_, trivial⟩
      exact {
        length := rfl
        column := fun k later hk => by cases hk
        parent := fun hpos => absurd hpos (Nat.lt_irrefl 0)
        earlier := by
          rintro ⟨df, hdf⟩
          cases hdf
        later := by
          rintro ⟨df, hdf⟩
          cases hdf
        child := fun hne => absurd rfl hne
        root := fun sf hsf => by cases hsf
        marker := fun _ _ hpos => absurd hpos (Nat.lt_irrefl 0)
        deeper := by
          rintro ⟨df, hdf⟩
          cases hdf }
    · trivial
  | cons sf rest ih =>
    rw [rootSpots, Everywhere, everywhere_append]
    refine ⟨?_, ?_, ?_⟩
    · exact {
        length := rfl
        column := fun k later hk => by cases hk
        parent := fun hpos => absurd hpos (Nat.lt_irrefl 0)
        earlier := by
          rintro ⟨df, hdf⟩
          cases hdf
        later := by
          rintro ⟨df, hdf⟩
          cases hdf
        child := fun hne => by
          rw [List.append_assoc]
          exact child_level hne _
        root := fun sf' hsf => by
          cases hsf
          refine ⟨rfl, h, fun hnone => ?_⟩
          rw [hnone, levelSpots_nil, List.nil_append, List.append_nil]
          exact marked_iff lostPeers rest
        marker := fun n hn => by cases hn
        deeper := by
          rintro ⟨df, hdf⟩
          cases hdf }
    · apply levelSpots_seated
      · intro hne
        exact Under.root hne past _ _
      · intro hne post' hlast hhead
        apply spotsAll_seated (Under.root hne past _ _) _ hlast hhead
        refine iff_of_false Bool.false_ne_true (not_meets ?_)
        intro p hp
        cases hp
        exact Nat.one_pos
      · intro p hp
        rw [List.append_nil] at hp
        rw [head_rootSpots p hp]
        exact Nat.succ_pos _
    · apply ih
      simp

theorem Report.spots_seated (r : Report C I) :
    Everywhere (Seated counted) [] (r.spots counted) [] :=
  rootSpots_seated r.lostPeers (iff_of_true rfl rfl) (r.head :: r.peers.items)

end

end Rustyfill.Errors
