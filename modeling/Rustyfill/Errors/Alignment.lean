import Rustyfill.Errors.Seats

/-!
# When the siblings are those of the same depth

The position of a frame among all that is as deep is its position among its siblings exactly if no
two frames at one depth have children.
-/

namespace Rustyfill.Errors

set_option autoImplicit false

open Positions

variable {C I : Type}

/-- No two frames at the same depth have children. -/
def OneFamily (l : List (FrameRef C I × Nat)) : Prop :=
  l.Pairwise fun x y => x.1.children ≠ [] → y.1.children ≠ [] → x.2 ≠ y.2

/-- Neither a first nor a last sibling is taken for another one. -/
def Aligned (past : List (Spot C I)) (p : Spot C I) (post : List (Spot C I)) : Prop :=
  p.Dynamic → ((∀ x ∈ past, x.depth ≠ p.depth) ↔ p.earlier = false) ∧
    ((∀ x ∈ post, x.depth ≠ p.depth) ↔ p.later = false)

/-- Only lost peers have a marker. -/
def RootMarkers (l : List (FrameRef C I × Nat)) : Prop :=
  ∀ x ∈ l, ∀ n, x.1 = .lostFrames n → x.2 = 0

section
variable {counted : Bool} {l : List (Spot C I)}

theorem oneFamily_iff : OneFamily (l.map Spot.entry) ↔
    ∀ (past : List (Spot C I)) y post, l = past.reverse ++ y :: post → ∀ x ∈ past,
      x.frame.children ≠ [] → y.frame.children ≠ [] → x.depth ≠ y.depth := by
  rw [OneFamily, List.pairwise_map, pairwise_iff]
  rfl

theorem rootMarkers_iff : RootMarkers (l.map Spot.entry) ↔
    ∀ p ∈ l, ∀ n, p.frame = .lostFrames n → p.depth = 0 :=
  List.forall_mem_map

theorem nearest_of_mem {depth : Nat} {l : List (Spot C I)} {x : Spot C I} (h : x ∈ l)
    (hx : x.depth ≤ depth) : ∃ before y after, l = before ++ y :: after ∧ y.depth ≤ depth ∧
      nearest depth l = some y ∧ ∀ z ∈ before, depth < z.depth := by
  obtain ⟨y, hy⟩ : ∃ y, nearest depth l = some y :=
    Option.isSome_iff_exists.mp (List.find?_isSome.mpr ⟨x, h, decide_eq_true hx⟩)
  obtain ⟨before, after, hl, hbefore, hle⟩ := split_of_find? hy
  refine ⟨before, y, after, hl, of_decide_eq_true hle, hy, ?_⟩
  intro z hz
  exact Nat.lt_of_not_le (of_decide_eq_false (hbefore z hz))

theorem meets_split {depth : Nat} {l : List (Spot C I)} {P : Spot C I → Prop}
    (h : Meets depth l P) : ∃ before q after, l = before ++ q :: after ∧ q.depth = depth ∧ P q ∧
      ∀ z ∈ before, depth < z.depth := by
  obtain ⟨q, hq, hdepth, hP⟩ := h
  obtain ⟨before, after, hl, hbefore, -⟩ := split_of_find? hq
  refine ⟨before, q, after, hl, hdepth, hP, ?_⟩
  intro z hz
  exact Nat.lt_of_not_le (of_decide_eq_false (hbefore z hz))

theorem meets_mem {depth : Nat} {l : List (Spot C I)} {P : Spot C I → Prop}
    (h : Meets depth l P) : ∃ q ∈ l, q.depth = depth ∧ P q := by
  obtain ⟨before, q, after, rfl, hdepth, hP, -⟩ := meets_split h
  exact ⟨q, List.mem_append_right _ (List.mem_cons_self ..), hdepth, hP⟩

theorem meets_past {depth : Nat} {before : List (Spot C I)} (h : ∀ z ∈ before, depth < z.depth)
    (l : List (Spot C I)) (P : Spot C I → Prop) :
    Meets depth (before ++ l) P ↔ Meets depth l P := by
  rw [Meets, nearest, find?_append_of_forall]
  · rfl
  · intro z hz
    exact decide_eq_false (Nat.not_le.mpr (h z hz))

theorem mem_of_nearest {before : List (Spot C I)} {x y : Spot C I} {after : List (Spot C I)}
    {depth : Nat} (h : x ∈ before ++ y :: after) (hbefore : ∀ z ∈ before, depth < z.depth)
    (hy : y.depth < depth) (hx : x.depth = depth) : x ∈ after := by
  rw [List.mem_append, List.mem_cons] at h
  rcases h with h | rfl | h
  · exact absurd hx (Nat.ne_of_gt (hbefore x h))
  · exact absurd hx (Nat.ne_of_lt hy)
  · exact h

theorem meets_until {depth : Nat} {before : List (Spot C I)} {y : Spot C I}
    {after : List (Spot C I)} {P : Spot C I → Prop} (hy : y.depth ≤ depth)
    (h : Meets depth (before ++ y :: after) P) :
    ∃ q, (q = y ∨ q ∈ before) ∧ q.depth = depth ∧ P q := by
  induction before with
  | nil =>
    rw [List.nil_append, meets_cons_of_le hy] at h
    exact ⟨y, Or.inl rfl, h⟩
  | cons z before ih =>
    rw [List.cons_append] at h
    rcases Nat.lt_or_ge depth z.depth with hlt | hle
    · rw [meets_cons_of_lt hlt] at h
      obtain ⟨q, hq, hmeets⟩ := ih h
      exact ⟨q, hq.imp_right (List.mem_cons_of_mem _), hmeets⟩
    · rw [meets_cons_of_le hle] at h
      exact ⟨z, Or.inr (List.mem_cons_self ..), h⟩

section
variable (hseated : Everywhere (Seated counted) [] l []) (hfamily : OneFamily (l.map Spot.entry))
  {past post : List (Spot C I)} {p : Spot C I} (hl : l = past.reverse ++ p :: post)
include hseated hfamily hl

theorem earlier_sibling (hp : 0 < p.depth) {x : Spot C I} (hx : x ∈ past)
    (hdepth : x.depth = p.depth) : Meets p.depth past fun _ => True := by
  obtain ⟨before, y, after, hpast, hle, hnearest, hbefore⟩ :=
    nearest_of_mem hx (Nat.le_of_eq hdepth)
  rcases Nat.lt_or_eq_of_le hle with hlt | heq
  · -- then `y` is the parent, and `x` has another one
    have hafter : x ∈ after := by
      rw [hpast] at hx
      exact mem_of_nearest hx hbefore hlt hdepth
    have hparent := (everywhere_all.mp hseated past p post hl).parent hp
    have hdeep : ∀ z ∈ before, p.depth - 1 < z.depth :=
      fun z hz => Nat.lt_of_le_of_lt (Nat.sub_le _ _) (hbefore z hz)
    rw [hpast, meets_past hdeep, meets_cons_of_le (Nat.le_sub_one_of_lt hlt)] at hparent
    obtain ⟨a, b, rfl⟩ := List.append_of_mem hafter
    have hsplit : l = b.reverse ++ x :: (a.reverse ++ y :: (before.reverse ++ p :: post)) := by
      rw [hl, hpast]
      simp
    have hother := (everywhere_all.mp hseated b x _ hsplit).parent (hdepth ▸ hp)
    obtain ⟨q, hq, hqdepth, hqchildren⟩ := meets_mem hother
    refine absurd ?_ (oneFamily_iff.mp hfamily (a ++ x :: b) y (before.reverse ++ p :: post) ?_ q
      (List.mem_append_right _ (List.mem_cons_of_mem _ hq)) hqchildren hparent.2)
    · rw [hqdepth, hparent.1, hdepth]
    · rw [hl, hpast]
      simp
  · exact ⟨y, hnearest, heq, trivial⟩

theorem later_sibling (hp : 0 < p.depth) {x : Spot C I} (hx : x ∈ post)
    (hdepth : x.depth = p.depth) : ∃ y ∈ post, nearest p.depth post = some y ∧
      y.depth = p.depth := by
  obtain ⟨before, y, after, hpost, hle, hnearest, hbefore⟩ :=
    nearest_of_mem hx (Nat.le_of_eq hdepth)
  have hmem : y ∈ post := by
    rw [hpost]
    simp
  rcases Nat.lt_or_eq_of_le hle with hlt | heq
  · -- then `x` has a parent that comes after `p`
    have hafter : x ∈ after := by
      rw [hpost] at hx
      exact mem_of_nearest hx hbefore hlt hdepth
    obtain ⟨q, hq, hqdepth, hqchildren⟩ :=
      meets_mem ((everywhere_all.mp hseated past p post hl).parent hp)
    obtain ⟨a, b, rfl⟩ := List.append_of_mem hafter
    have hsplit : l = (a.reverse ++ y :: (before.reverse ++ p :: past)).reverse ++ x :: b := by
      rw [hl, hpost]
      simp
    have hother := (everywhere_all.mp hseated _ x b hsplit).parent (hdepth ▸ hp)
    rw [hdepth] at hother
    obtain ⟨q', hq', hq'depth, hq'children⟩ := meets_until (Nat.le_sub_one_of_lt hlt) hother
    have hq'post : q' ∈ post := by
      rw [hpost]
      rcases hq' with rfl | hq'
      · simp
      · rw [List.mem_reverse] at hq'
        simp [hq']
    obtain ⟨e, f, rfl⟩ := List.append_of_mem hq'post
    refine absurd ?_ (oneFamily_iff.mp hfamily (e.reverse ++ p :: past) q' f ?_ q
      (List.mem_append_right _ (List.mem_cons_of_mem _ hq)) hqchildren hq'children)
    · rw [hqdepth, hq'depth]
    · rw [hl]
      simp
  · exact ⟨y, hmem, hnearest, heq⟩

end

variable (hseated : Everywhere (Seated counted) [] l [])
include hseated

theorem aligned_of_oneFamily (hfamily : OneFamily (l.map Spot.entry))
    (hmarkers : counted = true ∨ RootMarkers (l.map Spot.entry)) :
    Everywhere Aligned [] l [] := by
  rw [everywhere_all]
  intro past p post hl hdynamic
  have hp := everywhere_all.mp hseated past p post hl
  have hpos := hp.deeper hdynamic
  constructor
  · rw [← Bool.not_eq_true, hp.earlier hdynamic]
    constructor
    · intro hall hmeets
      obtain ⟨q, hq, hdepth, -⟩ := meets_mem hmeets
      exact hall q hq hdepth
    · intro hnot x hx hdepth
      exact hnot (earlier_sibling hseated hfamily hl hpos hx hdepth)
  · rw [← Bool.not_eq_true, hp.later hdynamic]
    constructor
    · intro hall hmeets
      obtain ⟨q, hq, hdepth, -⟩ := meets_mem hmeets
      exact hall q hq hdepth
    · intro hnot x hx hdepth
      obtain ⟨y, hy, hnearest, hydepth⟩ := later_sibling hseated hfamily hl hpos hx hdepth
      refine hnot ⟨y, hnearest, hydepth, ?_⟩
      obtain ⟨a, b, rfl⟩ := List.append_of_mem hy
      have hsplit : l = (a.reverse ++ p :: past).reverse ++ y :: b := by
        rw [hl]
        simp
      rcases hframe : y.frame with sf | df | n
      · have hroot := ((everywhere_all.mp hseated _ y b hsplit).root sf hframe).1
        omega
      · exact Or.inr ⟨df, hframe⟩
      · refine Or.inl (hmarkers.resolve_right (fun hroots => ?_))
        have hzero := rootMarkers_iff.mp hroots y (by rw [hsplit]; simp) n hframe
        omega

theorem oneFamily_of_aligned (haligned : Everywhere Aligned [] l []) :
    OneFamily (l.map Spot.entry) := by
  rw [oneFamily_iff]
  intro past y post hl x hx hxchildren hychildren hdepth
  obtain ⟨c, hc, hcdynamic, hcdepth⟩ :=
    (everywhere_all.mp hseated past y post hl).child hychildren
  obtain ⟨post, rfl⟩ := List.head?_eq_some_iff.mp hc
  obtain ⟨a, b, rfl⟩ := List.append_of_mem hx
  have hsplit : l = b.reverse ++ x :: (a.reverse ++ y :: c :: post) := by
    rw [hl]
    simp
  obtain ⟨c', hc', -, hc'depth⟩ := (everywhere_all.mp hseated b x _ hsplit).child hxchildren
  -- the first child of `x` comes before that of `y`
  have hmem : c' ∈ a := by
    rw [List.head?_append] at hc'
    rcases ha : a.reverse with _ | ⟨z, a'⟩
    · rw [ha] at hc'
      cases hc'
      omega
    · rw [ha] at hc'
      cases hc'
      rw [← List.mem_reverse, ha]
      exact List.mem_cons_self ..
  have hsplit' : l = (y :: (a ++ x :: b)).reverse ++ c :: post := by
    rw [hl]
    simp
  have hcseat := everywhere_all.mp hseated _ c post hsplit'
  have hfirst : c.earlier = false := by
    rw [← Bool.not_eq_true, hcseat.earlier hcdynamic, hcdepth,
      meets_cons_of_le (Nat.le_succ _)]
    exact fun h => Nat.succ_ne_self _ h.1.symm
  refine ((everywhere_all.mp haligned _ c post hsplit' hcdynamic).1.mpr hfirst) c' ?_ ?_
  · exact List.mem_cons_of_mem _ (List.mem_append_left _ hmem)
  · rw [hc'depth, hcdepth, hdepth]

theorem rootMarkers_of_aligned (haligned : Everywhere Aligned [] l [])
    (hcounted : counted = false) : RootMarkers (l.map Spot.entry) := by
  rw [rootMarkers_iff]
  intro p hp n hframe
  obtain ⟨a, post, rfl⟩ := List.append_of_mem hp
  rcases Nat.eq_zero_or_pos p.depth with hzero | hpos
  · exact hzero
  have hsplit : a ++ p :: post = a.reverse.reverse ++ p :: post := by rw [List.reverse_reverse]
  obtain ⟨before, q, after, ha, hdepth, hdynamic, hbefore⟩ :=
    meets_split ((everywhere_all.mp hseated _ p post hsplit).marker n hframe hpos)
  have hsplit' : a ++ p :: post = after.reverse ++ q :: (before.reverse ++ p :: post) := by
    rw [hsplit, ha]
    simp
  have hq := everywhere_all.mp hseated after q _ hsplit'
  -- the marker is no sibling, and so `q` is the last one
  have hlast : q.later = false := by
    rw [← Bool.not_eq_true, hq.later hdynamic, hdepth, meets_past, meets_cons rfl]
    · rintro (hcount | ⟨df, hdf⟩)
      · rw [hcounted] at hcount
        exact Bool.false_ne_true hcount
      · rw [hframe] at hdf
        cases hdf
    · intro z hz
      exact hbefore z (List.mem_reverse.mp hz)
  have hnone := (everywhere_all.mp haligned after q _ hsplit' hdynamic).2.mpr hlast
  refine absurd hdepth.symm (hnone p ?_)
  simp

theorem aligned_iff : Everywhere Aligned [] l [] ↔
    OneFamily (l.map Spot.entry) ∧ (counted = true ∨ RootMarkers (l.map Spot.entry)) := by
  constructor
  · intro haligned
    refine ⟨oneFamily_of_aligned hseated haligned, ?_⟩
    cases hcounted : counted with
    | true => exact Or.inl rfl
    | false => exact Or.inr (rootMarkers_of_aligned hseated haligned hcounted)
  · intro h
    exact aligned_of_oneFamily hseated h.1 h.2

end

end Rustyfill.Errors
