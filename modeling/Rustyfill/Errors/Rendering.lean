import Mathlib.Data.List.GetD
import Rustyfill.Errors.Alignment
import Rustyfill.Errors.Groups
import Rustyfill.Errors.Markers

/-!
# What a report is rendered as

The columns are shared by the whole report, and are never opened again: a column is shut by the
last frame at its depth. So the picture is that of the tree only where a level has no other
children than those of one frame, and where nothing follows the lines that end a group.
-/

namespace Rustyfill.Errors

set_option autoImplicit false

open Positions

variable {C I : Type}

/-! ## Columns -/

/-- The column of the frames at a depth is shut, `k` levels below the root. -/
def Shut (past post : List (Spot C I)) (k : Nat) : Prop :=
  (∀ x ∈ post, x.depth ≠ k + 1) ∧ ∃ q, past.find? (fun x => x.depth = k + 1) = some q ∧ q.Dynamic

section
variable {past post : List (Spot C I)} {p : Spot C I} {k : Nat}

theorem shut_of_ne (h : p.depth ≠ k + 1) : Shut (p :: past) post k ↔ Shut past (p :: post) k := by
  rw [Shut, Shut, List.find?_cons_of_neg (by simpa using h), List.forall_mem_cons, and_iff_right h]

theorem shut_of_eq (h : p.depth = k + 1) :
    Shut (p :: past) post k ↔ p.Dynamic ∧ ∀ x ∈ post, x.depth ≠ k + 1 := by
  rw [Shut, List.find?_cons_of_pos (by simpa using h), and_comm]
  constructor
  · rintro ⟨⟨q, hq, hdynamic⟩, hpost⟩
    cases hq
    exact ⟨hdynamic, hpost⟩
  · rintro ⟨hdynamic, hpost⟩
    exact ⟨⟨p, rfl, hdynamic⟩, hpost⟩

/-- The flags are those of the frames before. -/
def Flags (continuing : Buffer Bool) (past post : List (Spot C I)) : Prop :=
  ∀ k, continuing.items.getD k true = false ↔ Shut past post k

end

section
variable {α : Type} [RawVec α] {c : Buffer α} {a : Allocator}

theorem tryPushBack_granted (hg : ∀ n, a.grants n = true) (value : α) :
    ∃ c' a', c.tryPushBackGiveBack value a = (.ok (), c', a') ∧ c'.items = c.items ++ [value] ∧
      ∀ n, a'.grants n = true := by
  rcases Nat.lt_or_ge (c.capacity - c.items.length) 1 with hfull | hroom
  · rw [Buffer.tryPushBackGiveBack, Buffer.tryReserve_granted hfull (hg _)]
    exact ⟨_, _, rfl, rfl, hg⟩
  · rw [Buffer.tryPushBackGiveBack, Buffer.tryReserve_room hroom]
    exact ⟨_, _, rfl, rfl, hg⟩

end

section
variable {a : Allocator}

theorem extendLoop_granted (hg : ∀ n, a.grants n = true) (continuing : Buffer Bool) (n : Nat) :
    ∃ c a', extendLoop n continuing a = (c, a') ∧
      c.items = continuing.items ++ List.replicate n true ∧ ∀ n, a'.grants n = true := by
  induction n generalizing continuing a with
  | zero => exact ⟨continuing, a, rfl, (List.append_nil _).symm, hg⟩
  | succ n ih =>
    obtain ⟨c, a₁, hpush, hitems, hg₁⟩ := @tryPushBack_granted Bool _ continuing a hg true
    obtain ⟨c', a₂, hloop, hitems', hg₂⟩ := ih hg₁ c
    refine ⟨c', a₂, ?_, ?_, hg₂⟩
    · rw [extendLoop, hpush]
      exact hloop
    · rw [hitems', hitems, List.append_assoc]
      rfl

theorem extendContinuing_granted (hg : ∀ n, a.grants n = true) (continuing : Buffer Bool)
    (depth : Nat) : ∃ c a', extendContinuing continuing depth a = (c, a') ∧
      (∀ n, a'.grants n = true) ∧
      (∀ k, c.items.getD k true = continuing.items.getD k true) ∧ depth - 1 < c.items.length := by
  obtain ⟨c, a', hloop, hitems, hg'⟩ :=
    extendLoop_granted hg continuing (depth - 1 + 1 - continuing.items.length)
  refine ⟨c, a', hloop, hg', fun k => ?_, ?_⟩
  · rw [hitems]
    rcases Nat.lt_or_ge k continuing.items.length with hlt | hge
    · exact List.getD_append _ _ _ _ hlt
    · rw [List.getD_append_right _ _ _ _ hge, List.getD_eq_default _ _ hge,
        List.getD_eq_getElem?_getD, List.getElem?_getD_replicate_default_eq]
  · rw [hitems, List.length_append, List.length_replicate]
    omega

theorem markLastAt_getD {continuing : Buffer Bool} {depth : Nat}
    (h : depth - 1 < continuing.items.length) (k : Nat) :
    (markLastAt continuing depth).items.getD k true =
      if k = depth - 1 then false else continuing.items.getD k true := by
  rw [markLastAt, List.getD_eq_getElem?_getD, List.getElem?_set]
  by_cases hk : k = depth - 1
  · rw [if_pos hk, if_pos hk.symm, if_pos h]
    rfl
  · rw [if_neg hk, if_neg (Ne.symm hk), List.getD_eq_getElem?_getD]

theorem writeIndent_eq_iff {continuing : Buffer Bool} {depth : Nat} {columns : List Bool}
    (h : columns.length = depth - 1) : writeIndent continuing depth = columns ↔
      ∀ k b, columns[k]? = some b → (continuing.items.getD k true = false ↔ b = false) := by
  rw [writeIndent, List.ext_getElem?_iff]
  constructor
  · intro hall k b hb
    have hk := (List.getElem?_eq_some_iff.mp hb).1
    have hsame := hall k
    rw [hb, List.getElem?_map, List.getElem?_range (by omega), Option.map_some,
      Option.some.injEq] at hsame
    rw [hsame]
  · intro hall k
    rcases Nat.lt_or_ge k (depth - 1) with hlt | hge
    · have hk := List.getElem?_eq_getElem (show k < columns.length by omega)
      rw [List.getElem?_map, List.getElem?_range hlt, Option.map_some, hk, Option.some.injEq]
      exact Bool.eq_iff_iff.mpr (by simpa using not_congr (hall k _ hk))
    · rw [List.getElem?_eq_none (by simpa using hge), List.getElem?_eq_none (by omega)]

end

/-! ## One frame -/

namespace FrameRef

def attachments : FrameRef C I → List I
  | static sf => sf.attachments
  | dynamic df => df.attachments
  | lostFrames _ => []

end FrameRef

/-- Every ancestor column is shut exactly if the ancestor has no later sibling. -/
def Straight (past : List (Spot C I)) (p : Spot C I) (post : List (Spot C I)) : Prop :=
  ∀ k later, p.columns[k]? = some later → (Shut (p :: past) post k ↔ later = false)

section
variable (d : Displays C I)

/-- What a frame has to be like to be drawn as it should be. -/
def Right (past : List (Spot C I)) (p : Spot C I) (post : List (Spot C I)) : Prop :=
  match p.frame with
  | .static sf => sf.Closed p.earlier p.later
  | .dynamic df => Aligned past p post ∧ Straight past p post ∧ df.Closed d
  | .lostFrames _ => Straight past p post

end

section
variable {d : Displays C I} {past post : List (Spot C I)} {p : Spot C I}
  {continuing : Buffer Bool} {a : Allocator}

def Spot.item (p : Spot C I) : Item C I := .ok p.entry

theorem siblings_iff (l : List (Spot C I)) (depth : Nat) :
    ((l.map Spot.item).filter fun x => depthOf x = depth).length = 0 ↔
      ∀ x ∈ l, x.depth ≠ depth := by
  rw [List.length_eq_zero_iff, List.filter_eq_nil_iff, List.forall_mem_map]
  simp only [decide_eq_true_eq]
  rfl

theorem Flags.skip (h : Flags continuing past (p :: post)) {k : Nat} (hk : p.depth ≠ k + 1) :
    continuing.items.getD k true = false ↔ Shut (p :: past) post k := by
  rw [shut_of_ne hk]
  exact h k

theorem rootMarker_iff : (post.map Spot.item).head?.any isRootMarker = true ↔
    ∃ q ∈ post.head?, q.depth = 0 ∧ ∃ n, q.frame = .lostFrames n := by
  cases post with
  | nil => exact iff_of_false Bool.false_ne_true (fun ⟨q, hq, _⟩ => nomatch hq)
  | cons q post =>
    obtain ⟨frame, depth, columns, earlier, later⟩ := q
    cases frame with
    | static sf =>
      apply iff_of_false Bool.false_ne_true
      rintro ⟨q, hq, _, n, hn⟩
      cases hq
      cases hn
    | dynamic df =>
      apply iff_of_false Bool.false_ne_true
      rintro ⟨q, hq, _, n, hn⟩
      cases hq
      cases hn
    | lostFrames n =>
      simp [Spot.item, Spot.entry, isRootMarker]

theorem staticFrame_closed_iff {sf : StaticFrame C I} {earlier later lostFramesFollow : Bool}
    (h : sf.children = [] → lostFramesFollow = later) : sf.Closed earlier later ↔
      (sf.attachments ≠ [] → (!sf.children.isEmpty || later) = false) ∧
        (sf.attachments = [] →
          sf.branches (!earlier) lostFramesFollow = (!sf.children.isEmpty || later)) := by
  rw [StaticFrame.Closed, StaticFrame.branches]
  refine and_congr (imp_congr_right fun _ => ?_) (imp_congr_right fun _ => ?_)
  · rw [Bool.or_eq_false_iff, Bool.not_eq_false', List.isEmpty_iff]
  · by_cases hchildren : sf.children = []
    · rw [h hchildren, hchildren, List.isEmpty_nil, Bool.not_not, Bool.not_true, Bool.false_or,
        Bool.false_or]
      cases earlier <;> cases later <;> simp
    · rw [List.isEmpty_eq_false_iff.mpr hchildren]
      simp [hchildren]

/-- A frame at the root is drawn as it should be if it is closed. -/
theorem drawFrame_static {sf : StaticFrame C I} (hp : p.frame = .static sf)
    {counted : Bool} (hseat : Seated counted past p post) (hd : Printed d p.frame.attachments)
    (hflags : Flags continuing past (p :: post)) (hg : ∀ n, a.grants n = true) :
    ∃ lines c a', drawFrame d (past.map Spot.item) p.item (post.map Spot.item) continuing a =
        .ok (lines, c, a') ∧ (∀ n, a'.grants n = true) ∧ Flags c (p :: past) post ∧
      (Drawn p lines ↔ Right d past p post) := by
  obtain ⟨hdepth, hearlier, hlater⟩ := hseat.root sf hp
  have hitem : p.item = .ok (.static sf, p.depth) := by rw [Spot.item, Spot.entry, hp]
  have hcolumns : p.columns = [] := by
    rw [← List.length_eq_zero_iff, hseat.length, hdepth]
  rw [hp] at hd
  have hhead : (decide (p.depth = 0) && (past.map Spot.item).isEmpty) = !p.earlier := by
    rw [hdepth, decide_eq_true rfl, Bool.true_and, Bool.eq_iff_iff, Bool.not_eq_true', hearlier]
    simp
  obtain ⟨lines, hlines, hdrawn⟩ := staticLines_drawn hd hp hcolumns (!p.earlier)
    ((post.map Spot.item).head?.any isRootMarker) continuing
  obtain ⟨c, a', hextend, hg', hgetD, -⟩ := extendContinuing_granted hg continuing 1
  refine ⟨lines, c, a', ?_, hg', fun k => ?_, ?_⟩
  · simp only [hitem, drawFrame, hhead, hlines, hextend]
    rfl
  · rw [hgetD]
    exact hflags.skip (by omega)
  · have hfollows : p.follows = (!sf.children.isEmpty || p.later) := by rw [Spot.follows, hp]
    rw [hdrawn, hfollows, ← staticFrame_closed_iff, Right, hp]
    intro hchildren
    rw [Bool.eq_iff_iff, rootMarker_iff, hlater hchildren]

theorem decide_eq_not {P : Prop} [Decidable P] {b : Bool} :
    (decide P = !b) ↔ (P ↔ b = false) := by
  cases b <;> simp

/-- The columns of a frame are right if its ancestors' are, and its own is shut in time. -/
theorem columns_iff (hflags : Flags continuing (p :: past) post)
    (hlength : p.columns.length = p.depth - 1) (hdynamic : p.Dynamic) (hpos : 0 < p.depth)
    (hbelow : p.below = p.columns ++ [p.later]) :
    (writeIndent continuing p.depth = p.columns ∧
        writeIndent continuing (p.depth + 1) = p.below) ↔
      Straight past p post ∧ ((∀ x ∈ post, x.depth ≠ p.depth) ↔ p.later = false) := by
  have hstraight : writeIndent continuing p.depth = p.columns ↔ Straight past p post := by
    rw [writeIndent_eq_iff hlength, Straight]
    simp only [hflags _]
  have hown : Shut (p :: past) post (p.depth - 1) ↔ ∀ x ∈ post, x.depth ≠ p.depth := by
    rw [shut_of_eq (by omega), and_iff_right hdynamic, Nat.sub_add_cancel hpos]
  have hlength' : (p.columns ++ [p.later]).length = p.depth + 1 - 1 := by
    rw [List.length_append, hlength, List.length_singleton]
    omega
  rw [hstraight, hbelow, writeIndent_eq_iff hlength', ← hown]
  simp only [hflags _]
  refine and_congr_right (fun hall => ?_)
  constructor
  · intro h
    apply h (p.depth - 1) p.later
    rw [← hlength, List.getElem?_append_right (Nat.le_refl _), Nat.sub_self]
    rfl
  · intro h k b hb
    rcases Nat.lt_or_ge k p.columns.length with hlt | hge
    · rw [List.getElem?_append_left hlt] at hb
      exact hall k b hb
    · have hk := (List.getElem?_eq_some_iff.mp hb).1
      obtain rfl : k = p.depth - 1 := by omega
      rw [← hlength, List.getElem?_append_right (Nat.le_refl _), Nat.sub_self] at hb
      cases hb
      exact h

theorem drawFrame_dynamic {df : DynamicFrame I} (hp : p.frame = .dynamic df)
    {counted : Bool} (hseat : Seated counted past p post) (hd : Printed d p.frame.attachments)
    (hflags : Flags continuing past (p :: post)) (hg : ∀ n, a.grants n = true) :
    ∃ lines c a', drawFrame d (past.map Spot.item) p.item (post.map Spot.item) continuing a =
        .ok (lines, c, a') ∧ (∀ n, a'.grants n = true) ∧ Flags c (p :: past) post ∧
      (Drawn p lines ↔ Right d past p post) := by
  have hitem : p.item = .ok (.dynamic df, p.depth) := by rw [Spot.item, Spot.entry, hp]
  have hpos := hseat.deeper ⟨df, hp⟩
  rw [hp] at hd
  obtain ⟨c, a₁, hextend, hg₁, hgetD, hlen⟩ := extendContinuing_granted hg continuing p.depth
  -- the flags that the lines are drawn by
  obtain ⟨c₁, hc₁⟩ : ∃ c₁, c₁ = if ((post.map Spot.item).filter
      fun x => depthOf x = p.depth).length = 0 then markLastAt c p.depth else c := ⟨_, rfl⟩
  have hflags₁ : Flags c₁ (p :: past) post := by
    intro k
    by_cases hk : p.depth = k + 1
    · rw [shut_of_eq hk, and_iff_right (show p.Dynamic from ⟨df, hp⟩), ← hk, ← siblings_iff, hc₁]
      split
      · next hlast =>
        rw [markLastAt_getD hlen, if_pos (by omega)]
        exact iff_of_true rfl hlast
      · next hlast =>
        refine iff_of_false ?_ hlast
        rw [hgetD, hflags k]
        exact fun hshut => hshut.1 p (List.mem_cons_self ..) hk
    · rw [← hflags.skip hk, hc₁]
      split
      · rw [markLastAt_getD hlen, if_neg (by omega), hgetD]
      · rw [hgetD]
  obtain ⟨lines, hlines, hdrawn⟩ := dynamicLines_drawn hd hp p.depth
    (decide (((past.map Spot.item).filter fun x => depthOf x = p.depth).length = 0))
    (decide (((post.map Spot.item).filter fun x => depthOf x = p.depth).length = 0)) c₁
  obtain ⟨c₂, a₂, hextend₂, hg₂, hgetD₂, -⟩ := extendContinuing_granted hg₁ c₁ (p.depth + 1)
  refine ⟨lines, c₂, a₂, ?_, hg₂, fun k => ?_, ?_⟩
  · simp only [hitem, drawFrame, hextend]
    rw [← hc₁, hlines]
    simp only [ok_bind, hextend₂]
  · rw [hgetD₂]
    exact hflags₁ k
  · have hbelow : p.below = p.columns ++ [p.later] := by rw [Spot.below, hp]
    rw [hdrawn, decide_eq_not, decide_eq_not, siblings_iff, siblings_iff,
      columns_iff hflags₁ hseat.length ⟨df, hp⟩ hpos hbelow, Right, hp]
    constructor
    · rintro ⟨haligned, ⟨hstraight, -⟩, hclosed⟩
      exact ⟨fun _ => haligned, hstraight, hclosed⟩
    · rintro ⟨haligned, hstraight, hclosed⟩
      have hboth := haligned ⟨df, hp⟩
      exact ⟨hboth, ⟨hstraight, hboth.2⟩, hclosed⟩

theorem drawFrame_lost {n : Nat} (hp : p.frame = .lostFrames n)
    {counted : Bool} (hseat : Seated counted past p post)
    (hflags : Flags continuing past (p :: post)) (hg : ∀ n, a.grants n = true) :
    ∃ lines c a', drawFrame d (past.map Spot.item) p.item (post.map Spot.item) continuing a =
        .ok (lines, c, a') ∧ (∀ n, a'.grants n = true) ∧ Flags c (p :: past) post ∧
      (Drawn p lines ↔ Right d past p post) := by
  have hitem : p.item = .ok (.lostFrames n, p.depth) := by rw [Spot.item, Spot.entry, hp]
  have hbelow : p.below = p.columns := by rw [Spot.below, hp]
  have hfollows : p.follows = false := by rw [Spot.follows, hp]
  obtain ⟨c, a', hextend, hg', hgetD, -⟩ := extendContinuing_granted hg continuing p.depth
  refine ⟨[⟨.item, writeIndent c p.depth, thinLast, lostText n⟩], c, a', ?_, hg', ?_, ?_⟩
  · simp only [hitem, drawFrame, hextend]
  · intro k
    rw [hgetD]
    by_cases hk : p.depth = k + 1
    · rw [shut_of_eq hk, hflags k]
      refine iff_of_false (fun hshut => hshut.1 p (List.mem_cons_self ..) hk) ?_
      rintro ⟨⟨df, hdf⟩, -⟩
      rw [hp] at hdf
      cases hdf
    · exact hflags.skip hk
  · have hdrawn : Drawn p [⟨.item, writeIndent c p.depth, thinLast, lostText n⟩] ↔
        writeIndent c p.depth = p.columns := by
      constructor
      · intro h
        rw [← hbelow]
        exact h.columns _ (List.mem_singleton_self _)
      · intro h
        refine ⟨fun hdynamic => ?_, List.forall_mem_singleton.mpr (h.trans hbelow.symm), ?_⟩
        · obtain ⟨df, hdf⟩ := hdynamic
          rw [hp] at hdf
          cases hdf
        · rw [hfollows]
          rfl
    rw [hdrawn, writeIndent_eq_iff hseat.length, Right, hp]
    refine forall₃_congr (fun k later hk => ?_)
    have hlt := (List.getElem?_eq_some_iff.mp hk).1
    rw [hseat.length] at hlt
    rw [hgetD, hflags.skip (by omega)]

end

/-! ## All frames -/

section
variable {d : Displays C I} {counted : Bool}

theorem drawFrame_spec {past post : List (Spot C I)} {p : Spot C I} {continuing : Buffer Bool}
    {a : Allocator} (hseat : Seated counted past p post) (hd : Printed d p.frame.attachments)
    (hflags : Flags continuing past (p :: post)) (hg : ∀ n, a.grants n = true) :
    ∃ lines c a', drawFrame d (past.map Spot.item) p.item (post.map Spot.item) continuing a =
        .ok (lines, c, a') ∧ (∀ n, a'.grants n = true) ∧ Flags c (p :: past) post ∧
      (Drawn p lines ↔ Right d past p post) := by
  cases hp : p.frame with
  | static sf => exact drawFrame_static hp hseat hd hflags hg
  | dynamic df => exact drawFrame_dynamic hp hseat hd hflags hg
  | lostFrames n => exact drawFrame_lost hp hseat hflags hg

/-- All frames are drawn as they should be exactly if each of them is right where it is. -/
theorem drawFrames_spec {rest past : List (Spot C I)} {continuing : Buffer Bool} {a : Allocator}
    (hseats : Everywhere (Seated counted) past rest [])
    (hd : ∀ p ∈ rest, Printed d p.frame.attachments) (hflags : Flags continuing past rest)
    (hg : ∀ n, a.grants n = true) :
    ∃ groups a', drawFrames d (past.map Spot.item) (rest.map Spot.item) continuing a =
        .ok (groups, a') ∧ (∀ n, a'.grants n = true) ∧
      (List.Forall₂ Drawn rest groups ↔ Everywhere (Right d) past rest []) := by
  induction rest generalizing past continuing a with
  | nil => exact ⟨[], a, rfl, hg, iff_of_true List.Forall₂.nil trivial⟩
  | cons p rest ih =>
    obtain ⟨hseat, hseats⟩ := hseats
    rw [List.append_nil] at hseat
    obtain ⟨hfirst, hrest⟩ := List.forall_mem_cons.mp hd
    obtain ⟨lines, c, a₁, hdraw, hg₁, hflags₁, hdrawn⟩ := drawFrame_spec hseat hfirst hflags hg
    obtain ⟨groups, a₂, hloop, hg₂, hall⟩ := ih hseats hrest hflags₁ hg₁
    refine ⟨lines :: groups, a₂, ?_, hg₂, ?_⟩
    · rw [List.map_cons] at hloop
      rw [List.map_cons, drawFrames, hdraw]
      simp only [ok_bind, hloop]
    · rw [List.forall₂_cons, hdrawn, hall, Everywhere, List.append_nil]

/-- The line of an ancestor that has a later sibling is not shut before the sibling comes. -/
theorem straight_of_aligned {l : List (Spot C I)} (hseats : Everywhere (Seated counted) [] l [])
    (haligned : Everywhere Aligned [] l []) : Everywhere Straight [] l [] := by
  rw [everywhere_all]
  intro past p post hl k later hk
  have hseat := everywhere_all.mp hseats past p post hl
  have hlt := (List.getElem?_eq_some_iff.mp hk).1
  rw [hseat.length] at hlt
  obtain ⟨before, q, after, rfl, hdepth, ⟨hdynamic, rfl⟩, hbefore⟩ :=
    meets_split (hseat.column k later hk)
  have hsplit : l = after.reverse ++ q :: (before.reverse ++ p :: post) := by
    rw [hl]
    simp
  rw [← (everywhere_all.mp haligned _ q _ hsplit hdynamic).2, hdepth, List.forall_mem_append,
    List.forall_mem_cons, Shut, List.find?_cons_of_neg (by simp; omega), find?_append_of_forall,
    List.find?_cons_of_pos (by simpa using hdepth)]
  · have hdeep : ∀ x ∈ before.reverse, x.depth ≠ k + 1 :=
      fun x hx => Nat.ne_of_gt (hbefore x (List.mem_reverse.mp hx))
    exact ⟨fun h => ⟨hdeep, by omega, h.1⟩, fun h => ⟨h.2.2, q, rfl, hdynamic⟩⟩
  · intro x hx
    exact decide_eq_false (Nat.ne_of_gt (hbefore x hx))

section
variable (d)

def Spot.Closed (p : Spot C I) : Prop :=
  match p.frame with
  | .static sf => sf.Closed p.earlier p.later
  | .dynamic df => df.Closed d
  | .lostFrames _ => True

end

theorem right_iff {l : List (Spot C I)} (hseats : Everywhere (Seated counted) [] l []) :
    Everywhere (Right d) [] l [] ↔ Everywhere Aligned [] l [] ∧ ∀ p ∈ l, p.Closed d := by
  constructor
  · intro h
    rw [everywhere_all] at h ⊢
    constructor
    · intro past p post hl hdynamic
      obtain ⟨df, hp⟩ := hdynamic
      have hright := h past p post hl
      rw [Right, hp] at hright
      exact hright.1 ⟨df, hp⟩
    · intro p hp
      obtain ⟨before, post, hl⟩ := List.append_of_mem hp
      have hright := h before.reverse p post (by rw [List.reverse_reverse, hl])
      unfold Right at hright
      unfold Spot.Closed
      cases hframe : p.frame with
      | static sf => simpa only [hframe] using hright
      | dynamic df =>
        simp only [hframe] at hright
        exact hright.2.2
      | lostFrames n => trivial
  · rintro ⟨haligned, hclosed⟩
    have hstraight := straight_of_aligned hseats haligned
    rw [everywhere_all] at haligned hstraight ⊢
    intro past p post hl
    have hp := hclosed p (by rw [hl]; simp)
    unfold Spot.Closed at hp
    unfold Right
    cases hframe : p.frame with
    | static sf => simpa only [hframe] using hp
    | dynamic df =>
      simp only [hframe] at hp
      exact ⟨haligned past p post hl, hstraight past p post hl, hp⟩
    | lostFrames n => exact hstraight past p post hl

end

end Rustyfill.Errors
