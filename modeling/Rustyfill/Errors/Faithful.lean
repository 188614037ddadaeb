import Rustyfill.Errors.Rendering

/-!
# Reports that are rendered as they are

The rendering of a report is the picture of its tree exactly if at every depth at most one frame
has children, and if every frame is closed: what ends its group comes last.
-/

namespace Rustyfill.Errors

set_option autoImplicit false

open Transition Resumable Positions DynamicFrame

variable {C I : Type}

/-! ## What is collected -/

theorem Walk.retry_total {w : Walk C I} (h : w.Sound) (a : Allocator) :
    ∃ x, w.retry a = .ok x := by
  unfold Walk.retry
  cases hpending : w.pendingFrame with
  | none => exact ⟨_, rfl⟩
  | some frame =>
    have hchildren : ∃ x, Walk.childrenOf frame = .ok x := by
      cases frame with
      | static sf => exact ⟨_, rfl⟩
      | dynamic df => exact ⟨_, rfl⟩
      | lostFrames n => exact absurd hpending (h n)
    obtain ⟨⟨children, lost⟩, hchildren⟩ := hchildren
    simp only [hchildren, ok_bind]
    split
    · exact ⟨_, rfl⟩
    · split
      · exact ⟨_, rfl⟩
      · split
        · exact ⟨_, rfl⟩
        · exact ⟨_, rfl⟩

namespace Frames

theorem next_total {s : Frames C I} (h : s.Sound) (a : Allocator) : ∃ x, s.next a = .ok x := by
  obtain ⟨⟨failure, w, a'⟩, hretry⟩ := Walk.retry_total h a
  unfold next
  rw [hretry]
  simp only [ok_bind]
  split
  · exact ⟨_, rfl⟩
  · split
    · exact ⟨_, rfl⟩
    · split
      · exact ⟨_, rfl⟩
      · split
        · exact ⟨_, rfl⟩
        · exact ⟨_, rfl⟩

theorem next_cases {s : Frames C I} {a : Allocator} (hfresh : s.Fresh) (hsound : s.Sound)
    (hg : ∀ n, a.grants n = true) :
    (∃ t a', s.next a = .ok (none, t, a') ∧ (∀ n, a'.grants n = true) ∧ s.entriesLeft = []) ∨
    ∃ x t a', s.next a = .ok (some (.ok x), t, a') ∧ (∀ n, a'.grants n = true) ∧ t.Fresh ∧
      t.Sound ∧ s.entriesLeft = x :: t.entriesLeft := by
  obtain ⟨⟨e, t, a'⟩, hnext⟩ := next_total hsound a
  obtain ⟨he, hg'⟩ := next_granted hg hnext
  obtain ⟨hfresh', hsound', hleft, hend⟩ := next_entries hfresh hnext he
  rcases e with _ | (x | x)
  · refine Or.inl ⟨t, a', hnext, hg', ?_⟩
    rw [hleft, hend rfl]
    rfl
  · exact absurd rfl (he x)
  · exact Or.inr ⟨x, t, a', hnext, hg', hfresh', hsound', hleft⟩

end Frames

theorem collectFrames_granted {fuel : Nat} {s : Frames C I} {frames : Buffer (Item C I)}
    {a : Allocator} (hfresh : s.Fresh) (hsound : s.Sound) (hg : ∀ n, a.grants n = true)
    (hfuel : s.entriesLeft.length < fuel) :
    ∃ a', collectFrames fuel s frames a =
        .ok (some (frames.items ++ s.entriesLeft.map .ok), a') ∧ ∀ n, a'.grants n = true := by
  induction fuel generalizing s frames a with
  | zero => exact absurd hfuel (Nat.not_lt_zero _)
  | succ fuel ih =>
    rcases Frames.next_cases hfresh hsound hg with ⟨t, a₁, hnext, hg₁, hnil⟩ |
      ⟨x, t, a₁, hnext, hg₁, hfresh', hsound', hcons⟩
    · refine ⟨a₁, ?_, hg₁⟩
      simp only [collectFrames, hnext, ok_bind, hnil, List.map_nil, List.append_nil]
    · obtain ⟨frames', a₂, hpush, hitems, hg₂⟩ :=
        @tryPushBack_granted (Item C I) _ frames a₁ hg₁ (.ok x)
      rw [hcons, List.length_cons] at hfuel
      obtain ⟨a₃, hcollect, hg₃⟩ := @ih t frames' a₂ hfresh' hsound' hg₂ (by omega)
      refine ⟨a₃, ?_, hg₃⟩
      simp only [collectFrames, hnext, ok_bind, hpush, hcollect]
      rw [hitems, hcons, List.map_cons, List.append_assoc]
      rfl

/-! ## The entries and the frames -/

theorem framesOf_lostEntry (depth n : Nat) :
    (lostEntry depth n : List (FrameRef C I × Nat)).flatMap framesOf = [] := by
  unfold lostEntry
  split <;> rfl

theorem levelEntries_frames {depth : Nat} {children : List (DynamicFrame I)}
    (h : (entriesAll depth children : List (FrameRef C I × Nat)).flatMap framesOf =
      preorderAll depth children) (lost : Nat) :
    (levelEntries depth children lost : List (FrameRef C I × Nat)).flatMap framesOf =
      preorderAll depth children := by
  by_cases hne : children = []
  · rw [hne, levelEntries_nil, preorderAll_nil]
    rfl
  · rw [levelEntries_of_ne hne, List.flatMap_append, h, framesOf_lostEntry, List.append_nil]

mutual

theorem DynamicFrame.entries_frames (depth : Nat) : ∀ df : DynamicFrame I,
    (df.entries depth : List (FrameRef C I × Nat)).flatMap framesOf = df.preorder depth
  | ⟨context, attachments, children, lostAttachments, lostChildren⟩ => by
    rw [DynamicFrame.entries_eq, DynamicFrame.preorder_eq, List.flatMap_cons,
      levelEntries_frames (entriesAll_frames (depth + 1) children)]
    rfl

theorem entriesAll_frames (depth : Nat) : ∀ l : List (DynamicFrame I),
    (entriesAll depth l : List (FrameRef C I × Nat)).flatMap framesOf = preorderAll depth l
  | [] => by
    rw [entriesAll_nil, preorderAll_nil]
    rfl
  | df :: rest => by
    rw [entriesAll, preorderAll, List.flatMap_append, df.entries_frames, entriesAll_frames]

end

theorem StaticFrame.entries_frames (sf : StaticFrame C I) :
    sf.entries.flatMap framesOf = sf.preorder := by
  rw [StaticFrame.entries, StaticFrame.preorder, List.flatMap_cons,
    levelEntries_frames (entriesAll_frames 1 sf.children)]
  rfl

theorem Report.entries_frames (r : Report C I) : r.entries.flatMap framesOf = r.preorder := by
  rw [Report.entries, Report.preorder, List.flatMap_append, framesOf_lostEntry, List.append_nil,
    List.flatMap_assoc, List.flatMap_cons, StaticFrame.entries_frames]
  exact congrArg _ (congrArg (fun f => List.flatMap f _) (funext StaticFrame.entries_frames))

theorem oneFamily_frames (l : List (FrameRef C I × Nat)) :
    OneFamily (l.flatMap framesOf) ↔ OneFamily l := by
  induction l with
  | nil => rfl
  | cons x l ih =>
    have hmem : ∀ y : FrameRef C I × Nat, y ∈ l → y.1.children ≠ [] → y ∈ l.flatMap framesOf := by
      intro y hy hchildren
      refine List.mem_flatMap.mpr ⟨y, hy, ?_⟩
      obtain ⟨frame, depth⟩ := y
      cases frame with
      | static sf => exact List.mem_singleton_self _
      | dynamic df => exact List.mem_singleton_self _
      | lostFrames n => exact absurd rfl hchildren
    have hof : ∀ y ∈ l.flatMap framesOf, y ∈ l := by
      intro y hy
      obtain ⟨⟨frame, depth⟩, hx, hy⟩ := List.mem_flatMap.mp hy
      cases frame with
      | static sf => exact List.mem_singleton.mp hy ▸ hx
      | dynamic df => exact List.mem_singleton.mp hy ▸ hx
      | lostFrames n => cases hy
    have hrest : ∀ x : FrameRef C I × Nat, OneFamily (x :: l.flatMap framesOf) ↔
        OneFamily (x :: l) := by
      intro x
      rw [OneFamily, List.pairwise_cons, OneFamily, List.pairwise_cons]
      refine and_congr ⟨fun h y hy hx hchildren => ?_, fun h y hy => h y (hof y hy)⟩ ih
      exact h y (hmem y hy hchildren) hx hchildren
    obtain ⟨frame, depth⟩ := x
    cases frame with
    | static sf => exact hrest (.static sf, depth)
    | dynamic df => exact hrest (.dynamic df, depth)
    | lostFrames n =>
      rw [List.flatMap_cons, framesOf, List.nil_append, ih]
      refine (Iff.symm (List.pairwise_cons.trans (and_iff_right ?_)))
      exact fun y _ hchildren => absurd rfl hchildren

/-- No frame with children has lost others. -/
def Whole (l : List (FrameRef C I × Nat)) : Prop :=
  ∀ x ∈ l, x.1.children ≠ [] → x.1.lostChildren = 0

theorem rootMarkers_append (l l' : List (FrameRef C I × Nat)) :
    RootMarkers (l ++ l') ↔ RootMarkers l ∧ RootMarkers l' :=
  List.forall_mem_append

theorem rootMarkers_cons {frame : FrameRef C I} (h : ∀ n, frame ≠ .lostFrames n) (depth : Nat)
    (l : List (FrameRef C I × Nat)) : RootMarkers ((frame, depth) :: l) ↔ RootMarkers l := by
  rw [RootMarkers, List.forall_mem_cons]
  exact and_iff_right (fun n hn => absurd hn (h n))

theorem rootMarkers_level {depth : Nat} {children : List (DynamicFrame I)}
    (h : RootMarkers (entriesAll (depth + 1) children : List (FrameRef C I × Nat)) ↔
      Whole (preorderAll (depth + 1) children : List (FrameRef C I × Nat))) (lost : Nat) :
    RootMarkers (levelEntries (depth + 1) children lost : List (FrameRef C I × Nat)) ↔
      (children ≠ [] → lost = 0) ∧
        Whole (preorderAll (depth + 1) children : List (FrameRef C I × Nat)) := by
  by_cases hne : children = []
  · rw [hne, levelEntries_nil, preorderAll_nil]
    exact iff_of_true (fun x hx => nomatch hx) ⟨fun h => absurd rfl h, fun x hx => nomatch hx⟩
  · have hlost : RootMarkers (lostEntry (depth + 1) lost : List (FrameRef C I × Nat)) ↔
        (children ≠ [] → lost = 0) := by
      rw [forall_prop_of_true hne, lostEntry]
      split
      · next hpos =>
        refine iff_of_false (fun hroot => ?_) (Nat.ne_of_gt hpos)
        exact Nat.succ_ne_zero depth (hroot _ (List.mem_singleton_self _) lost rfl)
      · next hzero =>
        exact iff_of_true (fun x hx => nomatch hx) (Nat.eq_zero_of_not_pos hzero)
    rw [levelEntries_of_ne hne, rootMarkers_append, h, hlost, and_comm]

mutual

theorem DynamicFrame.rootMarkers (depth : Nat) : ∀ df : DynamicFrame I,
    RootMarkers (df.entries (depth + 1) : List (FrameRef C I × Nat)) ↔
      Whole (df.preorder (depth + 1) : List (FrameRef C I × Nat))
  | ⟨context, attachments, children, lostAttachments, lostChildren⟩ => by
    rw [DynamicFrame.entries_eq, DynamicFrame.preorder_eq, rootMarkers_cons (by simp),
      rootMarkers_level (rootMarkers_all (depth + 1) children), Whole, Whole,
      List.forall_mem_cons]
    rfl

theorem rootMarkers_all (depth : Nat) : ∀ l : List (DynamicFrame I),
    RootMarkers (entriesAll (depth + 1) l : List (FrameRef C I × Nat)) ↔
      Whole (preorderAll (depth + 1) l : List (FrameRef C I × Nat))
  | [] => by
    rw [entriesAll_nil, preorderAll_nil]
    exact iff_of_true (fun x hx => nomatch hx) (fun x hx => nomatch hx)
  | df :: rest => by
    rw [entriesAll, preorderAll, rootMarkers_append, df.rootMarkers, rootMarkers_all, Whole,
      Whole, Whole, List.forall_mem_append]

end

theorem StaticFrame.rootMarkers (sf : StaticFrame C I) :
    RootMarkers sf.entries ↔ Whole sf.preorder := by
  rw [StaticFrame.entries, StaticFrame.preorder, rootMarkers_cons (by simp),
    rootMarkers_level (rootMarkers_all 0 sf.children), Whole, Whole, List.forall_mem_cons]
  rfl

theorem Report.rootMarkers (r : Report C I) : RootMarkers r.entries ↔ Whole r.preorder := by
  have hpeers : ∀ l : List (StaticFrame C I), RootMarkers (l.flatMap StaticFrame.entries) ↔
      Whole (l.flatMap StaticFrame.preorder) := by
    intro l
    induction l with
    | nil => exact iff_of_true (fun x hx => nomatch hx) (fun x hx => nomatch hx)
    | cons sf l ih =>
      rw [List.flatMap_cons, List.flatMap_cons, rootMarkers_append, sf.rootMarkers, ih, Whole,
        Whole, Whole, List.forall_mem_append]
  have hlost : RootMarkers (lostEntry 0 r.lostPeers : List (FrameRef C I × Nat)) := by
    unfold lostEntry
    split
    · exact List.forall_mem_singleton.mpr (fun n _ => rfl)
    · exact fun x hx => nomatch hx
  rw [Report.entries, rootMarkers_append, and_iff_left hlost, hpeers, List.flatMap_cons,
    Report.preorder]

/-! ## Closed frames -/

section
variable {d : Displays C I} {counted : Bool}

def RootsClosed (lostPeers : Nat) : Bool → List (StaticFrame C I) → Prop
  | _, [] => True
  | earlier, sf :: rest =>
    sf.Closed earlier (rest.isEmpty && 0 < lostPeers) ∧ RootsClosed lostPeers true rest

theorem lostSpot_static {depth : Nat} {columns : List Bool} {n : Nat} {p : Spot C I}
    (h : p ∈ lostSpot depth columns n) (sf : StaticFrame C I) : p.frame ≠ .static sf := by
  unfold lostSpot at h
  split at h
  · cases List.mem_singleton.mp h
    exact fun hsf => nomatch hsf
  · cases h

theorem rootSpots_closed (lostPeers : Nat) (earlier : Bool) (roots : List (StaticFrame C I)) :
    (∀ p ∈ rootSpots counted lostPeers earlier roots, ∀ sf, p.frame = .static sf →
      sf.Closed p.earlier p.later) ↔ RootsClosed lostPeers earlier roots := by
  induction roots generalizing earlier with
  | nil =>
    refine iff_of_true ?_ trivial
    intro p hp sf hsf
    exact absurd hsf (lostSpot_static hp sf)
  | cons sf rest ih =>
    rw [rootSpots, List.forall_mem_cons, List.forall_mem_append, ih, RootsClosed]
    constructor
    · rintro ⟨hfirst, -, hrest⟩
      exact ⟨hfirst sf rfl, hrest⟩
    · rintro ⟨hfirst, hrest⟩
      refine ⟨fun sf' hsf => ?_, fun p hp sf' hsf => ?_, hrest⟩
      · cases hsf
        exact hfirst
      · exact absurd hsf ((level_deep [] sf.children sf.lostChildren p hp).2 sf')

theorem Report.mem_entries (r : Report C I) {df : DynamicFrame I} {depth : Nat} :
    ((.dynamic df, depth) : FrameRef C I × Nat) ∈ r.entries ↔
      (.dynamic df, depth) ∈ r.preorder := by
  rw [← r.entries_frames, List.mem_flatMap]
  constructor
  · intro h
    exact ⟨_, h, List.mem_singleton_self _⟩
  · rintro ⟨⟨frame, depth'⟩, hx, hy⟩
    cases frame with
    | static sf => cases List.mem_singleton.mp hy
    | dynamic df' => exact List.mem_singleton.mp hy ▸ hx
    | lostFrames n => cases hy

theorem Report.spots_closed (r : Report C I) : (∀ p ∈ r.spots counted, p.Closed d) ↔
    (∀ df depth, ((.dynamic df, depth) : FrameRef C I × Nat) ∈ r.preorder → df.Closed d) ∧
      RootsClosed r.lostPeers false (r.head :: r.peers.items) := by
  rw [← @rootSpots_closed C I counted]
  constructor
  · intro h
    refine ⟨fun df depth hmem => ?_, fun p hp sf hsf => ?_⟩
    · rw [← r.mem_entries, ← @Report.spots_entry C I counted r] at hmem
      obtain ⟨p, hp, hentry⟩ := List.mem_map.mp hmem
      have hframe : p.frame = .dynamic df := congrArg Prod.fst hentry
      have hclosed := h p hp
      simpa only [Spot.Closed, hframe] using hclosed
    · have hclosed := h p hp
      simpa only [Spot.Closed, hsf] using hclosed
  · rintro ⟨hdynamic, hstatic⟩ p hp
    unfold Spot.Closed
    cases hframe : p.frame with
    | static sf => exact hstatic p hp sf hframe
    | dynamic df =>
      apply hdynamic df p.depth
      rw [← r.mem_entries, ← @Report.spots_entry C I counted r]
      refine List.mem_map.mpr ⟨p, hp, ?_⟩
      rw [Spot.entry, hframe]
    | lostFrames n => trivial

end

/-! ## The picture -/

section
variable (counted : Bool) (d : Displays C I) (r : Report C I)

/-- With nothing refused, every frame is drawn as it should be at its spot. -/
def Report.Faithful : Prop :=
  ∃ calls, ∀ fuel ≥ calls, ∀ a : Allocator, (∀ n, a.grants n = true) →
    ∃ groups a', r.fmt d fuel a = .ok (.ok (.frames groups), a') ∧
      List.Forall₂ Drawn (r.spots counted) groups

/-- At every depth at most one frame has children, and every frame is closed. -/
structure Report.Drawable : Prop where
  levels : OneFamily r.preorder
  frames : ∀ df depth, ((.dynamic df, depth) : FrameRef C I × Nat) ∈ r.preorder → df.Closed d
  roots : RootsClosed r.lostPeers false (r.head :: r.peers.items)

end

section
variable {counted : Bool} {d : Displays C I} {r : Report C I}

/-- What is drawn when nothing fails, by any number of calls that is enough. -/
theorem Report.fmt_granted (hd : ∀ x ∈ r.preorder, Printed d x.1.attachments) {fuel : Nat}
    (hfuel : r.entries.length < fuel) {a : Allocator} (hg : ∀ n, a.grants n = true) :
    ∃ groups a', r.fmt d fuel a = .ok (.ok (.frames groups), a') ∧
      (List.Forall₂ Drawn (r.spots counted) groups ↔
        Everywhere (Right d) [] (r.spots counted) []) := by
  have hleft : (r.framesWith true).entriesLeft = r.entries := by
    rw [Report.entries, List.flatMap_cons, List.append_assoc]
    rfl
  obtain ⟨a₁, hcollect, hg₁⟩ := @collectFrames_granted C I fuel (r.framesWith true) .new a
    (fun _ => ⟨rfl, rfl⟩) (fun n h => by cases h) hg (by rw [hleft]; exact hfuel)
  have hprinted : ∀ p ∈ r.spots counted, Printed d p.frame.attachments := by
    intro p hp
    have hentry : p.entry ∈ r.entries := by
      rw [← @Report.spots_entry C I counted r]
      exact List.mem_map_of_mem hp
    cases hframe : p.frame with
    | lostFrames n =>
      intro i hi
      cases hi
    | static sf =>
      refine hd (.static sf, p.depth) ?_
      rw [← r.entries_frames, List.mem_flatMap]
      refine ⟨p.entry, hentry, ?_⟩
      rw [Spot.entry, hframe]
      exact List.mem_singleton_self _
    | dynamic df =>
      refine hd (.dynamic df, p.depth) (r.mem_entries.mp ?_)
      rw [← hframe]
      exact hentry
  have hflags : Flags Buffer.new [] (r.spots counted) := by
    intro k
    refine iff_of_false (fun h => by cases h) ?_
    rintro ⟨-, q, hq, -⟩
    cases hq
  obtain ⟨groups, a₂, hdraw, -, hdrawn⟩ :=
    drawFrames_spec (@Report.spots_seated C I counted r) hprinted hflags hg₁
  refine ⟨groups, a₂, ?_, hdrawn⟩
  have hitems : (r.spots counted).map Spot.item = r.entries.map .ok := by
    rw [← @Report.spots_entry C I counted r, List.map_map]
    rfl
  rw [hleft, ← hitems] at hcollect
  rw [Report.fmt]
  unfold Report.framesWith at hcollect
  rw [hcollect]
  simp only [ok_bind, Buffer.new, List.nil_append]
  rw [List.map_nil] at hdraw
  unfold Buffer.new at hdraw
  rw [hdraw]

theorem Report.right_iff (r : Report C I) : Everywhere (Right d) [] (r.spots counted) [] ↔
    r.Drawable d ∧ (counted = true ∨ Whole r.preorder) := by
  rw [Errors.right_iff r.spots_seated, aligned_iff r.spots_seated, r.spots_entry,
    r.spots_closed, r.rootMarkers, ← oneFamily_frames, r.entries_frames]
  constructor
  · rintro ⟨⟨hlevels, hwhole⟩, hframes, hroots⟩
    exact ⟨⟨hlevels, hframes, hroots⟩, hwhole⟩
  · rintro ⟨⟨hlevels, hframes, hroots⟩, hwhole⟩
    exact ⟨⟨hlevels, hwhole⟩, hframes, hroots⟩

theorem Report.faithful_spec (hd : ∀ x ∈ r.preorder, Printed d x.1.attachments) :
    r.Faithful counted d ↔ r.Drawable d ∧ (counted = true ∨ Whole r.preorder) := by
  rw [← r.right_iff]
  constructor
  · rintro ⟨calls, h⟩
    have hg : ∀ n, (⟨fun _ => true, 0⟩ : Allocator).grants n = true := fun _ => rfl
    obtain ⟨groups, a', hfmt, hdrawn⟩ :=
      h (max calls (r.entries.length + 1)) (Nat.le_max_left _ _) _ hg
    obtain ⟨groups', a₁, hfmt', hiff⟩ := @Report.fmt_granted C I counted d r hd _
      (Nat.lt_of_lt_of_le (Nat.lt_succ_self _) (Nat.le_max_right calls _)) _ hg
    rw [hfmt] at hfmt'
    cases hfmt'
    exact hiff.mp hdrawn
  · intro hright
    refine ⟨r.entries.length + 1, fun fuel hfuel a hg => ?_⟩
    obtain ⟨groups, a', hfmt, hiff⟩ := Report.fmt_granted hd hfuel hg
    exact ⟨groups, a', hfmt, hiff.mpr hright⟩

/-- Unless an attachment cannot be displayed, a report is rendered as its tree exactly if at every
depth at most one frame has children and every frame is closed, and, where the count of the lost
children is not taken for one more child, if no frame with children has lost others. -/
theorem Report.faithful_iff (hd : ∀ x ∈ r.preorder, Printed d x.1.attachments) :
    r.Faithful counted d ↔ r.Drawable d ∧ (counted = true ∨ Whole r.preorder) :=
  Report.faithful_spec hd

end

namespace Report

def plain : Displays String String := ⟨.ok, .ok, fun _ => "", fun _ => true, false⟩

theorem plain_printed (attachments : List String) : Printed plain attachments :=
  fun i _ _ => ⟨i, rfl⟩

def above (children : List (DynamicFrame String)) : Report String String :=
  { Report.new "request failed" here with
    head := { StaticFrame.new (.new "request failed" here) with children } }

def cause (context : String) (attachments : List String) (children : List (DynamicFrame String)) :
    DynamicFrame String := ⟨context, attachments, children, 0, 0⟩

theorem chain_faithful :
    (above [cause "no answer" [] [cause "timeout" ["attempt 3"] []]]).Faithful true plain := by
  refine (Report.faithful_iff fun x _ => plain_printed _).mpr ⟨⟨?_, ?_, ?_⟩, Or.inl rfl⟩
  · simp [OneFamily, preorder, above, StaticFrame.preorder, preorderAll_cons, FrameRef.children,
      cause, Report.new, Buffer.new]
  · intro df depth hmem
    simp only [preorder, above, StaticFrame.preorder, preorderAll_cons, preorderAll_nil, cause,
      Report.new, Buffer.new, List.append_nil, List.flatMap_nil, List.mem_cons, Prod.mk.injEq,
      FrameRef.dynamic.injEq, List.not_mem_nil, or_false, reduceCtorEq, false_and, false_or] at hmem
    rcases hmem with ⟨rfl, -⟩ | ⟨rfl, -⟩
    · exact ⟨fun h => absurd rfl h, fun _ => rfl⟩
    · exact ⟨fun _ => rfl, fun _ => rfl⟩
  · refine ⟨⟨fun h => absurd rfl h, fun _ hnone => ?_⟩, trivial⟩
    cases hnone

/-- Two causes with causes of their own, and a cause with an attachment and a cause of its own. -/
theorem causes_unfaithful :
    (∀ counted, ¬ (above [cause "no answer" [] [cause "timeout" [] []],
      cause "no cache" [] [cause "not found" [] []]]).Faithful counted plain) ∧
    ∀ counted, ¬ (above [cause "no answer" ["attempt 3"]
      [cause "timeout" [] []]]).Faithful counted plain := by
  constructor
  · intro counted h
    obtain ⟨⟨hlevels, -, -⟩, -⟩ := (faithful_spec fun x _ => plain_printed _).mp h
    simp [OneFamily, preorder, above, StaticFrame.preorder, preorderAll_cons, FrameRef.children,
      cause, Report.new, Buffer.new] at hlevels
  · intro counted h
    obtain ⟨⟨-, hframes, -⟩, -⟩ := (faithful_spec fun x _ => plain_printed _).mp h
    have hclosed := hframes (cause "no answer" ["attempt 3"] [cause "timeout" [] []]) 1 (by
      simp [preorder, above, StaticFrame.preorder, preorderAll_cons])
    exact List.cons_ne_nil _ _ (hclosed.1 (List.cons_ne_nil _ _))

end Report

end Rustyfill.Errors
