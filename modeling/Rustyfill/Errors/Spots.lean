import Rustyfill.Errors.Entries
import Rustyfill.Lib.Positions

/-!
# The spots of the frames in the tree

What a frame has before and after it among the children of its own parent, and the same of each of
its ancestors. Whether the marker for the children that are lost counts as one more child is left
open.
-/

namespace Rustyfill.Errors

set_option autoImplicit false

open Positions

variable {C I : Type}

/-- `columns` says of each ancestor, from the root on, whether it has a later sibling. A frame at
the root has an `earlier` one unless it is the head, and is marked as `later` if the count of the
lost peers comes after it. -/
structure Spot (C I : Type) where
  frame : FrameRef C I
  depth : Nat
  columns : List Bool
  earlier : Bool
  later : Bool

namespace Spot

def entry (p : Spot C I) : FrameRef C I × Nat := (p.frame, p.depth)

def Dynamic (p : Spot C I) : Prop := ∃ df, p.frame = .dynamic df

/-- The columns of what is below a header. -/
def below (p : Spot C I) : List Bool :=
  match p.frame with
  | .static _ => []
  | .dynamic _ => p.columns ++ [p.later]
  | .lostFrames _ => p.columns

/-- Other frames or a marker follow the lines of a frame in its group. -/
def follows (p : Spot C I) : Bool :=
  match p.frame with
  | .static sf => !sf.children.isEmpty || p.later
  | .dynamic df => !df.children.isEmpty
  | .lostFrames _ => false

end Spot

def lostSpot (depth : Nat) (columns : List Bool) (n : Nat) : List (Spot C I) :=
  if 0 < n then [⟨.lostFrames n, depth, columns, false, false⟩] else []

section
variable (counted : Bool)

mutual

def DynamicFrame.spots (columns : List Bool) (earlier later : Bool) :
    DynamicFrame I → List (Spot C I)
  | ⟨context, attachments, children, lostAttachments, lostChildren⟩ =>
    ⟨.dynamic ⟨context, attachments, children, lostAttachments, lostChildren⟩, columns.length + 1,
      columns, earlier, later⟩ ::
      if children.isEmpty then []
      else spotsAll (columns ++ [later]) false lostChildren children ++
        lostSpot ((columns ++ [later]).length + 1) (columns ++ [later]) lostChildren

def spotsAll (columns : List Bool) (earlier : Bool) (lost : Nat) :
    List (DynamicFrame I) → List (Spot C I)
  | [] => []
  | df :: rest =>
    DynamicFrame.spots columns earlier (!rest.isEmpty || counted && 0 < lost) df ++
      spotsAll columns true lost rest

end

def levelSpots (columns : List Bool) (children : List (DynamicFrame I)) (lost : Nat) :
    List (Spot C I) :=
  if children.isEmpty then []
  else spotsAll counted columns false lost children ++
    lostSpot (columns.length + 1) columns lost

def rootSpots (lostPeers : Nat) (earlier : Bool) : List (StaticFrame C I) → List (Spot C I)
  | [] => lostSpot 0 [] lostPeers
  | sf :: rest => ⟨.static sf, 0, [], earlier, rest.isEmpty && 0 < lostPeers⟩ ::
      (levelSpots counted [] sf.children sf.lostChildren ++ rootSpots lostPeers true rest)

def Report.spots (r : Report C I) : List (Spot C I) :=
  rootSpots counted r.lostPeers false (r.head :: r.peers.items)

/-! ## They are the entries of the walk -/

variable {counted}

theorem DynamicFrame.spots_eq (columns : List Bool) (earlier later : Bool)
    (df : DynamicFrame I) : df.spots counted columns earlier later =
      (⟨.dynamic df, columns.length + 1, columns, earlier, later⟩ ::
        levelSpots counted (columns ++ [later]) df.children df.lostChildren :
          List (Spot C I)) := by
  cases df
  rw [spots]
  rfl

theorem levelSpots_nil (columns : List Bool) (lost : Nat) :
    (levelSpots counted columns [] lost : List (Spot C I)) = [] := rfl

theorem levelSpots_of_ne {children : List (DynamicFrame I)} (h : children ≠ [])
    (columns : List Bool) (lost : Nat) :
    (levelSpots counted columns children lost : List (Spot C I)) =
      spotsAll counted columns false lost children ++
        lostSpot (columns.length + 1) columns lost := by
  rw [levelSpots, if_neg (by simpa using h)]

theorem lostSpot_entry (depth : Nat) (columns : List Bool) (n : Nat) :
    (lostSpot depth columns n : List (Spot C I)).map Spot.entry = lostEntry depth n := by
  unfold lostSpot lostEntry
  split <;> rfl

theorem levelSpots_entry {columns : List Bool} {children : List (DynamicFrame I)} {lost : Nat}
    (h : (spotsAll counted columns false lost children : List (Spot C I)).map Spot.entry =
      entriesAll (columns.length + 1) children) :
    (levelSpots counted columns children lost : List (Spot C I)).map Spot.entry =
      levelEntries (columns.length + 1) children lost := by
  unfold levelSpots levelEntries
  split
  · rfl
  · rw [List.map_append, h, lostSpot_entry]

mutual

theorem DynamicFrame.spots_entry (columns : List Bool) (earlier later : Bool) :
    ∀ df : DynamicFrame I,
      (df.spots counted columns earlier later : List (Spot C I)).map Spot.entry =
        df.entries (columns.length + 1)
  | ⟨context, attachments, children, lostAttachments, lostChildren⟩ => by
    rw [DynamicFrame.spots_eq, DynamicFrame.entries_eq, List.map_cons,
      levelSpots_entry (spotsAll_entry _ _ _ children), List.length_append]
    rfl

theorem spotsAll_entry (columns : List Bool) (earlier : Bool) (lost : Nat) :
    ∀ l : List (DynamicFrame I),
      (spotsAll counted columns earlier lost l : List (Spot C I)).map Spot.entry =
        entriesAll (columns.length + 1) l
  | [] => by
    rw [spotsAll, entriesAll_nil]
    rfl
  | df :: rest => by
    rw [spotsAll, entriesAll, List.map_append, df.spots_entry, spotsAll_entry]

end

theorem rootSpots_entry (lostPeers : Nat) (earlier : Bool) (roots : List (StaticFrame C I)) :
    (rootSpots counted lostPeers earlier roots).map Spot.entry =
      roots.flatMap StaticFrame.entries ++ lostEntry 0 lostPeers := by
  induction roots generalizing earlier with
  | nil => exact lostSpot_entry 0 [] lostPeers
  | cons sf rest ih =>
    rw [rootSpots, List.map_cons, List.map_append, ih, levelSpots_entry (spotsAll_entry _ _ _ _),
      List.flatMap_cons, StaticFrame.entries, List.cons_append, List.cons_append,
      List.append_assoc]
    rfl

theorem Report.spots_entry (r : Report C I) : (r.spots counted).map Spot.entry = r.entries :=
  rootSpots_entry r.lostPeers false (r.head :: r.peers.items)

/-! ## Below a frame -/

/-- Frames and markers that belong below `depth` others. -/
def Deep (depth : Nat) (l : List (Spot C I)) : Prop :=
  ∀ p ∈ l, depth < p.depth ∧ ∀ sf, p.frame ≠ .static sf

theorem Deep.append {depth : Nat} {l l' : List (Spot C I)} (h : Deep depth l)
    (h' : Deep depth l') : Deep depth (l ++ l') :=
  List.forall_mem_append.mpr ⟨h, h'⟩

theorem lostSpot_deep (depth : Nat) (columns : List Bool) (n : Nat) :
    Deep depth (lostSpot (depth + 1) columns n : List (Spot C I)) := by
  unfold lostSpot
  split
  · rw [Deep, List.forall_mem_singleton]
    exact ⟨Nat.lt_succ_self depth, fun sf heq => nomatch heq⟩
  · exact fun p hp => nomatch hp

theorem levelSpots_deep {columns : List Bool} {children : List (DynamicFrame I)} {lost : Nat}
    (h : Deep columns.length
      (spotsAll counted columns false lost children : List (Spot C I))) :
    Deep columns.length (levelSpots counted columns children lost : List (Spot C I)) := by
  unfold levelSpots
  split
  · exact fun p hp => nomatch hp
  · exact h.append (lostSpot_deep _ _ _)

mutual

theorem DynamicFrame.spots_deep (columns : List Bool) (earlier later : Bool) :
    ∀ df : DynamicFrame I,
      Deep columns.length (df.spots counted columns earlier later : List (Spot C I))
  | ⟨context, attachments, children, lostAttachments, lostChildren⟩ => by
    have hlevel : Deep (columns ++ [later]).length
        (levelSpots counted (columns ++ [later]) children lostChildren : List (Spot C I)) :=
      levelSpots_deep (spotsAll_deep (columns ++ [later]) false lostChildren children)
    rw [DynamicFrame.spots_eq, Deep, List.forall_mem_cons]
    refine ⟨⟨Nat.lt_succ_self _, fun sf heq => nomatch heq⟩, fun p hp => ?_⟩
    obtain ⟨hdepth, hframe⟩ := hlevel p hp
    rw [List.length_append] at hdepth
    exact ⟨Nat.lt_of_succ_lt hdepth, hframe⟩

theorem spotsAll_deep (columns : List Bool) (earlier : Bool) (lost : Nat) :
    ∀ l : List (DynamicFrame I),
      Deep columns.length (spotsAll counted columns earlier lost l : List (Spot C I))
  | [] => by
    rw [spotsAll]
    exact fun p hp => nomatch hp
  | df :: rest => by
    rw [spotsAll]
    exact (df.spots_deep columns _ _).append (spotsAll_deep columns true lost rest)

end

theorem level_deep (columns : List Bool) (children : List (DynamicFrame I)) (lost : Nat) :
    Deep columns.length (levelSpots counted columns children lost : List (Spot C I)) :=
  levelSpots_deep (spotsAll_deep columns false lost children)

theorem below_deep (columns : List Bool) (later : Bool) (children : List (DynamicFrame I))
    (lost : Nat) : Deep (columns.length + 1)
      (levelSpots counted (columns ++ [later]) children lost : List (Spot C I)) := by
  have hlevel := @level_deep C I counted (columns ++ [later]) children lost
  rw [List.length_append] at hlevel
  exact hlevel

end

end Rustyfill.Errors
