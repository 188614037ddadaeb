import Rustyfill.Errors.Traversal

/-!
# Searching a report for a value of a type

`contains`, `downcast_ref` and `downcast_mut`, of a report and of its frames. Where the source
returns a reference, the searches here return the place that it refers to.
-/

namespace Rustyfill.Errors

set_option autoImplicit false

open DynamicFrame

variable {C I : Type}

/-- Which contexts, and which boxed items, hold a value of the type that is searched for. -/
structure TypeTest (C I : Type) where
  context : C → Bool
  item : I → Bool

inductive Part where
  | context
  | attachment (i : Nat)
deriving DecidableEq

/-- A place in a frame: which child, which child of that, and so on, and a part of it. -/
abbrev Place := List Nat × Part

/-- A place in a report: the frame at the root (the head, then the peers) and a place in it. -/
abbrev ReportPlace := Nat × Place

def Place.under (i : Nat) (p : Place) : Place := (i :: p.1, p.2)

def findAttachment (t : TypeTest C I) (attachments : List I) : Option Place :=
  (attachments.findIdx? t.item).map fun i => ([], .attachment i)

/-! ## Frames -/

mutual

def DynamicFrame.contains (t : TypeTest C I) : DynamicFrame I → Bool
  | ⟨context, attachments, children, _, _⟩ =>
    t.item context || attachments.any t.item || containsAny t children

def containsAny (t : TypeTest C I) : List (DynamicFrame I) → Bool
  | [] => false
  | child :: rest => child.contains t || containsAny t rest

end

mutual

/-- The body that `DynamicFrame::downcast_ref` and `DynamicFrame::downcast_mut` share. -/
def DynamicFrame.search (t : TypeTest C I) : DynamicFrame I → Option Place
  | ⟨context, attachments, children, _, _⟩ =>
    if t.item context then some ([], .context)
    else
      match findAttachment t attachments with
      | some p => some p
      | none => searchRev t 0 children

/-- The children from the last to the first, the first of them being the one at `i`. -/
def searchRev (t : TypeTest C I) (i : Nat) : List (DynamicFrame I) → Option Place
  | [] => none
  | child :: rest =>
    match searchRev t (i + 1) rest with
    | some p => some p
    | none => (child.search t).map (Place.under i)

end

def DynamicFrame.downcastRef (t : TypeTest C I) (df : DynamicFrame I) : Option Place := df.search t

def DynamicFrame.downcastMut (t : TypeTest C I) (df : DynamicFrame I) : Option Place := df.search t

namespace StaticFrame

def contains (t : TypeTest C I) (sf : StaticFrame C I) : Bool :=
  sf.attachments.any t.item || containsAny t sf.children

def downcastRef (t : TypeTest C I) (sf : StaticFrame C I) : Option Place :=
  match findAttachment t sf.attachments with
  | some p => some p
  | none => searchRev t 0 sf.children

/-- The children of the frame are in two slices, of which the first has `wrap` of them. -/
def downcastMut (t : TypeTest C I) (wrap : Nat) (sf : StaticFrame C I) : Option Place :=
  if t.context sf.context.context then some ([], .context)
  else
    match findAttachment t sf.attachments with
    | some p => some p
    | none =>
      let (first, second) := sf.children.splitAt wrap
      match searchRev t first.length second with
      | some p => some p
      | none => searchRev t 0 first

end StaticFrame

/-! ## Reports -/

namespace Report

def contains (t : TypeTest C I) (r : Report C I) : Bool :=
  t.context r.head.context.context || r.head.contains t ||
    r.peers.items.any fun p => t.context p.context.context || p.contains t

/-- The loop of `downcast_ref` over the peers. -/
def peersRef (t : TypeTest C I) (i : Nat) : List (StaticFrame C I) → Option ReportPlace
  | [] => none
  | peer :: rest =>
    if t.context peer.context.context then some (i, [], .context)
    else
      match peer.downcastRef t with
      | some p => some (i, p)
      | none => peersRef t (i + 1) rest

def downcastRef (t : TypeTest C I) (r : Report C I) : Option ReportPlace :=
  if t.context r.head.context.context then some (0, [], .context)
  else
    match r.head.downcastRef t with
    | some p => some (0, p)
    | none => peersRef t 1 r.peers.items

/-- The loop of `downcast_mut` over the peers; `wrap` says where the children of each frame at the
root are split into slices. -/
def peersMut (t : TypeTest C I) (wrap : Nat → Nat) (i : Nat) :
    List (StaticFrame C I) → Option ReportPlace
  | [] => none
  | peer :: rest =>
    match peer.downcastMut t (wrap i) with
    | some p => some (i, p)
    | none => peersMut t wrap (i + 1) rest

def downcastMut (t : TypeTest C I) (wrap : Nat → Nat) (r : Report C I) : Option ReportPlace :=
  match r.head.downcastMut t (wrap 0) with
  | some p => some (0, p)
  | none => peersMut t wrap 1 r.peers.items

end Report

/-! ## The places in order -/

/-- What a place holds. -/
abbrev Held (C I : Type) := C ⊕ I

def TypeTest.holds (t : TypeTest C I) : Held C I → Bool
  | .inl c => t.context c
  | .inr i => t.item i

def attachmentPlaces (attachments : List I) : List (Place × Held C I) :=
  attachments.zipIdx.map fun x => (([], .attachment x.2), .inr x.1)

def heldUnder (i : Nat) (x : Place × Held C I) : Place × Held C I := (Place.under i x.1, x.2)

mutual

/-- The context, the attachments, and the children in either direction. -/
def DynamicFrame.places (rev : Bool) : DynamicFrame I → List (Place × Held C I)
  | ⟨context, attachments, children, _, _⟩ =>
    (([], .context), .inr context) :: (attachmentPlaces attachments ++ childPlaces rev 0 children)

def childPlaces (rev : Bool) (i : Nat) : List (DynamicFrame I) → List (Place × Held C I)
  | [] => []
  | child :: rest =>
    if rev then childPlaces rev (i + 1) rest ++ (child.places rev).map (heldUnder i)
    else (child.places rev).map (heldUnder i) ++ childPlaces rev (i + 1) rest

end

def StaticFrame.places (rev : Bool) (sf : StaticFrame C I) : List (Place × Held C I) :=
  (([], .context), .inl sf.context.context) ::
    (attachmentPlaces sf.attachments ++ childPlaces rev 0 sf.children)

/-- The places of some frames at the root, the first of them being the one at `i`. -/
def rootPlaces (rev : Bool) (i : Nat) : List (StaticFrame C I) → List (ReportPlace × Held C I)
  | [] => []
  | sf :: rest => (sf.places rev).map (fun x => ((i, x.1), x.2)) ++ rootPlaces rev (i + 1) rest

/-- The head, then each peer from the front. -/
def Report.places (rev : Bool) (r : Report C I) : List (ReportPlace × Held C I) :=
  rootPlaces rev 0 (r.head :: r.peers.items)

/-- The first place that holds a value of the type. -/
def firstOf {P : Type} (t : TypeTest C I) (l : List (P × Held C I)) : Option P :=
  (l.find? fun x => t.holds x.2).map Prod.fst

section
variable {P Q : Type} (t : TypeTest C I)

@[simp] theorem firstOf_nil : firstOf t ([] : List (P × Held C I)) = none := rfl

theorem firstOf_cons (x : P × Held C I) (l : List (P × Held C I)) :
    firstOf t (x :: l) = if t.holds x.2 then some x.1 else firstOf t l := by
  unfold firstOf
  rw [List.find?_cons]
  cases t.holds x.2 <;> rfl

theorem firstOf_append (l l' : List (P × Held C I)) :
    firstOf t (l ++ l') = (firstOf t l).or (firstOf t l') := by
  unfold firstOf
  rw [List.find?_append]
  cases l.find? fun x => t.holds x.2 <;> rfl

theorem firstOf_map (f : P → Q) (l : List (P × Held C I)) :
    firstOf t (l.map fun x => (f x.1, x.2)) = (firstOf t l).map f := by
  induction l with
  | nil => rfl
  | cons x l ih =>
    rw [List.map_cons, firstOf_cons, firstOf_cons, ih]
    split <;> rfl

theorem findAttachment_eq (attachments : List I) :
    findAttachment t attachments = firstOf t (attachmentPlaces attachments) := by
  unfold findAttachment firstOf attachmentPlaces
  rw [List.findIdx?_eq_fst_find?_zipIdx, List.find?_map, Option.map_map, Option.map_map]
  rfl

theorem findAttachment_isSome (attachments : List I) :
    (findAttachment t attachments).isSome = attachments.any t.item := by
  rw [findAttachment, Option.isSome_map, List.findIdx?_isSome]

/-! ## The searches -/

mutual

theorem search_eq : ∀ df : DynamicFrame I, df.search t = firstOf t (df.places true)
  | ⟨context, attachments, children, lostAttachments, lostChildren⟩ => by
    rw [DynamicFrame.search, DynamicFrame.places, firstOf_cons, firstOf_append,
      ← findAttachment_eq, searchRev_eq 0 children]
    cases findAttachment t attachments <;> rfl

theorem searchRev_eq (i : Nat) : ∀ l : List (DynamicFrame I),
    searchRev t i l = firstOf t (childPlaces true i l)
  | [] => by rw [searchRev, childPlaces, firstOf_nil]
  | child :: rest => by
    have hchild : firstOf t ((child.places true).map (heldUnder i)) =
        (firstOf t (child.places true)).map (Place.under i) :=
      firstOf_map t (Place.under i) (child.places true)
    rw [searchRev, childPlaces, if_pos rfl, firstOf_append, hchild, search_eq child,
      searchRev_eq (i + 1) rest]
    cases firstOf t (childPlaces true (i + 1) rest) <;> rfl

end

mutual

theorem contains_eq : ∀ df : DynamicFrame I, df.contains t = (df.search t).isSome
  | ⟨context, attachments, children, lostAttachments, lostChildren⟩ => by
    rw [DynamicFrame.contains, DynamicFrame.search, containsAny_eq 0 children,
      ← findAttachment_isSome]
    cases t.item context
    · cases findAttachment t attachments <;> rfl
    · rfl

theorem containsAny_eq (i : Nat) : ∀ l : List (DynamicFrame I),
    containsAny t l = (searchRev t i l).isSome
  | [] => by rw [containsAny, searchRev, Option.isSome_none]
  | child :: rest => by
    rw [containsAny, searchRev, contains_eq child, containsAny_eq (i + 1) rest]
    cases searchRev t (i + 1) rest with
    | none => simp
    | some p => simp

end

theorem searchRev_append (i : Nat) (l l' : List (DynamicFrame I)) :
    searchRev t i (l ++ l') = (searchRev t (i + l.length) l').or (searchRev t i l) := by
  induction l generalizing i with
  | nil => simp [searchRev]
  | cons child rest ih =>
    rw [List.cons_append, searchRev, searchRev, ih, List.length_cons, Nat.add_right_comm,
      Nat.add_assoc]
    cases searchRev t (i + (rest.length + 1)) l' with
    | none => simp
    | some p => simp

namespace StaticFrame

theorem downcastMut_eq (wrap : Nat) (sf : StaticFrame C I) : sf.downcastMut t wrap =
    if t.context sf.context.context then some ([], .context) else sf.downcastRef t := by
  have hslices : searchRev t 0 sf.children =
      match searchRev t (sf.children.take wrap).length (sf.children.drop wrap) with
      | some p => some p
      | none => searchRev t 0 (sf.children.take wrap) := by
    have happend := searchRev_append t 0 (sf.children.take wrap) (sf.children.drop wrap)
    rw [List.take_append_drop, Nat.zero_add] at happend
    rw [happend]
    cases searchRev t (sf.children.take wrap).length (sf.children.drop wrap) <;> rfl
  unfold downcastMut downcastRef
  rw [hslices, List.splitAt_eq]

theorem downcastMut_first (wrap : Nat) (sf : StaticFrame C I) :
    sf.downcastMut t wrap = firstOf t (sf.places true) := by
  rw [downcastMut_eq, downcastRef, places, firstOf_cons, firstOf_append, ← findAttachment_eq,
    ← searchRev_eq]
  cases findAttachment t sf.attachments <;> rfl

theorem contains_eq (sf : StaticFrame C I) : sf.contains t = (sf.downcastRef t).isSome := by
  rw [contains, downcastRef, containsAny_eq t 0, ← findAttachment_isSome]
  cases findAttachment t sf.attachments <;> rfl

end StaticFrame

namespace Report

theorem peersRef_eq (i : Nat) (wrap : Nat → Nat) (l : List (StaticFrame C I)) :
    peersRef t i l = peersMut t wrap i l := by
  induction l generalizing i with
  | nil => rfl
  | cons peer rest ih =>
    rw [peersRef, peersMut, StaticFrame.downcastMut_eq, ih]
    split <;> rfl

theorem peersMut_first (i : Nat) (wrap : Nat → Nat) (l : List (StaticFrame C I)) :
    peersMut t wrap i l = firstOf t (rootPlaces true i l) := by
  induction l generalizing i with
  | nil => rfl
  | cons peer rest ih =>
    have hpeer : firstOf t ((peer.places true).map fun x => ((i, x.1), x.2)) =
        (firstOf t (peer.places true)).map (Prod.mk i) :=
      firstOf_map t (Prod.mk i) (peer.places true)
    rw [peersMut, rootPlaces, firstOf_append, hpeer, StaticFrame.downcastMut_first, ih]
    cases firstOf t (peer.places true) <;> rfl

theorem downcastRef_eq (wrap : Nat → Nat) (r : Report C I) :
    r.downcastRef t = r.downcastMut t wrap := by
  rw [downcastRef, downcastMut, StaticFrame.downcastMut_eq, peersRef_eq t 1 wrap]
  split <;> rfl

theorem downcastMut_first (wrap : Nat → Nat) (r : Report C I) :
    r.downcastMut t wrap = firstOf t (r.places true) := by
  have hall := peersMut_first t 0 wrap (r.head :: r.peers.items)
  rw [peersMut, Nat.zero_add] at hall
  rw [downcastMut, hall]
  rfl

theorem any_peers (i : Nat) (l : List (StaticFrame C I)) :
    (l.any fun p => t.context p.context.context || p.contains t) = (peersRef t i l).isSome := by
  induction l generalizing i with
  | nil => rfl
  | cons peer rest ih =>
    rw [List.any_cons, peersRef, ih (i + 1), StaticFrame.contains_eq]
    cases t.context peer.context.context
    · cases peer.downcastRef t <;> rfl
    · rfl

theorem contains_eq (r : Report C I) : r.contains t = (r.downcastRef t).isSome := by
  rw [contains, downcastRef, any_peers t 1, StaticFrame.contains_eq]
  cases t.context r.head.context.context
  · cases r.head.downcastRef t <;> rfl
  · rfl

end Report

end

/-! ## The order of the walk -/

/-- What a frame that is visited holds: its context first, as in the searches. -/
def FrameRef.held : FrameRef C I → List (Held C I)
  | static sf => .inl sf.context.context :: sf.attachments.map .inr
  | dynamic df => .inr df.context :: df.attachments.map .inr
  | lostFrames _ => []

theorem attachmentPlaces_held (attachments : List I) :
    (attachmentPlaces attachments : List (Place × Held C I)).map Prod.snd =
      attachments.map .inr := by
  unfold attachmentPlaces
  rw [List.map_map]
  have hcomp : (Prod.snd ∘ fun x : I × Nat =>
      ((([], .attachment x.2), .inr x.1) : Place × Held C I)) = .inr ∘ Prod.fst := rfl
  rw [hcomp, ← List.map_map, List.zipIdx_map_fst]

theorem heldUnder_held (i : Nat) (l : List (Place × Held C I)) :
    (l.map (heldUnder i)).map Prod.snd = l.map Prod.snd := by
  rw [List.map_map]
  rfl

mutual

theorem places_held (depth : Nat) : ∀ df : DynamicFrame I,
    (df.places false : List (Place × Held C I)).map Prod.snd =
      (df.preorder depth : List (FrameRef C I × Nat)).flatMap fun x => x.1.held
  | ⟨context, attachments, children, lostAttachments, lostChildren⟩ => by
    rw [DynamicFrame.places, preorder, List.map_cons, List.map_append, attachmentPlaces_held,
      childPlaces_held (depth + 1) 0 children, List.flatMap_cons]
    rfl

theorem childPlaces_held (depth i : Nat) : ∀ l : List (DynamicFrame I),
    (childPlaces false i l : List (Place × Held C I)).map Prod.snd =
      (preorderAll depth l : List (FrameRef C I × Nat)).flatMap fun x => x.1.held
  | [] => by rw [childPlaces, preorderAll, List.map_nil, List.flatMap_nil]
  | child :: rest => by
    rw [childPlaces, preorderAll, if_neg (by decide), List.map_append, heldUnder_held,
      places_held depth child, childPlaces_held depth (i + 1) rest, List.flatMap_append]

end

theorem StaticFrame.places_held (sf : StaticFrame C I) :
    (sf.places false).map Prod.snd = sf.preorder.flatMap fun x => x.1.held := by
  rw [places, preorder, List.map_cons, List.map_append, attachmentPlaces_held,
    childPlaces_held 1 0 sf.children, List.flatMap_cons]
  rfl

/-- With the children from the first to the last, the places come in the order in which `frames`
visits the frames. -/
theorem Report.places_held (r : Report C I) :
    (r.places false).map Prod.snd = r.preorder.flatMap fun x => x.1.held := by
  have hroot : ∀ (i : Nat) (l : List (StaticFrame C I)), (rootPlaces false i l).map Prod.snd =
      (l.flatMap StaticFrame.preorder).flatMap fun x => x.1.held := by
    intro i l
    induction l generalizing i with
    | nil => rfl
    | cons sf rest ih =>
      have hself : ((sf.places false).map fun x => ((i, x.1), x.2)).map Prod.snd =
          (sf.places false).map Prod.snd := by
        rw [List.map_map]
        rfl
      rw [rootPlaces, List.map_append, hself, sf.places_held, ih, List.flatMap_cons,
        List.flatMap_append]
  exact hroot 0 (r.head :: r.peers.items)

/-! ## What is at a place -/

def partOf (context : Held C I) (attachments : List I) : Part → Option (Held C I)
  | .context => some context
  | .attachment i => attachments[i]?.map .inr

def DynamicFrame.item? (df : DynamicFrame I) : List Nat → Part → Option (Held C I)
  | [], part => partOf (.inr df.context) df.attachments part
  | i :: path, part => df.children[i]?.bind fun child => child.item? path part

def StaticFrame.item? (sf : StaticFrame C I) : List Nat → Part → Option (Held C I)
  | [], part => partOf (.inl sf.context.context) sf.attachments part
  | i :: path, part => sf.children[i]?.bind fun child => child.item? path part

def Report.item? (r : Report C I) (p : ReportPlace) : Option (Held C I) :=
  (r.head :: r.peers.items)[p.1]?.bind fun sf => sf.item? p.2.1 p.2.2

theorem partOf_attachment {attachments : List I} {p : Place} {x : Held C I}
    (h : (p, x) ∈ attachmentPlaces attachments) (context : Held C I) :
    p.1 = [] ∧ partOf context attachments p.2 = some x := by
  obtain ⟨⟨a, i⟩, ha, hp⟩ := List.mem_map.mp h
  obtain ⟨rfl, rfl⟩ := Prod.mk.inj hp
  have hget := List.mem_zipIdx_iff_getElem?.mp ha
  exact ⟨rfl, by rw [partOf, hget]; rfl⟩

mutual

theorem item?_of_mem (rev : Bool) : ∀ (df : DynamicFrame I) (p : Place) (x : Held C I),
    (p, x) ∈ df.places rev → df.item? p.1 p.2 = some x
  | ⟨context, attachments, children, lostAttachments, lostChildren⟩, p, x, h => by
    rw [DynamicFrame.places] at h
    rcases List.mem_cons.mp h with heq | hmem
    · obtain ⟨rfl, rfl⟩ := Prod.mk.inj heq
      rfl
    · rcases List.mem_append.mp hmem with hatt | hchild
      · obtain ⟨hnil, hpart⟩ := partOf_attachment hatt (.inr context)
        rw [hnil]
        exact hpart
      · obtain ⟨j, child, path, hp, hget, hitem⟩ := childItem_of_mem rev 0 children p x hchild
        rw [hp, DynamicFrame.item?, Nat.zero_add, hget]
        exact hitem

theorem childItem_of_mem (rev : Bool) (i : Nat) : ∀ (l : List (DynamicFrame I)) (p : Place)
    (x : Held C I), (p, x) ∈ childPlaces rev i l → ∃ j child path, p.1 = (i + j) :: path ∧
      l[j]? = some child ∧ child.item? path p.2 = some x
  | [], p, x, h => by
    rw [childPlaces] at h
    exact absurd h (List.not_mem_nil)
  | child :: rest, p, x, h => by
    have hor : (p, x) ∈ (child.places rev).map (heldUnder i) ∨
        (p, x) ∈ childPlaces rev (i + 1) rest := by
      rw [childPlaces] at h
      split at h
      · exact (List.mem_append.mp h).symm
      · exact List.mem_append.mp h
    rcases hor with hself | hrest
    · obtain ⟨⟨q, y⟩, hq, heq⟩ := List.mem_map.mp hself
      obtain ⟨rfl, rfl⟩ := Prod.mk.inj heq
      exact ⟨0, child, q.1, rfl, rfl, item?_of_mem rev child q _ hq⟩
    · obtain ⟨j, child', path, hp, hget, hitem⟩ := childItem_of_mem rev (i + 1) rest p x hrest
      exact ⟨j + 1, child', path, by rw [hp, Nat.add_assoc, Nat.add_comm 1], hget, hitem⟩

end

theorem StaticFrame.item?_of_mem (rev : Bool) (sf : StaticFrame C I) {p : Place} {x : Held C I}
    (h : (p, x) ∈ sf.places rev) : sf.item? p.1 p.2 = some x := by
  rw [places] at h
  rcases List.mem_cons.mp h with heq | hmem
  · obtain ⟨rfl, rfl⟩ := Prod.mk.inj heq
    rfl
  · rcases List.mem_append.mp hmem with hatt | hchild
    · obtain ⟨hnil, hpart⟩ := partOf_attachment hatt (.inl sf.context.context)
      rw [hnil]
      exact hpart
    · obtain ⟨j, child, path, hp, hget, hitem⟩ := childItem_of_mem rev 0 sf.children p x hchild
      rw [hp, item?, Nat.zero_add, hget]
      exact hitem

theorem rootItem_of_mem (rev : Bool) (i : Nat) (l : List (StaticFrame C I)) {p : ReportPlace}
    {x : Held C I} (h : (p, x) ∈ rootPlaces rev i l) :
    ∃ j sf, p.1 = i + j ∧ l[j]? = some sf ∧ sf.item? p.2.1 p.2.2 = some x := by
  induction l generalizing i with
  | nil => exact absurd h (List.not_mem_nil)
  | cons sf rest ih =>
    rw [rootPlaces] at h
    rcases List.mem_append.mp h with hself | hrest
    · obtain ⟨⟨q, y⟩, hq, heq⟩ := List.mem_map.mp hself
      obtain ⟨rfl, rfl⟩ := Prod.mk.inj heq
      exact ⟨0, sf, rfl, rfl, sf.item?_of_mem rev hq⟩
    · obtain ⟨j, sf', hp, hget, hitem⟩ := ih (i + 1) hrest
      exact ⟨j + 1, sf', by rw [hp, Nat.add_assoc, Nat.add_comm 1], hget, hitem⟩

theorem Report.item?_of_first {t : TypeTest C I} {rev : Bool} {r : Report C I} {p : ReportPlace}
    (h : firstOf t (r.places rev) = some p) : ∃ x, r.item? p = some x ∧ t.holds x = true := by
  obtain ⟨⟨q, x⟩, hfind, rfl⟩ := Option.map_eq_some_iff.mp h
  obtain ⟨j, sf, hp, hget, hitem⟩ := rootItem_of_mem rev 0 _ (List.mem_of_find?_eq_some hfind)
  have hholds : t.holds x = true :=
    List.find?_some (p := fun y : ReportPlace × Held C I => t.holds y.2) hfind
  refine ⟨x, ?_, hholds⟩
  rw [item?, hp, Nat.zero_add, hget]
  exact hitem

/-- The searches agree, wherever the deques are split, and find the first place: the head comes
before the peers, a context before the attachments, and these before the children, of which the
last comes first. -/
theorem Report.searches_agree (t : TypeTest C I) (wrap : Nat → Nat) (r : Report C I) :
    (r.contains t = true ↔ (r.downcastRef t).isSome = true) ∧
      ((r.downcastRef t).isSome = true ↔ (r.downcastMut t wrap).isSome = true) ∧
      r.downcastMut t wrap = r.downcastRef t ∧
      r.downcastRef t = firstOf t (r.places true) ∧
      ∀ p, r.downcastRef t = some p → ∃ x, r.item? p = some x ∧ t.holds x = true := by
  have hsame := r.downcastRef_eq t wrap
  have hfirst := (r.downcastRef_eq t wrap).trans (r.downcastMut_first t wrap)
  refine ⟨by rw [contains_eq], by rw [hsame], hsame.symm, hfirst, fun p hp => ?_⟩
  exact item?_of_first (hfirst.symm.trans hp)

end Rustyfill.Errors
