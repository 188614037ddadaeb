import Mathlib.Algebra.GroupWithZero.Nat
import Rustyfill.Errors.Entries

/-!
# The markers for lost frames

`frames` puts a marker behind the children of a frame that has lost some. A frame that has lost
all of its children has nothing on the stack, and gets no marker.
-/

namespace Rustyfill.Errors

set_option autoImplicit false

open Transition Resumable DynamicFrame

variable {C I : Type}

def markersOf : FrameRef C I × Nat → List Nat
  | (.lostFrames n, _) => [n]
  | _ => []

namespace FrameRef

def hidden (frame : FrameRef C I) : Nat := if frame.children = [] then frame.lostChildren else 0

end FrameRef

/-- The marker for `n` lost frames. -/
def marker (n : Nat) : List Nat := if 0 < n then [n] else []

@[simp] theorem sum_marker (n : Nat) : (marker n).sum = n := by
  unfold marker
  split
  · simp
  · simp only [List.sum_nil]
    omega

mutual

def DynamicFrame.markers : DynamicFrame I → List Nat
  | ⟨_, _, children, _, lostChildren⟩ =>
    if children.isEmpty then [] else markersAll children ++ marker lostChildren

def markersAll : List (DynamicFrame I) → List Nat
  | [] => []
  | df :: rest => df.markers ++ markersAll rest

end

def levelMarkers (children : List (DynamicFrame I)) (lost : Nat) : List Nat :=
  if children.isEmpty then [] else markersAll children ++ marker lost

theorem DynamicFrame.markers_eq (df : DynamicFrame I) :
    df.markers = levelMarkers df.children df.lostChildren := by
  cases df
  rw [markers]
  rfl

@[simp] theorem markersAll_nil : markersAll ([] : List (DynamicFrame I)) = [] := by
  rw [markersAll]

def StaticFrame.markers (sf : StaticFrame C I) : List Nat :=
  levelMarkers sf.children sf.lostChildren

namespace Report

def markers (r : Report C I) : List Nat :=
  r.head.markers ++ r.peers.items.flatMap StaticFrame.markers ++ marker r.lostPeers

def lostChildren (r : Report C I) : Nat := (r.preorder.map fun x => x.1.lostChildren).sum

def hidden (r : Report C I) : Nat := (r.preorder.map fun x => x.1.hidden).sum

end Report

/-! ## What the markers add up to -/

def sumOf (f : FrameRef C I → Nat) (l : List (FrameRef C I × Nat)) : Nat :=
  (l.map fun x => f x.1).sum

theorem sumOf_append (f : FrameRef C I → Nat) (l l' : List (FrameRef C I × Nat)) :
    sumOf f (l ++ l') = sumOf f l + sumOf f l' := by
  simp [sumOf]

theorem sumOf_cons (f : FrameRef C I → Nat) (x : FrameRef C I × Nat)
    (l : List (FrameRef C I × Nat)) : sumOf f (x :: l) = f x.1 + sumOf f l := by
  simp [sumOf]

theorem sum_levelMarkers {children : List (DynamicFrame I)} {hidden lostBelow : Nat}
    (hbelow : (markersAll children).sum + hidden = lostBelow) (lost : Nat) :
    (levelMarkers children lost).sum + ((if children = [] then lost else 0) + hidden) =
      lost + lostBelow := by
  unfold levelMarkers
  cases children with
  | nil =>
    simp only [markersAll_nil, List.sum_nil] at hbelow
    simp only [List.isEmpty_nil, if_true, List.sum_nil]
    omega
  | cons df rest =>
    simp only [List.isEmpty_cons, Bool.false_eq_true, if_false, List.sum_append, sum_marker,
      reduceCtorEq]
    omega

mutual

theorem sum_markers (depth : Nat) : ∀ df : DynamicFrame I,
    df.markers.sum + sumOf FrameRef.hidden (df.preorder depth : List (FrameRef C I × Nat)) =
      sumOf FrameRef.lostChildren (df.preorder depth : List (FrameRef C I × Nat))
  | ⟨context, attachments, children, lostAttachments, lostChildren⟩ => by
    rw [DynamicFrame.markers_eq, DynamicFrame.preorder_eq, sumOf_cons, sumOf_cons]
    exact sum_levelMarkers (sum_markersAll (depth + 1) children) lostChildren

theorem sum_markersAll (depth : Nat) : ∀ l : List (DynamicFrame I),
    (markersAll l).sum + sumOf FrameRef.hidden (preorderAll depth l : List (FrameRef C I × Nat)) =
      sumOf FrameRef.lostChildren (preorderAll depth l : List (FrameRef C I × Nat))
  | [] => by simp [sumOf]
  | df :: rest => by
    have hfirst := sum_markers depth df
    have hrest := sum_markersAll depth rest
    rw [markersAll, preorderAll, List.sum_append, sumOf_append, sumOf_append]
    omega

end

theorem StaticFrame.sum_markers (sf : StaticFrame C I) :
    sf.markers.sum + sumOf FrameRef.hidden sf.preorder =
      sumOf FrameRef.lostChildren sf.preorder := by
  rw [StaticFrame.preorder, sumOf_cons, sumOf_cons]
  exact sum_levelMarkers (sum_markersAll 1 sf.children) sf.lostChildren

namespace Report

theorem sum_markers (r : Report C I) :
    r.markers.sum + r.hidden = r.lostPeers + r.lostChildren := by
  have hpeers : ∀ l : List (StaticFrame C I), (l.flatMap StaticFrame.markers).sum +
      sumOf FrameRef.hidden (l.flatMap StaticFrame.preorder) =
        sumOf FrameRef.lostChildren (l.flatMap StaticFrame.preorder) := by
    intro l
    induction l with
    | nil => rfl
    | cons sf l ih =>
      have hfirst := sf.sum_markers
      rw [List.flatMap_cons, List.flatMap_cons, List.sum_append, sumOf_append, sumOf_append]
      omega
  have hhead := r.head.sum_markers
  have hrest := hpeers r.peers.items
  have hhidden : r.hidden = sumOf FrameRef.hidden r.head.preorder +
      sumOf FrameRef.hidden (r.peers.items.flatMap StaticFrame.preorder) :=
    sumOf_append _ _ _
  have hlost : r.lostChildren = sumOf FrameRef.lostChildren r.head.preorder +
      sumOf FrameRef.lostChildren (r.peers.items.flatMap StaticFrame.preorder) :=
    sumOf_append _ _ _
  rw [markers, List.sum_append, List.sum_append, sum_marker, hhidden, hlost]
  omega

/-- Nothing is hidden when the frames without children have lost none. -/
theorem hidden_eq_zero (r : Report C I) : r.hidden = 0 ↔
    ∀ x ∈ r.preorder, x.1.children = [] → x.1.lostChildren = 0 := by
  unfold hidden
  rw [List.sum_eq_zero_iff_forall_eq_nat]
  constructor
  · intro h x hx hchildren
    have hzero := h x.1.hidden (List.mem_map_of_mem hx)
    rwa [FrameRef.hidden, if_pos hchildren] at hzero
  · intro h n hn
    obtain ⟨x, hx, rfl⟩ := List.mem_map.mp hn
    unfold FrameRef.hidden
    split
    · next hchildren => exact h x hx hchildren
    · rfl

end Report

/-! ## The markers among the entries -/

theorem lostEntry_markers (depth n : Nat) :
    (lostEntry depth n : List (FrameRef C I × Nat)).flatMap markersOf = marker n := by
  unfold lostEntry marker
  split <;> rfl

theorem levelEntries_markers {depth : Nat} {children : List (DynamicFrame I)}
    (h : (entriesAll depth children : List (FrameRef C I × Nat)).flatMap markersOf =
      markersAll children) (lost : Nat) :
    (levelEntries depth children lost : List (FrameRef C I × Nat)).flatMap markersOf =
      levelMarkers children lost := by
  unfold levelEntries levelMarkers
  split
  · rfl
  · rw [List.flatMap_append, h, lostEntry_markers]

mutual

theorem DynamicFrame.entries_markers (depth : Nat) : ∀ df : DynamicFrame I,
    (df.entries depth : List (FrameRef C I × Nat)).flatMap markersOf = df.markers
  | ⟨context, attachments, children, lostAttachments, lostChildren⟩ => by
    rw [DynamicFrame.entries_eq, DynamicFrame.markers_eq, List.flatMap_cons]
    exact levelEntries_markers (entriesAll_markers (depth + 1) children) lostChildren

theorem entriesAll_markers (depth : Nat) : ∀ l : List (DynamicFrame I),
    (entriesAll depth l : List (FrameRef C I × Nat)).flatMap markersOf = markersAll l
  | [] => by
    rw [entriesAll_nil, markersAll_nil]
    rfl
  | df :: rest => by
    rw [entriesAll, markersAll, List.flatMap_append, df.entries_markers, entriesAll_markers]

end

theorem StaticFrame.entries_markers (sf : StaticFrame C I) :
    sf.entries.flatMap markersOf = sf.markers := by
  rw [StaticFrame.entries, List.flatMap_cons]
  exact levelEntries_markers (entriesAll_markers 1 sf.children) sf.lostChildren

theorem flatMap_entries_markers (roots : List (StaticFrame C I)) :
    (roots.flatMap StaticFrame.entries).flatMap markersOf =
      roots.flatMap StaticFrame.markers := by
  rw [List.flatMap_assoc]
  exact congrArg (fun f => List.flatMap f roots) (funext StaticFrame.entries_markers)

/-! ## What the walk yields -/

namespace Walk

def markersOnStack : List (StackEntry I) → List Nat
  | [] => []
  | entry :: rest => markersAll entry.iter ++ (marker entry.lostChildren ++ markersOnStack rest)

def markersPending : Option (FrameRef C I) → List Nat
  | none => []
  | some frame => levelMarkers frame.children frame.lostChildren

/-- The markers that are still to come, with those of the frames at the root. -/
def markersLeft (w : Walk C I) (roots : List (StaticFrame C I)) : List Nat :=
  markersPending w.pendingFrame ++ (markersOnStack w.stack.items ++
    (roots.flatMap StaticFrame.markers ++ if w.rootLostEmitted then [] else marker w.rootLostPeers))

variable {w w' : Walk C I} {a a' : Allocator}

theorem retry_granted {failure : Option (TryReserveError × Nat)} (hg : ∀ n, a.grants n = true)
    (h : w.retry a = .ok (failure, w', a')) : failure = none ∧ ∀ n, a'.grants n = true := by
  unfold retry at h
  cases hpending : w.pendingFrame with
  | none =>
    simp only [hpending, Except.ok.injEq, Prod.mk.injEq] at h
    obtain ⟨rfl, -, rfl⟩ := h
    exact ⟨rfl, hg⟩
  | some frame =>
    simp only [hpending] at h
    obtain ⟨⟨children, lost⟩, -, h⟩ := bind_eq_ok.mp h
    by_cases hempty : children.isEmpty = true
    · simp only [hempty, if_true, Except.ok.injEq, Prod.mk.injEq] at h
      obtain ⟨rfl, -, rfl⟩ := h
      exact ⟨rfl, hg⟩
    · simp only [hempty, Bool.false_eq_true, if_false] at h
      rcases w.stack.tryPushFront_cases ⟨children, lost⟩ a with
        ⟨capacity, a₁, hpush, ha₁⟩ | ⟨-, hrefused⟩
      · rw [hpush] at h
        simp only [Except.ok.injEq, Prod.mk.injEq] at h
        obtain ⟨rfl, -, rfl⟩ := h
        exact ⟨rfl, fun n => by rw [ha₁, hg]⟩
      · rw [hg] at hrefused
        simp at hrefused

theorem onStack_markers (entries : List (StackEntry I)) :
    (entriesOnStack entries : List (FrameRef C I × Nat)).flatMap markersOf =
      markersOnStack entries := by
  induction entries with
  | nil => rfl
  | cons entry rest ih =>
    rw [entriesOnStack, markersOnStack, List.flatMap_append, List.flatMap_append,
      entriesAll_markers, lostEntry_markers, ih]

theorem pending_markers (depth : Nat) (pending : Option (FrameRef C I)) :
    (entriesPending depth pending).flatMap markersOf = markersPending pending := by
  cases pending with
  | none => rfl
  | some frame => exact levelEntries_markers (entriesAll_markers depth _) _

theorem left_markers (w : Walk C I) (roots : List (StaticFrame C I)) :
    (w.entriesLeft roots).flatMap markersOf = w.markersLeft roots := by
  rw [entriesLeft, markersLeft, List.flatMap_append, List.flatMap_append, List.flatMap_append,
    pending_markers, onStack_markers, flatMap_entries_markers]
  split
  · rfl
  · rw [lostEntry_markers]

end Walk

namespace Frames

def markersLeft (s : Frames C I) : List Nat :=
  (if s.headRemaining then s.headRef.markers else []) ++ s.toWalk.markersLeft s.peerIter

theorem left_markers (s : Frames C I) : s.entriesLeft.flatMap markersOf = s.markersLeft := by
  rw [entriesLeft, markersLeft, List.flatMap_append, Walk.left_markers]
  split
  · rw [StaticFrame.entries_markers]
  · rfl

theorem next_markers {s t : Frames C I} {a a' : Allocator} {e : Option (Item C I)}
    (hs : s.Fresh) (h : s.next a = .ok (e, t, a')) (he : ∀ x, e ≠ some (.error x)) :
    t.Fresh ∧ s.markersLeft = yielded markersOf [e] ++ t.markersLeft ∧
      (e = none → t.markersLeft = []) := by
  obtain ⟨ht, -, hleft, hend⟩ := next_entries hs h he
  rw [← left_markers, ← left_markers, hleft, List.flatMap_append]
  refine ⟨ht, ?_, fun hnone => by rw [hend hnone, List.flatMap_nil]⟩
  rcases e with _ | (x | b)
  · rfl
  · exact absurd rfl (he x)
  · simp

theorem next_granted {s t : Frames C I} {a a' : Allocator} {e : Option (Item C I)}
    (hg : ∀ n, a.grants n = true) (h : s.next a = .ok (e, t, a')) :
    (∀ x, e ≠ some (.error x)) ∧ ∀ n, a'.grants n = true := by
  unfold next at h
  obtain ⟨⟨failure, w, a₁⟩, hretry, h⟩ := bind_eq_ok.mp h
  obtain ⟨rfl, hg₁⟩ := Walk.retry_granted hg hretry
  cases hhead : s.headRemaining with
  | true =>
    simp only [hhead, if_true, Except.ok.injEq, Prod.mk.injEq] at h
    obtain ⟨rfl, -, rfl⟩ := h
    exact ⟨by simp, hg₁⟩
  | false =>
    rcases hadvance : w.advance s.peerIter with ⟨item, w', rest⟩
    have hcall := next_advance hretry hhead hadvance
    unfold next at hcall
    rw [hretry, ok_bind, h] at hcall
    simp only [Except.ok.injEq, Prod.mk.injEq] at hcall
    obtain ⟨rfl, -, rfl⟩ := hcall
    exact ⟨by cases item <;> simp, hg₁⟩

theorem run_granted {s t : Frames C I × Allocator} {es : List (Option (Item C I))}
    (hr : Run (Calls Frames.next) s es t) (hg : ∀ n, s.2.grants n = true) :
    ∀ e ∈ es, ∀ x, e ≠ some (.error x) := by
  induction hr with
  | nil => simp
  | cons hcall _ ih =>
    obtain ⟨he, hg'⟩ := next_granted hg hcall
    exact List.forall_mem_cons.mpr ⟨he, ih hg'⟩

theorem accounts_markers : Accounts
    (Guarded (Calls (C := C) (I := I) Frames.next) fun _ e => ∀ x, e ≠ some (.error x)) markersOf
    (fun s => s.1.Fresh) (fun s => s.1.markersLeft) where
  item := fun {s b t} hs hcall => by
    obtain ⟨ht, hleft, -⟩ := next_markers hs hcall.2 hcall.1
    exact ⟨ht, by simpa using hleft⟩
  failure := fun {s e t} _ hcall => absurd rfl (hcall.1 e)
  done := fun {s t} hs hcall => by
    obtain ⟨ht, hleft, hend⟩ := next_markers hs hcall.2 hcall.1
    refine ⟨ht, ?_, hend rfl⟩
    rw [hleft, hend rfl]
    rfl

end Frames

namespace Report

/-- The walk, which goes on by itself after a failure or not. -/
def framesWith (r : Report C I) (auto : Bool) : Frames C I :=
  { r.frames with toWalk := r.frames.toWalk.setAutoUnstall auto }

/-- A walk without failures, over a whole report. -/
def Walked (r : Report C I) (es : List (Option (Item C I))) : Prop :=
  ∃ auto a t, Run (Calls Frames.next) (r.framesWith auto, a) es t ∧ none ∈ es ∧
    ∀ e ∈ es, ∀ x, e ≠ some (.error x)

theorem markers_of_walked (r : Report C I) {es : List (Option (Item C I))} (h : r.Walked es) :
    yielded markersOf es = r.markers := by
  obtain ⟨auto, a, t, hr, hnone, hgood⟩ := h
  have hfresh : (r.framesWith auto).Fresh := fun _ => ⟨rfl, rfl⟩
  rw [Frames.accounts_markers.yielded_of_none (hr.guard hgood) hfresh hnone]
  have hall : (r.framesWith auto).markersLeft = r.head.markers ++
      (r.peers.items.flatMap StaticFrame.markers ++ marker r.lostPeers) := rfl
  rw [hall, markers, List.append_assoc]

theorem exists_walked (r : Report C I) : ∃ es, r.Walked es := by
  have hfair : (⟨fun _ => true, 0⟩ : Allocator).Fair := fun _ => ⟨0, rfl⟩
  obtain ⟨es, t, hr, hnone⟩ := (Frames.complete r).ends _ hfair
  exact ⟨es, false, _, t, hr, hnone, Frames.run_granted hr fun _ => rfl⟩

end Report

/-- The markers add up to what was lost exactly if no frame has lost all of its children. -/
theorem markers_total_iff (r : Report C I) :
    (∀ es, r.Walked es → (yielded markersOf es).sum = r.lostPeers + r.lostChildren) ↔
      ∀ x ∈ r.preorder, x.1.children = [] → x.1.lostChildren = 0 := by
  have hsum := r.sum_markers
  rw [← r.hidden_eq_zero]
  constructor
  · intro h
    obtain ⟨es, hes⟩ := r.exists_walked
    have htotal := h es hes
    rw [r.markers_of_walked hes] at htotal
    omega
  · intro hzero es hes
    rw [r.markers_of_walked hes]
    omega

namespace Report

/-- What a refused change of context makes of a report: its only frame is lost. -/
def lostContext : Report String (ContextFrame String) :=
  { Report.new "request failed" here with
    head := { StaticFrame.new (.new "request failed" here) with lostChildren := 1 } }

/-- The frame that is lost gets no marker. -/
theorem lostContext_unmarked :
    (∃ a, changeContext id (Report.new "outer" here) "request failed" here ⟨fun _ => false, 0⟩ =
      .ok (lostContext, a)) ∧
    ¬ ∀ r : Report String (ContextFrame String), ∀ es, r.Walked es →
      (yielded markersOf es).sum = r.lostPeers + r.lostChildren := by
  refine ⟨⟨_, rfl⟩, fun h => ?_⟩
  obtain ⟨es, hes⟩ := lostContext.exists_walked
  have htotal := h lostContext es hes
  rw [lostContext.markers_of_walked hes] at htotal
  have hlost : lostContext.lostPeers + lostContext.lostChildren = 1 := rfl
  have hmarkers : lostContext.markers = [] := rfl
  rw [hlost, hmarkers] at htotal
  simp at htotal

end Report

end Rustyfill.Errors
