import Rustyfill.Errors.Traversal

/-!
# Frames and markers

All that a walk with nothing refused answers with: the frames in their order, and a marker behind
the children of a frame that has lost some.
-/

namespace Rustyfill.Errors

set_option autoImplicit false

open Transition Resumable

variable {C I : Type}

namespace FrameRef

def children : FrameRef C I → List (DynamicFrame I)
  | static sf => sf.children
  | dynamic df => df.children
  | lostFrames _ => []

def lostChildren : FrameRef C I → Nat
  | static sf => sf.lostChildren
  | dynamic df => df.lostChildren
  | lostFrames _ => 0

end FrameRef

def lostEntry (depth n : Nat) : List (FrameRef C I × Nat) :=
  if 0 < n then [(.lostFrames n, depth)] else []

mutual

def DynamicFrame.entries (depth : Nat) : DynamicFrame I → List (FrameRef C I × Nat)
  | ⟨context, attachments, children, lostAttachments, lostChildren⟩ =>
    (.dynamic ⟨context, attachments, children, lostAttachments, lostChildren⟩, depth) ::
      if children.isEmpty then []
      else entriesAll (depth + 1) children ++ lostEntry (depth + 1) lostChildren

def entriesAll (depth : Nat) : List (DynamicFrame I) → List (FrameRef C I × Nat)
  | [] => []
  | df :: rest => DynamicFrame.entries depth df ++ entriesAll depth rest

end

def levelEntries (depth : Nat) (children : List (DynamicFrame I)) (lost : Nat) :
    List (FrameRef C I × Nat) :=
  if children.isEmpty then [] else entriesAll depth children ++ lostEntry depth lost

theorem DynamicFrame.entries_eq (depth : Nat) (df : DynamicFrame I) : df.entries depth =
    ((.dynamic df, depth) :: levelEntries (depth + 1) df.children df.lostChildren :
      List (FrameRef C I × Nat)) := by
  cases df
  rw [entries]
  rfl

@[simp] theorem entriesAll_nil (depth : Nat) :
    (entriesAll depth ([] : List (DynamicFrame I)) : List (FrameRef C I × Nat)) = [] := by
  rw [entriesAll]

theorem entriesAll_cons (depth : Nat) (df : DynamicFrame I) (rest : List (DynamicFrame I)) :
    (entriesAll depth (df :: rest) : List (FrameRef C I × Nat)) = (.dynamic df, depth) ::
      (levelEntries (depth + 1) df.children df.lostChildren ++ entriesAll depth rest) := by
  rw [entriesAll, DynamicFrame.entries_eq, List.cons_append]

theorem levelEntries_nil (depth lost : Nat) :
    (levelEntries depth ([] : List (DynamicFrame I)) lost : List (FrameRef C I × Nat)) = [] := rfl

theorem levelEntries_of_ne {children : List (DynamicFrame I)} (h : children ≠ [])
    (depth lost : Nat) : (levelEntries depth children lost : List (FrameRef C I × Nat)) =
      entriesAll depth children ++ lostEntry depth lost := by
  rw [levelEntries, if_neg (by simpa using h)]

def StaticFrame.entries (sf : StaticFrame C I) : List (FrameRef C I × Nat) :=
  (.static sf, 0) :: levelEntries 1 sf.children sf.lostChildren

def Report.entries (r : Report C I) : List (FrameRef C I × Nat) :=
  (r.head :: r.peers.items).flatMap StaticFrame.entries ++ lostEntry 0 r.lostPeers

/-! ## What the walk still has to answer with -/

namespace Walk

def entriesOnStack : List (StackEntry I) → List (FrameRef C I × Nat)
  | [] => []
  | entry :: rest => entriesAll (rest.length + 1) entry.iter ++
      (lostEntry (rest.length + 1) entry.lostChildren ++ entriesOnStack rest)

def entriesPending (depth : Nat) : Option (FrameRef C I) → List (FrameRef C I × Nat)
  | none => []
  | some frame => levelEntries depth frame.children frame.lostChildren

def entriesLeft (w : Walk C I) (roots : List (StaticFrame C I)) : List (FrameRef C I × Nat) :=
  entriesPending (w.stack.items.length + 1) w.pendingFrame ++ (entriesOnStack w.stack.items ++
    (roots.flatMap StaticFrame.entries ++
      if w.rootLostEmitted then [] else lostEntry 0 w.rootLostPeers))

/-- A marker has no children to wait for. -/
def Sound (w : Walk C I) : Prop := ∀ n, w.pendingFrame ≠ some (.lostFrames n)

variable {w w' : Walk C I} {roots rest : List (StaticFrame C I)} {a a' : Allocator}

theorem childrenOf_eq {frame : FrameRef C I} {x : List (DynamicFrame I) × Nat}
    (h : childrenOf frame = .ok x) : x = (frame.children, frame.lostChildren) := by
  cases frame with
  | static sf => exact (Except.ok.inj h).symm
  | dynamic df => exact (Except.ok.inj h).symm
  | lostFrames n => simp [childrenOf] at h

/-- A push that is not refused moves the entries of a level to the stack. -/
theorem retry_entries (h : w.retry a = .ok (none, w', a')) : w'.pendingFrame = none ∧
    w'.entriesLeft roots = w.entriesLeft roots ∧
      (w.pendingFrame = none → w'.stack = w.stack) := by
  unfold retry at h
  cases hpending : w.pendingFrame with
  | none =>
    simp only [hpending, Except.ok.injEq, Prod.mk.injEq, true_and] at h
    obtain ⟨rfl, -⟩ := h
    refine ⟨rfl, ?_, fun _ => rfl⟩
    simp only [entriesLeft, hpending]
  | some frame =>
    simp only [hpending] at h
    obtain ⟨⟨children, lost⟩, hof, h⟩ := bind_eq_ok.mp h
    obtain ⟨rfl, rfl⟩ := Prod.mk.inj (childrenOf_eq hof)
    have hpend : w.entriesLeft roots =
        levelEntries (w.stack.items.length + 1) frame.children frame.lostChildren ++
          (entriesOnStack w.stack.items ++ (roots.flatMap StaticFrame.entries ++
            if w.rootLostEmitted then [] else lostEntry 0 w.rootLostPeers)) := by
      rw [entriesLeft, hpending]
      rfl
    unfold levelEntries at hpend
    by_cases hempty : frame.children.isEmpty = true
    · simp only [hempty, if_true, Except.ok.injEq, Prod.mk.injEq, true_and] at h hpend
      obtain ⟨rfl, -⟩ := h
      refine ⟨rfl, ?_, by simp⟩
      rw [hpend]
      rfl
    · rw [if_neg hempty] at hpend
      simp only [hempty, Bool.false_eq_true, if_false] at h
      rcases w.stack.tryPushFront_cases ⟨frame.children, frame.lostChildren⟩ a with
        ⟨capacity, a₁, hpush, -⟩ | ⟨hpush, -⟩
      · rw [hpush] at h
        simp only [Except.ok.injEq, Prod.mk.injEq, true_and] at h
        obtain ⟨rfl, -⟩ := h
        refine ⟨rfl, ?_, by simp⟩
        rw [hpend]
        simp only [entriesLeft, entriesPending, entriesOnStack, List.nil_append, List.append_assoc]
      · rw [hpush] at h
        dsimp only at h
        split at h <;> simp at h

/-- The stack has a frame to visit, with the entries of what is below it, a marker, or nothing. -/
theorem unwind_entries (entries : List (StackEntry I)) :
    (@unwind C I entries = (none, []) ∧ @entriesOnStack C I entries = []) ∨
    (∃ df entry rest,
      @unwind C I entries = (some (.dynamic df, rest.length + 1), entry :: rest) ∧
      @entriesOnStack C I entries = (.dynamic df, rest.length + 1) ::
        (levelEntries (rest.length + 2) df.children df.lostChildren ++
          entriesOnStack (entry :: rest))) ∨
    ∃ n depth rest, @unwind C I entries = (some (.lostFrames n, depth), rest) ∧
      @entriesOnStack C I entries = (.lostFrames n, depth) :: entriesOnStack rest := by
  induction entries with
  | nil => exact Or.inl ⟨rfl, rfl⟩
  | cons entry rest ih =>
    obtain ⟨iter, lost⟩ := entry
    rcases iter with _ | ⟨df, iter⟩
    · rw [unwind, entriesOnStack, entriesAll_nil, List.nil_append, lostEntry]
      by_cases hlost : 0 < lost
      · rw [if_pos hlost, if_pos hlost]
        exact Or.inr (Or.inr ⟨lost, _, rest, rfl, rfl⟩)
      · rw [if_neg hlost, if_neg hlost, List.nil_append]
        exact ih
    · refine Or.inr (Or.inl ⟨df, ⟨iter, lost⟩, rest, rfl, ?_⟩)
      rw [entriesOnStack, entriesAll_cons, entriesOnStack]
      simp only [List.cons_append, List.append_assoc]

theorem queue_entries (hpending : w.pendingFrame = none) (frame : FrameRef C I) :
    (w.queue frame frame.children).entriesLeft roots =
      levelEntries (w.stack.items.length + 1) frame.children frame.lostChildren ++
        w.entriesLeft roots := by
  unfold queue
  by_cases hempty : frame.children.isEmpty = true
  · rw [if_pos hempty, levelEntries, if_pos hempty, List.nil_append]
  · rw [if_neg hempty]
    simp only [entriesLeft, hpending, entriesPending, List.nil_append]

theorem queue_sound (h : w.Sound) (frame : FrameRef C I) (hframe : ∀ n, frame ≠ .lostFrames n) :
    (w.queue frame frame.children).Sound := by
  unfold queue
  split
  · exact h
  · intro n heq
    exact hframe n (Option.some.inj heq)

theorem descend_entries (hpending : w.pendingFrame = none) :
    ∃ item w', w.descend = (item, w') ∧ w'.Sound ∧
      w.entriesLeft roots = item.toList ++ w'.entriesLeft roots ∧
      (item = none → w'.pendingFrame = none ∧ w'.stack.items = []) := by
  have hsound : ∀ items, ({ w with stack := { w.stack with items := items } }).Sound :=
    fun _ n heq => by simp [hpending] at heq
  rcases @unwind_entries C I w.stack.items with ⟨hunwind, hentries⟩ |
    ⟨df, entry, rest, hunwind, hentries⟩ | ⟨n, depth, rest, hunwind, hentries⟩
  · refine ⟨none, { w with stack := { w.stack with items := [] } }, ?_, hsound [], ?_,
      fun _ => ⟨hpending, rfl⟩⟩
    · rw [descend, hunwind]
    · simp [entriesLeft, hpending, hentries, entriesOnStack, entriesPending]
  · refine ⟨some (.dynamic df, rest.length + 1),
      ({ w with stack := { w.stack with items := entry :: rest } }).queue (.dynamic df) df.children,
      ?_, queue_sound (hsound _) (.dynamic df) (by simp), ?_, by simp⟩
    · rw [descend, hunwind]
    · have hqueue := @queue_entries C I { w with stack := { w.stack with items := entry :: rest } }
        roots hpending (.dynamic df)
      simp only [FrameRef.children, FrameRef.lostChildren] at hqueue
      rw [hqueue]
      simp [entriesLeft, hpending, hentries, entriesPending]
  · refine ⟨some (.lostFrames n, depth), { w with stack := { w.stack with items := rest } },
      ?_, hsound rest, ?_, by simp⟩
    · rw [descend, hunwind]
    · simp [entriesLeft, hpending, hentries, entriesPending]

theorem advance_entries (hpending : w.pendingFrame = none) (roots : List (StaticFrame C I)) :
    ∃ item w' rest, w.advance roots = (item, w', rest) ∧ w'.Sound ∧
      w.entriesLeft roots = item.toList ++ w'.entriesLeft rest ∧
      (item = none → w'.entriesLeft rest = []) := by
  obtain ⟨item, w', hdescend, hsound, hentries, hend⟩ := @descend_entries C I w roots hpending
  cases item with
  | some x =>
    exact ⟨some x, w', roots, by simp only [advance, hdescend], hsound, hentries, by simp⟩
  | none =>
    obtain ⟨hpending', hempty⟩ := hend rfl
    cases roots with
    | cons sf rest =>
      refine ⟨some (.static sf, 0), w'.queue (.static sf) sf.children, rest,
        by simp only [advance, hdescend],
        queue_sound hsound (.static sf) (by simp), ?_, by simp⟩
      have hqueue := @queue_entries C I w' rest hpending' (.static sf)
      simp only [FrameRef.children, FrameRef.lostChildren] at hqueue
      rw [hentries, hqueue]
      simp [entriesLeft, hpending', hempty, entriesPending, entriesOnStack, StaticFrame.entries]
    | nil =>
      refine ⟨w'.lostRoot.1, w'.lostRoot.2, [], by simp only [advance, hdescend], ?_, ?_, ?_⟩
      · unfold lostRoot
        split
        · exact hsound
        · exact hsound
      · rw [hentries]
        unfold lostRoot
        cases hdone : w'.rootLostEmitted with
        | true => simp [entriesLeft, hpending', hempty, entriesPending, entriesOnStack, hdone]
        | false =>
          by_cases hpos : 0 < w'.rootLostPeers
          · simp [entriesLeft, hpending', hempty, entriesPending, entriesOnStack, hdone, hpos,
              lostEntry]
          · simp [entriesLeft, hpending', hempty, entriesPending, entriesOnStack, hdone, hpos,
              lostEntry]
      · unfold lostRoot
        cases hdone : w'.rootLostEmitted with
        | true => simp [entriesLeft, hpending', hempty, entriesPending, entriesOnStack, hdone]
        | false =>
          by_cases hpos : 0 < w'.rootLostPeers
          · simp [hpos]
          · simp [entriesLeft, hpending', hempty, entriesPending, entriesOnStack, hdone, hpos,
              lostEntry]

end Walk

namespace Frames

/-- Nothing is on the way before the head. -/
def Fresh (s : Frames C I) : Prop :=
  s.headRemaining = true → s.pendingFrame = none ∧ s.stack.items = []

def entriesLeft (s : Frames C I) : List (FrameRef C I × Nat) :=
  (if s.headRemaining then s.headRef.entries else []) ++ s.toWalk.entriesLeft s.peerIter

theorem next_entries {s t : Frames C I} {a a' : Allocator} {e : Option (Item C I)}
    (hs : s.Fresh) (h : s.next a = .ok (e, t, a')) (he : ∀ x, e ≠ some (.error x)) :
    t.Fresh ∧ t.Sound ∧ s.entriesLeft = yielded (fun x => [x]) [e] ++ t.entriesLeft ∧
      (e = none → t.entriesLeft = []) := by
  have hnext := h
  unfold next at hnext
  obtain ⟨⟨failure, w, a₁⟩, hretry, hnext⟩ := bind_eq_ok.mp hnext
  cases failure with
  | some x =>
    simp only [Except.ok.injEq, Prod.mk.injEq] at hnext
    exact absurd hnext.1.symm (he x)
  | none =>
    obtain ⟨hpending, hleft, hstack⟩ := @Walk.retry_entries C I _ _ s.peerIter _ _ hretry
    cases hhead : s.headRemaining with
    | true =>
      obtain ⟨hnot, hempty⟩ := hs hhead
      have hitems : w.stack.items = [] := by rw [hstack hnot, hempty]
      have hsound : w.Sound := fun n heq => by simp [hpending] at heq
      simp only [hhead, if_true, Except.ok.injEq, Prod.mk.injEq] at hnext
      obtain ⟨rfl, rfl, -⟩ := hnext
      refine ⟨by simp [Fresh],
        Walk.queue_sound hsound (.static s.headRef) (by simp), ?_, by simp⟩
      have hqueue := @Walk.queue_entries C I w s.peerIter hpending (.static s.headRef)
      simp only [FrameRef.children, FrameRef.lostChildren] at hqueue
      simp [entriesLeft, hhead, hqueue, hleft, StaticFrame.entries, hitems]
    | false =>
      obtain ⟨item, w', rest, hadvance, hsound, hentries, hend⟩ :=
        Walk.advance_entries hpending s.peerIter
      have hcall := next_advance hretry hhead hadvance
      rw [hcall] at h
      simp only [Except.ok.injEq, Prod.mk.injEq] at h
      obtain ⟨rfl, rfl, -⟩ := h
      have hall : s.entriesLeft = w.entriesLeft s.peerIter := by
        simp [entriesLeft, hhead, hleft]
      have hrest : entriesLeft { s with toWalk := w', peerIter := rest } = w'.entriesLeft rest := by
        simp [entriesLeft, hhead]
      refine ⟨by simp [Fresh, hhead], hsound, ?_, fun hnone => ?_⟩
      · rw [hall, hrest, hentries]
        cases item <;> rfl
      · rw [hrest, hend (by simpa using hnone)]

end Frames

end Rustyfill.Errors
