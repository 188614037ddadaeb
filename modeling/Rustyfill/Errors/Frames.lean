import Rustyfill.Errors.Report
import Rustyfill.Lib.Resumable

/-!
# Walking over the frames

`Report::frames` and `Report::frames_chronological`. The stack of a walk is a `Vec` whose last
entry is on top; it is listed from the top. A frame whose children could not be pushed stays
pending, and the next call tries again.
-/

namespace Rustyfill.Errors

set_option autoImplicit false

variable {C I : Type}

inductive FrameRef (C I : Type) where
  | static (sf : StaticFrame C I)
  | dynamic (df : DynamicFrame I)
  | lostFrames (n : Nat)

/-- What a call answers with, the depth along with either. -/
abbrev Item (C I : Type) := Except (TryReserveError × Nat) (FrameRef C I × Nat)

/-! ## The order -/

mutual

def DynamicFrame.preorder (depth : Nat) : DynamicFrame I → List (FrameRef C I × Nat)
  | ⟨context, attachments, children, lostAttachments, lostChildren⟩ =>
    (.dynamic ⟨context, attachments, children, lostAttachments, lostChildren⟩, depth) ::
      DynamicFrame.preorderAll (depth + 1) children

def DynamicFrame.preorderAll (depth : Nat) : List (DynamicFrame I) → List (FrameRef C I × Nat)
  | [] => []
  | df :: rest => DynamicFrame.preorder depth df ++ DynamicFrame.preorderAll depth rest

end

theorem DynamicFrame.preorder_eq (depth : Nat) (df : DynamicFrame I) :
    df.preorder depth =
      ((.dynamic df, depth) :: preorderAll (depth + 1) df.children : List
        (FrameRef C I × Nat)) := by
  cases df
  rw [preorder]

@[simp] theorem DynamicFrame.preorderAll_nil (depth : Nat) :
    (preorderAll depth [] : List (FrameRef C I × Nat)) = [] := by
  rw [preorderAll]

theorem DynamicFrame.preorderAll_cons (depth : Nat) (df : DynamicFrame I)
    (rest : List (DynamicFrame I)) : (preorderAll depth (df :: rest) : List (FrameRef C I × Nat)) =
      (.dynamic df, depth) :: (preorderAll (depth + 1) df.children ++ preorderAll depth rest) := by
  rw [preorderAll, preorder_eq, List.cons_append]

def StaticFrame.preorder (sf : StaticFrame C I) : List (FrameRef C I × Nat) :=
  (.static sf, 0) :: DynamicFrame.preorderAll 1 sf.children

namespace Report

/-- The head and its descendants, then each peer from the front and its descendants. -/
def preorder (r : Report C I) : List (FrameRef C I × Nat) :=
  r.head.preorder ++ r.peers.items.flatMap StaticFrame.preorder

/-- The oldest peer first, the head last; children as in the other order. -/
def chronological (r : Report C I) : List (FrameRef C I × Nat) :=
  r.peers.items.reverse.flatMap StaticFrame.preorder ++ r.head.preorder

end Report

/-- The frames among the items: a marker for lost frames is none. -/
def framesOf : FrameRef C I × Nat → List (FrameRef C I × Nat)
  | (.lostFrames _, _) => []
  | item => [item]

/-! ## What the two walks share -/

/-- One level of the walk. -/
structure StackEntry (I : Type) where
  iter : List (DynamicFrame I)
  lostChildren : Nat

instance : RawVec (StackEntry I) := ⟨4⟩

structure Walk (C I : Type) where
  stack : Buffer (StackEntry I)
  rootLostPeers : Nat
  rootLostEmitted : Bool
  pendingFrame : Option (FrameRef C I)
  stalled : Bool
  autoUnstall : Bool

namespace Walk

def new (lostPeers : Nat) : Walk C I := ⟨.new, lostPeers, false, none, false, false⟩

/-- The children of a pending frame, and how many were lost. -/
def childrenOf : FrameRef C I → Except Fault (List (DynamicFrame I) × Nat)
  | .static sf => .ok (sf.children, sf.lostChildren)
  | .dynamic df => .ok (df.children, df.lostChildren)
  | .lostFrames _ => .error (.unreachable "a marker is pending")

/-- Push the children of the frame that is pending. -/
def retry (w : Walk C I) (a : Allocator) :
    Except Fault (Option (TryReserveError × Nat) × Walk C I × Allocator) :=
  match w.pendingFrame with
  | none => .ok (none, { w with stalled := false }, a)
  | some frame => do
    let (children, lostChildren) ← childrenOf frame
    if children.isEmpty then .ok (none, { w with stalled := false, pendingFrame := none }, a)
    else
      match w.stack.tryPushFrontGiveBack ⟨children, lostChildren⟩ a with
      | (.ok (), stack, a) => .ok (none, { w with stalled := false, pendingFrame := none, stack },
          a)
      | (.error (_, e), stack, a) =>
        if w.autoUnstall then
          .ok (some (e, stack.len), { w with stalled := false, pendingFrame := none, stack }, a)
        else .ok (some (e, stack.len), { w with stalled := true, stack }, a)

/-- A frame with children is pending until the next call. -/
def queue (w : Walk C I) (frame : FrameRef C I) (children : List (DynamicFrame I)) : Walk C I :=
  if children.isEmpty then w else { w with pendingFrame := some frame }

/-- The part of the loop that looks at the stack, for as long as there is one. -/
def unwind : List (StackEntry I) → Option (FrameRef C I × Nat) × List (StackEntry I)
  | [] => (none, [])
  | ⟨df :: iter, lostChildren⟩ :: rest =>
    (some (.dynamic df, rest.length + 1), ⟨iter, lostChildren⟩ :: rest)
  | ⟨[], lostChildren⟩ :: rest =>
    if 0 < lostChildren then (some (.lostFrames lostChildren, rest.length + 1), rest)
    else unwind rest

def descend (w : Walk C I) : Option (FrameRef C I × Nat) × Walk C I :=
  match unwind w.stack.items with
  | (some (.dynamic df, depth), items) =>
    (some (.dynamic df, depth),
      { w with stack := { w.stack with items } }.queue (.dynamic df) df.children)
  | (item, items) => (item, { w with stack := { w.stack with items } })

/-- After the last frame: the peers that were lost, once. -/
def lostRoot (w : Walk C I) : Option (FrameRef C I × Nat) × Walk C I :=
  if !w.rootLostEmitted && 0 < w.rootLostPeers then
    (some (.lostFrames w.rootLostPeers, 0), { w with rootLostEmitted := true })
  else (none, w)

def unstall (w : Walk C I) : Bool × Walk C I :=
  if w.stalled then
    (w.pendingFrame.isSome, { w with stalled := false, pendingFrame := none })
  else (false, w)

def setAutoUnstall (w : Walk C I) (auto : Bool) : Walk C I := { w with autoUnstall := auto }

end Walk

/-! ## The walks -/

structure Frames (C I : Type) extends Walk C I where
  peerIter : List (StaticFrame C I)
  headRemaining : Bool
  headRef : StaticFrame C I

def Report.frames (r : Report C I) : Frames C I :=
  ⟨.new r.lostPeers, r.peers.items, true, r.head⟩

def Frames.next (s : Frames C I) (a : Allocator) :
    Except Fault (Option (Item C I) × Frames C I × Allocator) := do
  let (failure, w, a) ← s.toWalk.retry a
  match failure with
  | some e => .ok (some (.error e), { s with toWalk := w }, a)
  | none =>
    if s.headRemaining then
      .ok (some (.ok (.static s.headRef, 0)), { s with
        toWalk := w.queue (.static s.headRef) s.headRef.children, headRemaining := false }, a)
    else
      match w.descend with
      | (some item, w) => .ok (some (.ok item), { s with toWalk := w }, a)
      | (none, w) =>
        match s.peerIter with
        | peer :: peerIter =>
          .ok (some (.ok (.static peer, 0)),
            { s with toWalk := w.queue (.static peer) peer.children, peerIter }, a)
        | [] =>
          let (item, w) := w.lostRoot
          .ok (item.map .ok, { s with toWalk := w }, a)

/-- `peerIter` runs over the peers from the back. -/
structure ChronoFrames (C I : Type) extends Walk C I where
  peerIter : List (StaticFrame C I)
  rootPeerRemaining : Bool
  headRef : StaticFrame C I

def Report.framesChronological (r : Report C I) : ChronoFrames C I :=
  ⟨.new r.lostPeers, r.peers.items.reverse, true, r.head⟩

def ChronoFrames.next (s : ChronoFrames C I) (a : Allocator) :
    Except Fault (Option (Item C I) × ChronoFrames C I × Allocator) := do
  let (failure, w, a) ← s.toWalk.retry a
  match failure with
  | some e => .ok (some (.error e), { s with toWalk := w }, a)
  | none =>
    match w.descend with
    | (some item, w) => .ok (some (.ok item), { s with toWalk := w }, a)
    | (none, w) =>
      if s.rootPeerRemaining then
        match s.peerIter with
        | peer :: peerIter =>
          .ok (some (.ok (.static peer, 0)),
            { s with toWalk := w.queue (.static peer) peer.children, peerIter }, a)
        | [] =>
          .ok (some (.ok (.static s.headRef, 0)), { s with
            toWalk := w.queue (.static s.headRef) s.headRef.children,
            rootPeerRemaining := false }, a)
      else
        let (item, w) := w.lostRoot
        .ok (item.map .ok, { s with toWalk := w }, a)

end Rustyfill.Errors
