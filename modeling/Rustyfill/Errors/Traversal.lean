import Rustyfill.Errors.Frames

/-!
# What the walks yield

Both walks know what they still have to yield. A call answers with the first of it, or fails
and leaves it alone.
-/

namespace Rustyfill.Errors

set_option autoImplicit false

open Transition Resumable DynamicFrame

variable {C I : Type}

namespace Walk

def onStack : List (StackEntry I) → List (FrameRef C I × Nat)
  | [] => []
  | entry :: rest => preorderAll (rest.length + 1) entry.iter ++ onStack rest

def ofPending (depth : Nat) : Option (FrameRef C I) → List (FrameRef C I × Nat)
  | some (.static sf) => preorderAll depth sf.children
  | some (.dynamic df) => preorderAll depth df.children
  | _ => []

def remaining (w : Walk C I) : List (FrameRef C I × Nat) :=
  ofPending (w.stack.items.length + 1) w.pendingFrame ++ onStack w.stack.items

/-- How many answers can come before something is visited. -/
def cost (w : Walk C I) : Nat :=
  w.stack.items.length + w.pendingFrame.toList.length + if w.rootLostEmitted then 0 else 1

/-- A walk in the default mode. A marker has no children to wait for. -/
structure Inv (w : Walk C I) : Prop where
  stalling : w.autoUnstall = false
  pending : ∀ n, w.pendingFrame ≠ some (.lostFrames n)

variable {w : Walk C I}

theorem childrenOf_pending (h : w.Inv) {frame : FrameRef C I}
    (hframe : w.pendingFrame = some frame) :
    ∃ children lost, childrenOf frame = .ok (children, lost) ∧
      ∀ depth, ofPending depth (some frame) = preorderAll depth children := by
  cases frame with
  | static sf => exact ⟨_, _, rfl, fun _ => rfl⟩
  | dynamic df => exact ⟨_, _, rfl, fun _ => rfl⟩
  | lostFrames n => exact absurd hframe (h.pending n)

/-- A retry leaves what remains alone. Either nothing is pending any more, or the request was
refused. -/
theorem retry_spec (h : w.Inv) (a : Allocator) : ∃ failure w' a',
    w.retry a = .ok (failure, w', a') ∧ w'.Inv ∧ w'.remaining = w.remaining ∧
      a'.grants = a.grants ∧
      (failure = none → w'.pendingFrame = none ∧ w'.cost ≤ w.cost ∧
        (w.pendingFrame = none → w'.stack = w.stack)) ∧
      ∀ e, failure = some e → w'.cost = w.cost ∧ a.grants a.requests = false ∧
        a' = a.request.2 ∧ w.pendingFrame ≠ none := by
  cases hpending : w.pendingFrame with
  | none =>
    refine ⟨none, { w with stalled := false }, a, ?_, ⟨h.stalling, h.pending⟩, rfl, rfl,
      ?_, by simp⟩
    · simp only [retry, hpending]
    · exact fun _ => ⟨hpending, Nat.le_refl _, fun _ => rfl⟩
  | some frame =>
    obtain ⟨children, lost, hchildren, hof⟩ := childrenOf_pending h hpending
    have hcost : w.cost = w.stack.items.length + 1 + if w.rootLostEmitted then 0 else 1 := by
      simp [cost, hpending]
    have hrem : w.remaining =
        preorderAll (w.stack.items.length + 1) children ++ onStack w.stack.items := by
      rw [remaining, hpending, hof]
    rcases children with _ | ⟨df, children⟩
    · refine ⟨none, { w with stalled := false, pendingFrame := none }, a, ?_,
        ⟨h.stalling, by simp⟩, ?_, rfl, fun _ => ⟨rfl, ?_, by simp⟩, by simp⟩
      · simp [retry, hpending, hchildren]
      · rw [hrem]
        simp [remaining, ofPending]
      · rw [hcost]
        simp [cost]
    rcases w.stack.tryPushFront_cases ⟨df :: children, lost⟩ a with
      ⟨capacity, a', hpush, ha'⟩ | ⟨hpush, hg⟩
    · refine ⟨none, { w with
          stalled := false, pendingFrame := none
          stack := ⟨⟨df :: children, lost⟩ :: w.stack.items, capacity⟩ }, a', ?_,
        ⟨h.stalling, by simp⟩, ?_, ha', fun _ => ⟨rfl, ?_, by simp⟩, by simp⟩
      · simp [retry, hpending, hchildren, hpush]
      · rw [hrem]
        simp [remaining, ofPending, onStack]
      · rw [hcost]
        simp [cost]
    · refine ⟨some (.allocError, w.stack.len), { w with stalled := true }, a.request.2, ?_,
        ⟨h.stalling, h.pending⟩, rfl, rfl, by simp, fun _ _ => ⟨rfl, hg, rfl, by simp⟩⟩
      simp [retry, hpending, hchildren, hpush, h.stalling]

/-- To visit a frame is to have its descendants left, one level below. -/
theorem queue_spec (h : w.Inv) (hpending : w.pendingFrame = none) {frame : FrameRef C I}
    {children : List (DynamicFrame I)} {lost : Nat}
    (hchildren : childrenOf frame = .ok (children, lost)) :
    (w.queue frame children).Inv ∧
      (w.queue frame children).remaining =
        preorderAll (w.stack.items.length + 1) children ++ onStack w.stack.items ∧
      (w.queue frame children).cost ≤ w.cost + 1 := by
  rcases children with _ | ⟨df, children⟩
  · refine ⟨h, ?_, Nat.le_succ _⟩
    simp [queue, remaining, hpending, ofPending]
  · have hqueue : w.queue frame (df :: children) = { w with pendingFrame := some frame } := by
      simp [queue]
    rw [hqueue]
    cases frame with
    | lostFrames n => simp [childrenOf] at hchildren
    | static sf =>
      simp only [childrenOf, Except.ok.injEq, Prod.mk.injEq] at hchildren
      refine ⟨⟨h.stalling, by simp⟩, ?_, by simp [cost, hpending]; omega⟩
      simp [remaining, ofPending, hchildren.1]
    | dynamic df' =>
      simp only [childrenOf, Except.ok.injEq, Prod.mk.injEq] at hchildren
      refine ⟨⟨h.stalling, by simp⟩, ?_, by simp [cost, hpending]; omega⟩
      simp [remaining, ofPending, hchildren.1]

/-- The stack has a frame to visit, a marker that costs an entry, or nothing. -/
theorem unwind_cases (C : Type) (entries : List (StackEntry I)) :
    (@unwind C I entries = (none, []) ∧ @onStack C I entries = []) ∨
    (∃ df entry rest,
      @unwind C I entries = (some (.dynamic df, rest.length + 1), entry :: rest) ∧
      rest.length < entries.length ∧
      @onStack C I entries = (.dynamic df, rest.length + 1) ::
        (preorderAll (rest.length + 2) df.children ++ onStack (entry :: rest))) ∨
    ∃ n depth rest, @unwind C I entries = (some (.lostFrames n, depth), rest) ∧
      rest.length < entries.length ∧ @onStack C I entries = onStack rest := by
  induction entries with
  | nil => exact Or.inl ⟨rfl, rfl⟩
  | cons entry rest ih =>
    obtain ⟨iter, lost⟩ := entry
    rcases iter with _ | ⟨df, iter⟩
    · by_cases hlost : 0 < lost
      · refine Or.inr (Or.inr ⟨lost, rest.length + 1, rest, ?_, Nat.lt_succ_self _, ?_⟩)
        · rw [unwind, if_pos hlost]
        · rw [onStack, preorderAll_nil, List.nil_append]
      · rw [unwind, if_neg hlost, onStack, preorderAll_nil, List.nil_append]
        rcases ih with h | ⟨df, entry, rest', h, hlen, hrem⟩ | ⟨n, depth, rest', h, hlen, hrem⟩
        · exact Or.inl h
        · exact Or.inr (Or.inl ⟨df, entry, rest', h, Nat.lt_succ_of_lt hlen, hrem⟩)
        · exact Or.inr (Or.inr ⟨n, depth, rest', h, Nat.lt_succ_of_lt hlen, hrem⟩)
    · refine Or.inr (Or.inl ⟨df, ⟨iter, lost⟩, rest, rfl, Nat.lt_succ_self _, ?_⟩)
      rw [onStack, preorderAll_cons, onStack, List.cons_append, List.append_assoc]

theorem descend_spec (h : w.Inv) (hpending : w.pendingFrame = none) :
    ∃ item w', w.descend = (item, w') ∧ w'.Inv ∧
      w.remaining = (item.toList.flatMap framesOf) ++ w'.remaining ∧
      (item = none → w'.pendingFrame = none ∧ w'.stack.items = [] ∧ w'.cost ≤ w.cost) ∧
      ∀ x, item = some x → 2 * w'.remaining.length + w'.cost < 2 * w.remaining.length + w.cost := by
  have hrem : w.remaining = onStack w.stack.items := by
    rw [remaining, hpending]
    rfl
  rcases unwind_cases C w.stack.items with ⟨hunwind, hstack⟩ |
    ⟨df, entry, rest, hunwind, hlen, hstack⟩ | ⟨n, depth, rest, hunwind, hlen, hstack⟩
  · refine ⟨none, { w with stack := { w.stack with items := [] } }, ?_,
      ⟨h.stalling, h.pending⟩, ?_, fun _ => ⟨hpending, rfl, ?_⟩, by simp⟩
    · rw [descend, hunwind]
    · rw [hrem, hstack]
      simp [remaining, hpending, ofPending, onStack]
    · simp [cost, hpending]
  · obtain ⟨w', hw'⟩ : ∃ w', w' = { w with stack := { w.stack with items := entry :: rest } } :=
      ⟨_, rfl⟩
    have hstack' : w'.stack.items = entry :: rest := by rw [hw']
    have hpending' : w'.pendingFrame = none := by rw [hw', hpending]
    have hinv' : w'.Inv := ⟨by rw [hw', h.stalling], by simp [hpending']⟩
    have hcost' : w'.cost ≤ w.cost := by
      simp only [cost, hw', List.length_cons]
      omega
    obtain ⟨hinv, hqueue, hcost⟩ :=
      queue_spec hinv' hpending' (@rfl _ (childrenOf (.dynamic df : FrameRef C I)))
    have hleft : (w'.queue (.dynamic df) df.children).remaining =
        preorderAll (rest.length + 2) df.children ++ onStack (entry :: rest) := by
      rw [hqueue, hstack']
      rfl
    refine ⟨some (.dynamic df, rest.length + 1), w'.queue (.dynamic df) df.children, ?_, hinv, ?_,
      by simp, fun _ _ => ?_⟩
    · rw [descend, hunwind, hw']
    · rw [hleft, hrem, hstack]
      rfl
    · rw [hleft, hrem, hstack, List.length_cons]
      omega
  · refine ⟨some (.lostFrames n, depth), { w with stack := { w.stack with items := rest } }, ?_,
      ⟨h.stalling, h.pending⟩, ?_, by simp, fun _ _ => ?_⟩
    · rw [descend, hunwind]
    · rw [hrem, hstack]
      simp [remaining, hpending, ofPending, framesOf]
    · rw [hrem, hstack]
      simp [remaining, hpending, ofPending, cost]
      omega

theorem queue_root (h : w.Inv) (hpending : w.pendingFrame = none) (hstack : w.stack.items = [])
    (sf : StaticFrame C I) : (w.queue (.static sf) sf.children).Inv ∧
      sf.preorder = (.static sf, 0) :: (w.queue (.static sf) sf.children).remaining ∧
      (w.queue (.static sf) sf.children).cost ≤ w.cost + 1 := by
  obtain ⟨hinv, hleft, hcost⟩ := queue_spec h hpending (@rfl _ (childrenOf (.static sf)))
  refine ⟨hinv, ?_, hcost⟩
  rw [hleft, hstack]
  simp [StaticFrame.preorder, onStack]

theorem lostRoot_spec (h : w.Inv) (hpending : w.pendingFrame = none) (hstack : w.stack.items = []) :
    ∃ item w', w.lostRoot = (item, w') ∧ w'.Inv ∧ w'.remaining = [] ∧
      item.toList.flatMap framesOf = [] ∧ ∀ x, item = some x → w'.cost < w.cost := by
  have hrem : w.remaining = [] := by simp [remaining, hpending, hstack, ofPending, onStack]
  by_cases hlost : !w.rootLostEmitted && 0 < w.rootLostPeers
  · refine ⟨some (.lostFrames w.rootLostPeers, 0), { w with rootLostEmitted := true }, ?_,
      ⟨h.stalling, h.pending⟩, hrem, rfl, fun _ _ => ?_⟩
    · rw [lostRoot, if_pos hlost]
    · have hemitted : w.rootLostEmitted = false := by simp_all
      simp [cost, hemitted]
  · refine ⟨none, w, ?_, h, hrem, rfl, by simp⟩
    rw [lostRoot, if_neg hlost]

def left (w : Walk C I) (roots : List (StaticFrame C I)) : List (FrameRef C I × Nat) :=
  w.remaining ++ roots.flatMap StaticFrame.preorder

/-- The loop: the stack, then the next frame at the root, then the peers that were lost. -/
def advance (w : Walk C I) (roots : List (StaticFrame C I)) :
    Option (FrameRef C I × Nat) × Walk C I × List (StaticFrame C I) :=
  match w.descend with
  | (some item, w) => (some item, w, roots)
  | (none, w) =>
    match roots with
    | sf :: rest => (some (.static sf, 0), w.queue (.static sf) sf.children, rest)
    | [] => (w.lostRoot.1, w.lostRoot.2, [])

theorem advance_spec (h : w.Inv) (hpending : w.pendingFrame = none)
    (roots : List (StaticFrame C I)) :
    ∃ item w' rest, w.advance roots = (item, w', rest) ∧ w'.Inv ∧
      w.left roots = item.toList.flatMap framesOf ++ w'.left rest ∧
      (item = none → w'.left rest = []) ∧ ∀ x, item = some x →
        2 * (w'.left rest).length + w'.cost < 2 * (w.left roots).length + w.cost := by
  obtain ⟨item, w', hdescend, hw', hleft, hend, hless⟩ := descend_spec h hpending
  have hall : w.left roots = item.toList.flatMap framesOf ++ w'.left roots := by
    rw [left, hleft, List.append_assoc]
    rfl
  cases item with
  | some x =>
    refine ⟨some x, w', roots, by simp only [advance, hdescend], hw', hall, by simp, fun _ _ => ?_⟩
    have hx := hless x rfl
    simp only [left, List.length_append]
    omega
  | none =>
    obtain ⟨hpending', hempty, hcost⟩ := hend rfl
    have hdone : w'.remaining = [] := by
      simp [remaining, hpending', hempty, ofPending, onStack]
    cases roots with
    | cons sf rest =>
      obtain ⟨hinv, hpre, hqueue⟩ := queue_root hw' hpending' hempty sf
      have hfirst : w.left (sf :: rest) =
          (.static sf, 0) :: (w'.queue (.static sf) sf.children).left rest := by
        rw [hall]
        simp [left, hdone, hpre]
      refine ⟨some (.static sf, 0), w'.queue (.static sf) sf.children, rest,
        by simp only [advance, hdescend], hinv, hfirst, by simp, fun _ _ => ?_⟩
      rw [hfirst, List.length_cons]
      omega
    | nil =>
      obtain ⟨item, w'', hroot, hw'', hdone'', hitem, hcost''⟩ :=
        lostRoot_spec hw' hpending' hempty
      have hnothing : w''.left [] = [] := by simp [left, hdone'']
      refine ⟨item, w'', [], by simp only [advance, hdescend, hroot], hw'', ?_, fun _ => hnothing,
        fun x hx => ?_⟩
      · rw [hall, hitem, hnothing]
        simp [left, hdone]
      · have hx := hcost'' x hx
        rw [hnothing, List.length_nil]
        omega

end Walk

/-! ## Calls -/

def Calls {σ : Type} (next : σ → Allocator → Except Fault (Option (Item C I) × σ × Allocator))
    (s : σ × Allocator) (e : Option (Item C I)) (t : σ × Allocator) : Prop :=
  next s.1 s.2 = .ok (e, t.1, t.2)

/-- What every call does, in the default mode: it answers, never panics, and keeps account of
what remains; a failure is that of the request it made. -/
structure Answers {σ : Type}
    (next : σ → Allocator → Except Fault (Option (Item C I) × σ × Allocator)) (Inv : σ → Prop)
    (remaining : σ → List (FrameRef C I × Nat)) (size : σ → Nat) : Prop where
  answer : ∀ {s}, Inv s → ∀ a, ∃ e t a', next s a = .ok (e, t, a') ∧ Inv t ∧
    remaining s = yielded framesOf [e] ++ remaining t ∧ (e = none → remaining t = []) ∧
    a'.grants = a.grants ∧ ∀ x, e = some x → size t < size s ∨
      size t = size s ∧ a.grants a.requests = false ∧ a' = a.request.2

/-- Whatever the schedule of failures: no call panics, what the calls yield is a part of what is
to be visited, from the start of it, and all of it once a call has answered `None`. Such a call
comes, unless some request is refused for ever. -/
structure Complete {σ : Type}
    (next : σ → Allocator → Except Fault (Option (Item C I) × σ × Allocator)) (s : σ)
    (expected : List (FrameRef C I × Nat)) : Prop where
  total : ∀ a es t, Run (Calls next) (s, a) es t → ∃ e u, Calls next t e u
  before : ∀ a es t, Run (Calls next) (s, a) es t → yielded framesOf es <+: expected
  whole : ∀ a es t, Run (Calls next) (s, a) es t → none ∈ es → yielded framesOf es = expected
  ends : ∀ a, a.Fair → ∃ es t, Run (Calls next) (s, a) es t ∧ none ∈ es

namespace Answers

variable {σ : Type} {next : σ → Allocator → Except Fault (Option (Item C I) × σ × Allocator)}
  {Inv : σ → Prop} {remaining : σ → List (FrameRef C I × Nat)} {size : σ → Nat}

theorem of_call (h : Answers next Inv remaining size) {s t : σ × Allocator}
    {e : Option (Item C I)} (hs : Inv s.1) (hcall : Calls next s e t) :
    Inv t.1 ∧ remaining s.1 = yielded framesOf [e] ++ remaining t.1 ∧
      (e = none → remaining t.1 = []) ∧ t.2.grants = s.2.grants ∧
      ∀ x, e = some x → size t.1 < size s.1 ∨
        size t.1 = size s.1 ∧ s.2.grants s.2.requests = false ∧ t.2 = s.2.request.2 := by
  obtain ⟨e', t', a', hnext, hspec⟩ := h.answer hs s.2
  obtain ⟨rfl, ht⟩ : e' = e ∧ (t', a') = t := by simpa using hnext.symm.trans hcall
  subst ht
  exact hspec

theorem accounts (h : Answers next Inv remaining size) (grants : Nat → Bool) :
    Accounts (Calls next) framesOf (fun s => Inv s.1 ∧ s.2.grants = grants)
      (fun s => remaining s.1) where
  item := fun {s b t} ⟨hs, hg⟩ hcall => by
    obtain ⟨ht, hrem, -, hgrants, -⟩ := h.of_call hs hcall
    exact ⟨⟨ht, hgrants.trans hg⟩, by simpa using hrem⟩
  failure := fun {s e t} ⟨hs, hg⟩ hcall => by
    obtain ⟨ht, hrem, -, hgrants, -⟩ := h.of_call hs hcall
    exact ⟨⟨ht, hgrants.trans hg⟩, hrem⟩
  done := fun {s t} ⟨hs, hg⟩ hcall => by
    obtain ⟨ht, hrem, hnone, hgrants, -⟩ := h.of_call hs hcall
    refine ⟨⟨ht, hgrants.trans hg⟩, ?_, hnone rfl⟩
    rw [hrem, hnone rfl]
    rfl

theorem complete (h : Answers next Inv remaining size) {s : σ} (hs : Inv s) :
    Complete next s (remaining s) where
  total := fun a es t hr => by
    have ht := ((h.accounts a.grants).run_eq hr ⟨hs, rfl⟩).1
    obtain ⟨e, u, a', hnext, -⟩ := h.answer ht.1 t.2
    exact ⟨e, (u, a'), hnext⟩
  before := fun a es t hr => ⟨remaining t.1, ((h.accounts a.grants).run_eq hr ⟨hs, rfl⟩).2.symm⟩
  whole := fun a es t hr hnone => (h.accounts a.grants).yielded_of_none hr ⟨hs, rfl⟩ hnone
  ends := fun a hfair => by
    refine (h.accounts a.grants).exists_none ?_ (fun s => size s.1) (fun s => s.2.wait) ?_
      (show Inv s ∧ a.grants = a.grants from ⟨hs, rfl⟩)
    · rintro t ⟨ht, -⟩
      obtain ⟨e, u, a', hnext, -⟩ := h.answer ht t.2
      exact ⟨e, (u, a'), hnext⟩
    · rintro t e u ⟨ht, hg⟩ hcall
      obtain ⟨-, -, -, -, hsome⟩ := h.of_call ht hcall
      rcases hsome e rfl with hless | ⟨hsize, hrefused, hu⟩
      · exact Or.inl hless
      · refine Or.inr ⟨hsize, ?_⟩
        have hfair' : t.2.Fair := by
          intro n
          rw [hg]
          exact hfair n
        rw [hu]
        exact Allocator.wait_request hfair' hrefused

end Answers

theorem yielded_item (item : Option (FrameRef C I × Nat)) :
    yielded framesOf [(item.map .ok : Option (Item C I))] = item.toList.flatMap framesOf := by
  cases item <;> rfl

/-! ## The head first -/

namespace Frames

def remaining (s : Frames C I) : List (FrameRef C I × Nat) :=
  (if s.headRemaining then s.headRef.preorder else []) ++ s.toWalk.left s.peerIter

def size (s : Frames C I) : Nat := 2 * s.remaining.length + s.toWalk.cost

/-- Nothing is on the way before the head. -/
structure Inv (s : Frames C I) : Prop where
  walk : s.toWalk.Inv
  fresh : s.headRemaining = true → s.pendingFrame = none ∧ s.stack.items = []

theorem next_advance {s : Frames C I} {a a' : Allocator} {w : Walk C I}
    (hretry : s.toWalk.retry a = .ok (none, w, a')) (hhead : s.headRemaining = false)
    {item : Option (FrameRef C I × Nat)} {w' : Walk C I} {rest : List (StaticFrame C I)}
    (h : w.advance s.peerIter = (item, w', rest)) :
    s.next a = .ok (item.map .ok, { s with toWalk := w', peerIter := rest }, a') := by
  rcases hdescend : w.descend with ⟨_ | x, w₁⟩
  · cases hpeers : s.peerIter with
    | nil =>
      simp only [Walk.advance, hdescend, hpeers, Prod.mk.injEq] at h
      obtain ⟨rfl, rfl, rfl⟩ := h
      simp [next, hretry, hhead, hdescend, hpeers]
    | cons peer peers =>
      simp only [Walk.advance, hdescend, hpeers, Prod.mk.injEq] at h
      obtain ⟨rfl, rfl, rfl⟩ := h
      simp [next, hretry, hhead, hdescend, hpeers]
  · simp only [Walk.advance, hdescend, Prod.mk.injEq] at h
    obtain ⟨rfl, rfl, rfl⟩ := h
    simp [next, hretry, hhead, hdescend]

theorem next_answers : Answers (C := C) (I := I) Frames.next Inv remaining size where
  answer := fun {s} hs a => by
    obtain ⟨failure, w, a', hretry, hw, hrem, hgrants, hnone, hsome⟩ := Walk.retry_spec hs.walk a
    cases failure with
    | some e =>
      obtain ⟨hcost, hrefused, ha', hpending⟩ := hsome e rfl
      have hall : remaining { s with toWalk := w } = s.remaining := by
        simp [remaining, Walk.left, hrem]
      refine ⟨some (.error e), { s with toWalk := w }, a', ?_,
        ⟨hw, fun hhead => absurd (hs.fresh hhead).1 hpending⟩, hall.symm, by simp, hgrants,
        fun _ _ => Or.inr ⟨?_, hrefused, ha'⟩⟩
      · simp [next, hretry]
      · rw [size, size, hall, hcost]
    | none =>
      obtain ⟨hpending, hcost, hstack⟩ := hnone rfl
      cases hhead : s.headRemaining with
      | true =>
        obtain ⟨hnot, hempty⟩ := hs.fresh hhead
        have hwstack : w.stack.items = [] := by rw [hstack hnot, hempty]
        have hwrem : s.toWalk.remaining = [] := by
          rw [← hrem]
          simp [Walk.remaining, hpending, hwstack, Walk.ofPending, Walk.onStack]
        obtain ⟨hinv, hpre, hqueue⟩ := Walk.queue_root hw hpending hwstack s.headRef
        have hall : s.remaining = (.static s.headRef, 0) :: remaining { s with
            toWalk := w.queue (.static s.headRef) s.headRef.children, headRemaining := false } := by
          simp [remaining, Walk.left, hhead, hwrem, hpre]
        refine ⟨some (.ok (.static s.headRef, 0)), { s with
            toWalk := w.queue (.static s.headRef) s.headRef.children, headRemaining := false },
          a', ?_, ⟨hinv, by simp⟩, hall, by simp, hgrants, fun _ _ => Or.inl ?_⟩
        · simp [next, hretry, hhead]
        · rw [size, size, hall, List.length_cons]
          dsimp only
          omega
      | false =>
        obtain ⟨item, w', rest, hadvance, hw', hleft, hend, hless⟩ :=
          Walk.advance_spec hw hpending s.peerIter
        have hs' : s.remaining = w.left s.peerIter := by simp [remaining, Walk.left, hhead, hrem]
        have ht : remaining { s with toWalk := w', peerIter := rest } = w'.left rest := by
          simp [remaining, hhead]
        refine ⟨item.map .ok, { s with toWalk := w', peerIter := rest }, a',
          next_advance hretry hhead hadvance, ⟨hw', by simp [hhead]⟩, ?_, ?_, hgrants, ?_⟩
        · rw [hs', ht, hleft, yielded_item]
        · intro h
          rw [ht, hend (by simpa using h)]
        · intro x hx
          obtain ⟨y, hy, -⟩ := Option.map_eq_some_iff.mp hx
          have := hless y hy
          refine Or.inl ?_
          rw [size, size, hs', ht]
          dsimp only
          omega

end Frames

/-! ## The head last -/

namespace ChronoFrames

def roots (s : ChronoFrames C I) : List (StaticFrame C I) :=
  if s.rootPeerRemaining then s.peerIter ++ [s.headRef] else []

def remaining (s : ChronoFrames C I) : List (FrameRef C I × Nat) := s.toWalk.left s.roots

def size (s : ChronoFrames C I) : Nat := 2 * s.remaining.length + s.toWalk.cost

theorem next_advance {s : ChronoFrames C I} {a a' : Allocator} {w : Walk C I}
    (hretry : s.toWalk.retry a = .ok (none, w, a'))
    {item : Option (FrameRef C I × Nat)} {w' : Walk C I} {rest : List (StaticFrame C I)}
    (h : w.advance s.roots = (item, w', rest)) :
    ∃ t, s.next a = .ok (item.map .ok, t, a') ∧ t.toWalk = w' ∧ t.roots = rest := by
  rcases hdescend : w.descend with ⟨_ | x, w₁⟩
  · cases hphase : s.rootPeerRemaining with
    | true =>
      cases hpeers : s.peerIter with
      | nil =>
        simp only [Walk.advance, hdescend, roots, hphase, hpeers, if_true, List.nil_append,
          Prod.mk.injEq] at h
        obtain ⟨rfl, rfl, rfl⟩ := h
        refine ⟨{ s with
          toWalk := w₁.queue (.static s.headRef) s.headRef.children
          rootPeerRemaining := false }, ?_, rfl, rfl⟩
        simp [next, hretry, hdescend, hphase, hpeers]
      | cons peer peers =>
        simp only [Walk.advance, hdescend, roots, hphase, hpeers, if_true, List.cons_append,
          Prod.mk.injEq] at h
        obtain ⟨rfl, rfl, rfl⟩ := h
        refine ⟨{ s with toWalk := w₁.queue (.static peer) peer.children, peerIter := peers },
          ?_, rfl, ?_⟩
        · simp [next, hretry, hdescend, hphase, hpeers]
        · simp [roots, hphase]
    | false =>
      simp only [Walk.advance, hdescend, roots, hphase] at h
      obtain ⟨rfl, rfl, rfl⟩ := h
      refine ⟨{ s with toWalk := w₁.lostRoot.2 }, ?_, rfl, ?_⟩
      · simp [next, hretry, hdescend, hphase]
      · simp [roots, hphase]
  · simp only [Walk.advance, hdescend, Prod.mk.injEq] at h
    obtain ⟨rfl, rfl, rfl⟩ := h
    refine ⟨{ s with toWalk := w₁ }, ?_, rfl, rfl⟩
    simp [next, hretry, hdescend]

theorem next_answers :
    Answers (C := C) (I := I) ChronoFrames.next (fun s => s.toWalk.Inv) remaining size where
  answer := fun {s} hs a => by
    obtain ⟨failure, w, a', hretry, hw, hrem, hgrants, hnone, hsome⟩ := Walk.retry_spec hs a
    cases failure with
    | some e =>
      obtain ⟨hcost, hrefused, ha', -⟩ := hsome e rfl
      have hall : remaining { s with toWalk := w } = s.remaining := by
        simp [remaining, Walk.left, hrem, roots]
      refine ⟨some (.error e), { s with toWalk := w }, a', ?_, hw, hall.symm, by simp, hgrants,
        fun _ _ => Or.inr ⟨?_, hrefused, ha'⟩⟩
      · simp [next, hretry]
      · rw [size, size, hall, hcost]
    | none =>
      obtain ⟨hpending, hcost, -⟩ := hnone rfl
      obtain ⟨item, w', rest, hadvance, hw', hleft, hend, hless⟩ :=
        Walk.advance_spec hw hpending s.roots
      have hs' : s.remaining = w.left s.roots := by simp [remaining, Walk.left, hrem]
      obtain ⟨t, hnext, rfl, rfl⟩ := next_advance hretry hadvance
      refine ⟨item.map .ok, t, a', hnext, hw', ?_, ?_, hgrants, ?_⟩
      · rw [hs', hleft, yielded_item]
        rfl
      · intro h
        exact hend (by simpa using h)
      · intro x hx
        obtain ⟨y, hy, -⟩ := Option.map_eq_some_iff.mp hx
        have := hless y hy
        refine Or.inl ?_
        rw [size, size, hs']
        dsimp only [remaining]
        omega

end ChronoFrames

theorem Walk.inv_new (lostPeers : Nat) : (Walk.new lostPeers : Walk C I).Inv :=
  ⟨rfl, by simp [Walk.new]⟩

theorem Frames.complete (r : Report C I) : Complete Frames.next r.frames r.preorder := by
  have h := Frames.next_answers.complete
    (show Frames.Inv r.frames from ⟨Walk.inv_new _, fun _ => ⟨rfl, rfl⟩⟩)
  have hall : Frames.remaining r.frames = r.preorder := rfl
  rwa [hall] at h

theorem ChronoFrames.complete (r : Report C I) :
    Complete ChronoFrames.next r.framesChronological r.chronological := by
  have h := ChronoFrames.next_answers.complete
    (show r.framesChronological.toWalk.Inv from Walk.inv_new _)
  have hall : ChronoFrames.remaining r.framesChronological = r.chronological := by
    simp [ChronoFrames.remaining, ChronoFrames.roots, Walk.left, Walk.remaining, Walk.ofPending,
      Walk.onStack, Report.framesChronological, Walk.new, Buffer.new, Report.chronological]
  rwa [hall] at h

/-- Both walks, over any report and under any schedule of failures. -/
theorem frames_complete (r : Report C I) :
    Complete Frames.next r.frames r.preorder ∧
      Complete ChronoFrames.next r.framesChronological r.chronological :=
  ⟨Frames.complete r, ChronoFrames.complete r⟩

end Rustyfill.Errors
