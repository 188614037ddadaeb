import Rustyfill.Errors.Traversal

/-!
# Visiting the frames in place

`frames_mut`: the visitor is given every frame, and may break off. What a visitor does to the
frames is left out; its own state is carried along.
-/

namespace Rustyfill.Errors

set_option autoImplicit false

open Transition Resumable DynamicFrame

variable {C I S B : Type}

/-- The entries of the stack, from the top. -/
abbrev MutStack (I : Type) := Buffer (List (DynamicFrame I))

/-- What is on the stack is an iterator. -/
instance : RawVec (List (DynamicFrame I)) := ⟨4⟩

def seedStackFromDeque (stack : MutStack I) (deque : List (DynamicFrame I)) (a : Allocator) :
    Except TryReserveError Unit × MutStack I × Allocator :=
  if deque.isEmpty then (.ok (), stack, a)
  else
    match stack.tryPushFrontGiveBack deque a with
    | (.ok (), stack, a) => (.ok (), stack, a)
    | (.error (_, e), stack, a) => (.error e, stack, a)

/-- The loop over the peers. -/
def visitPeers (visitor : S → FrameRef C I → S × Option B) : List (StaticFrame C I) → S →
    MutStack I → Allocator → Except TryReserveError (S × Option B) × MutStack I × Allocator
  | [], st, stack, a => (.ok (st, none), stack, a)
  | peer :: rest, st, stack, a =>
    match visitor st (.static peer) with
    | (st, some b) => (.ok (st, some b), stack, a)
    | (st, none) =>
      match seedStackFromDeque stack peer.children a with
      | (.error e, stack, a) => (.error e, stack, a)
      | (.ok (), stack, a) => visitPeers visitor rest st stack a

/-- The loop that drains the stack, for at most `fuel` turns. -/
def drainStack (visitor : S → FrameRef C I → S × Option B) : Nat → S → MutStack I → Allocator →
    Option (Except TryReserveError (S × Option B) × Allocator)
  | 0, _, _, _ => none
  | fuel + 1, st, stack, a =>
    match stack.items with
    | [] => some (.ok (st, none), a)
    | [] :: rest => drainStack visitor fuel st { stack with items := rest } a
    | (df :: iter) :: rest =>
      match seedStackFromDeque { stack with items := iter :: rest } df.children a with
      | (.error e, _, a) => some (.error e, a)
      | (.ok (), stack, a) =>
        match visitor st (.dynamic df) with
        | (st, some b) => some (.ok (st, some b), a)
        | (st, none) => drainStack visitor fuel st stack a

/-- `dfs_mut_report`; `some b` is `ControlFlow::Break(b)`. -/
def Report.framesMut (visitor : S → FrameRef C I → S × Option B) (fuel : Nat) (r : Report C I)
    (st : S) (a : Allocator) : Option (Except TryReserveError (S × Option B) × Allocator) :=
  match visitor st (.static r.head) with
  | (st, some b) => some (.ok (st, some b), a)
  | (st, none) =>
    match seedStackFromDeque .new r.head.children a with
    | (.error e, _, a) => some (.error e, a)
    | (.ok (), stack, a) =>
      match visitPeers visitor r.peers.items st stack a with
      | (.error e, _, a) => some (.error e, a)
      | (.ok (st, some b), _, a) => some (.ok (st, some b), a)
      | (.ok (st, none), stack, a) => drainStack visitor fuel st stack a

/-! ## The order of the visits -/

/-- Visit the frames of a list until the visitor breaks off. -/
def visitAll (visitor : S → FrameRef C I → S × Option B) : List (FrameRef C I) → S → S × Option B
  | [], st => (st, none)
  | frame :: rest, st =>
    match visitor st frame with
    | (st, some b) => (st, some b)
    | (st, none) => visitAll visitor rest st

mutual

theorem preorder_frames (d d' : Nat) : ∀ df : DynamicFrame I,
    (df.preorder d : List (FrameRef C I × Nat)).map Prod.fst = (df.preorder d').map Prod.fst
  | ⟨context, attachments, children, lostAttachments, lostChildren⟩ => by
    rw [preorder, preorder, List.map_cons, List.map_cons,
      preorderAll_frames (d + 1) (d' + 1) children]

theorem preorderAll_frames (d d' : Nat) : ∀ l : List (DynamicFrame I),
    (preorderAll d l : List (FrameRef C I × Nat)).map Prod.fst = (preorderAll d' l).map Prod.fst
  | [] => by rw [preorderAll, preorderAll]
  | df :: rest => by
    rw [preorderAll, preorderAll, List.map_append, List.map_append, preorder_frames d d' df,
      preorderAll_frames d d' rest]

end

def below (C : Type) (l : List (DynamicFrame I)) : List (FrameRef C I) :=
  (preorderAll 0 l).map Prod.fst

@[simp] theorem below_nil : below C ([] : List (DynamicFrame I)) = [] := by
  rw [below, preorderAll_nil, List.map_nil]

theorem below_cons (df : DynamicFrame I) (rest : List (DynamicFrame I)) :
    below C (df :: rest) = .dynamic df :: (below C df.children ++ below C rest) := by
  rw [below, preorderAll_cons, List.map_cons, List.map_append, preorderAll_frames 1 0]
  rfl

namespace Report

def tops (r : Report C I) : List (StaticFrame C I) := r.head :: r.peers.items

theorem preorder_frames (r : Report C I) : r.preorder.map Prod.fst =
    r.tops.flatMap fun sf => .static sf :: below C sf.children := by
  have hframe : ∀ sf : StaticFrame C I,
      sf.preorder.map Prod.fst = .static sf :: below C sf.children := by
    intro sf
    rw [StaticFrame.preorder, List.map_cons, preorderAll_frames 1 0]
    rfl
  simp only [preorder, tops, List.map_append, List.map_flatMap, List.flatMap_cons, hframe]

/-- The frames at the root come first; then, the oldest peer first, what is below them. -/
def mutOrder (r : Report C I) : List (FrameRef C I) :=
  r.tops.map .static ++ r.tops.reverse.flatMap fun sf => below C sf.children

end Report

section
variable (visitor : S → FrameRef C I → S × Option B)

theorem visitAll_append (l l' : List (FrameRef C I)) (st : S) :
    visitAll visitor (l ++ l') st = match visitAll visitor l st with
      | (st, some b) => (st, some b)
      | (st, none) => visitAll visitor l' st := by
  induction l generalizing st with
  | nil => rfl
  | cons frame rest ih =>
    rcases h : visitor st frame with ⟨st', _ | b⟩
    · simp only [List.cons_append, visitAll, h, ih]
    · simp only [List.cons_append, visitAll, h]

def pendingFrames (C : Type) (stack : MutStack I) : List (FrameRef C I) :=
  stack.items.flatMap (below C)

theorem seed_granted (stack : MutStack I) (deque : List (DynamicFrame I)) {a : Allocator}
    (hg : ∀ n, a.grants n = true) : ∃ stack' a', seedStackFromDeque stack deque a =
      (.ok (), stack', a') ∧ a'.grants = a.grants ∧
      pendingFrames C stack' = below C deque ++ pendingFrames C stack ∧
      stack'.items.length ≤ stack.items.length + 1 := by
  cases deque with
  | nil => exact ⟨stack, a, rfl, rfl, by simp, Nat.le_succ _⟩
  | cons df rest =>
    rcases stack.tryPushFront_cases (df :: rest) a with ⟨capacity, a', hpush, ha'⟩ | ⟨-, hrefused⟩
    · refine ⟨⟨(df :: rest) :: stack.items, capacity⟩, a', ?_, ha', rfl, Nat.le_refl _⟩
      simp [seedStackFromDeque, hpush]
    · exact absurd hrefused (by simp [hg])

theorem visitPeers_granted (l : List (StaticFrame C I)) (st : S) (stack : MutStack I)
    {a : Allocator} (hg : ∀ n, a.grants n = true) : ∃ stack' a',
      visitPeers visitor l st stack a = (.ok (visitAll visitor (l.map .static) st), stack', a') ∧
        a'.grants = a.grants ∧ ((visitAll visitor (l.map .static) st).2 = none →
          pendingFrames C stack' =
            (l.reverse.flatMap fun sf => below C sf.children) ++ pendingFrames C stack) := by
  induction l generalizing st stack a with
  | nil => exact ⟨stack, a, rfl, rfl, fun _ => rfl⟩
  | cons peer rest ih =>
    rcases h : visitor st (.static peer) with ⟨st', _ | b⟩
    · obtain ⟨stack₁, a₁, hseed, ha₁, hfirst, -⟩ := seed_granted (C := C) stack peer.children hg
      obtain ⟨stack', a', hrest, ha', hall⟩ := ih st' stack₁ (ha₁ ▸ hg)
      refine ⟨stack', a', ?_, ha'.trans ha₁, ?_⟩
      · simp only [visitPeers, h, hseed, hrest, List.map_cons, visitAll]
      · intro hnone
        rw [List.map_cons, visitAll, h] at hnone
        rw [hall hnone, hfirst]
        simp
    · refine ⟨stack, a, ?_, rfl, ?_⟩
      · simp only [visitPeers, h, List.map_cons, visitAll]
      · simp [visitAll, h]

/-- The loop is over after as many turns as there are frames and entries, or has not been given
so many. -/
theorem drainStack_cases (fuel : Nat) (st : S) (stack : MutStack I) {a : Allocator}
    (hg : ∀ n, a.grants n = true) :
    (∃ a', drainStack visitor fuel st stack a =
      some (.ok (visitAll visitor (pendingFrames C stack) st), a')) ∨
    drainStack visitor fuel st stack a = none ∧
      fuel ≤ 2 * (pendingFrames C stack).length + stack.items.length := by
  induction fuel generalizing st stack a with
  | zero => exact Or.inr ⟨rfl, Nat.zero_le _⟩
  | succ fuel ih =>
    obtain ⟨items, capacity⟩ := stack
    rcases items with _ | ⟨_ | ⟨df, iter⟩, rest⟩
    · exact Or.inl ⟨a, rfl⟩
    · have hpending : pendingFrames C ⟨[] :: rest, capacity⟩ =
      pendingFrames C ⟨rest, capacity⟩ := by
        simp [pendingFrames]
      rw [hpending, drainStack]
      rcases ih st ⟨rest, capacity⟩ hg with h | ⟨h, hfuel⟩
      · exact Or.inl h
      · exact Or.inr ⟨h, by simp only [List.length_cons] at hfuel ⊢; omega⟩
    · obtain ⟨stack', a', hseed, ha', hall, hlen⟩ :=
        seed_granted (C := C) ⟨iter :: rest, capacity⟩ df.children hg
      have hpending : pendingFrames C ⟨(df :: iter) :: rest, capacity⟩ =
          .dynamic df :: pendingFrames C stack' := by
        rw [hall]
        simp [pendingFrames, below_cons]
      rw [hpending]
      rcases h : visitor st (.dynamic df) with ⟨st', _ | b⟩
      · have hstep : drainStack visitor (fuel + 1) st ⟨(df :: iter) :: rest, capacity⟩ a =
            drainStack visitor fuel st' stack' a' := by
          simp only [drainStack, hseed, h]
        rw [hstep]
        simp only [visitAll, h, List.length_cons]
        rcases ih st' stack' (ha' ▸ hg) with h' | ⟨h', hfuel⟩
        · exact Or.inl h'
        · exact Or.inr ⟨h', by simp only [List.length_cons] at hlen; omega⟩
      · refine Or.inl ⟨a', ?_⟩
        simp only [drainStack, hseed, visitAll, h]

theorem framesMut_granted (r : Report C I) (st : S) {a : Allocator} (hg : ∀ n, a.grants n = true) :
    ∃ n, ∀ fuel, (∃ a', r.framesMut visitor fuel st a =
        some (.ok (visitAll visitor r.mutOrder st), a')) ∨
      r.framesMut visitor fuel st a = none ∧ fuel ≤ n := by
  have horder : r.mutOrder = .static r.head :: (r.peers.items.map .static ++
      r.tops.reverse.flatMap fun sf => below C sf.children) := rfl
  rw [horder]
  rcases hhead : visitor st (.static r.head) with ⟨st₁, _ | b⟩
  · obtain ⟨stack₁, a₁, hseed, ha₁, hfirst, -⟩ := seed_granted (C := C) .new r.head.children hg
    obtain ⟨stack₂, a₂, hpeers, ha₂, hall⟩ :=
      visitPeers_granted visitor r.peers.items st₁ stack₁ (ha₁ ▸ hg)
    have hg₂ : ∀ n, a₂.grants n = true := by
      rw [ha₂, ha₁]
      exact hg
    rcases hvisit : visitAll visitor (r.peers.items.map .static) st₁ with ⟨st₂, _ | b⟩
    · rw [hvisit] at hpeers hall
      have hstack : pendingFrames C stack₂ =
          r.tops.reverse.flatMap fun sf => below C sf.children := by
        rw [hall rfl, hfirst]
        simp [pendingFrames, Buffer.new, Report.tops]
      refine ⟨2 * (pendingFrames C stack₂).length + stack₂.items.length, fun fuel => ?_⟩
      have hdrain := drainStack_cases visitor fuel st₂ stack₂ hg₂
      rw [hstack] at hdrain ⊢
      simpa only [Report.framesMut, hhead, hseed, hpeers, visitAll, visitAll_append, hvisit]
        using hdrain
    · rw [hvisit] at hpeers
      refine ⟨0, fun fuel => Or.inl ⟨a₂, ?_⟩⟩
      simp only [Report.framesMut, hhead, hseed, hpeers, visitAll, visitAll_append, hvisit]
  · refine ⟨0, fun fuel => Or.inl ⟨a, ?_⟩⟩
    simp only [Report.framesMut, hhead, visitAll]

end

/-! ## Against the other order -/

def takeDown (st : List (FrameRef C I)) (frame : FrameRef C I) : List (FrameRef C I) × Option B :=
  (st ++ [frame], none)

theorem visitAll_takeDown (l st : List (FrameRef C I)) :
    visitAll (B := B) takeDown l st = (st ++ l, none) := by
  induction l generalizing st with
  | nil => simp [visitAll]
  | cons frame rest ih => simp [visitAll, takeDown, ih]

/-- The two orders agree on some frames exactly when only the last of them has descendants. -/
theorem orders_eq_iff (l : List (StaticFrame C I)) :
    (l.map .static ++ l.reverse.flatMap fun sf => below C sf.children) =
        (l.flatMap fun sf => .static sf :: below C sf.children) ↔
      ∀ sf ∈ l.dropLast, sf.children = [] := by
  induction l with
  | nil => simp
  | cons sf rest ih =>
    rcases rest with _ | ⟨sf', rest⟩
    · simp
    rw [List.dropLast_cons_cons, List.forall_mem_cons, ← ih]
    rcases hchildren : sf.children with _ | ⟨df, children⟩
    · simp [hchildren]
    · -- The second frame is at the root in one order, and a child in the other.
      simp [hchildren, below_cons]

/-- `frames_mut` with a visitor that takes down the frames, and a whole run of `frames`, come to
the same list. -/
def SameVisits (B : Type) (r : Report C I) (a : Allocator) : Prop :=
  ∃ fuel visited a' es t,
    r.framesMut (takeDown (B := B)) fuel [] a = some (.ok (visited, none), a') ∧
      Run (Calls Frames.next) (r.frames, a) es t ∧ none ∈ es ∧
      visited = (yielded framesOf es).map Prod.fst

theorem sameVisits_iff_orders (r : Report C I) {a : Allocator} (hg : ∀ n, a.grants n = true) :
    SameVisits B r a ↔ r.mutOrder = r.preorder.map Prod.fst := by
  obtain ⟨n, hmut⟩ := framesMut_granted (takeDown (B := B)) r [] hg
  simp only [visitAll_takeDown, List.nil_append] at hmut
  have hframes := Frames.complete r
  constructor
  · rintro ⟨fuel, visited, a', es, t, hvisited, hr, hnone, rfl⟩
    rw [hframes.whole a es t hr hnone] at hvisited
    rcases hmut fuel with ⟨a'', h⟩ | ⟨h, -⟩
    · have hsame := h.symm.trans hvisited
      simp only [Option.some.injEq, Prod.mk.injEq, Except.ok.injEq] at hsame
      exact hsame.1.1
    · exact absurd (h.symm.trans hvisited) (by simp)
  · intro hsame
    rcases hmut (n + 1) with ⟨a', h⟩ | ⟨-, hle⟩
    · obtain ⟨es, t, hr, hnone⟩ := hframes.ends a fun m => ⟨0, hg _⟩
      refine ⟨n + 1, r.mutOrder, a', es, t, h, hr, hnone, ?_⟩
      rw [hframes.whole a es t hr hnone, hsame]
    · omega

/-- The visits are those of `frames` exactly when no frame at the root but the oldest has
children. -/
theorem sameVisits_iff (r : Report C I) (a : Allocator) (hg : ∀ n, a.grants n = true) :
    SameVisits B r a ↔ ∀ sf ∈ r.tops.dropLast, sf.children = [] := by
  rw [sameVisits_iff_orders r hg, Report.preorder_frames]
  exact orders_eq_iff r.tops

theorem sameVisits_iff_twoContexts :
    SameVisits Empty Report.twoContexts ⟨fun _ => true, 0⟩ ↔
      ∀ sf ∈ Report.twoContexts.tops.dropLast, sf.children = [] :=
  sameVisits_iff Report.twoContexts ⟨fun _ => true, 0⟩ fun _ => rfl

/-- The head has a child, and there is a peer after it. -/
def withChild : Report String (ContextFrame String) :=
  { Report.twoContexts with head := { Report.twoContexts.head with
      children := [⟨.new "cause" Report.here, [], [], 0, 0⟩] } }

theorem withChild_visits : ¬ SameVisits Empty withChild ⟨fun _ => true, 0⟩ := by
  rw [sameVisits_iff_orders withChild fun _ => rfl, Report.preorder_frames]
  intro h
  have hchildless := (orders_eq_iff withChild.tops).mp h withChild.head
    (by simp [Report.tops, withChild, Report.twoContexts])
  exact absurd hchildless (by simp [withChild])

end Rustyfill.Errors
