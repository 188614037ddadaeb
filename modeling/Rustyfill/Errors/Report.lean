import Rustyfill.Runtime

/-!
# Reports

`rustyfill-errors/src/report.rs` and `frame/`: a report is a head frame, a deque of peers and
the frames demoted into the children of each. The operations that move frames about take the
allocator along; each `expect` of the source keeps its message.

A `Box<dyn ItemImpl>` is a value of `I`, and `erase` turns a context frame into one.
-/

namespace Rustyfill.Errors

set_option autoImplicit false

/-- `isize::MAX` on a 64-bit target. -/
def isizeMax : Nat := 9223372036854775807

def saturatingAdd (a b : Nat) : Nat := min usizeMax (a + b)

theorem saturatingAdd_assoc (a b c : Nat) :
    saturatingAdd (saturatingAdd a b) c = saturatingAdd a (b + c) := by
  unfold saturatingAdd
  omega

theorem saturatingAdd_of_le {a b : Nat} (h : a + b ≤ usizeMax) : saturatingAdd a b = a + b :=
  Nat.min_eq_right h

theorem saturatingAdd_le (a b : Nat) : saturatingAdd a b ≤ usizeMax := Nat.min_le_left _ _

/-- `Result::expect`. -/
def expectOk {ε α : Type} (msg : String) : Except ε α → Except Fault α
  | .ok a => .ok a
  | .error _ => .error (.expect msg)

/-! ## Buffers -/

/-- What a `Vec` or a `VecDeque` holds, front first, and the room of its buffer. -/
structure Buffer (α : Type) where
  items : List α
  capacity : Nat
deriving DecidableEq, Repr

namespace Buffer
variable {α : Type}

def new : Buffer α := ⟨[], 0⟩

/-- What the standard library keeps of every buffer. -/
structure Valid (d : Buffer α) : Prop where
  len_le : d.items.length ≤ d.capacity
  capacity_le : d.capacity ≤ isizeMax

def len (d : Buffer α) : Nat := d.items.length

def popBack (d : Buffer α) : Option α × Buffer α :=
  (d.items.getLast?, { d with items := d.items.dropLast })

@[simp] theorem popBack_nil (capacity : Nat) :
    (⟨[], capacity⟩ : Buffer α).popBack = (none, ⟨[], capacity⟩) := rfl

@[simp] theorem popBack_append_singleton (items : List α) (value : α) (capacity : Nat) :
    (⟨items ++ [value], capacity⟩ : Buffer α).popBack = (some value, ⟨items, capacity⟩) := by
  simp [popBack]

variable [RawVec α]

/-- A refused request stands for every way in which the reservation can fail. -/
def tryReserve (d : Buffer α) (additional : Nat) (a : Allocator) :
    Except TryReserveError Unit × Buffer α × Allocator :=
  match vecTryReserve α d.items.length d.capacity additional a with
  | (.ok capacity, a) => (.ok (), { d with capacity }, a)
  | (.error e, a) => (.error e, d, a)

def tryWithCapacity (capacity : Nat) (a : Allocator) :
    Except TryReserveError (Buffer α) × Allocator :=
  match new.tryReserve capacity a with
  | (.ok (), d, a) => (.ok d, a)
  | (.error e, _, a) => (.error e, a)

def tryPushBackGiveBack (d : Buffer α) (value : α) (a : Allocator) :
    Except (α × TryReserveError) Unit × Buffer α × Allocator :=
  match d.tryReserve 1 a with
  | (.ok (), d, a) => (.ok (), { d with items := d.items ++ [value] }, a)
  | (.error e, d, a) => (.error (value, e), d, a)

def tryPushFrontGiveBack (d : Buffer α) (value : α) (a : Allocator) :
    Except (α × TryReserveError) Unit × Buffer α × Allocator :=
  match d.tryReserve 1 a with
  | (.ok (), d, a) => (.ok (), { d with items := value :: d.items }, a)
  | (.error e, d, a) => (.error (value, e), d, a)

section
variable {d : Buffer α} {additional : Nat} {value : α} {a : Allocator}

theorem tryReserve_room (h : additional ≤ d.capacity - d.items.length) :
    d.tryReserve additional a = (.ok (), d, a) := by
  simp [tryReserve, vecTryReserve, h]

theorem tryReserve_granted (h : d.capacity - d.items.length < additional)
    (hg : a.grants a.requests = true) : d.tryReserve additional a =
      (.ok (), { d with capacity := growAmortized α d.capacity (d.items.length + additional) },
        a.request.2) := by
  simp [tryReserve, vecTryReserve, hg, Nat.not_le.mpr h]

theorem tryReserve_refused (h : d.capacity - d.items.length < additional)
    (hg : a.grants a.requests = false) :
    d.tryReserve additional a = (.error .allocError, d, a.request.2) := by
  simp [tryReserve, vecTryReserve, hg, Nat.not_le.mpr h]

theorem tryPushBack_room (h : d.items.length < d.capacity) :
    d.tryPushBackGiveBack value a = (.ok (), { d with items := d.items ++ [value] }, a) := by
  rw [tryPushBackGiveBack, tryReserve_room (by omega)]

theorem tryPushFront_room (h : d.items.length < d.capacity) :
    d.tryPushFrontGiveBack value a = (.ok (), { d with items := value :: d.items }, a) := by
  rw [tryPushFrontGiveBack, tryReserve_room (by omega)]

theorem tryPushFront_granted (h : d.capacity ≤ d.items.length)
    (hg : a.grants a.requests = true) : d.tryPushFrontGiveBack value a =
      (.ok (), ⟨value :: d.items, growAmortized α d.capacity (d.items.length + 1)⟩,
        a.request.2) := by
  rw [tryPushFrontGiveBack, tryReserve_granted (by omega) hg]

theorem tryPushFront_refused (h : d.capacity ≤ d.items.length)
    (hg : a.grants a.requests = false) :
    d.tryPushFrontGiveBack value a = (.error (value, .allocError), d, a.request.2) := by
  rw [tryPushFrontGiveBack, tryReserve_refused (by omega) hg]

theorem tryPushFront_cases (d : Buffer α) (value : α) (a : Allocator) :
    (∃ capacity a', d.tryPushFrontGiveBack value a = (.ok (), ⟨value :: d.items, capacity⟩, a') ∧
      a'.grants = a.grants) ∨
    (d.tryPushFrontGiveBack value a = (.error (value, .allocError), d, a.request.2) ∧
      a.grants a.requests = false) := by
  rcases Nat.lt_or_ge d.items.length d.capacity with hroom | hfull
  · exact Or.inl ⟨_, a, tryPushFront_room hroom, rfl⟩
  cases hg : a.grants a.requests with
  | true => exact Or.inl ⟨_, a.request.2, tryPushFront_granted hfull hg, rfl⟩
  | false => exact Or.inr ⟨tryPushFront_refused hfull hg, rfl⟩

end

end Buffer

/-! ### Eviction -/

section
variable {α : Type}

/-- What became of the frames `l`, the most recent first, when `lost` had been lost before:
the first of them are kept, the rest are counted. -/
def Kept (l : List α) (lost : Nat) (kept : List α) (lost' : Nat) : Prop :=
  ∃ j ≤ l.length, kept = l.take j ∧ lost' = saturatingAdd lost (l.length - j)

namespace Kept
variable {new old kept kept' : List α} {lost lost' lost'' : Nat}

theorem all (l : List α) (h : lost ≤ usizeMax) : Kept l lost l lost := by
  refine ⟨l.length, Nat.le_refl _, List.take_length.symm, ?_⟩
  rw [Nat.sub_self, saturatingAdd_of_le h]
  rfl

theorem lost_le (h : Kept old lost kept lost') : lost' ≤ usizeMax := by
  obtain ⟨j, -, -, rfl⟩ := h
  exact saturatingAdd_le _ _

theorem append (hold : Kept old lost kept lost') (hnew : Kept (new ++ kept) lost' kept' lost'') :
    Kept (new ++ old) lost kept' lost'' := by
  obtain ⟨j, hj, rfl, rfl⟩ := hold
  obtain ⟨k, hk, rfl, rfl⟩ := hnew
  rw [List.length_append, List.length_take, Nat.min_eq_left hj] at hk
  refine ⟨k, by rw [List.length_append]; omega, ?_, ?_⟩
  · rw [List.take_append, List.take_take, List.take_append, Nat.min_eq_left (by omega)]
  · rw [saturatingAdd_assoc]
    congr 1
    simp only [List.length_append, List.length_take, Nat.min_eq_left hj]
    omega

theorem trans (hold : Kept old lost kept lost') (hnew : Kept kept lost' kept' lost'') :
    Kept old lost kept' lost'' :=
  @append α [] old kept kept' lost lost' lost'' hold hnew

theorem length_le (h : Kept old lost kept lost') : kept.length ≤ old.length := by
  obtain ⟨j, -, rfl, -⟩ := h
  exact List.length_take_le' j old

theorem snoc {l : List α} (last : α) (h : Kept l (saturatingAdd lost 1) kept lost') :
    Kept (l ++ [last]) lost kept lost' := by
  obtain ⟨j, hj, rfl, rfl⟩ := h
  refine ⟨j, ?_, (List.take_append_of_le_length hj).symm, ?_⟩
  · rw [List.length_append]
    omega
  · rw [saturatingAdd_assoc, List.length_append, List.length_singleton]
    congr 1
    omega

theorem dropLast {l : List α} (h : l ≠ []) (lost : Nat) :
    Kept l lost l.dropLast (saturatingAdd lost 1) := by
  have hpos : 0 < l.length := List.length_pos_iff.mpr h
  refine ⟨l.length - 1, Nat.sub_le _ _, List.dropLast_eq_take, ?_⟩
  rw [Nat.sub_sub_self hpos]

theorem cons (value : α) (h : Kept old lost kept lost') :
    Kept (value :: old) lost (value :: kept) lost' := by
  obtain ⟨j, hj, rfl, rfl⟩ := h
  refine ⟨j + 1, Nat.succ_le_succ hj, rfl, ?_⟩
  rw [List.length_cons, Nat.add_sub_add_right]

theorem total (h : Kept old lost kept lost') :
    saturatingAdd kept.length lost' = saturatingAdd lost old.length := by
  obtain ⟨j, hj, rfl, rfl⟩ := h
  rw [List.length_take, Nat.min_eq_left hj]
  simp only [saturatingAdd]
  omega

end Kept

namespace Buffer

/-- A deque that has a buffer is not refused after an eviction. -/
structure Roomy (d : Buffer α) : Prop where
  len_le : d.items.length ≤ d.capacity
  capacity_pos : 0 < d.capacity

namespace Roomy
variable {d : Buffer α}

theorem one [RawVec α] (value : α) : (⟨[value], growAmortized α 0 1⟩ : Buffer α).Roomy :=
  ⟨needed_le_growAmortized 0 1, needed_le_growAmortized 0 1⟩

theorem pushFront_cases [RawVec α] (h : d.Roomy) (value : α) (a : Allocator) :
    (∃ d' a', d.tryPushFrontGiveBack value a = (.ok (), d', a') ∧ d'.Roomy ∧
      d'.items = value :: d.items) ∨
    d.items ≠ [] ∧ (∃ a', d.tryPushFrontGiveBack value a = (.error (value, .allocError), d, a') ∧
      d.popBack.2.tryPushFrontGiveBack value a' =
        (.ok (), ⟨value :: d.items.dropLast, d.capacity⟩, a')) := by
  obtain ⟨hlen, hpos⟩ := h
  rcases Nat.lt_or_ge d.items.length d.capacity with hroom | hfull
  · exact Or.inl ⟨_, a, tryPushFront_room hroom, ⟨hroom, hpos⟩, rfl⟩
  cases hg : a.grants a.requests with
  | true =>
    have hgrown := @needed_le_growAmortized α _ d.capacity (d.items.length + 1)
    refine Or.inl ⟨_, a.request.2, tryPushFront_granted hfull hg, ⟨hgrown, ?_⟩, rfl⟩
    exact Nat.lt_of_lt_of_le (Nat.succ_pos _) hgrown
  | false =>
    refine Or.inr ⟨?_, a.request.2, tryPushFront_refused hfull hg, tryPushFront_room ?_⟩
    · exact List.length_pos_iff.mp (Nat.lt_of_lt_of_le hpos hfull)
    · simp only [popBack, List.length_dropLast]
      omega

theorem evicted (h : d.Roomy) (value : α) :
    (⟨value :: d.items.dropLast, d.capacity⟩ : Buffer α).Roomy := by
  obtain ⟨hlen, hpos⟩ := h
  refine ⟨?_, hpos⟩
  simp only [List.length_cons, List.length_dropLast]
  omega

end Roomy

end Buffer

end

/-! ## Frames -/

structure Location where
  file : String
  line : Nat
  column : Nat
deriving DecidableEq, Repr

structure ContextFrame (C : Type) where
  context : C
  segment : Option String
  location : Location
deriving DecidableEq, Repr

def ContextFrame.new {C : Type} (context : C) (location : Location) : ContextFrame C :=
  ⟨context, none, location⟩

structure DynamicFrame (I : Type) where
  context : I
  attachments : List I
  children : List (DynamicFrame I)
  lostAttachments : Nat
  lostChildren : Nat

structure StaticFrame (C I : Type) where
  context : ContextFrame C
  attachments : List I
  children : List (DynamicFrame I)
  lostAttachments : Nat
  lostChildren : Nat

structure Report (C I : Type) where
  head : StaticFrame C I
  peers : Buffer (StaticFrame C I)
  lostPeers : Nat
  capacity : Option Nat

section
variable {C T I : Type}

/-- The context of a `DynamicFrame` is boxed; how large a `StaticFrame` is depends on its type. -/
instance : RawVec (DynamicFrame I) := ⟨4⟩

structure Report.Valid (r : Report C I) : Prop where
  peers : r.peers.Valid
  lostPeers_le : r.lostPeers ≤ usizeMax

def StaticFrame.new (context : ContextFrame C) : StaticFrame C I := ⟨context, [], [], 0, 0⟩

def StaticFrame.erased (erase : ContextFrame C → I) (sf : StaticFrame C I) : DynamicFrame I :=
  ⟨erase sf.context, sf.attachments, sf.children, sf.lostAttachments, sf.lostChildren⟩

def DynamicFrame.fromStatic (erase : ContextFrame C → I) (sf : StaticFrame C I) (a : Allocator) :
    Except (StaticFrame C I) (DynamicFrame I) × Allocator :=
  if a.request.1 then (.ok (sf.erased erase), a.request.2) else (.error sf, a.request.2)

namespace Report

def new (context : C) (location : Location) : Report C I :=
  ⟨.new (.new context location), .new, 0, none⟩

def withCapacity (r : Report C I) (cap : Nat) : Report C I := { r with capacity := some cap }

def peerCount (r : Report C I) : Nat := saturatingAdd 1 r.peers.len

/-! ## Push -/

/-- The loop of `push` that enforces the capacity, for at most `fuel` turns. -/
def evict (cap : Nat) : Nat → Report C I → Option (Report C I)
  | 0, _ => none
  | fuel + 1, r =>
    if cap ≤ r.peerCount then
      evict cap fuel
        { r with peers := r.peers.popBack.2, lostPeers := saturatingAdd r.lostPeers 1 }
    else some r

/-- What follows the loop. -/
def pushFrame [RawVec (StaticFrame C I)] (r : Report C I) (sf : StaticFrame C I) (a : Allocator) :
    Except Fault (Report C I × Allocator) :=
  let r := if r.peers.len = usizeMax then
      { r with peers := r.peers.popBack.2, lostPeers := saturatingAdd r.lostPeers 1 }
    else r
  match r.peers.tryPushFrontGiveBack sf a with
  | (.ok (), peers, a) => .ok ({ r with peers }, a)
  | (.error (recovered, _), peers, a) =>
    match peers.popBack.2.tryPushFrontGiveBack recovered a with
    | (result, peers, a) => do
      expectOk "pop_back followed by push_front should succeed" result
      .ok ({ r with peers, lostPeers := saturatingAdd r.lostPeers 1 }, a)

/-- `none` when the loop has not come to an end. -/
def push [RawVec (StaticFrame C I)] (fuel : Nat) (r : Report C I) (sf : StaticFrame C I)
    (a : Allocator) : Option (Except Fault (Report C I × Allocator)) :=
  match r.capacity with
  | some cap => (evict cap fuel r).map fun r => r.pushFrame sf a
  | none => some (r.pushFrame sf a)

/-! ## Change of context, lossy -/

/-- The last step of `demote_and_push`: a refused push evicts the oldest child and is tried
once more. -/
def pushChild (children : Buffer (DynamicFrame I)) (lostChildren : Nat) (df : DynamicFrame I)
    (a : Allocator) : Except Fault (Buffer (DynamicFrame I) × Nat × Allocator) :=
  match children.tryPushFrontGiveBack df a with
  | (.ok (), children, a) => .ok (children, lostChildren, a)
  | (.error (dropped, _), children, a) =>
    match children.popBack.2.tryPushFrontGiveBack dropped a with
    | (result, children, a) => do
      expectOk "eviction guarantees space" result
      .ok (children, saturatingAdd lostChildren 1, a)

/-- The loop of `demote_and_push`. A turn that is not the last evicts a child. -/
def demoteLoop (erase : ContextFrame C → I) : Nat → StaticFrame C I → Buffer (DynamicFrame I) →
    Nat → Allocator → Except Fault (Buffer (DynamicFrame I) × Nat × Allocator)
  | 0, _, _, _, _ => .error (.unreachable "more turns than children")
  | fuel + 1, sf, children, lostChildren, a =>
    match DynamicFrame.fromStatic erase sf a with
    | (.ok df, a) => pushChild children lostChildren df a
    | (.error recovered, a) =>
      match children.popBack with
      | (some _, children) =>
        demoteLoop erase fuel recovered children (saturatingAdd lostChildren 1) a
      | (none, children) => .ok (children, saturatingAdd lostChildren 1, a)

def demoteAndPush (erase : ContextFrame C → I) (sf : StaticFrame C I)
    (children : Buffer (DynamicFrame I)) (lostChildren : Nat) (a : Allocator) :
    Except Fault (Buffer (DynamicFrame I) × Nat × Allocator) :=
  demoteLoop erase (children.len + 1) sf children lostChildren a

/-- The peers, in the order in which `pop_back` takes them. -/
def demotePeers (erase : ContextFrame C → I) : List (StaticFrame C I) → Buffer (DynamicFrame I) →
    Nat → Allocator → Except Fault (Buffer (DynamicFrame I) × Nat × Allocator)
  | [], children, lostChildren, a => .ok (children, lostChildren, a)
  | sf :: rest, children, lostChildren, a => do
    let (children, lostChildren, a) ← demoteAndPush erase sf children lostChildren a
    demotePeers erase rest children lostChildren a

def changeContext (erase : ContextFrame C → I) (r : Report C I) (context : T)
    (location : Location) (a : Allocator) : Except Fault (Report T I × Allocator) := do
  let total := saturatingAdd r.peers.len 1
  let (_, children, a) := (Buffer.new : Buffer (DynamicFrame I)).tryReserve total a
  let (children, lostChildren, a) ← demotePeers erase r.peers.items.reverse children r.lostPeers a
  let (children, lostChildren, a) ← demoteAndPush erase r.head children lostChildren a
  .ok (⟨{ StaticFrame.new (.new context location) with children := children.items, lostChildren },
    .new, 0, r.capacity⟩, a)

end Report

/-! ## Change of context, lossless -/

structure ChangeContextError (C T I : Type) where
  report : Report C I
  context : T

/-- The context is boxed, and not yet erased. -/
structure IntermediateFrame (C I : Type) where
  context : ContextFrame C
  attachments : List I
  children : List (DynamicFrame I)
  lostAttachments : Nat
  lostChildren : Nat

namespace IntermediateFrame

instance : RawVec (IntermediateFrame C I) := ⟨4⟩

def intoDynamic (erase : ContextFrame C → I) (inter : IntermediateFrame C I) : DynamicFrame I :=
  ⟨erase inter.context, inter.attachments, inter.children, inter.lostAttachments,
    inter.lostChildren⟩

def recoverStatic (inter : IntermediateFrame C I) : StaticFrame C I :=
  ⟨inter.context, inter.attachments, inter.children, inter.lostAttachments, inter.lostChildren⟩

end IntermediateFrame

def StaticFrame.intermediate (sf : StaticFrame C I) : IntermediateFrame C I :=
  ⟨sf.context, sf.attachments, sf.children, sf.lostAttachments, sf.lostChildren⟩

@[simp] theorem StaticFrame.intermediate_recoverStatic (sf : StaticFrame C I) :
    sf.intermediate.recoverStatic = sf := rfl

@[simp] theorem StaticFrame.intermediate_intoDynamic (erase : ContextFrame C → I)
    (sf : StaticFrame C I) : sf.intermediate.intoDynamic erase = sf.erased erase := rfl

def StaticFrame.boxed (sf : StaticFrame C I) (a : Allocator) :
    Except (StaticFrame C I) (IntermediateFrame C I) × Allocator :=
  if a.request.1 then (.ok sf.intermediate, a.request.2) else (.error sf, a.request.2)

namespace Report

section
variable [RawVec (StaticFrame C I)]

def pushBackAll : List (StaticFrame C I) → Buffer (StaticFrame C I) → Allocator →
    Buffer (StaticFrame C I) × Allocator
  | [], peers, a => (peers, a)
  | sf :: rest, peers, a =>
    match peers.tryPushBackGiveBack sf a with
    | (_, peers, a) => pushBackAll rest peers a

def recoverReport (intermediates : Buffer (IntermediateFrame C I))
    (trailing : Option (StaticFrame C I)) (remainingPeers : Buffer (StaticFrame C I))
    (headFrame : StaticFrame C I) (lostPeers : Nat) (capacity : Option Nat) (a : Allocator) :
    Report C I × Allocator :=
  match pushBackAll trailing.toList remainingPeers a with
  | (peers, a) =>
    match pushBackAll (intermediates.items.reverse.map IntermediateFrame.recoverStatic) peers a with
    | (peers, a) => (⟨headFrame, peers, lostPeers, capacity⟩, a)

/-- The loop that boxes the peers, oldest first. A refusal gives the frame back, with the
peers still in the deque and the frames boxed so far. -/
def boxPeers : Nat → Buffer (StaticFrame C I) → Buffer (IntermediateFrame C I) → Allocator →
    Except Fault (Except (StaticFrame C I × Buffer (StaticFrame C I) × Buffer
      (IntermediateFrame C I))
      (Buffer (StaticFrame C I) × Buffer (IntermediateFrame C I)) × Allocator)
  | 0, _, _, _ => .error (.unreachable "more turns than peers")
  | fuel + 1, peers, intermediates, a =>
    match peers.popBack with
    | (none, peers) => .ok (.ok (peers, intermediates), a)
    | (some sf, peers) =>
      match sf.boxed a with
      | (.error sf, a) => .ok (.error (sf, peers, intermediates), a)
      | (.ok inter, a) =>
        match intermediates.tryPushBackGiveBack inter a with
        | (result, intermediates, a) => do
          expectOk "capacity was reserved" result
          boxPeers fuel peers intermediates a

/-- The loop that moves the boxed frames into the children. -/
def demoteAll (erase : ContextFrame C → I) : List (IntermediateFrame C I) →
    Buffer (DynamicFrame I) → Allocator → Except Fault (Buffer (DynamicFrame I) × Allocator)
  | [], children, a => .ok (children, a)
  | inter :: rest, children, a =>
    match children.tryPushFrontGiveBack (inter.intoDynamic erase) a with
    | (result, children, a) => do
      expectOk "children capacity was reserved" result
      demoteAll erase rest children a

def tryChangeContext (erase : ContextFrame C → I) (r : Report C I) (context : T)
    (location : Location) (a : Allocator) :
    Except Fault (Except (ChangeContextError C T I) (Report T I) × Allocator) :=
  let total := saturatingAdd r.peers.len 1
  match (Buffer.new : Buffer (DynamicFrame I)).tryReserve total a with
  | (.error _, _, a) => .ok (.error ⟨r, context⟩, a)
  | (.ok (), children, a) =>
    match (Buffer.tryWithCapacity total a : Except _ (Buffer (IntermediateFrame C I)) × _) with
    | (.error _, a) => .ok (.error ⟨r, context⟩, a)
    | (.ok intermediates, a) => do
      match ← boxPeers (r.peers.len + 1) r.peers intermediates a with
      | (.error (sf, peers, intermediates), a) =>
        let (report, a) := recoverReport intermediates (some sf) peers r.head r.lostPeers
          r.capacity a
        .ok (.error ⟨report, context⟩, a)
      | (.ok (peers, intermediates), a) =>
        match r.head.boxed a with
        | (.error sf, a) =>
          let (report, a) := recoverReport intermediates none peers sf r.lostPeers r.capacity a
          .ok (.error ⟨report, context⟩, a)
        | (.ok inter, a) =>
          match intermediates.tryPushBackGiveBack inter a with
          | (result, intermediates, a) => do
            expectOk "capacity was reserved" result
            let (children, a) ← demoteAll erase intermediates.items.reverse children a
            .ok (.ok ⟨{ StaticFrame.new (.new context location) with
              children := children.items, lostChildren := r.lostPeers }, .new, 0, r.capacity⟩, a)

end

/-! ## Two contexts -/

def here : Location := ⟨"src/main.rs", 1, 1⟩

instance : RawVec (StaticFrame String I) := ⟨4⟩

def twoContexts : Report String (ContextFrame String) :=
  { Report.new "outer" here with peers := ⟨[.new (.new "inner" here)], 4⟩ }

theorem twoContexts_valid : twoContexts.Valid :=
  ⟨⟨by decide, by decide⟩, by decide⟩

end Report

end

end Rustyfill.Errors
