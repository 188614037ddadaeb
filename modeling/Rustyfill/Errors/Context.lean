import Rustyfill.Errors.Report

/-!
# Changing the context

What `change_context` and `try_change_context` make of the frames of a report, under an
allocator that may refuse any request.
-/

namespace Rustyfill.Errors

set_option autoImplicit false

variable {C T I : Type}

namespace Report

/-! ## Lossless -/

section
variable [RawVec (StaticFrame C I)]

theorem pushBackAll_room {l : List (StaticFrame C I)} (d : Buffer (StaticFrame C I))
    (h : d.items.length + l.length ≤ d.capacity) (a : Allocator) :
    pushBackAll l d a = ({ d with items := d.items ++ l }, a) := by
  induction l generalizing d with
  | nil => simp [pushBackAll]
  | cons sf l ih =>
    rw [List.length_cons] at h
    rw [pushBackAll, Buffer.tryPushBack_room (by omega)]
    have hrest := ih { d with items := d.items ++ [sf] }
      (by simp only [List.length_append, List.length_singleton]; omega)
    simp [hrest]

/-- Whatever the deque had room for before the frames were taken out fits back in. -/
theorem recoverReport_eq {inters : Buffer (IntermediateFrame C I)}
    {trailing : Option (StaticFrame C I)} {rest done : List (StaticFrame C I)} {capacity : Nat}
    (hinters : inters.items = done.map StaticFrame.intermediate)
    (hroom : rest.length + trailing.toList.length + done.length ≤ capacity)
    (head : StaticFrame C I) (lost : Nat) (cap : Option Nat) (a : Allocator) :
    recoverReport inters trailing ⟨rest, capacity⟩ head lost cap a =
      (⟨head, ⟨rest ++ trailing.toList ++ done.reverse, capacity⟩, lost, cap⟩, a) := by
  have hback : inters.items.reverse.map IntermediateFrame.recoverStatic = done.reverse := by
    rw [hinters, ← List.map_reverse, List.map_map]
    exact List.map_id'' (fun _ => rfl) _
  rw [recoverReport, hback, pushBackAll_room _ (by simp only; omega)]
  dsimp only
  rw [pushBackAll_room _ (by simp only [List.length_append, List.length_reverse]; omega)]

end

/-- The loop boxes every peer, oldest first, unless a box is refused: then it stops at that
frame. The frames are listed as the loop meets them. -/
theorem boxPeers_cases (l : List (StaticFrame C I)) {fuel capacity : Nat}
    {inters : Buffer (IntermediateFrame C I)} (a : Allocator) (hfuel : l.length < fuel)
    (hroom : inters.items.length + l.length ≤ inters.capacity) :
    ∃ a', a'.grants = a.grants ∧
      (boxPeers fuel ⟨l.reverse, capacity⟩ inters a = .ok (.ok (⟨[], capacity⟩,
          { inters with items := inters.items ++ l.map StaticFrame.intermediate }), a') ∨
        (∃ n, a.grants n = false) ∧ ∃ done sf rest, l = done ++ sf :: rest ∧
          boxPeers fuel ⟨l.reverse, capacity⟩ inters a = .ok (.error (sf, ⟨rest.reverse, capacity⟩,
            { inters with items := inters.items ++ done.map StaticFrame.intermediate }), a')) := by
  induction l generalizing fuel inters a with
  | nil =>
    obtain ⟨fuel, rfl⟩ : ∃ n, fuel = n + 1 := ⟨fuel - 1, by simp at hfuel; omega⟩
    refine ⟨a, rfl, Or.inl ?_⟩
    simp [boxPeers]
  | cons sf l ih =>
    obtain ⟨fuel, rfl⟩ : ∃ n, fuel = n + 1 := ⟨fuel - 1, by omega⟩
    rw [List.length_cons] at hfuel hroom
    cases hg : a.grants a.requests with
    | false =>
      refine ⟨a.request.2, rfl, Or.inr ⟨⟨_, hg⟩, [], sf, l, rfl, ?_⟩⟩
      simp [boxPeers, StaticFrame.boxed, hg]
    | true =>
      have hstep : boxPeers (fuel + 1) ⟨(sf :: l).reverse, capacity⟩ inters a =
          boxPeers fuel ⟨l.reverse, capacity⟩
            { inters with items := inters.items ++ [sf.intermediate] } a.request.2 := by
        simp [boxPeers, StaticFrame.boxed, hg, expectOk,
          Buffer.tryPushBack_room (show inters.items.length < inters.capacity by omega)]
      rw [hstep]
      obtain ⟨a', ha', h⟩ := @ih fuel { inters with items := inters.items ++ [sf.intermediate] }
        a.request.2 (by omega) (by simp only [List.length_append, List.length_singleton]; omega)
      refine ⟨a', ha', ?_⟩
      rcases h with h | ⟨hrefused, done, sf', rest, rfl, h⟩
      · refine Or.inl (h.trans ?_)
        simp
      · refine Or.inr ⟨hrefused, sf :: done, sf', rest, rfl, h.trans ?_⟩
        simp

theorem demoteAll_room (erase : ContextFrame C → I) {l : List (StaticFrame C I)}
    (children : Buffer (DynamicFrame I)) (h : children.items.length + l.length ≤ children.capacity)
    (a : Allocator) : demoteAll erase (l.map StaticFrame.intermediate) children a =
      .ok ({ children with
        items := (l.map (StaticFrame.erased erase)).reverse ++ children.items }, a) := by
  induction l generalizing children with
  | nil => simp [demoteAll]
  | cons sf l ih =>
    rw [List.length_cons] at h
    rw [List.map_cons, demoteAll, Buffer.tryPushFront_room (by omega)]
    have hrest := ih { children with items := sf.erased erase :: children.items }
      (by simp only [List.length_cons]; omega)
    simp [expectOk, hrest]

/-- The frames of a report as the children of another, the most recent first. -/
def demoted (erase : ContextFrame C → I) (r : Report C I) : List (DynamicFrame I) :=
  (r.head :: r.peers.items).map (StaticFrame.erased erase)

@[simp] theorem length_demoted (erase : ContextFrame C → I) (r : Report C I) :
    (r.demoted erase).length = r.peers.items.length + 1 := by
  simp [demoted]

/-- A report whose context has been changed, with `children` the frames that were kept. -/
def successor (r : Report C I) (context : T) (location : Location)
    (children : List (DynamicFrame I)) (lostChildren : Nat) : Report T I :=
  ⟨{ StaticFrame.new (.new context location) with children, lostChildren }, .new, 0, r.capacity⟩

theorem total_eq {r : Report C I} (hv : r.peers.Valid) :
    saturatingAdd r.peers.len 1 = r.peers.items.length + 1 := by
  apply saturatingAdd_of_le
  have hlen := Nat.le_trans hv.len_le hv.capacity_le
  simp only [isizeMax] at hlen
  simp only [usizeMax, Buffer.len]
  omega

theorem tryReserve_new_granted (α : Type) [RawVec α] (n : Nat) {a : Allocator}
    (hg : a.grants a.requests = true) : ∃ room, n + 1 ≤ room ∧
      (Buffer.new : Buffer α).tryReserve (n + 1) a = (.ok (), ⟨[], room⟩, a.request.2) := by
  refine ⟨growAmortized α 0 (n + 1), needed_le_growAmortized 0 (n + 1), ?_⟩
  rw [Buffer.tryReserve_granted (by simp [Buffer.new]) hg]
  simp [Buffer.new]

theorem tryReserve_new_refused {α : Type} [RawVec α] {n : Nat} {a : Allocator}
    (hg : a.grants a.requests = false) : (Buffer.new : Buffer α).tryReserve (n + 1) a =
      (.error .allocError, .new, a.request.2) :=
  Buffer.tryReserve_refused (by simp [Buffer.new]) hg

section
variable [RawVec (StaticFrame C I)]

/-- Everything the lossless change can do: all the frames move into the children, or, when
some request was refused, nothing has changed. -/
theorem tryChangeContext_cases (erase : ContextFrame C → I) {r : Report C I}
    (hv : r.peers.Valid) (context : T) (location : Location) (a : Allocator) :
    ∃ res a', tryChangeContext erase r context location a = .ok (res, a') ∧
      (res = .ok (r.successor context location (r.demoted erase).reverse r.lostPeers) ∨
        (∃ n, a.grants n = false) ∧ res = .error ⟨r, context⟩) := by
  simp only [tryChangeContext, total_eq hv]
  cases hchildren : a.grants a.requests with
  | false =>
    rw [tryReserve_new_refused hchildren]
    exact ⟨_, _, rfl, Or.inr ⟨⟨_, hchildren⟩, rfl⟩⟩
  | true =>
    obtain ⟨roomChildren, hroomChildren, hreserved⟩ :=
      tryReserve_new_granted (DynamicFrame I) r.peers.items.length hchildren
    rw [hreserved]
    cases hinters : a.request.2.grants a.request.2.requests with
    | false =>
      simp only [Buffer.tryWithCapacity, tryReserve_new_refused hinters]
      exact ⟨_, _, rfl, Or.inr ⟨⟨_, hinters⟩, rfl⟩⟩
    | true =>
      obtain ⟨roomInters, hroomInters, hallocated⟩ :=
        tryReserve_new_granted (IntermediateFrame C I) r.peers.items.length hinters
      simp only [Buffer.tryWithCapacity, hallocated]
      obtain ⟨head, ⟨peers, room⟩, lost, cap⟩ := r
      -- The peers, in the order in which the loop takes them from the deque.
      obtain ⟨l, rfl⟩ : ∃ l : List (StaticFrame C I), peers = l.reverse :=
        ⟨_, (List.reverse_reverse _).symm⟩
      have hroom : l.length ≤ room := by simpa using hv.len_le
      simp only [List.length_reverse] at hroomChildren hroomInters
      obtain ⟨a', ha', h | ⟨hrefused, done, sf, rest, rfl, h⟩⟩ :=
        @boxPeers_cases C I l (l.length + 1) room ⟨[], roomInters⟩ a.request.2.request.2
          (Nat.lt_succ_self _) (by simp only [List.length_nil]; omega)
      · simp only [Buffer.len, List.length_reverse, h, ok_bind]
        cases hhead : a'.grants a'.requests with
        | false =>
          refine ⟨.error ⟨_, context⟩, a'.request.2, ?_, Or.inr ⟨⟨_, ha' ▸ hhead⟩, rfl⟩⟩
          have hback := @recoverReport_eq C I _ ⟨l.map StaticFrame.intermediate, roomInters⟩ none
            [] l room rfl (by simpa using hroom) head lost cap a'.request.2
          simp [StaticFrame.boxed, hhead, hback]
        | true =>
          refine ⟨_, a'.request.2, ?_, Or.inl rfl⟩
          simp only [StaticFrame.boxed, Allocator.request_fst, hhead, if_true]
          rw [Buffer.tryPushBack_room (Nat.lt_of_lt_of_le (by simp) hroomInters)]
          have hall := @demoteAll_room C I erase (head :: l.reverse) ⟨[], roomChildren⟩
            (by simpa using hroomChildren) a'.request.2
          simp only [List.map_cons, List.map_reverse] at hall
          simp [expectOk, hall, successor, demoted]
      · simp only [Buffer.len, List.length_reverse, h, ok_bind]
        rw [recoverReport_eq rfl]
        · refine ⟨_, _, rfl, Or.inr ⟨hrefused, ?_⟩⟩
          simp
        · simp only [List.length_append, List.length_cons] at hroom
          simp only [List.length_reverse, Option.toList_some, List.length_singleton]
          omega

end

theorem pushChild_kept {children : Buffer (DynamicFrame I)} (h : children.Roomy) {lost : Nat}
    (hlost : lost ≤ usizeMax) (df : DynamicFrame I) (a : Allocator) : ∃ children' lost' a',
      pushChild children lost df a = .ok (children', lost', a') ∧ children'.Roomy ∧
        Kept (df :: children.items) lost children'.items lost' := by
  rcases h.pushFront_cases df a with ⟨children', a', hpush, hroomy, hitems⟩ |
    ⟨hne, a', hpush, hretry⟩
  · refine ⟨children', lost, a', ?_, hroomy, hitems ▸ Kept.all _ hlost⟩
    rw [pushChild, hpush]
  · refine ⟨_, saturatingAdd lost 1, a', ?_, h.evicted df, (Kept.dropLast hne lost).cons df⟩
    rw [pushChild, hpush]
    simp only [hretry, expectOk, ok_bind]

theorem demoteLoop_kept (erase : ContextFrame C → I) (sf : StaticFrame C I) {fuel : Nat}
    {children : Buffer (DynamicFrame I)} (hfuel : children.items.length < fuel)
    (h : children.Roomy) {lost : Nat} (hlost : lost ≤ usizeMax) (a : Allocator) :
    ∃ children' lost' a', demoteLoop erase fuel sf children lost a = .ok (children', lost', a') ∧
      children'.Roomy ∧ Kept (sf.erased erase :: children.items) lost children'.items lost' := by
  induction fuel generalizing children lost a with
  | zero => omega
  | succ fuel ih =>
    cases hg : a.grants a.requests with
    | true =>
      have hstep : demoteLoop erase (fuel + 1) sf children lost a =
          pushChild children lost (sf.erased erase) a.request.2 := by
        simp [demoteLoop, DynamicFrame.fromStatic, hg]
      rw [hstep]
      exact pushChild_kept h hlost _ _
    | false =>
      obtain ⟨items, capacity⟩ := children
      rcases items.eq_nil_or_concat' with rfl | ⟨items, last, rfl⟩
      · have hstep : demoteLoop erase (fuel + 1) sf ⟨[], capacity⟩ lost a =
            .ok (⟨[], capacity⟩, saturatingAdd lost 1, a.request.2) := by
          simp [demoteLoop, DynamicFrame.fromStatic, hg]
        exact ⟨_, _, _, hstep, h, 0, Nat.zero_le _, rfl, rfl⟩
      · have hstep : demoteLoop erase (fuel + 1) sf ⟨items ++ [last], capacity⟩ lost a =
            demoteLoop erase fuel sf ⟨items, capacity⟩ (saturatingAdd lost 1) a.request.2 := by
          simp [demoteLoop, DynamicFrame.fromStatic, hg]
        simp only [List.length_append, List.length_singleton] at hfuel
        have hlen := h.len_le
        simp only [List.length_append, List.length_singleton] at hlen
        obtain ⟨children', lost', a', hok, hroomy, hkept⟩ :=
          @ih ⟨items, capacity⟩ (show items.length < fuel by omega)
            ⟨show items.length ≤ capacity by omega, h.capacity_pos⟩ _
            (saturatingAdd_le lost 1) a.request.2
        exact ⟨children', lost', a', hstep.trans hok, hroomy, hkept.snoc last⟩

/-- Once the deque has room, every frame is either kept or counted. The frames are listed
as the loop meets them. -/
theorem demotePeers_kept (erase : ContextFrame C → I) (l : List (StaticFrame C I))
    {children : Buffer (DynamicFrame I)} (h : children.Roomy) {lost : Nat}
    (hlost : lost ≤ usizeMax) (a : Allocator) : ∃ children' lost' a',
      demotePeers erase l children lost a = .ok (children', lost', a') ∧
        Kept (l.reverse.map (StaticFrame.erased erase) ++ children.items) lost
          children'.items lost' := by
  induction l generalizing children lost a with
  | nil => exact ⟨children, lost, a, rfl, Kept.all _ hlost⟩
  | cons sf l ih =>
    obtain ⟨children₁, lost₁, a₁, hsf, hroomy, hkept⟩ :=
      demoteLoop_kept erase sf (Nat.lt_succ_self _) h hlost a
    obtain ⟨children₂, lost₂, a₂, hrest, hall⟩ := ih hroomy hkept.lost_le a₁
    refine ⟨children₂, lost₂, a₂, ?_, ?_⟩
    · rw [demotePeers, demoteAndPush, Buffer.len, hsf]
      exact hrest
    · have := hkept.append hall
      simpa using this

/-- The first of the next `n` boxes that is granted is followed by a refusal. -/
def PushRefused (n : Nat) (a : Allocator) : Prop :=
  ∃ k < n, (∀ j < k, a.grants (a.requests + j) = false) ∧ a.grants (a.requests + k) = true ∧
    a.grants (a.requests + k + 1) = false

theorem pushRefused_succ {n : Nat} {a : Allocator} : PushRefused (n + 1) a ↔
    (a.grants a.requests = true ∧ a.grants (a.requests + 1) = false) ∨
      (a.grants a.requests = false ∧ PushRefused n a.request.2) := by
  constructor
  · rintro ⟨k, hk, hbefore, hat, hafter⟩
    cases k with
    | zero => exact Or.inl ⟨hat, hafter⟩
    | succ k =>
      refine Or.inr ⟨hbefore 0 (Nat.succ_pos k), k, by omega, ?_, ?_, ?_⟩
      · intro j hj
        have := hbefore (j + 1) (by omega)
        rwa [← Nat.add_assoc, Nat.add_right_comm] at this
      · rwa [← Nat.add_assoc, Nat.add_right_comm] at hat
      · rwa [← Nat.add_assoc, Nat.add_right_comm _ k 1] at hafter
  · rintro (⟨hat, hafter⟩ | ⟨hfirst, k, hk, hbefore, hat, hafter⟩)
    · exact ⟨0, Nat.succ_pos n, by simp, hat, hafter⟩
    · refine ⟨k + 1, by omega, ?_, ?_, ?_⟩
      · intro j hj
        cases j with
        | zero => exact hfirst
        | succ j =>
          have := hbefore j (by omega)
          rwa [Allocator.request_requests, Nat.add_right_comm, Nat.add_assoc] at this
      · rwa [Allocator.request_requests, Nat.add_right_comm, Nat.add_assoc] at hat
      · rwa [Allocator.request_requests, Nat.add_right_comm _ 1 k, Nat.add_assoc _ k 1] at hafter

theorem demoteAndPush_new_refused (erase : ContextFrame C → I) (sf : StaticFrame C I) (lost : Nat)
    {a : Allocator} (hg : a.grants a.requests = false) :
    demoteAndPush erase sf .new lost a = .ok (.new, saturatingAdd lost 1, a.request.2) := by
  simp [demoteAndPush, demoteLoop, DynamicFrame.fromStatic, hg, Buffer.new]

theorem demoteAndPush_new_granted (erase : ContextFrame C → I) (sf : StaticFrame C I) (lost : Nat)
    {a : Allocator} (hg : a.grants a.requests = true) :
    demoteAndPush erase sf .new lost a = pushChild .new lost (sf.erased erase) a.request.2 := by
  simp [demoteAndPush, demoteLoop, DynamicFrame.fromStatic, hg]

theorem pushChild_new_granted (df : DynamicFrame I) (lost : Nat) {a : Allocator}
    (hg : a.grants a.requests = true) :
    pushChild .new lost df a = .ok (⟨[df], growAmortized (DynamicFrame I) 0 1⟩, lost,
      a.request.2) := by
  rw [pushChild, Buffer.tryPushFront_granted (Nat.le_refl _) hg]
  rfl

/-- There is nothing to evict from a deque without a buffer, and the frame that was not
evicted is counted. -/
theorem pushChild_new_refused {df : DynamicFrame I} {lost : Nat} {a : Allocator}
    (hg : a.grants a.requests = false)
    {children : Buffer (DynamicFrame I)} {lost' : Nat} {a' : Allocator}
    (h : pushChild .new lost df a = .ok (children, lost', a')) :
    children = ⟨[df], growAmortized (DynamicFrame I) 0 1⟩ ∧ lost' = saturatingAdd lost 1 := by
  rw [pushChild, Buffer.tryPushFront_refused (Nat.le_refl _) hg] at h
  have hnew : (Buffer.new : Buffer (DynamicFrame I)).popBack.2 = .new := rfl
  dsimp only at h
  rw [hnew] at h
  cases hretry : a.request.2.grants a.request.2.requests with
  | true =>
    rw [Buffer.tryPushFront_granted (Nat.le_refl _) hretry] at h
    simp only [expectOk, ok_bind, Except.ok.injEq, Prod.mk.injEq] at h
    exact ⟨h.1.symm, h.2.1.symm⟩
  | false =>
    rw [Buffer.tryPushFront_refused (Nat.le_refl _) hretry] at h
    simp [expectOk] at h

/-- From a deque without a buffer, all goes well unless the first push is refused. -/
theorem demotePeers_new (erase : ContextFrame C → I) (l : List (StaticFrame C I)) {lost : Nat}
    (hlost : lost ≤ usizeMax) (a : Allocator) (h : ¬ PushRefused l.length a) :
    ∃ children lost' a', demotePeers erase l .new lost a = .ok (children, lost', a') ∧
      Kept (l.reverse.map (StaticFrame.erased erase)) lost children.items lost' := by
  induction l generalizing lost a with
  | nil => exact ⟨.new, lost, a, rfl, Kept.all _ hlost⟩
  | cons sf l ih =>
    rw [List.length_cons, pushRefused_succ, not_or] at h
    rw [demotePeers]
    cases hg : a.grants a.requests with
    | false =>
      obtain ⟨children, lost', a', hrest, hkept⟩ := ih (saturatingAdd_le lost 1) a.request.2
        fun hr => h.2 ⟨hg, hr⟩
      refine ⟨children, lost', a', ?_, ?_⟩
      · rw [demoteAndPush_new_refused erase sf lost hg]
        exact hrest
      · have hfirst : Kept [sf.erased erase] lost [] (saturatingAdd lost 1) :=
          ⟨0, Nat.zero_le _, rfl, rfl⟩
        simpa using hfirst.append (by simpa using hkept)
    | true =>
      have hpush : a.request.2.grants a.request.2.requests = true := by
        simpa using fun hr => h.1 ⟨hg, hr⟩
      obtain ⟨children, lost', a', hrest, hkept⟩ :=
        demotePeers_kept erase l (Buffer.Roomy.one (sf.erased erase)) hlost a.request.2.request.2
      refine ⟨children, lost', a', ?_, by simpa using hkept⟩
      rw [demoteAndPush_new_granted erase sf lost hg, pushChild_new_granted _ _ hpush]
      exact hrest

/-- When it is refused, a run that does not end in the panic counts a frame that was kept. -/
theorem demotePeers_new_refused {erase : ContextFrame C → I} {l : List (StaticFrame C I)}
    {lost : Nat} {a : Allocator} (h : PushRefused l.length a)
    {children : Buffer (DynamicFrame I)} {lost' : Nat} {a' : Allocator}
    (hok : demotePeers erase l .new lost a = .ok (children, lost', a')) :
    Kept (l.reverse.map (StaticFrame.erased erase)) (saturatingAdd lost 1)
      children.items lost' := by
  induction l generalizing lost a with
  | nil =>
    obtain ⟨k, hk, -⟩ := h
    exact absurd hk (Nat.not_lt_zero k)
  | cons sf l ih =>
    rw [demotePeers] at hok
    rcases pushRefused_succ.mp h with ⟨hg, hpush⟩ | ⟨hg, hr⟩
    · rw [demoteAndPush_new_granted erase sf lost hg] at hok
      obtain ⟨⟨children₁, lost₁, a₁⟩, hfirst, hrest⟩ := bind_eq_ok.mp hok
      obtain ⟨rfl, rfl⟩ := pushChild_new_refused hpush hfirst
      obtain ⟨_, _, _, hrest', hkept⟩ :=
        demotePeers_kept erase l (Buffer.Roomy.one (sf.erased erase)) (saturatingAdd_le lost 1) a₁
      cases hrest.symm.trans hrest'
      simpa using hkept
    · rw [demoteAndPush_new_refused erase sf lost hg] at hok
      have hkept := ih hr hok
      have hfirst : Kept [sf.erased erase] (saturatingAdd lost 1) []
          (saturatingAdd (saturatingAdd lost 1) 1) := ⟨0, Nat.zero_le _, rfl, rfl⟩
      simpa using hfirst.append (by simpa using hkept)

theorem demotePeers_append (erase : ContextFrame C → I) (l : List (StaticFrame C I))
    (sf : StaticFrame C I) (children : Buffer (DynamicFrame I)) (lost : Nat) (a : Allocator) :
    demotePeers erase (l ++ [sf]) children lost a = (do
      let (children, lost, a) ← demotePeers erase l children lost a
      demoteAndPush erase sf children lost a) := by
  induction l generalizing children lost a with
  | nil =>
    simp only [List.nil_append, demotePeers, ok_bind]
    cases demoteAndPush erase sf children lost a <;> rfl
  | cons first l ih =>
    simp only [List.cons_append, demotePeers]
    cases demoteAndPush erase first children lost a with
    | error e => rfl
    | ok res => exact ih _ _ _

theorem changeContext_eq (erase : ContextFrame C → I) {r : Report C I} (hv : r.peers.Valid)
    (context : T) (location : Location) (a : Allocator) :
    changeContext erase r context location a = (do
      let (_, children, a) := (Buffer.new : Buffer (DynamicFrame I)).tryReserve
        (r.peers.items.length + 1) a
      let (children, lost, a) ← demotePeers erase (r.head :: r.peers.items).reverse children
        r.lostPeers a
      .ok (r.successor context location children.items lost, a)) := by
  rw [changeContext, total_eq hv, List.reverse_cons]
  simp only [demotePeers_append, bind_assoc]
  rfl

/-- Every old frame is among the children at most once, and the others are counted, each
once, on top of what had been lost before. -/
structure Accounted (erase : ContextFrame C → I) (r : Report C I) (r' : Report T I) : Prop where
  once : r'.head.children.Sublist (r.demoted erase)
  counted : r'.head.lostChildren =
    saturatingAdd r.lostPeers ((r.demoted erase).length - r'.head.children.length)
  total : saturatingAdd r'.head.children.length r'.head.lostChildren =
    saturatingAdd r.lostPeers (r.peers.len + 1)

theorem Accounted.of_kept {erase : ContextFrame C → I} {r : Report C I} (context : T)
    (location : Location) {children : List (DynamicFrame I)} {lost : Nat}
    (h : Kept (r.demoted erase) r.lostPeers children lost) :
    Accounted erase r (r.successor context location children lost) := by
  have htotal := h.total
  rw [length_demoted] at htotal
  obtain ⟨j, hj, rfl, rfl⟩ := h
  refine ⟨List.take_sublist _ _, ?_, htotal⟩
  simp only [successor, List.length_take, Nat.min_eq_left hj]

/-- The room for all the frames is granted, or no push meets a deque without a buffer and a
refusal. -/
def Provided (r : Report C I) (a : Allocator) : Prop :=
  a.grants a.requests = true ∨ ¬ PushRefused (r.peers.items.length + 1) a.request.2

theorem changeContext_of_provided (erase : ContextFrame C → I) {r : Report C I} (hv : r.Valid)
    (context : T) (location : Location) {a : Allocator} (h : r.Provided a) :
    ∃ r' a', changeContext erase r context location a = .ok (r', a') ∧ Accounted erase r r' := by
  have hdemoted : (r.head :: r.peers.items).reverse.reverse.map (StaticFrame.erased erase) =
      r.demoted erase := by rw [List.reverse_reverse, demoted]
  rw [changeContext_eq erase hv.peers]
  cases hbulk : a.grants a.requests with
  | true =>
    obtain ⟨room, hroom, hreserved⟩ :=
      tryReserve_new_granted (DynamicFrame I) r.peers.items.length hbulk
    obtain ⟨children, lost, a', hok, hkept⟩ :=
      @demotePeers_kept C I erase (r.head :: r.peers.items).reverse
        ⟨[], room⟩ ⟨Nat.zero_le _, Nat.lt_of_lt_of_le (Nat.succ_pos _) hroom⟩ r.lostPeers
        hv.lostPeers_le a.request.2
    rw [hdemoted, List.append_nil] at hkept
    refine ⟨_, a', ?_, Accounted.of_kept context location hkept⟩
    simp only [hreserved, hok, ok_bind]
  | false =>
    have hpush : ¬ PushRefused (r.head :: r.peers.items).reverse.length a.request.2 := by
      rw [List.length_reverse, List.length_cons]
      exact h.resolve_left (by simp [hbulk])
    obtain ⟨children, lost, a', hok, hkept⟩ := demotePeers_new erase
      (r.head :: r.peers.items).reverse hv.lostPeers_le a.request.2 hpush
    rw [hdemoted] at hkept
    refine ⟨_, a', ?_, Accounted.of_kept context location hkept⟩
    simp only [tryReserve_new_refused hbulk, hok, ok_bind]

/-- Otherwise one frame too many is counted, in a run that does not end in the panic. -/
theorem not_accounted_of_not_provided {erase : ContextFrame C → I} {r : Report C I}
    (hv : r.Valid) (hsmall : r.lostPeers + (r.peers.items.length + 1) < usizeMax) {context : T}
    {location : Location} {a a' : Allocator} (h : ¬ r.Provided a) {r' : Report T I}
    (hok : changeContext erase r context location a = .ok (r', a')) : ¬ Accounted erase r r' := by
  obtain ⟨hbulk, hpush⟩ := not_or.mp h
  rw [changeContext_eq erase hv.peers, tryReserve_new_refused (by simpa using hbulk)] at hok
  have hpush' : PushRefused (r.head :: r.peers.items).reverse.length a.request.2 := by
    rw [List.length_reverse, List.length_cons]
    exact not_not.mp hpush
  obtain ⟨⟨children, lost, a₁⟩, hall, hres⟩ := bind_eq_ok.mp hok
  obtain ⟨j, hj, hitems, hlost⟩ := demotePeers_new_refused hpush' hall
  obtain ⟨rfl, rfl⟩ : r.successor context location children.items lost = r' ∧ a₁ = a' := by
    simpa using hres
  intro hacc
  have hcounted := hacc.counted
  rw [List.reverse_reverse] at hj hitems hlost
  change j ≤ (r.demoted erase).length at hj
  have hkeep : children.items.length = j := by
    rw [hitems, List.length_take]
    exact Nat.min_eq_left hj
  change lost = saturatingAdd r.lostPeers ((r.demoted erase).length - children.items.length)
    at hcounted
  change lost = saturatingAdd (saturatingAdd r.lostPeers 1) ((r.demoted erase).length - j) at hlost
  rw [hkeep, hlost, saturatingAdd_assoc] at hcounted
  rw [length_demoted] at hcounted hj
  simp only [saturatingAdd] at hcounted
  omega

/-- The lossy change never panics and loses track of nothing, exactly when the deque is
provided for (as long as the counter is not about to saturate, which hides the difference). -/
theorem changeContext_accounts (erase : ContextFrame C → I) (r : Report C I) (hv : r.Valid)
    (context : T) (location : Location) (a : Allocator) :
    (r.Provided a → ∃ r' a', changeContext erase r context location a = .ok (r', a') ∧
      Accounted erase r r') ∧
    (r.lostPeers + (r.peers.items.length + 1) < usizeMax →
      (∃ r' a', changeContext erase r context location a = .ok (r', a') ∧ Accounted erase r r') →
      r.Provided a) := by
  refine ⟨changeContext_of_provided erase hv context location, ?_⟩
  rintro hsmall ⟨r', a', hok, hacc⟩
  by_contra h
  exact not_accounted_of_not_provided hv hsmall h hok hacc

theorem changeContext_accounts_twoContexts :
    (twoContexts.Provided ⟨fun n => n == 3, 0⟩ → ∃ r' a',
      changeContext id twoContexts "request failed" here ⟨fun n => n == 3, 0⟩ = .ok (r', a') ∧
        Accounted id twoContexts r') ∧
    (twoContexts.lostPeers + (twoContexts.peers.items.length + 1) < usizeMax →
      (∃ r' a', changeContext id twoContexts "request failed" here ⟨fun n => n == 3, 0⟩ =
        .ok (r', a') ∧ Accounted id twoContexts r') →
      twoContexts.Provided ⟨fun n => n == 3, 0⟩) :=
  changeContext_accounts id twoContexts twoContexts_valid "request failed" here _

/-- One context, and the only request that is granted boxes it. -/
theorem changeContext_panics : ¬ ∃ r' a',
    changeContext id (Report.new "outer" here) "request failed" here ⟨fun n => n == 1, 0⟩ =
      .ok (r', a') ∧ Accounted id (Report.new "outer" here) r' := by
  have hfault : changeContext (T := String) id (Report.new "outer" here) "request failed" here
      ⟨fun n => n == 1, 0⟩ = .error (.expect "eviction guarantees space") := rfl
  rintro ⟨r', a', hok, -⟩
  cases hfault.symm.trans hok

/-! ## The two together -/

theorem demotePeers_granted (erase : ContextFrame C → I) (l : List (StaticFrame C I))
    (children : Buffer (DynamicFrame I)) (hroom : children.items.length + l.length ≤
      children.capacity)
    (lost : Nat) {a : Allocator} (hg : ∀ n, a.grants n = true) :
    ∃ a', demotePeers erase l children lost a =
      .ok (⟨l.reverse.map (StaticFrame.erased erase) ++ children.items, children.capacity⟩,
        lost, a') := by
  induction l generalizing children a with
  | nil => exact ⟨a, rfl⟩
  | cons sf l ih =>
    rw [List.length_cons] at hroom
    have hfirst : demoteAndPush erase sf children lost a =
        .ok (⟨sf.erased erase :: children.items, children.capacity⟩, lost, a.request.2) := by
      simp only [demoteAndPush, demoteLoop, DynamicFrame.fromStatic, Allocator.request_fst, hg,
        if_true]
      rw [pushChild, Buffer.tryPushFront_room (by omega)]
    obtain ⟨a', hrest⟩ := @ih ⟨sf.erased erase :: children.items, children.capacity⟩
      (by simp only [List.length_cons]; omega) a.request.2 (by simpa using hg)
    refine ⟨a', ?_⟩
    rw [demotePeers, hfirst, ok_bind]
    simpa using hrest

theorem changeContext_granted (erase : ContextFrame C → I) {r : Report C I} (hv : r.peers.Valid)
    (context : T) (location : Location) {a : Allocator} (hg : ∀ n, a.grants n = true) :
    ∃ a', changeContext erase r context location a =
      .ok (r.successor context location (r.demoted erase) r.lostPeers, a') := by
  obtain ⟨room, hroom, hreserved⟩ :=
    tryReserve_new_granted (DynamicFrame I) r.peers.items.length (hg _)
  rw [changeContext_eq erase hv, hreserved]
  obtain ⟨a', h⟩ := @demotePeers_granted C I erase (r.head :: r.peers.items).reverse
    ⟨[], room⟩ (by simpa using hroom) r.lostPeers a.request.2 (by simpa using hg)
  refine ⟨a', ?_⟩
  simp only [h, ok_bind, List.reverse_reverse, List.append_nil, demoted]

/-- With nothing refused, the two changes of context list the children in opposite orders. -/
theorem changeContext_eq_tryChangeContext_iff [RawVec (StaticFrame C I)]
    (erase : ContextFrame C → I) (r : Report C I) (hv : r.peers.Valid) (context : T)
    (location : Location) (a : Allocator) (hg : ∀ n, a.grants n = true) :
    (∃ r' a₁ a₂, changeContext erase r context location a = .ok (r', a₁) ∧
      tryChangeContext erase r context location a = .ok (.ok r', a₂)) ↔
    (r.demoted erase).reverse = r.demoted erase := by
  obtain ⟨a₁, hlossy⟩ := changeContext_granted erase hv context location hg
  obtain ⟨res, a₂, hlossless, hres⟩ := tryChangeContext_cases erase hv context location a
  rcases hres with rfl | ⟨⟨n, hn⟩, -⟩
  · rw [hlossy, hlossless]
    constructor
    · rintro ⟨r', a₁', a₂', hl, hll⟩
      simp only [Except.ok.injEq, Prod.mk.injEq] at hl hll
      have hsame := hll.1.trans hl.1.symm
      exact congrArg (fun r => r.head.children) hsame
    · intro hpal
      exact ⟨_, a₁, a₂, rfl, by rw [hpal]⟩
  · exact absurd hn (by simp [hg])

theorem changeContext_eq_tryChangeContext_iff_new :
    (∃ r' a₁ a₂, changeContext id (Report.new "outer" here) "request failed" here
        ⟨fun _ => true, 0⟩ = .ok (r', a₁) ∧
      tryChangeContext id (Report.new "outer" here) "request failed" here ⟨fun _ => true, 0⟩ =
        .ok (.ok r', a₂)) ↔
    ((Report.new "outer" here).demoted id).reverse = (Report.new "outer" here).demoted id :=
  changeContext_eq_tryChangeContext_iff id (Report.new "outer" here)
    ⟨Nat.le_refl 0, Nat.zero_le _⟩ "request failed" here _ fun _ => rfl

theorem changeContext_ne_tryChangeContext :
    ¬ ∃ r' a₁ a₂, changeContext id twoContexts "request failed" here ⟨fun _ => true, 0⟩ =
        .ok (r', a₁) ∧
      tryChangeContext id twoContexts "request failed" here ⟨fun _ => true, 0⟩ =
        .ok (.ok r', a₂) := by
  have hlossy : ∀ r' a', changeContext id twoContexts "request failed" here ⟨fun _ => true, 0⟩ =
      .ok (r', a') → r'.head.children.map (·.context.context) = ["outer", "inner"] := by
    rintro r' a' h
    cases h
    rfl
  have hlossless : ∀ r' a', tryChangeContext id twoContexts "request failed" here
      ⟨fun _ => true, 0⟩ = .ok (.ok r', a') →
      r'.head.children.map (·.context.context) = ["inner", "outer"] := by
    rintro r' a' h
    cases h
    rfl
  rintro ⟨r', a₁, a₂, h₁, h₂⟩
  have hsame := (hlossy r' a₁ h₁).symm.trans (hlossless r' a₂ h₂)
  simp at hsame

end Report

end Rustyfill.Errors
