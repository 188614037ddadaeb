import Rustyfill.Errors.Report

/-!
# Pushing a peer

`push` puts a frame in front of the peers; the head of the report stays what it was. What it
evicts is the oldest, and is counted.
-/

namespace Rustyfill.Errors.Report

set_option autoImplicit false

variable {C I : Type}

theorem evict_kept {cap : Nat} (hcap : 2 ≤ cap) {fuel : Nat} {r : Report C I} (hv : r.Valid)
    (hfuel : r.peers.items.length < fuel) : ∃ items lost, Kept r.peers.items r.lostPeers items
      lost ∧
      evict cap fuel r = some { r with peers := { r.peers with items }, lostPeers := lost } ∧
        items.length + 1 < cap := by
  obtain ⟨head, ⟨items, room⟩, lost, capacity⟩ := r
  obtain ⟨⟨hlen, hroom⟩, hlost⟩ := hv
  dsimp only at hlen hroom hlost hfuel ⊢
  induction fuel generalizing items lost with
  | zero => omega
  | succ fuel ih =>
    have hcount : peerCount ⟨head, ⟨items, room⟩, lost, capacity⟩ = 1 + items.length := by
      apply saturatingAdd_of_le
      simp only [isizeMax] at hroom
      simp only [usizeMax, Buffer.len]
      omega
    rw [evict, hcount]
    rcases Nat.lt_or_ge (1 + items.length) cap with hbelow | habove
    · refine ⟨items, lost, Kept.all _ hlost, ?_, by omega⟩
      rw [if_neg (by omega)]
    · rw [if_pos habove]
      rcases items.eq_nil_or_concat' with rfl | ⟨items, last, rfl⟩
      · simp only [List.length_nil] at habove
        omega
      · simp only [List.length_append, List.length_singleton] at hlen hfuel
        obtain ⟨items', lost', hkept, hevict, hbelow⟩ :=
          ih (saturatingAdd lost 1) items (by omega) (saturatingAdd_le lost 1) (by omega)
        refine ⟨items', lost', hkept.snoc last, ?_, hbelow⟩
        simpa using hevict

/-- The deque has a buffer, or is given one. -/
def CanGrow (r : Report C I) (a : Allocator) : Prop :=
  0 < r.peers.capacity ∨ a.grants a.requests = true

/-- What follows the loop keeps the new frame, and loses one old frame at most. -/
theorem pushFrame_kept [RawVec (StaticFrame C I)] {r : Report C I} (hv : r.Valid)
    (sf : StaticFrame C I) {a : Allocator} (hgrow : r.CanGrow a) : ∃ peers lost a',
      r.pushFrame sf a = .ok ({ r with peers, lostPeers := lost }, a') ∧
        ∃ kept, peers.items = sf :: kept ∧ Kept r.peers.items r.lostPeers kept lost := by
  have hlen := Nat.le_trans hv.peers.len_le hv.peers.capacity_le
  have hguard : r.peers.len ≠ usizeMax := by
    simp only [isizeMax] at hlen
    simp only [usizeMax, Buffer.len]
    omega
  simp only [pushFrame, if_neg hguard]
  rcases Nat.eq_zero_or_pos r.peers.capacity with hzero | hpos
  · have hg := hgrow.resolve_left (by omega)
    rw [Buffer.tryPushFront_granted (by omega) hg]
    exact ⟨_, r.lostPeers, a.request.2, rfl, _, rfl, Kept.all _ hv.lostPeers_le⟩
  · have hroomy : r.peers.Roomy := ⟨hv.peers.len_le, hpos⟩
    rcases hroomy.pushFront_cases sf a with ⟨peers, a', hpush, -, hitems⟩ | ⟨hne, a', hpush, hretry⟩
    · rw [hpush]
      exact ⟨peers, r.lostPeers, a', rfl, _, hitems, Kept.all _ hv.lostPeers_le⟩
    · rw [hpush]
      simp only [hretry, expectOk, ok_bind]
      exact ⟨_, _, a', rfl, _, rfl, Kept.dropLast hne _⟩

/-- A pushed frame is the most recent peer, under the head; the peers kept are the most recent
ones, in order, and the others are counted. -/
theorem push_kept [RawVec (StaticFrame C I)] (r : Report C I) (hv : r.Valid)
    (hcap : ∀ cap, r.capacity = some cap → 2 ≤ cap) (sf : StaticFrame C I) (a : Allocator)
    (hgrow : r.CanGrow a) (fuel : Nat) (hfuel : r.peers.items.length < fuel) :
    ∃ r' a', push fuel r sf a = some (.ok (r', a')) ∧ r'.head = r.head ∧
      r'.capacity = r.capacity ∧
      (∃ kept, r'.peers.items = sf :: kept ∧ Kept r.peers.items r.lostPeers kept r'.lostPeers) ∧
      saturatingAdd r'.peers.len r'.lostPeers = saturatingAdd r.lostPeers (r.peers.len + 1) ∧
      ∀ cap, r.capacity = some cap → r'.peerCount ≤ cap := by
  have htotal : ∀ {peers : Buffer (StaticFrame C I)} {lost kept}, peers.items = sf :: kept →
      Kept r.peers.items r.lostPeers kept lost →
      saturatingAdd peers.len lost = saturatingAdd r.lostPeers (r.peers.len + 1) := by
    intro peers lost kept hitems hkept
    have h := (hkept.cons sf).total
    rwa [← hitems] at h
  rcases Option.eq_none_or_eq_some r.capacity with hcapacity | ⟨cap, hcapacity⟩
  · obtain ⟨peers, lost, a', hpush, kept, hitems, hkept⟩ := pushFrame_kept hv sf hgrow
    refine ⟨{ r with peers, lostPeers := lost }, a', ?_, rfl, rfl, ⟨kept, hitems, hkept⟩,
      htotal hitems hkept, by simp [hcapacity]⟩
    simp only [push, hcapacity, hpush]
  · obtain ⟨items, lost, hevicted, hevict, hbelow⟩ := evict_kept (hcap cap hcapacity) hv hfuel
    have hv' : Valid { r with peers := { r.peers with items }, lostPeers := lost } :=
      ⟨⟨Nat.le_trans hevicted.length_le hv.peers.len_le, hv.peers.capacity_le⟩, hevicted.lost_le⟩
    obtain ⟨peers, lost', a', hpush, kept, hitems, hkept⟩ := pushFrame_kept hv' sf hgrow
    have hall := hevicted.trans hkept
    refine ⟨{ r with peers, lostPeers := lost' }, a', ?_, rfl, rfl, ⟨kept, hitems, hall⟩,
      htotal hitems hall, ?_⟩
    · have hloop : push fuel r sf a = (evict cap fuel r).map fun r => r.pushFrame sf a := by
        rw [push, hcapacity]
      rw [hloop, hevict]
      exact congrArg some hpush
    · intro cap' hcap'
      obtain rfl := Option.some.inj (hcapacity.symm.trans hcap')
      have hlen : peers.len = kept.length + 1 := by rw [Buffer.len, hitems, List.length_cons]
      have hle := hkept.length_le
      simp only [peerCount, saturatingAdd, hlen]
      dsimp only at hle
      omega

theorem push_kept_twoContexts : ∃ r' a',
    push 2 (twoContexts.withCapacity 2) (.new (.new "later" here)) ⟨fun _ => false, 0⟩ =
        some (.ok (r', a')) ∧
      r'.head = twoContexts.head ∧ r'.capacity = some 2 ∧
      (∃ kept, r'.peers.items = .new (.new "later" here) :: kept ∧
        Kept twoContexts.peers.items 0 kept r'.lostPeers) ∧
      saturatingAdd r'.peers.len r'.lostPeers = saturatingAdd 0 (twoContexts.peers.len + 1) ∧
      ∀ cap, (twoContexts.withCapacity 2).capacity = some cap → r'.peerCount ≤ cap :=
  push_kept (twoContexts.withCapacity 2) ⟨twoContexts_valid.peers, Nat.zero_le _⟩
    (fun _ h => Nat.le_of_eq (Option.some.inj h)) (.new (.new "later" here))
    ⟨fun _ => false, 0⟩ (Or.inl (by decide)) 2 (Nat.lt_succ_self 1)

/-- The head is not the frame that was pushed. -/
theorem push_keeps_head : ¬ ∃ fuel r' a',
    push fuel (Report.new "outer" here : Report String String) (.new (.new "later" here))
        ⟨fun _ => true, 0⟩ = some (.ok (r', a')) ∧
      r'.head = .new (.new "later" here) := by
  rintro ⟨fuel, r', a', h, hhead⟩
  cases h
  have hcontext := congrArg (fun sf => sf.context.context) hhead
  exact absurd hcontext (by decide)

end Rustyfill.Errors.Report
