import Rustyfill.Maps.Served

/-!
# Looking at all shards

`len` and `visit_all` go from shard to shard. Each shard they look at, they see at once; on a map
that nobody else uses they see every key once, since the shard of every hash is one of the
shards the map was built with.
-/

namespace Rustyfill.ConcurrentHashMap

open Maps Interleaving RawHash Transition

set_option autoImplicit false

/-! ## The shards of a map -/

section
variable {K : Type} {m : ConcurrentHashMap K}

/-- The fields that the constructors give a map. -/
structure Built (m : ConcurrentHashMap K) : Prop where
  shards : ∃ k, 0 < k ∧ k < usizeBits ∧ m.shardCount = 2 ^ k ∧
    m.shift = UInt64.ofNat (usizeBits - k)

theorem trailingZerosUpTo_two_pow (bits k : Nat) (hk : k < bits) :
    trailingZerosUpTo bits (2 ^ k) = k := by
  induction k generalizing bits with
  | zero =>
    cases bits with
    | zero => omega
    | succ bits => rfl
  | succ k ih =>
    cases bits with
    | zero => omega
    | succ bits =>
      have heven : 2 ^ (k + 1) % 2 = 0 := by rw [Nat.pow_succ, Nat.mul_mod_left]
      have hhalf : 2 ^ (k + 1) / 2 = 2 ^ k := by
        rw [Nat.pow_succ, Nat.mul_div_cancel _ (by decide)]
      rw [trailingZerosUpTo, heven, hhalf, ih bits (by omega)]
      simp

theorem ofShards_built {hasher : K → UInt64} {shardCount : Nat} {msg : String}
    (htwo : 2 ≤ shardCount) (hpow : isPowerOfTwo shardCount = true)
    (h : ofShards hasher shardCount msg = .ok m) : m.Built := by
  obtain ⟨k, hk, rfl⟩ := of_decide_eq_true hpow
  have hzeros : trailingZeros (2 ^ k) = k := trailingZerosUpTo_two_pow usizeBits k hk
  have hsub : checkedSub usizeBits k = some (usizeBits - k) := by
    simp [checkedSub, Nat.le_of_lt hk]
  simp only [ofShards, hzeros, hsub, expect] at h
  obtain rfl := Except.ok.inj h
  refine ⟨k, ?_, hk, rfl, rfl⟩
  rcases Nat.eq_zero_or_pos k with rfl | hpos
  · simp at htwo
  · exact hpos

theorem tryWithHasherAndShards_built {shardBytes shardCount : Nat} {hasher : K → UInt64}
    {a a' : Allocator}
    (h : tryWithHasherAndShards shardBytes hasher shardCount a = .ok (.ok m, a')) : m.Built := by
  rw [tryWithHasherAndShards] at h
  split at h
  · cases h
  · rename_i hvalid
    rw [not_or, Nat.not_lt, Bool.not_eq_false] at hvalid
    cases hof : ofShards hasher shardCount "trailing zeros <= BITS for nonzero power of two" with
    | error fault =>
      rw [hof] at h
      cases h
    | ok m' =>
      rw [hof] at h
      simp only [bind, Except.bind] at h
      split at h
      · cases h
      · split at h
        · cases h
          exact ofShards_built hvalid.1 hvalid.2 hof
        · cases h

theorem fromStatic_built {shardCount : Nat} {hasher : K → UInt64}
    (h : fromStatic hasher shardCount = .ok m) : m.Built := by
  rw [fromStatic] at h
  split at h
  · rename_i hvalid
    exact ofShards_built hvalid.1 hvalid.2 h
  · cases h

theorem Built.shardIndex_lt (h : m.Built) (hash : UInt64) :
    m.shardIndexInternal hash < m.shardCount := by
  obtain ⟨k, hpos, hk, hcount, hshift⟩ := h.shards
  have hbits : usizeBits = 64 := rfl
  have hamount : m.shift.toNat % 64 = 64 - k := by
    rw [hshift, hbits, UInt64.toNat_ofNat']
    omega
  rw [shardIndexInternal, fastShardIndex, UInt64.toNat_shiftRight, hamount, hcount,
    Nat.shiftRight_eq_div_pow, Nat.div_lt_iff_lt_mul (Nat.two_pow_pos _), ← Nat.pow_add]
  have hexp : k + (64 - k) = 64 := by omega
  rw [hexp]
  exact UInt64.toNat_lt _

end

/-! ## What a client sees shard by shard -/

section
variable {K V : Type} [BEq K] {m : ConcurrentHashMap K} {moment : Contents K V → Prop}
  {is : List Nat} {pairs : List (K × V)}

/-- The pairs of some shards, each looked at in a moment of its own. -/
inductive Looks (m : ConcurrentHashMap K) (moment : Contents K V → Prop) :
    List Nat → List (K × V) → Prop where
  | nil : Looks m moment [] []
  | cons {i : Nat} {is : List Nat} {c : Contents K V} {pairs pairs' : List (K × V)} : moment c →
      m.StoredIn i c pairs → Looks m moment is pairs' → Looks m moment (i :: is) (pairs ++ pairs')

theorem Looks.mine (h : Looks m moment is pairs) {kv : K × V} (hkv : kv ∈ pairs) :
    m.layout.shardOf kv.1 ∈ is := by
  induction h with
  | nil => cases hkv
  | @cons i _ _ _ _ _ hstored _ ih =>
    rcases List.mem_append.mp hkv with hkv | hkv
    · obtain ⟨-, hi⟩ := (hstored.mem kv).mp hkv
      exact List.mem_cons.mpr (.inl hi)
    · exact List.mem_cons_of_mem i (ih hkv)

theorem Looks.distinct (h : Looks m moment is pairs) (hL : m.layout.Lawful) (his : is.Nodup) :
    pairs.Pairwise fun a b => (a.1 == b.1) = false := by
  induction h with
  | nil => exact .nil
  | cons _ hstored hrest ih =>
    obtain ⟨hi, his⟩ := List.nodup_cons.mp his
    refine List.pairwise_append.mpr ⟨hstored.distinct, ih his, fun a ha b hb => ?_⟩
    rw [← Bool.not_eq_true]
    intro hab
    obtain ⟨-, rfl⟩ := (hstored.mem a).mp ha
    exact hi (hL.shard _ _ hab ▸ hrest.mine hb)

theorem Looks.key (h : Looks m moment is pairs) (hL : m.layout.Lawful) (his : is.Nodup) {key : K}
    (hkey : m.layout.shardOf key ∈ is) : ∃ c, moment c ∧ ∀ kv : K × V, (kv.1 == key) = true →
      (kv ∈ pairs ↔ c kv.1 = some kv) := by
  induction h with
  | nil => cases hkey
  | @cons i is c pairs pairs' hmoment hstored hrest ih =>
    obtain ⟨hi, his⟩ := List.nodup_cons.mp his
    rcases List.mem_cons.mp hkey with rfl | hkey'
    · refine ⟨c, hmoment, fun kv hkv => ?_⟩
      have hmine : m.layout.Mine (m.layout.shardOf key) kv.1 := hL.shard _ _ hkv
      rw [List.mem_append, hstored.mem]
      constructor
      · rintro (⟨hget, -⟩ | hlater)
        · exact hget
        · exact (hi (hmine ▸ hrest.mine hlater)).elim
      · exact fun hget => .inl ⟨hget, hmine⟩
    · obtain ⟨c', hmoment', hc'⟩ := ih his hkey'
      refine ⟨c', hmoment', fun kv hkv => ?_⟩
      rw [List.mem_append, ← hc' kv hkv]
      constructor
      · rintro (hhere | hlater)
        · obtain ⟨-, rfl⟩ := (hstored.mem kv).mp hhere
          exact (hi ((hL.shard _ _ hkv).symm ▸ hkey')).elim
        · exact hlater
      · exact .inr

/-- The pairs a client saw: no key twice, and of every key what the map had for it at some
moment. -/
structure Sees (moment : Contents K V → Prop) (pairs : List (K × V)) : Prop where
  distinct : pairs.Pairwise fun a b => (a.1 == b.1) = false
  key : ∀ key, ∃ c, moment c ∧ ∀ kv : K × V, (kv.1 == key) = true →
    (kv ∈ pairs ↔ c kv.1 = some kv)

theorem Built.sees (hbuilt : m.Built) (hL : m.layout.Lawful)
    (h : Looks m moment (List.range m.shardCount) pairs) : Sees moment pairs where
  distinct := h.distinct hL List.nodup_range
  key _ := h.key hL List.nodup_range (List.mem_range.mpr (hbuilt.shardIndex_lt _))

end

/-! ## The loops as clients -/

section
variable {K V ε A B : Type} [BEq K] {m : ConcurrentHashMap K} {is : List Nat}
  {moment : Contents K V → Prop}

def visitNext (f : A → K → V → A) (acc : A) (_ : Nat) (pairs : List (K × V)) : Except A A :=
  .ok (pairs.foldl (fun acc kv => f acc kv.1 kv.2) acc)

/-- What `len` does with the length of a shard. -/
def lenNext (count _i n : Nat) : Except (Except Fault Nat) Nat :=
  match expect "overflowing on length add is impossible" (checkedAdd usizeMax count n) with
  | .error fault => .error (.error fault)
  | .ok count => .ok count

/-- `visit_all`, as a client that looks at one shard after the other. -/
def visitCalls (f : A → K → V → A) : A → List Nat → Prog (Call K V B) Call.Res A :=
  Prog.loop Call.visitShard (visitNext f) id

/-- `len`, as a client that looks at one shard after the other. -/
def lenCalls : Nat → List Nat → Prog (Call K V B) Call.Res (Except Fault Nat) :=
  Prog.loop Call.shardLen lenNext .ok

theorem visitCalls_expand (f : A → K → V → A) (acc : A) :
    (visitCalls (B := B) f acc is).expand (m.method (ε := ε)) = visitShards f acc is := by
  induction is generalizing acc with
  | nil => rfl
  | cons i is ih =>
    refine congrArg (Prog.act _) (funext fun _ => congrArg (Prog.act _) (funext fun pairs =>
      congrArg (Prog.act _) (funext fun _ => ?_)))
    change (visitCalls f ((pairs.map Prod.snd).foldl _ acc) is).expand m.method = visitShards f _ is
    rw [ih, List.foldl_map]

theorem lenCalls_expand (count : Nat) :
    (lenCalls (K := K) (V := V) (B := B) count is).expand (m.method (ε := ε)) =
      lenShards count is := by
  induction is generalizing count with
  | nil => rfl
  | cons i is ih =>
    refine congrArg (Prog.act _) (funext fun _ => congrArg (Prog.act _) (funext fun n =>
      congrArg (Prog.act _) (funext fun _ => ?_)))
    have hnext : lenNext count i n = match expect "overflowing on length add is impossible"
        (checkedAdd usizeMax count n) with
      | .error fault => .error (.error fault)
      | .ok count => .ok count := rfl
    simp only [Prog.bind, Prog.pure_def, hnext]
    cases expect "overflowing on length add is impossible" (checkedAdd usizeMax count n) with
    | error fault => rfl
    | ok count => exact ih count

theorem looks_of_visit {f : A → K → V → A} {acc r : A}
    (h : @Loops (Call K V B) Call.Res A Nat A Call.visitShard (visitNext f) id
      (fun i pairs => ∃ c, moment c ∧ m.StoredIn i c pairs) acc is r) :
    ∃ pairs, Looks m moment is pairs ∧ r = pairs.foldl (fun acc kv => f acc kv.1 kv.2) acc := by
  induction h with
  | done acc => exact ⟨[], .nil, rfl⟩
  | leave _ hnext => cases hnext
  | next hseen hnext _ ih =>
    obtain ⟨c, hmoment, hstored⟩ := hseen
    cases hnext
    obtain ⟨pairs, hlooks, rfl⟩ := ih
    exact ⟨_, .cons hmoment hstored hlooks, (List.foldl_append ..).symm⟩

/-- What `len` answers: the number of pairs, or an overflow that the pairs it saw add up to. -/
inductive Counted (m : ConcurrentHashMap K) (moment : Contents K V → Prop) (is : List Nat)
    (count : Nat) : Except Fault Nat → Prop where
  | ok {pairs : List (K × V)} : Looks m moment is pairs → count + pairs.length ≤ usizeMax →
      Counted m moment is count (.ok (count + pairs.length))
  | overflow {pairs : List (K × V)} {seen rest : List Nat} : is = seen ++ rest →
      Looks m moment seen pairs → usizeMax < count + pairs.length → Counted m moment is count
        (.error (.expect "overflowing on length add is impossible"))

theorem counted_of_len {count : Nat} {r : Except Fault Nat} (hcount : count ≤ usizeMax)
    (h : @Loops (Call K V B) Call.Res (Except Fault Nat) Nat Nat Call.shardLen lenNext .ok
      (fun i n => ∃ c, moment c ∧ ∃ pairs, m.StoredIn i c pairs ∧ n = pairs.length) count is r) :
    Counted m moment is count r := by
  induction h with
  | done count => exact .ok .nil hcount
  | @leave count i is n r hseen hnext =>
    obtain ⟨c, hmoment, pairs, hstored, rfl⟩ := hseen
    have hover : usizeMax < count + pairs.length := by
      by_contra hfits
      rw [lenNext, expect_checkedAdd _ (Nat.le_of_not_lt hfits)] at hnext
      cases hnext
    have hnone : checkedAdd usizeMax count pairs.length = none := if_neg (by omega)
    rw [lenNext, hnone] at hnext
    cases hnext
    refine .overflow (List.singleton_append).symm (.cons hmoment hstored .nil) ?_
    rwa [List.append_nil]
  | @next count count' i is n r hseen hnext _ ih =>
    obtain ⟨c, hmoment, pairs, hstored, rfl⟩ := hseen
    have hfits : count + pairs.length ≤ usizeMax := by
      by_contra hover
      have hnone : checkedAdd usizeMax count pairs.length = none := if_neg hover
      rw [lenNext, hnone] at hnext
      cases hnext
    rw [lenNext, expect_checkedAdd _ hfits] at hnext
    cases hnext
    cases ih hfits with
    | @ok pairs' hlooks hsum =>
      rw [Nat.add_assoc, ← List.length_append] at hsum ⊢
      exact .ok (.cons hmoment hstored hlooks) hsum
    | @overflow pairs' seen rest his hlooks hsum =>
      rw [Nat.add_assoc, ← List.length_append] at hsum
      exact .overflow (congrArg (i :: ·) his) (.cons hmoment hstored hlooks) hsum

end

/-! ## Visitors among other clients -/

section
variable {K V ε A B : Type} [BEq K] [EquivBEq K] {m : ConcurrentHashMap K} {t : Nat}
  {s : State (K × V) Unit} {c : Contents K V}

/-- What the map is at some moment of a run of its clients. -/
def MapAt (m : ConcurrentHashMap K) (pool : Pool (Contents K V) (Call K V B) Call.Res A)
    (ces : List (Nat × Event (Call K V B) Call.Res A))
    (pool' : Pool (Contents K V) (Call K V B) Call.Res A) (c : Contents K V) : Prop :=
  ∃ mid, Run.Passes (Step (fun _ => m.Does) NoCalls) pool ces mid pool' ∧ mid.shared = c

omit [EquivBEq K] in
theorem visited_at {start final : Pool (Contents K V) (Call K V B) Call.Res A}
    {ces : List (Nat × Event (Call K V B) Call.Res A)} {i : Nat} {pairs : List (K × V)}
    (h : AnsweredIn (fun _ => m.Does) t start ces final (.visitShard i) pairs) :
    ∃ c, m.MapAt start ces final c ∧ m.StoredIn i c pairs := by
  obtain ⟨mid, _, hmid, hstored, -⟩ := h
  exact ⟨mid.shared, ⟨mid, hmid, rfl⟩, hstored⟩

omit [EquivBEq K] in
theorem measured_at {start final : Pool (Contents K V) (Call K V B) Call.Res A}
    {ces : List (Nat × Event (Call K V B) Call.Res A)} {i n : Nat}
    (h : AnsweredIn (fun _ => m.Does) t start ces final (.shardLen i) n) :
    ∃ c, m.MapAt start ces final c ∧ ∃ pairs, m.StoredIn i c pairs ∧ n = pairs.length := by
  obtain ⟨mid, _, hmid, hstored, -⟩ := h
  exact ⟨mid.shared, ⟨mid, hmid, rfl⟩, hstored⟩

/-- A client that goes through the shards in a loop, next to other clients: they are clients of
one map, and each call of the loop is answered at some moment. -/
theorem loops_among_clients {I S : Type} {call : I → Call K V B}
    {next : S → (i : I) → (call i).Res → Except A S} {done : S → A} {acc : S} {is : List I}
    (hhash : ∀ a b : K, (a == b) = true → m.hashOne a = m.hashOne b)
    {clients : Nat → Option (Prog (Call K V B) Call.Res A)} (hs : s.Unlocked)
    (hc : ∀ i, (s.table i).Shows m.hashOne (m.layout.Mine i) c)
    {es : List (Nat × Event (Act (K × V) Unit (Code K V ε)) (Act.Res (callerCode K V ε)) A)}
    {pool : Pool (State (K × V) Unit) (Act (K × V) Unit (Code K V ε))
      (Act.Res (callerCode K V ε)) A}
    (hrun : Run (Step (Sem (callerCode K V ε)) NoCalls)
      ⟨s, Function.update (fun u => (clients u).map (·.expand m.method)) t
        (some ((Prog.loop call next done acc is).expand m.method))⟩ es pool)
    {r : A} (hret : (t, .returned r) ∈ es) :
    ∃ ces cpool, Run (Step (fun _ => m.Does) NoCalls)
        ⟨c, Function.update clients t (some (Prog.loop call next done acc is))⟩ ces cpool ∧
      Traced es ces ∧
      Loops call next done (fun i => AnsweredIn (fun _ => m.Does) t
        ⟨c, Function.update clients t (some (Prog.loop call next done acc is))⟩ ces cpool (call i))
        acc is r := by
  have hpool : Function.update (fun u => (clients u).map (·.expand (m.method (ε := ε)))) t
      (some ((Prog.loop call next done acc is).expand m.method)) =
      fun u => (Function.update clients t (some (Prog.loop call next done acc is)) u).map
        (·.expand m.method) := by
    funext u
    by_cases hu : u = t
    · subst hu
      simp only [Function.update_self, Option.map_some]
    · simp only [Function.update_of_ne hu]
  rw [hpool] at hrun
  obtain ⟨ces, cpool, hces, htraced, -⟩ := one_map_of_clients
    (fun t call => method_served (layout_lawful hhash) t call) hs hc hrun
  exact ⟨ces, cpool, hces, htraced,
    loops_of_run hces (Function.update_self ..) (htraced.mem_returned hret)⟩

/-- `visit_all` next to other clients of the map shows its closure no key twice, and of every key
the pair that the map had for it at some moment, if it had one. -/
theorem visit_all_sees_each_key (hbuilt : m.Built)
    (hhash : ∀ a b : K, (a == b) = true → m.hashOne a = m.hashOne b)
    {clients : Nat → Option (Prog (Call K V B) Call.Res A)} (hs : s.Unlocked)
    (hc : ∀ i, (s.table i).Shows m.hashOne (m.layout.Mine i) c) (f : A → K → V → A) (init : A)
    {es : List (Nat × Event (Act (K × V) Unit (Code K V ε)) (Act.Res (callerCode K V ε)) A)}
    {pool : Pool (State (K × V) Unit) (Act (K × V) Unit (Code K V ε))
      (Act.Res (callerCode K V ε)) A}
    (hrun : Run (Step (Sem (callerCode K V ε)) NoCalls)
      ⟨s, Function.update (fun u => (clients u).map (·.expand m.method)) t
        (some (m.visitAll f init))⟩ es pool)
    {r : A} (hret : (t, .returned r) ∈ es) :
    ∃ ces cpool pairs, Run (Step (fun _ => m.Does) NoCalls) ⟨c, Function.update clients t
        (some (visitCalls f init (List.range m.shardCount)))⟩ ces cpool ∧ Traced es ces ∧
      Sees (m.MapAt ⟨c, Function.update clients t
        (some (visitCalls f init (List.range m.shardCount)))⟩ ces cpool) pairs ∧
      r = pairs.foldl (fun acc kv => f acc kv.1 kv.2) init := by
  rw [visitAll, ← visitCalls_expand (B := B)] at hrun
  obtain ⟨ces, cpool, hces, htraced, hloops⟩ := loops_among_clients hhash hs hc hrun hret
  obtain ⟨pairs, hlooks, hr⟩ := looks_of_visit (hloops.mono fun _ _ => visited_at)
  exact ⟨ces, cpool, pairs, hces, htraced, hbuilt.sees (layout_lawful hhash) hlooks, hr⟩

/-- `len` next to other clients of the map counts the keys as `visit_all` would see them, and
says so when the count does not fit. -/
theorem len_counts_each_key (hbuilt : m.Built)
    (hhash : ∀ a b : K, (a == b) = true → m.hashOne a = m.hashOne b)
    {clients : Nat → Option (Prog (Call K V B) Call.Res (Except Fault Nat))} (hs : s.Unlocked)
    (hc : ∀ i, (s.table i).Shows m.hashOne (m.layout.Mine i) c)
    {es : List (Nat × Event (Act (K × V) Unit (Code K V ε)) (Act.Res (callerCode K V ε))
      (Except Fault Nat))}
    {pool : Pool (State (K × V) Unit) (Act (K × V) Unit (Code K V ε))
      (Act.Res (callerCode K V ε)) (Except Fault Nat)}
    (hrun : Run (Step (Sem (callerCode K V ε)) NoCalls)
      ⟨s, Function.update (fun u => (clients u).map (·.expand m.method)) t
        (some (m.len (V := V)))⟩ es pool)
    {r : Except Fault Nat} (hret : (t, .returned r) ∈ es) :
    ∃ ces cpool, Run (Step (fun _ => m.Does) NoCalls) ⟨c, Function.update clients t
        (some (lenCalls 0 (List.range m.shardCount)))⟩ ces cpool ∧ Traced es ces ∧
      ((∃ pairs, Sees (m.MapAt ⟨c, Function.update clients t
          (some (lenCalls 0 (List.range m.shardCount)))⟩ ces cpool) pairs ∧
        pairs.length ≤ usizeMax ∧ r = .ok pairs.length) ∨
      ∃ pairs : List (K × V), (pairs.Pairwise fun a b => (a.1 == b.1) = false) ∧
        (∀ kv ∈ pairs, ∃ c', m.MapAt ⟨c, Function.update clients t
          (some (lenCalls 0 (List.range m.shardCount)))⟩ ces cpool c' ∧ c' kv.1 = some kv) ∧
        usizeMax < pairs.length ∧
        r = .error (.expect "overflowing on length add is impossible")) := by
  rw [len, ← lenCalls_expand (B := B)] at hrun
  obtain ⟨ces, cpool, hces, htraced, hloops⟩ := loops_among_clients hhash hs hc hrun hret
  have hcounted := counted_of_len (Nat.zero_le _) (hloops.mono fun _ _ => measured_at)
  refine ⟨ces, cpool, hces, htraced, ?_⟩
  cases hcounted with
  | @ok pairs hlooks hsum =>
    rw [Nat.zero_add] at hsum ⊢
    exact .inl ⟨pairs, hbuilt.sees (layout_lawful hhash) hlooks, hsum, rfl⟩
  | @overflow pairs seen rest his hlooks hsum =>
    rw [Nat.zero_add] at hsum
    have hnodup : seen.Nodup :=
      (List.sublist_append_left seen rest).nodup (his ▸ List.nodup_range)
    refine .inr ⟨pairs, hlooks.distinct (layout_lawful hhash) hnodup, fun kv hkv => ?_, hsum, rfl⟩
    obtain ⟨c', hc', hmem⟩ := hlooks.key (layout_lawful hhash) hnodup (hlooks.mine hkv)
    exact ⟨c', hc', (hmem kv BEq.rfl).mp hkv⟩

end

/-! ## An insertion in between -/

/-- A map of two shards that stores one pair, in the shard of its key. -/
def onePair : State (Nat × Nat) Unit := freshState.setTable (smallShard 1) (storedTable 1 10)

theorem onePair_shows (i : Nat) : (onePair.table i).Shows smallMap.hashOne
    (smallMap.layout.Mine i) (Contents.empty.put 1 (some (1, 10))) := by
  by_cases hi : i = smallShard 1
  · subst hi
    rw [onePair, State.setTable_table_self]
    have hkey : ((1, 10) : Nat × Nat).1 == 1 := rfl
    have hempty : Lists smallMap.hashOne (smallMap.layout.Mine (smallShard 1)) []
        ((Contents.empty : Contents Nat Nat).put 1 none) :=
      Table.shows_nothing (t := freshState.table 0) rfl fun k _ => by
        by_cases hk : (k == 1) = true
        · exact Contents.put_of_beq hk
        · rw [Bool.not_eq_true] at hk
          exact Contents.put_of_not_beq hk
    have hmine : smallMap.layout.Mine (smallShard 1) 1 := rfl
    exact (Lists.cons_iff hkey hmine).mpr ⟨rfl, hmine, hempty⟩
  · rw [onePair, State.setTable_table_ne hi]
    refine Table.shows_nothing rfl fun k hk => ?_
    refine Contents.put_of_not_beq (beq_eq_false_iff_ne.mpr ?_)
    rintro rfl
    exact hi hk.symm

/-- One step under the guard of a shard. -/
abbrev reading (i : Nat) (a : Act (Nat × Nat) Unit (Code Nat Nat Unit)) :
    MapMethod Nat Nat Unit (a.Res (callerCode Nat Nat Unit)) :=
  .act (.readTable i) fun _ => .act a fun x => .act (.dropReadGuard i) fun _ => .ret x

theorem exec_reading {t i : Nat} {a : Act (Nat × Nat) Unit (Code Nat Nat Unit)}
    {x : a.Res (callerCode Nat Nat Unit)} {s : State (Nat × Nat) Unit} (hs : s.Unlocked)
    (ha : Sem (callerCode Nat Nat Unit) t (s.setReaders i {t}) a x (s.setReaders i {t})) :
    Prog.Exec (Sem (callerCode Nat Nat Unit) t) s (reading i a) x s := by
  refine .act (x := ()) (t := s.setReaders i {t}) ⟨hs.writer i, by rw [hs.readers i]; rfl⟩ ?_
  refine .act (x := x) (t := s.setReaders i {t}) ha ?_
  refine .act (x := ()) (t := s) ?_ (.ret s x)
  change s = (s.setReaders i {t}).setReaders i _
  rw [State.setReaders_setReaders, State.setReaders_readers_self, Finset.erase_singleton,
    ← hs.readers i]
  exact State.setReaders_self.symm

theorem storedBy_unlocked {t key value : Nat} {s : State (Nat × Nat) Unit} (hs : s.Unlocked) :
    (storedBy t key value s).Unlocked where
  writer i := by
    by_cases hi : i = smallShard key
    · subst hi
      exact State.setWriter_writer_self
    · rw [storedBy, State.setWriter_writer_ne hi, State.setTable_writer, lockedBy,
        State.setWriter_writer_ne hi]
      exact hs.writer i
  readers := hs.readers

theorem fromStatic_smallMap : fromStatic UInt64.ofNat 2 = .ok smallMap := rfl

theorem tryWithHasherAndShards_smallMap :
    tryWithHasherAndShards 64 UInt64.ofNat 2 ⟨fun _ => true, 0⟩ =
      .ok (.ok smallMap, ⟨fun _ => true, 1⟩) := rfl

/-- The other client, and what it leaves behind. -/
def newcomer {A : Type} (a : A) : Nat → Option (Prog (Call Nat Nat Unit) Call.Res A)
  | 1 => some (insertion (fun _ => a) (2 ^ 56) 20)
  | _ => none

def twoPairs : State (Nat × Nat) Unit := storedBy 1 (2 ^ 56) 20 onePair

theorem exec_newcomer {A : Type} (a : A) : Prog.Exec (Sem (callerCode Nat Nat Unit) 1) onePair
    ((insertion (fun _ => a) (2 ^ 56) 20).expand smallMap.method) a twoPairs :=
  exec_insertion rfl rfl rfl

theorem onePair_unlocked : onePair.Unlocked := ⟨fun _ => rfl, fun _ => rfl⟩

/-- What the two loops go on with after a shard. -/
def visitRest (acc : Nat) (is : List Nat) (pairs : List (Nat × Nat × Nat)) :
    MapMethod Nat Nat Unit Nat :=
  visitShards (fun n _ v => n + v) (pairs.foldl (fun n kv => n + kv.2.2) acc) is

def lenRest (count : Nat) (is : List Nat) (n : Nat) : MapMethod Nat Nat Unit (Except Fault Nat) :=
  match expect "overflowing on length add is impossible" (checkedAdd usizeMax count n) with
  | .error fault => .ret (.error fault)
  | .ok count => lenShards count is

theorem exec_visitRest : Prog.Exec (Sem (callerCode Nat Nat Unit) 0) twoPairs
    (visitRest 0 [1] (onePair.table 0).full) 30 twoPairs := by
  have hread : Prog.Exec (Sem (callerCode Nat Nat Unit) 0) twoPairs (reading 1 (.iter 1))
      (twoPairs.table 1).full twoPairs :=
    exec_reading (storedBy_unlocked onePair_unlocked) ⟨rfl, rfl⟩
  have hloop : Prog.Exec (Sem (callerCode Nat Nat Unit) 0) twoPairs
      (reading 1 (.iter 1) >>= visitRest 10 []) 30 twoPairs :=
    Prog.exec_bind.mpr ⟨_, _, hread, .ret _ _⟩
  exact hloop

theorem exec_lenRest : Prog.Exec (Sem (callerCode Nat Nat Unit) 0) twoPairs (lenRest 0 [1] 1)
    (.ok 2) twoPairs := by
  have hread : Prog.Exec (Sem (callerCode Nat Nat Unit) 0) twoPairs (reading 1 (.len 1)) (1 : Nat)
      twoPairs := exec_reading (storedBy_unlocked onePair_unlocked) ⟨rfl, rfl⟩
  have hloop : Prog.Exec (Sem (callerCode Nat Nat Unit) 0) twoPairs
      (reading 1 (.len 1) >>= lenRest 1 []) (.ok 2) twoPairs :=
    Prog.exec_bind.mpr ⟨_, _, hread, .ret _ _⟩
  exact hloop

theorem visit_all_sees_each_key_between : ∃ (es : List (Nat × Event (Act (Nat × Nat) Unit
    (Code Nat Nat Unit)) (Act.Res (callerCode Nat Nat Unit)) Nat)) (ces : _) (cpool : _)
    (pairs : List (Nat × Nat)), Traced es ces ∧
      Sees (smallMap.MapAt ⟨Contents.empty.put 1 (some (1, 10)), Function.update (newcomer 0) 0
        (some (visitCalls (fun n _ v => n + v) 0 (List.range 2)))⟩ ces cpool) pairs ∧
      30 = pairs.foldl (fun n kv => n + kv.2) 0 := by
  have hfirst : Prog.Exec (Sem (callerCode Nat Nat Unit) 0) onePair (reading 0 (.iter 0))
      (onePair.table 0).full onePair := exec_reading onePair_unlocked ⟨rfl, rfl⟩
  obtain ⟨es, hrun⟩ : ∃ es, Run (Step (Sem (callerCode Nat Nat Unit)) NoCalls) ⟨onePair,
      Function.update (fun u => (newcomer 0 u).map (·.expand smallMap.method)) 0
        (some (smallMap.visitAll (fun n _ v => n + v) 0))⟩ es _ :=
    run_between (f := visitRest 0 [1]) hfirst (exec_newcomer 0) exec_visitRest Nat.zero_ne_one
      rfl rfl
  obtain ⟨ces, cpool, pairs, -, htraced, hsees, hr⟩ := visit_all_sees_each_key
    (fromStatic_built fromStatic_smallMap) (by simp) ⟨fun _ => rfl, fun _ => rfl⟩ onePair_shows
    (fun n _ v => n + v) 0
    (hrun.snoc (.ret (Function.update_self ..)))
    (List.mem_append_right _ (List.mem_singleton.mpr rfl))
  exact ⟨_, ces, cpool, pairs, htraced, hsees, hr⟩

theorem len_counts_each_key_between : ∃ (es : List (Nat × Event (Act (Nat × Nat) Unit
    (Code Nat Nat Unit)) (Act.Res (callerCode Nat Nat Unit)) (Except Fault Nat))) (ces : _)
    (cpool : _) (pairs : List (Nat × Nat)), Traced es ces ∧
      Sees (smallMap.MapAt ⟨Contents.empty.put 1 (some (1, 10)), Function.update
        (newcomer (.ok 0)) 0 (some (lenCalls 0 (List.range 2)))⟩ ces cpool) pairs ∧
      pairs.length = 2 := by
  have hfirst : Prog.Exec (Sem (callerCode Nat Nat Unit) 0) onePair (reading 0 (.len 0)) (1 : Nat)
      onePair := exec_reading onePair_unlocked ⟨rfl, rfl⟩
  obtain ⟨es, hrun⟩ : ∃ es, Run (Step (Sem (callerCode Nat Nat Unit)) NoCalls) ⟨onePair,
      Function.update (fun u => (newcomer (.ok 0) u).map (·.expand smallMap.method)) 0
        (some (smallMap.len (V := Nat)))⟩ es _ :=
    run_between (f := lenRest 0 [1]) hfirst (exec_newcomer (.ok 0)) exec_lenRest Nat.zero_ne_one
      rfl rfl
  obtain ⟨ces, cpool, -, htraced, hcounted⟩ := len_counts_each_key
    (tryWithHasherAndShards_built tryWithHasherAndShards_smallMap) (by simp)
    ⟨fun _ => rfl, fun _ => rfl⟩ onePair_shows
    (hrun.snoc (.ret (Function.update_self ..)))
    (List.mem_append_right _ (List.mem_singleton.mpr rfl))
  obtain ⟨pairs, hsees, -, hr⟩ | ⟨_, _, _, _, hr⟩ := hcounted
  · exact ⟨_, ces, cpool, pairs, htraced, hsees, (Except.ok.inj hr).symm⟩
  · cases hr

end Rustyfill.ConcurrentHashMap
