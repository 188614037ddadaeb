import Mathlib.Data.List.Basic

/-!
# Binary max-heaps in a vector

The sifts of an array-based binary heap, and what they keep: they permute the elements, and
restore the order between parents and children around the position they start from. The order
of the elements is any total preorder, so elements may compare equal without being equal.
-/

namespace MaxHeap

set_option autoImplicit false

variable {T : Type} [LE T] {n : Nat} {xs : Vector T n} {k pos p c g : Nat}

def IsChild (p c : Nat) : Prop := c = 2 * p + 1 ∨ c = 2 * p + 2

theorem IsChild.lt (h : IsChild p c) : p < c := by
  rcases h with rfl | rfl <;> omega

theorem IsChild.parent_eq (h : IsChild p c) : (c - 1) / 2 = p := by
  rcases h with rfl | rfl <;> omega

theorem IsChild.unique {q : Nat} (h : IsChild p c) (h' : IsChild q c) : p = q :=
  h.parent_eq.symm.trans h'.parent_eq

theorem isChild_parent (h : 0 < c) : IsChild ((c - 1) / 2) c := by
  simp only [IsChild]
  omega

/-- The elements before `k` are at most their parents. -/
def OrderedTo (xs : Vector T n) (k : Nat) : Prop :=
  ∀ p c (_ : p < n) (_ : c < n), IsChild p c → c < k → xs[c] ≤ xs[p]

/-- The elements from `k` on are at least their children. -/
def OrderedFrom (xs : Vector T n) (k : Nat) : Prop :=
  ∀ p c (_ : p < n) (_ : c < n), IsChild p c → k ≤ p → xs[c] ≤ xs[p]

def Ordered (xs : Vector T n) : Prop :=
  ∀ p c (_ : p < n) (_ : c < n), IsChild p c → xs[c] ≤ xs[p]

theorem OrderedTo.ordered (h : OrderedTo xs n) : Ordered xs :=
  fun p c hp hc hchild => h p c hp hc hchild hc

theorem OrderedFrom.ordered (h : OrderedFrom xs 0) : Ordered xs :=
  fun p c hp hc hchild => h p c hp hc hchild (Nat.zero_le p)

variable [DecidableLE T]

/-! ## The sifts -/

/-- The element at `pos` rises past the parents that are smaller. -/
def siftUp (xs : Vector T n) (pos : Nat) (hpos : pos < n) : Vector T n :=
  if 0 < pos then
    if xs[pos] ≤ xs[(pos - 1) / 2] then xs
    else siftUp (xs.swap pos ((pos - 1) / 2)) ((pos - 1) / 2) (by omega)
  else xs
termination_by pos
decreasing_by omega

/-- The element at `pos` sinks below the greater of two children, while that is greater. -/
def siftDown (xs : Vector T n) (pos : Nat) (hpos : pos < n) : Vector T n :=
  if h : 2 * pos + 2 < n then
    if xs[2 * pos + 1] ≤ xs[2 * pos + 2] then
      if xs[2 * pos + 2] ≤ xs[pos] then xs
      else siftDown (xs.swap pos (2 * pos + 2)) (2 * pos + 2) h
    else
      if xs[2 * pos + 1] ≤ xs[pos] then xs
      else siftDown (xs.swap pos (2 * pos + 1)) (2 * pos + 1) (by omega)
  else if h : 2 * pos + 1 < n then
    if xs[2 * pos + 1] ≤ xs[pos] then xs else xs.swap pos (2 * pos + 1)
  else xs
termination_by n - pos

/-- The loop that heapifies, from the last parent to the first. -/
def rebuildLoop (xs : Vector T n) : (m : Nat) → m ≤ n → Vector T n
  | 0, _ => xs
  | m + 1, h => rebuildLoop (siftDown xs m h) m (Nat.le_of_succ_le h)

def rebuild (xs : Vector T n) : Vector T n := rebuildLoop xs (n / 2) (Nat.div_le_self n 2)

/-- The loop that inserts the elements from `i` on, one after another. -/
def siftUpTail (xs : Vector T n) (i : Nat) : Vector T n :=
  if h : i < n then siftUpTail (siftUp xs i h) (i + 1) else xs
termination_by n - i

/-- Whether rebuilding all costs less than inserting the elements from `start` on. -/
def betterToRebuild (n start : Nat) : Bool :=
  if start < n - start then true
  else if n ≤ 2048 then 2 * n < (n - start) * Nat.log2 start
  else 2 * n < (n - start) * 11

/-- The elements before `start` are a heap; the ones from there on are added to it. -/
def rebuildTail (xs : Vector T n) (start : Nat) : Vector T n :=
  if start = n then xs
  else if betterToRebuild n start then rebuild xs
  else siftUpTail xs start

/-! ## The elements stay -/

theorem siftUp_perm (xs : Vector T n) (pos : Nat) (hpos : pos < n) :
    (siftUp xs pos hpos).toList.Perm xs.toList := by
  fun_induction siftUp xs pos hpos with
  | case1 => exact .refl _
  | case2 xs pos hpos h hlt ih => exact ih.trans (Vector.swap_perm _ _).toList
  | case3 => exact .refl _

theorem siftDown_perm (xs : Vector T n) (pos : Nat) (hpos : pos < n) :
    (siftDown xs pos hpos).toList.Perm xs.toList := by
  fun_induction siftDown xs pos hpos with
  | case1 => exact .refl _
  | case2 xs pos hpos h hle hlt ih => exact ih.trans (Vector.swap_perm _ _).toList
  | case3 => exact .refl _
  | case4 xs pos hpos h hle hlt ih => exact ih.trans (Vector.swap_perm _ _).toList
  | case5 => exact .refl _
  | case6 => exact (Vector.swap_perm _ _).toList
  | case7 => exact .refl _

theorem rebuildLoop_perm (xs : Vector T n) (m : Nat) (hm : m ≤ n) :
    (rebuildLoop xs m hm).toList.Perm xs.toList := by
  induction m generalizing xs with
  | zero => exact .refl _
  | succ m ih => exact (ih _ _).trans (siftDown_perm xs m hm)

theorem siftUpTail_perm (xs : Vector T n) (i : Nat) :
    (siftUpTail xs i).toList.Perm xs.toList := by
  fun_induction siftUpTail xs i with
  | case1 xs i h ih => exact ih.trans (siftUp_perm xs i h)
  | case2 => exact .refl _

theorem rebuildTail_perm (xs : Vector T n) (start : Nat) :
    (rebuildTail xs start).toList.Perm xs.toList := by
  rw [rebuildTail]
  split
  · exact .refl _
  · split
    · exact rebuildLoop_perm xs _ _
    · exact siftUpTail_perm xs start

/-! ## The order is restored -/

section Order
variable [Std.IsLinearPreorder T]

/-- What the rising element at `pos` may still violate: its own parent. -/
structure UpOrder (xs : Vector T n) (k pos : Nat) : Prop where
  others : ∀ p c (_ : p < n) (_ : c < n), IsChild p c → c < k → c ≠ pos → xs[c] ≤ xs[p]
  grand : ∀ p c (_ : p < n) (_ : c < n), IsChild p pos → IsChild pos c → c < k → xs[c] ≤ xs[p]

omit [DecidableLE T] in
theorem UpOrder.swap (h : UpOrder xs k pos) (hpos : pos < n) (hp : p < n) (hchild : IsChild p pos)
    (hk : pos < k) (hgt : ¬ xs[pos] ≤ xs[p]) : UpOrder (xs.swap pos p) k p := by
  have hle : xs[p] ≤ xs[pos] := Std.le_of_not_ge hgt
  have hppos := hchild.lt
  constructor
  · intro q c hq hc hqc hck hcp
    have hlt := hqc.lt
    by_cases hcpos : c = pos
    · subst hcpos
      obtain rfl := hqc.unique hchild
      simpa using hle
    · rw [Vector.getElem_swap_of_ne hcpos hcp]
      have hold := h.others q c hq hc hqc hck hcpos
      by_cases hqp : q = p
      · subst hqp
        simpa using Std.le_trans hold hle
      · by_cases hqpos : q = pos
        · subst hqpos
          simpa using h.grand p c hp hc hchild hqc hck
        · rwa [Vector.getElem_swap_of_ne hqpos hqp]
  · intro q c hq hc hqp hpc hck
    have hqlt := hqp.lt
    have hplt := hpc.lt
    have hup := h.others q p hq hp hqp (by omega) (by omega)
    rw [Vector.getElem_swap_of_ne (k := q) (by omega) (by omega)]
    by_cases hcpos : c = pos
    · subst hcpos
      simpa using hup
    · rw [Vector.getElem_swap_of_ne hcpos (by omega)]
      exact Std.le_trans (h.others p c hp hc hpc hck hcpos) hup

theorem siftUp_ordered (hpos : pos < n) (h : UpOrder xs k pos) (hk : pos < k) :
    OrderedTo (siftUp xs pos hpos) k := by
  fun_induction siftUp xs pos hpos with
  | case1 xs pos hpos hzero hle =>
    intro p c hp hc hchild hck
    by_cases hcpos : c = pos
    · subst hcpos
      obtain rfl := hchild.parent_eq
      exact hle
    · exact h.others p c hp hc hchild hck hcpos
  | case2 xs pos hpos hzero hgt ih =>
    have hparent := isChild_parent hzero
    exact ih (h.swap hpos (by omega) hparent hk hgt) (by omega)
  | case3 xs pos hpos hzero =>
    intro p c hp hc hchild hck
    have hlt := hchild.lt
    exact h.others p c hp hc hchild hck (by omega)

theorem OrderedTo.siftUp (h : OrderedTo xs pos) (hpos : pos < n) :
    OrderedTo (siftUp xs pos hpos) (pos + 1) := by
  apply siftUp_ordered hpos ?_ (Nat.lt_succ_self pos)
  constructor
  · intro p c hp hc hchild hck hne
    exact h p c hp hc hchild (by omega)
  · intro p c _ _ _ hchild hck
    have hlt := hchild.lt
    omega

theorem siftUpTail_ordered {i : Nat} (hi : i ≤ n) (h : OrderedTo xs i) :
    Ordered (siftUpTail xs i) := by
  fun_induction siftUpTail xs i with
  | case1 xs i hlt ih => exact ih hlt (h.siftUp hlt)
  | case2 xs i hge =>
    obtain rfl : i = n := by omega
    exact h.ordered

/-- What the sinking element at `pos` may still violate: its own children. -/
structure DownOrder (xs : Vector T n) (k pos : Nat) : Prop where
  others : ∀ p c (_ : p < n) (_ : c < n), IsChild p c → k ≤ p → p ≠ pos → xs[c] ≤ xs[p]
  grand : ∀ p c (_ : p < n) (_ : c < n), IsChild p pos → IsChild pos c → k ≤ p → xs[c] ≤ xs[p]

omit [DecidableLE T] [Std.IsLinearPreorder T] in
theorem DownOrder.finish (h : DownOrder xs k pos) (hpos : pos < n)
    (hle : ∀ c (_ : c < n), IsChild pos c → xs[c] ≤ xs[pos]) : OrderedFrom xs k := by
  intro p c hp hc hchild hkp
  by_cases hppos : p = pos
  · subst hppos
    exact hle c hc hchild
  · exact h.others p c hp hc hchild hkp hppos

omit [DecidableLE T] in
theorem DownOrder.swap (h : DownOrder xs k pos) (hpos : pos < n) (hg : g < n)
    (hchild : IsChild pos g) (hk : k ≤ pos) (hgt : ¬ xs[g] ≤ xs[pos])
    (hmax : ∀ c (_ : c < n), IsChild pos c → xs[c] ≤ xs[g]) : DownOrder (xs.swap pos g) k g := by
  have hle : xs[pos] ≤ xs[g] := Std.le_of_not_ge hgt
  have hposg := hchild.lt
  constructor
  · intro p c hp hc hpc hkp hpg
    by_cases hppos : p = pos
    · subst hppos
      by_cases hcg : c = g
      · subst hcg
        simpa using hle
      · rw [Vector.getElem_swap_of_ne (by have hlt := hpc.lt; omega) hcg]
        simpa using hmax c hc hpc
    · rw [Vector.getElem_swap_of_ne hppos hpg]
      by_cases hcpos : c = pos
      · subst hcpos
        simpa using h.grand p g hp hg hpc hchild hkp
      · have hcg : c ≠ g := by
          rintro rfl
          exact hppos (hpc.unique hchild)
        rw [Vector.getElem_swap_of_ne hcpos hcg]
        exact h.others p c hp hc hpc hkp hppos
  · intro p c hp hc hpg hgc hkp
    obtain rfl := hpg.unique hchild
    have hlt := hgc.lt
    rw [Vector.getElem_swap_of_ne (k := c) (by omega) (by omega)]
    simpa using h.others g c hg hc hgc (by omega) (by omega)

theorem siftDown_ordered (hpos : pos < n) (h : DownOrder xs k pos) (hk : k ≤ pos) :
    OrderedFrom (siftDown xs pos hpos) k := by
  fun_induction siftDown xs pos hpos with
  | case1 xs pos hpos hright hle hstop =>
    apply h.finish hpos
    rintro c _ (rfl | rfl)
    · exact Std.le_trans hle hstop
    · exact hstop
  | case2 xs pos hpos hright hle hgt ih =>
    apply ih (h.swap hpos hright (.inr rfl) hk hgt ?_) (by omega)
    rintro c _ (rfl | rfl)
    · exact hle
    · exact Std.le_refl _
  | case3 xs pos hpos hright hlt hstop =>
    apply h.finish hpos
    rintro c _ (rfl | rfl)
    · exact hstop
    · exact Std.le_trans (Std.le_of_not_ge hlt) hstop
  | case4 xs pos hpos hright hlt hgt ih =>
    apply ih (h.swap hpos (by omega) (.inl rfl) hk hgt ?_) (by omega)
    rintro c _ (rfl | rfl)
    · exact Std.le_refl _
    · exact Std.le_of_not_ge hlt
  | case5 xs pos hpos hright hleft hstop =>
    apply h.finish hpos
    rintro c hc (rfl | rfl)
    · exact hstop
    · omega
  | case6 xs pos hpos hright hleft hgt =>
    have hswap : DownOrder (xs.swap pos (2 * pos + 1)) k (2 * pos + 1) := by
      apply h.swap hpos hleft (.inl rfl) hk hgt
      rintro c hc (rfl | rfl)
      · exact Std.le_refl _
      · omega
    apply hswap.finish hleft
    intro c hc hchild
    have hlt := hchild.lt
    rcases hchild with rfl | rfl <;> omega
  | case7 xs pos hpos hright hleft =>
    apply h.finish hpos
    rintro c hc (rfl | rfl) <;> omega

theorem OrderedFrom.siftDown (h : OrderedFrom xs (pos + 1)) (hpos : pos < n) :
    OrderedFrom (siftDown xs pos hpos) pos := by
  apply siftDown_ordered hpos ?_ (Nat.le_refl pos)
  constructor
  · intro p c hp hc hchild hle hne
    exact h p c hp hc hchild (by omega)
  · intro p c _ _ hchild _ hle
    have hlt := hchild.lt
    omega

theorem rebuildLoop_ordered {m : Nat} (hm : m ≤ n) (h : OrderedFrom xs m) :
    Ordered (rebuildLoop xs m hm) := by
  induction m generalizing xs with
  | zero => exact h.ordered
  | succ m ih => exact ih _ (h.siftDown hm)

theorem rebuild_ordered (xs : Vector T n) : Ordered (rebuild xs) := by
  apply rebuildLoop_ordered
  rintro p c _ hc (rfl | rfl) hle <;> omega

theorem rebuildTail_ordered {start : Nat} (hstart : start ≤ n) (h : OrderedTo xs start) :
    Ordered (rebuildTail xs start) := by
  rw [rebuildTail]
  split
  · rename_i heq
    subst heq
    exact h.ordered
  · split
    · exact rebuild_ordered xs
    · exact siftUpTail_ordered hstart h

end Order

/-! ## Lists as heaps -/

def IsHeap (l : List T) : Prop := ∀ c (h : c < l.length), 0 < c → l[c] ≤ l[(c - 1) / 2]

instance (l : List T) : Decidable (IsHeap l) :=
  inferInstanceAs (Decidable (∀ c (h : c < l.length), 0 < c → l[c] ≤ l[(c - 1) / 2]))

def ofList (l : List T) : Vector T l.length := ⟨l.toArray, rfl⟩

omit [DecidableLE T] in
theorem Ordered.isHeap (h : Ordered xs) : IsHeap xs.toList := by
  intro c hc hpos
  have hc' : c < n := by simpa using hc
  simpa using h ((c - 1) / 2) c (by omega) hc' (isChild_parent hpos)

omit [DecidableLE T] in
theorem IsHeap.orderedTo {l : List T} (h : IsHeap l) (rest : List T) :
    OrderedTo (ofList (l ++ rest)) l.length := by
  intro p c hp hc hchild hlt
  have hplt : p < l.length := Nat.lt_trans hchild.lt hlt
  have hle := h c hlt (Nat.lt_of_le_of_lt (Nat.zero_le p) hchild.lt)
  simp only [hchild.parent_eq] at hle
  simpa [ofList, List.getElem_append_left hplt, List.getElem_append_left hlt] using hle

/-- `append`: elements behind a heap become part of it. -/
def append (l rest : List T) : List T := (rebuildTail (ofList (l ++ rest)) l.length).toList

theorem append_perm (l rest : List T) : (append l rest).Perm (l ++ rest) :=
  rebuildTail_perm (ofList (l ++ rest)) l.length

theorem append_isHeap [Std.IsLinearPreorder T] {l : List T} (h : IsHeap l) (rest : List T) :
    IsHeap (append l rest) := by
  apply Ordered.isHeap
  apply rebuildTail_ordered
  · rw [List.length_append]
    exact Nat.le_add_right ..
  · exact h.orderedTo rest

/-- `push`: an element behind a heap rises to its place. -/
def push (l : List T) (x : T) : List T :=
  (siftUp (ofList (l ++ [x])) l.length (by simp)).toList

theorem push_perm (l : List T) (x : T) : (push l x).Perm (l ++ [x]) :=
  siftUp_perm (ofList (l ++ [x])) l.length _

theorem push_isHeap [Std.IsLinearPreorder T] {l : List T} (h : IsHeap l) (x : T) :
    IsHeap (push l x) := by
  apply Ordered.isHeap
  have hlen : (l ++ [x]).length = l.length + 1 := by simp
  have hto := (h.orderedTo [x]).siftUp (by omega)
  intro p c hp hc hchild
  exact hto p c hp hc hchild (by omega)

end MaxHeap
