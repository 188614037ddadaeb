import Mathlib.Data.List.Basic
import Mathlib.Order.Lattice

/-!
# Grouping by a key

A list is split into groups of the same key, each in the order of the list, kept sorted by their
keys.
-/

namespace Grouping

set_option autoImplicit false

variable {κ α : Type} [LinearOrder κ]

def push (key : κ) (a : α) : List (κ × List α) → List (κ × List α)
  | [] => [(key, [a])]
  | (k, as) :: rest =>
    if key = k then (k, as ++ [a]) :: rest
    else if key < k then (key, [a]) :: (k, as) :: rest
    else (k, as) :: push key a rest

def group (key : α → κ) (l : List α) : List (κ × List α) :=
  l.foldl (fun groups a => push (key a) a groups) []

/-- What is held under a key. -/
def entry (k : κ) : List (κ × List α) → List α
  | [] => []
  | (k', as) :: rest => if k' = k then as else entry k rest

structure Sorted (groups : List (κ × List α)) : Prop where
  keys : groups.Pairwise fun p q => p.1 < q.1
  nonempty : ∀ p ∈ groups, p.2 ≠ []

variable {key k : κ} {a : α} {as : List α} {groups rest : List (κ × List α)}

theorem Sorted.tail (h : Sorted ((k, as) :: rest)) : Sorted rest :=
  ⟨(List.pairwise_cons.mp h.keys).2, fun p hp => h.nonempty p (List.mem_cons_of_mem _ hp)⟩

theorem Sorted.head_lt (h : Sorted ((k, as) :: rest)) : ∀ p ∈ rest, k < p.1 :=
  (List.pairwise_cons.mp h.keys).1

theorem entry_of_forall_ne (h : ∀ p ∈ groups, p.1 ≠ k) : entry k groups = [] := by
  induction groups with
  | nil => rfl
  | cons p groups ih =>
    rw [entry, if_neg (h p List.mem_cons_self)]
    exact ih fun q hq => h q (List.mem_cons_of_mem _ hq)

theorem Sorted.mem_iff (h : Sorted groups) : (k, as) ∈ groups ↔ entry k groups = as ∧ as ≠ [] := by
  induction groups with
  | nil => simp [entry, eq_comm]
  | cons p groups ih =>
    obtain ⟨k', as'⟩ := p
    rw [List.mem_cons, ih h.tail, entry]
    by_cases hk : k' = k
    · subst hk
      have hrest : entry k' groups = [] := entry_of_forall_ne fun q hq => (h.head_lt q hq).ne'
      have hne : as' ≠ [] := h.nonempty _ List.mem_cons_self
      rw [if_pos rfl, hrest]
      constructor
      · rintro (heq | ⟨rfl, hnil⟩)
        · cases heq
          exact ⟨rfl, hne⟩
        · exact absurd rfl hnil
      · rintro ⟨rfl, -⟩
        exact Or.inl rfl
    · rw [if_neg hk]
      constructor
      · rintro (heq | hmem)
        · exact absurd (congrArg Prod.fst heq).symm hk
        · exact hmem
      · exact Or.inr

theorem mem_push {p : κ × List α} (h : p ∈ push key a groups) :
    p.1 = key ∧ p.2 ≠ [] ∨ p ∈ groups := by
  induction groups with
  | nil =>
    rw [push, List.mem_singleton] at h
    rw [h]
    exact Or.inl ⟨rfl, List.cons_ne_nil _ _⟩
  | cons q groups ih =>
    obtain ⟨k', as'⟩ := q
    rw [push] at h
    split_ifs at h with heq hlt
    · rcases List.mem_cons.mp h with rfl | h
      · exact Or.inl ⟨heq.symm, List.append_ne_nil_of_right_ne_nil _ (List.cons_ne_nil _ _)⟩
      · exact Or.inr (List.mem_cons_of_mem _ h)
    · rcases List.mem_cons.mp h with rfl | h
      · exact Or.inl ⟨rfl, List.cons_ne_nil _ _⟩
      · exact Or.inr h
    · rcases List.mem_cons.mp h with rfl | h
      · exact Or.inr List.mem_cons_self
      · exact (ih h).imp_right (List.mem_cons_of_mem _)

theorem Sorted.push (h : Sorted groups) : Sorted (push key a groups) where
  keys := by
    induction groups with
    | nil => exact List.pairwise_singleton _ _
    | cons q groups ih =>
      obtain ⟨k', as'⟩ := q
      rw [Grouping.push]
      split_ifs with heq hlt
      · exact List.pairwise_cons.mpr ⟨h.head_lt, h.tail.keys⟩
      · refine List.pairwise_cons.mpr ⟨?_, h.keys⟩
        rintro p hp
        rcases List.mem_cons.mp hp with rfl | hp
        · exact hlt
        · exact hlt.trans (h.head_lt p hp)
      · refine List.pairwise_cons.mpr ⟨?_, ih h.tail⟩
        intro p hp
        rcases mem_push hp with ⟨hkey, -⟩ | hp
        · rw [hkey]
          exact lt_of_le_of_ne (not_lt.mp hlt) (Ne.symm heq)
        · exact h.head_lt p hp
  nonempty p hp := (mem_push hp).elim And.right (h.nonempty p)

theorem Sorted.entry_push (h : Sorted groups) :
    entry k (Grouping.push key a groups) =
      if key = k then entry k groups ++ [a] else entry k groups := by
  induction groups with
  | nil => rfl
  | cons q groups ih =>
    obtain ⟨k', as'⟩ := q
    rw [Grouping.push]
    by_cases heq : key = k'
    · subst heq
      rw [if_pos rfl, entry, entry]
      by_cases hk : key = k
      · rw [if_pos hk, if_pos hk, if_pos hk]
      · rw [if_neg hk, if_neg hk, if_neg hk]
    · rw [if_neg heq]
      by_cases hlt : key < k'
      · rw [if_pos hlt]
        by_cases hk : key = k
        · subst hk
          have hnone : entry key ((k', as') :: groups) = [] := entry_of_forall_ne fun p hp => by
            rcases List.mem_cons.mp hp with rfl | hp
            · exact hlt.ne'
            · exact (hlt.trans (h.head_lt p hp)).ne'
          rw [hnone, entry, if_pos rfl, if_pos rfl]
          rfl
        · rw [entry, if_neg hk, if_neg hk]
      · rw [if_neg hlt, entry, entry, ih h.tail]
        by_cases hk : key = k
        · have hne : k' ≠ k := fun hk' => heq (hk.trans hk'.symm)
          rw [if_neg hne, if_neg hne]
        · simp only [hk, if_false]

theorem foldl_push (key : α → κ) (l : List α) (h : Sorted groups) :
    Sorted (l.foldl (fun groups a => push (key a) a groups) groups) ∧
      ∀ k, entry k (l.foldl (fun groups a => push (key a) a groups) groups) =
        entry k groups ++ l.filter fun a => decide (key a = k) := by
  induction l generalizing groups with
  | nil => exact ⟨h, fun k => (List.append_nil _).symm⟩
  | cons a l ih =>
    have hpush : Sorted (push (key a) a groups) := h.push
    obtain ⟨hsorted, hentry⟩ := ih hpush
    refine ⟨hsorted, fun k => ?_⟩
    rw [List.foldl_cons, hentry, h.entry_push, List.filter_cons]
    by_cases hk : key a = k
    · simp only [hk, if_true, decide_true, List.append_assoc, List.singleton_append]
    · simp only [hk, if_false, decide_false, Bool.false_eq_true]

theorem sorted_nil : Sorted ([] : List (κ × List α)) :=
  ⟨List.Pairwise.nil, fun _ hp => absurd hp List.not_mem_nil⟩

theorem group_sorted (key : α → κ) (l : List α) : Sorted (group key l) :=
  (foldl_push key l sorted_nil).1

theorem mem_group {key : α → κ} {l : List α} {test : α → Bool}
    (htest : ∀ a, test a = true ↔ key a = k) :
    (k, as) ∈ group key l ↔ l.filter test = as ∧ as ≠ [] := by
  have hfilter : l.filter test = l.filter fun a => decide (key a = k) :=
    List.filter_congr fun a _ => Bool.eq_iff_iff.mpr ((htest a).trans decide_eq_true_iff.symm)
  have hentry := (foldl_push key l sorted_nil).2 k
  rw [(group_sorted key l).mem_iff, group, hentry, hfilter]
  rfl

theorem group_keys_nodup (key : α → κ) (l : List α) : ((group key l).map Prod.fst).Nodup :=
  List.pairwise_map.mpr ((group_sorted key l).keys.imp ne_of_lt)

theorem mem_group_keys {key : α → κ} {l : List α} :
    k ∈ (group key l).map Prod.fst ↔ ∃ a ∈ l, key a = k := by
  constructor
  · intro h
    obtain ⟨⟨k', as⟩, hp, rfl⟩ := List.mem_map.mp h
    obtain ⟨hfilter, hne⟩ := (mem_group fun a => decide_eq_true_iff).mp hp
    obtain ⟨a, ha⟩ := List.exists_mem_of_ne_nil as hne
    rw [← hfilter, List.mem_filter, decide_eq_true_iff] at ha
    exact ⟨a, ha⟩
  · rintro ⟨a, ha, rfl⟩
    have hmem : a ∈ l.filter fun b => decide (key b = key a) :=
      List.mem_filter.mpr ⟨ha, decide_eq_true rfl⟩
    have hgroup := (mem_group fun a => decide_eq_true_iff).mpr ⟨rfl, List.ne_nil_of_mem hmem⟩
    exact List.mem_map.mpr ⟨_, hgroup, rfl⟩

end Grouping
