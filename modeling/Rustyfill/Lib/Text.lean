import Mathlib.Data.List.Basic

/-!
# Splitting at a separator

A text is cut at every occurrence of a separator, found from the left and not overlapping. Parts in
which the first character of the separator does not occur are joined by it and cut again without
loss.
-/

namespace Text

set_option autoImplicit false

variable {α : Type} [DecidableEq α]

/-- Cut a text at `sep`, after `skip` characters of an occurrence that are still to be passed. -/
def splitFrom (sep : List α) : Nat → List α → List (List α)
  | _, [] => [[]]
  | skip + 1, _ :: s => splitFrom sep skip s
  | 0, a :: s =>
    if sep.isPrefixOf (a :: s) then [] :: splitFrom sep (sep.length - 1) s
    else (splitFrom sep 0 s).modifyHead (a :: ·)

def split (sep s : List α) : List (List α) := splitFrom sep 0 s

variable {a : α} {sep s t : List α}

theorem splitFrom_ne_nil (sep : List α) (skip : Nat) (s : List α) : splitFrom sep skip s ≠ [] := by
  induction s generalizing skip with
  | nil => exact List.cons_ne_nil _ _
  | cons a s ih =>
    cases skip with
    | succ skip => exact ih skip
    | zero =>
      rw [splitFrom]
      split_ifs
      · exact List.cons_ne_nil _ _
      · obtain ⟨head, tail, hsplit⟩ := List.exists_cons_of_ne_nil (ih 0)
        rw [hsplit]
        exact List.cons_ne_nil _ _

theorem split_ne_nil (sep s : List α) : split sep s ≠ [] := splitFrom_ne_nil sep 0 s

theorem splitFrom_length (s t : List α) : splitFrom sep s.length (s ++ t) = splitFrom sep 0 t := by
  induction s with
  | nil => rfl
  | cons a s ih => exact ih

theorem isPrefixOf_false_of_ne {b : α} (h : b ≠ a) : (a :: sep).isPrefixOf (b :: s) = false := by
  simp [List.isPrefixOf, h.symm]

theorem split_of_not_mem (h : a ∉ s) : split (a :: sep) s = [s] := by
  induction s with
  | nil => rfl
  | cons b s ih =>
    obtain ⟨hne, hs⟩ := not_or.mp (mt List.mem_cons.mpr h)
    have hrest : splitFrom (a :: sep) 0 s = [s] := ih hs
    rw [split, splitFrom, isPrefixOf_false_of_ne (Ne.symm hne), if_neg Bool.false_ne_true, hrest]
    rfl

theorem split_append (h : a ∉ s) :
    split (a :: sep) (s ++ (a :: sep) ++ t) = s :: split (a :: sep) t := by
  induction s with
  | nil =>
    have hprefix : (a :: sep).isPrefixOf (a :: (sep ++ t)) = true :=
      List.isPrefixOf_iff_prefix.mpr (List.prefix_append (a :: sep) t)
    rw [List.nil_append, List.cons_append, split, splitFrom, if_pos hprefix]
    exact congrArg (List.cons []) (splitFrom_length sep t)
  | cons b s ih =>
    obtain ⟨hne, hs⟩ := not_or.mp (mt List.mem_cons.mpr h)
    have hrest : splitFrom (a :: sep) 0 (s ++ (a :: sep) ++ t) = s :: split (a :: sep) t := ih hs
    rw [List.cons_append, List.cons_append, split, splitFrom,
      isPrefixOf_false_of_ne (Ne.symm hne), if_neg Bool.false_ne_true, hrest]
    rfl

theorem split_intercalate {parts : List (List α)} (hne : parts ≠ []) (h : ∀ s ∈ parts, a ∉ s) :
    split (a :: sep) ((a :: sep).intercalate parts) = parts := by
  induction parts with
  | nil => exact absurd rfl hne
  | cons s parts ih =>
    cases parts with
    | nil =>
      rw [List.intercalate_singleton]
      exact split_of_not_mem (h s List.mem_cons_self)
    | cons t parts =>
      rw [List.intercalate_cons_cons, split_append (h s List.mem_cons_self),
        ih (List.cons_ne_nil _ _) fun t ht => h t (List.mem_cons_of_mem _ ht)]

/-! ## The last occurrence -/

/-- What stands before the last occurrence of `sep`, and what stands behind it. -/
def rsplitOnce (sep : List α) : List α → Option (List α × List α)
  | [] => none
  | a :: s =>
    match rsplitOnce sep s with
    | some (front, back) => some (a :: front, back)
    | none => if sep.isPrefixOf (a :: s) then some ([], (a :: s).drop sep.length) else none

theorem eq_of_rsplitOnce {front back : List α} (h : rsplitOnce sep s = some (front, back)) :
    s = front ++ sep ++ back := by
  induction s generalizing front with
  | nil => cases h
  | cons a s ih =>
    rw [rsplitOnce] at h
    cases hrest : rsplitOnce sep s with
    | some p =>
      rw [hrest] at h
      cases h
      rw [ih hrest, List.cons_append, List.cons_append]
    | none =>
      rw [hrest] at h
      simp only [Option.ite_none_right_eq_some, Option.some.injEq, Prod.mk.injEq] at h
      obtain ⟨hfront, rfl, rfl⟩ := h
      obtain ⟨back, hback⟩ := List.isPrefixOf_iff_prefix.mp hfront
      rw [← hback, List.drop_left, List.nil_append]

theorem rsplitOnce_of_not_mem (h : a ∉ s) : rsplitOnce [a] s = none := by
  cases hs : rsplitOnce [a] s with
  | none => rfl
  | some p =>
    have heq : s = p.1 ++ [a] ++ p.2 := eq_of_rsplitOnce hs
    rw [heq] at h
    exact absurd (List.mem_append_left _ (List.mem_append_right _ (List.mem_singleton_self a))) h

theorem rsplitOnce_append (s : List α) (h : a ∉ t) :
    rsplitOnce [a] (s ++ a :: t) = some (s, t) := by
  induction s with
  | nil =>
    rw [List.nil_append, rsplitOnce, rsplitOnce_of_not_mem h]
    simp [List.isPrefixOf]
  | cons b s ih => rw [List.cons_append, rsplitOnce, ih]

/-! ## Joining -/

omit [DecidableEq α] in
theorem intercalate_concat {parts : List (List α)} (hne : parts ≠ []) (s : List α) :
    sep.intercalate (parts ++ [s]) = sep.intercalate parts ++ (sep ++ s) := by
  induction parts with
  | nil => exact absurd rfl hne
  | cons t parts ih =>
    cases parts with
    | nil =>
      rw [List.singleton_append, List.intercalate_cons_cons, List.intercalate_singleton,
        List.intercalate_singleton, List.append_assoc]
    | cons u parts =>
      rw [List.cons_append, List.intercalate_cons_of_ne_nil (by simp), ih (List.cons_ne_nil _ _),
        List.intercalate_cons_cons]
      simp only [List.append_assoc]

omit [DecidableEq α] in
theorem intercalate_append_last (parts : List (List α)) (s t : List α) :
    sep.intercalate (parts ++ [s ++ t]) = sep.intercalate (parts ++ [s]) ++ t := by
  cases parts with
  | nil =>
    rw [List.nil_append, List.nil_append, List.intercalate_singleton, List.intercalate_singleton]
  | cons u parts =>
    rw [intercalate_concat (List.cons_ne_nil _ _), intercalate_concat (List.cons_ne_nil _ _)]
    simp only [List.append_assoc]

omit [DecidableEq α] in
theorem length_le_intercalate {parts : List (List α)} {s : List α} (hs : s ∈ parts) :
    s.length ≤ (sep.intercalate parts).length := by
  induction parts with
  | nil => cases hs
  | cons t parts ih =>
    cases parts with
    | nil =>
      obtain rfl := List.mem_singleton.mp hs
      have hsingle : sep.intercalate [s] = s := List.intercalate_singleton
      exact Nat.le_of_eq (congrArg List.length hsingle.symm)
    | cons u parts =>
      rw [List.intercalate_cons_cons, List.length_append, List.length_append]
      rcases List.mem_cons.mp hs with rfl | hs
      · omega
      · have hlength := ih hs
        omega

theorem intercalate_injective {parts parts' : List (List α)} (hne : parts ≠ [])
    (hne' : parts' ≠ []) (h : ∀ s ∈ parts, a ∉ s) (h' : ∀ s ∈ parts', a ∉ s)
    (heq : (a :: sep).intercalate parts = (a :: sep).intercalate parts') : parts = parts' := by
  rw [← split_intercalate hne h, heq, split_intercalate hne' h']

end Text
