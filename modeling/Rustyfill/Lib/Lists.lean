import Mathlib.Data.List.Perm.Basic

/-!
# Lists with one element replaced

Facts about `List.set`, about counting, and about suffixes, as loops over a vector and
invariants over its elements need them, and the recursions that are a map or a test of every
element.
-/

namespace ListUpdate

set_option autoImplicit false

universe u

variable {α : Type u} {l : List α} {i : Nat} {a old : α}

theorem forall_mem_set {P : α → Prop} (hl : ∀ x ∈ l, P x) (ha : P a) : ∀ x ∈ l.set i a, P x := by
  intro x hx
  rcases List.mem_or_eq_of_mem_set hx with hx | rfl
  · exact hl x hx
  · exact ha

/-- Replacing one element changes a count by what is said of the old and of the new one. -/
theorem countP_set_getElem? (p : α → Bool) (new : α) (h : l[i]? = some old) :
    (l.set i new).countP p + (if p old then 1 else 0) = l.countP p + (if p new then 1 else 0) := by
  obtain ⟨hi, rfl⟩ := List.getElem?_eq_some_iff.mp h
  rw [List.countP_set hi]
  have hpos : (if p l[i] then 1 else 0) ≤ l.countP p := by
    split
    · rename_i hp
      exact List.countP_pos_iff.mpr ⟨l[i], List.getElem_mem hi, hp⟩
    · exact Nat.zero_le _
  omega

theorem drop_eq_cons (h : l[i]? = some a) : l.drop i = a :: l.drop (i + 1) := by
  obtain ⟨hi, rfl⟩ := List.getElem?_eq_some_iff.mp h
  exact List.drop_eq_getElem_cons hi

theorem drop_set_succ (l : List α) (i : Nat) (a : α) : (l.set i a).drop (i + 1) = l.drop (i + 1) :=
  List.drop_set_of_lt (Nat.lt_succ_self i)

/-- Replacing one element of a list of optional values, as far as the values go. -/
theorem filterMap_id_set {l : List (Option α)} {old : Option α} (new : Option α)
    (h : l[i]? = some old) : ∃ rest, (l.filterMap id).Perm (old.toList ++ rest) ∧
      ((l.set i new).filterMap id).Perm (new.toList ++ rest) := by
  induction l generalizing i with
  | nil => simp at h
  | cons b l ih =>
    cases i with
    | zero =>
      obtain rfl : b = old := by simpa using h
      refine ⟨l.filterMap id, ?_, ?_⟩
      · cases b <;> simp
      · cases new <;> simp
    | succ i =>
      obtain ⟨rest, hold, hnew⟩ := ih (by simpa using h)
      refine ⟨b.toList ++ rest, ?_, ?_⟩
      · cases b with
        | none => simpa using hold
        | some a => simpa using (hold.cons a).trans List.perm_middle.symm
      · cases b with
        | none => simpa using hnew
        | some a => simpa using (hnew.cons a).trans List.perm_middle.symm

theorem filter_eq_singleton {p : α → Bool} (hl : l.Nodup) (ha : a ∈ l)
    (hp : ∀ b ∈ l, p b = true ↔ b = a) : l.filter p = [a] := by
  induction l with
  | nil => exact absurd ha List.not_mem_nil
  | cons b l ih =>
    obtain ⟨hb, hl⟩ := List.nodup_cons.mp hl
    have hrest : ∀ c ∈ l, p c = true ↔ c = a := fun c hc => hp c (List.mem_cons_of_mem b hc)
    rcases List.mem_cons.mp ha with rfl | ha
    · have hnone : l.filter p = [] := List.filter_eq_nil_iff.mpr fun c hc hpc =>
        hb ((hrest c hc).mp hpc ▸ hc)
      rw [List.filter_cons_of_pos ((hp a List.mem_cons_self).mpr rfl), hnone]
    · have hne : p b ≠ true := fun hpb => hb ((hp b List.mem_cons_self).mp hpb ▸ ha)
      rw [List.filter_cons_of_neg hne, ih hl ha hrest]

end ListUpdate

/-! ## Functions by recursion over a list -/

namespace ListRec

universe u v

variable {α : Type u} {β : Type v}

theorem eq_map {f : α → β} {g : List α → List β} (hnil : g [] = [])
    (hcons : ∀ a l, g (a :: l) = f a :: g l) (l : List α) : g l = l.map f := by
  induction l with
  | nil => exact hnil
  | cons a l ih => rw [hcons, ih, List.map_cons]

theorem eq_all {p : α → Bool} {g : List α → Bool} (hnil : g [] = true)
    (hcons : ∀ a l, g (a :: l) = (p a && g l)) (l : List α) : g l = l.all p := by
  induction l with
  | nil => exact hnil
  | cons a l ih => rw [hcons, ih, List.all_cons]

end ListRec
