import Mathlib.Data.List.Basic

/-!
# Positions in a list

A property of the entries of a list that looks at what comes before an entry, the nearest first,
and at what comes after it.
-/

namespace Positions

set_option autoImplicit false

universe u

variable {α : Type u} {Q R : List α → α → List α → Prop}

/-- At every position of a list that stands between `past` and `post`. -/
def Everywhere (Q : List α → α → List α → Prop) : List α → List α → List α → Prop
  | _, [], _ => True
  | past, x :: rest, post => Q past x (rest ++ post) ∧ Everywhere Q (x :: past) rest post

theorem everywhere_append {past l l' post : List α} : Everywhere Q past (l ++ l') post ↔
    Everywhere Q past l (l' ++ post) ∧ Everywhere Q (l.reverse ++ past) l' post := by
  induction l generalizing past with
  | nil =>
    simp only [List.nil_append, Everywhere, true_and]
    rfl
  | cons x l ih =>
    rw [List.cons_append, Everywhere, Everywhere, ih, List.reverse_cons, List.append_assoc,
      List.append_assoc, and_assoc]
    rfl

theorem everywhere_iff {past l post : List α} : Everywhere Q past l post ↔
    ∀ before x after, l = before.reverse ++ x :: after →
      Q (before ++ past) x (after ++ post) := by
  induction l generalizing past with
  | nil =>
    refine iff_of_true trivial ?_
    intro before x after h
    simp at h
  | cons y l ih =>
    rw [Everywhere, ih]
    constructor
    · rintro ⟨hfirst, hrest⟩ before x after h
      rcases before.eq_nil_or_concat with rfl | ⟨before, z, rfl⟩
      · obtain ⟨rfl, rfl⟩ := List.cons.inj h
        exact hfirst
      · rw [List.concat_eq_append, List.reverse_append] at h
        obtain ⟨rfl, rfl⟩ := List.cons.inj h
        rw [List.concat_eq_append, List.append_assoc]
        exact hrest before x after rfl
    · intro h
      refine ⟨h [] y l rfl, ?_⟩
      rintro before x after rfl
      have hall := h (before ++ [y]) x after
      rw [List.reverse_append, List.append_assoc, List.append_assoc] at hall
      exact hall rfl

theorem everywhere_all {l : List α} : Everywhere Q [] l [] ↔
    ∀ past x post, l = past.reverse ++ x :: post → Q past x post := by
  rw [everywhere_iff]
  simp only [List.append_nil]

theorem everywhere_before {R : α → α → Prop} {past l post : List α} :
    Everywhere (fun past x _ => ∀ y ∈ past, R y x) past l post ↔
      (∀ x ∈ l, ∀ y ∈ past, R y x) ∧ l.Pairwise R := by
  induction l generalizing past with
  | nil => exact iff_of_true trivial ⟨(fun x hx => nomatch hx), List.Pairwise.nil⟩
  | cons x l ih =>
    simp only [Everywhere, ih, List.forall_mem_cons, List.pairwise_cons, forall_and]
    exact ⟨fun ⟨h, ⟨hx, hl⟩, hp⟩ => ⟨⟨h, hl⟩, hx, hp⟩, fun ⟨⟨h, hl⟩, hx, hp⟩ => ⟨h, ⟨hx, hl⟩, hp⟩⟩

theorem pairwise_iff {R : α → α → Prop} {l : List α} :
    l.Pairwise R ↔
      ∀ (past : List α) x post, l = past.reverse ++ x :: post → ∀ y ∈ past, R y x := by
  rw [← @everywhere_all α (fun past x _ => ∀ y ∈ past, R y x), everywhere_before]
  exact (and_iff_right (fun x _ y hy => nomatch hy)).symm

/-! ## The nearest entry -/

theorem find?_append_of_forall {p : α → Bool} {l l' : List α} (h : ∀ x ∈ l, p x = false) :
    (l ++ l').find? p = l'.find? p := by
  rw [List.find?_append, List.find?_eq_none.mpr, Option.none_or]
  intro x hx hp
  rw [h x hx] at hp
  exact Bool.false_ne_true hp

theorem split_of_find? {p : α → Bool} {l : List α} {x : α} (h : l.find? p = some x) :
    ∃ before after, l = before ++ x :: after ∧ (∀ y ∈ before, p y = false) ∧ p x = true := by
  obtain ⟨hp, before, after, rfl, hbefore⟩ := List.find?_eq_some_iff_append.mp h
  refine ⟨before, after, rfl, ?_, hp⟩
  intro y hy
  simpa using hbefore y hy

end Positions
