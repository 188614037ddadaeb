import Mathlib.Data.List.Nodup

/-!
# Chains of linked cells

Cells at addresses, each with a link to another cell or to none. A segment is what a walk along
the links passes; a chain is a segment that comes to an end.
-/

namespace Chains

set_option autoImplicit false

variable {α : Type}

/-- A walk that starts at `start` passes the cells `as` and is then at `stop`. The link of a cell
that is not there is `none`. -/
def Segment (link : α → Option (Option α)) : Option α → List α → Option α → Prop
  | start, [], stop => start = stop
  | start, a :: as, stop => start = some a ∧ ∃ next, link a = some next ∧ Segment link next as stop

/-- A walk that ends. -/
def Chain (link : α → Option (Option α)) (start : Option α) (as : List α) : Prop :=
  Segment link start as none

variable {link link' : α → Option (Option α)} {start mid stop : Option α} {a : α} {as bs : List α}

@[simp] theorem segment_nil : Segment link start [] stop ↔ start = stop := Iff.rfl

theorem segment_cons : Segment link start (a :: as) stop ↔
    start = some a ∧ ∃ next, link a = some next ∧ Segment link next as stop := Iff.rfl

theorem segment_append : Segment link start (as ++ bs) stop ↔
    ∃ mid, Segment link start as mid ∧ Segment link mid bs stop := by
  induction as generalizing start with
  | nil => simp
  | cons a as ih =>
    simp only [List.cons_append, segment_cons, ih]
    constructor
    · rintro ⟨hstart, next, hlink, mid, has, hbs⟩
      exact ⟨mid, ⟨hstart, next, hlink, has⟩, hbs⟩
    · rintro ⟨mid, ⟨hstart, next, hlink, has⟩, hbs⟩
      exact ⟨hstart, next, hlink, mid, has, hbs⟩

theorem segment_concat :
    Segment link start (as ++ [a]) stop ↔ Segment link start as (some a) ∧ link a = some stop := by
  rw [segment_append]
  constructor
  · rintro ⟨mid, has, rfl, next, hlink, rfl⟩
    exact ⟨has, hlink⟩
  · rintro ⟨has, hlink⟩
    exact ⟨some a, has, rfl, stop, hlink, rfl⟩

theorem Segment.isSome (h : Segment link start as stop) : ∀ a ∈ as, (link a).isSome := by
  induction as generalizing start with
  | nil => simp
  | cons b as ih =>
    obtain ⟨-, next, hlink, hrest⟩ := h
    intro a ha
    rcases List.mem_cons.mp ha with rfl | ha
    · rw [hlink]
      rfl
    · exact ih hrest a ha

theorem Segment.congr (h : Segment link start as stop) (hsame : ∀ a ∈ as, link' a = link a) :
    Segment link' start as stop := by
  induction as generalizing start with
  | nil => exact h
  | cons a as ih =>
    obtain ⟨hstart, next, hlink, hrest⟩ := h
    refine ⟨hstart, next, ?_, ih hrest fun b hb => hsame b (List.mem_cons_of_mem _ hb)⟩
    rw [hsame a List.mem_cons_self, hlink]

/-- Two walks from the same cell that come to an end are the same. -/
theorem Chain.unique (h : Chain link start as) (h' : Chain link start bs) : as = bs := by
  induction as generalizing start bs with
  | nil =>
    cases bs with
    | nil => rfl
    | cons b bs =>
      have hstart : start = none := h
      rw [hstart] at h'
      cases h'.1
  | cons a as ih =>
    obtain ⟨rfl, next, hlink, hrest⟩ := h
    cases bs with
    | nil => cases h'
    | cons b bs =>
      obtain ⟨hb, next', hlink', hrest'⟩ := h'
      cases hb
      rw [hlink] at hlink'
      cases hlink'
      rw [ih hrest hrest']

theorem Chain.nodup (h : Chain link start as) : as.Nodup := by
  induction as generalizing start with
  | nil => exact List.nodup_nil
  | cons a as ih =>
    have hwhole := h
    obtain ⟨rfl, next, hlink, hrest⟩ := h
    refine List.nodup_cons.mpr ⟨fun hmem => ?_, ih hrest⟩
    -- From the second visit on the walk would be shorter than from the first.
    obtain ⟨front, back, rfl⟩ := List.append_of_mem hmem
    obtain ⟨mid, -, hback⟩ := segment_append.mp hrest
    have hmid := hback.1
    rw [hmid] at hback
    have hlen := congrArg List.length (Chain.unique hwhole hback)
    simp only [List.length_cons, List.length_append] at hlen
    omega

end Chains
