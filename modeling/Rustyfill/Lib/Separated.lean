import Mathlib.Data.List.InsertIdx

/-!
# Lists with separators between them

`weave` puts one separator between each two lists, as the keys of a search tree stand between
its subtrees. An insertion of a separator with a list after it, and a cut at a separator, keep
what is woven.
-/

namespace Separated

set_option autoImplicit false

variable {α β : Type} {c : List α} {l l' cs cs' : List (List α)} {e : α} {es es' : List α}
  {i m : Nat}

/-- Each list with the separator after it. -/
def before (cs : List (List α)) (es : List α) : List α :=
  (List.zipWith (fun c e => c ++ [e]) cs es).flatten

def after (es : List α) (cs : List (List α)) : List α :=
  (List.zipWith (fun e c => e :: c) es cs).flatten

def weave : List (List α) → List α → List α
  | [], _ => []
  | c :: cs, es => c ++ after es cs

@[simp] theorem before_nil : before ([] : List (List α)) es = [] := rfl

@[simp] theorem before_cons : before (c :: cs) (e :: es) = c ++ e :: before cs es := by
  simp [before]

@[simp] theorem after_nil : after [] cs = [] := rfl

@[simp] theorem after_cons : after (e :: es) (c :: cs) = e :: c ++ after es cs := by
  simp [after]

theorem after_append (h : es.length = cs.length) :
    after (es ++ es') (cs ++ cs') = after es cs ++ after es' cs' := by
  rw [after, after, after, List.zipWith_append h, List.flatten_append]

theorem sublist_after (h : es.length = cs.length) : es.Sublist (after es cs) := by
  induction es generalizing cs with
  | nil => exact List.nil_sublist _
  | cons e es ih =>
    cases cs with
    | nil => cases h
    | cons c cs =>
      rw [after_cons, List.cons_append]
      exact ((ih (Nat.succ.inj h)).trans (List.sublist_append_right c _)).cons_cons e

theorem sublist_weave (h : cs.length = es.length + 1) : es.Sublist (weave cs es) := by
  cases cs with
  | nil => cases h
  | cons c cs => exact (sublist_after (Nat.succ.inj h).symm).trans (List.sublist_append_right c _)

theorem weave_append (h : cs.length = es.length) :
    weave (cs ++ c :: cs') (es ++ es') = before cs es ++ c ++ after es' cs' := by
  induction cs generalizing es with
  | nil =>
    rw [List.length_nil] at h
    rw [List.length_eq_zero_iff.mp h.symm]
    rfl
  | cons d cs ih =>
    cases es with
    | nil => cases h
    | cons e es =>
      have hrest := ih (Nat.succ.inj h)
      have hcons : weave (d :: (cs ++ c :: cs')) (e :: (es ++ es')) =
          d ++ e :: weave (cs ++ c :: cs') (es ++ es') := by
        cases cs with
        | nil => simp [weave]
        | cons d' cs => simp [weave]
      rw [List.cons_append, List.cons_append, hcons, hrest, before_cons]
      simp only [List.append_assoc, List.cons_append]

theorem weave_cut (hlen : cs.length = es.length + 1) (hm : m < es.length) :
    weave cs es = weave (cs.take (m + 1)) (es.take m) ++
      es[m] :: weave (cs.drop (m + 1)) (es.drop (m + 1)) := by
  obtain ⟨c, cs, rfl⟩ := List.exists_cons_of_length_eq_add_one hlen
  have hlen' : cs.length = es.length := by simpa using hlen
  have hes : es = es.take m ++ es[m] :: es.drop (m + 1) := by
    rw [← List.drop_eq_getElem_cons, List.take_append_drop]
  have hcs : cs = cs.take m ++ cs[m] :: cs.drop (m + 1) := by
    rw [← List.drop_eq_getElem_cons, List.take_append_drop]
  have hsplit : after es cs = after (es.take m) (cs.take m) ++
      after (es[m] :: es.drop (m + 1)) (cs[m] :: cs.drop (m + 1)) := by
    rw [← after_append (by simp [hlen']), ← hes, ← hcs]
  rw [List.take_succ_cons, List.drop_succ_cons, List.drop_eq_getElem_cons (l := cs) (by omega)]
  simp only [weave, hsplit, after_cons, List.append_assoc, List.cons_append]

/-! ## In order -/

section
variable {R : α → α → Prop} {x : α}

theorem exists_of_mem_before (h : (before cs es).Pairwise R) (hx : x ∈ before cs es) :
    ∃ e ∈ es, x = e ∨ R x e := by
  induction cs generalizing es with
  | nil => cases hx
  | cons c cs ih =>
    cases es with
    | nil => cases hx
    | cons e es =>
      rw [before_cons] at h hx
      obtain ⟨-, hrest, hcross⟩ := List.pairwise_append.mp h
      rcases List.mem_append.mp hx with hx | hx
      · exact ⟨e, List.mem_cons_self, .inr (hcross x hx e List.mem_cons_self)⟩
      · rcases List.mem_cons.mp hx with rfl | hx
        · exact ⟨x, List.mem_cons_self, .inl rfl⟩
        · obtain ⟨e', he', hrel⟩ := ih (List.pairwise_cons.mp hrest).2 hx
          exact ⟨e', List.mem_cons_of_mem _ he', hrel⟩

theorem rel_of_mem_after (h : (after (e :: es) cs).Pairwise R) (hx : x ∈ after (e :: es) cs) :
    x = e ∨ R e x := by
  cases cs with
  | nil => cases hx
  | cons c cs =>
    rw [after_cons, List.cons_append] at h hx
    exact (List.mem_cons.mp hx).imp_right ((List.pairwise_cons.mp h).1 x)

end

/-! ## An insertion and a cut -/

section
variable {l : List β} {x : β}

theorem insertIdx_append (l r : List β) (x : β) : (l ++ r).insertIdx l.length x = l ++ x :: r := by
  induction l with
  | nil => rfl
  | cons y l ih => rw [List.cons_append, List.length_cons, List.insertIdx_succ_cons, ih,
      List.cons_append]

theorem take_insertIdx (h : i ≤ m) : (l.insertIdx i x).take (m + 1) = (l.take m).insertIdx i x := by
  induction l generalizing i m with
  | nil =>
    cases i with
    | zero => simp
    | succ i => simp
  | cons y l ih =>
    cases i with
    | zero => simp
    | succ i =>
      cases m with
      | zero => omega
      | succ m =>
        rw [List.insertIdx_succ_cons, List.take_succ_cons, List.take_succ_cons,
          List.insertIdx_succ_cons, ih (by omega)]

theorem drop_insertIdx (h : i ≤ m) : (l.insertIdx i x).drop (m + 1) = l.drop m := by
  induction l generalizing i m with
  | nil =>
    cases i with
    | zero => simp
    | succ i => simp
  | cons y l ih =>
    cases i with
    | zero => simp
    | succ i =>
      cases m with
      | zero => omega
      | succ m => rw [List.insertIdx_succ_cons, List.drop_succ_cons, List.drop_succ_cons,
          ih (by omega)]

theorem drop_insertIdx_of_le (h : m ≤ i) (hi : i ≤ l.length) :
    (l.insertIdx i x).drop m = (l.drop m).insertIdx (i - m) x := by
  induction m generalizing l i with
  | zero => simp
  | succ m ih =>
    cases l with
    | nil =>
      rw [List.length_nil] at hi
      omega
    | cons y l =>
      cases i with
      | zero => omega
      | succ i =>
        rw [List.insertIdx_succ_cons, List.drop_succ_cons, List.drop_succ_cons,
          ih (by omega) (Nat.le_of_succ_le_succ hi), Nat.add_sub_add_right]

end

end Separated
