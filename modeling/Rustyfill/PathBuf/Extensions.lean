import Rustyfill.PathBuf.Pushing

/-!
# Extensions

One reservation, before the path is cut, is enough for the dot and the extension behind the file
stem or the file name.
-/

namespace Rustyfill.PathBuf

open Guarded Collections

set_option autoImplicit false

variable {E : Type} {P : FileNames} {w : World OsString} {ext : Bytes} {stop : Nat}

/-- The path is the same as the one before, and there was no panic and no abort. -/
def Unchanged (w : World OsString) (e : Exit E) (w' : World OsString) : Prop :=
  (∃ r, e = .error r) ∧ w'.store.elems = w.store.elems

theorem push_meets_room {s : Bytes} {Q : Unit → World OsString → Prop}
    {F : Exit E → World OsString → Prop} (h : s.length ≤ w.store.capacity - w.store.len) :
    (push s).Meets w Q F ↔ Q () { w with store := appended w.store s h } := by
  rw [Body.Meets, push_room h]

theorem pushDotted_spec (hroom : ext.length + 1 ≤ w.store.capacity - w.store.len) :
    (push [46] >>= fun _ => push ext : PathMethod E Unit).Meets w
      (fun _ w' => w'.store.elems = w.store.elems ++ 46 :: ext ∧ w'.memory = w.memory)
      (fun _ _ => False) := by
  have hdot : ([46] : Bytes).length ≤ w.store.capacity - w.store.len := by
    rw [List.length_singleton]
    omega
  have hlen : (appended w.store [46] hdot).len = w.store.len + 1 := List.length_append
  have hext : ext.length ≤
      (appended w.store [46] hdot).capacity - (appended w.store [46] hdot).len := by
    rw [hlen]
    simp only [appended]
    omega
  rw [Body.meets_bind, push_meets_room hdot, push_meets_room hext]
  refine ⟨?_, rfl⟩
  simp only [appended, List.append_assoc, List.singleton_append]

theorem room_truncate {n : Nat} (hroom : n ≤ w.store.capacity - w.store.len) :
    n ≤ (w.store.truncate stop).capacity - (w.store.truncate stop).len := by
  have hle : (w.store.truncate stop).len ≤ w.store.len := List.length_take_le' ..
  simp only [Buffer.truncate, Buffer.len] at hroom hle ⊢
  omega

theorem truncateTo_meets {Q : Unit → World OsString → Prop} {F : Exit E → World OsString → Prop} :
    (truncateTo stop).Meets w Q F ↔ Q () { w with store := w.store.truncate stop } := Iff.rfl

theorem store_meets {Q : OsString → World OsString → Prop} {F : Exit E → World OsString → Prop} :
    (store : PathMethod E OsString).Meets w Q F ↔ Q w.store w := Iff.rfl

theorem fail_meets {R : Type} {e : E} {Q : R → World OsString → Prop}
    {F : Exit E → World OsString → Prop} :
    (fail e : PathMethod E R).Meets w Q F ↔ F (.error e) w := Iff.rfl

theorem setExtension_spec (hroom : ext ≠ [] → ext.length + 1 ≤ w.store.capacity - w.store.len) :
    (setExtension stop ext : PathMethod E Unit).Meets w
      (fun _ w' => w'.store.elems = w.store.elems.take stop ++ FileNames.dotted ext ∧
        w'.memory = w.memory)
      (fun _ _ => False) := by
  rw [setExtension, Body.meets_bind, truncateTo_meets]
  by_cases hext : ext = []
  · subst hext
    exact ⟨(List.append_nil _).symm, rfl⟩
  · have hcut := @room_truncate w stop _ (hroom hext)
    have hexact : (reserveExact (ext.length + 1) : PathMethod E Unit)
        { w with store := w.store.truncate stop } =
        (.ok (), { w with store := w.store.truncate stop }) := if_pos hcut
    rw [if_pos hext, Body.meets_bind]
    simp only [Body.Meets, hexact, FileNames.dotted, if_neg hext]
    exact pushDotted_spec hcut

/-- What is asked for before anything is changed. -/
def setReserves (ext : Bytes) : Nat := if ext = [] then 0 else ext.length + 1

theorem after_zero (s : Space) : (s.after 0).memory = s.memory := by
  rw [Space.after_of_le (Nat.zero_le _)]

theorem trySetExtension_spec (P : FileNames) (ext : Bytes) (w : World OsString) :
    (trySetExtension P ext).Meets w
      (fun _ w' => P.setExtension w.store.elems ext = (w'.store.elems, true) ∧
        w'.memory = ((spaceOf w).after (setReserves ext)).memory)
      (Unchanged w) := by
  rw [trySetExtension, Body.meets_bind, store_meets, FileNames.setExtension]
  cases P.stemEnd w.store.elems with
  | none => exact ⟨⟨_, rfl⟩, rfl⟩
  | some stop =>
    by_cases hsep : ext.any P.isSeparator = true
    · simp only [if_pos hsep]
      rw [Body.meets_bind]
      exact ⟨⟨_, rfl⟩, rfl⟩
    · simp only [if_neg hsep]
      by_cases hext : ext = []
      · subst hext
        change Body.Meets (setExtension stop []) w _ _
        apply (setExtension_spec fun h => absurd rfl h).mono
        · rintro _ w' ⟨helems, hmemory⟩
          refine ⟨by rw [helems], ?_⟩
          rw [hmemory]
          exact (after_zero (spaceOf w)).symm
        · intro _ _ h
          exact h.elim
      · have hreserves : setReserves ext = ext.length + 1 := if_neg hext
        simp only [ne_eq, hext, not_false_eq_true, if_true, hreserves]
        by_cases hbound : ext.length + 1 ≤ usizeMax
        · simp only [checkedAdd, if_pos hbound]
          rw [Body.meets_bind]
          apply (reserve_spec (n := ext.length + 1)).mono
          · rintro _ w₁ ⟨-, helems, -, hmemory, hroom⟩
            apply (setExtension_spec fun _ => hroom).mono
            · rintro _ w₂ ⟨helems₂, hmemory₂⟩
              rw [helems₂, helems, hmemory₂]
              exact ⟨rfl, hmemory⟩
            · intro _ _ h
              exact h.elim
          · rintro e w₁ ⟨⟨r, rfl⟩, hstore, -⟩
            exact ⟨⟨_, rfl⟩, congrArg Buffer.elems hstore⟩
        · simp only [checkedAdd, if_neg hbound]
          rw [Body.meets_bind, fail_meets]
          exact ⟨⟨_, rfl⟩, rfl⟩

/-- The bytes that are to come, less those that are cut off. -/
def addReserves (P : FileNames) (path ext : Bytes) : Nat :=
  match P.nameEnd path with
  | none => 0
  | some stop => if ext = [] then 0 else ext.length + 1 - (path.length - stop)

theorem nameEnd_le {path : Bytes} (h : P.nameEnd path = some stop) : stop ≤ path.length := by
  rw [FileNames.nameEnd, Option.map_eq_some_iff] at h
  obtain ⟨file, hfile, rfl⟩ := h
  exact P.inside path file hfile

theorem cutAndAppend_spec (hstop : stop ≤ w.store.elems.length)
    (hroom : ext.length + 1 - (w.store.len - stop) ≤ w.store.capacity - w.store.len) :
    (do
      truncateTo stop
      push [46]
      push ext
      return true : PathMethod E Bool).Meets w
      (fun added w' => added = true ∧ w'.store.elems = w.store.elems.take stop ++ 46 :: ext ∧
        w'.memory = w.memory)
      (fun _ _ => False) := by
  have hwithin := w.store.room
  have hlen : (w.store.truncate stop).len = stop := by
    rw [Buffer.len, Buffer.truncate_elems, List.length_take]
    exact Nat.min_eq_left hstop
  have hcut : ext.length + 1 ≤
      (w.store.truncate stop).capacity - (w.store.truncate stop).len := by
    rw [hlen]
    simp only [Buffer.truncate, Buffer.len] at hroom ⊢
    omega
  have hdotted := pushDotted_spec (E := E) (w := { w with store := w.store.truncate stop }) hcut
  rw [Body.meets_bind, truncateTo_meets, Body.meets_bind]
  rw [Body.meets_bind] at hdotted
  apply hdotted.mono
  · intro _ w₁ hpushed
    rw [Body.meets_bind]
    apply hpushed.mono
    · rintro _ w₂ ⟨helems, hmemory⟩
      exact ⟨rfl, helems, hmemory⟩
    · intro _ _ h
      exact h
  · intro _ _ h
    exact h

theorem tryAddExtension_spec (P : FileNames) (ext : Bytes) (w : World OsString) :
    (tryAddExtension P ext).Meets w
      (fun added w' => P.addExtension w.store.elems ext = (w'.store.elems, added) ∧
        w'.memory = ((spaceOf w).after (addReserves P w.store.elems ext)).memory)
      (Unchanged w) := by
  by_cases hsep : ext.any P.isSeparator = true
  · simp only [tryAddExtension, if_pos hsep]
    rw [Body.meets_bind]
    exact ⟨⟨_, rfl⟩, rfl⟩
  · simp only [tryAddExtension, if_neg hsep]
    rw [Body.meets_bind, store_meets, FileNames.addExtension, addReserves]
    cases hname : P.nameEnd w.store.elems with
    | none => exact ⟨rfl, (after_zero (spaceOf w)).symm⟩
    | some stop =>
      by_cases hext : ext = []
      · simp only [if_pos hext]
        exact ⟨rfl, (after_zero (spaceOf w)).symm⟩
      · have hstop := nameEnd_le hname
        simp only [if_neg hext]
        by_cases hbound : ext.length + 1 ≤ usizeMax
        · simp only [checkedAdd, if_pos hbound]
          by_cases hneeded : 0 < ext.length + 1 - (w.store.len - stop)
          · simp only [if_pos hneeded]
            rw [Body.meets_bind]
            apply (reserve_spec (n := ext.length + 1 - (w.store.len - stop))).mono
            · rintro _ w₁ ⟨-, helems, -, hmemory, hroom⟩
              have hlen : w₁.store.len = w.store.len := congrArg List.length helems
              rw [← hlen] at hroom
              apply (cutAndAppend_spec (helems ▸ hstop) hroom).mono
              · rintro added w₂ ⟨rfl, helems₂, hmemory₂⟩
                rw [helems₂, helems, hmemory₂, FileNames.dotted, if_neg hext]
                exact ⟨rfl, hmemory⟩
              · intro _ _ h
                exact h.elim
            · rintro e w₁ ⟨⟨r, rfl⟩, hstore, -⟩
              exact ⟨⟨_, rfl⟩, congrArg Buffer.elems hstore⟩
          · have hzero : ext.length + 1 - (w.store.elems.length - stop) = 0 :=
              Nat.eq_zero_of_not_pos hneeded
            simp only [if_neg hneeded]
            apply (cutAndAppend_spec hstop (by rw [Buffer.len, hzero]; exact Nat.zero_le _)).mono
            · rintro added w₁ ⟨rfl, helems, hmemory⟩
              rw [helems, hmemory, FileNames.dotted, if_neg hext, hzero]
              exact ⟨rfl, (after_zero (spaceOf w)).symm⟩
            · intro _ _ h
              exact h.elim
        · simp only [checkedAdd, if_neg hbound]
          exact ⟨⟨_, rfl⟩, rfl⟩

/-- On success the path is that of `std` and nothing was asked for but the one reservation; on
an error the path is as it was. -/
theorem extensions_as_std (P : FileNames) (ext : Bytes) (w : World OsString) :
    (trySetExtension P ext).Meets w
      (fun _ w' => P.setExtension w.store.elems ext = (w'.store.elems, true) ∧
        w'.memory = ((spaceOf w).after (setReserves ext)).memory)
      (Unchanged w) ∧
    (tryAddExtension P ext).Meets w
      (fun added w' => P.addExtension w.store.elems ext = (w'.store.elems, added) ∧
        w'.memory = ((spaceOf w).after (addReserves P w.store.elems ext)).memory)
      (Unchanged w) :=
  ⟨trySetExtension_spec P ext w, tryAddExtension_spec P ext w⟩

end Rustyfill.PathBuf
