import Rustyfill.Collections.Collected
import Rustyfill.PathBuf.Methods

/-!
# What a push makes of a path

The steps of `inner_push` one by one, then the path it makes, compared with that of
`PathBuf::push`, and the path it leaves when a reservation is refused.
-/

namespace Rustyfill.PathBuf

open Guarded Collections

set_option autoImplicit false

section
variable {C D E R T : Type} {w : World OsString}

theorem onLocal_meets {init : D} {p : Method D E Unit} {w : World C} {Q : D → World C → Prop}
    {F : Exit E → World C → Prop} : (onLocal init p).Meets w Q F ↔
      p.Meets ⟨init, w.memory, w.calls⟩
        (fun _ w' => Q w'.store ⟨w.store, w'.memory, w'.calls⟩)
        (fun e w' => F e ⟨w.store, w'.memory, w'.calls⟩) := by
  simp only [Body.Meets, onLocal]
  rcases p ⟨init, w.memory, w.calls⟩ with ⟨_ | _, w'⟩
  · rfl
  · rfl

/-! ## Room -/

/-- What a reservation depends on. -/
structure Space where
  capacity : Nat
  len : Nat
  memory : Memory

def spaceOf (w : World OsString) : Space := ⟨w.store.capacity, w.store.len, w.memory⟩

namespace Space

/-- Room for `n` more bytes is there or is granted. -/
def Fits (s : Space) (n : Nat) : Prop :=
  n ≤ s.capacity - s.len ∨ byte.fits (byte.amortized s.capacity (s.len + n)) ∧
    s.memory.grants s.memory.requests (byte.amortized s.capacity (s.len + n) * byte.size) = true

/-- After `n` more bytes. -/
def after (s : Space) (n : Nat) : Space :=
  if n ≤ s.capacity - s.len then ⟨s.capacity, s.len + n, s.memory⟩
  else ⟨max s.capacity (byte.amortized s.capacity (s.len + n)), s.len + n,
    ⟨s.memory.grants, s.memory.requests + 1⟩⟩

def cleared (s : Space) : Space := ⟨s.capacity, 0, s.memory⟩

@[simp] theorem after_len (s : Space) (n : Nat) : (s.after n).len = s.len + n := by
  rw [after]
  split
  · rfl
  · rfl

theorem after_of_le {s : Space} {n : Nat} (h : n ≤ s.capacity - s.len) :
    s.after n = ⟨s.capacity, s.len + n, s.memory⟩ :=
  if_pos h

theorem after_of_not_le {s : Space} {n : Nat} (h : ¬ n ≤ s.capacity - s.len) :
    s.after n = ⟨max s.capacity (byte.amortized s.capacity (s.len + n)), s.len + n,
      ⟨s.memory.grants, s.memory.requests + 1⟩⟩ :=
  if_neg h

end Space

theorem push_room {s : Bytes} (h : s.length ≤ w.store.capacity - w.store.len) :
    (push s : PathMethod E Unit) w = (.ok (), { w with store := appended w.store s h }) :=
  dif_pos h

theorem reserve_spec {n : Nat} {mapErr : TryReserveError → E} :
    (Buffer.reserve byte n mapErr).Meets w
      (fun _ w' => (spaceOf w).Fits n ∧ w'.store.elems = w.store.elems ∧
        w'.store.capacity = ((spaceOf w).after n).capacity ∧
        w'.memory = ((spaceOf w).after n).memory ∧ n ≤ w'.store.capacity - w'.store.len)
      (fun e w' => (∃ r, e = .error (mapErr r)) ∧ w'.store = w.store ∧ ¬ (spaceOf w).Fits n) := by
  have hroom := w.store.room
  by_cases henough : n ≤ w.store.capacity - w.store.len
  · have hres : w.store.tryReserve byte n w.memory = (.ok w.store, w.memory) := if_pos henough
    simp only [Body.Meets, Buffer.reserve, hres]
    have hafter := Space.after_of_le (s := spaceOf w) henough
    refine ⟨.inl henough, trivial, ?_, ?_, henough⟩
    · rw [hafter]
      rfl
    · rw [hafter]
      rfl
  · by_cases hfits : byte.fits (byte.amortized w.store.capacity (w.store.len + n))
    · have hcond : byte.size ≠ 0 ∧
          byte.fits (byte.amortized w.store.capacity (w.store.len + n)) := ⟨by decide, hfits⟩
      by_cases hgrant : w.memory.grants w.memory.requests
          (byte.amortized w.store.capacity (w.store.len + n) * byte.size) = true
      · simp only [Body.Meets, Buffer.reserve, Buffer.tryReserve, if_neg henough, dif_pos hcond,
          Memory.request, hgrant]
        have hafter := Space.after_of_not_le (s := spaceOf w) henough
        refine ⟨.inr ⟨hfits, hgrant⟩, rfl, ?_, ?_, ?_⟩
        · rw [hafter]
          rfl
        · rw [hafter]
          rfl
        · simp only [Buffer.withCapacity, Buffer.len, Layout.amortized]
          simp only [Buffer.len] at henough
          omega
      · have hrefused : w.memory.grants w.memory.requests
            (byte.amortized w.store.capacity (w.store.len + n) * byte.size) = false :=
          Bool.eq_false_iff.mpr hgrant
        simp only [Body.Meets, Buffer.reserve, Buffer.tryReserve, if_neg henough, dif_pos hcond,
          Memory.request, hrefused]
        refine ⟨⟨_, rfl⟩, trivial, ?_⟩
        rintro (h | ⟨-, h⟩)
        · exact henough h
        · exact hgrant h
    · have hcond : ¬ (byte.size ≠ 0 ∧
          byte.fits (byte.amortized w.store.capacity (w.store.len + n))) := fun h => hfits h.2
      simp only [Body.Meets, Buffer.reserve, Buffer.tryReserve, if_neg henough, dif_neg hcond]
      refine ⟨⟨_, rfl⟩, trivial, ?_⟩
      rintro (h | ⟨h, -⟩)
      · exact henough h
      · exact hfits h

theorem osTryPush_spec (s : Bytes) : (osTryPush s).Meets w
    (fun _ w' => w'.store.elems = w.store.elems ++ s ∧ (spaceOf w).Fits s.length ∧
      spaceOf w' = (spaceOf w).after s.length)
    (fun e w' => (∃ r, e = .error r) ∧ w'.store = w.store ∧ ¬ (spaceOf w).Fits s.length) := by
  by_cases hs : s = []
  · subst hs
    have hroom : ([] : Bytes).length ≤ w.store.capacity - w.store.len := Nat.zero_le _
    have hrun : osTryPush [] w = (.ok (), { w with store := appended w.store [] hroom }) :=
      push_room hroom
    simp only [Body.Meets, hrun]
    refine ⟨rfl, .inl (Nat.zero_le _), ?_⟩
    have hafter := Space.after_of_le (s := spaceOf w) hroom
    rw [hafter]
    simp [spaceOf, appended, Buffer.len]
  · rw [osTryPush, if_pos hs, Body.meets_bind]
    apply (reserve_spec (n := s.length)).mono
    · rintro _ w' ⟨hfits, helems, hcap, hmem, hroom⟩
      simp only [Body.Meets, push_room hroom]
      have happended : (appended w'.store s hroom).elems = w.store.elems ++ s :=
        congrArg (· ++ s) helems
      refine ⟨happended, hfits, ?_⟩
      have hlen : (appended w'.store s hroom).len = w.store.len + s.length := by
        rw [Buffer.len, happended, List.length_append]
        rfl
      have hlen' : ((spaceOf w).after s.length).len = w.store.len + s.length :=
        Space.after_len ..
      simp only [spaceOf, hlen, hmem]
      rw [← hlen']
      exact congrArg (fun c => Space.mk c _ _) hcap
    · rintro e w' ⟨⟨r, rfl⟩, hstore, hfits⟩
      exact ⟨⟨r, rfl⟩, hstore, hfits⟩

/-! ## Components -/

theorem vecTryPush_spec {l : Layout} {w : World (Buffer T)} (x : T) : (vecTryPush l x).Meets w
    (fun _ w' => w'.store.elems = w.store.elems ++ [x]) (fun e _ => ∃ r, e = .error r) := by
  rw [vecTryPush, Body.meets_bind]
  rcases hres : w.store.tryReserve l 1 w.memory with ⟨e | b, m⟩
  · simp only [Body.Meets, Buffer.reserve, hres]
    exact ⟨e, rfl⟩
  · obtain ⟨helems, hroom⟩ := Buffer.tryReserve_ok hres
    have hlt : b.len < b.capacity := by
      rw [Buffer.len, helems]
      exact hroom
    simp only [Body.Meets, Buffer.reserve, hres, Buffer.push, dif_pos hlt]
    exact congrArg (· ++ [x]) helems

theorem vecTruncate_meets {n : Nat} {w : World (Buffer T)} {Q : Unit → World (Buffer T) → Prop}
    {F : Exit E → World (Buffer T) → Prop} :
    (vecTruncate n).Meets w Q F ↔ Q () { w with store := w.store.truncate n } := Iff.rfl

variable {P : Platform} {component : Layout}

theorem appendComponent_spec (c : Component) (w : World (Buffer Component)) :
    (appendComponent component c).Meets w
      (fun _ w' => w'.store.elems = Platform.normalizeStep w.store.elems c)
      (fun e _ => ∃ r, e = .error r) := by
  cases c with
  | pre raw kind => exact vecTryPush_spec _
  | rootDir =>
    rw [appendComponent, Body.meets_bind, vecTruncate_meets]
    exact vecTryPush_spec _
  | curDir => exact rfl
  | parentDir =>
    have hstore : (store : Method (Buffer Component) TryReserveError _).Meets w
        (fun b w' => b = w.store ∧ w' = w) (fun e _ => ∃ r, e = .error r) := ⟨rfl, rfl⟩
    rw [appendComponent, Body.meets_bind]
    apply hstore.mono
    · rintro b w' ⟨rfl, rfl⟩
      by_cases hnormal : (w'.store.elems.getLast?.map Component.isNormal).getD false = true
      · rw [if_pos hnormal, vecTruncate_meets, Platform.normalizeStep, if_pos hnormal,
          List.dropLast_eq_take]
        rfl
      · rw [if_neg hnormal, Platform.normalizeStep, if_neg hnormal]
        exact rfl
    · intro e _ he
      exact he
  | normal name => exact vecTryPush_spec _

theorem appendNormalized_spec (path : Bytes) (w : World (Buffer Component)) :
    (appendNormalized P component path).Meets w
      (fun _ w' => w'.store.elems =
        (P.components path).foldl Platform.normalizeStep w.store.elems)
      (fun e _ => ∃ r, e = .error r) := by
  have hloop := @Body.forEach_meets (World (Buffer Component)) (Exit TryReserveError) Component w
    (fun e _ => ∃ r, e = .error r) (appendComponent component)
    (fun done w' => w'.store.elems = done.foldl Platform.normalizeStep w.store.elems)
    (P.components path) ?_ rfl
  · exact hloop
  · intro done c rest w' _ hdone
    apply (appendComponent_spec c w').mono
    · intro _ w'' helems
      rw [helems, hdone, List.foldl_append]
      rfl
    · intro e _ he
      exact he

theorem tryCollect_spec (path : Bytes) (w : World (Buffer Component)) :
    (Vec.tryCollect component (componentsIter P path)).Meets w
      (fun _ w' => w'.store.elems = w.store.elems ++ P.components path)
      (fun e _ => ∃ r, e = .error r) := by
  have hpush : ∀ (c : Component) (w : World (Buffer Component)),
      ((Buffer.collector component id).pushItem c).Meets w
        (fun _ w' => w'.store.elems = w.store.elems ++ [c])
        (fun (e : Exit TryReserveError) _ => ∃ r, e = .error r) := by
    intro c w
    change Body.Meets (if w.store.len = w.store.capacity then _ else _) w _ _
    by_cases hfull : w.store.len = w.store.capacity
    · rw [if_pos hfull]
      exact vecTryPush_spec c
    · have hlt : w.store.len < w.store.capacity := Nat.lt_of_le_of_ne w.store.room hfull
      rw [if_neg hfull]
      have hrun : (Buffer.push component c : Method (Buffer Component) TryReserveError Unit) w =
          (.ok (), { w with store := w.store.append c hlt }) := dif_pos hlt
      change Body.Meets (Buffer.push component c) w _ _
      rw [Body.Meets, hrun]
      exact rfl
  have hloop := @Body.forEach_meets (World (Buffer Component)) (Exit TryReserveError) Component w
    (fun e _ => ∃ r, e = .error r) (Buffer.collector component id).pushItem
    (fun done w' => w'.store.elems = w.store.elems ++ done) (P.components path) ?_
    (List.append_nil _).symm
  · rw [Vec.tryCollect, Collector.tryCollect_meets]
    exact hloop
  · intro done c rest w' _ hdone
    apply (hpush c w').mono
    · intro _ w'' helems
      rw [helems, hdone, List.append_assoc]
    · intro e _ he
      exact he

theorem renderComponents_spec (needSep : Bool) (cs : List Component) (w : World OsString) :
    (renderComponents P needSep cs).Meets w
      (fun _ w' => w'.store.elems = w.store.elems ++ P.render needSep cs)
      (fun (e : Exit TryReserveError) _ => ∃ r, e = .error r) := by
  induction cs generalizing needSep w with
  | nil => exact (List.append_nil _).symm
  | cons c cs ih =>
    have hrest : ∀ w₁ : World OsString, w₁.store.elems =
        w.store.elems ++ (if needSep && c ≠ .rootDir then [P.mainSeparator] else []) →
        (osTryPush (P.asOsStr c) >>= fun _ =>
          renderComponents P (Platform.sepAfter c) cs).Meets w₁
          (fun _ w' => w'.store.elems = w.store.elems ++ P.render needSep (c :: cs))
          (fun (e : Exit TryReserveError) _ => ∃ r, e = .error r) := by
      intro w₁ h₁
      rw [Body.meets_bind]
      apply (osTryPush_spec (P.asOsStr c)).mono
      · rintro _ w₂ ⟨h₂, -, -⟩
        apply (ih (Platform.sepAfter c) w₂).mono
        · intro _ w₃ h₃
          rw [h₃, h₂, h₁, Platform.render]
          simp only [List.append_assoc]
        · intro e _ he
          exact he
      · rintro e _ ⟨he, -, -⟩
        exact he
    by_cases hsep : (needSep && c ≠ .rootDir) = true
    · rw [if_pos hsep] at hrest
      rw [renderComponents, if_pos hsep, Body.meets_bind]
      apply (osTryPush_spec [P.mainSeparator]).mono
      · rintro _ w₁ ⟨h₁, -, -⟩
        exact hrest w₁ h₁
      · rintro e _ ⟨he, -, -⟩
        exact he
    · rw [if_neg hsep] at hrest
      rw [renderComponents, if_neg hsep]
      exact hrest w (List.append_nil _).symm

theorem pushVerbatimNormalized_spec (path : Bytes) (w : World OsString) :
    (pushVerbatimNormalized P component path).Meets w
      (fun _ w' => w'.store.elems = P.render false
        ((P.components path).foldl Platform.normalizeStep (P.components w.store.elems)))
      (fun e w' => (∃ r, e = .error r) ∧ w'.store = w.store) := by
  have hstore : (store : PathMethod TryReserveError _).Meets w
      (fun b w' => b = w.store ∧ w' = w)
      (fun e w' => (∃ r, e = .error r) ∧ w'.store = w.store) := ⟨rfl, rfl⟩
  rw [pushVerbatimNormalized, Body.meets_bind]
  apply hstore.mono
  · rintro target w₀ ⟨rfl, rfl⟩
    rw [Body.meets_bind, onLocal_meets, Body.meets_bind]
    apply (tryCollect_spec w₀.store.elems _).mono
    · intro _ w₁ h₁
      apply (appendNormalized_spec path w₁).mono
      · intro _ w₂ h₂
        rw [Body.meets_bind, onLocal_meets]
        apply (renderComponents_spec false w₂.store.elems _).mono
        · intro _ w₃ h₃
          rw [h₂, h₁] at h₃
          exact h₃
        · intro e _ he
          exact ⟨he, rfl⟩
      · intro e _ he
        exact ⟨he, rfl⟩
    · intro e _ he
      exact ⟨he, rfl⟩
  · intro e _ he
    exact he

end

/-! ## `inner_push` -/

section
variable (P : Platform) (component : Layout) {w w' : World OsString} {base child : Bytes}

/-- The path that `inner_push` makes. -/
def pushedPath (base child : Bytes) : Bytes :=
  if P.needClear child then child
  else
    match P.pathPrefix base with
    | some p =>
      if p.isVerbatim && child ≠ [] then
        P.render false ((P.components child).foldl Platform.normalizeStep (P.components base))
      else base ++ child
    | none =>
      if P.hasRoot child then child
      else if P.needSep base then base ++ [P.mainSeparator] ++ child
      else base ++ child

/-- A reservation is refused after the path was cleared, or got a separator. -/
def Loses (w : World OsString) (child : Bytes) : Prop :=
  if P.needClear child = true ∨
      P.pathPrefix w.store.elems = none ∧ P.hasRoot child = true then
    w.store.elems ≠ [] ∧ ¬ (spaceOf w).cleared.Fits child.length
  else P.pathPrefix w.store.elems = none ∧ P.needSep w.store.elems = true ∧
    (spaceOf w).Fits 1 ∧ ¬ ((spaceOf w).after 1).Fits child.length

/-- A push of `std` puts something between the path and the child, or takes something away. -/
def Diverges (base child : Bytes) : Prop :=
  P.needClear child = false ∧ ∃ p ∈ P.pathPrefix base, (p.isVerbatim = true → child = []) ∧
    if P.hasRoot child then p.len < base.length else P.needSep base = true

variable {P}

theorem loses_of_replaced (h : P.needClear child = true ∨
    P.pathPrefix w.store.elems = none ∧ P.hasRoot child = true) : Loses P w child ↔
      w.store.elems ≠ [] ∧ ¬ (spaceOf w).cleared.Fits child.length := by
  rw [Loses, if_pos h]

theorem not_loses_of_prefix {p : Prefix} (hclear : ¬ P.needClear child = true)
    (hp : P.pathPrefix w.store.elems = some p) : ¬ Loses P w child := by
  have hkept : ¬ (P.needClear child = true ∨
      P.pathPrefix w.store.elems = none ∧ P.hasRoot child = true) := by
    rintro (h | ⟨h, -⟩)
    · exact hclear h
    · rw [hp] at h
      cases h
  rw [Loses, if_neg hkept, hp]
  rintro ⟨h, -⟩
  cases h

theorem loses_of_relative (hclear : ¬ P.needClear child = true)
    (hroot : ¬ P.hasRoot child = true) (hp : P.pathPrefix w.store.elems = none) :
    Loses P w child ↔ P.needSep w.store.elems = true ∧ (spaceOf w).Fits 1 ∧
      ¬ ((spaceOf w).after 1).Fits child.length := by
  have hkept : ¬ (P.needClear child = true ∨
      P.pathPrefix w.store.elems = none ∧ P.hasRoot child = true) := by
    rintro (h | ⟨-, h⟩)
    · exact hclear h
    · exact hroot h
  rw [Loses, if_neg hkept, hp]
  exact and_iff_right rfl

theorem findPrefix_eq (path : Bytes) : findPrefix P path = P.pathPrefix path := by
  have hfirst := P.prefixFirst path
  rw [findPrefix, Platform.pathPrefix]
  cases hcs : P.components path with
  | nil => rfl
  | cons c cs =>
    rw [hcs, List.tail_cons] at hfirst
    have hrest : cs.findSome? Component.kind? = none := List.findSome?_eq_none_iff.mpr hfirst
    rw [List.findSome?_cons, hrest, List.head?_cons, Option.bind_some]
    cases c.kind? with
    | none => rfl
    | some p => rfl

theorem targetNeedsSep_eq (path : Bytes) : targetNeedsSep P path = P.needSep path := by
  simp only [targetNeedsSep, findPrefix_eq]
  rfl

theorem push_eq (P : Platform) (base child : Bytes) : P.push base child =
    if P.needClear child then child
    else
      match P.pathPrefix base with
      | some p =>
        if p.isVerbatim && child ≠ [] then
          P.render false ((P.components child).foldl Platform.normalizeStep (P.components base))
        else if P.hasRoot child then base.take p.len ++ child
        else if P.needSep base then base ++ [P.mainSeparator] ++ child
        else base ++ child
      | none =>
        if P.hasRoot child then child
        else if P.needSep base then base ++ [P.mainSeparator] ++ child
        else base ++ child := by
  rw [Platform.push]
  cases P.pathPrefix base with
  | none => rfl
  | some p => rfl

theorem pushedPath_eq_iff : pushedPath P base child = P.push base child ↔
    ¬ Diverges P base child := by
  rw [pushedPath, push_eq, Diverges]
  by_cases hclear : P.needClear child = true
  · rw [if_pos hclear, if_pos hclear, hclear]
    simp
  · rw [if_neg hclear, if_neg hclear, Bool.eq_false_iff.mpr hclear]
    cases hpre : P.pathPrefix base with
    | none => simp
    | some p =>
      by_cases hverbatim : (p.isVerbatim && decide (child ≠ [])) = true
      · have hkept : p.isVerbatim = true ∧ child ≠ [] := by simpa using hverbatim
        simp only [if_pos hverbatim, true_iff, not_and, not_exists]
        rintro - q hq himp
        cases hq
        exact absurd (himp hkept.1) hkept.2
      · have hbare : p.isVerbatim = true → child = [] := by simpa using hverbatim
        simp only [if_neg hverbatim]
        by_cases hroot : P.hasRoot child = true
        · simp only [if_pos hroot]
          constructor
          · rintro hsame ⟨-, q, hq, -, hlt⟩
            cases hq
            have hlen := congrArg List.length hsame
            simp only [List.length_append, List.length_take] at hlen
            omega
          · intro hnot
            have hle : base.length ≤ p.len := by
              by_contra hlt
              exact hnot ⟨trivial, p, rfl, hbare, Nat.lt_of_not_le hlt⟩
            rw [List.take_of_length_le hle]
        · simp only [if_neg hroot]
          by_cases hsep : P.needSep base = true
          · rw [if_pos hsep]
            constructor
            · intro hsame
              have hlen := congrArg List.length hsame
              simp at hlen
            · intro hnot
              exact absurd ⟨trivial, p, rfl, hbare, hsep⟩ hnot
          · rw [if_neg hsep]
            simp only [true_iff]
            rintro ⟨-, q, -, -, hneed⟩
            exact hsep hneed

theorem replace_spec (child : Bytes) :
    (truncateTo 0 >>= fun _ => osTryPush child).Meets w
      (fun _ w' => w'.store.elems = child ∧ (spaceOf w).cleared.Fits child.length)
      (fun e w' => (∃ r, e = .error r) ∧ w'.store.elems = [] ∧
        ¬ (spaceOf w).cleared.Fits child.length) := by
  have htruncate : (truncateTo 0 : PathMethod TryReserveError Unit) w =
      (.ok (), { w with store := w.store.truncate 0 }) := rfl
  have hspace : spaceOf { w with store := w.store.truncate 0 } = (spaceOf w).cleared := rfl
  rw [Body.meets_bind]
  simp only [Body.Meets, htruncate]
  apply (osTryPush_spec child).mono
  · rintro _ w' ⟨helems, hfits, -⟩
    exact ⟨helems, hspace ▸ hfits⟩
  · rintro e w' ⟨he, hstore, hfits⟩
    refine ⟨he, ?_, hspace ▸ hfits⟩
    rw [hstore]
    rfl

theorem replaced_spec (child : Bytes) :
    (truncateTo 0 >>= fun _ => osTryPush child).Meets w
      (fun _ w' => w'.store.elems = child ∧
        ¬ (w.store.elems ≠ [] ∧ ¬ (spaceOf w).cleared.Fits child.length))
      (fun e w' => (∃ r, e = .error r) ∧ (w'.store.elems = w.store.elems ↔
        ¬ (w.store.elems ≠ [] ∧ ¬ (spaceOf w).cleared.Fits child.length))) := by
  apply (replace_spec child).mono
  · rintro _ w' ⟨helems, hfits⟩
    exact ⟨helems, fun h => h.2 hfits⟩
  · rintro e w' ⟨he, helems, hfits⟩
    refine ⟨he, ?_⟩
    rw [helems]
    constructor
    · intro hsame h
      exact h.1 hsame.symm
    · intro hnot
      by_contra hne
      exact hnot ⟨fun h => hne h.symm, hfits⟩

theorem append_spec (child : Bytes) : (osTryPush child).Meets w
    (fun _ w' => w'.store.elems = w.store.elems ++ child)
    (fun e w' => (∃ r, e = .error r) ∧ w'.store.elems = w.store.elems) := by
  apply (osTryPush_spec child).mono
  · rintro _ w' ⟨helems, -⟩
    exact helems
  · rintro e w' ⟨he, hstore, -⟩
    exact ⟨he, congrArg Buffer.elems hstore⟩

theorem separate_spec (sep : UInt8) (child : Bytes) :
    (osTryPush [sep] >>= fun _ => osTryPush child).Meets w
      (fun _ w' => w'.store.elems = w.store.elems ++ [sep] ++ child ∧
        ¬ ((spaceOf w).Fits 1 ∧ ¬ ((spaceOf w).after 1).Fits child.length))
      (fun e w' => (∃ r, e = .error r) ∧ (w'.store.elems = w.store.elems ↔
        ¬ ((spaceOf w).Fits 1 ∧ ¬ ((spaceOf w).after 1).Fits child.length))) := by
  rw [Body.meets_bind]
  apply (osTryPush_spec [sep]).mono
  · rintro _ w₁ ⟨helems₁, hfits₁, hspace₁⟩
    apply (osTryPush_spec child).mono
    · rintro _ w₂ ⟨helems₂, hfits₂, -⟩
      rw [hspace₁] at hfits₂
      exact ⟨by rw [helems₂, helems₁], fun h => h.2 hfits₂⟩
    · rintro e w₂ ⟨he, hstore, hfits₂⟩
      rw [hspace₁] at hfits₂
      refine ⟨he, ?_⟩
      rw [hstore, helems₁]
      constructor
      · intro hsame
        have hlen := congrArg List.length hsame
        simp at hlen
      · intro hnot
        exact absurd ⟨hfits₁, hfits₂⟩ hnot
  · rintro e w₁ ⟨he, hstore, hfits⟩
    exact ⟨he, fun _ h => hfits h.1, fun _ => congrArg Buffer.elems hstore⟩

theorem innerPush_spec (child : Bytes) : (innerPush P component child).Meets w
    (fun _ w' => w'.store.elems = pushedPath P w.store.elems child ∧ ¬ Loses P w child)
    (fun e w' => (∃ r, e = .error r) ∧
      (w'.store.elems = w.store.elems ↔ ¬ Loses P w child)) := by
  have hstore : (store : PathMethod TryReserveError _).Meets w
      (fun b w' => b = w.store ∧ w' = w)
      (fun e w' => (∃ r, e = .error r) ∧
        (w'.store.elems = w.store.elems ↔ ¬ Loses P w child)) := ⟨rfl, rfl⟩
  rw [innerPush, Body.meets_bind]
  apply hstore.mono
  · rintro b w₀ ⟨rfl, rfl⟩
    simp only [findPrefix_eq, targetNeedsSep_eq]
    change Body.Meets (if P.needClear child = true then _ else _) _ _ _
    by_cases hclear : P.needClear child = true
    · rw [if_pos hclear, pushedPath, if_pos hclear, loses_of_replaced (.inl hclear)]
      exact replaced_spec child
    · rw [if_neg hclear, pushedPath, if_neg hclear]
      cases hp : P.pathPrefix w₀.store.elems with
      | some p =>
        have hnot := not_loses_of_prefix hclear hp
        by_cases hverbatim : (p.isVerbatim && decide (child ≠ [])) = true
        · simp only [if_pos hverbatim]
          apply (pushVerbatimNormalized_spec child w₀).mono
          · intro _ w₁ helems
            exact ⟨helems, hnot⟩
          · rintro e w₁ ⟨he, hstore⟩
            exact ⟨he, iff_of_true (congrArg Buffer.elems hstore) hnot⟩
        · simp only [if_neg hverbatim]
          apply (append_spec child).mono
          · intro _ w₁ helems
            exact ⟨helems, hnot⟩
          · rintro e w₁ ⟨he, hsame⟩
            exact ⟨he, iff_of_true hsame hnot⟩
      | none =>
        by_cases hroot : P.hasRoot child = true
        · simp only [if_pos hroot, loses_of_replaced (.inr ⟨hp, hroot⟩)]
          exact replaced_spec child
        · simp only [if_neg hroot, loses_of_relative hclear hroot hp]
          by_cases hsep : P.needSep w₀.store.elems = true
          · simp only [hsep, true_and]
            exact separate_spec P.mainSeparator child
          · simp only [if_neg hsep]
            have hnot : ¬ (P.needSep w₀.store.elems = true ∧ (spaceOf w₀).Fits 1 ∧
                ¬ ((spaceOf w₀).after 1).Fits child.length) := fun h => hsep h.1
            apply (append_spec child).mono
            · intro _ w₁ helems
              exact ⟨helems, hnot⟩
            · rintro e w₁ ⟨he, hsame⟩
              exact ⟨he, iff_of_true hsame hnot⟩
  · intro e _ he
    exact he

end

end Rustyfill.PathBuf
