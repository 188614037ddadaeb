import Rustyfill.Random.Linux

/-!
# What the random bytes come from

One call is followed with the events of the calls before it in hand, since the flag that the
calls share is only as good as what they left in it.
-/

namespace Rustyfill.Random

open Guarded

set_option autoImplicit false

/-! ## The buffer -/

/-- The bytes before `offset` were written by the kernel. -/
def Filled (buffer : List Byte) (offset : Nat) : Prop := ∀ b ∈ buffer.take offset, b.isSome

theorem filled_zero (buffer : List Byte) : Filled buffer 0 := by
  intro b hb
  rw [List.take_zero] at hb
  cases hb

section Buffer
variable {buffer : List Byte} {offset n : Nat} (hfits : offset + n ≤ buffer.length) (d : Device)
include hfits

theorem length_written : (written buffer offset n d).length = buffer.length := by
  simp only [written, List.length_append, List.length_take, List.length_replicate,
    List.length_drop]
  omega

theorem filled_written (h : Filled buffer offset) :
    Filled (written buffer offset n d) (offset + n) := by
  have hlen : (buffer.take offset ++ List.replicate n (some d)).length = offset + n := by
    rw [List.length_append, List.length_take, List.length_replicate]
    omega
  intro b hb
  rw [written, List.take_left' hlen, List.mem_append] at hb
  cases hb with
  | inl hb => exact h b hb
  | inr hb =>
    rw [List.eq_of_mem_replicate hb]
    rfl

end Buffer

/-! ## What holds throughout a call -/

/-- A call for `len` bytes, after calls whose events were `past`. -/
structure Inv (past : List Event) (len : Nat) (insecure : Bool) (w : World) : Prop where
  length : w.buffer.length = len
  secure : insecure = false → Secure w.events
  notAgain : NotAgain (past ++ w.events)
  cleared : Refused (past ++ w.events) → w.statics.insecureAvailable = false

/-- A routine keeps the invariant, and leaves no index out of range. -/
def Keeps {R : Type} (past : List Event) (len : Nat) (insecure : Bool) (p : Routine R) (w : World)
    (Q : R → World → Prop) : Prop :=
  p.Meets w (fun r w' => Inv past len insecure w' ∧ Q r w')
    (fun e w' => Inv past len insecure w' ∧ e ≠ .outOfRange)

section Steps
variable {k : Schedule} {past : List Event} {len : Nat} {insecure : Bool} {w : World}

theorem Keeps.bind {R S : Type} {p : Routine R} {f : R → Routine S} {Q : R → World → Prop}
    {Q' : S → World → Prop} (hp : Keeps past len insecure p w Q)
    (hf : ∀ r w', Inv past len insecure w' → Q r w' → Keeps past len insecure (f r) w' Q') :
    Keeps past len insecure (p >>= f) w Q' := by
  apply Body.meets_bind.mpr
  apply Body.Meets.mono hp
  · intro r w' h
    exact hf r w' h.1 h.2
  · intro e w' h
    exact h

theorem keeps_pure {R : Type} {r : R} {Q : R → World → Prop} (hw : Inv past len insecure w)
    (hQ : Q r w) : Keeps past len insecure (pure r) w Q :=
  ⟨hw, hQ⟩

theorem keeps_fail {R : Type} {e : RandomError} {Q : R → World → Prop}
    (hw : Inv past len insecure w) : Keeps past len insecure (fail e) w Q :=
  ⟨hw, Exit.noConfusion⟩

theorem keeps_panic {R : Type} {e : Exit} {Q : R → World → Prop} (hw : Inv past len insecure w)
    (he : e ≠ .outOfRange) : Keeps past len insecure (panic e) w Q :=
  ⟨hw, he⟩

theorem refused_snoc {es : List Event} {e : Event} :
    Refused (es ++ [e]) ↔ Refused es ∨ e = .getrandom grndInsecure (some einval) := by
  rw [Refused, List.mem_append, List.mem_singleton, Refused, eq_comm]

/-- An event that the two traces allow, and that is not the refusal of the flag. -/
theorem Inv.push {e : Event} {s : Statics} {buffer : List Byte} (hw : Inv past len insecure w)
    (hlen : buffer.length = len) (hsecure : insecure = false → SecureAfter w.events e)
    (hagain : AllowedAfter (past ++ w.events) e)
    (hflag : Refused (past ++ w.events ++ [e]) → s.insecureAvailable = false) :
    Inv past len insecure ⟨s, buffer, w.events ++ [e]⟩ where
  length := hlen
  secure h := Trace.each_snoc.mpr ⟨hw.secure h, hsecure h⟩
  notAgain := by
    rw [← List.append_assoc]
    exact Trace.each_snoc.mpr ⟨hw.notAgain, hagain⟩
  cleared := by
    rw [← List.append_assoc]
    exact hflag

theorem Inv.statics {s : Statics} (hw : Inv past len insecure w)
    (hflag : w.statics.insecureAvailable = false → s.insecureAvailable = false) :
    Inv past len insecure { w with statics := s } where
  length := hw.length
  secure := hw.secure
  notAgain := hw.notAgain
  cleared h := hflag (hw.cleared h)

/-! ## `getrandom` -/

theorem restLen_keeps (hw : Inv past len insecure w) (offset : Nat) :
    Keeps past len insecure (restLen offset) w fun n w' => w' = w ∧ n = len - offset :=
  ⟨hw, rfl, by rw [hw.length]⟩

theorem resolveGetrandom_keeps (hw : Inv past len insecure w) :
    Keeps past len insecure (resolveGetrandom k) w fun _ _ => True := by
  rw [Keeps, Body.Meets, resolveGetrandom]
  cases w.statics.getrandomFn with
  | some found => exact ⟨hw, trivial⟩
  | none => exact ⟨hw.statics id, trivial⟩

/-- The flags of a request that may still be made with them. -/
structure Flags (past : List Event) (insecure : Bool) (flags : Nat) (w : World) : Prop where
  plain : insecure = false → flags = 0
  allowed : flags = grndInsecure → ¬ Refused (past ++ w.events)

theorem getrandomFlags_keeps (hw : Inv past len insecure w) :
    Keeps past len insecure (getrandomFlags k insecure) w fun flags w' =>
      w'.buffer = w.buffer ∧ Flags past insecure flags w' := by
  cases insecure with
  | false =>
    refine keeps_pure hw ⟨rfl, fun _ => rfl, fun h => ?_⟩
    cases h
  | true =>
    have hload : Keeps past len true (loadInsecureAvailable k) w fun available w' =>
        w'.buffer = w.buffer ∧ (available = true → ¬ Refused (past ++ w'.events)) := by
      refine ⟨hw.statics fun h => ?_, rfl, fun h hrefused => ?_⟩
      · simp only [h, Bool.false_and]
      · rw [hw.cleared hrefused] at h
        cases h
    apply hload.bind
    rintro available w' hw' ⟨hbuffer, havailable⟩
    refine keeps_pure hw' ⟨hbuffer, Bool.noConfusion, fun h => ?_⟩
    cases available with
    | true => exact havailable rfl
    | false => cases h

/-- What a failed request leaves: the flag may have to be cleared before the call goes on. -/
structure Answered (past : List Event) (len : Nat) (insecure : Bool) (flags : Nat) (err : Errno)
    (w : World) : Prop where
  kept : ¬ (err = einval ∧ flags = grndInsecure) → Inv past len insecure w
  stored : Inv past len insecure
    { w with statics := { w.statics with insecureAvailable := false } }

theorem getrandomFn_meets {offset flags : Nat} (hw : Inv past len insecure w)
    (hflags : Flags past insecure flags w) (hoffset : offset ≤ len)
      (hfilled : Filled w.buffer offset) :
    (getrandomFn k offset flags).Meets w
      (fun answer w' => match answer with
        | .ok n => n ≤ len - offset ∧ Inv past len insecure w' ∧ Filled w'.buffer (offset + n)
        | .error err => w'.buffer = w.buffer ∧ Answered past len insecure flags err w')
      (fun _ _ => False) := by
  have hlen := hw.length
  rw [Body.Meets, getrandomFn]
  cases k.getrandom w.statics.now (w.buffer.length - offset) with
  | ok ret =>
    have hret := ret.is_le
    have hfits : offset + ret.val ≤ w.buffer.length := by omega
    refine ⟨by omega, hw.push ?_ hflags.plain hflags.allowed ?_, filled_written hfits _ hfilled⟩
    · rw [length_written hfits, hlen]
    · rw [refused_snoc]
      rintro (h | h)
      · exact hw.cleared h
      · cases h
  | error err =>
    have hsecure (h : insecure = false) :
        SecureAfter w.events (.getrandom flags (some (err.getD eio))) := hflags.plain h
    refine ⟨rfl, fun hne => ?_, ?_⟩
    · apply hw.push hlen hsecure hflags.allowed
      rw [refused_snoc]
      rintro (h | h)
      · exact hw.cleared h
      · injection h with hflag herr
        injection herr with herr
        exact (hne ⟨herr, hflag⟩).elim
    · exact hw.push hlen hsecure hflags.allowed fun _ => rfl

theorem getrandomLoop_keeps (fuel offset : Nat) (hw : Inv past len insecure w)
    (hoffset : offset ≤ len) (hfilled : Filled w.buffer offset) :
    Keeps past len insecure (getrandomLoop k insecure fuel offset) w fun filled w' =>
      filled = true → Filled w'.buffer len := by
  induction fuel generalizing offset w with
  | zero => exact keeps_panic hw Exit.noConfusion
  | succ fuel ih =>
    apply (restLen_keeps hw offset).bind
    rintro n w hw ⟨rfl, rfl⟩
    split
    · next hzero =>
      refine keeps_pure hw fun _ => ?_
      rwa [show len = offset by omega]
    · apply (getrandomFlags_keeps hw).bind
      rintro flags w₁ hw₁ ⟨hbuffer, hflags⟩
      rw [← hbuffer] at hfilled
      apply Body.meets_bind.mpr
      apply (getrandomFn_meets hw₁ hflags hoffset hfilled).mono
      · rintro (err | ret) w₂ h
        · obtain ⟨hbuffer₂, hanswered⟩ := h
          rw [← hbuffer₂] at hfilled
          dsimp only
          split_ifs with heintr heinval heagain henosys
          · apply ih offset (hanswered.kept _) hoffset hfilled
            rintro ⟨rfl, -⟩
            cases heintr
          · exact ih offset hanswered.stored hoffset hfilled
          · exact keeps_pure (hanswered.kept heinval) Bool.noConfusion
          · exact keeps_pure (hanswered.kept heinval) Bool.noConfusion
          · exact keeps_fail (hanswered.kept heinval)
        · obtain ⟨hret, hw₂, hfilled₂⟩ := h
          dsimp only
          rw [if_pos hret]
          exact ih (offset + ret) hw₂ (by omega) hfilled₂
      · intro e w₂ h
        exact h.elim

theorem getrandomSyscall_keeps (fuel : Nat) (hw : Inv past len insecure w) :
    Keeps past len insecure (getrandomSyscall k fuel insecure) w fun filled w' =>
      filled = true → Filled w'.buffer len := by
  apply (resolveGetrandom_keeps hw).bind
  intro found w' hw' _
  cases found with
  | true => exact getrandomLoop_keeps fuel 0 hw' (Nat.zero_le len) (filled_zero w'.buffer)
  | false => exact keeps_pure hw' Bool.noConfusion

/-! ## The device -/

/-- A secure request knows that the pool is ready. -/
def Ready (insecure : Bool) (w : World) : Prop := insecure = false → .ready ∈ w.events

theorem Inv.ready {s : Statics} (hw : Inv past len insecure w)
    (hflag : w.statics.insecureAvailable = false → s.insecureAvailable = false) :
    Inv past len insecure ⟨s, w.buffer, w.events ++ [.ready]⟩ := by
  have hsecure (_ : insecure = false) : SecureAfter w.events .ready := trivial
  apply hw.push hw.length hsecure trivial
  rw [refused_snoc]
  rintro (h | h)
  · exact hflag (hw.cleared h)
  · cases h

theorem loadUrandomReady_keeps (hw : Inv past len insecure w) :
    Keeps past len insecure (loadUrandomReady k) w fun ready w' =>
      ready = true → Ready insecure w' := by
  rw [Keeps, Body.Meets, loadUrandomReady]
  cases w.statics.urandomReady || k.readies w.statics.now with
  | true => exact ⟨hw.ready id, fun _ _ => List.mem_append_right _ (List.mem_singleton_self _)⟩
  | false => exact ⟨hw.statics id, Bool.noConfusion⟩

theorem pollLoop_keeps (fuel : Nat) (hw : Inv past len insecure w) :
    Keeps past len insecure (pollLoop k fuel) w fun _ w' => Ready insecure w' := by
  induction fuel generalizing w with
  | zero => exact keeps_panic hw Exit.noConfusion
  | succ fuel ih =>
    apply (loadUrandomReady_keeps hw).bind
    intro ready w₁ hw₁ hready
    cases ready with
    | true => exact keeps_pure hw₁ (hready rfl)
    | false =>
      have hpoll : Keeps past len insecure (poll k) w₁ fun _ _ => True := ⟨hw₁.statics id, trivial⟩
      apply hpoll.bind
      intro fd w₂ hw₂ _
      split_ifs
      · exact ⟨hw₂.ready id, fun _ => List.mem_append_right _ (List.mem_singleton_self _)⟩
      · exact keeps_panic hw₂ Exit.noConfusion
      · exact ih hw₂
      · exact keeps_fail hw₂

theorem waitForUrandomReady_keeps (fuel : Nat) (hw : Inv past len insecure w) :
    Keeps past len insecure (waitForUrandomReady k fuel insecure) w fun _ w' =>
      Ready insecure w' := by
  cases insecure with
  | true => exact keeps_pure hw Bool.noConfusion
  | false =>
    apply (loadUrandomReady_keeps hw).bind
    intro ready w₁ hw₁ hready
    cases ready with
    | true => exact keeps_pure hw₁ (hready rfl)
    | false =>
      have hopen : Keeps past len false (openFile k) w₁ fun _ _ => True := ⟨hw₁.statics id, trivial⟩
      apply hopen.bind
      intro opened w₂ hw₂ _
      cases opened with
      | true => exact pollLoop_keeps fuel hw₂
      | false => exact keeps_fail hw₂

theorem readFile_meets {offset : Nat} (hw : Inv past len insecure w) (hready : Ready insecure w)
    (hoffset : offset ≤ len) (hfilled : Filled w.buffer offset) :
    (readFile k offset).Meets w
      (fun answer w' => Inv past len insecure w' ∧ Ready insecure w' ∧ match answer with
        | .ok n => n ≤ len - offset ∧ Filled w'.buffer (offset + n)
        | .error _ => w'.buffer = w.buffer)
      (fun _ _ => False) := by
  have hlen := hw.length
  have hpush {buffer : List Byte} (hbuffer : buffer.length = len) :
      Inv past len insecure ⟨answered w.statics, buffer, w.events ++ [.urandom]⟩ := by
    have hsecure (h : insecure = false) : SecureAfter w.events .urandom := hready h
    apply hw.push hbuffer hsecure trivial
    rw [refused_snoc]
    rintro (h | h)
    · exact hw.cleared h
    · cases h
  have hready' (h : insecure = false) : .ready ∈ w.events ++ [.urandom] :=
    List.mem_append_left _ (hready h)
  rw [Body.Meets, readFile]
  cases k.read w.statics.now (w.buffer.length - offset) with
  | ok n =>
    have hn := n.is_le
    have hfits : offset + n.val ≤ w.buffer.length := by omega
    refine ⟨hpush ?_, hready', by omega, filled_written hfits _ hfilled⟩
    rw [length_written hfits, hlen]
  | error err => exact ⟨hpush hlen, hready', rfl⟩

theorem readExact_keeps (fuel offset : Nat) (hw : Inv past len insecure w)
    (hready : Ready insecure w) (hoffset : offset ≤ len) (hfilled : Filled w.buffer offset) :
    Keeps past len insecure (readExact k fuel offset) w fun _ w' => Filled w'.buffer len := by
  induction fuel generalizing offset w with
  | zero => exact keeps_panic hw Exit.noConfusion
  | succ fuel ih =>
    apply (restLen_keeps hw offset).bind
    rintro n w hw ⟨rfl, rfl⟩
    split
    · next hzero => exact keeps_pure hw (by rwa [show len = offset by omega])
    · apply Body.meets_bind.mpr
      apply (readFile_meets hw hready hoffset hfilled).mono
      · rintro (err | ret) w₁ ⟨hw₁, hready₁, h⟩
        · dsimp only at h ⊢
          rw [← h] at hfilled
          split_ifs
          · exact ih offset hw₁ hready₁ hoffset hfilled
          · exact keeps_fail hw₁
        · obtain ⟨hret, hfilled₁⟩ := h
          dsimp only
          rw [if_pos hret]
          split_ifs
          · exact keeps_fail hw₁
          · exact ih (offset + ret) hw₁ hready₁ (by omega) hfilled₁
      · intro e w₁ h
        exact h.elim

theorem readUrandom_keeps (fuel : Nat) (hw : Inv past len insecure w) (hready : Ready insecure w) :
    Keeps past len insecure (readUrandom k fuel) w fun _ w' => Filled w'.buffer len := by
  have hopen : Keeps past len insecure (openDevice k) w fun _ w' => Ready insecure w' := by
    rw [Keeps, Body.Meets, openDevice]
    cases w.statics.device with
    | true => exact ⟨hw, hready⟩
    | false => exact ⟨hw.statics id, hready⟩
  apply hopen.bind
  intro opened w₁ hw₁ hready₁
  cases opened with
  | true => exact readExact_keeps fuel 0 hw₁ hready₁ (Nat.zero_le len) (filled_zero w₁.buffer)
  | false => exact keeps_fail hw₁

theorem getrandomImpl_keeps (fuel : Nat) (hw : Inv past len insecure w) :
    Keeps past len insecure (getrandomImpl k fuel insecure) w fun _ w' =>
      Filled w'.buffer len := by
  apply (getrandomSyscall_keeps fuel hw).bind
  intro filled w₁ hw₁ hfilled
  cases filled with
  | true => exact keeps_pure hw₁ (hfilled rfl)
  | false =>
    apply (waitForUrandomReady_keeps fuel hw₁).bind
    intro _ w₂ hw₂ hready
    exact readUrandom_keeps fuel hw₂ hready

end Steps

/-! ## Calls after each other -/

/-- What holds of a call, however it ends. -/
structure Sound (c : Call) : Prop where
  filled : c.outcome = .ok () → ∀ b ∈ c.buffer, b.isSome
  inRange : c.outcome ≠ .error .outOfRange
  secure : c.insecure = false → Secure c.events

section Session
variable {k : Schedule} {past : List Event} {insecure : Bool}

theorem inv_start {s : Statics} (len : Nat) (hpast : NotAgain past)
    (hcleared : Refused past → s.insecureAvailable = false) :
    Inv past len insecure ⟨s, List.replicate len none, []⟩ where
  length := List.length_replicate
  secure _ := Trace.each_nil
  notAgain := by rwa [List.append_nil]
  cleared := by rwa [List.append_nil]

/-- One call is sound, and leaves the shared flag as the next one relies on. -/
theorem call_sound (fuel len : Nat) {w : World} (hw : Inv past len insecure w) :
    let done := getrandomImpl k fuel insecure w
    Sound ⟨insecure, done.1, done.2.buffer, done.2.events⟩ ∧ Inv past len insecure done.2 := by
  have hkeeps := getrandomImpl_keeps (k := k) fuel hw
  revert hkeeps
  rw [Keeps, Body.Meets]
  rcases getrandomImpl k fuel insecure w with ⟨e | r, w'⟩
  · rintro ⟨hw', he⟩
    refine ⟨⟨fun h => ?_, fun h => he (Except.error.inj h), hw'.secure⟩, hw'⟩
    cases h
  · rintro ⟨hw', hfilled⟩
    refine ⟨⟨fun _ => ?_, fun h => (by cases h), hw'.secure⟩, hw'⟩
    rwa [Filled, ← hw'.length, List.take_length] at hfilled

theorem session_sound (fuel : Nat) (requests : List (Bool × Nat)) (s : Statics)
    (hpast : NotAgain past) (hcleared : Refused past → s.insecureAvailable = false) :
    (session k fuel requests s).map (fun c => (c.insecure, c.buffer.length)) = requests ∧
      (∀ c ∈ session k fuel requests s, Sound c) ∧
      NotAgain (past ++ (session k fuel requests s).flatMap Call.events) := by
  induction requests generalizing past s with
  | nil => exact ⟨rfl, fun _ h => (nomatch h), by rwa [session, List.flatMap_nil, List.append_nil]⟩
  | cons request requests ih =>
    obtain ⟨insecure, len⟩ := request
    obtain ⟨hsound, hdone⟩ := @call_sound k _ insecure fuel len _
      (inv_start (s := s) len hpast hcleared)
    obtain ⟨hmap, hall, hagain⟩ := ih _ hdone.notAgain hdone.cleared
    refine ⟨?_, List.forall_mem_cons.mpr ⟨hsound, hall⟩, ?_⟩
    · rw [session, List.map_cons, hmap, hdone.length]
    · rwa [session, List.flatMap_cons, ← List.append_assoc]

/-- Whatever the kernel answers and the flags say at first: bytes that are handed out are random,
a request for secure bytes takes no shortcut, no slice is out of range, and the flag that the
kernel refused is not used again. -/
theorem random_bytes_sound (k : Schedule) (fuel : Nat) (requests : List (Bool × Nat))
    (s : Statics) :
    (session k fuel requests s).map (fun c => (c.insecure, c.buffer.length)) = requests ∧
      (∀ c ∈ session k fuel requests s, Sound c) ∧
      NotAgain ((session k fuel requests s).flatMap Call.events) := by
  apply @session_sound k [] fuel requests s Trace.each_nil
  intro h
  cases h

end Session

end Rustyfill.Random
