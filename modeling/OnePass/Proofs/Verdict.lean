import OnePass.Proofs.OutlineBody

/-!
The verdict on a body does not depend on who listens. A listener may call code dead at any event;
dead code is checked as strictly as live code, if along other paths, and both follow one outline.
-/
namespace OnePass

theorem Backend.validator_neverBails : Backend.validator.NeverBails :=
  fun _ _ _ => ⟨.proceed, rfl⟩

/-- Decoding for a listener that never bails out accepts what the outline accepts, and otherwise
fails where the outline fails. -/
theorem decodeBody_outline {σ : Type} {b : Backend σ} (hb : b.NeverBails) (s : σ) {module : Module}
    {sig : Signature} (hmodule : module.NoBottom) (hsig : sig.NoBottom) (bytes : Array UInt8)
    (options : DecoderOptions) :
    match Outline.body ⟨module, sig, options⟩ bytes with
    | .ok _ => (decodeBody b s module sig bytes options).1 = .ok ()
    | .error offset => ∃ e, (decodeBody b s module sig bytes options).1 = .error (.decode e) ∧
        e.offset = offset := by
  have hdecode : (decodeBody b s module sig bytes options).1 =
      (Decode.outcome (Decode.body b) (.initial module sig bytes options) s).map Prod.fst := rfl
  rw [hdecode]
  obtain ⟨ctx, o, hr, ho, -⟩ | ⟨e, hr, ho⟩ :=
    (Decode.follows_body hb options ⟨hmodule, hsig⟩ bytes s).cases
  · rw [hr, ho]
    rfl
  · rw [hr, ho]
    exact ⟨e, rfl, rfl⟩

/-- Every listener that never bails out gets the verdict of validation, and with it the offset of
the first fault. -/
theorem verdict_independent_of_backend {σ : Type} {b : Backend σ} (hb : b.NeverBails) (s : σ)
    {module : Module} {sig : Signature} (hmodule : module.NoBottom) (hsig : sig.NoBottom)
    (bytes : Array UInt8) (options : DecoderOptions) :
      ((decodeBody b s module sig bytes options).1 = .ok () ↔
      validate module sig bytes options = .ok ()) ∧
    ∀ err err', (decodeBody b s module sig bytes options).1 = .error err →
      validate module sig bytes options = .error err' →
      ∃ e e', err = .decode e ∧ err' = .decode e' ∧ e.offset = e'.offset := by
  have hdecode := decodeBody_outline hb s hmodule hsig bytes options
  have hvalidate : match Outline.body ⟨module, sig, options⟩ bytes with
      | .ok _ => validate module sig bytes options = .ok ()
      | .error offset => ∃ e, validate module sig bytes options = .error (.decode e) ∧
          e.offset = offset :=
    decodeBody_outline Backend.validator_neverBails () hmodule hsig bytes options
  cases houtline : Outline.body ⟨module, sig, options⟩ bytes with
  | ok o =>
    rw [houtline] at hdecode hvalidate
    refine ⟨iff_of_true hdecode hvalidate, ?_⟩
    intro err err' h _
    rw [hdecode] at h
    cases h
  | error offset =>
    rw [houtline] at hdecode hvalidate
    obtain ⟨e, he, hoffset⟩ := hdecode
    obtain ⟨e', he', hoffset'⟩ := hvalidate
    rw [he, he']
    refine ⟨iff_of_false (by simp) (by simp), ?_⟩
    intro err err' h h'
    cases h
    cases h'
    exact ⟨e, e', rfl, rfl, hoffset.trans hoffset'.symm⟩

/-- The listener that calls all code dead. -/
def Backend.pessimist : Backend Unit := ⟨fun _ _ s => (.ok .dead, s)⟩

/-- A body that lacks an operand for its `drop`, decoded for the listener that calls all code
dead. -/
theorem verdict_of_pessimist :
    Backend.pessimist.NeverBails ∧ Module.NoBottom {} ∧ Signature.NoBottom ⟨[.i32], []⟩ ∧
    (((decodeBody .pessimist () {} ⟨[.i32], []⟩ #[0x00, 0x20, 0x00, 0x1a, 0x1a, 0x0b] {}).1 =
      .ok () ↔
      validate {} ⟨[.i32], []⟩ #[0x00, 0x20, 0x00, 0x1a, 0x1a, 0x0b] {} = .ok ()) ∧ ∀ err err',
      (decodeBody .pessimist () {} ⟨[.i32], []⟩ #[0x00, 0x20, 0x00, 0x1a, 0x1a, 0x0b] {}).1 =
        .error err →
      validate {} ⟨[.i32], []⟩ #[0x00, 0x20, 0x00, 0x1a, 0x1a, 0x0b] {} = .error err' →
      ∃ e e', err = .decode e ∧ err' = .decode e' ∧ e.offset = e'.offset) := by
  have hb : Backend.pessimist.NeverBails := fun _ _ _ => ⟨.dead, rfl⟩
  have hmodule : Module.NoBottom {} := ⟨by simp, by simp, by simp, by simp⟩
  have hsig : Signature.NoBottom ⟨[.i32], []⟩ := ⟨by decide, by decide⟩
  exact ⟨hb, hmodule, hsig, verdict_independent_of_backend hb () hmodule hsig _ _⟩

end OnePass
