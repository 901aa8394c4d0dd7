import OnePass.CompiledFunction
import OnePass.Proofs.Listener

/-!
Trusted mode only drops comparisons of types. Up to the first comparison that fails, a run with full
checks and a trusted run go through the same states and tell the listener the same events; a body
without type mismatch is decoded alike in both modes.
-/
namespace OnePass

namespace Backend

variable {σ : Type}

/-- How a body is checked is not shown to the listener. -/
def IgnoresMode (b : Backend σ) : Prop :=
  ∀ (ctx : Context) mode e s, b.handle (ctx.checked mode) e s = b.handle ctx e s

theorem IgnoresMode.logged {b : Backend σ} (h : b.IgnoresMode) : b.logged.IgnoresMode := by
  intro ctx mode e s
  simp only [Backend.logged, h ctx mode e s.1]
  rfl

theorem ignoresMode_validator : Backend.validator.IgnoresMode := fun _ _ _ _ => rfl

end Backend

namespace Lowering

theorem searchTable_checked (ctx : Context) (mode : ValidationMode) (key : Reg) (first : Nat)
    (targets : List Nat) (cases : CaseLabels) :
      searchTable (ctx.checked mode) key first targets cases =
      searchTable ctx key first targets cases := by
  fun_induction searchTable ctx key first targets cases with
  | case1 => rw [searchTable]
  | case2 => rw [searchTable]; rfl
  | case3 first cases a b rest half ihLower ihUpper => rw [searchTable, ihLower, funext ihUpper]

theorem branchTable_checked (ctx : Context) (mode : ValidationMode) (table : BranchTable) :
    branchTable (ctx.checked mode) table = branchTable ctx table := by
  simp only [branchTable, searchTable_checked]
  rfl

end Lowering

theorem Backend.ignoresMode_compiler : Backend.compiler.IgnoresMode := by
  intro ctx mode e s
  cases e with
  | brTable table key =>
    simp only [Backend.compiler, Lowering.handle, Lowering.lower, Lowering.branchTable_checked]
  | _ => rfl

namespace Comparison

variable {σ : Type} {b : Backend σ}

/-- Full checks against trusted ones, for one listener. `past` is any order in which the listener's
state moves on. -/
def byMode (hb : b.IgnoresMode) (past : σ → σ → Prop) (hrefl : ∀ s, past s s)
    (htold : ∀ ctx e s s', past s s' → past s (b.handle ctx e s').2) : Comparison b b where
  mode := .full
  mode' := .trusted
  same := Eq
  past := past
  alone err := ∃ e, err = .decode e ∧ e.kind = .typeMismatch
  modes := .inr ⟨⟨rfl, rfl⟩, fun e he => ⟨e, rfl, he⟩⟩
  told ctx e s s' _ _ hs := .inl (by rw [hs, hb, hb]; exact ⟨rfl, rfl⟩)
  past_same _ s s' hs := hs ▸ hrefl s
  past_told ctx e s s' := htold _ e s s'

end Comparison

section Modes

variable (module : Module) (sig : Signature) (bytes : Array UInt8) (features : FeatureSet)

/-- The runs agree, or the one with full checks stops at a type mismatch. -/
theorem decodeBody_trusted {σ : Type} {b : Backend σ} (hb : b.IgnoresMode) (s : σ) :
    decodeBody b s module sig bytes ⟨features, .full⟩ =
      decodeBody b s module sig bytes ⟨features, .trusted⟩ ∨
      ∃ e, (decodeBody b s module sig bytes ⟨features, .full⟩).1 = .error (.decode e) ∧
        e.kind = .typeMismatch := by
  obtain ⟨hout, hs⟩ | ⟨err, hr, ⟨e, rfl, hkind⟩, -⟩ :=
    (Comparison.byMode hb (fun _ _ => True) (fun _ => trivial) fun _ _ _ _ _ => trivial).decodeBody
      (s := s) rfl module sig bytes features
  · exact .inl (Prod.ext hout hs)
  · exact .inr ⟨e, hr, hkind⟩

/-- Up to the mismatch the listener is told the same. -/
theorem decodeBody_logged_trusted {σ : Type} {b : Backend σ} (hb : b.IgnoresMode) (s : σ) :
    let full := decodeBody b.logged (s, []) module sig bytes ⟨features, .full⟩
    let trusted := decodeBody b.logged (s, []) module sig bytes ⟨features, .trusted⟩
    full = trusted ∨
      ∃ e, full.1 = .error (.decode e) ∧ e.kind = .typeMismatch ∧ full.2.2 <+: trusted.2.2 := by
  have htold : ∀ ctx e (s s' : σ × List Notice), s.2 <+: s'.2 →
      s.2 <+: (b.logged.handle ctx e s').2.2 :=
    fun _ _ _ _ h => h.trans (List.prefix_append ..)
  obtain ⟨hout, hs⟩ | ⟨err, hr, ⟨e, rfl, hkind⟩, hlog⟩ :=
    (Comparison.byMode hb.logged (fun s s' => s.2 <+: s'.2) (fun _ => List.prefix_rfl)
      htold).decodeBody (s := (s, [])) rfl module sig bytes features
  · exact .inl (Prod.ext hout hs)
  · exact .inr ⟨e, hr, hkind, hlog⟩

theorem validate_trusted :
    validate module sig bytes ⟨features, .full⟩ = validate module sig bytes ⟨features, .trusted⟩ ∨
      ∃ e, validate module sig bytes ⟨features, .full⟩ = .error (.decode e) ∧
        e.kind = .typeMismatch :=
  (decodeBody_trusted module sig bytes features Backend.ignoresMode_validator ()).imp
    (congrArg Prod.fst) id

theorem compileFunction_trusted (options : CompileOptions) :
    compileFunction module sig bytes ⟨features, .full⟩ options =
        compileFunction module sig bytes ⟨features, .trusted⟩ options ∨
      ∃ e, compileFunction module sig bytes ⟨features, .full⟩ options = .error (.decode e) ∧
        e.kind = .typeMismatch := by
  unfold compileFunction
  obtain heq | ⟨e, hr, hkind⟩ :=
    decodeBody_trusted module sig bytes features Backend.ignoresMode_compiler (.start options)
  · exact .inl (by rw [heq])
  · exact .inr ⟨e, by simp only [hr]; rfl, hkind⟩

variable {module sig}

/-- A valid body has no fault for code generation either. -/
theorem compileFunction_ne_decode_of_validate (hmodule : module.NoBottom) (hsig : sig.NoBottom)
    {decoderOptions : DecoderOptions} (hvalid : validate module sig bytes decoderOptions = .ok ())
    (options : CompileOptions) (e : DecodeError) :
    compileFunction module sig bytes decoderOptions options ≠ .error (.decode e) := by
  have hvalidate := decodeBody_outline Backend.validator_neverBails () hmodule hsig bytes
    decoderOptions
  unfold validate at hvalid
  rw [hvalid] at hvalidate
  unfold compileFunction
  obtain ⟨bailout, hr⟩ | hcompile := decodeBody_outline_or_refused .compiler (.start options) bytes
    decoderOptions hmodule hsig
  · simp [hr, Except.map]
  · split at hvalidate
    next heq =>
      rw [heq] at hcompile
      simp [hcompile, Except.map]
    next => simp at hvalidate

/-- Trusted mode only drops comparisons of types. For a listener that is not shown the mode, and for
the record of all it was told, both modes give the same, or the run with full checks stops at a type
mismatch and the trusted one goes on from there. So the code of a valid body does not depend on the
mode, and no other error is missed. -/
theorem trusted_mode_drops_only_type_checks {σ : Type} {b : Backend σ} (hb : b.IgnoresMode) (s : σ)
    (module : Module) (sig : Signature) (bytes : Array UInt8) (features : FeatureSet)
    (options : CompileOptions) :
    (let full := decodeBody b.logged (s, []) module sig bytes ⟨features, .full⟩
     let trusted := decodeBody b.logged (s, []) module sig bytes ⟨features, .trusted⟩
     full = trusted ∨
       ∃ e, full.1 = .error (.decode e) ∧ e.kind = .typeMismatch ∧ full.2.2 <+: trusted.2.2) ∧
    (∀ mode, decodeBody b s module sig bytes ⟨features, mode⟩ =
      ((decodeBody b.logged (s, []) module sig bytes ⟨features, mode⟩).1,
        (decodeBody b.logged (s, []) module sig bytes ⟨features, mode⟩).2.1)) ∧
    (∀ code, compileFunction module sig bytes ⟨features, .full⟩ options = .ok code →
      compileFunction module sig bytes ⟨features, .trusted⟩ options = .ok code) ∧
    (module.NoBottom → sig.NoBottom → validate module sig bytes ⟨features, .full⟩ = .ok () →
      compileFunction module sig bytes ⟨features, .full⟩ options =
        compileFunction module sig bytes ⟨features, .trusted⟩ options) ∧
    (∀ err, validate module sig bytes ⟨features, .full⟩ = .error err →
      (∀ e, err = .decode e → e.kind ≠ .typeMismatch) →
      validate module sig bytes ⟨features, .trusted⟩ = .error err) ∧
    (∀ err, compileFunction module sig bytes ⟨features, .full⟩ options = .error err →
      (∀ e, err = .decode e → e.kind ≠ .typeMismatch) →
      compileFunction module sig bytes ⟨features, .trusted⟩ options = .error err) := by
  refine ⟨decodeBody_logged_trusted module sig bytes features hb s,
    fun mode => decodeBody_logged b s module sig bytes ⟨features, mode⟩, ?_, ?_, ?_, ?_⟩
  · intro code hfull
    obtain heq | ⟨e, he, -⟩ := compileFunction_trusted module sig bytes features options
    · exact heq ▸ hfull
    · rw [hfull] at he
      cases he
  · intro hmodule hsig hvalid
    obtain heq | ⟨e, he, -⟩ := compileFunction_trusted module sig bytes features options
    · exact heq
    · exact (compileFunction_ne_decode_of_validate bytes hmodule hsig hvalid options e he).elim
  · intro err hfull hkind
    obtain heq | ⟨e, he, hmismatch⟩ := validate_trusted module sig bytes features
    · exact heq ▸ hfull
    · rw [hfull] at he
      cases he
      exact (hkind e rfl hmismatch).elim
  · intro err hfull hkind
    obtain heq | ⟨e, he, hmismatch⟩ := compileFunction_trusted module sig bytes features options
    · exact heq ▸ hfull
    · rw [hfull] at he
      cases he
      exact (hkind e rfl hmismatch).elim

end Modes

theorem Except.eq_ok_of_toOption {ε α : Type} {x : Except ε α} {a : α} (h : x.toOption = some a) :
    x = .ok a := by
  cases x with
  | error e => cases h
  | ok b => exact congrArg _ (Option.some.inj h)

/-- An `i64` where `i32.eqz` expects an `i32`: only full checks find it. The same body with an `i32`
compiles alike in both modes. -/
theorem trusted_mode_of_mistyped :
    Backend.compiler.IgnoresMode ∧
    (let full := decodeBody Backend.compiler.logged (.start {}, []) {} ⟨[], []⟩
       #[0x00, 0x42, 0x00, 0x45, 0x1a, 0x0b] ⟨.standard, .full⟩
     let trusted := decodeBody Backend.compiler.logged (.start {}, []) {} ⟨[], []⟩
       #[0x00, 0x42, 0x00, 0x45, 0x1a, 0x0b] ⟨.standard, .trusted⟩
     full.1.toOption = none ∧ trusted.1.toOption = some () ∧
       ∃ e, full.1 = .error (.decode e) ∧ e.kind = .typeMismatch ∧ full.2.2 <+: trusted.2.2) ∧
    compileFunction {} ⟨[], []⟩ #[0x00, 0x41, 0x00, 0x45, 0x1a, 0x0b] ⟨.standard, .full⟩ {} =
      compileFunction {} ⟨[], []⟩ #[0x00, 0x41, 0x00, 0x45, 0x1a, 0x0b]
        ⟨.standard, .trusted⟩ {} := by
  have hb := Backend.ignoresMode_compiler
  have hfull : (decodeBody Backend.compiler.logged (.start {}, []) {} ⟨[], []⟩
      #[0x00, 0x42, 0x00, 0x45, 0x1a, 0x0b] ⟨.standard, .full⟩).1.toOption = none := by
    decide +kernel
  have htrusted : (decodeBody Backend.compiler.logged (.start {}, []) {} ⟨[], []⟩
      #[0x00, 0x42, 0x00, 0x45, 0x1a, 0x0b] ⟨.standard, .trusted⟩).1.toOption = some () := by
    decide +kernel
  have hvalid : validate {} ⟨[], []⟩ #[0x00, 0x41, 0x00, 0x45, 0x1a, 0x0b] ⟨.standard, .full⟩ =
      .ok () :=
    Except.eq_ok_of_toOption (by decide +kernel)
  obtain ⟨hlog, -⟩ := trusted_mode_drops_only_type_checks hb (.start {}) {} ⟨[], []⟩
    #[0x00, 0x42, 0x00, 0x45, 0x1a, 0x0b] .standard {}
  obtain ⟨-, -, -, hcode, -⟩ := trusted_mode_drops_only_type_checks hb (.start {}) {} ⟨[], []⟩
    #[0x00, 0x41, 0x00, 0x45, 0x1a, 0x0b] .standard {}
  refine ⟨hb, ⟨hfull, htrusted, hlog.resolve_left fun heq => ?_⟩,
    hcode ⟨nofun, nofun, nofun, nofun⟩ ⟨nofun, nofun⟩ hvalid⟩
  rw [heq, htrusted] at hfull
  cases hfull

end OnePass
