import OnePass.CompiledFunction
import OnePass.Proofs.TwinRuns

/-!
What code generation reports of a faulty body. It stops where validation stops, unless it bails out
before. Both report the same fault, except in code that code generation takes for dead after an
access to memory that always traps: there the fault is found in another way and may be put
otherwise.
-/
namespace OnePass

namespace Decode

variable {σ σ' α : Type} {b : Backend σ} {b' : Backend σ'} {R : Comparison b b'}

section Following

variable (hmode : R.mode' = R.mode)
include hmode

variable {m' : DecodeM σ' α} {ctx ctx' : Context} {m : DecodeM σ α} {t t' : σ'} {s : σ} {x : α}

section

variable (h : Compares R Eq m m') (hctx : ctx.checked R.mode = ctx)
  (hrun : (m' ctx).run t = (.ok (x, ctx'), t'))
include h hctx hrun

/-- If the second run goes on, so does the first, or it has stopped. -/
theorem Compares.of_same (hmodule : R.within ctx.module) (hs : R.same s t) :
    ctx'.checked R.mode = ctx' ∧ ∃ s', R.past s' t' ∨ R.same s' t' ∧
      (m ctx).run s = (.ok (x, ctx'), s') := by
  have hends := h.ends ctx s t hmodule hs
  rw [hmode, hctx, hrun] at hends
  rcases hm : (m ctx).run s with ⟨r, s'⟩
  rw [hm] at hends
  cases hends with
  | ok ctx₁ _ hrel hs' =>
    rw [hmode]
    exact ⟨rfl, s', .inr ⟨hs', hrel ▸ rfl⟩⟩
  | alone _ hlast =>
    obtain ⟨ctx₁, rfl⟩ := hlast.2 x ctx' rfl
    rw [hmode]
    exact ⟨rfl, s', .inl hlast.1⟩

theorem Compares.of_past (hs : R.past s t) : ctx'.checked R.mode = ctx' ∧ R.past s t' := by
  have hlast := h.outlasts ctx s t hs
  rw [hmode, hctx, hrun] at hlast
  obtain ⟨ctx₁, rfl⟩ := hlast.2 x ctx' rfl
  rw [hmode]
  exact ⟨rfl, hlast.1⟩

end

variable (hall : ∀ e, R.hears e) (hmodules : ∀ module, R.within module) {start : Context}
    (hstart : start.checked R.mode = start) {s₀ : σ}
  {t₀ : σ'} (hs : R.same s₀ t₀)
include hall hmodules hstart hs

/-- What the second run reaches the first reaches, too, or it has stopped. -/
theorem Reached.compare {ctx : Context} {t : σ'} (h : Reached b' start t₀ ctx t) :
    ctx.checked R.mode = ctx ∧ ∃ s, R.past s t ∨ R.same s t ∧ Reached b start s₀ ctx s := by
  induction h with
  | enter hrun =>
    obtain ⟨hctx, s, hpast | ⟨hs, hrun⟩⟩ :=
      (Compares.enter hall).of_same hmode hstart hrun (hmodules _) hs
    · exact ⟨hctx, s, .inl hpast⟩
    · exact ⟨hctx, s, .inr ⟨hs, .enter hrun⟩⟩
  | step _ hopen hleft hrun ih =>
    obtain ⟨hctx, s, hpast | ⟨hs, hreached⟩⟩ := ih
    · obtain ⟨hctx, hpast⟩ := (Compares.step hall).of_past hmode hctx hrun hpast
      exact ⟨hctx, s, .inl hpast⟩
    · obtain ⟨hctx, s, hpast | ⟨hs, hrun⟩⟩ :=
        (Compares.step hall).of_same hmode hctx hrun (hmodules _) hs
      · exact ⟨hctx, s, .inl hpast⟩
      · exact ⟨hctx, s, .inr ⟨hs, .step hreached hopen hleft hrun⟩⟩

theorem DeadFault.compare {e : DecodeError} {t : σ'} (h : DeadFault b' start t₀ e t) :
    ∃ s, R.past s t ∨ DeadFault b start s₀ e s := by
  obtain ⟨ctx, t₂, i, ⟨ctx₁, t₁, hreached, hopen, hleft, hfetch⟩, hlive, hrun⟩ := h
  have hpast : ∀ {s}, R.past s t₂ → ctx.checked R.mode = ctx → R.past s t := by
    intro s hpast hctx
    have hlast := (Compares.instruction (i := i) fun _ _ _ _ => hall _).outlasts ctx s t₂ hpast
    rw [hmode, hctx, hrun] at hlast
    exact hlast.1
  obtain ⟨hctx₁, s₁, hpast₁ | ⟨hs₁, hreached⟩⟩ := hreached.compare hmode hall hmodules hstart hs
  · obtain ⟨hctx, hpast₂⟩ := (Compares.fetch hall).of_past hmode hctx₁ hfetch hpast₁
    exact ⟨s₁, .inl (hpast hpast₂ hctx)⟩
  · obtain ⟨hctx, s₂, hpast₂ | ⟨hs₂, hfetch⟩⟩ :=
      (Compares.fetch hall).of_same hmode hctx₁ hfetch (hmodules _) hs₁
    · exact ⟨s₂, .inl (hpast hpast₂ hctx)⟩
    · have hends := (Compares.instruction (i := i) fun _ _ _ _ => hall _).ends
        ctx s₂ t₂ (hmodules _) hs₂
      rw [hmode, hctx, hrun] at hends
      rcases hm : (instruction b i ctx).run s₂ with ⟨r, s⟩
      rw [hm] at hends
      cases hends with
      | error => exact ⟨s, .inr ⟨ctx, s₂, i, ⟨ctx₁, s₁, hreached, hopen, hleft, hfetch⟩, hlive, hm⟩⟩
      | alone _ hlast => exact ⟨s, .inl hlast.1⟩

end Following

end Decode

namespace Backend

variable {σ : Type}

/-- The listener calls no code dead: it bails out instead. -/
def strict (b : Backend σ) : Backend σ :=
  ⟨fun ctx e s => match b.handle ctx e s with
    | (.ok .dead, s) => (.error ⟨.other, ""⟩, s)
    | r => r⟩

section

variable (b : Backend σ) (ctx : Context) (e : Event) (s : σ)

/-- A strict listener answers like the listener itself, or bails out where that calls code dead. -/
theorem strict_handle : b.strict.handle ctx e s = b.handle ctx e s ∧
    (b.handle ctx e s).1 ≠ .ok .dead ∨
      (b.handle ctx e s).1 = .ok .dead ∧ ∃ bailout,
        (b.strict.handle ctx e s).1 = .error bailout := by
  simp only [strict]
  rcases b.handle ctx e s with ⟨_ | _ | _, _⟩
  · exact .inl ⟨rfl, nofun⟩
  · exact .inl ⟨rfl, nofun⟩
  · exact .inr ⟨rfl, _, rfl⟩

theorem strict_proceeds :
    (b.strict.handle ctx e s).1 = .ok .proceed ∨ ∃ bailout,
      (b.strict.handle ctx e s).1 = .error bailout := by
  obtain ⟨heq, hdead⟩ | ⟨-, hbails⟩ := b.strict_handle ctx e s
  · rw [heq]
    rcases h : (b.handle ctx e s).1 with bailout | _ | _
    · exact .inr ⟨bailout, rfl⟩
    · exact .inl rfl
    · exact (hdead h).elim
  · exact .inr hbails

end

end Backend

namespace Comparison

variable {σ : Type}

/-- A strict listener against validation. -/
def byStrictness (b : Backend σ) (mode : ValidationMode) : Comparison b.strict .validator := by
  refine .ofListeners b.strict .validator mode (fun _ _ => True) (fun _ _ => True) ?told ?past_told
  case told =>
    intro ctx e s _ _
    obtain hok | ⟨bailout, hbails⟩ := b.strict_proceeds (ctx.checked mode) e s
    · exact .inl ⟨hok, trivial⟩
    · exact .inr ⟨bailout, hbails, trivial⟩
  case past_told => exact fun _ _ _ _ _ => trivial

/-- A strict listener against itself: where it bails out on its own, the other called code dead. -/
def byDeadCode (b : Backend σ)
    (hdead : ∀ ctx e s, (b.handle ctx e s).1 = .ok .dead → e.isAccess = true)
    (mode : ValidationMode) : Comparison b.strict b.logged := by
  refine .ofListeners b.strict b.logged mode (fun s s' => s = s'.1)
    (fun _ s' => ∃ n ∈ s'.2, n.reply = .ok .dead ∧ n.event.isAccess = true) ?told ?past_told
  case told =>
    rintro ctx e s s' rfl
    obtain ⟨heq, -⟩ | ⟨hcalled, bailout, hbails⟩ := b.strict_handle (ctx.checked mode) e s'.1
    · rw [heq]
      exact .inl ⟨rfl, rfl⟩
    · exact .inr ⟨bailout, hbails, _, List.mem_append_right _ (List.mem_singleton_self _), hcalled,
        hdead _ _ _ hcalled⟩
  case past_told =>
    rintro ctx e s s' ⟨n, hn, hreply⟩
    exact ⟨n, List.mem_append_left _ hn, hreply⟩

end Comparison

namespace Backend

variable {σ : Type} {b : Backend σ}

theorem calm_stubborn
    (hdead : ∀ ctx e s, (b.handle ctx e s).1 = .ok .dead → e.isAccess = true) :
      b.stubborn.Calm where
  neverBails := b.stubborn_neverBails
  dead ctx e s h := by
    simp only [stubborn] at h
    cases s with
    | none => cases h
    | some s =>
      have hdead := hdead ctx e s
      simp only [Option.map_some] at h
      rcases hr : b.handle ctx e s with ⟨bailout | reply, s₁⟩ <;> rw [hr] at h hdead
      · cases h
      · exact hdead h

/-- Code generation calls code dead only after accesses to memory. -/
theorem isAccess_of_dead {ctx : Context} {e : Event} {s : Lowering}
    (h : (compiler.handle ctx e s).1 = .ok .dead) : e.isAccess = true := by
  have hproceed : ∀ m : LowerM Unit,
      ((do m; return Reply.proceed : LowerM Reply).run.run s).1 ≠ .ok .dead := by
    intro m hm
    simp only [bind, ExceptT.bind, ExceptT.mk, ExceptT.run, StateT.bind, StateT.run] at hm
    rcases hr : m s with ⟨_ | _, _⟩ <;> rw [hr] at hm <;> cases hm
  cases e with
  | load | store => rfl
  | _ => exact (hproceed _ h).elim

end Backend

section Runs

open Decode

variable {σ : Type} {b : Backend σ} {module : Module} {sig : Signature}

theorem decodeBody_sideBySide (hb : b.Calm) (hmodule : module.NoBottom) (hsig : sig.NoBottom)
    (bytes : Array UInt8) (options : DecoderOptions) (s : σ) :
    let r := decodeBody Backend.validator.logged ((), []) module sig bytes options
    let r' := decodeBody b.logged (s, []) module sig bytes options
    (r.1 = .ok () ∧ r'.1 = .ok () ∨ ∃ e e', r.1 = .error (.decode e) ∧ r'.1 = .error (.decode e') ∧
      SameReport b.logged (.initial module sig bytes options) (s, []) e e' r'.2) ∧
    Covers r.2 r'.2 := by
  have hbody := body_sideBySide hb bytes options ⟨hmodule, hsig⟩ s
  have hrun : ∀ {τ : Type} (b : Backend τ) (s : τ), decodeBody b s module sig bytes options =
      ((((body b (.initial module sig bytes options)).run s).1.map Prod.fst),
        ((body b (.initial module sig bytes options)).run s).2) := fun _ _ => rfl
  rw [hrun, hrun]
  generalize (body Backend.validator.logged _).run ((), []) = r at hbody
  generalize (body b.logged _).run (s, []) = r' at hbody
  cases hbody with
  | ok _ hs => exact ⟨.inl ⟨rfl, rfl⟩, hs⟩
  | fault h hs => exact ⟨.inr ⟨_, _, rfl, rfl, h⟩, hs⟩

/-- A run ends like validation, or code was called dead in it, or it bails out. -/
theorem decodeBody_eq_or_dead
    (hdead : ∀ ctx e s, (b.handle ctx e s).1 = .ok .dead → e.isAccess = true) (s : σ)
    (bytes : Array UInt8) (options : DecoderOptions) :
    let r := decodeBody b.logged (s, []) module sig bytes options
    r.1 = validate module sig bytes options ∨ (∃ bailout, r.1 = .error (.unsupported bailout)) ∨
      ∃ n ∈ r.2.2, n.reply = .ok .dead ∧ n.event.isAccess = true := by
  obtain ⟨hout, -⟩ | ⟨e, -, -, hpast⟩ :=
    (Comparison.byDeadCode b hdead options.validation).decodeBody (s := s) (t := (s, [])) rfl module
      sig bytes options.features
  · obtain ⟨hout', -⟩ | ⟨e, hr, ⟨bailout, rfl⟩, -⟩ :=
      (Comparison.byStrictness b options.validation).decodeBody (s := s)
        (t := ()) trivial module sig bytes options.features
    · exact .inl (hout.symm.trans hout')
    · exact .inr (.inl ⟨bailout, hout.symm.trans hr⟩)
  · exact .inr (.inr hpast)

end Runs

section Reports

open Decode

variable (module : Module) (sig : Signature) (bytes : Array UInt8) (decoderOptions : DecoderOptions)
  (options : CompileOptions)

/-- What code generation was told of a body, with its answers. -/
def compileLog : List Notice :=
  (decodeBody Backend.compiler.logged (.start options, []) module sig bytes decoderOptions).2.2

/-- What a listener is told of a body that refuses nothing and calls no code dead. -/
def validationLog : List Notice :=
  (decodeBody Backend.validator.logged ((), []) module sig bytes decoderOptions).2.2

/-- Code generation calls the code around its fault dead, and so finds a fault of the same operands
in another way. -/
structure DeadReport (e e' : DecodeError) : Prop where
  offset : e.offset = e'.offset
  fault : e.IsOperandFault
  fault' : e'.IsOperandFault
  visited : ∃ s, DeadFault Backend.compiler (.initial module sig bytes decoderOptions)
    (.start options) e' s
  access : ∃ n ∈ compileLog module sig bytes decoderOptions options,
    n.reply = .ok .dead ∧ n.event.isAccess = true

variable {module sig}

/-- How code generation ends, given how validation ends. -/
theorem compile_outcome (hmodule : module.NoBottom) (hsig : sig.NoBottom) :
    let compiled := (decodeBody Backend.compiler (.start options) module sig bytes decoderOptions).1
    (∃ bailout, compiled = .error (.unsupported bailout) ∧
      ((compileLog module sig bytes decoderOptions options).map Notice.gist).Sublist
        ((validationLog module sig bytes decoderOptions).map Notice.gist)) ∨
    (compiled = .ok () ∧ validate module sig bytes decoderOptions = .ok ()) ∨
    ∃ e e', compiled = .error (.decode e') ∧
      validate module sig bytes decoderOptions = .error (.decode e) ∧
      (e = e' ∨ DeadReport module sig bytes decoderOptions options e e') := by
  have hvalidate : validate module sig bytes decoderOptions =
      (decodeBody Backend.validator.logged ((), []) module sig bytes decoderOptions).1 :=
    congrArg Prod.fst (decodeBody_logged .validator () module sig bytes decoderOptions)
  have hcompile := congrArg Prod.fst
    (decodeBody_logged .compiler (.start options) module sig bytes decoderOptions)
  have hcalm := Backend.calm_stubborn fun _ _ _ => Backend.isAccess_of_dead
  obtain ⟨hends, hcovers⟩ := decodeBody_sideBySide hcalm hmodule hsig bytes decoderOptions
    (some (.start options))
  dsimp only
  rw [hcompile, hvalidate]
  obtain ⟨hout, hstate⟩ | ⟨bailout, hr, hlog⟩ :=
    decodeBody_stubborn .compiler (.start options) module sig bytes decoderOptions
  · rw [hout]
    refine .inr ?_
    obtain ⟨hv, hc⟩ | ⟨e, e', hv, hc, hsame⟩ := hends
    · exact .inl ⟨hc, hv⟩
    · refine .inr ⟨e, e', hc, hv, ?_⟩
      by_cases heq : e = e'
      · exact .inl heq
      obtain ⟨hdead, hoffset, hfault, hfault'⟩ := hsame.resolve_left heq
      refine .inr ⟨hoffset, hfault, hfault', ?_, ?_⟩
      · have hs : (Comparison.byRefusal .compiler decoderOptions.validation).same
            (Lowering.start options, []) (some (Lowering.start options), []) := rfl
        obtain ⟨s, ⟨hnone, -⟩ | hdead⟩ :=
          hdead.compare rfl (fun _ => trivial) (fun _ => trivial) rfl hs
        · rw [hstate] at hnone
          cases hnone
        · obtain ⟨s, hfalse | hdead⟩ :=
            hdead.compare (R := .byLog .compiler decoderOptions.validation)
            rfl (fun _ => trivial) (fun _ => trivial) rfl rfl
          · exact hfalse.elim
          · exact ⟨s, hdead⟩
      · obtain hsame | ⟨bailout, hr⟩ | haccess := decodeBody_eq_or_dead
          (fun _ _ _ => Backend.isAccess_of_dead) (.start options) bytes decoderOptions
        · rw [hout, hc, hvalidate, hv] at hsame
          cases hsame
          exact (heq rfl).elim
        · rw [hout, hc] at hr
          cases hr
        · exact haccess
  · exact .inl ⟨bailout, hr, hlog.sublist.trans hcovers⟩

/-- Code generation reports of a faulty body what validation reports, unless it bails out at an
event that validation comes to as well. The reports differ at most in a fault of operands, found at
the same place in code that is dead for code generation after an access to memory. Conversely a
fault that code generation reports makes the body invalid. -/
theorem compile_reports_faults_of_validation (hmodule : module.NoBottom) (hsig : sig.NoBottom) :
    (∀ e, validate module sig bytes decoderOptions = .error (.decode e) →
      (∃ bailout, compileFunction module sig bytes decoderOptions options =
        .error (.unsupported bailout) ∧
        ((compileLog module sig bytes decoderOptions options).map Notice.gist).Sublist
          ((validationLog module sig bytes decoderOptions).map Notice.gist)) ∨
      ∃ e', compileFunction module sig bytes decoderOptions options = .error (.decode e') ∧
        (e = e' ∨ DeadReport module sig bytes decoderOptions options e e')) ∧
    ∀ e', compileFunction module sig bytes decoderOptions options = .error (.decode e') →
      ∃ e, validate module sig bytes decoderOptions = .error (.decode e) ∧
        (e = e' ∨ DeadReport module sig bytes decoderOptions options e e') := by
  unfold compileFunction
  dsimp only
  obtain ⟨bailout, hr, hlog⟩ | ⟨hr, hv⟩ | ⟨e, e', hr, hv, hsame⟩ :=
    compile_outcome bytes decoderOptions options hmodule hsig <;> rw [hr]
  · exact ⟨fun _ _ => .inl ⟨bailout, rfl, hlog⟩, fun _ h => by cases h⟩
  · refine ⟨fun _ h => ?_, fun _ h => by cases h⟩
    rw [hv] at h
    cases h
  · refine ⟨fun _ h => ?_, fun _ h => ?_⟩
    · rw [hv] at h
      cases h
      exact .inr ⟨e', rfl, hsame⟩
    · cases h
      exact ⟨e, hv, hsame⟩

end Reports

theorem Except.eq_error_of_match {ε α : Type} {x : Except ε α} {e : ε}
    (h : (match x with | .error e => some e | .ok _ => none) = some e) : x = .error e := by
  cases x with
  | error e' => exact congrArg _ (Option.some.inj h)
  | ok a => cases h

/-- A load that always traps, its result dropped, and nothing returned: validation counts too few
results, code generation finds the stack of the dead code empty. -/
theorem compile_reports_faults_of_droppedLoad :
    let module : Module := { memory := some ⟨1, some 1⟩ }
    let sig : Signature := ⟨[], [.i32]⟩
    let body : Array UInt8 :=
      #[0x00, 0x41, 0x00, 0x28, 0x02, 0xff, 0xff, 0xff, 0xff, 0x0f, 0x1a, 0x0b]
    module.NoBottom ∧ sig.NoBottom ∧
    ∃ e e', validate module sig body {} = .error (.decode e) ∧
      compileFunction module sig body {} {} = .error (.decode e') ∧ e.kind = .arityMismatch ∧
      e'.kind = .stackUnderflow ∧ DeadReport module sig body {} {} e e' := by
  intro module sig body
  have hmodule : module.NoBottom := ⟨by simp [module], by simp [module], by simp [module],
    by simp [module]⟩
  have hsig : sig.NoBottom := ⟨by simp [sig], by simp [sig]⟩
  have hvalidate : validate module sig body {} = .error (.decode ⟨11, .fallthroughArity 1 1 0⟩) :=
    Except.eq_error_of_match (by decide +kernel)
  have hcompile : compileFunction module sig body {} {} =
      .error (.decode ⟨11, .underflow .endBlock 1⟩) :=
    Except.eq_error_of_match (by decide +kernel)
  refine ⟨hmodule, hsig, _, _, hvalidate, hcompile, rfl, rfl, ?_⟩
  obtain ⟨bailout, hr, -⟩ | ⟨e', hr, hsame⟩ :=
    (compile_reports_faults_of_validation body {} {} hmodule hsig).1 _ hvalidate
  · rw [hcompile] at hr
    cases hr
  · rw [hcompile] at hr
    cases hr
    exact hsame.resolve_left (by decide)

end OnePass
