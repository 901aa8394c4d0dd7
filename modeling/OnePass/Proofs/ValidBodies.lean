import OnePass.Proofs.LockStepRuns
import OnePass.Proofs.ModuleBuilding
import OnePass.Proofs.TrustedMode

/-!
Bodies that pass validation. Their operands have the types that the type rules ask for, so that code
generation, in step with the decoder, never comes to a state in which it does not know what to do.
-/
namespace OnePass

/-- No `bottom` among the types, and operands that were checked. -/
def Regime.checked (linked : Prop) : Regime :=
  ⟨(· ≠ .bottom), True, linked, fun _ h => h, fun _ _ h => h⟩

/-- Pointers to imports lie within reach of one instruction up to this number of imports. -/
def maxImports : Nat := 2 ^ 29

section

variable {module : Module} {sig : Signature} {history : List Module.Decl}

/-- The pointer of an indirect global is one of those that are counted. -/
theorem Module.Coherent.offset_lt (h : module.Coherent history) {g : Global}
    (hg : g ∈ module.globals)
    (hindirect : g.isIndirect = true) : g.offset < module.importedMutableGlobals := by
  have hmem : g.offset ∈ (module.globals.toList.filter Global.isIndirect).map Global.offset :=
    List.mem_map_of_mem (List.mem_filter.2 ⟨Array.mem_toList_iff.2 hg, hindirect⟩)
  rw [h.laid.indirect] at hmem
  exact List.mem_range.1 hmem

theorem Regime.fits_checked (h : module.Coherent history) (hmodule : module.NoBottom)
    (hsig : sig.NoBottom) (hfunctions : module.importedFunctions < maxImports)
    (hglobals : module.importedMutableGlobals < maxImports) (features : FeatureSet) :
    (Regime.checked True).Fits module sig ⟨features, .full⟩ where
  admits := admits_noBottom hmodule hsig _
  params ty hty heq := hsig.params (heq ▸ hty)
  globals g hg := hmodule.globals g hg
  full _ := rfl
  indirect _ g hg hindirect := by
    have hlt := h.offset_lt hg hindirect
    simp only [maxImports, Lowering.pointerSize, UInt32.size] at *
    omega
  imports _ := by
    simp only [maxImports, Lowering.pointerSize, UInt32.size] at *
    omega
  canonical _ := Nat.le_of_eq h.numbered.size.symm

end

/-- A valid body is compiled, or it needs something that code generation names as unsupported: none
of the failures that code generation guards against inside itself can happen. This holds of both
modes of checking. -/
theorem valid_bodies_meet_no_internal_failure (decls : List Module.Decl) (module : Module)
    (hbuilt : (Module.declareAll {} decls).1 = module) (hmodule : module.NoBottom)
    (hfunctions : module.importedFunctions < maxImports)
    (hglobals : module.importedMutableGlobals < maxImports) (sig : Signature) (hsig : sig.NoBottom)
    (body : Array UInt8) (features : FeatureSet) (mode : ValidationMode) (options : CompileOptions)
    (hvalid : validate module sig body ⟨features, .full⟩ = .ok ()) :
    (∃ f, compileFunction module sig body ⟨features, mode⟩ options = .ok f) ∨
      ∃ b, compileFunction module sig body ⟨features, mode⟩ options = .error (.unsupported b) ∧
        b.reason ≠ .other := by
  have hcoherent : module.Coherent (Module.accepted {} decls) := by
    rw [← hbuilt]
    simpa using Module.Builder.coherent_empty.declareAll decls
  have hmode : compileFunction module sig body ⟨features, mode⟩ options =
      compileFunction module sig body ⟨features, .full⟩ options := by
    cases mode with
    | full => rfl
    | trusted =>
      obtain heq | ⟨e, he, -⟩ := compileFunction_trusted module sig body features options
      · exact heq.symm
      · exact (compileFunction_ne_decode_of_validate body hmodule hsig hvalid options e he).elim
  rw [hmode]
  rcases hcompile : compileFunction module sig body ⟨features, .full⟩ options with (e | b) | f
  · exact (compileFunction_ne_decode_of_validate body hmodule hsig hvalid options e hcompile).elim
  · have hfits := Regime.fits_checked hcoherent hmodule hsig hfunctions hglobals features
    exact .inr ⟨b, rfl, tolerates_of_compileFunction hfits hcompile trivial trivial⟩
  · exact .inl ⟨f, rfl⟩

/-- A load from memory is compiled, a vector in a local is refused as such. -/
theorem valid_bodies_meet_no_internal_failure_vectorLocal :
    let module := (Module.declareAll {} [.memory ⟨1, none⟩]).1
    (∃ f, compileFunction module ⟨[.i32], [.i32]⟩ #[0x00, 0x20, 0x00, 0x28, 0x02, 0x00, 0x0B]
        ⟨.full, .full⟩ {} = .ok f) ∧
      ∃ b, compileFunction module ⟨[.i32], [.i32]⟩ #[0x01, 0x01, 0x7B, 0x20, 0x00, 0x0B]
        ⟨.full, .full⟩ {} = .error (.unsupported b) ∧ b.reason ≠ .other := by
  intro module
  have hmodule : module.NoBottom := ⟨nofun, nofun, nofun, nofun⟩
  have hsig : Signature.NoBottom ⟨[.i32], [.i32]⟩ := ⟨by simp, by simp⟩
  constructor
  · refine (valid_bodies_meet_no_internal_failure _ module rfl hmodule (by decide)
      (by decide) _ hsig
      _ .full .full {} (Except.eq_ok_of_toOption (by decide +kernel))).resolve_right ?_
    rintro ⟨b, hb, -⟩
    have hok : (compileFunction module ⟨[.i32], [.i32]⟩ #[0x00, 0x20, 0x00, 0x28, 0x02, 0x00, 0x0B]
      ⟨.full, .full⟩ {}).isOk = true := by decide +kernel
    rw [hb] at hok
    cases hok
  · refine (valid_bodies_meet_no_internal_failure _ module rfl hmodule (by decide)
      (by decide) _ hsig
      _ .full .full {} (Except.eq_ok_of_toOption (by decide +kernel))).resolve_left ?_
    rintro ⟨f, hf⟩
    have hno : (compileFunction module ⟨[.i32], [.i32]⟩ #[0x01, 0x01, 0x7B, 0x20, 0x00, 0x0B]
      ⟨.full, .full⟩ {}).isOk = false := by decide +kernel
    rw [hf] at hno
    cases hno

end OnePass
