import OnePass.CompiledFunction
import OnePass.Proofs.Codec
import OnePass.Proofs.LockStepBranches

/-!
Whole runs of code generation. In every state that a run comes to, the decoder and code generation
are in step; a run that ends leaves finished code.
-/
namespace OnePass

open List

open Reader Lowering

/-! ## Reading an instruction -/

variable {r r' : Reader}

variable {i : Instruction}

open Scope in
/-- Indices are looked up when they are read. -/
theorem Instruction.declared_of_read {scope : Scope} {op : Opcode}
    (h : Reads (Instruction.read scope op) r i r') : i.Declared scope.module scope.locals := by
  cases op with
  | localGet | localSet | localTee =>
    obtain ⟨found, _, hfound, rfl⟩ := h.of_map
    exact lookup_of_readIndex hfound
  | globalGet =>
    obtain ⟨found, _, hfound, rfl⟩ := h.of_map
    exact ⟨found.2, lookup_of_readIndex hfound, rfl⟩
  | globalSet =>
    obtain ⟨found, _, hfound, rfl⟩ := of_read_globalSet h
    exact ⟨found.2, lookup_of_readIndex hfound, rfl⟩
  | callIndirect =>
    obtain ⟨found, _, hfound, rfl⟩ := h.of_map
    exact signature_of_readIndirectCallee hfound
  | _ =>
    simp only [Instruction.read, reads_bind, reads_pure] at h
    grind [Instruction.Declared]

variable {features : FeatureSet}

/-- The opcode that is read where one of a single byte stands. -/
theorem Opcode.eq_of_read {op op' : Opcode} {byte : UInt8}
    (hpeek : r.peek? = some byte) (hcode : byte.toNat = op'.code) (hplain : isEscape byte = false)
    (h : Reads (Opcode.read features) r op r') : op = op' := by
  have h := reads_get_bind.1 h
  obtain ⟨byte', _, hbyte, h₁⟩ := h.of_bind
  obtain ⟨hpeek', rfl⟩ := reads_readU8 hbyte
  cases hpeek.symm.trans hpeek'
  dsimp only at h₁
  rw [if_neg (by simp [hplain]), hcode, pure_bind, ofCode?_code] at h₁
  dsimp only at h₁
  split at h₁
  · exact h₁.of_pure.1
  · exact h₁.of_failAt

/-- An instruction that uses a test is the one that was seen ahead. -/
theorem Instruction.usesTest_of_read {ctx : Context} {scope : Scope} {op : Opcode}
    (hnext : ctx.BranchesNext) (hop : Reads (Opcode.read features) ctx.reader op r) {r'' : Reader}
    (hi : Reads (Instruction.read scope op) r'' i r') : i.usesTest = true := by
  obtain ⟨byte, hpeek, hcode⟩ := hnext
  have hplain : Opcode.isEscape byte = false := by
    have hsmall : byte.toNat < 0xFC := by
      rcases hcode with hcode | hcode <;> rw [hcode] <;> decide
    have hne : byte ≠ 0xFC ∧ byte ≠ 0xFD := by
      constructor <;> rintro rfl <;> exact absurd hsmall (by decide)
    simp [Opcode.isEscape, hne]
  rcases hcode with hcode | hcode
  · obtain rfl := Opcode.eq_of_read hpeek hcode hplain hop
    obtain ⟨depth, _, -, hi⟩ := hi.of_bind
    obtain ⟨rfl, -⟩ := hi.of_pure
    rfl
  · obtain rfl := Opcode.eq_of_read hpeek hcode hplain hop
    obtain ⟨type, _, -, hi⟩ := hi.of_bind
    obtain ⟨rfl, -⟩ := hi.of_pure
    rfl

/-! ## One instruction -/

/-- The decoder's place in the body does not matter. -/
theorem Poised.moved {R : Regime} {ctx : Context} {c : Control} {outer : List Control}
    {below ops : List Value} {s : Lowering} (h : Poised R ctx c outer below ops s) (pc : Nat)
    (op : Opcode) (reader : Reader) :
      Poised R { ctx with pc, opcode := op, reader } c outer below ops s :=
  ⟨⟨h.fits, ⟨h.shows.control, h.shows.stack, h.shows.depth⟩, h.layer, h.inner, h.mirrored.locals,
    h.mirrored.control⟩, h.live, h.stands, h.closes⟩

/-- A breakpoint leaves the slots as they are. -/
theorem nextInstruction_upholds {R : Regime} {ctx : Context} {c : Control} {outer : List Control}
    {below ops : List Value} {s : Lowering} (h : Poised R ctx c outer below ops s)
    (hc : c.isReachable = true) (op : Opcode) :
    Upholds R (handle ctx (.nextInstruction op)) s fun reply s' => reply = .proceed ∧
      Poised R ctx c outer below ops s' ∧ s'.pendingTest = s.pendingTest := by
  obtain ⟨⟨is, hsound⟩, ts, ps, hts, hps, hagree⟩ := h.stands hc
  refine handle_upholds rfl (.get_bind (.ite (fun _ => ?_) fun _ => .of_pure ⟨rfl, h, rfl⟩))
  have hlocals : s.emitter.numLocals ≤ (ts ++ ps).length := by
    rw [h.mirrored.locals, length_append, hagree.length, length_append, Array.length_toList]
    omega
  refine (breakpoint_upholds (.refl hsound hts) hlocals _).mono fun _ s' h' => ⟨rfl, ?_, h'.test⟩
  exact (h.toFacing.later h'.control h'.later).poised_live (h.live.trans hc) hc
    ⟨h'.sound, ts, ps, h'.types, hps.congr h'.test, hagree⟩

namespace Decode

variable {R : Regime} {ctx : Context} {c : Control} {outer : List Control}
  {below ops : List Value} {s : Lowering}

theorem fetch_drives (h : Poised R ctx c outer below ops s)
    (hnext : s.pendingTest ≠ none → ctx.BranchesNext)
    (hpromises : Promises R.allows ctx.module ctx.locals) :
    Drives R (fetch .compiler) ctx s fun i ctx' s' => Poised R ctx' c outer below ops s' ∧
      (s'.pendingTest ≠ none → i.usesTest = true) ∧ i.Declared ctx'.module ctx'.locals ∧
      (∀ ty ∈ i.types, R.allows ty) ∧ ∀ d, i.depth? = some d → d < ctx'.control.length := by
  refine .modify_bind (.get_bind (.read_bind fun op r hop => .modify_bind ?_))
  have h₁ := h.moved ctx.reader.pos op r
  refine .bind (Q := fun _ ctx' s' =>
    ctx' = { ctx with pc := ctx.reader.pos, opcode := op, reader := r }
    ∧ Poised R ctx' c outer below ops s' ∧ s'.pendingTest = s.pendingTest) ?_ ?_
  · refine Drives.of_report (fun hlive => ?_) fun _ => ⟨rfl, h₁, rfl⟩
    refine (nextInstruction_upholds h₁ (h₁.live ▸ hlive) op).mono ?_
    rintro _ s' ⟨rfl, h', htest⟩
    exact ⟨rfl, h', htest⟩
  · rintro _ ctx' s' ⟨rfl, h', htest⟩
    refine .get_bind (.of_read fun i r' hi => ⟨h'.moved _ _ r', fun hne => ?_,
      Instruction.declared_of_read hi, hpromises _ op r r' i rfl rfl hi,
      fun d hd => Instruction.lt_of_read_depth hi hd⟩)
    exact Instruction.usesTest_of_read (hnext (htest ▸ hne)) hop hi

end Decode

/-! ## Runs -/

/-- The decoder and code generation are in step, over operands that are in order. -/
structure Synchronized (R : Regime) (ctx : Context) (s : Lowering) : Prop where
  fits : R.Fits ctx.module ctx.sig ctx.options
  promises : Promises R.allows ctx.module ctx.locals
  orderly : ctx.Orderly R.allows
  inStep : InStep R ctx s

namespace Decode

variable {R : Regime} {ctx : Context} {s : Lowering}

/-- What the decoder alone does may be used, too. -/
theorem Drives.and_outcome {α : Type} {m : DecodeM Lowering α}
    {post : α → Context → Lowering → Prop} {Q : α → Context → Prop} (h : Drives R m ctx s post)
    (hq : ∀ x ctx', outcome m ctx s = .ok (x, ctx') → Q x ctx') :
    Drives R m ctx s fun x ctx' s' => post x ctx' s' ∧ Q x ctx' :=
  ⟨fun x ctx' s' hr => ⟨h.ends x ctx' s' hr, hq x ctx' (congrArg Prod.fst hr)⟩, h.refused⟩

section

variable (h : Synchronized R ctx s)
include h

theorem step_inStep (hopen : ctx.control ≠ []) :
    Drives R (step .compiler) ctx s fun _ => InStep R := by
  obtain ⟨-, hlock, hnext⟩ := h.inStep.resolve_right fun hended => hopen hended.1
  obtain ⟨-, hlayers⟩ := h.orderly.resolve_right fun hclosed => hopen hclosed.1
  obtain ⟨c, outer, below, ops, hpoised⟩ := hlock.poised h.fits hopen hlayers
  rw [step_eq]
  exact (fetch_drives hpoised hnext h.promises).bind
    fun i ctx' s' ⟨h', htest, hdecl, htypes, hdepth⟩ =>
    instruction_drives h' htest hdecl htypes hdepth

theorem step_drives (hopen : ctx.control ≠ []) :
    Drives R (step .compiler) ctx s fun _ => Synchronized R := by
  refine ((step_inStep h hopen).and_outcome fun _ ctx' hr => And.intro
    ((Guarded.Agrees.step hopen h.orderly h.fits.admits.proper h.promises s).2 () ctx' hr)
    (sameFunction_of_step hr)).mono ?_
  rintro _ ctx' s' ⟨hstep, ⟨horderly, hmodule, hlocals⟩, hsame⟩
  refine ⟨?_, ?_, horderly, hstep⟩
  · rw [hsame.module, hsame.sig, hsame.options]
    exact h.fits
  · rw [hmodule, hlocals]
    exact h.promises

/-- Reading instructions to the end of the body. -/
theorem steps_drives (fuel : Nat) :
    Drives R (steps .compiler fuel) ctx s fun _ ctx' s' => ctx'.control = [] ∧ Concluded R s' := by
  have hdone {ctx : Context} {s : Lowering} (h : Synchronized R ctx s)
      (hclosed : ctx.control.isEmpty = true) : ctx.control = [] ∧ Concluded R s := by
    rw [List.isEmpty_iff] at hclosed
    exact h.inStep.resolve_left fun hopen => hopen.1 hclosed
  induction fuel generalizing ctx s with
  | zero =>
    refine .get_bind (.ite (fun _ => .of_throw _) fun hclosed => .of_pure (hdone h ?_))
    simpa using hclosed
  | succ fuel ih =>
    refine .get_bind (.ite (fun hclosed => .of_pure (hdone h hclosed)) fun hopen =>
      .ite (fun _ => .of_throw _) fun _ => ?_)
    exact (step_drives h (by simpa using hopen)).bind fun _ ctx' s' h' => ih h'

end

end Decode

namespace Lowering

theorem blank_start (options : CompileOptions) : (start options).Blank := by
  refine ⟨rfl, rfl, rfl, rfl, rfl, rfl, fun r hr => ?_⟩
  have hrecord : (if options.wantsSideTable then some ({} : SideRecord) else none) = some r := hr
  split at hrecord
  · exact (Option.some.inj hrecord).symm
  · cases hrecord

end Lowering

namespace Decode

variable {R : Regime} {module : Module} {sig : Signature} {body : Array UInt8}
  {options : DecoderOptions} {s : Lowering}

theorem enter_inStep (body : Array UInt8) (hfits : R.Fits module sig options) (hs : s.Blank) :
    Drives R (enter .compiler) (.initial module sig body options) s fun _ => InStep R := by
  refine .get_bind (.read_bind fun locals r hread => .modify_bind ?_)
  obtain ⟨declared, hlocals, hproper⟩ := locals_of_readLocals hread
  have hallows : ∀ ty ∈ locals.toList, R.allows ty := by
    intro ty hty
    rw [hlocals] at hty
    rcases mem_append.1 hty with hty | hty
    · exact hfits.params ty hty
    · exact R.proper ty (hproper ty hty)
  refine .bind (Q := fun _ ctx' s' => ctx' =
      { Context.initial module sig body options with reader := r, locals := locals } ∧
      s'.Blank ∧ s'.emitter.numLocals = locals.size) (Drives.of_tell (handle_upholds rfl
    ((startFunction_upholds hs).mono fun _ s' h => ⟨rfl, h.1, h.2.1⟩))) ?_
  rintro _ ctx₁ s₁ ⟨rfl, hblank, hcount⟩
  refine .modify_bind (.check_bind fun block ctx₂ hpush => ?_)
  obtain ⟨block', hpush', hkind, hdepth, hstart, hend, hreach⟩ := Check.pushControl_eq
    { Context.initial module sig body options with reader := r, locals := locals, pc := r.pos }
    .block ⟨[], sig.results⟩
  cases hpush'.symm.trans hpush
  refine Drives.of_tell
    (handle_upholds rfl ((startBody_upholds hblank hlocals hcount hallows).mono ?_))
  rintro _ s' ⟨hsound, htypes, hnum, ⟨label, hcontrol⟩, htest⟩
  have hreachable : block.isReachable = true := by
    rw [Control.isReachable, hreach]
    rfl
  refine .inl ⟨cons_ne_nil _ _, ⟨⟨hnum.trans hcount, ?_⟩, rfl, fun _ => ?_, fun hdead => ?_⟩,
    fun hne => (hne htest).elim⟩
  · rw [hcontrol]
    exact .body hkind (congrArg Merge.types hend)
  · refine ⟨hsound, locals.toList, [], ?_, .nil htest, ?_⟩
    · rw [htypes, append_nil]
    · show R.Agree _ (locals.toList ++ [])
      rw [append_nil]
      exact .refl ..
  · cases hreachable.symm.trans hdead

theorem enter_drives (body : Array UInt8) (hfits : R.Fits module sig options) (hs : s.Blank) :
    Drives R (enter .compiler) (.initial module sig body options) s fun _ => Synchronized R := by
  refine ⟨fun _ ctx' s' hr => ?_, (enter_inStep body hfits hs).refused⟩
  have hreached : Reached .compiler (.initial module sig body options) s ctx' s' := .enter hr
  obtain ⟨horderly, hpromises⟩ := hreached.orderly hfits.admits
  have hsame := hreached.sameFunction
  refine ⟨?_, hpromises, horderly, (enter_inStep body hfits hs).ends _ _ _ hr⟩
  rw [hsame.module, hsame.sig, hsame.options]
  exact hfits

/-- A whole body: the code is finished. -/
theorem body_drives (body : Array UInt8) (hfits : R.Fits module sig options) (hs : s.Blank) :
    Drives R (Decode.body .compiler) (.initial module sig body options) s fun _ _ s' =>
      ∃ code, s'.Finished R (.ofNat s'.emitter.frameSize) code := by
  have hdrives : Drives R (enter .compiler >>= fun _ => do
      steps .compiler body.size; tell .compiler .finishFunction)
      (.initial module sig body options) s fun _ _ s' =>
        ∃ code, s'.Finished R (.ofNat s'.emitter.frameSize) code := by
    refine (enter_drives body hfits hs).bind fun _ ctx₁ s₁ h₁ => (steps_drives h₁ body.size).bind ?_
    rintro _ ctx₂ s₂ ⟨-, hcloses, label, hcontrol⟩
    exact Drives.of_tell (handle_upholds rfl (finishFunction_upholds hcloses hcontrol))
  have hrun := run_body .compiler (.initial module sig body options) s
  exact ⟨fun x ctx' s' hr => hdrives.ends x ctx' s' (hrun.symm.trans hr),
    fun b s' hr => hdrives.refused b s' (hrun.symm.trans hr)⟩

end Decode

section Compiling

variable {R : Regime} {module : Module} {sig : Signature} {body : Array UInt8}
  {decoderOptions : DecoderOptions} {options : CompileOptions}

/-- What is compiled is finished code. -/
theorem finished_of_compileFunction (hfits : R.Fits module sig decoderOptions)
    {f : CompiledFunction} (h : compileFunction module sig body decoderOptions options = .ok f) :
    ∃ s code, decodeBody .compiler (start options) module sig body decoderOptions = (.ok (), s) ∧
      f = .ofLowering s ∧ s.Finished R (.ofNat s.emitter.frameSize) code := by
  have hdrives := Decode.body_drives body hfits (blank_start options)
  unfold compileFunction decodeBody at h
  rcases hrun : ((Decode.body .compiler).run (.initial module sig body decoderOptions)).run.run
    (start options) with ⟨e | ⟨_, ctx⟩, s⟩ <;> rw [hrun] at h
  · cases h
  · obtain ⟨code, hcode⟩ := hdrives.ends _ _ _ hrun
    cases h
    refine ⟨s, code, ?_, rfl, hcode⟩
    unfold decodeBody
    rw [hrun]
    rfl

/-- Code generation gives up on nothing that the regime does not tolerate. -/
theorem tolerates_of_compileFunction (hfits : R.Fits module sig decoderOptions) {b : Bailout}
    (h : compileFunction module sig body decoderOptions options = .error (.unsupported b)) :
    R.Tolerates b := by
  have hdrives := Decode.body_drives body hfits (blank_start options)
  unfold compileFunction decodeBody at h
  rcases hrun : ((Decode.body .compiler).run (.initial module sig body decoderOptions)).run.run
    (start options) with ⟨e | ⟨_, ctx⟩, s⟩ <;> rw [hrun] at h
  · cases h
    exact hdrives.refused b s hrun
  · cases h

end Compiling

end OnePass
