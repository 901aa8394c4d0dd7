import OnePass.Proofs.Callbacks
import OnePass.Proofs.LockStepRuns

/-!
Decoder and code generation stay in lock step: wherever an instruction is announced, there is one
slot for each local, for each operand and for each operand that waits for a branch, and one entry
for each open construct.
-/
namespace OnePass

open List

open Lowering

/-- All types, and nothing said of operands. -/
def Regime.lax : Regime := ⟨fun _ => True, False, False, fun _ _ => trivial, False.elim⟩

theorem Regime.fits_lax (module : Module) (sig : Signature) (options : DecoderOptions) :
    Regime.lax.Fits module sig options where
  admits := ⟨fun _ _ => trivial, fun _ _ => trivial, fun _ _ _ _ _ _ _ _ _ _ _ _ _ _ => trivial⟩
  params _ _ := trivial
  globals _ _ := trivial
  full := False.elim
  indirect := False.elim
  imports := False.elim
  canonical := False.elim

/-- The current state and those that are kept. -/
def Lowering.states (s : Lowering) : List CacheState :=
  s.emitter.state :: s.control.flatMap ControlData.states

/-- The slots of code generation are those that the decoder sees, they are counted right, and the
frame has room for them. -/
structure Matched (ctx : Context) (s : Lowering) : Prop where
  locals : s.emitter.numLocals = ctx.locals.size
  height : s.emitter.state.height = s.emitter.numLocals + ctx.stack.size + s.waiting
  control : s.control.length = ctx.controlDepth
  consistent : s.emitter.state.isConsistent = true
  room : ∀ t ∈ s.states, ∀ slot ∈ t.slots, slot.offset ≤ s.emitter.state.maxOffset

theorem LockStep.matched {R : Regime} {ctx : Context} {s : Lowering} (h : LockStep R ctx s)
    (hlayers : Layers R.allows ctx.stack.toList ctx.control) (hlive : ctx.live = true) :
      Matched ctx s := by
  obtain ⟨⟨is, hsound⟩, ts, ps, hts, hps, hagree⟩ := h.stands hlive
  have hheight : s.emitter.state.height = s.emitter.state.types.length := by
    rw [CacheState.height, CacheState.types, length_map, Array.length_toList]
  refine ⟨h.locals, ?_, h.control.length fun c hc => ?_, hsound.state.isConsistent, fun t ht => ?_⟩
  · rw [hheight, hts, length_append, hps.length_eq, hagree.length, h.locals]
    simp [Context.operandTypes]
  · refine hlayers.isReachable (fun c hc => ?_) c (mem_of_mem_tail hc)
    obtain ⟨outer, hcontrol⟩ := head?_eq_some_iff.1 hc
    have hcurrent : ctx.current = c := by
      rw [Context.current, Context.controlAt, hcontrol]
      rfl
    rw [← hcurrent, ← h.live, hlive]
  · intro slot hslot
    rcases mem_cons.1 ht with rfl | ht
    · exact hsound.state.offset_le hslot
    · obtain ⟨d, hd, ht⟩ := mem_flatMap.1 ht
      obtain ⟨hregular, hle⟩ := hsound.saved d hd t ht
      exact Nat.le_trans (hregular.offset_le hslot) hle

namespace Decode

variable {R : Regime} {ctx : Context} {s : Lowering}

/-- What is known where an instruction is announced. -/
def Announced (c : Call Lowering) : Prop := c.event.announces = true → Matched c.context c.state

theorem announced_of_not {c : Call Lowering} (h : c.event.announces = false) : Announced c :=
  fun hyes => by simp [h] at hyes

theorem fetch_announced (h : Synchronized R ctx s) (hopen : ctx.control ≠ []) :
    Calls .compiler Announced (fetch Backend.compiler.watched) (fetch .compiler) ctx s := by
  obtain ⟨-, hlock, -⟩ := h.inStep.resolve_right fun hended => hopen hended.1
  obtain ⟨-, hlayers⟩ := h.orderly.resolve_right fun hclosed => hopen hclosed.1
  refine .bind (.modify _) ?_
  rintro _ _ _ ⟨⟩
  refine .bind .get ?_
  rintro _ _ _ ⟨⟩
  refine .bind (.read _) fun op ctx₁ s₁ hr => .bind (.modify _) ?_
  rintro _ _ _ ⟨⟩
  refine .bind (.report fun hlive _ => ?_) fun _ _ _ _ => .bind .get fun _ _ _ _ => .read _
  rw [run_read] at hr
  split at hr <;> cases hr
  have hmatched := hlock.matched hlayers hlive
  exact ⟨hmatched.locals, hmatched.height, hmatched.control, hmatched.consistent, hmatched.room⟩

theorem step_announced (h : Synchronized R ctx s) (hopen : ctx.control ≠ []) :
    Calls .compiler Announced (step Backend.compiler.watched) (step .compiler) ctx s := by
  rw [step_eq, step_eq]
  exact .bind (fetch_announced h hopen) fun i ctx s _ =>
    (Calls.instruction i ctx s).mono fun _ hc => announced_of_not hc.1

section Runs

variable {Q : Call Lowering → Prop}
  (hstep : ∀ {ctx : Context} {s : Lowering}, Synchronized R ctx s → ctx.control ≠ [] →
    Calls .compiler Q (step Backend.compiler.watched) (step .compiler) ctx s)

include hstep

/-- What every step calls, all of them call. -/
theorem steps_calls (h : Synchronized R ctx s) (fuel : Nat) :
    Calls .compiler Q (steps Backend.compiler.watched fuel) (steps .compiler fuel) ctx s := by
  induction fuel generalizing ctx s with
  | zero =>
    refine .bind .get ?_
    rintro _ _ _ ⟨⟩
    exact .ite (fun _ => .throw _) fun _ => .pure _
  | succ fuel ih =>
    refine .bind .get ?_
    rintro _ _ _ ⟨⟩
    refine .ite (fun _ => .pure _) fun hopen => .ite (fun _ => .throw _) fun _ => ?_
    have hopen' : ctx.control ≠ [] := by simpa using hopen
    exact .bind (hstep h hopen') fun _ ctx' s' hr => ih ((step_drives h hopen').ends _ _ _ hr)

theorem body_calls {module : Module} {sig : Signature} {options : DecoderOptions}
    (body : Array UInt8) (henter : Calls .compiler Q (enter Backend.compiler.watched)
      (enter .compiler) (.initial module sig body options) s)
    (hfinish : ∀ ctx s, Q ⟨ctx, .finishFunction, s⟩)
    (hfits : R.Fits module sig options) (hs : s.Blank) :
    Calls .compiler Q (Decode.body Backend.compiler.watched) (Decode.body .compiler)
      (.initial module sig body options) s := by
  have hcalls : Calls .compiler Q (enter Backend.compiler.watched >>= fun _ => do
        steps Backend.compiler.watched body.size
        tell Backend.compiler.watched .finishFunction)
      (enter .compiler >>= fun _ => do
        steps .compiler body.size
        tell .compiler .finishFunction) (.initial module sig body options) s :=
    .bind henter fun _ _ _ hr =>
      .bind (steps_calls hstep ((enter_drives body hfits hs).ends _ _ _ hr) body.size)
        fun _ _ _ _ => .tell (hfinish _ _)
  refine ⟨fun calls => ?_⟩
  have hrun := run_body .compiler (.initial module sig body options) s
  have hrun' := run_body Backend.compiler.watched (.initial module sig body options) (s, calls)
  rw [hrun, hrun']
  exact hcalls.ends calls

end Runs

end Decode

/-- The calls that compiling a function makes to code generation. -/
def compileCalls (module : Module) (sig : Signature) (body : Array UInt8)
    (decoderOptions : DecoderOptions) (options : CompileOptions) : List (Call Lowering) :=
  (decodeBody Backend.compiler.watched (.start options, []) module sig body decoderOptions).2.2

section

variable (module : Module) (sig : Signature) (body : Array UInt8) (decoderOptions : DecoderOptions)
  (options : CompileOptions)

theorem decodeBody_calls {Q : Call Lowering → Prop}
    (hbody : Decode.Calls .compiler Q (Decode.body Backend.compiler.watched) (Decode.body .compiler)
      (.initial module sig body decoderOptions) (.start options)) : ∃ calls, Backend.compiler.Leads
        (.start options) calls
          (decodeBody .compiler (.start options) module sig body decoderOptions).2 ∧
      (∀ c ∈ calls, Q c) ∧ decodeBody Backend.compiler.watched (.start options, [])
        module sig body decoderOptions =
        ((decodeBody .compiler (.start options) module sig body decoderOptions).1,
          (decodeBody .compiler (.start options) module sig body decoderOptions).2, calls) := by
  obtain ⟨calls, hrun, hleads, hcalls⟩ := hbody.ends []
  refine ⟨calls, hleads, hcalls, ?_⟩
  unfold decodeBody
  rw [show ((Decode.body Backend.compiler.watched).run
    (.initial module sig body decoderOptions)).run.run (start options, []) = _ from hrun]
  rfl

theorem decodeBody_watched : ∃ calls, Backend.compiler.Leads (.start options) calls
      (decodeBody .compiler (.start options) module sig body decoderOptions).2 ∧
    (∀ c ∈ calls, Decode.Announced c) ∧ decodeBody Backend.compiler.watched (.start options, [])
      module sig body decoderOptions =
      ((decodeBody .compiler (.start options) module sig body decoderOptions).1,
        (decodeBody .compiler (.start options) module sig body decoderOptions).2, calls) :=
  decodeBody_calls module sig body decoderOptions options
    (Decode.body_calls Decode.step_announced body (.enter fun _ _ =>
        ⟨Decode.announced_of_not rfl, fun _ => Decode.announced_of_not rfl⟩)
      (fun _ _ => Decode.announced_of_not rfl) (Regime.fits_lax module sig decoderOptions)
      (blank_start options))

end

/-- Wherever an instruction is announced to code generation, it has a slot for each local, each
operand and each operand that waits for a branch, it knows of as many constructs as are open, and
its registers are counted right. -/
theorem slots_match_operands (module : Module) (sig : Signature) (body : Array UInt8)
    (decoderOptions : DecoderOptions) (options : CompileOptions) {c : Call Lowering} {op : Opcode}
    (hc : c ∈ compileCalls module sig body decoderOptions options)
      (hop : c.event = .nextInstruction op) :
    c.state.emitter.numLocals = c.context.locals.size ∧ c.state.emitter.state.height =
        c.state.emitter.numLocals + c.context.stack.size + c.state.waiting ∧
      c.state.control.length = c.context.controlDepth ∧
        c.state.emitter.state.isConsistent = true := by
  obtain ⟨calls, -, hcalls, hrun⟩ := decodeBody_watched module sig body decoderOptions options
  rw [compileCalls, hrun] at hc
  have hmatched := hcalls c hc (by rw [hop]; rfl)
  exact ⟨hmatched.locals, hmatched.height, hmatched.control, hmatched.consistent⟩

/-- A comparison before `br_if` waits with its second operand, above a local and inside a block. -/
theorem slots_match_operands_fusedBranch :
    let body : Array UInt8 :=
      #[0x00, 0x02, 0x40, 0x20, 0x00, 0x41, 0x02, 0x48, 0x0D, 0x00, 0x0B, 0x0B]
    ∃ c ∈ compileCalls {} ⟨[.i32], []⟩ body { validation := .trusted } {},
      c.event = .nextInstruction .brIf ∧ c.state.waiting = 1 ∧ c.context.stack.size = 1 ∧
        c.state.emitter.numLocals = c.context.locals.size ∧
        c.state.emitter.state.height =
          c.state.emitter.numLocals + c.context.stack.size + c.state.waiting ∧
        c.state.control.length = c.context.controlDepth ∧
        c.state.emitter.state.isConsistent = true := by
  intro body
  have hfind : (compileCalls {} ⟨[.i32], []⟩ body { validation := .trusted } {}).any (fun c =>
      c.event == .nextInstruction .brIf && c.state.waiting == 1 && c.context.stack.size == 1) =
      true := by
    decide +kernel
  obtain ⟨c, hc, hcond⟩ := any_eq_true.1 hfind
  simp only [Bool.and_eq_true, beq_iff_eq] at hcond
  obtain ⟨⟨hop, hwaiting⟩, hsize⟩ := hcond
  exact ⟨c, hc, hop, hwaiting, hsize, slots_match_operands _ _ _ _ _ hc hop⟩

end OnePass
