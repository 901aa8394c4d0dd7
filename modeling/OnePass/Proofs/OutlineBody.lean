import OnePass.Proofs.Reading

/-!
Decoding a body follows its outline: with a listener that answers every event, whatever it answers,
decoding succeeds exactly if the outline does, and fails at the same offset.
-/
namespace OnePass

/-- No type that the function may refer to is `bottom`. -/
structure Setting.NoBottom (setting : Setting) : Prop where
  module : setting.module.NoBottom
  sig : setting.sig.NoBottom

/-- The outline of a decoding state. -/
structure Represents (setting : Setting) (ctx : Context) (o : Outline) : Prop where
  module : ctx.module = setting.module
  sig : ctx.sig = setting.sig
  options : ctx.options = setting.options
  reader : ctx.reader = o.reader
  locals : ctx.locals = o.locals
  frames : Matches ctx o.frames

variable {ctx : Context}

theorem Matches.isEmpty_control {frames : List Frame} (h : Matches ctx frames) :
    ctx.control.isEmpty = frames.isEmpty := by
  have hlength := h.framed.length_eq
  cases hc : ctx.control <;> cases frames <;> simp_all

namespace Decode

variable {σ : Type} {b : Backend σ}

/-- Decoding and its outline go on to states that agree, or both fail at the same offset. -/
def FollowsOutline (setting : Setting) (r : Except CompileError (Unit × Context))
    (q : Except Nat Outline) : Prop :=
  match r, q with
  | .ok (_, ctx), .ok o => Represents setting ctx o
  | .error (.decode e), .error offset => e.offset = offset
  | _, _ => False

variable {r : Except CompileError (Unit × Context)}

theorem FollowsOutline.cases {setting : Setting} {q : Except Nat Outline}
    (h : FollowsOutline setting r q) :
    (∃ ctx o, r = .ok ((), ctx) ∧ q = .ok o ∧ Represents setting ctx o) ∨
      ∃ e, r = .error (.decode e) ∧ q = .error e.offset := by
  unfold FollowsOutline at h
  split at h
  next ctx o => exact .inl ⟨ctx, o, rfl, rfl, h⟩
  next e offset => exact .inr ⟨e, rfl, by rw [h]⟩
  next => exact h.elim

/-- A read follows the outline's. -/
theorem Ends.read_bind {α : Type} {setting : Setting} {m : ReadM α} {k : α → DecodeM σ Unit}
    {q : α × Reader → Except Nat Outline}
    (hk : ∀ a r, Reader.Reads m ctx.reader a r →
      Ends (k a) { ctx with reader := r } fun res => FollowsOutline setting res (q (a, r))) :
    Ends (read m >>= k) ctx fun res =>
      FollowsOutline setting res (Outline.reading m ctx.reader >>= q) := by
  apply Ends.bind
  intro s
  rw [outcome, run_read, Outline.reading]
  rcases hm : m.run.run ctx.reader with ⟨e | a, r⟩
  · exact rfl
  · exact hk a r hm

/-- What the function of a decoding state refers to. -/
def setting (ctx : Context) : Setting := ⟨ctx.module, ctx.sig, ctx.options⟩

theorem Follows.represents {q : Except Nat (List Frame)} (h : Follows ctx r q) :
    FollowsOutline (setting ctx) r (do return ⟨ctx.reader, ctx.locals, ← q⟩) := by
  unfold Follows at h
  split at h
  next ctx' frames =>
    obtain ⟨hm, same⟩ := h
    exact ⟨same.module, same.sig, same.options, same.reader, same.locals, hm⟩
  next => exact h
  next => exact h.elim

variable {fs : List Frame} {f : Frame}

section

variable (hb : b.NeverBails) (hm : Matches ctx (f :: fs)) (hsetting : (setting ctx).NoBottom)
  (hlocals : .bottom ∉ ctx.locals)
include hb hm hsetting hlocals

/-- The instruction after its opcode; it began where `start` stands. -/
theorem follows_immediates {start : Reader} (hpc : ctx.pc = start.pos) (op : Opcode) : Ends (do
        let i ← read (Instruction.read (← get).scope op)
        instruction b i) ctx fun r => FollowsOutline (setting ctx) r (do
      let o : Outline := ⟨start, ctx.locals, f :: fs⟩
      let (i, reader) ← Outline.reading (Instruction.read (o.scope (setting ctx)) op) ctx.reader
      let frames ← Outline.advance (o.env (setting ctx)) reader start.pos i (f :: fs)
      return { o with reader, frames }) := by
  have hscope : Instruction.read ctx.scope op =
      Instruction.read (Outline.scope (setting ctx) ⟨start, ctx.locals, f :: fs⟩) op := by
    unfold Context.scope
    rw [hpc]
    refine Instruction.read_congr ?_ op
    rw [List.length_replicate, hm.framed.length_eq]
  apply Ends.get_bind
  rw [hscope]
  refine Ends.read_bind ?_
  intro i reader hread s
  have htypes : .bottom ∉ i.types := Instruction.bottom_not_mem_types hsetting.module hlocals hread
  have hm' : Matches { ctx with reader } (f :: fs) := ⟨hm.framed, hm.live⟩
  have hi := follows_instruction hb hm' hsetting.sig.results htypes s
  rw [← hpc]
  exact Follows.represents hi

theorem follows_step : Ends (step b) ctx fun r => FollowsOutline (setting ctx) r
      (Outline.step (setting ctx) ⟨ctx.reader, ctx.locals, f :: fs⟩) := by
  simp only [Outline.step, Outline.nextInstruction, bind_assoc]
  refine Ends.modify_bind (Ends.get_bind (Ends.read_bind ?_))
  intro op r _
  refine Ends.modify_bind (Ends.report_bind hb ?_ ?_)
  · have hm' : Matches { ctx with pc := ctx.reader.pos, reader := r, opcode := op } (f :: fs) :=
      ⟨hm.framed, hm.live⟩
    exact follows_immediates hb hm' hsetting hlocals rfl op
  · have hm' : Matches { ctx with pc := ctx.reader.pos, reader := r, opcode := op } (f :: fs) :=
      ⟨hm.framed, hm.live⟩
    exact follows_immediates hb hm'.markDead hsetting hlocals rfl op

end

theorem locals_of_step {setting : Setting} {o o' : Outline} (h : o.step setting = .ok o') :
    o'.locals = o.locals := by
  obtain ⟨⟨i, r⟩, -, h⟩ := Except.bind_eq_ok_iff.1 h
  obtain ⟨frames, -, h⟩ := Except.bind_eq_ok_iff.1 h
  cases h
  rfl

variable {o : Outline}

section

variable {setting : Setting} (hb : b.NeverBails) (h : Represents setting ctx o)
  (hsetting : setting.NoBottom) (hlocals : .bottom ∉ o.locals)
include hb h hsetting hlocals

theorem Represents.step (hframes : o.frames = f :: fs) :
    Ends (step b) ctx fun r => FollowsOutline setting r (o.step setting) := by
  have hs : Decode.setting ctx = setting := by
    rw [Decode.setting, h.module, h.sig, h.options]
  have ho : (⟨ctx.reader, ctx.locals, f :: fs⟩ : Outline) = o := by
    rw [h.reader, h.locals, ← hframes]
  have hm : Matches ctx (f :: fs) := hframes ▸ h.frames
  have hstep := follows_step hb hm (hs ▸ hsetting) (h.locals ▸ hlocals)
  rwa [hs, ho] at hstep

theorem follows_steps (fuel : Nat) :
    Ends (steps b fuel) ctx fun r => FollowsOutline setting r (o.steps setting fuel) := by
  induction fuel generalizing ctx o with
  | zero =>
    apply Ends.get_bind
    rw [h.frames.isEmpty_control, h.reader, Outline.steps]
    cases hframes : o.frames with
    | nil => exact Ends.of_pure h
    | cons f fs => exact fun _ => rfl
  | succ fuel ih =>
    apply Ends.get_bind
    rw [h.frames.isEmpty_control, h.reader, Outline.steps]
    cases hframes : o.frames with
    | nil => exact Ends.of_pure h
    | cons f fs =>
      cases o.reader.isAtEnd with
      | true => exact fun _ => rfl
      | false =>
        refine Ends.bind fun s => ?_
        obtain ⟨ctx', o', hr, hstep, h'⟩ | ⟨e, hr, hstep⟩ :=
          (Represents.step hb h hsetting hlocals hframes s).cases
        · have hrest := ih h' (locals_of_step hstep ▸ hlocals)
          rw [hr, hstep]
          exact hrest
        · rw [hr, hstep]
          exact rfl

end

theorem FollowsOutline.markDead {setting : Setting}
    (h : Represents setting ctx o) : Represents setting ctx.markDead o :=
  ⟨h.module, h.sig, h.options, h.reader, h.locals, h.frames.markDead⟩

/-- The instructions of a body, after its locals. -/
theorem follows_instructions (hb : b.NeverBails) (ctx : Context) (hsetting : (setting ctx).NoBottom)
    (hlocals : .bottom ∉ ctx.locals) (hcontrol : ctx.control = []) (fuel : Nat) :
    Ends (do
        modify fun ctx => { ctx with pc := ctx.reader.pos }
        let block ← check (Check.pushControl .block ⟨[], ctx.sig.results⟩)
        tell b (.startBody block)
        steps b fuel
        tell b .finishFunction) ctx fun r => FollowsOutline (setting ctx) r
      (Outline.steps (setting ctx) fuel (Outline.start (setting ctx) ctx.locals ctx.reader)) := by
  have hm : Matches { ctx with pc := ctx.reader.pos } [] :=
    ⟨hcontrol ▸ .nil _, fun _ g hg => by cases hg⟩
  obtain ⟨c, ctx₁, hpush, hm₁, same⟩ :=
    hm.pushControl .block ⟨[], ctx.sig.results⟩ List.not_mem_nil hsetting.sig.results
  refine Ends.modify_bind (Ends.check_bind hpush ?_)
  have h₁ : Represents (setting ctx) ctx₁ (Outline.start (setting ctx) ctx.locals ctx.reader) :=
    ⟨same.module, same.sig, same.options, same.reader, same.locals, hm₁⟩
  have hend : ∀ ctx₂, Represents (setting ctx)
      ctx₂ (Outline.start (setting ctx) ctx.locals ctx.reader) →
      Ends (do steps b fuel; tell b .finishFunction) ctx₂ fun r => FollowsOutline (setting ctx) r
        (Outline.steps (setting ctx) fuel (Outline.start (setting ctx) ctx.locals ctx.reader)) := by
    intro ctx₂ h₂
    refine Ends.bind fun s => ?_
    obtain ⟨ctx₃, o₃, hr, hsteps, h₃⟩ | ⟨e, hr, hsteps⟩ :=
      (follows_steps hb h₂ hsetting hlocals fuel s).cases
    · rw [hr, hsteps]
      exact Ends.of_tell hb h₃ (FollowsOutline.markDead h₃)
    · rw [hr, hsteps]
      exact rfl
  exact Ends.bind (Ends.of_tell hb (hend ctx₁ h₁) (hend ctx₁.markDead (FollowsOutline.markDead h₁)))

/-- With a listener that never bails out, decoding a body follows its outline. -/
theorem follows_body (hb : b.NeverBails) {module : Module} {sig : Signature}
    (options : DecoderOptions) (hsetting : Setting.NoBottom ⟨module, sig, options⟩)
    (bytes : Array UInt8) :
    Ends (body b) (.initial module sig bytes options) fun r =>
      FollowsOutline ⟨module, sig, options⟩ r (Outline.body ⟨module, sig, options⟩ bytes) := by
  refine Ends.get_bind (Ends.read_bind ?_)
  intro locals r hread
  have hlocals := bottom_not_mem_locals hsetting.sig hread
  let ctx : Context :=
    { Context.initial module sig bytes options with reader := r, locals := locals }
  refine Ends.modify_bind (Ends.bind (Ends.of_tell hb ?_ ?_))
  · exact follows_instructions hb ctx hsetting hlocals rfl bytes.size
  · exact follows_instructions hb ctx.markDead hsetting hlocals rfl bytes.size

end Decode

end OnePass
