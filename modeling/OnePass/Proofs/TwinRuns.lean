import OnePass.Proofs.TwinInstructions

/-!
Whole bodies in two runs side by side: validation, and a run whose listener calls code dead after
accesses to memory but never bails out. The runs visit the same instructions and stop at the same
one. What they report there differs at most if the instruction is dead for the second listener.
-/
namespace OnePass

open List

variable {trusted : Bool} {v c : Context}

/-- The state at another place of the body. -/
def Context.at (ctx : Context) (pc : Nat) (opcode : Opcode) (reader : Reader) : Context :=
  { ctx with pc, opcode, reader }

theorem Twins.at (h : Twins trusted v c) (pc : Nat) (opcode : Opcode) (reader : Reader) :
    Twins trusted (v.at pc opcode reader) (c.at pc opcode reader) :=
  ⟨⟨⟨h.mode, ⟨h.setting.module, h.setting.sig, h.setting.options, rfl, h.setting.locals, rfl⟩, rfl,
    h.opened, h.narrows, h.nested, h.base, h.base', h.types, h.values⟩, h.size, h.innerTypes,
    h.innerValues⟩, h.live, h.live'⟩

/-- One construct is open, and there are no operands. -/
theorem Twins.start {ctx : Context} {block : Control} (hcontrol : ctx.control = [block])
    (hdepth : block.stackDepth = 0) (hreached : block.endMerge.reached = false)
    (hlive : ctx.live = block.isReachable) : Twins ctx.options.trusted ctx ctx := by
  have hcurrent : ctx.current = block := by rw [Context.current, Context.controlAt, hcontrol]; rfl
  constructor
  case live => rw [hlive, hcurrent]
  case live' => rw [hlive, hcurrent]
  refine ⟨⟨rfl, .refl ctx, rfl, ?_, ?_, ?_, ?_, ?_, fun _ _ _ => rfl, fun _ _ _ => rfl⟩, rfl,
    fun _ _ _ => rfl, fun _ _ _ => rfl⟩
  · exact hcontrol ▸ cons_ne_nil _ _
  · exact hcontrol ▸ .cons (.refl fun _ => hreached) .nil
  · exact hcontrol ▸ pairwise_singleton _ _
  · rw [hcurrent, hdepth]
    exact Nat.zero_le _
  · rw [hcurrent, hdepth]
    exact Nat.zero_le _

namespace Decode

variable {σ α : Type} {b : Backend σ} {live : Prop} {setting : Setting} {v' c' start v c : Context}

theorem Aligned.at (h : Aligned v c) (pc : Nat) (opcode : Opcode) (reader : Reader) :
    Aligned (v.at pc opcode reader) (c.at pc opcode reader) := by
  obtain ⟨f, fs, hv, hc⟩ := h
  exact ⟨f, fs, ⟨hv.framed, hv.live⟩, ⟨hc.framed, hc.live⟩⟩

namespace Mirror

/-- Both runs read the same. -/
theorem read {m m' : ReadM α} (hm : m' = m) (hreader : c.reader = v.reader) :
    Mirror (σ := σ) live (fun x y v' c' => x = y ∧ ∃ r, Reader.Reads m v.reader x r ∧
      v' = { v with reader := r } ∧ c' = { c with reader := r }) (read m) (read m') v c := by
  intro s t hs
  subst hm
  simp only [Decode.read, hreader]
  rcases hread : m'.run.run v.reader with ⟨e | x, r⟩
  · exact .fault (.inl rfl) hs
  · exact .ok ⟨rfl, r, hread, rfl, rfl⟩ hs

/-- Both runs come to the same instruction, or fail to read it. -/
theorem fetch (hb : b.Calm) (h : Twins trusted v c) :
    Mirror live (fun i j v' c' => i = j ∧ ∃ pc op r, v' = v.at pc op r ∧ c' = c.at pc op r)
      (fetch Backend.validator.logged) (fetch b.logged) v c := by
  have hreader := h.setting.reader
  refine modify_bind (get_bind (bind (read (by rw [h.setting.options]) hreader) ?_))
  rintro op _ _ _ ⟨rfl, r, -, rfl, rfl⟩
  refine modify_bind (reportThen hb ?_ ?_ (fun _ => rfl) rfl (get_bind ((read ?_ ?_).mono ?_)))
  · exact congrArg Reader.pos hreader
  · exact h.reports
  · simp only [Context.scope, h.setting.module, h.setting.options, h.setting.locals, hreader]
    exact Instruction.read_congr h.narrows.length_eq.symm op
  · rfl
  · rintro i _ _ _ ⟨rfl, r', -, rfl, rfl⟩
    refine ⟨rfl, v.reader.pos, op, r', rfl, ?_⟩
    rw [hreader]
    rfl

end Mirror

/-- The run ends with a fault in an instruction that is dead for the listener. -/
def DeadFault (b : Backend σ) (start : Context) (s₀ : σ) (e : DecodeError) (s' : σ) : Prop :=
  ∃ ctx s i, Visits b start s₀ ctx s i ∧ ctx.live = false ∧
    (instruction b i ctx).run s = (.error (.decode e), s')

/-- The same fault, or another one of the same operands found in dead code. -/
def SameReport (b : Backend σ) (start : Context) (s₀ : σ) (e e' : DecodeError) (s' : σ) : Prop :=
  e = e' ∨ DeadFault b start s₀ e' s' ∧ e.offset = e'.offset ∧ e.IsOperandFault ∧ e'.IsOperandFault

/-- States of both runs that have come to the same place. -/
structure Abreast (setting : Setting) (o : Outline) (v c : Context) : Prop where
  joined : Joined setting.options.trusted () () v c
  left : Represents setting v o
  right : Represents setting c o

variable {o : Outline}

theorem Abreast.isEmpty_control (h : Abreast setting o v c) :
    c.control.isEmpty = v.control.isEmpty := by
  rw [h.left.frames.isEmpty_control, h.right.frames.isEmpty_control]

theorem Abreast.reader (h : Abreast setting o v c) : c.reader = v.reader := by
  rw [h.left.reader, h.right.reader]

/-- Where a construct is open, the states are twins with one outline. -/
theorem Abreast.twins (h : Abreast setting o v c)
    (hopen : v.control.isEmpty = false) : Twins setting.options.trusted v c ∧ Aligned v c := by
  constructor
  · refine h.joined.resolve_right fun hended => ?_
    rw [hended.control] at hopen
    cases hopen
  · cases hframes : o.frames with
    | nil =>
      rw [h.left.frames.isEmpty_control, hframes] at hopen
      cases hopen
    | cons f fs => exact ⟨f, fs, hframes ▸ h.left.frames, hframes ▸ h.right.frames⟩

/-- After a step that went well in both runs they are abreast again. -/
theorem Abreast.step (hb : b.Calm) (hsetting : setting.NoBottom)
    (h : Abreast setting o v c) (hlocals : .bottom ∉ o.locals) (hopen : v.control.isEmpty = false)
      {s s' : Unit × List Notice} {t t' : σ × List Notice}
    (hv : (step Backend.validator.logged v).run s = (.ok ((), v'), s'))
    (hc : (step b.logged c).run t = (.ok ((), c'), t'))
    (hjoined : Joined setting.options.trusted () () v' c') :
    ∃ o', Abreast setting o' v' c' ∧ .bottom ∉ o'.locals := by
  obtain ⟨f, fs, hframes⟩ : ∃ f fs, o.frames = f :: fs := by
    rw [h.left.frames.isEmpty_control] at hopen
    cases hframes : o.frames with
    | nil => rw [hframes] at hopen; cases hopen
    | cons f fs => exact ⟨f, fs, rfl⟩
  have hleft := Represents.step Backend.validator_neverBails.logged h.left
    hsetting hlocals hframes s
  have hright := Represents.step hb.neverBails.logged h.right hsetting hlocals hframes t
  rw [outcome, hv] at hleft
  rw [outcome, hc] at hright
  obtain ⟨_, o', hv', ho, hleft⟩ | ⟨e, hv', -⟩ := hleft.cases <;> cases hv'
  obtain ⟨_, o'', hc', ho', hright⟩ | ⟨e, hc', -⟩ := hright.cases <;> cases hc'
  rw [ho] at ho'
  cases ho'
  exact ⟨o', ⟨hjoined, hleft, hright⟩, locals_of_step ho ▸ hlocals⟩

variable {t₀ : σ × List Notice} {s : Unit × List Notice} {t : σ × List Notice}

/-- One step of both runs. -/
theorem step_sideBySide (hb : b.Calm) (h : Twins trusted v c) (halign : Aligned v c)
    (hresults : .bottom ∉ v.sig.results) (hreached : Reached b.logged start t₀ c t)
    (hopen : c.control.isEmpty = false) (hleft : c.reader.isAtEnd = false) (hs : Covers s t) :
    SideBySide (SameReport b.logged start t₀) (Joined trusted)
      ((step Backend.validator.logged v).run s) ((step b.logged c).run t) := by
  have hfetch : Mirror True _ _ _ v c := Mirror.fetch hb h
  have hfetch := hfetch s t hs
  rw [step_eq, step_eq, run_bind, run_bind]
  rcases hfv : (fetch Backend.validator.logged v).run s with ⟨rv, s₁⟩
  rcases hfc : (fetch b.logged c).run t with ⟨rc, t₁⟩
  rw [hfv, hfc] at hfetch
  cases hfetch with
  | fault hsame hs => exact .fault (.inl (hsame.resolve_right fun hn => hn.1 trivial)) hs
  | @ok i _ _ _ _ _ hpost hs =>
    obtain ⟨rfl, pc, op, r, rfl, rfl⟩ := hpost
    have htwins := h.at pc op r
    have hi := Paired.instruction ⟨htwins, Iff.rfl⟩ hb (fun _ => halign.at pc op r)
      hresults i s₁ t₁ hs
    rcases hiv : (instruction Backend.validator.logged i (v.at pc op r)).run s₁ with ⟨rv, s₂⟩
    rcases hic : (instruction b.logged i (c.at pc op r)).run t₁ with ⟨rc, t₂⟩
    rw [hiv, hic] at hi
    dsimp only
    rw [hiv, hic]
    cases hi with
    | ok hpost hs => exact .ok hpost hs
    | fault hsame hs =>
      refine .fault (hsame.imp_right fun ⟨hdead, hrest⟩ => ⟨?_, hrest⟩) hs
      refine ⟨_, t₁, i, ⟨c, t, hreached, hopen, hleft, hfc⟩, ?_, hic⟩
      rw [htwins.live']
      simpa using hdead

/-- The rest of both runs. -/
theorem steps_sideBySide (hb : b.Calm) (hsetting : setting.NoBottom) (fuel : Nat)
    (h : Abreast setting o v c)
    (hlocals : .bottom ∉ o.locals) (hreached : Reached b.logged start t₀ c t) (hs : Covers s t) :
    SideBySide (SameReport b.logged start t₀) (fun _ _ v' c' => c'.pc = v'.pc)
      ((steps Backend.validator.logged fuel v).run s) ((steps b.logged fuel c).run t) := by
  have hpc : ∀ {v c : Context}, Joined setting.options.trusted () () v c → c.pc = v.pc := by
    rintro v c (htwins | hended)
    · exact htwins.setting.pc
    · exact hended.pc
  induction fuel generalizing v c o s t with
  | zero =>
    rw [steps, steps, run_get_bind, run_get_bind, h.isEmpty_control, h.reader]
    cases v.control.isEmpty with
    | true => exact .ok (hpc h.joined) hs
    | false => exact .fault (.inl rfl) hs
  | succ fuel ih =>
    rw [steps, steps, run_get_bind, run_get_bind, h.isEmpty_control, h.reader]
    cases hopen : v.control.isEmpty with
    | true => exact .ok (hpc h.joined) hs
    | false =>
      cases hleft : v.reader.isAtEnd with
      | true => exact .fault (.inl rfl) hs
      | false =>
        have hopen' := h.isEmpty_control.trans hopen
        have hleft' : c.reader.isAtEnd = false := h.reader ▸ hleft
        obtain ⟨htwins, halign⟩ := h.twins hopen
        have hresults : .bottom ∉ v.sig.results := h.left.sig ▸ hsetting.sig.results
        have hstep := step_sideBySide hb htwins halign hresults hreached hopen' hleft' hs
        simp only [Bool.false_eq_true, if_false]
        rw [run_bind, run_bind]
        rcases hv : (step Backend.validator.logged v).run s with ⟨rv, s₁⟩
        rcases hc : (step b.logged c).run t with ⟨rc, t₁⟩
        rw [hv, hc] at hstep
        cases hstep with
        | fault hsame hs => exact .fault hsame hs
        | ok hjoined hs =>
          obtain ⟨o', h', hlocals'⟩ := h.step hb hsetting hlocals hopen hv hc hjoined
          exact ih h' hlocals' (.step hreached hopen' hleft' hc) hs

variable {module : Module} {sig : Signature}

section

variable (hb : b.Calm) (bytes : Array UInt8) (options : DecoderOptions)
  (hsetting : Setting.NoBottom ⟨module, sig, options⟩)
include hb hsetting

/-- Both runs up to the first instruction. -/
theorem enter_sideBySide :
    Mirror True (fun _ _ v c => ∃ o, Abreast ⟨module, sig, options⟩ o v c ∧ .bottom ∉ o.locals)
      (enter Backend.validator.logged) (enter b.logged) (.initial module sig bytes options)
      (.initial module sig bytes options) := by
  refine Mirror.get_bind (Mirror.bind (Mirror.read rfl rfl) ?_)
  rintro locals _ _ _ ⟨rfl, r, hread, rfl, rfl⟩
  have hlocals := bottom_not_mem_locals hsetting.sig hread
  refine Mirror.modify_bind (Mirror.told hb rfl rfl (Mirror.modify_bind ?_) fun h => by cases h)
  let ctx : Context := ⟨module, sig, options, r, locals, #[], [], true, r.pos, .nop⟩
  have hm : Matches ctx [] := ⟨.nil _, fun _ _ hg => by cases hg⟩
  obtain ⟨block, ctx₁, hpush, hm₁, same⟩ :=
    hm.pushControl .block ⟨[], sig.results⟩ not_mem_nil hsetting.sig.results
  refine Mirror.check_ok_bind hpush hpush ?_
  have h₁ : Represents ⟨module, sig, options⟩
      ctx₁ (Outline.start ⟨module, sig, options⟩ locals r) :=
    ⟨same.module, same.sig, same.options, same.reader, same.locals, hm₁⟩
  obtain ⟨hcontrol, hdepth, hreached, hlive⟩ : ctx₁.control = [block] ∧ block.stackDepth = 0 ∧
      block.endMerge.reached = false ∧ ctx₁.live = block.isReachable := by
    cases hpush
    exact ⟨rfl, rfl, rfl, rfl⟩
  have htwins := Twins.start hcontrol hdepth hreached hlive
  rw [same.options] at htwins
  rw [← bind_pure (tell Backend.validator.logged _), ← bind_pure (tell b.logged _)]
  exact Mirror.told hb rfl rfl (Mirror.pure ⟨_, ⟨.inl htwins, h₁, h₁⟩, hlocals⟩) fun h => by cases h

/-- Both runs over a body. -/
theorem body_sideBySide (s₀ : σ) :
    SideBySide (SameReport b.logged (.initial module sig bytes options) (s₀, []))
      (fun _ _ _ _ => True)
      ((body Backend.validator.logged (.initial module sig bytes options)).run ((), []))
      ((body b.logged (.initial module sig bytes options)).run (s₀, [])) := by
  have henter := enter_sideBySide hb bytes options hsetting ((), []) (s₀, []) (Sublist.refl _)
  rw [run_body, run_body, run_bind, run_bind]
  rcases hv : (enter Backend.validator.logged (.initial module sig bytes options)).run ((), [])
    with ⟨rv, s₁⟩
  rcases hc : (enter b.logged (.initial module sig bytes options)).run (s₀, []) with ⟨rc, t₁⟩
  rw [hv, hc] at henter
  cases henter with
  | fault hsame hs => exact .fault (.inl (hsame.resolve_right fun hn => hn.1 trivial)) hs
  | ok hpost hs =>
    obtain ⟨o, h, hlocals⟩ := hpost
    have hsteps := steps_sideBySide hb hsetting (Context.initial module sig bytes options).bodySize
      h hlocals (.enter hc) hs
    dsimp only
    rw [run_bind, run_bind]
    generalize (steps Backend.validator.logged _ _).run s₁ = rv at hsteps ⊢
    generalize (steps b.logged _ _).run t₁ = rc at hsteps ⊢
    cases hsteps with
    | fault hsame hs => exact .fault hsame hs
    | @ok _ _ v c s₂ t₂ hpc hs =>
      obtain ⟨c', t', hrun, -, hlog⟩ := Mirror.run_tell_logged hb .finishFunction c t₂
      dsimp only
      rw [Mirror.run_tell_validator, hrun]
      refine .ok trivial ?_
      simp only [Covers, hlog, map_append, hpc]
      exact hs.append (Sublist.refl _)

end

end Decode

end OnePass
