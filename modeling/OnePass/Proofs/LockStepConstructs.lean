import OnePass.Proofs.LockStepInstructions

/-!
Constructs keep the decoder and code generation in step. What is opened in dead code stays unknown
to code generation until it is closed; a `try` in live code is refused.
-/
namespace OnePass

variable {found expected : List ValueType}

open List

open Lowering

theorem Regime.Agree.of_subtypes {R : Regime}
    (hlength : found.length = expected.length) (hfound : ∀ ty ∈ found, R.allows ty)
    (h : R.typed → Forall₂ (fun want ty => ty.isSubtypeOf want = true) expected found) :
    R.Agree found expected := by
  refine ⟨hlength, fun ht => ?_⟩
  have hsame : Forall₂ (· = ·) found expected := by
    refine forall₂_iff_get.2 ⟨hlength, fun i hi hi' => ?_⟩
    have hsub := (forall₂_iff_get.1 (h ht)).2 i hi' hi
    have hproper := R.strict ht _ (hfound _ (get_mem found ⟨i, hi⟩))
    simp only [ValueType.isSubtypeOf, Bool.or_eq_true, beq_iff_eq] at hsub
    exact hsub.resolve_right hproper
  rwa [forall₂_eq_eq_eq] at hsame

/-- Operands that pass for the expected types. -/
theorem Regime.Agree.of_accepts {R : Regime} {trusted : Bool}
    {vs : List Value} (hfull : R.typed → trusted = false) (hexpected : ∀ ty ∈ expected, R.allows ty)
    (hvs : ∀ v ∈ vs, R.allows v.ty)
    (h : Forall₂ (fun ty v => Accepts trusted ty v) expected vs) :
    R.Agree (vs.map Value.ty) expected := by
  refine ⟨by rw [length_map, h.length_eq], fun ht => ?_⟩
  induction h with
  | nil => rfl
  | cons haccepts _ ih =>
    rw [map_cons, haccepts.same hfull (hexpected _ mem_cons_self)
      (hvs _ mem_cons_self) ht, ih (fun ty hty => hexpected ty (mem_cons_of_mem _ hty))
      fun v hv => hvs v (mem_cons_of_mem _ hv)]

namespace Lowering

variable {R : Regime} {ctx : Context} {s s' : Lowering} {ts under rest ps : List ValueType}
  {a : ValueType} {b : Control}

/-- A construct was opened above slots of the types `under`. -/
structure Opened (R : Regime) (under : List ValueType) (b : Control) (s s' : Lowering) : Prop where
  data : ∃ d, s'.control = d :: s.control ∧ Tracks R s'.emitter under b d
  later : s.Later s'
  test : s'.pendingTest = none
  stands : Standing R (under ++ b.startMerge.types) s'

theorem At.standing (h : At R s [] ts s') (htest : s'.pendingTest = none) {us : List ValueType}
    (hagree : R.Agree ts us) : Standing R us s' := by
  exact ⟨h.sound, ts, [], by rw [h.types, append_nil], .nil htest, hagree⟩

theorem block_opened (h : At R s [] ts s) (htest : s.pendingTest = none) (hkind : b.kind = .block)
    (hend : b.endMerge.reached = false) (hagree : R.Agree ts (under ++ b.startMerge.types)) :
    Upholds R (lower ctx (.block b)) s fun _ => Opened R under b s := by
  refine (block_upholds h b).mono fun _ s' ⟨label, h'⟩ => ?_
  have htest' : s'.pendingTest = none := h'.test.trans htest
  refine ⟨⟨_, h'.control, ?_⟩, h'.later.forget, htest', At.standing (s := s') h'.here htest' hagree⟩
  refine ⟨by simp [Control.isTry, hkind], ?_, nofun, fun hl => ?_, ?_, nofun⟩
  · simp [Control.isLoop, hkind, hend]
  · simp [Control.isLoop, hkind] at hl
  · simp [Control.isOneArmedIf, hkind]

theorem loop_opened (h : At R s [] ts s) (hlocals : s.emitter.numLocals ≤ ts.length)
    (htest : s.pendingTest = none) (hkind : b.kind = .loop)
    (hend : b.endMerge.reached = false) (hagree : R.Agree ts (under ++ b.startMerge.types)) :
    Upholds R (lower ctx (.loop b)) s fun _ => Opened R under b s := by
  refine (loop_upholds h hlocals b).mono ?_
  rintro _ s' ⟨label, state, hstate, hbound, h'⟩
  have htest' : s'.pendingTest = none := h'.test.trans htest
  have hloop : b.isLoop = true := by simp [Control.isLoop, hkind]
  refine ⟨⟨_, h'.control, ?_⟩, h'.later.forget, htest', At.standing (s := s') h'.here htest' hagree⟩
  refine ⟨by simp [Control.isTry, hkind], ?_, fun t ht => ?_, fun _ => ⟨hbound, hend⟩,
    ?_, by rintro _ ⟨⟩⟩
  · simp [hloop]
  · cases ht
    rw [Control.branchMerge, if_pos hloop, hstate]
    exact hagree
  · simp [Control.isOneArmedIf, hkind]

theorem ifThen_opened {cond : Value} (h : At R s [] (rest ++ [a] ++ ps) s)
    (hps : s.Awaits ps) (hkind : b.kind = .ifThen) (hend : b.endMerge.reached = false)
    (hagree : R.Agree rest (under ++ b.startMerge.types)) :
    Upholds R (lower ctx (.ifThen cond b)) s fun _ => Opened R under b s := by
  refine (ifThen_upholds h hps b).mono fun _ s' ⟨label, arm, harm, h'⟩ => ?_
  have htest' : s'.pendingTest = none := h'.test
  refine ⟨⟨_, h'.control, ?_⟩, h'.later.forget, htest', At.standing (s := s') h'.here htest' hagree⟩
  refine ⟨by simp [Control.isTry, hkind], ?_, nofun, fun hl => ?_, ?_, fun arm' harm' => ?_⟩
  · simp [Control.isLoop, hkind, hend]
  · simp [Control.isLoop, hkind] at hl
  · simp [Control.isOneArmedIf, hkind]
  · cases harm'
    rw [harm]
    exact hagree

end Lowering

section

variable {R : Regime} {ctx : Context} {c p : Control} {outer : List Control}
  {below ops : List Value} {s s' : Lowering}

/-- What code generation knows of the constructs around the innermost one, whatever the operands
above them. -/
def Around (R : Regime) (ctx : Context) (e : Emitter) (below : List Value) (outer : List Control)
    (ds : List ControlData) : Prop :=
  ∀ ops : List Value, Mirrors R e ctx.locals.toList ((below ++ ops).map Value.ty) ctx.sig.results
    outer ds

variable {ds : List ControlData}

theorem Around.of_mirrors (hinner : Layers R.allows below outer)
    (h : Mirrors R s.emitter ctx.locals.toList ((below ++ ops).map Value.ty) ctx.sig.results outer
      ds) : Around R ctx s.emitter below outer ds := by
  refine fun ops' => h.restack fun c' hc' => ?_
  have hle : c'.stackDepth ≤ (below.map Value.ty).length := by
    rw [length_map]
    exact hinner.depth_le c' hc'
  rw [map_append, map_append, take_append_of_le_length hle, take_append_of_le_length hle]

theorem Around.later (h : Around R ctx s.emitter below outer ds)
    (hlater : s.Later s') : Around R ctx s'.emitter below outer ds :=
  fun ops => (h ops).mono hlater.bound

/-- A construct inside another one. Code generation knows of it if the other one is reachable. -/
theorem Facing.nested (h : Facing R ctx c (p :: outer) below ops s) :
    (p.isReachable = false ∧ c.isReachable = false ∧
      Around R ctx s.emitter below (p :: outer) s.control) ∨
    (p.isReachable = true ∧ ∃ d ds, s.control = d :: ds ∧
      Tracks R s.emitter (ctx.locals.toList ++ below.map Value.ty) c d ∧
      Around R ctx s.emitter below (p :: outer) ds) := by
  have hcontrol := h.mirrored.control
  rw [h.shows.control, h.shows.operandTypes] at hcontrol
  generalize hds : s.control = ds at hcontrol
  cases hcontrol with
  | untold hparent hrest =>
    refine .inl ⟨hparent, ?_, .of_mirrors h.inner hrest⟩
    cases hc : c.isReachable with
    | false => rfl
    | true =>
      rw [h.layer.reachable hc p rfl] at hparent
      cases hparent
  | told hparent hd hrest =>
    refine .inr ⟨hparent, _, _, rfl, ?_, .of_mirrors h.inner hrest⟩
    have htake : ((below ++ ops).map Value.ty).take c.stackDepth = below.map Value.ty := by
      rw [h.shows.depth, map_append, ← length_map (f := Value.ty), take_left]
    rw [htake] at hd
    exact hd

theorem Facing.length_under (h : Facing R ctx c outer below ops s) :
    (ctx.locals.toList ++ below.map Value.ty).length = s.emitter.numLocals + c.stackDepth := by
  rw [h.mirrored.locals, h.shows.depth, length_append, length_map, Array.length_toList]

section

variable (h : Facing R ctx c (p :: outer) below ops s)
include h

theorem Facing.nested_live (hp : p.isReachable = true) : ∃ d ds, s.control = d :: ds ∧
    Tracks R s.emitter (ctx.locals.toList ++ below.map Value.ty) c d ∧
    Around R ctx s.emitter below (p :: outer) ds := by
  obtain ⟨hno, -⟩ | ⟨-, hlive⟩ := h.nested
  · cases hp.symm.trans hno
  · exact hlive

theorem Facing.nested_dead (hp : p.isReachable = false) : c.isReachable = false ∧
    Around R ctx s.emitter below (p :: outer) s.control := by
  obtain ⟨-, hdead⟩ | ⟨hyes, -⟩ := h.nested
  · exact hdead
  · cases hp.symm.trans hyes

end

/-- The outermost construct stands for the body. -/
theorem Facing.outermost (h : Facing R ctx c [] below ops s) :
    (∃ label, s.control = [{ label }]) ∧ c.endMerge.types = ctx.sig.results := by
  have hcontrol := h.mirrored.control
  rw [h.shows.control] at hcontrol
  generalize hds : s.control = ds at hcontrol
  cases hcontrol with
  | body hkind hresults => exact ⟨⟨_, rfl⟩, hresults⟩

variable {ops' : List Value}

/-- A construct inside another one, as code generation knows it. -/
theorem Around.told {ctx' : Context} {d : ControlData}
    (h : Around R ctx s.emitter below (p :: outer) ds) (hp : p.isReachable = true)
    (hshows : ctx'.Shows c (p :: outer) below ops') (hsame : ctx.SameSetting ctx')
    (hlocals : s.emitter.numLocals = ctx.locals.size) (hcontrol : s.control = d :: ds)
    (hd : Tracks R s.emitter (ctx.locals.toList ++ below.map Value.ty) c d) :
      Mirrored R ctx' s := by
  refine ⟨by rw [hsame.locals]; exact hlocals, ?_⟩
  rw [hsame.locals, hsame.sig, hshows.control, hshows.operandTypes, hcontrol]
  refine .told hp ?_ (h ops')
  rw [hshows.depth, map_append, ← length_map (f := Value.ty), take_left]
  exact hd

/-- A construct that code generation does not know of. -/
theorem Around.untold {ctx' : Context}
    (h : Around R ctx s.emitter below (p :: outer) s.control) (hp : p.isReachable = false)
    (hshows : ctx'.Shows c (p :: outer) below ops') (hsame : ctx.SameSetting ctx')
    (hlocals : s.emitter.numLocals = ctx.locals.size) : Mirrored R ctx' s := by
  refine ⟨by rw [hsame.locals]; exact hlocals, ?_⟩
  rw [hsame.locals, hsame.sig, hshows.control, hshows.operandTypes]
  exact .untold hp (h ops')

section

variable (h : Poised R ctx c outer below ops s) (hc : c.isReachable = true)
    (htest : s.pendingTest = none)
include h hc htest

/-- When no test waits, the slots are the locals and the operands. -/
theorem Poised.slots : ∃ ts, At R s [] ts s ∧
      R.Agree ts (ctx.locals.toList ++ (below ++ ops).map Value.ty) ∧
        s.emitter.numLocals ≤ ts.length := by
  obtain ⟨⟨is, hsound⟩, ts, ps, hts, hps, hagree⟩ := h.stands hc
  rw [hps.eq_nil htest, append_nil] at hts
  refine ⟨ts, .refl hsound hts, hagree, ?_⟩
  rw [h.mirrored.locals, hagree.length, length_append, Array.length_toList]
  exact Nat.le_add_right _ _

/-- The operands pass for the results. -/
theorem Poised.slots_results {results : List ValueType}
    (hresults : R.Agree (ops.map Value.ty) results) :
    ∃ ts, At R s [] ts s ∧ R.Agree ts (ctx.locals.toList ++ below.map Value.ty ++ results) := by
  obtain ⟨ts, hat, hts, -⟩ := h.slots hc htest
  rw [map_append, ← append_assoc] at hts
  exact ⟨ts, hat, hts.trans ((Regime.Agree.refl R _).append hresults)⟩

end

end

/-! ## Opening a construct -/

/-- Inside a new construct, before its parameters are pushed. -/
structure Entered (ctx : Context) (c : Control) (outer : List Control) (below : List Value)
    (type : BlockType) (block : Control) (ctx' : Context) : Prop where
  shows : ctx'.Shows block (c :: outer) below []
  same : ctx.SameSetting ctx'
  live : ctx'.live = c.isReachable
  reachable : block.isReachable = c.isReachable
  start : block.startMerge = ⟨type.params, false⟩
  results : block.endMerge = ⟨type.results, false⟩

theorem Check.pushControl_entered {ctx ctx' : Context} {c block : Control} {outer : List Control}
    {below ops : List Value} {kind : ControlKind} {type : BlockType}
    (h : ctx.Shows c outer below ops) (hr : pushControl kind type ctx = .ok (block, ctx')) :
    block.kind = kind ∧ Entered ctx c outer (below ++ ops) type block ctx' := by
  obtain ⟨block', hpush, hkind, hdepth, hstart, hend, hreach⟩ := pushControl_eq ctx kind type
  rw [hpush] at hr
  cases hr
  rw [h.control] at hreach
  have hblock : block.isReachable = c.isReachable := by
    rw [Control.isReachable, hreach, Control.isReachable]
    show (c.reachability.inner == .reachable) = (c.reachability == .reachable)
    cases c.reachability <;> rfl
  refine ⟨hkind, ⟨congrArg (block :: ·) h.control, ?_, ?_⟩, ⟨rfl, rfl, rfl, rfl, rfl, rfl⟩, hblock,
    hblock, hstart, hend⟩
  · rw [append_nil]
    exact h.stack
  · rw [hdepth, h.size, length_append]

namespace Entered

variable {R : Regime} {ctx ctx' : Context} {c block : Control} {outer : List Control}
  {below : List Value} {type : BlockType} {s s' : Lowering}

/-- The parameters as operands of the construct. -/
def params (block : Control) (type : BlockType) : List Value := type.params.map (⟨·, block.pc⟩)

theorem map_ty_params (block : Control) (type : BlockType) :
    (params block type).map Value.ty = type.params := by
  simp [params, Function.comp_def]

section

variable (h : Entered ctx c outer below type block ctx')
include h

section

variable (hfits : R.Fits ctx.module ctx.sig ctx.options)
include hfits

section

variable (hinner : Layers R.allows below (c :: outer))
  (htypes : ∀ ty ∈ type.params ++ type.results, R.allows ty)
include hinner htypes

theorem facing (hmirrored : Mirrored R (ctx'.withOperands below (params block type)) s) :
    Facing R (ctx'.withOperands below (params block type)) block (c :: outer) below
      (params block type) s := by
  refine ⟨(hfits.along h.same :), h.shows.withOperands _,
    ⟨fun hb parent hparent => ?_, nofun, fun ty hty => ?_,
    fun ty hty => ?_, fun _ v hv => ?_⟩, hinner, hmirrored⟩
  · cases hparent
    rw [← h.reachable]
    exact hb
  · rw [h.start] at hty
    exact htypes ty (mem_append_left _ hty)
  · rw [h.results] at hty
    exact htypes ty (mem_append_right _ hty)
  · obtain ⟨ty, hty, rfl⟩ := mem_map.1 hv
    exact htypes ty (mem_append_left _ hty)

section

variable (hlocals : s.emitter.numLocals = ctx.locals.size)
  (haround : Around R ctx s.emitter below (c :: outer) s.control)
include hlocals haround

/-- In live code, when code generation was told. -/
theorem inStep_live (hc : c.isReachable = true)
    (hopened : Opened R (ctx.locals.toList ++ below.map Value.ty) block s s') :
    InStep R (ctx'.withOperands below (params block type)) s' := by
  obtain ⟨⟨d, hcontrol, hd⟩, hlater, htest, hstands⟩ := hopened
  have hsame := h.same.trans (ctx'.sameSetting_withOperands below (params block type))
  have hfacing := h.facing hfits hinner htypes ((haround.later hlater).told hc
    (h.shows.withOperands _) hsame (hlater.numLocals.trans hlocals) hcontrol hd)
  refine (hfacing.poised_live (h.live.trans hc) (h.reachable.trans hc) ?_).settled htest
  rw [hsame.locals, map_append, map_ty_params, ← append_assoc]
  rw [h.start] at hstands
  exact hstands

/-- In dead code. -/
theorem inStep_dead (hc : c.isReachable = false) (hcloses : Closes R [] s)
    (htest : s.pendingTest = none) : InStep R (ctx'.withOperands below (params block type)) s := by
  have hsame := h.same.trans (ctx'.sameSetting_withOperands below (params block type))
  have hfacing := h.facing hfits hinner htypes
    (haround.untold hc (h.shows.withOperands _) hsame hlocals)
  exact (hfacing.poised_dead (h.live.trans hc) (h.reachable.trans hc) hcloses htest).settled htest

end

end

end

end

end Entered

namespace Decode

variable {R : Regime} {ctx : Context} {c : Control} {outer : List Control}
  {below ops : List Value} {s : Lowering}

/-- Opening a construct, if code generation does its part in live code. -/
theorem openBlock_drives (h : Facing R ctx c outer below ops s)
    (hdead : c.isReachable = false → Closes R [] s ∧ s.pendingTest = none) (kind : ControlKind)
    {type : BlockType} (htypes : ∀ ty ∈ type.params ++ type.results, R.allows ty)
    {event : Control → Event}
    (htold : c.isReachable = true → ∀ (ctx' : Context) (block : Control) (rest : List Value),
      block.kind = kind → block.endMerge.reached = false →
      R.Agree ((below ++ ops).map Value.ty)
        ((below ++ rest).map Value.ty ++ block.startMerge.types) →
      Upholds R (handle ctx' (event block)) s fun reply s' => reply = .proceed ∧
        Opened R (ctx.locals.toList ++ (below ++ rest).map Value.ty) block s s') :
    Drives R (openBlock .compiler kind type event) ctx s fun _ => InStep R := by
  rw [openBlock, Check.popArgs, Check.popTypes_eq_popEach]
  refine .check_bind fun args _ hr => ?_
  obtain ⟨rest, rfl, htakes, haccepts⟩ := Check.popEach_ok h.shows hr
  have hshows := h.shows.withOperands rest
  have hlayer := h.layer.of_prefix htakes.kept
  refine .check_bind fun block ctx₂ hr => ?_
  obtain ⟨hkind, hentered⟩ := Check.pushControl_entered hshows hr
  have hinner : Layers R.allows (below ++ rest) (c :: outer) := .cons h.inner h.shows.depth hlayer
  have haround : Around R (ctx.withOperands below rest) s.emitter (below ++ rest) (c :: outer)
      s.control := by
    have hcontrol := (h.withOperands hlayer).mirrored.control
    rw [hshows.control, hshows.operandTypes, ← append_nil (below ++ rest)] at hcontrol
    exact .of_mirrors hinner hcontrol
  refine .bind (Q := fun _ ctx' s' => ctx' = ctx₂ ∧ (c.isReachable = true →
      Opened R (ctx.locals.toList ++ (below ++ rest).map Value.ty) block s s') ∧
    (c.isReachable = false → s' = s)) (Drives.of_report (fun hl => ?_) fun hl => ⟨rfl, fun hc => ?_,
      fun _ => rfl⟩) ?_
  · have hc : c.isReachable = true := hentered.live ▸ hl
    have hunreachable := c.not_unreachable hc
    have hops := htakes.exact hunreachable
    refine (htold hc ctx₂ block rest hkind (by rw [hentered.results]) ?_).mono ?_
    · rw [hops, ← append_assoc, map_append, hentered.start]
      refine (Regime.Agree.refl R _).append (.of_accepts h.fits.full
        (fun ty hty => htypes ty (mem_append_left _ hty))
        (fun v hv => h.layer.operands hunreachable v ?_) ?_)
      · rw [hops]
        exact mem_append_right _ hv
      · rw [forall₂_iff_get] at haccepts ⊢
        simpa using haccepts
    · rintro reply s' ⟨hreply, hopened⟩
      rw [hreply]
      exact ⟨rfl, fun _ => hopened, fun hno => by simp [hc] at hno⟩
  · rw [← hentered.live, hl] at hc
    cases hc
  · rintro _ _ s' ⟨rfl, hopened, hsame⟩
    refine .of_check fun u ctx' hr => ?_
    rw [Check.pushMergeValues_eq hentered.shows] at hr
    cases hr
    cases hc : c.isReachable with
    | true =>
      exact hentered.inStep_live h.fits hinner htypes h.mirrored.locals haround hc (hopened hc)
    | false =>
      obtain rfl := hsame hc
      exact hentered.inStep_dead h.fits hinner htypes h.mirrored.locals haround
        hc (hdead hc).1 (hdead hc).2

variable {type : BlockType}

section

variable (h : Poised R ctx c outer below ops s)
include h

section

variable (htest : s.pendingTest = none) (htypes : ∀ ty ∈ type.params ++ type.results, R.allows ty)
include htest htypes

theorem block_drives :
    Drives R (openBlock .compiler .block type .block) ctx s fun _ => InStep R := by
  refine openBlock_drives h.toFacing h.closes _ htypes
    fun hc ctx' block rest hkind hend hagree => handle_upholds rfl ?_
  obtain ⟨ts, hat, hts, -⟩ := h.slots hc htest
  have hagree := (Regime.Agree.refl R ctx.locals.toList).append hagree
  rw [← append_assoc] at hagree
  exact (block_opened hat htest hkind hend (hts.trans hagree)).mono fun _ _ h' => ⟨rfl, h'⟩

theorem loop_drives : Drives R (openBlock .compiler .loop type .loop) ctx s fun _ => InStep R := by
  refine openBlock_drives h.toFacing h.closes _ htypes
    fun hc ctx' block rest hkind hend hagree => handle_upholds rfl ?_
  obtain ⟨ts, hat, hts, hlocals⟩ := h.slots hc htest
  have hagree := (Regime.Agree.refl R ctx.locals.toList).append hagree
  rw [← append_assoc] at hagree
  exact (loop_opened hat hlocals htest hkind hend (hts.trans hagree)).mono fun _ _ h' => ⟨rfl, h'⟩

end

/-- In live code a `try` is refused. -/
theorem tryBlock_drives (htypes : ∀ ty ∈ type.params ++ type.results, R.allows ty) :
    Drives R (openBlock .compiler .tryBlock type .tryBlock) ctx s fun _ => InStep R :=
  openBlock_drives h.toFacing h.closes _ htypes fun _ _ _ _ _ _ _ =>
    handle_upholds rfl (.of_throw fun _ _ => by decide)

/-- A test may wait for the condition. -/
theorem ifThen_drives (htypes : ∀ ty ∈ type.params ++ type.results, R.allows ty) :
    Drives R (openIf .compiler type) ctx s fun _ => InStep R := by
  refine .check_bind fun cond _ hr => ?_
  obtain ⟨ops', rfl, htakes, -⟩ := Check.pop_ok h.shows hr
  refine openBlock_drives (h.toFacing.withOperands (h.layer.of_prefix htakes.kept))
    h.closes _ htypes fun hc ctx' block rest hkind hend hagree => handle_upholds rfl ?_
  obtain rfl := htakes.exact (c.not_unreachable hc)
  obtain ⟨⟨is, hsound⟩, ts, ps, hts, hps, hslots⟩ := h.stands hc
  rw [← append_assoc, map_append, ← append_assoc] at hslots
  obtain ⟨ts, a, rfl, hslots, -⟩ := hslots.split_last
  have hagree := (Regime.Agree.refl R ctx.locals.toList).append hagree
  rw [← append_assoc] at hagree
  exact (ifThen_opened (.refl hsound hts) hps hkind hend (hslots.trans hagree)).mono fun _ _ h' =>
    ⟨rfl, h'⟩

end

end Decode

end OnePass
