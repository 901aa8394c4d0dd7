import OnePass.Proofs.LockStepConstructs

/-!
Ends of constructs and second arms keep the decoder and code generation in step. After the last
`end` all code is closed.
-/
namespace OnePass

open List

open Lowering

theorem Regime.Agree.symm {R : Regime} {ts us : List ValueType} (h : R.Agree ts us) :
    R.Agree us ts :=
  ⟨h.length.symm, fun ht => (h.same ht).symm⟩

namespace Lowering

variable {R : Regime} {s s' : Lowering} {ts under : List ValueType} {c : Control} {d : ControlData}
  {ds : List ControlData}

theorem Standing.congr {us us' : List ValueType} (h : Standing R us s) (hagree : R.Agree us us') :
    Standing R us' s := by
  obtain ⟨hsound, ts, ps, hts, hps, hslots⟩ := h
  exact ⟨hsound, ts, ps, hts, hps, hslots.trans hagree⟩

/-- A merge of exactly what the construct leaves. -/
theorem mergeTypes_self {numLocals arity depth : Nat} (h : ts.length = numLocals + depth + arity) :
    mergeTypes numLocals ts arity depth = ts := by
  rw [mergeTypes, h, Nat.add_sub_cancel]
  exact take_append_drop ..

/-- The second arm of an `if` begins. -/
theorem elseArm_reopened (hd : Tracks R s.emitter under c d) (hone : c.isOneArmedIf = true)
    (hcontrol : s.control = d :: ds) (hat : At R s [] ts s) (htest : s.pendingTest = none)
    (hunder : under.length = s.emitter.numLocals + c.stackDepth)
    (hslots : c.isReachable = true → R.Agree ts (under ++ c.endMerge.types)) :
    Upholds R (elseArm { c with kind := .ifElse }) s fun _ s' => s.Later s' ∧
      s'.pendingTest = none ∧ Standing R (under ++ c.startMerge.types) s' ∧
      ∃ d', s'.control = d' :: ds ∧ Tracks R s'.emitter under
        (if c.isReachable then ({ c with kind := .ifElse } : Control).markEnd
          else { c with kind := .ifElse }) d' := by
  obtain ⟨arm, harm⟩ := Option.isSome_iff_exists.1 (hd.arm.trans hone)
  have hkind : c.kind = .ifThen := by simpa [Control.isOneArmedIf] using hone
  have hloop : c.isLoop = false := by simp [Control.isLoop, hkind]
  have hlength : c.isReachable = true →
      ts.length = s.emitter.numLocals + c.stackDepth + c.endMerge.arity := by
    intro hc
    rw [(hslots hc).length, length_append, hunder, Merge.arity]
  refine (elseArm_upholds (b := { c with kind := .ifElse }) hat hcontrol harm
    fun hc => Nat.le_of_eq (hlength hc).symm).mono ?_
  rintro _ s' ⟨d', hdecides, h'⟩
  have htest' : s'.pendingTest = none := h'.test.trans htest
  refine ⟨h'.later.forget, htest',
    At.standing (s := s') h'.here htest' (hd.armState arm harm), _, h'.control, ?_⟩
  -- What is decided of the label is what was decided before, or what this arm leaves.
  have hbefore : c.endMerge.reached = d.labelState.isSome := by
    rw [hd.decided, hloop, Bool.false_or]
  have hmerge : c.branchMerge.types = c.endMerge.types := by rw [Control.branchMerge, hloop]; rfl
  split
  next hc =>
    refine ⟨rfl, ?_, fun t ht => ?_, by rintro ⟨⟩, rfl, by rintro _ ⟨⟩⟩
    · rcases hdecides.state with ⟨hstate, hsome⟩ | ⟨-, -, t, ht, -⟩
      · exact (congrArg Option.isSome hstate).trans (hsome hc)
      · exact congrArg Option.isSome ht
    · show R.Agree t.types (under ++ c.endMerge.types)
      rcases hdecides.state with ⟨hstate, -⟩ | ⟨-, -, t', ht', htypes⟩
      · rw [← hmerge]
        exact hd.state t (hstate ▸ ht)
      · cases ht'.symm.trans ht
        rw [htypes, mergeTypes_self (hlength hc)]
        exact hslots hc
  next hc =>
    have hstate : d'.labelState = d.labelState := by
      rcases hdecides.state with ⟨hstate, -⟩ | ⟨hyes, -⟩
      · exact hstate
      · exact (hc hyes).elim
    refine ⟨rfl, ?_, fun t ht => ?_, by rintro ⟨⟩, rfl, by rintro _ ⟨⟩⟩
    · exact (congrArg Option.isSome hstate).trans hbefore.symm
    · show R.Agree t.types (under ++ c.endMerge.types)
      rw [← hmerge]
      exact hd.state t (hstate ▸ ht)

/-- How code goes on behind a construct. -/
structure Left (R : Regime) (us : List ValueType) (goes : Bool) (ds : List ControlData)
    (s s' : Lowering) : Prop where
  later : s.Later s'
  control : s'.control = ds
  test : s'.pendingTest = none
  stands : goes = true → Standing R us s'
  closes : goes = false → Closes R [] s'

variable {us : List ValueType}

theorem Left.of_at {goes : Bool} (hgoes : goes = true)
    (h : At R { s with control := ds } [] ts s') (htest : s.pendingTest = none)
    (hagree : R.Agree ts us) : Left R us goes ds s s' := by
  have htest' : s'.pendingTest = none := h.test.trans htest
  refine ⟨h.later.forget, h.control, htest',
    fun _ => At.standing (s := s') h.here htest' hagree, fun hno => ?_⟩
  rw [hgoes] at hno
  cases hno

theorem Left.of_closes {goes : Bool} (hgoes : goes = false)
    (hlater : s.Later s') (hcontrol : s'.control = ds) (htest : s'.pendingTest = none)
    (h : Closes R [] s') : Left R us goes ds s s' := by
  refine ⟨hlater, hcontrol, htest, fun hyes => ?_, fun _ => h⟩
  rw [hgoes] at hyes
  cases hyes

/-- A construct ends. Code goes on behind it if its end is reached or something branches there, or
if it is an `if` without a second arm. -/
theorem popControl_left (hd : Tracks R s.emitter under c d) (hcontrol : s.control = d :: ds)
    (hunder : under.length = s.emitter.numLocals + c.stackDepth) (htest : s.pendingTest = none)
    (hone : c.isOneArmedIf = true → R.Agree c.startMerge.types c.endMerge.types)
    (hlive : c.isReachable = true → ∃ ts, At R s [] ts s ∧ R.Agree ts (under ++ c.endMerge.types))
    (hdead : c.isReachable = false → Closes R [] s) :
    Upholds R (popControl c) s fun _ => Left R (under ++ c.endMerge.types)
      (c.isReachable || c.endMerge.reached || c.isOneArmedIf) ds s := by
  obtain ⟨ts, hat, hts⟩ : ∃ ts, At R s [] ts s ∧
      (c.isReachable = true → R.Agree ts (under ++ c.endMerge.types)) := by
    cases hc : c.isReachable with
    | true =>
      obtain ⟨ts, hat, hts⟩ := hlive hc
      exact ⟨ts, hat, fun _ => hts⟩
    | false => exact ⟨_, (hdead hc).at, by rintro ⟨⟩⟩
  obtain ⟨is, hsound⟩ := hat.sound
  have hmerge : c.isLoop = false → c.branchMerge.types = c.endMerge.types := fun hl => by
    rw [Control.branchMerge, hl]
    rfl
  cases hloop : c.isLoop with
  | true =>
    obtain ⟨hbound, hreached⟩ := hd.loop hloop
    have hkind : c.kind = .loop := by simpa [Control.isLoop] using hloop
    have hnone : c.isOneArmedIf = false := by simp [Control.isOneArmedIf, hkind]
    have harm : d.elseArm = none := by simpa [hnone] using hd.arm
    refine (popControl_loop hat hcontrol hloop).mono fun _ s' hs' => ?_
    rw [hreached, hnone, Bool.or_false, Bool.or_false]
    have hclose := hsound.closeConstruct hcontrol harm
    rw [if_pos hbound] at hclose
    subst hs'
    cases hc : c.isReachable with
    | true => exact .of_at rfl (.refl hclose hat.types) htest (hts hc)
    | false =>
      exact .of_closes rfl ⟨rfl, Nat.le_refl _, fun _ => id, fun _ => id⟩ rfl htest
        ((hdead hc).close hcontrol harm hbound)
  | false =>
    cases hkind : c.isOneArmedIf with
    | true =>
      obtain ⟨arm, harm⟩ := Option.isSome_iff_exists.1 (hd.arm.trans hkind)
      have harmState := hd.armState arm harm
      have hheight : s.emitter.numLocals + c.stackDepth + c.startMerge.arity =
          arm.state.height := by
        rw [← hunder, Merge.arity, ← length_append, ← harmState.length]
        simp [CacheState.types, CacheState.height]
      refine (popControl_oneArmed hat hcontrol harm hloop hkind hheight).mono ?_
      rintro _ s' ⟨ts', h', htypes⟩
      refine .of_at (by simp) h' htest ?_
      rcases htypes with rfl | ⟨t, ht, rfl⟩
      · exact harmState.trans ((Regime.Agree.refl R under).append (hone hkind))
      · rw [← hmerge hloop]
        exact hd.state t ht
    | false =>
      have harm : d.elseArm = none := by simpa [hkind] using hd.arm
      rw [Bool.or_false]
      cases hstate : d.labelState with
      | some t =>
        have hreached : c.endMerge.reached = true := by
          have hdecided := hd.decided
          rw [hstate, hloop, Bool.false_or] at hdecided
          exact hdecided.symm
        refine (popControl_decided hat hcontrol harm hloop hkind hstate).mono fun _ s' h' =>
          .of_at (by rw [hreached, Bool.or_true]) h' htest ?_
        rw [← hmerge hloop]
        exact hd.state t hstate
      | none =>
        have hreached : c.endMerge.reached = false := by
          have hdecided := hd.decided
          rw [hstate, hloop, Bool.false_or] at hdecided
          exact hdecided.symm
        rw [hreached, Bool.or_false]
        refine (popControl_undecided hat hcontrol hloop hkind hstate).mono fun _ s' hs' => ?_
        obtain ⟨ls', hclose, hls'⟩ := hat.close hcontrol harm
        have howed : ls' = [d.label] := by
          refine hls'.resolve_left ?_
          rintro ⟨hbound, -⟩
          have hunbound := hsound.unbound d.label (mem_append_right _ (mem_append_right _
            (mem_flatMap.2 ⟨d, hcontrol ▸ mem_cons_self, by
              simp [ControlData.unbound, hstate]⟩)))
          rw [Emitter.isBound, CodeBuffer.isBound_eq_false.2 hunbound] at hbound
          cases hbound
        subst howed
        have hbind := hclose.bindLabel
        rw [← hs'] at hbind
        cases hc : c.isReachable with
        | true => exact .of_at rfl hbind htest (hts hc)
        | false =>
          refine .of_closes rfl hbind.later.forget hbind.control (hbind.test.trans htest) ?_
          rw [hs']
          exact (hdead hc).closeUndecided hcontrol harm hstate

end Lowering

variable {u : Unit}

section

variable {R : Regime} {ctx ctx' : Context} {c c' p : Control} {outer : List Control}
  {below ops ops' : List Value} {s s' : Lowering}

/-- In dead code the operands do not matter to code generation. -/
theorem Poised.withOperands_dead (h : Poised R ctx c outer below ops s)
    (hc : c.isReachable = false) (hops : c.Fits R.allows outer ops') :
    Poised R (ctx.withOperands below ops') c outer below ops' s :=
  (h.toFacing.withOperands hops).poised_dead (h.live.trans hc) hc (h.closes hc).1 (h.closes hc).2

/-- At its end the operands of a construct are its results. -/
theorem Poised.closing (h : Poised R ctx c outer below ops s)
    (hr : Check.fallthrough ctx = .ok (u, ctx')) : ∃ results,
      ctx' = ctx.withOperands below results ∧ Poised R ctx' c outer below results s ∧
      R.Agree (results.map Value.ty) c.endMerge.types ∧ ∀ v ∈ results, R.allows v.ty := by
  obtain ⟨results, rfl, hlength, hreach, hdead⟩ := Check.fallthrough_ok h.shows hr
  refine ⟨results, rfl, ?_⟩
  cases hc : c.isReachable with
  | true =>
    obtain ⟨rfl, haccepts⟩ := hreach hc
    rw [← h.shows.self_eq]
    have hunreachable := c.not_unreachable hc
    have hops := h.layer.operands hunreachable
    exact ⟨h, .of_accepts h.fits.full h.layer.results hops haccepts, hops⟩
  | false =>
    obtain rfl := hdead hc
    have hops : ∀ v ∈ Check.fresh ctx c.endMerge.types, R.allows v.ty :=
      Guarded.Agrees.mem_fresh h.layer.results
    refine ⟨h.withOperands_dead hc (h.layer.congr id h.layer.outermost rfl rfl fun _ => hops),
      ?_, hops⟩
    rw [Check.map_ty_fresh]
    exact .refl R _

theorem Check.pushMergeValues_ok (h : ctx.Shows c outer below ops) {types : List ValueType}
    (hr : pushMergeValues types ctx = .ok (u, ctx')) :
    ∃ values : List Value, values.map Value.ty = types ∧ ctx' = ctx.withOperands below values := by
  rw [pushMergeValues_eq h] at hr
  cases hr
  exact ⟨_, by simp [Function.comp_def], rfl⟩

theorem Context.Shows.parentReachable (h : ctx.Shows c (p :: outer) below ops) :
    ctx.parentReachable = p.isReachable := by
  rw [Context.parentReachable, h.control]

theorem Context.Shows.armReachability (h : ctx.Shows c (p :: outer) below ops) :
    Decode.armReachability ctx = p.reachability.inner := by
  simp [Decode.armReachability, Context.controlAt, h.control]

theorem inner_isReachable (p : Control) : (p.reachability.inner == .reachable) = p.isReachable := by
  rw [Control.isReachable]
  cases p.reachability <;> rfl

theorem Control.Fits.as_ifElse (h : c.Fits R.allows (p :: outer) ops) :
    ({ c with kind := .ifElse } : Control).Fits R.allows (p :: outer) ops :=
  h.congr id nofun rfl rfl h.operands

/-- Before the second arm of an `if` whose first arm was closed. -/
structure Rearmed (R : Regime) (ctx : Context) (c p : Control) (outer : List Control)
    (below : List Value) (s : Lowering) : Prop where
  locals : s.emitter.numLocals = ctx.locals.size
  test : s.pendingTest = none
  live : p.isReachable = true →
    Standing R (ctx.locals.toList ++ below.map Value.ty ++ c.startMerge.types) s ∧
    ∃ d ds, s.control = d :: ds ∧ Around R ctx s.emitter below (p :: outer) ds ∧
      Tracks R s.emitter (ctx.locals.toList ++ below.map Value.ty)
        (if c.isReachable then c.markEnd else c) d
  dead : p.isReachable = false → Closes R [] s ∧ Around R ctx s.emitter below (p :: outer) s.control

/-- In the second arm, above its parameters. -/
theorem Rearmed.inStep {params : List Value} (h : Rearmed R ctx c p outer below s)
    (hfits : R.Fits ctx.module ctx.sig ctx.options) (hinner : Layers R.allows below (p :: outer))
    (hlayer : c.Fits R.allows (p :: outer) ops) (hparams : params.map Value.ty = c.startMerge.types)
    (hc' : c' = { (if c.isReachable then c.markEnd else c) with
      reachability := p.reachability.inner })
    (hshows : ctx'.Shows c' (p :: outer) below params) (hsame : ctx.SameSetting ctx')
    (hlive : ctx'.live = p.isReachable) : InStep R ctx' s := by
  have hreach : c'.isReachable = p.isReachable := by
    rw [hc', ← inner_isReachable p]
    rfl
  obtain ⟨hkind, hstart, hend⟩ : c'.kind = c.kind ∧ c'.startMerge = c.startMerge ∧
      c'.endMerge = (if c.isReachable then c.markEnd else c).endMerge := by
    rw [hc']
    dsimp only
    split <;> exact ⟨rfl, rfl, rfl⟩
  have hendTypes : c'.endMerge.types = c.endMerge.types := by
    rw [hend]
    split <;> rfl
  have hlayer' : c'.Fits R.allows (p :: outer) params := by
    refine ⟨fun hr parent hparent => ?_, nofun, by rw [hstart]; exact hlayer.start,
      by rw [hendTypes]; exact hlayer.results, fun _ v hv => hlayer.start v.ty ?_⟩
    · cases hparent
      exact hreach ▸ hr
    · rw [← hparams]
      exact mem_map_of_mem hv
  cases hp : p.isReachable with
  | true =>
    obtain ⟨hstands, d, ds, hcontrol, haround, hd⟩ := h.live hp
    have hd' : Tracks R s.emitter (ctx.locals.toList ++ below.map Value.ty) c' d := by
      refine hd.congr ?_ ?_ hend
      · rw [hkind]
        split <;> rfl
      · rw [hstart]
        split <;> rfl
    have hfacing : Facing R ctx' c' (p :: outer) below params s :=
      ⟨hfits.along hsame, hshows, hlayer', hinner,
        haround.told hp hshows hsame h.locals hcontrol hd'⟩
    refine (hfacing.poised_live (hlive.trans hp) (hreach.trans hp) ?_).settled h.test
    rw [hsame.locals, map_append, hparams, ← append_assoc]
    exact hstands
  | false =>
    obtain ⟨hcloses, haround⟩ := h.dead hp
    have hfacing : Facing R ctx' c' (p :: outer) below params s :=
      ⟨hfits.along hsame, hshows, hlayer', hinner, haround.untold hp hshows hsame h.locals⟩
    exact (hfacing.poised_dead (hlive.trans hp) (hreach.trans hp) hcloses h.test).settled h.test

/-- A construct hands its operands to the one around it. -/
theorem Facing.leave (h : Facing R ctx c (p :: outer) below ops s)
    (hallowed : ∀ v ∈ ops', R.allows v.ty) (hcontrol : ctx'.control = p :: outer)
    (hstack : ctx'.stack = (below ++ ops').toArray) (hsame : ctx.SameSetting ctx')
    (hlocals : s'.emitter.numLocals = ctx.locals.size)
    (haround : Around R ctx s'.emitter below (p :: outer) s'.control) :
    ∃ below' ops'', below' ++ ops'' = below ++ ops' ∧ Facing R ctx' p outer below' ops'' s' := by
  have hinner := h.inner
  generalize hbelow : below = stack at hinner
  cases hinner with
  | @cons _ _ below' rest inner depth fits =>
    subst hbelow
    have hassoc : below' ++ (rest ++ ops') = below' ++ rest ++ ops' := (append_assoc ..).symm
    refine ⟨below', rest ++ ops', hassoc, h.fits.along hsame,
      ⟨hcontrol, by rw [hstack, hassoc], depth⟩,
      fits.append hallowed, inner, by rw [hsame.locals]; exact hlocals, ?_⟩
    rw [Context.operandTypes, hstack, hcontrol, hsame.locals, hsame.sig]
    exact haround ops'

/-- Inside an unreachable construct nothing matters to code generation. -/
theorem Poised.recast (h : Poised R ctx c (p :: outer) below ops s) (hp : p.isReachable = false)
    (hshows : ctx'.Shows c' (p :: outer) below ops') (hsame : ctx.SameSetting ctx')
    (hlayer : c'.Fits R.allows (p :: outer) ops') (hlive : ctx'.live = false) :
    Poised R ctx' c' (p :: outer) below ops' s := by
  have hc' : c'.isReachable = false := by
    cases hc' : c'.isReachable with
    | false => rfl
    | true =>
      rw [hlayer.reachable hc' p rfl] at hp
      cases hp
  obtain ⟨hc, haround⟩ := h.nested_dead hp
  exact Facing.poised_dead ⟨h.fits.along hsame, hshows, hlayer, h.inner, haround.untold hp hshows
    hsame h.mirrored.locals⟩ hlive hc' (h.closes hc).1 (h.closes hc).2

/-- A `try` is open only in code that code generation knows nothing of. -/
theorem Facing.try_untold (h : Facing R ctx c outer below ops s) (htry : c.isTry = true) :
    ∃ p outer', outer = p :: outer' ∧ p.isReachable = false ∧ c.isReachable = false := by
  obtain ⟨p, outer', rfl⟩ : ∃ p outer', outer = p :: outer' := by
    cases outer with
    | nil => simp [Control.isTry, h.layer.outermost rfl] at htry
    | cons p outer' => exact ⟨p, outer', rfl⟩
  obtain ⟨hp, hc, -⟩ | ⟨-, d, ds, -, hd, -⟩ := h.nested
  · exact ⟨p, outer', rfl, hp, hc⟩
  · rw [hd.kind] at htry
    cases htry

/-- A new arm inside an unreachable construct. -/
theorem Control.Fits.rearm (h : c.Fits R.allows (p :: outer) ops) (hp : p.isReachable = false)
    (hallowed : ∀ v ∈ ops', R.allows v.ty) :
    ({ c with reachability := p.reachability.inner } : Control).Fits R.allows (p :: outer)
      ops' := by
  refine h.congr (fun hr => ?_) nofun rfl rfl fun _ => hallowed
  cases ((inner_isReachable p).trans hp).symm.trans hr

/-- Only the outermost construct is a body. -/
theorem Facing.isNested (h : Facing R ctx c outer below ops s) (hkind : c.kind ≠ .block) :
    ∃ p outer', outer = p :: outer' := by
  cases outer with
  | nil => exact (hkind (h.layer.outermost rfl)).elim
  | cons p outer' => exact ⟨p, outer', rfl⟩

end

namespace Decode

variable {R : Regime} {ctx : Context} {c p : Control} {outer : List Control}
  {below ops : List Value} {s : Lowering}

theorem elseArm_drives (h : Poised R ctx c outer below ops s) (htest : s.pendingTest = none) :
    Drives R (elseArm .compiler) ctx s fun _ => InStep R := by
  refine .get_bind (.guard fun hif => .guard fun hsecond => ?_)
  have hkind : c.kind = .ifThen := by
    rw [h.shows.current] at hif hsecond
    simp_all [Control.isIf]
  obtain ⟨p, outer', rfl⟩ := h.isNested (by rw [hkind]; decide)
  refine .check_bind fun u _ hr => ?_
  obtain ⟨results, rfl, h₁, hresults, -⟩ := h.closing hr
  refine .modify_bind (.get_bind (.get_bind ?_))
  have hshows₂ := h₁.shows.modifyCurrent (f := fun c => { c with kind := .ifElse }) rfl
  generalize hctx₂ : (ctx.withOperands below results).modifyCurrent
    (fun c => { c with kind := .ifElse }) = ctx₂ at hshows₂ ⊢
  have hsame₂ : ctx.SameSetting ctx₂ := by
    rw [← hctx₂]
    exact ⟨rfl, rfl, rfl, rfl, rfl, rfl⟩
  refine .when (Q := fun ctx' s' => ctx' = ctx₂ ∧
    Rearmed R ctx { c with kind := .ifElse } p outer' below s') (fun hp => ?_) (fun hp => ?_) ?_
  · rw [hshows₂.parentReachable] at hp
    rw [hshows₂.current]
    obtain ⟨d, ds, hcontrol, hd, haround⟩ := h.nested_live hp
    obtain ⟨ts, hat, hts⟩ : ∃ ts, At R s [] ts s ∧ (c.isReachable = true →
        R.Agree ts (ctx.locals.toList ++ below.map Value.ty ++ c.endMerge.types)) := by
      cases hc : c.isReachable with
      | true =>
        obtain ⟨ts, hat, hts⟩ := h₁.slots_results hc htest hresults
        exact ⟨ts, hat, fun _ => hts⟩
      | false => exact ⟨_, (h.closes hc).1.at, by rintro ⟨⟩⟩
    refine Drives.of_tell
      (handle_upholds rfl ((elseArm_reopened hd (by simp [Control.isOneArmedIf, hkind])
      hcontrol hat htest h.length_under hts).mono ?_))
    rintro _ s' ⟨hlater, htest', hstands, d', hcontrol', hd'⟩
    refine ⟨rfl, hlater.numLocals.trans h.mirrored.locals, htest',
      fun _ => ⟨hstands, d', ds, hcontrol', haround.later hlater, hd'⟩, fun hno => ?_⟩
    rw [hp] at hno
    cases hno
  · rw [hshows₂.parentReachable] at hp
    obtain ⟨hc, haround⟩ := h.nested_dead (eq_false_of_ne_true hp)
    exact ⟨rfl, h.mirrored.locals, htest, fun hyes => (hp hyes).elim,
      fun _ => ⟨(h.closes hc).1, haround⟩⟩
  · rintro _ s' ⟨rfl, hrearmed⟩
    refine .get_bind (.modify_bind ?_)
    rw [hshows₂.armReachability, hshows₂.current]
    have hshows₃ := hshows₂.modifyCurrent (f := fun c => { (if c.isReachable then c.markEnd else c)
      with reachability := p.reachability.inner }) (by dsimp only; split <;> rfl)
    refine .check_bind fun u ctx₄ hr => ?_
    obtain ⟨params, hparams, rfl⟩ := Check.pushMergeValues_ok hshows₃ hr
    exact .of_modify (hrearmed.inStep h.fits h.inner h₁.layer.as_ifElse hparams rfl
      ⟨hshows₃.control, rfl, hshows₃.depth⟩ (hsame₂.trans ⟨rfl, rfl, rfl, rfl, rfl, rfl⟩)
      (inner_isReachable p))

section

variable (h : Poised R ctx c (p :: outer) below ops s) (htest : s.pendingTest = none)
  (hresults : R.Agree (ops.map Value.ty) c.endMerge.types)
include h htest hresults

/-- What is told when a construct ends. -/
theorem tellEnd_drives (hone : c.isOneArmedIf = true → R.Agree c.startMerge.types c.endMerge.types)
    (hp : p.isReachable = true) : Drives R (tell .compiler (.popControl c)) ctx s fun _ ctx' s' =>
      ctx' = ctx ∧ Around R ctx s'.emitter below (p :: outer) s'.control ∧
      Left R (ctx.locals.toList ++ below.map Value.ty ++ c.endMerge.types)
        (c.isReachable || c.endMerge.reached || c.isOneArmedIf) s'.control s s' := by
  obtain ⟨d, ds, hcontrol, hd, haround⟩ := h.nested_live hp
  refine Drives.of_tell (handle_upholds rfl ((popControl_left hd hcontrol h.length_under htest hone
    (fun hc => h.slots_results hc htest hresults) fun hc => (h.closes hc).1).mono
    fun _ s' hleft => ⟨rfl, ?_, ?_⟩))
  · rw [hleft.control]
    exact haround.later hleft.later
  · rw [hleft.control]
    exact hleft

theorem popControl_drives (hallowed : ∀ v ∈ ops, R.allows v.ty)
    (hone : c.isOneArmedIf = true → R.Agree c.startMerge.types c.endMerge.types) :
    Drives R (popControl .compiler) ctx s fun _ => InStep R := by
  refine .get_bind (.get_bind ?_)
  rw [h.shows.current, h.shows.parentReachable]
  obtain ⟨goes, hgoes⟩ : ∃ goes, goes = (c.isReachable || c.endMerge.reached || c.isOneArmedIf) :=
    ⟨_, rfl⟩
  refine .when (Q := fun ctx' s' => ctx' = ctx ∧ s.Later s' ∧ s'.pendingTest = none ∧
      Around R ctx s'.emitter below (p :: outer) s'.control ∧
      ((p.isReachable && goes) = true → Standing R (ctx.locals.toList ++ below.map Value.ty ++
        c.endMerge.types) s') ∧ ((p.isReachable && goes) = false → Closes R [] s'))
    (fun hp => ?_) (fun hp => ?_) ?_
  · refine (tellEnd_drives h htest hresults hone hp).mono fun _ ctx' s' ⟨hctx, haround, hleft⟩ =>
      ⟨hctx, hleft.later, hleft.test, haround, fun hyes => ?_, fun hno => ?_⟩
    · rw [hp, Bool.true_and, hgoes] at hyes
      exact hleft.stands hyes
    · rw [hp, Bool.true_and, hgoes] at hno
      exact hleft.closes hno
  · have hno := eq_false_of_ne_true hp
    obtain ⟨hc, haround⟩ := h.nested_dead hno
    refine ⟨rfl, .refl s, htest, haround, fun hyes => ?_, fun _ => (h.closes hc).1⟩
    rw [hno] at hyes
    cases hyes
  · rintro ctx s' ⟨rfl, hlater, htest', haround, hstands, hcloses⟩
    refine .when (Q := fun ctx' s'' => s'' = s' ∧ ∃ values, ctx' = ctx.withOperands below values ∧
        R.Agree (values.map Value.ty) c.endMerge.types ∧ ∀ v ∈ values, R.allows v.ty)
      (fun _ => .of_check fun u ctx' hr => ⟨rfl, ?_⟩)
      (fun _ => ⟨rfl, ops, h.shows.self_eq, hresults, hallowed⟩) ?_
    · obtain ⟨values, hvalues, rfl⟩ := Check.pushMergeValues_ok h.shows hr
      refine ⟨values, rfl, hvalues ▸ .refl R _, fun v hv => h.layer.results v.ty ?_⟩
      rw [← hvalues]
      exact mem_map_of_mem hv
    · rintro _ s' ⟨rfl, values, rfl, hvalues, hallowed'⟩
      refine .of_modify ?_
      dsimp only
      rw [← hgoes, Context.control_withOperands, h.shows.control, tail_cons]
      have hleave : ∀ ctx' : Context, ctx'.control = p :: outer →
          ctx'.stack = (below ++ values).toArray → ctx.SameSetting ctx' → ∃ below' ops',
            below' ++ ops' = below ++ values ∧ Facing R ctx' p outer below' ops' s' :=
        fun _ hcontrol hstack hsame => h.toFacing.leave hallowed' hcontrol hstack hsame
          (hlater.numLocals.trans h.mirrored.locals) haround
      split
      next hyes =>
        obtain ⟨below', ops', hstack, hfacing⟩ := hleave { ctx.withOperands below values with
          control := p :: outer
          live := p.isReachable } rfl rfl ⟨rfl, rfl, rfl, rfl, rfl, rfl⟩
        refine Poised.settled (show Poised R _ p outer below' ops' s' from ?_) htest'
        cases hp : p.isReachable with
        | true =>
          refine hfacing.poised_live hp hp ?_
          rw [hstack, map_append, ← append_assoc]
          exact (hstands (by simp [hp, hyes])).congr ((Regime.Agree.refl R _).append hvalues.symm)
        | false => exact hfacing.poised_dead hp hp (hcloses (by simp [hp])) htest'
      next hno =>
        obtain ⟨below', ops', -, hfacing⟩ := hleave { ctx.withOperands below values with
          control := p :: outer } rfl rfl ⟨rfl, rfl, rfl, rfl, rfl, rfl⟩
        have hnarrow := p.narrow_same.2.2.2.2.2.1
        have hdead := hfacing.markDead
        refine Poised.settled (show Poised R _ p.narrow outer below' ops' s' from ?_) htest'
        exact Facing.poised_dead (hdead.recurrent hdead.shows.control rfl rfl ⟨rfl, rfl, rfl⟩
          hdead.layer rfl rfl rfl rfl) hnarrow hnarrow (hcloses (by simp [hno])) htest'

end

/-- The last `end`. -/
theorem endBody_drives (h : Poised R ctx c [] below ops s) (htest : s.pendingTest = none)
    (hresults : R.Agree (ops.map Value.ty) c.endMerge.types) :
    Drives R (endBody .compiler) ctx s fun _ => InStep R := by
  obtain ⟨⟨label, hcontrol⟩, hsig⟩ := h.toFacing.outermost
  refine .get_bind (.when (Q := fun ctx' s' => ctx' = ctx ∧ s' = s) (fun _ => .of_throw _)
    (fun _ => ⟨rfl, rfl⟩) ?_)
  rintro ctx s ⟨rfl, rfl⟩
  refine .bind (Q := fun _ _ s' => Concluded R s') (Drives.of_report (fun hl => ?_) fun hl => ?_)
    fun _ _ _ hended => .of_modify (.inr ⟨rfl, hended⟩)
  · obtain ⟨ts, hat, hts, -⟩ := h.slots (h.live ▸ hl) htest
    refine handle_upholds rfl ((ret_upholds hat ?_).mono fun _ s' ⟨h', hcloses⟩ =>
      ⟨hcloses, label, h'.control.trans hcontrol⟩)
    rw [hts.length, ← hsig, ← hresults.length]
    simp only [length_append, length_map]
    omega
  · exact ⟨(h.closes (h.live ▸ hl)).1, label, hcontrol⟩

/-- The end of an arm in code that code generation knows nothing of. -/
theorem fallThru_dead (h : Poised R ctx c outer below ops s) (hc : c.isReachable = false) :
    Drives R (fallThru .compiler) ctx s fun _ ctx' s' => s' = s ∧ ctx.SameSetting ctx' ∧
      ∃ results, Poised R ctx' c outer below results s' ∧ ∀ v ∈ results, R.allows v.ty := by
  refine .check_bind fun u _ hr => ?_
  obtain ⟨results, rfl, h₁, -, hallowed⟩ := h.closing hr
  refine .get_bind (.ite (fun hyes => ?_) fun _ => .of_pure ⟨rfl, ?_, results, h₁, hallowed⟩)
  · rw [h₁.shows.current, hc] at hyes
    cases hyes
  · exact ctx.sameSetting_withOperands ..

/-- A `try` without a catch-all ends. -/
theorem rethrowUncaught_drives (h : Poised R ctx c (p :: outer) below ops s)
    (hp : p.isReachable = false) (hc : c.isReachable = false) (htest : s.pendingTest = none) :
    Drives R (rethrowUncaught .compiler) ctx s fun _ ctx' s' => s' = s ∧
      ∃ c', Poised R ctx' c' (p :: outer) below [] s' ∧ c'.kind = c.kind := by
  refine .bind (fallThru_dead h hc) ?_
  rintro _ ctx₁ s ⟨rfl, hsame₁, results, h₁, hallowed⟩
  refine .modify_bind (.get_bind (.get_bind ?_))
  dsimp only
  rw [h₁.shows.armReachability]
  have hshows₂ := h₁.shows.modifyCurrent (f := fun c => { c with
    reachability := p.reachability.inner }) rfl
  have h₂ := h₁.recast hp hshows₂ ⟨rfl, rfl, rfl, rfl, rfl, rfl⟩
    (h₁.layer.rearm hp hallowed) (h₁.live.trans hc)
  rw [hshows₂.parentReachable, hp]
  refine .modify_bind ?_
  rw [hshows₂.current]
  have hreach := (inner_isReachable p).trans hp
  refine .bind (Q := fun _ ctx' s' => s' = s ∧
    Poised R ctx' { c with reachability := p.reachability.inner } (p :: outer) below results s')
    (Drives.of_report (fun hl => ?_) fun _ => ⟨rfl, ?_⟩) ?_
  · cases hreach.symm.trans hl
  · exact h₂.recast hp ⟨hshows₂.control, hshows₂.stack, hshows₂.depth⟩
      ⟨rfl, rfl, rfl, rfl, rfl, rfl⟩ h₂.layer hreach
  rintro _ ctx₃ s ⟨rfl, h₃⟩
  exact (endControl_poised h₃.toFacing (h₃.closes hreach).1 htest).mono fun _ _ _ ⟨hs, h'⟩ =>
    ⟨hs, _, h', rfl⟩

section

variable (h : Poised R ctx c outer below ops s)
include h

/-- Without a second arm the parameters pass for the results. -/
theorem oneArmedIf_agree {ctx' : Context} (hr : Check.oneArmedIf c ctx = .ok (u, ctx')) :
    R.Agree c.startMerge.types c.endMerge.types := by
  rw [oneArmedIf_apply] at hr
  split at hr
  next => cases hr
  next harity =>
    have hlength : c.startMerge.types.length = c.endMerge.types.length := not_not.1 harity
    refine .of_subtypes hlength h.layer.start fun ht => ?_
    rw [h.fits.full ht, if_neg Bool.false_ne_true] at hr
    rcases hfirst : Check.firstMismatch? c.startMerge.types c.endMerge.types with _
      | ⟨i, want, found⟩ <;> rw [hfirst] at hr <;> cases hr
    exact Check.firstMismatch?_eq_none hlength hfirst

theorem endBlock_drives (htest : s.pendingTest = none) :
    Drives R (endBlock .compiler) ctx s fun _ => InStep R := by
  refine .get_bind (.guard fun _ => ?_)
  rw [h.shows.current]
  refine .when (Q := fun ctx' s' => ctx' = ctx ∧ s' = s ∧
      (c.isOneArmedIf = true → R.Agree c.startMerge.types c.endMerge.types))
    (fun _ => .of_check fun u ctx' hr => ⟨Check.oneArmedIf_ok hr, rfl, fun _ =>
      oneArmedIf_agree h hr⟩) (fun hno => ⟨rfl, rfl, fun hyes => (hno hyes).elim⟩) ?_
  rintro ctx s ⟨rfl, rfl, hone⟩
  refine .when (Q := fun ctx' s' => s' = s ∧ ∃ c' ops', Poised R ctx' c' outer below ops' s' ∧
      (c'.isOneArmedIf = true → R.Agree c'.startMerge.types c'.endMerge.types))
    (fun hkind => ?_) (fun _ => ⟨rfl, c, ops, h, hone⟩) ?_
  · obtain ⟨p, outer', rfl, hp, hc⟩ := h.toFacing.try_untold (by simp [Control.isTry, hkind])
    refine (rethrowUncaught_drives h hp hc htest).mono ?_
    rintro _ ctx' s' ⟨hs, c', h', hkind'⟩
    refine ⟨hs, c', [], h', fun hyes => ?_⟩
    simp [Control.isOneArmedIf, hkind', hkind] at hyes
  rintro ctx₁ s ⟨rfl, c', ops', h₁, hone'⟩
  refine .check_bind fun u _ hr => ?_
  obtain ⟨results, rfl, h₂, hresults, hallowed⟩ := h₁.closing hr
  refine .get_bind ?_
  cases outer with
  | nil =>
    rw [if_pos (by rw [Context.isOutermost, h₂.shows.control])]
    exact endBody_drives h₂ htest hresults
  | cons p outer' =>
    rw [if_neg (by simp [Context.isOutermost, h₁.shows.control])]
    exact popControl_drives h₂ htest hresults hallowed hone'

/-- Handlers are found only in code that code generation knows nothing of. -/
theorem handler_drives (htest : s.pendingTest = none)
    (what : String) {kind : ControlKind} {params : List ValueType}
    (hparams : ∀ ty ∈ params, R.allows ty) (event : Control → List Value → Event) :
    Drives R (handler .compiler what kind params event) ctx s fun _ => InStep R := by
  refine .check_bind fun u ctx₁ hr => ?_
  obtain ⟨rfl, htry⟩ := requireTry_ok h.shows hr
  obtain ⟨p, outer', rfl, hp, hc⟩ := h.toFacing.try_untold htry
  refine .modify_bind ?_
  have h₂ := h.recast hp (h.shows.modifyCurrent (f := fun c => { c with kind }) rfl)
    ⟨rfl, rfl, rfl, rfl, rfl, rfl⟩ (h.layer.congr id nofun rfl rfl h.layer.operands)
    (h.live.trans hc)
  refine .bind (fallThru_dead h₂ hc) ?_
  rintro _ ctx₃ s ⟨rfl, -, results, h₃, hallowed⟩
  -- The arm begins without operands and is as reachable as the construct around it.
  refine .modify_bind ?_
  dsimp only
  rw [h₃.shows.armReachability, h₃.shows.current, h₃.shows.truncate]
  have hshows₄ := (h₃.shows.withOperands []).modifyCurrent (f := fun c => { c with
    reachability := p.reachability.inner }) rfl
  generalize hctx₄ : (ctx₃.withOperands below []).modifyCurrent
    (fun c => { c with reachability := p.reachability.inner }) = ctx₄ at hshows₄ ⊢
  have hsame₄ : ctx₃.SameSetting ctx₄ := by
    rw [← hctx₄]
    exact ⟨rfl, rfl, rfl, rfl, rfl, rfl⟩
  have hfresh : ∀ v ∈ Check.fresh ctx₄ params, R.allows v.ty := Guarded.Agrees.mem_fresh hparams
  have hlayer₄ := h₃.layer.rearm hp hfresh
  have hreach := (inner_isReachable p).trans hp
  refine .check_bind fun values ctx₅ hr => ?_
  rw [Check.pushAll_eq hshows₄] at hr
  cases hr
  have hshows₅ := hshows₄.withOperands ([] ++ Check.fresh ctx₄ params)
  refine .get_bind (.get_bind ?_)
  rw [hshows₅.parentReachable, hp, hshows₅.current]
  exact .of_modify (Poised.settled (h₃.recast hp ⟨hshows₅.control, hshows₅.stack, hshows₅.depth⟩
    (hsame₄.trans ⟨rfl, rfl, rfl, rfl, rfl, rfl⟩) hlayer₄ hreach) htest)

end

end Decode

end OnePass
