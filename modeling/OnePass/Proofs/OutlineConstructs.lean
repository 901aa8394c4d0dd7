import OnePass.Proofs.OutlineInstructions

/-!
Opening and closing constructs follows the frames. A listener's answer can make code dead at any of
these points; a dead construct is checked like a reachable one, so no frame notices.
-/
namespace OnePass

variable {env env' : TypeEnv}

open List

theorem Decode.armReachability_ne (ctx : Context) : Decode.armReachability ctx ≠ .unreachable := by
  unfold Decode.armReachability
  cases (ctx.controlAt 1).reachability <;> decide

namespace Matches

variable {ctx : Context} {f : Frame} {fs : List Frame}

section

variable (hm : Matches ctx (f :: fs))
include hm

/-- Change the innermost construct together with its frame. -/
theorem reshape {g : Control → Control} (f' : Frame) (live : Bool)
    (hg : ∀ c : Control, c.Outlined f → (g c).Outlined f' ∧ (g c).stackDepth = c.stackDepth)
    (hops : f'.operands = f.operands) (hclean : f'.Clean ctx.options.trusted)
    (hlive : live = true → f'.polymorphic = false) :
    Matches { ctx.modifyCurrent g with live } (f' :: fs) := by
  obtain ⟨ops, below, c, cs, htypes, hcontrol, outlined, agree, -, depth, rest⟩ := hm.split
  constructor
  · have hctl : ctx.control.modify 0 g = g c :: cs := by rw [hcontrol]; rfl
    change Framed _ ctx.types (ctx.control.modify 0 g) _
    rw [hctl, htypes]
    exact .cons (hg c outlined).1 (hops ▸ agree) hclean ((hg c outlined).2.trans depth) rest
  · intro h g' hg'
    simp only [head?_cons, Option.mem_some_iff] at hg'
    exact hg' ▸ hlive h

theorem setLive (hpoly : f.polymorphic = false) (live : Bool) :
    Matches { ctx with live } (f :: fs) := by
  refine ⟨hm.framed, fun _ g hg => ?_⟩
  simp only [head?_cons, Option.mem_some_iff] at hg
  exact hg ▸ hpoly

/-- Another arm starts from what the enclosing construct allows, and its operands are known. -/
theorem rearm {inner : Reachability} (mark : Control → Control)
    (hinner : inner ≠ .unreachable) (hmark : ∀ c : Control, c.Alike (mark c))
    (hops : .bottom ∉ f.operands) :
    Matches (ctx.modifyCurrent fun c => { mark c with reachability := inner })
      ({ f with polymorphic := false } :: fs) := by
  refine hm.reshape { f with polymorphic := false } ctx.live ?_ rfl
    ⟨hm.clean.params, hm.clean.results, fun _ _ => hops⟩ fun _ => rfl
  intro c outlined
  have outlined' := outlined.congr (hmark c)
  exact ⟨⟨outlined'.kind, outlined'.params, outlined'.results, outlined'.pc,
    beq_eq_false_iff_ne.2 hinner⟩, (hmark c).stackDepth⟩

theorem beginArm : Matches ((ctx.truncate ctx.current.stackDepth).modifyCurrent fun c =>
        { c with reachability := Decode.armReachability ctx })
      ({ f with operands := [], polymorphic := false } :: fs) :=
  hm.truncate.rearm id (Decode.armReachability_ne ctx) Control.Alike.refl
    not_mem_nil

theorem setKind {kind : ControlKind} :
    Matches (ctx.modifyCurrent fun c => { c with kind }) ({ f with kind } :: fs) := by
  refine hm.reshape { f with kind } ctx.live ?_ rfl
    ⟨hm.clean.params, hm.clean.results, hm.clean.operands⟩ fun h => hm.live h f rfl
  intro c outlined
  exact ⟨⟨rfl, outlined.params, outlined.results, outlined.pc, outlined.unreachable⟩, rfl⟩

/-- The operands become exactly values of the given types. -/
theorem pushMergeValues {types : List ValueType} (htypes : .bottom ∉ types) :
    ∃ ctx', Check.pushMergeValues types ctx = .ok ((), ctx') ∧
      Matches ctx' ({ f with operands := types.reverse } :: fs) ∧ ctx.SameSetting ctx' ∧
      ctx'.control = ctx.control ∧ ctx'.live = ctx.live := by
  refine ⟨_, rfl, ?_, ⟨rfl, rfl, rfl, rfl, rfl, rfl⟩, rfl, rfl⟩
  refine hm.replaceOperands types.reverse rfl rfl rfl ?_ ⟨rfl, fun _ => rfl⟩ ?_
  · intro below hbelow
    rw [← hbelow, ← hm.types_truncate]
    simp [Context.types, Context.truncate, Function.comp_def]
  · intro _ _ hmem
    exact htypes (mem_reverse.1 hmem)

end

/-- Open a construct with no operands yet. -/
theorem pushControl (hm : Matches ctx fs) (kind : ControlKind) (type : BlockType)
    (hparams : .bottom ∉ type.params) (hresults : .bottom ∉ type.results) :
    ∃ c ctx', Check.pushControl kind type ctx = .ok (c, ctx') ∧
      Matches ctx' (⟨kind, type.params, type.results, [], false, ctx.pc⟩ :: fs) ∧
        ctx.SameSetting ctx' := by
  refine ⟨_, _, rfl, ⟨?_, ?_⟩, ⟨rfl, rfl, rfl, rfl, rfl, rfl⟩⟩
  · change Framed _ ([] ++ ctx.types) (_ :: ctx.control) _
    refine .cons ⟨rfl, rfl, rfl, rfl, ?_⟩ ⟨rfl, fun _ => rfl⟩ ⟨hparams, hresults, ?_⟩
      (Context.length_types ctx).symm hm.framed
    · cases ctx.control with
      | nil => rfl
      | cons parent _ =>
        simp only [Control.isUnreachable]
        cases parent.reachability <;> rfl
    · exact fun _ _ => not_mem_nil
  · intro _ g hg
    simp only [head?_cons, Option.mem_some_iff] at hg
    exact hg ▸ rfl

/-- Code is live again where it is reachable. -/
theorem of_framed (h : Framed ctx.options.trusted ctx.types ctx.control (f :: fs)) :
    Matches { ctx with live := ctx.current.isReachable } (f :: fs) := by
  have hdead : Matches { ctx with live := false } (f :: fs) := ⟨h, fun hl => by cases hl⟩
  refine ⟨h, fun hl g hg => ?_⟩
  simp only [head?_cons, Option.mem_some_iff] at hg
  exact hg ▸ hdead.polymorphic_of_isReachable hl

/-- Close a construct that holds just its results. -/
theorem leave {outer : Frame} {results : List ValueType} (hm : Matches ctx (f :: outer :: fs))
    (hops : f.operands = results.reverse) (hresults : .bottom ∉ results) :
    Framed ctx.options.trusted ctx.types ctx.control.tail
      ({ outer with operands := results.reverse ++ outer.operands } :: fs) := by
  obtain ⟨ops, below, c, cs, htypes, hcontrol, -, agree, -, -, rest⟩ := hm.split
  cases rest with
  | @cons ops' below' c' cs' _ _ outlined agree' clean' depth' rest' =>
    rw [htypes, hcontrol, tail_cons, ← append_assoc]
    rw [hops] at agree
    refine .cons ⟨outlined.kind, outlined.params, outlined.results, outlined.pc,
      outlined.unreachable⟩ ⟨?_, fun ht => ?_⟩ ⟨clean'.params, clean'.results, ?_⟩ depth' rest'
    · rw [length_append, length_append, agree.1, agree'.1]
    · rw [agree.2 ht, agree'.2 ht]
    · intro ht hp hmem
      rcases mem_append.1 hmem with hmem | hmem
      · exact hresults (mem_reverse.1 hmem)
      · exact clean'.operands ht hp hmem

end Matches

theorem Frame.popTypes_congr (h : env.options = env'.options)
    (types : List ValueType) : popTypes env types = popTypes env' types := by
  have haccepts : env.accepts = env'.accepts := by
    funext expected found
    simp [TypeEnv.accepts, h]
  induction types with
  | nil => rfl
  | cons ty types ih => simp [popTypes, pop, ih, haccepts]

theorem Frame.fallthrough_congr (h : env.options = env'.options) :
    Frame.fallthrough env = Frame.fallthrough env' := by
  simp only [Frame.fallthrough, Frame.popTypes_congr h]

/-- A construct that falls through has just its results as operands. -/
theorem Frame.operands_of_fallthrough {f f' : Frame} {u : Unit}
    (h : Frame.fallthrough env f = some (u, f')) :
      f' = { f with operands := f.results.reverse } := by
  rw [Frame.fallthrough, FrameM.get_bind_apply, FrameM.bind_apply, FrameM.guard_apply] at h
  split at h
  next hle =>
    rw [Option.bind_some, FrameM.bind_apply] at h
    obtain ⟨⟨_, g⟩, hpop, hpush⟩ := Option.bind_eq_some_iff.1 h
    simp only [pushTypes_eq, operands_of_popTypes hpop, drop_eq_nil_of_le hle, append_nil] at hpush
    cases hpush
    rfl
  next => cases h

/-- The state after the innermost construct `c` is closed. -/
def Context.leave (c : Control) (ctx : Context) : Context :=
  let outer := { ctx with control := ctx.control.tail }
  let outer :=
    if c.isReachable || c.endMerge.reached || c.isOneArmedIf then outer else outer.markDead
  { outer with live := outer.current.isReachable }

namespace Decode

variable {σ : Type} {b : Backend σ} {env : TypeEnv} {fs : List Frame} {ctx : Context} {f : Frame}
  {ctx ctx' : Context}

/-- A step succeeds together with a step of the frames, or both fail at the same offset. -/
def Follows (ctx : Context) (r : Except CompileError (Unit × Context))
    (q : Except Nat (List Frame)) : Prop :=
  match r, q with
  | .ok (_, ctx'), .ok frames => Matches ctx' frames ∧ ctx.SameSetting ctx'
  | .error (.decode e), .error offset => e.offset = offset
  | _, _ => False

variable {q : Except Nat (List Frame)}

theorem Follows.trans {r : Except CompileError (Unit × Context)}
    (same : ctx.SameSetting ctx') (h : Follows ctx' r q) : Follows ctx r q := by
  unfold Follows at h ⊢
  split at h
  · exact ⟨h.1, same.trans h.2⟩
  · exact h
  · exact h.elim

theorem Ends.rebase {m : DecodeM σ Unit}
    (same : ctx.SameSetting ctx') (h : Ends m ctx' fun r => Follows ctx' r q) :
    Ends m ctx' fun r => Follows ctx r q :=
  fun s => Follows.trans same (h s)

/-- Go on after a step of the innermost frame. -/
theorem Ends.follow {α : Type} {pre : Frame → Prop} {m : DecodeM σ α} {a : FrameM Unit}
    {post : α → Unit → Frame → Prop} {k : α → DecodeM σ Unit}
    {q : Frame → Except Nat (List Frame)}
    (h : Tracks env pre m a post) (hm : Matches ctx (f :: fs))
    (henv : .ofFrames ctx.options ctx.sig.results (f :: fs) = env) (hpre : pre f)
    (hk : ∀ x ctx' f', a f = some ((), f') → f.SameShape f' → Matches ctx' (f' :: fs) →
      ctx.SameSetting ctx' → Ends (k x) ctx' fun r => Follows ctx' r (q f')) :
    Ends (m >>= k) ctx fun r => Follows ctx r (Outline.within ctx.pc a f >>= q) := by
  apply Ends.bind
  intro s
  have h := h ctx f fs hm henv hpre s
  unfold Outline.within
  obtain ⟨x, ctx', y, f', hr, ha, -, shape, hm', same⟩ | ⟨e, hr, ha, he⟩ := h.cases
  · rw [hr, ha]
    exact fun s' => Follows.trans same (hk x ctx' f' ha shape hm' same s')
  · rw [hr, ha]
    exact he

variable {event : Control → Event}

section

variable (hb : b.NeverBails) {type : BlockType} {fs : List Frame} {ctx : Context} {f : Frame}
include hb

/-- Nothing is read, so no step of a construct can fail any more. -/
theorem Ends.openBlock_tail
    {kind : ControlKind} (hm : Matches ctx (f :: fs))
    (hparams : .bottom ∉ type.params) (hresults : .bottom ∉ type.results) :
    Ends (do
        let block ← check (Check.pushControl kind type)
        report b (event block)
        check (Check.pushMergeValues type.params)) ctx
      fun r => Follows ctx r (.ok (Outline.opened kind type ctx.pc :: f :: fs)) := by
  obtain ⟨c, ctx₁, hpush, hm₁, same₁⟩ := hm.pushControl kind type hparams hresults
  refine Ends.check_bind hpush ?_
  have hend : ∀ ctx₂, Matches ctx₂
      (⟨kind, type.params, type.results, [], false, ctx.pc⟩ :: f :: fs) →
      ctx.SameSetting ctx₂ → Ends (σ := σ) (check (Check.pushMergeValues type.params)) ctx₂
        fun r => Follows ctx r (.ok (Outline.opened kind type ctx.pc :: f :: fs)) := by
    intro ctx₂ hm₂ same₂
    obtain ⟨ctx₃, hvalues, hm₃, same₃, -⟩ := hm₂.pushMergeValues hparams
    apply Ends.of_check
    rw [hvalues]
    exact ⟨hm₃, same₂.trans same₃⟩
  exact Ends.report_bind hb (hend ctx₁ hm₁ same₁)
    (hend ctx₁.markDead hm₁.markDead (same₁.trans (.markDead ctx₁)))

section

variable (hm : Matches ctx (f :: fs)) (henv : .ofFrames ctx.options ctx.sig.results (f :: fs) = env)
  (htypes : .bottom ∉ type.params ++ type.results)
include hm henv htypes

theorem follows_openBlock
    {kind : ControlKind} :
    Ends (openBlock b kind type event) ctx fun r => Follows ctx r (do
      return Outline.opened kind type ctx.pc ::
        (← Outline.within ctx.pc (Frame.popTypes env type.params) f) :: fs) := by
  rw [mem_append, not_or] at htypes
  refine Ends.follow (tracks_popTypes 0 type.params) hm henv trivial ?_
  intro _ ctx' f' _ _ hm' same
  rw [← same.pc]
  exact Ends.openBlock_tail hb hm' htypes.1 htypes.2

theorem follows_openIf : Ends (openIf b type) ctx fun r => Follows ctx r (do
      let popped ← Outline.within ctx.pc
        (do Frame.pop env .i32; Frame.popTypes env type.params) f
      return Outline.opened .ifThen type ctx.pc :: popped :: fs) := by
  rw [mem_append, not_or] at htypes
  have hpops : Tracks (σ := σ) env (fun _ => True) (do
        let cond ← check (Check.pop 0 .i32)
        let _ ← check (Check.popArgs type.params)
        return cond)
      (do Frame.pop env .i32; Frame.popTypes env type.params) fun _ _ _ => True :=
    (tracks_pop 0 .i32).bind fun _ _ =>
      (tracks_popTypes 0 type.params).andThen fun _ _ => Tracks.pure fun _ => id
  have heq : openIf b type = ((do
      let cond ← check (Check.pop 0 .i32)
      let _ ← check (Check.popArgs type.params)
      return cond) >>= fun cond => (do
        let block ← check (Check.pushControl .ifThen type)
        report b (.ifThen cond block)
        check (Check.pushMergeValues type.params))) := by
    simp [openIf, openBlock]
  rw [heq]
  refine Ends.follow hpops hm henv trivial ?_
  intro cond ctx' f' _ _ hm' same
  rw [← same.pc]
  exact Ends.openBlock_tail hb hm' htypes.1 htypes.2

end

theorem tracks_fallThru :
    Tracks env (fun _ => True) (fallThru b) (Frame.fallthrough env) fun _ _ _ => True := by
  refine tracks_fallthrough.andThen fun _ _ => ?_
  have hmark : Tracks (σ := σ) env (fun _ => True)
      (modify fun ctx => ctx.modifyCurrent Control.markEnd) (pure ()) fun _ _ _ => True := by
    intro ctx f fs hm _ _
    exact Ends.of_modify ⟨trivial, .refl f, hm.modifyControl Control.Alike.markEnd 0,
      ⟨rfl, rfl, rfl, rfl, rfl, rfl⟩⟩
  intro ctx f fs hm henv _
  apply Ends.get_bind
  dsimp only
  split
  · split
    · exact (tracks_tell hb _).before (fun _ => hmark) ctx f fs hm henv trivial
    · exact hmark ctx f fs hm henv trivial
  · exact Ends.of_pure ⟨trivial, .refl f, hm, .refl ctx⟩

end

/-- Start the other arm of an `if`, whatever the listener answered. -/
theorem Ends.otherArm (hm : Matches ctx (f :: fs))
    (hops : .bottom ∉ f.operands) {types : List ValueType} (htypes : types = f.params) :
    Ends (σ := σ) (do
        let inner := armReachability (← get)
        modify fun ctx => ctx.modifyCurrent fun c =>
          { (if c.isReachable then c.markEnd else c) with reachability := inner }
        check (Check.pushMergeValues types)
        modify fun ctx => { ctx with live := inner == .reachable }) ctx
      fun r => Follows ctx r (.ok (Outline.newArm f.kind f.params.reverse f :: fs)) := by
  have hmark : ∀ c : Control, c.Alike (if c.isReachable then c.markEnd else c) := by
    intro c
    split
    · exact .markEnd c
    · exact .refl c
  have hm₁ := hm.rearm _ (armReachability_ne ctx) hmark hops
  obtain ⟨ctx₂, hvalues, hm₂, same₂, -⟩ := hm₁.pushMergeValues (htypes ▸ hm.clean.params)
  refine Ends.get_bind (Ends.modify_bind (Ends.check_bind hvalues (Ends.of_modify ⟨?_, ?_⟩)))
  · subst htypes
    exact hm₂.setLive rfl _
  · exact ⟨same₂.module, same₂.sig, same₂.options, same₂.reader, same₂.locals, same₂.pc⟩

theorem follows_elseArm (hb : b.NeverBails)
    (hm : Matches ctx (f :: fs)) (henv : .ofFrames ctx.options ctx.sig.results (f :: fs) = env)
    (reader : Reader) :
    Ends (elseArm b) ctx fun r =>
      Follows ctx r (Outline.advance env reader ctx.pc .elseArm (f :: fs)) := by
  have hkind : ctx.current.kind = f.kind := hm.outlined.kind
  apply Ends.get_bind
  dsimp only [Outline.advance]
  by_cases hthen : f.kind = .ifThen
  · rw [if_neg (by simp [Control.isIf, hkind, hthen]), if_neg (by simp [hkind, hthen]),
      if_neg (by simp [hthen])]
    refine Ends.follow tracks_fallthrough hm henv trivial ?_
    intro _ ctx₁ f₁ hf₁ shape hm₁ same₁
    have hops : .bottom ∉ f₁.operands := by
      rw [Frame.operands_of_fallthrough hf₁]
      exact fun hmem => hm.clean.results (mem_reverse.1 hmem)
    have hm₂ : Matches _ ({ f₁ with kind := .ifElse } :: fs) := hm₁.setKind
    have htypes := hm₂.outlined.params
    refine Ends.modify_bind (Ends.get_bind (Ends.get_bind ?_))
    exact Ends.rebase ⟨rfl, rfl, rfl, rfl, rfl, rfl⟩ (.when_told hb (Ends.otherArm hm₂ hops htypes)
      (Ends.rebase (.markDead _) (Ends.otherArm hm₂.markDead hops htypes)))
  · have hnot : ctx.current.kind ≠ .ifThen := fun h => hthen (hkind ▸ h)
    rw [if_pos hthen]
    by_cases helse : ctx.current.kind = .ifElse
    · rw [if_neg (by simp [Control.isIf, helse]), if_pos helse]
      exact fun _ => rfl
    · rw [if_pos (by simp [Control.isIf, hnot, helse])]
      exact fun _ => rfl

theorem requireTry_apply (what : String) (ctx : Context) :
    requireTry what ctx = (if !ctx.current.isTry then Check.fault (.catchOutsideTry what)
      else if ctx.current.kind = .tryCatchAll then Check.fault (.catchAfterCatchAll what)
      else pure () : CheckM Unit) ctx := rfl

theorem requireTry_eq (hm : Matches ctx (f :: fs)) (what : String) :
    ∃ e, requireTry what ctx = if !Outline.isTryKind f.kind || f.kind = .tryCatchAll
      then .error ⟨ctx.pc, e⟩ else .ok ((), ctx) := by
  have htry : ctx.current.isTry = Outline.isTryKind f.kind := by
    simp only [Control.isTry, Outline.isTryKind, hm.outlined.kind]
  rw [requireTry_apply, htry, hm.outlined.kind]
  cases Outline.isTryKind f.kind with
  | false => exact ⟨_, rfl⟩
  | true =>
    by_cases hall : f.kind = .tryCatchAll
    · simp only [hall]
      exact ⟨_, rfl⟩
    · simp only [hall]
      exact ⟨.missingEnd, rfl⟩

section

variable (hb : b.NeverBails) {ctx : Context}
include hb

/-- The new arm is live again if it is reachable, whatever the listener answered. -/
theorem follows_handler {f : Frame} {fs : List Frame}
    (hm : Matches ctx (f :: fs)) (henv : .ofFrames ctx.options ctx.sig.results (f :: fs) = env)
    (what : String) (kind : ControlKind) {params : List ValueType} (hparams : .bottom ∉ params)
    (event : Control → List Value → Event) :
    Ends (handler b what kind params event) ctx fun r => Follows ctx r (do
      if !Outline.isTryKind f.kind || f.kind = .tryCatchAll then throw ctx.pc
      let f ← Outline.within ctx.pc (Frame.fallthrough env) { f with kind }
      return Outline.newArm kind params.reverse f :: fs) := by
  obtain ⟨e, htry⟩ := requireTry_eq hm what
  refine Ends.bind (Ends.of_check ?_)
  rw [htry]
  by_cases hfault : (!Outline.isTryKind f.kind || f.kind = .tryCatchAll) = true
  · rw [if_pos hfault, if_pos hfault]
    exact rfl
  · rw [if_neg hfault, if_neg hfault]
    have hm₁ : Matches _ ({ f with kind } :: fs) := hm.setKind
    refine Ends.modify_bind (Ends.rebase ⟨rfl, rfl, rfl, rfl, rfl, rfl⟩ ?_)
    have hfall : Frame.fallthrough env = Frame.fallthrough
        (.ofFrames ctx.options ctx.sig.results ({ f with kind } :: fs)) :=
      Frame.fallthrough_congr (by rw [← henv]; rfl)
    rw [hfall]
    refine Ends.follow (tracks_fallThru hb) hm₁ rfl trivial ?_
    intro _ ctx₂ f₂ _ shape hm₂ same₂
    refine Ends.modify_bind (Ends.rebase ⟨rfl, rfl, rfl, rfl, rfl, rfl⟩ ?_)
    have hkind : f₂.kind = kind := shape.kind
    have harm : (.ok (Outline.newArm kind params.reverse f₂ :: fs) : Except Nat (List Frame)) =
        Outline.within ctx₂.pc (Frame.pushTypes params)
          { f₂ with operands := [], polymorphic := false } >>= fun f' => .ok (f' :: fs) := by
      simp only [Outline.within, Frame.pushTypes_eq, append_nil, ← hkind]
      rfl
    change Ends _ _ fun r => Follows _ r (.ok _)
    rw [harm]
    refine Ends.follow (tracks_pushTypes hparams) hm₂.beginArm rfl trivial ?_
    intro values ctx₄ f₄ hf₄ _ hm₄ same₄
    rw [Frame.pushTypes_eq] at hf₄
    cases hf₄
    refine Ends.get_bind (Ends.get_bind (.when_told hb ?_ ?_))
    · exact Ends.of_modify ⟨hm₄.setLive rfl _, ⟨rfl, rfl, rfl, rfl, rfl, rfl⟩⟩
    · exact Ends.of_modify ⟨hm₄.markDead.setLive rfl _, ⟨rfl, rfl, rfl, rfl, rfl, rfl⟩⟩

theorem tracks_rethrowUncaught :
    Tracks env (fun _ => True) (rethrowUncaught b) (do Frame.fallthrough env; Frame.close)
      fun _ _ _ => True := by
  refine (tracks_fallThru hb).tracing.bind fun _ _ => ?_
  rintro ctx f fs hm henv ⟨-, g, -, hg⟩
  have hops : .bottom ∉ f.operands := by
    rw [Frame.operands_of_fallthrough hg] at hm ⊢
    exact fun hmem => hm.clean.results (mem_reverse.1 hmem)
  have htail : ∀ (c : Control) (ctx' : Context),
      Matches ctx' ({ f with polymorphic := false } :: fs) → ctx.SameSetting ctx' →
      Ends (do report b (.rethrow c); endControl b) ctx' fun r =>
        Agreement ctx.pc (fun _ ctx' _ f' => True ∧ f.SameShape f' ∧ Matches ctx' (f' :: fs) ∧
          ctx.SameSetting ctx') r (Frame.close f) := by
    intro c ctx' hm' same s
    have h := (tracks_report hb (.rethrow c)).before (fun _ => tracks_endControl hb)
      ctx' _ fs hm' rfl trivial s
    rw [same.pc] at h
    exact h.mono fun _ _ _ _ _ ⟨_, shape, hm'', same'⟩ =>
      ⟨trivial, ⟨shape.kind, shape.params, shape.results, shape.pc⟩, hm'', same.trans same'⟩
  have hm₁ := hm.rearm id (armReachability_ne ctx) Control.Alike.refl hops
  refine Ends.modify_bind (Ends.get_bind (Ends.get_bind (.when_told hb ?_ ?_)))
  · exact Ends.modify_bind (htail _ _ (hm₁.setLive rfl _) ⟨rfl, rfl, rfl, rfl, rfl, rfl⟩)
  · exact Ends.modify_bind (htail _ _ (hm₁.markDead.setLive rfl _) ⟨rfl, rfl, rfl, rfl, rfl, rfl⟩)

theorem follows_endBody : Ends (endBody b) ctx fun r =>
      Follows ctx r (if ctx.reader.isAtEnd then .ok [] else .error ctx.reader.pos) := by
  have hdone : ∀ ctx' : Context, Matches { ctx' with control := [] } [] :=
    fun ctx' => ⟨.nil _, fun _ g hg => by cases hg⟩
  apply Ends.get_bind
  dsimp only
  cases ctx.reader.isAtEnd with
  | false => exact fun _ => rfl
  | true =>
    refine Ends.report_bind hb ?_ ?_
    · exact Ends.of_modify ⟨hdone ctx, ⟨rfl, rfl, rfl, rfl, rfl, rfl⟩⟩
    · exact Ends.of_modify ⟨hdone ctx.markDead, ⟨rfl, rfl, rfl, rfl, rfl, rfl⟩⟩

theorem follows_popControl {f outer : Frame} {fs : List Frame}
    (hm : Matches ctx (f :: outer :: fs)) (hops : f.operands = f.results.reverse) :
    Ends (popControl b) ctx fun r =>
      Follows ctx r (.ok ({ outer with operands := f.results.reverse ++ outer.operands } ::
        fs)) := by
  have hleave : ∀ (c : Control) (ctx' : Context) (g : Frame),
      Matches ctx' (g :: outer :: fs) → g.operands = f.results.reverse → ctx.SameSetting ctx' →
      Ends (σ := σ) (modify (Context.leave c)) ctx' fun r => Follows ctx r
        (.ok ({ outer with operands := f.results.reverse ++ outer.operands } :: fs)) := by
    intro c ctx' g hm' hops' same
    have hframed := hm'.leave hops' hm.clean.results
    apply Ends.of_modify
    dsimp only [Context.leave]
    split
    · exact ⟨.of_framed hframed, same.trans ⟨rfl, rfl, rfl, rfl, rfl, rfl⟩⟩
    · exact ⟨.of_framed (hframed.modify Control.Alike.of_narrowed 0),
        same.trans ⟨rfl, rfl, rfl, rfl, rfl, rfl⟩⟩
  have htail : ∀ ctx' : Context, Matches ctx' (f :: outer :: fs) → ctx.SameSetting ctx' →
          Ends (σ := σ) (do
        if !ctx.current.isLoop then check (Check.pushMergeValues ctx.current.endMerge.types)
        modify (Context.leave ctx.current)) ctx' fun r => Follows ctx r
          (.ok ({ outer with operands := f.results.reverse ++ outer.operands } :: fs)) := by
    intro ctx' hm' same
    rw [hm.outlined.results]
    dsimp only
    split
    · obtain ⟨ctx₂, hvalues, hm₂, same₂, -⟩ := hm'.pushMergeValues hm.clean.results
      exact Ends.check_bind hvalues (hleave ctx.current ctx₂ _ hm₂ rfl (same.trans same₂))
    · exact hleave ctx.current ctx' f hm' hops same
  exact Ends.get_bind (Ends.get_bind (.when_told hb (htail ctx hm (.refl ctx))
    (htail ctx.markDead hm.markDead (.markDead ctx))))

end

theorem oneArmedIf_apply (c : Control) (ctx : Context) :
    Check.oneArmedIf c ctx = (if c.startMerge.arity ≠ c.endMerge.arity
        then throw ⟨c.pc, .oneArmedIfArity⟩
      else if ctx.options.trusted then pure ()
      else match Check.firstMismatch? c.startMerge.types c.endMerge.types with
        | some (i, want, found) => throw ⟨c.pc, .mergeType "merge" i want found⟩
        | none => pure () : CheckM Unit) ctx := by
  unfold Check.oneArmedIf
  split <;> rfl

theorem oneArmedIf_eq {c : Control} (h : c.Outlined f) (ctx : Context) :
    ∃ e, Check.oneArmedIf c ctx = if Outline.passesThrough ctx.options f
      then .ok ((), ctx) else .error ⟨f.pc, e⟩ := by
  rw [oneArmedIf_apply]
  simp only [Merge.arity, h.params, h.results, h.pc]
  by_cases hlength : f.params.length = f.results.length
  · rw [if_neg fun hne => hne hlength]
    cases htrusted : ctx.options.trusted with
    | true =>
      have hpass : Outline.passesThrough ctx.options f = true := by
        simp [Outline.passesThrough, hlength, htrusted]
      rw [hpass]
      exact ⟨.missingEnd, rfl⟩
    | false =>
      have hiff : Check.firstMismatch? f.params f.results = none ↔
          Outline.passesThrough ctx.options f = true := by
        rw [firstMismatch?_eq_none_iff]
        simp [Outline.passesThrough, hlength, htrusted]
      cases hfirst : Check.firstMismatch? f.params f.results with
      | none =>
        rw [hiff.1 hfirst]
        exact ⟨.missingEnd, rfl⟩
      | some m =>
        have hpass : Outline.passesThrough ctx.options f = false := by
          rw [← Bool.not_eq_true, ← hiff, hfirst]
          exact Option.some_ne_none m
        rw [hpass]
        exact ⟨_, rfl⟩
  · have hpass : Outline.passesThrough ctx.options f = false := by
      simp [Outline.passesThrough, hlength]
    rw [if_pos hlength, hpass]
    exact ⟨_, rfl⟩

/-- The construct falls through to its end and is closed. -/
theorem Ends.closeBlock (hb : b.NeverBails) {f : Frame} {fs : List Frame}
    (hm : Matches ctx (f :: fs)) (henv : .ofFrames ctx.options ctx.sig.results (f :: fs) = env) :
    Ends (do
        check Check.fallthrough
        if (← get).isOutermost then endBody b else popControl b) ctx fun r => Follows ctx r (do
      let f ← Outline.within ctx.pc (Frame.fallthrough env) f
      match fs with
      | [] => if ctx.reader.isAtEnd then return [] else throw ctx.reader.pos
      | outer :: rest =>
        return { outer with operands := f.results.reverse ++ outer.operands } :: rest) := by
  refine Ends.follow tracks_fallthrough hm henv trivial ?_
  intro _ ctx₁ f₁ hf₁ shape hm₁ same₁
  have hlength := hm₁.framed.length_eq
  apply Ends.get_bind
  cases fs with
  | nil =>
    have houter : ctx₁.isOutermost = true := by
      unfold Context.isOutermost
      match ctx₁.control, hlength with
      | [c], _ => rfl
    rw [houter, ← same₁.reader]
    exact follows_endBody hb
  | cons outer rest =>
    have houter : ctx₁.isOutermost = false := by
      unfold Context.isOutermost
      match ctx₁.control, hlength with
      | _ :: _ :: _, _ => rfl
    rw [houter]
    refine follows_popControl hb hm₁ ?_
    rw [Frame.operands_of_fallthrough hf₁]

theorem follows_endBlock (hb : b.NeverBails)
    (hm : Matches ctx (f :: fs)) (henv : .ofFrames ctx.options ctx.sig.results (f :: fs) = env) :
    Ends (endBlock b) ctx fun r =>
      Follows ctx r (Outline.advance env ctx.reader ctx.pc .endBlock (f :: fs)) := by
  have hkind : ctx.current.kind = f.kind := hm.outlined.kind
  have hopt : env.options = ctx.options := by rw [← henv]; rfl
  apply Ends.get_bind
  dsimp only [Outline.advance, Outline.endConstruct, Control.isOneArmedIf]
  simp only [hkind, hopt]
  cases hf : f.kind with
  | tryBlock => exact fun _ => rfl
  | block | loop | ifElse | tryCatchAll => exact Ends.closeBlock hb hm henv
  | ifThen =>
    obtain ⟨e, hone⟩ := oneArmedIf_eq hm.outlined ctx
    refine Ends.bind (Ends.of_check ?_)
    rw [hone]
    cases Outline.passesThrough ctx.options f with
    | false => exact rfl
    | true => exact Ends.closeBlock hb hm henv
  | tryCatch =>
    refine Ends.follow (tracks_rethrowUncaught hb) hm henv trivial ?_
    intro _ ctx₁ f₁ _ shape hm₁ same₁
    have henv₁ : .ofFrames ctx₁.options ctx₁.sig.results (f₁ :: fs) = env := by
      rw [same₁.options, same₁.sig, TypeEnv.ofFrames_congr shape, henv]
    rw [← same₁.pc, ← same₁.reader]
    exact Ends.closeBlock hb hm₁ henv₁

variable {i : Instruction}

theorem advance_of_plain (h : i.isStructural = false) (reader : Reader) (pc : Nat)
    (f : Frame) (fs : List Frame) :
    Outline.advance env reader pc i (f :: fs) =
      (Outline.within pc (i.effect env) f >>= fun f => .ok (f :: fs)) := by
  cases i <;> first | rfl | cases h

/-- An instruction does to the stacks what it does to the frames. -/
theorem follows_instruction (hb : b.NeverBails)
    (hm : Matches ctx (f :: fs)) (hresults : .bottom ∉ ctx.sig.results)
    (htypes : .bottom ∉ i.types) :
    Ends (instruction b i) ctx fun r => Follows ctx r
      (Outline.advance (.ofFrames ctx.options ctx.sig.results (f :: fs))
        ctx.reader ctx.pc i (f :: fs)) := by
  cases hplain : i.isStructural with
  | false =>
    rw [advance_of_plain hplain, ← bind_pure (instruction b i)]
    refine Ends.follow (tracks_instruction hb hresults hplain htypes) hm rfl trivial ?_
    intro _ ctx' f' _ _ hm' _
    exact Ends.of_pure ⟨hm', .refl ctx'⟩
  | true =>
    cases i with
    | block | loop | tryBlock => exact follows_openBlock hb hm rfl htypes
    | ifThen => exact follows_openIf hb hm rfl htypes
    | elseArm => exact follows_elseArm hb hm rfl _
    | endBlock => exact follows_endBlock hb hm rfl
    | catchTag => exact follows_handler hb hm rfl _ _ htypes _
    | catchAll =>
      rw [instruction_catchAll]
      exact follows_handler hb hm rfl _ _ not_mem_nil _
    | _ => cases hplain

end Decode

end OnePass
