import OnePass.Proofs.LockStepEvents

/-!
Instructions that neither open nor end a construct nor branch keep the decoder and code generation
in step, in live code and in dead code.
-/
namespace OnePass

open List

open Lowering

variable {P : ValueType → Prop} {stack : List Value} {control outer : List Control}

/-- A construct was opened above operands that are still there. -/
theorem Layers.depth_le (h : Layers P stack control) :
    ∀ c ∈ control, c.stackDepth ≤ stack.length := by
  induction h with
  | nil => nofun
  | @cons c outer below ops inner depth fits ih =>
    intro c' hc'
    rw [length_append]
    rcases mem_cons.1 hc' with rfl | hc'
    · exact Nat.le_add_right_of_le (Nat.le_of_eq depth)
    · exact Nat.le_add_right_of_le (ih c' hc')

/-- Around a reachable construct all constructs are reachable. -/
theorem Layers.isReachable (h : Layers P stack control)
    (hhead : ∀ c ∈ control.head?, c.isReachable = true) : ∀ c ∈ control, c.isReachable = true := by
  induction h with
  | nil => nofun
  | @cons c outer below ops inner depth fits ih =>
    intro c' hc'
    rcases mem_cons.1 hc' with rfl | hc'
    · exact hhead _ rfl
    · exact ih (fits.reachable (hhead c rfl)) c' hc'

/-- Inside the construct `c` and above the operands `below`, with code generation in the state
`s`. -/
structure Facing (R : Regime) (ctx : Context) (c : Control) (outer : List Control)
    (below ops : List Value) (s : Lowering) : Prop where
  fits : R.Fits ctx.module ctx.sig ctx.options
  shows : ctx.Shows c outer below ops
  layer : c.Fits R.allows outer ops
  inner : Layers R.allows below outer
  mirrored : Mirrored R ctx s

/-- The same between two instructions. -/
structure Poised (R : Regime) (ctx : Context) (c : Control) (outer : List Control)
    (below ops : List Value) (s : Lowering) : Prop extends Facing R ctx c outer below ops s where
  live : ctx.live = c.isReachable
  stands : c.isReachable = true → Standing R (ctx.locals.toList ++ (below ++ ops).map Value.ty) s
  closes : c.isReachable = false → Closes R [] s ∧ s.pendingTest = none

section

variable {R : Regime} {ctx ctx' : Context} {c c' : Control} {outer : List Control}
  {below ops ops' : List Value} {s s' : Lowering}

theorem Context.Shows.operandTypes (h : ctx.Shows c outer below ops) :
    ctx.operandTypes = (below ++ ops).map Value.ty := by
  rw [Context.operandTypes, h.stack]

theorem Context.Shows.isOpen (h : ctx.Shows c outer below ops) : ctx.control ≠ [] := by
  rw [h.control]
  exact cons_ne_nil _ _

theorem LockStep.poised (h : LockStep R ctx s) (hfits : R.Fits ctx.module ctx.sig ctx.options)
    (hopen : ctx.control ≠ []) (hlayers : Layers R.allows ctx.stack.toList ctx.control) :
    ∃ c outer below ops, Poised R ctx c outer below ops s := by
  obtain ⟨outer, below, hbelow, c, ops, hshows, hlayer⟩ := hlayers.inside hopen
  have hlive : ctx.live = c.isReachable := hshows.current ▸ h.live
  refine ⟨c, outer, below, ops, ⟨hfits, hshows, hlayer, hbelow, h.toMirrored⟩, hlive, fun hc => ?_,
    fun hc => h.closes (hlive.trans hc)⟩
  rw [← hshows.operandTypes]
  exact h.stands (hlive.trans hc)

theorem Poised.lockStep (h : Poised R ctx c outer below ops s) : LockStep R ctx s := by
  refine ⟨h.mirrored, ?_, fun hlive => ?_, fun hlive => h.closes (h.live ▸ hlive)⟩
  · rw [h.shows.current]
    exact h.live
  · rw [h.shows.operandTypes]
    exact h.stands (h.live ▸ hlive)

theorem Poised.inStep (h : Poised R ctx c outer below ops s)
    (hnext : s.pendingTest ≠ none → ctx.BranchesNext) : InStep R ctx s :=
  .inl ⟨h.shows.isOpen, h.lockStep, hnext⟩

theorem Poised.settled (h : Poised R ctx c outer below ops s) (htest : s.pendingTest = none) :
    InStep R ctx s :=
  h.inStep fun hne => (hne htest).elim

namespace Facing

section

variable (h : Facing R ctx c outer below ops s)
include h

/-- The operands of the innermost construct may change. -/
theorem withOperands (hops : c.Fits R.allows outer ops') :
    Facing R (ctx.withOperands below ops') c outer below ops' s := by
  have hshows := h.shows.withOperands ops'
  refine ⟨h.fits, hshows, hops, h.inner, h.mirrored.locals, ?_⟩
  have hdepth : ∀ c' ∈ c :: outer, c'.stackDepth ≤ below.length := by
    intro c' hc'
    rcases mem_cons.1 hc' with rfl | hc'
    · exact Nat.le_of_eq h.shows.depth
    · exact h.inner.depth_le c' hc'
  refine h.mirrored.control.restack fun c' hc' => ?_
  rw [hshows.operandTypes, h.shows.operandTypes, map_append, map_append]
  rw [h.shows.control] at hc'
  have hle : c'.stackDepth ≤ (below.map Value.ty).length := by
    rw [length_map]
    exact hdepth c' hc'
  rw [take_append_of_le_length hle, take_append_of_le_length hle]

/-- Code generation went on inside the same constructs. -/
theorem later (hcontrol : s'.control = s.control)
    (hlater : s.Later s') : Facing R ctx c outer below ops s' := by
  refine ⟨h.fits, h.shows, h.layer, h.inner, hlater.numLocals.trans h.mirrored.locals, ?_⟩
  rw [hcontrol]
  exact h.mirrored.control.mono hlater.bound

/-- The innermost construct may become unreachable. -/
theorem recurrent (hctx : ctx'.control = c' :: outer)
    (hstack : ctx'.stack = ctx.stack) (hlocals : ctx'.locals = ctx.locals)
    (hfunction : ctx'.module = ctx.module ∧ ctx'.sig = ctx.sig ∧ ctx'.options = ctx.options)
    (hfits : c'.Fits R.allows outer ops) (hkind : c'.kind = c.kind)
    (hdepth : c'.stackDepth = c.stackDepth) (hstart : c'.startMerge.types = c.startMerge.types)
    (hend : c'.endMerge = c.endMerge) : Facing R ctx' c' outer below ops s := by
  obtain ⟨hmodule, hsig, hoptions⟩ := hfunction
  refine ⟨?_, ⟨hctx, hstack.trans h.shows.stack, hdepth.trans h.shows.depth⟩,
    hfits, h.inner, ?_, ?_⟩
  · rw [hmodule, hsig, hoptions]
    exact h.fits
  · rw [hlocals]
    exact h.mirrored.locals
  · rw [hlocals, hsig, hctx, Context.operandTypes, hstack]
    have hcontrol := h.mirrored.control
    rw [h.shows.control] at hcontrol
    exact hcontrol.head hkind hdepth hstart hend

theorem markDead : Facing R ctx.markDead c.narrow outer below ops s := by
  obtain ⟨hkind, hdepth, hstart, hend, -⟩ := c.narrow_same
  exact h.recurrent h.shows.markDead.control rfl rfl ⟨rfl, rfl, rfl⟩ h.layer.narrow hkind hdepth
    (by rw [hstart]) hend

theorem poised_dead (hlive : ctx.live = false)
    (hc : c.isReachable = false) (hcloses : Closes R [] s) (htest : s.pendingTest = none) :
    Poised R ctx c outer below ops s := by
  refine ⟨h, hlive.trans hc.symm, fun hr => ?_, fun _ => ⟨hcloses, htest⟩⟩
  rw [hc] at hr
  cases hr

theorem poised_live (hlive : ctx.live = true) (hc : c.isReachable = true)
    (hstands : Standing R (ctx.locals.toList ++ (below ++ ops).map Value.ty) s) :
    Poised R ctx c outer below ops s := by
  refine ⟨h, hlive.trans hc.symm, fun _ => hstands, fun hr => ?_⟩
  rw [hc] at hr
  cases hr

end

end Facing

/-- When no test waits, the topmost slots are the topmost operands. -/
theorem Poised.presents {rest args : List Value} (h : Poised R ctx c outer below (rest ++ args) s)
    (hc : c.isReachable = true) (htest : s.pendingTest = none) (ops' : List Value) :
    Presents R (ctx.withOperands below ops') ((below ++ rest).map Value.ty) args s := by
  obtain ⟨hsound, ts, ps, hts, hps, hagree⟩ := h.stands hc
  refine ⟨h.fits, hsound, htest, h.mirrored.locals, ?_, fun v hv => ?_⟩
  · show R.Agree _ (ctx.locals.toList ++ (below ++ rest).map Value.ty ++ args.map Value.ty)
    rw [hts, hps.eq_nil htest, append_nil, append_assoc, ← map_append, append_assoc]
    exact hagree
  · exact h.layer.operands (c.not_unreachable hc) v (mem_append_right _ hv)

end

variable {i : Instruction} {e : Event}

/-- What a shape does to the operands. -/
theorem Shape.check_ok {ctx ctx' : Context} {c : Control}
    {below ops : List Value} (h : ctx.Shows c outer below ops) {shape : Shape}
    (hi : i.shape? = some shape) (hr : shape.check ctx = .ok (e, ctx')) :
    ∃ args rest, ctx' = ctx.withOperands below (rest ++ Check.fresh ctx shape.gives) ∧
      c.Takes ops args rest ∧
      Forall₂ (fun o v => Accepts ctx.options.trusted o.1 v) shape.takes args ∧
      e = shape.event args (Check.fresh ctx shape.gives) := by
  obtain ⟨u, ctx₁, hrequires, hr₁⟩ := Check.exists_of_bind hr
  obtain rfl := Instruction.requires_ok hi hrequires
  obtain ⟨args, ctx₂, hpop, hr₂⟩ := Check.exists_of_bind hr₁
  obtain ⟨rest, rfl, htakes, haccepts⟩ := Check.popEach_ok h hpop
  obtain ⟨results, ctx₃, hpush, hr₃⟩ := Check.exists_of_bind hr₂
  rw [Check.pushAll_eq (h.withOperands rest)] at hpush
  cases hpush
  cases hr₃
  exact ⟨args, rest, rfl, htakes, haccepts, rfl⟩

namespace Decode

variable {R : Regime} {ctx : Context} {c : Control} {outer : List Control}
  {below ops : List Value} {s : Lowering}

section

variable (h : Facing R ctx c outer below ops s) (hcloses : Closes R [] s)
    (htest : s.pendingTest = none)
include h hcloses htest

/-- The rest of the construct is dead. -/
theorem endControl_poised : Drives R (endControl .compiler) ctx s fun _ ctx' s' => s' = s ∧
      Poised R ctx' { c with reachability := .unreachable } outer below [] s' := by
  have htruncate : ctx.truncate ctx.current.stackDepth = ctx.withOperands below [] := by
    rw [h.shows.current, h.shows.truncate]
  have h₁ := h.withOperands (h.layer.of_prefix nil_prefix)
  refine .modify_bind ?_
  rw [htruncate]
  refine .get_bind (.bind (Q := fun _ ctx' s' => ctx' = ctx.withOperands below [] ∧ s' = s)
    (Drives.of_report (fun _ => handle_upholds rfl (.of_pure ⟨rfl, rfl⟩)) fun _ => ⟨rfl, rfl⟩) ?_)
  rintro _ _ _ ⟨rfl, rfl⟩
  refine .of_modify ⟨rfl, Facing.poised_dead (h₁.recurrent ?_ rfl rfl ⟨rfl, rfl, rfl⟩ ?_ rfl rfl rfl
    rfl) rfl rfl hcloses htest⟩
  · simp [Context.modifyCurrent, Context.modifyControl, h.shows.control]
  · exact h₁.layer.congr (by rintro ⟨⟩) h₁.layer.outermost rfl rfl (by rintro ⟨⟩)

theorem endControl_drives : Drives R (endControl .compiler) ctx s fun _ => InStep R :=
  (endControl_poised h hcloses htest).mono fun _ _ _ ⟨hs, h'⟩ =>
    h'.settled (hs ▸ htest)

end

/-- The listener is told of an instruction that took its operands and left its results. -/
theorem report_drives (rest gives : List ValueType) (exits : Bool)
    (h : Facing R ctx c outer below ops s) (hlive : ctx.live = c.isReachable)
    (hresults : (below ++ ops).map Value.ty = rest ++ gives)
    (htold : c.isReachable = true → Upholds R (handle ctx e) s (Outcome R ctx rest gives exits s))
    (hdead : c.isReachable = false → Closes R [] s ∧ s.pendingTest = none) :
    Drives R (report .compiler e) ctx s fun _ ctx' s' =>
      (∃ c', Facing R ctx' c' outer below ops s') ∧
      (exits = true → Closes R [] s' ∧ s'.pendingTest = none) ∧
      (exits = false → InStep R ctx' s') := by
  refine Drives.of_report (fun hl => ?_) fun hl => ?_
  · rw [hlive] at hl
    refine (htold hl).mono fun reply s' hout => ?_
    unfold Outcome at hout
    split at hout
    next hstops =>
      have hclosed : Closes R [] s' ∧ s'.pendingTest = none := ⟨hout.closes, hout.test⟩
      have h' := h.later hout.control hout.later
      cases reply with
      | proceed =>
        have hexits : exits = true := hstops.resolve_left nofun
        exact ⟨⟨c, h'⟩, fun _ => hclosed, fun hno => by simp [hexits] at hno⟩
      | dead =>
        have hpoised := h'.markDead.poised_dead rfl c.narrow_same.2.2.2.2.2.1 hclosed.1 hclosed.2
        exact ⟨⟨c.narrow, h'.markDead⟩, fun _ => hclosed, fun _ => hpoised.settled hclosed.2⟩
    next hgoes =>
      obtain ⟨hreply, hexits⟩ := not_or.1 hgoes
      have h' := h.later hout.control hout.later
      rw [if_neg hreply]
      refine ⟨⟨c, h'⟩, fun hyes => (hexits hyes).elim, fun _ => ?_⟩
      refine (h'.poised_live (hlive.trans hl) hl ?_).inStep hout.next
      rw [hresults, ← append_assoc]
      exact hout.stands
  · have hc : c.isReachable = false := hlive ▸ hl
    refine ⟨⟨c, h⟩, fun _ => hdead hc, fun _ => ?_⟩
    exact (h.poised_dead hl hc (hdead hc).1 (hdead hc).2).settled (hdead hc).2

theorem shape_drives {shape : Shape} (h : Poised R ctx c outer below ops s)
    (hi : i.shape? = some shape) (htest : s.pendingTest = none)
    (hdecl : i.Declared ctx.module ctx.locals) (htypes : ∀ ty ∈ i.types, R.allows ty) :
    Drives R (instruction .compiler i) ctx s fun _ => InStep R := by
  have hgives : ∀ ty ∈ shape.gives, R.allows ty := fun ty hty =>
    (Instruction.gives_types hi ty hty).elim (htypes ty) (R.proper ty)
  rw [instruction_eq_shape _ hi]
  refine .check_bind fun e ctx' hr => ?_
  obtain ⟨args, rest, rfl, htakes, haccepts, rfl⟩ := Shape.check_ok h.shows hi hr
  have hfresh : ∀ v ∈ Check.fresh ctx shape.gives, R.allows v.ty := Guarded.Agrees.mem_fresh hgives
  have h₁ := h.toFacing.withOperands ((h.layer.of_prefix htakes.kept).append hfresh)
  refine .bind (report_drives ((below ++ rest).map Value.ty) shape.gives shape.exits h₁ h.live ?_
    (fun hc => ?_) h.closes) fun _ ctx₂ s₂ ⟨⟨c', h₂⟩, hexits, hgoes⟩ =>
      .ite (fun hyes => ?_) fun hno => ?_
  · simp
  · obtain rfl := htakes.exact (c.not_unreachable hc)
    exact handle_shape hi hdecl htypes haccepts (h.presents hc htest _)
  · exact endControl_drives h₂ (hexits hyes).1 (hexits hyes).2
  · exact .of_pure (hgoes (by simpa using hno))

/-- An operand that is pushed in reachable code has a type of the regime. -/
theorem push_layer (ctx : Context) {ty : ValueType} {rest : List Value}
    (h : c.Fits R.allows outer rest)
    (hty : c.isUnreachable = true ∨ R.allows ty) :
      c.Fits R.allows outer (rest ++ Check.fresh ctx [ty]) := by
  refine h.congr id h.outermost rfl rfl fun hc v hv => ?_
  rcases mem_append.1 hv with hv | hv
  · exact h.operands hc v hv
  · obtain rfl := mem_singleton.1 hv
    exact hty.resolve_left (by simp [hc])

section

variable (h : Poised R ctx c outer below ops s) (htest : s.pendingTest = none)
include h htest

/-- The form without a type. -/
theorem select_drives : Drives R (select .compiler) ctx s fun _ => InStep R := by
  refine .check_bind fun cond _ hr => ?_
  obtain ⟨ops₁, rfl, htakes₁, -⟩ := Check.pop_ok h.shows hr
  refine .check_bind fun falseValue _ hr => ?_
  obtain ⟨ops₂, rfl, htakes₂⟩ := Check.popAny_ok (h.shows.withOperands ops₁) hr
  refine .check_bind fun trueValue _ hr => ?_
  obtain ⟨ops₃, rfl, htakes₃, -⟩ := Check.pop_ok (h.shows.withOperands ops₂) hr
  have hfits₁ := h.layer.of_prefix htakes₁.kept
  have hfits₂ := hfits₁.of_prefix htakes₂.kept
  obtain ⟨ty, hty⟩ : ∃ ty, ty = if trueValue.ty = .bottom then falseValue.ty else trueValue.ty :=
    ⟨_, rfl⟩
  have hallowed : c.isUnreachable = true ∨ R.allows ty := by
    rw [hty]
    split
    · exact Guarded.Agrees.taken_property hfits₁ htakes₂
    · exact Guarded.Agrees.taken_property hfits₂ htakes₃
  dsimp only
  rw [← hty]
  refine .get_bind (.guard fun _ => .check_bind fun result _ hr => ?_)
  rw [Check.push_eq ((h.shows.withOperands ops₂).withOperands ops₃)] at hr
  cases hr
  have h₁ := h.toFacing.withOperands (push_layer ctx (hfits₂.of_prefix htakes₃.kept) hallowed)
  refine (report_drives ((below ++ ops₃).map Value.ty) [ty] false h₁ h.live ?_ (fun hc => ?_)
    h.closes).mono fun _ _ _ h' => h'.2.2 rfl
  · simp
  · have hc' := c.not_unreachable hc
    have hops := (htakes₁.trans (htakes₂.trans htakes₃)).exact hc'
    subst hops
    exact handle_upholds rfl
      (select_outcome (h.presents hc htest _) (hallowed.resolve_left (by simp [hc'])))

theorem refIsNull_drives : Drives R (refIsNull .compiler) ctx s fun _ => InStep R := by
  refine .check_bind fun value _ hr => ?_
  obtain ⟨rest, rfl, htakes⟩ := Check.popAny_ok h.shows hr
  refine .get_bind (.guard fun _ => .check_bind fun result _ hr => ?_)
  rw [Check.push_eq (h.shows.withOperands rest)] at hr
  cases hr
  have h₁ := h.toFacing.withOperands (push_layer ctx (h.layer.of_prefix htakes.kept)
    (.inr (R.proper .i32 (by decide))))
  refine (report_drives ((below ++ rest).map Value.ty) [.i32] false h₁ h.live ?_ (fun hc => ?_)
    h.closes).mono fun _ _ _ h' => h'.2.2 rfl
  · simp
  · obtain rfl := htakes.exact (c.not_unreachable hc)
    obtain ⟨ts, a, hat, hrest, -, -⟩ := (h.presents hc htest (rest ++ Check.fresh ctx [.i32])).one
    exact handle_upholds rfl ((refIsNull_upholds hat).mono fun _ s' h' =>
      outcome_of_at (.refl R _) hrest htest h')

end

end Decode

end OnePass
