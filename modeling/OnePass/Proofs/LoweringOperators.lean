import OnePass.Proofs.LoweringSteps

/-!
What code generation does for constants, operators, locals, globals, memory accesses and calls: the
types of the slots before and after. Operands are taken from the top, and the rest is as it was.
-/
namespace OnePass

open List

/-- The next instruction branches on the topmost operand. -/
def Context.BranchesNext (ctx : Context) : Prop :=
  ∃ b, ctx.lookahead? = some b ∧ (b.toNat = Opcode.brIf.code ∨ b.toNat = Opcode.ifThen.code)

namespace Lowering

variable {R : Regime} {s s' base : Lowering} {ls : List Label} {ts : List ValueType}
  {ty a b c result : ValueType} {ctx : Context} {index n : Nat} {pinned : RegSet}

theorem atMost_none : (RegSet.empty).AtMost n := RegSet.atMost_empty

theorem atMost_one (r : Reg) : (RegSet.ofList [r]).AtMost (n + 1) :=
    (RegSet.atMost_ofList [r]).mono (by simp)

theorem atMost_two (r r' : Reg) : (RegSet.ofList [r, r']).AtMost (n + 2) :=
  (RegSet.atMost_ofList [r, r']).mono (by simp)

theorem At.setTest (h : At R base ls ts s) (test : Option Opcode) :
    At R { base with pendingTest := test } ls ts { s with pendingTest := test } := by
  obtain ⟨is, hsound⟩ := h.sound
  exact ⟨⟨is, hsound.congr rfl rfl rfl rfl⟩, h.types,
    ⟨h.later.numLocals, h.later.room, h.later.bound, h.later.paths⟩, h.control, rfl⟩

/-- An operation leaves its result in a register. -/
theorem emitResult_upholds {i : Instr Label} {r : Reg} (h : At R base ls ts s)
    (hop : i.isOperation = true) (hty : R.allows ty) (hclass : R.typed → r.regClass = .ofType ty) :
    Upholds R (do Lowering.emit i; pushReg ty r) s fun _ => At R base ls (ts ++ [ty]) :=
  .bind (emitOp_upholds h hop) fun _ _ h₁ => pushReg_upholds h₁ hty hclass

/-! ## Constants and operators -/

theorem constant_upholds (h : At R base ls ts s) (value : Constant) :
    Upholds R (constant value) s fun _ => At R base ls (ts ++ [value.type]) := by
  have hfloat : ∀ ty bits, R.allows ty → RegClass.ofType ty = .fp →
      Upholds R (constant.float ty bits) s fun _ => At R base ls (ts ++ [ty]) := by
    intro ty bits hty hclass
    refine .bind (unusedReg_upholds h atMost_none .fp) fun r s₁ ⟨h₁, hr⟩ => ?_
    refine .bind (emitting_upholds h₁ (h₁.emitter.loadBits hty r bits)) fun _ s₂ h₂ => ?_
    exact pushReg_upholds h₂ hty fun _ => hr.trans hclass.symm
  cases value with
  | i32 value => exact pushAt_upholds h (R.proper _ (by decide)) fun _ => Location.suits_const _ _
  | i64 value =>
    have hty : R.allows .i64 := R.proper _ (by decide)
    refine .ite (fun _ => pushAt_upholds h hty fun _ => Location.suits_const _ _) fun _ => ?_
    refine .bind (unusedReg_upholds h atMost_none .gp) fun r s₁ ⟨h₁, hr⟩ => ?_
    refine .bind (emitting_upholds h₁ (h₁.emitter.loadBits hty r _)) fun _ s₂ h₂ => ?_
    exact pushReg_upholds h₂ hty fun _ => hr
  | f32 bits => exact hfloat .f32 _ (R.proper _ (by decide)) rfl
  | f64 bits => exact hfloat .f64 _ (R.proper _ (by decide)) rfl
  | v128 bytes => exact .of_throw fun _ => nofun

theorem refIsNull_upholds (h : At R base ls (ts ++ [a]) s) :
    Upholds R refIsNull s fun _ => At R base ls (ts ++ [.i32]) := by
  refine .bind (popToReg_upholds h atMost_none) fun src s₁ h₁ => ?_
  refine .bind (unusedRegFrom_upholds h₁ atMost_none .gp _) fun dst s₂ ⟨h₂, hdst⟩ => ?_
  exact emitResult_upholds h₂ rfl (R.proper _ (by decide)) fun _ => hdst

theorem fusesWithBranch_upholds (ctx : Context) :
    Upholds R (fusesWithBranch ctx) s fun fuses s' => s' = s ∧
      (fuses = true → ctx.BranchesNext) := by
  refine .get_bind (.of_pure ⟨rfl, fun hfuses => ?_⟩)
  rw [Bool.and_eq_true, Option.any_eq_true_iff_get] at hfuses
  obtain ⟨⟨hsome, hcode⟩, -⟩ := hfuses
  refine ⟨_, (Option.some_get hsome).symm, ?_⟩
  simpa using hcode

/-- The result is there, or the test waits for the branch that follows. -/
theorem unary_upholds (h : At R base ls (ts ++ [a]) s) (hresult : R.allows result)
    (hlocals : base.emitter.numLocals ≤ ts.length) (op : UnaryOp) :
    Upholds R (unary ctx op result) s fun _ s' => At R base ls (ts ++ [result]) s' ∨
      (op = .eqz .w32 ∧ ctx.BranchesNext ∧
        At R { base with pendingTest := some (.unary op) } ls (ts ++ [a]) s') := by
  refine .look (fusesWithBranch_upholds ctx) fun fuses hnext => ?_
  refine .ite (fun hfuse => ?_) fun _ => ?_
  · rw [Bool.and_eq_true, decide_eq_true_iff] at hfuse
    exact .of_modify (.inr ⟨hfuse.1, hnext hfuse.2, h.setTest _⟩)
  · refine .mono ?_ fun _ _ => .inl
    refine .bind (popToReg_upholds h atMost_none) fun src s₁ h₁ => ?_
    refine .bind (unusedRegFrom_upholds h₁ atMost_none _ _) fun dst s₂ ⟨h₂, hdst⟩ => ?_
    have hpush : ∀ s', At R base ls ts s' →
        Upholds R (pushReg result dst) s' fun _ => At R base ls (ts ++ [result]) :=
      fun s' h' => pushReg_upholds h' hresult fun _ => hdst
    refine .ite (fun _ => ?_) fun _ => .bind (emitOp_upholds h₂ rfl) fun _ => hpush
    refine .bind (addTrap_upholds h₂ rfl hlocals _ _) fun trap s₃ ⟨h₃, htrap⟩ => ?_
    exact .bind (emitBranch_upholds h₃ (.of_none rfl rfl) rfl (mem_targets_of_path htrap)) fun _ =>
      hpush

theorem divisorChecks_upholds (h : At R base ls ts s) (hty : R.allows ty)
    (hlocals : base.emitter.numLocals ≤ ts.length) (op : IntBinary) (lhs rhs : Reg) :
    Upholds R (divisorChecks ctx op ty lhs rhs) s fun _ => At R base ls ts := by
  have hzero : (if op.isRemainder then RuntimeStub.trapRemByZero else .trapDivByZero).isTrap =
      true := by
    split <;> rfl
  refine .bind (addTrap_upholds h hzero hlocals _ _) fun divByZero s₁ ⟨h₁, hlabel⟩ => ?_
  refine .bind (emitBranch_upholds h₁ (.of_type hty rfl rfl) rfl (mem_targets_of_path hlabel))
    fun _ s₂ h₂ => ?_
  refine .ite (fun _ => ?_) fun _ => .of_pure h₂
  refine .bind (addTrap_upholds h₂ rfl hlocals _ _) fun unrepresentable s₃ ⟨h₃, hlabel⟩ => ?_
  refine .mono ?_ fun _ _ => h₃.trans
  refine .bind (newLabel_upholds h₃.here) fun continuation s₄ h₄ => ?_
  refine .bind (emitBranch_upholds h₄ (.of_type hty rfl rfl) rfl
    (mem_targets_of_owed mem_cons_self)) fun _ s₅ h₅ => ?_
  refine .bind (emitBranch_upholds h₅ (.of_type hty rfl rfl) rfl
    (mem_targets_of_path (h₅.later.paths hlabel))) fun _ s₆ h₆ => ?_
  exact bindLabel_upholds h₆

section

variable (h : At R base ls (ts ++ [a] ++ [b]) s)
include h

theorem division_upholds (hty : R.allows ty)
    (hclass : R.typed → RegClass.ofType ty = .gp) (hlocals : base.emitter.numLocals ≤ ts.length)
    (w : Width) (op : IntBinary) :
    Upholds R (division ctx w op ty) s fun _ => At R base ls (ts ++ [ty]) := by
  refine .bind (popToReg_upholds h atMost_none) fun rhs s₁ h₁ => ?_
  refine .bind (popToReg_upholds h₁ (atMost_one rhs)) fun lhs s₂ h₂ => ?_
  refine .bind (unusedReg_upholds h₂ (atMost_two lhs rhs) .gp) fun dst s₃ ⟨h₃, hdst⟩ => ?_
  refine .bind (divisorChecks_upholds h₃ hty hlocals op lhs rhs) fun _ s₄ h₄ => ?_
  exact emitResult_upholds h₄ rfl hty fun htyped => hdst.trans (hclass htyped).symm

theorem binaryFrom_upholds (hresult : R.allows result) (op : BinaryOp) (imm : Option Int32) :
    Upholds R (match imm with
      | some imm => do
        let _ ← popSlot
        let lhs ← popToReg
        let dst ← unusedRegFrom (.ofType result) (.ofList [lhs])
        Lowering.emit (.binaryImm (.binary op) dst lhs imm)
        pushReg result dst
      | none => do
        let rhs ← popToReg
        let lhs ← popToReg (.ofList [rhs])
        let dst ← unusedRegFrom (.ofType result) (.ofList [lhs, rhs])
        Lowering.emit (.binary (.binary op) dst lhs rhs)
        pushReg result dst) s fun _ => At R base ls (ts ++ [result]) := by
  cases imm with
  | some imm =>
    refine .bind (popSlot_upholds h) ?_
    rintro _ s₁ ⟨h₁, -⟩
    refine .bind (popToReg_upholds h₁ atMost_none) fun lhs s₂ h₂ => ?_
    refine .bind (unusedRegFrom_upholds h₂ atMost_none _ _) ?_
    rintro dst s₃ ⟨h₃, hdst⟩
    exact emitResult_upholds h₃ rfl hresult fun _ => hdst
  | none =>
    refine .bind (popToReg_upholds h atMost_none) fun rhs s₁ h₁ => ?_
    refine .bind (popToReg_upholds h₁ (atMost_one rhs)) fun lhs s₂ h₂ => ?_
    refine .bind (unusedRegFrom_upholds h₂ atMost_none _ _) ?_
    rintro dst s₃ ⟨h₃, hdst⟩
    exact emitResult_upholds h₃ rfl hresult fun _ => hdst

theorem plainBinary_upholds (hresult : R.allows result)
    (op : BinaryOp) : Upholds R (plainBinary op result) s fun _ =>
      At R base ls (ts ++ [result]) := by
  refine .ite (fun _ => .bind (Q := fun _ s' => s' = s)
    (.bind (peekSlot_upholds h) fun _ _ hpeek => .of_pure hpeek.1) fun imm s' hs => ?_)
    fun _ => binaryFrom_upholds h hresult op none
  subst hs
  exact binaryFrom_upholds h hresult op imm

/-- The result is there, or the comparison waits for the branch that follows. A division gives a
result of the type of its operands. -/
theorem binary_upholds (hty : R.allows ty)
    (hresult : R.allows result) (hlocals : base.emitter.numLocals ≤ ts.length) (op : BinaryOp)
    (hint : R.typed → ∀ w o, op = .int w o → ty = w.int ∧ result = w.int) :
    Upholds R (binary ctx op ty result) s fun _ s' =>
      (∃ given, (R.typed → given = result) ∧ At R base ls (ts ++ [given]) s') ∨
      ((Cond.ofI32Comparison? (.binary op)).isSome = true ∧ ctx.BranchesNext ∧
        At R { base with pendingTest := some (.binary op) } ls (ts ++ [a] ++ [b]) s') := by
  have hplain : ∀ {other : Lowering → Prop}, Upholds R (plainBinary op result) s fun _ s' =>
      (∃ given, (R.typed → given = result) ∧ At R base ls (ts ++ [given]) s') ∨ other s' :=
    (plainBinary_upholds h hresult op).mono fun _ _ h' => .inl ⟨result, fun _ => rfl, h'⟩
  unfold binary
  split
  next c hcond =>
    refine .look (fusesWithBranch_upholds ctx) fun fuses hnext => ?_
    exact .ite (fun hfuses => .of_modify (.inr ⟨by rw [hcond]; rfl, hnext hfuses, h.setTest _⟩))
      fun _ => hplain
  next hcond =>
    split
    next _ w o =>
      have hclass : R.typed → RegClass.ofType ty = .gp := fun htyped => by
        rw [(hint htyped w o rfl).1]
        cases w <;> rfl
      refine .ite (fun _ => (division_upholds h hty hclass hlocals w o).mono fun _ _ h' =>
        .inl ⟨ty, ?_, h'⟩) fun _ => hplain
      intro htyped
      obtain ⟨hoperand, houtput⟩ := hint htyped w o rfl
      rw [hoperand, houtput]
    next => exact hplain

end

theorem select_upholds (h : At R base ls (ts ++ [a] ++ [b] ++ [c]) s) (hty : R.allows ty) :
    Upholds R (select ty) s fun _ => At R base ls (ts ++ [ty]) := by
  refine .bind (popToReg_upholds h atMost_none) fun cond s₁ h₁ => ?_
  refine .bind (popToReg_upholds h₁ (atMost_one cond)) fun falseValue s₂ h₂ => ?_
  refine .bind (popToReg_upholds h₂ (atMost_two cond falseValue)) fun trueValue s₃ h₃ => ?_
  refine .bind (unusedRegFrom_upholds h₃ (atMost_one cond) _ _) fun dst s₄ ⟨h₄, hdst⟩ => ?_
  refine .bind (newLabel_upholds h₄) fun caseFalse s₅ h₅ => ?_
  refine .bind (newLabel_upholds h₅) fun done s₆ h₆ => ?_
  refine .bind (emitBranch_upholds h₆ (.of_type (R.proper _ (by decide)) rfl rfl) rfl
    (mem_targets_of_owed (mem_cons_of_mem _ mem_cons_self))) fun _ s₇ h₇ => ?_
  refine .bind (emitting_upholds h₇ (h₇.emitter.moveReg hty dst trueValue)) fun _ s₈ h₈ => ?_
  refine .bind (emitBranch_upholds h₈ (.of_none rfl rfl) rfl
    (mem_targets_of_owed mem_cons_self)) fun _ s₉ h₉ => ?_
  refine .bind (bindLabel_upholds (h₉.perm (.swap ..))) fun _ s₁₀ h₁₀ => ?_
  refine .bind (emitting_upholds h₁₀ (h₁₀.emitter.moveReg hty dst falseValue)) fun _ s₁₁ h₁₁ => ?_
  refine .bind (bindLabel_upholds h₁₁) fun _ s₁₂ h₁₂ => ?_
  exact pushReg_upholds h₁₂ hty fun _ => hdst

/-! ## Locals -/

section

variable (h : At R base ls ts s)
include h

theorem getElem?_slots (hindex : ts[index]? = some ty) :
    ∃ slot, s.emitter.state.slots[index]? = some slot ∧ slot.ty = ty := by
  rw [← h.types, CacheState.types, getElem?_map, Option.map_eq_some_iff] at hindex
  obtain ⟨slot, hslot, hty⟩ := hindex
  exact ⟨slot, by simpa using hslot, hty⟩

theorem localGet_upholds (hindex : ts[index]? = some ty) :
    Upholds R (localGet index) s fun _ => At R base ls (ts ++ [ty]) := by
  obtain ⟨slot, hslot, rfl⟩ := getElem?_slots h hindex
  have hfine := h.regular.fine (Array.mem_of_getElem? hslot)
  refine .get_bind ?_
  simp only [hslot]
  cases hloc : slot.loc with
  | reg r =>
    exact pushReg_upholds h hfine.type fun htyped =>
      h.regular.suits htyped slot (Array.mem_of_getElem? hslot) r hloc
  | const value => exact pushAt_upholds h hfine.type fun _ => Location.suits_const _ _
  | stack =>
    refine .bind (unusedReg_upholds h.here atMost_none _) fun r s₁ ⟨h₁, hr⟩ => ?_
    refine .bind (emitting_upholds (h.trans h₁) (h₁.emitter.fill hfine.type hfine.pos
      (Nat.le_trans hfine.le h₁.later.room) r)) fun _ s₂ h₂ => ?_
    exact pushReg_upholds h₂ hfine.type fun _ => hr

theorem setLocalFromFrame_upholds (hindex : ts[index]? = some ty)
    {offset : Nat} (hpos : 0 < offset) (hle : offset ≤ s.emitter.state.maxOffset) :
    Upholds R (setLocalFromFrame index offset) s fun _ => At R base ls ts := by
  obtain ⟨slot, hslot, rfl⟩ := getElem?_slots h hindex
  have hty := (h.regular.fine (Array.mem_of_getElem? hslot)).type
  refine .get_bind ?_
  simp only [hslot]
  refine .get_bind ?_
  split
  next r hr => exact emitting_upholds h (h.emitter.fill hty hpos hle r)
  next =>
    refine .bind (emitting_upholds h.here (h.emitter.relocate hslot fun _ =>
      Location.suits_stack _)) fun _ s₁ h₁ => ?_
    refine .bind (unusedReg_upholds h₁ atMost_none _) fun r s₂ ⟨h₂, hr⟩ => ?_
    obtain ⟨slot', hslot', hsame⟩ := getElem?_slots h₂ hindex
    have hfill := h₂.emitter.fill hty hpos (Nat.le_trans hle h₂.later.room) r
    exact emitting_upholds (h.trans h₂) (hfill.relocate hslot' fun _ =>
      Location.suits_reg (hsame ▸ hr))

end

section

variable (h : At R base ls (ts ++ [a]) s) (hindex : (ts ++ [a])[index]? = some ty)
    (htype : R.typed → a = ty)
include h hindex htype

/-- The local takes over the place of the topmost value, so that its type has to be the same. -/
theorem localTee_upholds : Upholds R (localTee index) s fun _ => At R base ls (ts ++ [a]) := by
  refine .look (peekSlot_upholds h) fun source ⟨hmem, hsource⟩ => ?_
  have hfine := h.regular.fine hmem
  obtain ⟨slot, hslot, rfl⟩ := getElem?_slots h hindex
  have hsuits : R.typed → source.loc.Suits slot.ty := fun htyped => by
    rw [← htype htyped, ← hsource]
    exact h.regular.suits htyped source hmem
  split
  next => exact setLocalFromFrame_upholds h hindex hfine.pos hfine.le
  next => exact emitting_upholds h (h.emitter.relocate hslot hsuits)

theorem localSet_upholds : Upholds R (localSet index) s fun _ => At R base ls ts :=
  .bind (localTee_upholds h hindex htype) fun _ _ h₁ =>
    .bind (popSlot_upholds h₁) fun _ _ h₂ => .of_pure h₂.1

end

/-! ## Globals -/

theorem pointerSlot_upholds (kind : String) (hslot : R.linked → index * pointerSize < UInt32.size) :
    Upholds R (pointerSlot kind index) s fun _ s' => s' = s :=
  .ite (fun _ => .of_pure rfl) fun hlarge => .of_throw fun _ hlinked =>
    (hlarge (hslot hlinked)).elim

theorem lookupGlobal_upholds (hglobal : R.typed → ctx.module.globals[index]? ≠ none) :
    Upholds R (lookupGlobal ctx index) s fun global s' =>
      s' = s ∧ ctx.module.globals[index]? = some global := by
  unfold lookupGlobal
  split
  next hnone => exact .of_throw fun htyped => (hglobal htyped hnone).elim
  next global hsome =>
    refine .guard (fun _ => nofun) fun _ => ?_
    refine .bind (requireScalar_upholds _ _) fun _ s' hscalar => .of_pure ⟨hscalar.1, hsome⟩

theorem globalAddress_upholds (h : At R base ls ts s) {global : Global}
    (hslot : R.linked → global.isIndirect = true → global.offset * pointerSize < UInt32.size)
    (hpinned : pinned.AtMost 7) :
    Upholds R (globalAddress global pinned) s fun _ => At R base ls ts := by
  refine .bind (unusedReg_upholds h hpinned .gp) fun r s₁ ⟨h₁, _⟩ => ?_
  refine .ite (fun hindirect => ?_) fun _ => ?_
  · refine .bind (pointerSlot_upholds _ fun hlinked => hslot hlinked hindirect) fun slot s₂ hs => ?_
    subst hs
    refine .bind (emitOp_upholds h₁ rfl) fun _ s₃ h₃ => ?_
    exact .bind (emitOp_upholds h₃ rfl) fun _ s₄ h₄ => .of_pure h₄
  · exact .bind (emitOp_upholds h₁ rfl) fun _ s₂ h₂ => .of_pure h₂

/-- What is known of the global with an index. -/
structure KnownGlobal (R : Regime) (ctx : Context) (index : Nat) : Prop where
  declared : R.typed → ctx.module.globals[index]? ≠ none
  allows : ∀ global, ctx.module.globals[index]? = some global → R.allows global.ty
  slot : R.linked → ∀ global, ctx.module.globals[index]? = some global →
    global.isIndirect = true → global.offset * pointerSize < UInt32.size

theorem globalGet_upholds (h : At R base ls ts s) (hknown : KnownGlobal R ctx index) :
    Upholds R (globalGet ctx index) s fun _ s' => ∃ global,
      ctx.module.globals[index]? = some global ∧ At R base ls (ts ++ [global.ty]) s' := by
  refine .look (lookupGlobal_upholds hknown.declared) fun global hglobal => ?_
  refine .bind (globalAddress_upholds h (fun hlinked => hknown.slot hlinked global hglobal)
    atMost_none) fun address s₁ h₁ => ?_
  refine .bind (unusedRegFrom_upholds h₁ atMost_none _ _) fun dst s₂ ⟨h₂, hdst⟩ => ?_
  exact (emitResult_upholds h₂ rfl (hknown.allows global hglobal) fun _ => hdst).mono
    fun _ s' h' => ⟨global, hglobal, h'⟩

theorem globalSet_upholds (h : At R base ls (ts ++ [a]) s) (hknown : KnownGlobal R ctx index) :
    Upholds R (globalSet ctx index) s fun _ => At R base ls ts := by
  refine .look (lookupGlobal_upholds hknown.declared) fun global hglobal => ?_
  refine .bind (popToReg_upholds h atMost_none) fun value s₁ h₁ => ?_
  refine .bind (globalAddress_upholds h₁ (fun hlinked => hknown.slot hlinked global hglobal)
    (atMost_one value)) fun address s₂ h₂ => ?_
  exact emitOp_upholds h₂ rfl

/-! ## Memory -/

theorem boundsCheck_upholds (h : At R base ls ts s) (hpinned : pinned.AtMost 5)
    (hlocals : base.emitter.numLocals ≤ ts.length) (index : Reg) (lastByte : Nat) :
    Upholds R (boundsCheck ctx index lastByte pinned) s fun _ => At R base ls ts := by
  have hi64 : R.allows .i64 := R.proper _ (by decide)
  refine .bind (addTrap_upholds h rfl hlocals _ _) fun trap s₁ ⟨h₁, htrap⟩ => ?_
  refine .mono ?_ fun _ _ => h₁.trans
  refine .bind (unusedReg_upholds h₁.here ((hpinned.insert index).mono (by decide)) .gp)
    fun size s₂ ⟨h₂, _⟩ => ?_
  refine .bind (unusedReg_upholds h₂ ((hpinned.insert index).insert size) .gp)
    fun limit s₃ ⟨h₃, _⟩ => ?_
  refine .bind (emitOp_upholds h₃ rfl) fun _ s₄ h₄ => ?_
  refine .bind (emitting_upholds h₄ (h₄.emitter.loadBits hi64 limit _)) fun _ s₅ h₅ => ?_
  refine .when (Q := At R s₁ ls ts) (fun _ => emitBranch_upholds h₅ (.of_type hi64 rfl rfl) rfl
    (mem_targets_of_path (h₅.later.paths htrap))) (fun _ => h₅) fun s₆ h₆ => ?_
  refine .bind (emitOp_upholds h₆ rfl) fun _ s₇ h₇ => ?_
  refine .bind (emitBranch_upholds h₇ (.of_type hi64 rfl rfl) rfl
    (mem_targets_of_path (h₇.later.paths htrap))) fun _ s₈ h₈ => .get_bind ?_
  refine .ite (fun _ => ?_) fun _ => .of_pure h₈
  exact .bind (emitOp_upholds h₈ rfl) fun _ s₉ h₉ => emitOp_upholds h₉ rfl

/-- Without an answer the code ends with a jump to a trap. -/
theorem memoryAddress?_upholds (h : At R base ls (ts ++ [a]) s) (hpinned : pinned.AtMost 5)
    (hlocals : base.emitter.numLocals ≤ ts.length) (size offset : Nat) :
    Upholds R (memoryAddress? ctx size offset pinned) s fun address s' =>
      At R base ls ts s' ∧ (address = none → Closes R ls s') := by
  refine .get_bind (.look (peekSlot_upholds h) fun top _ => ?_)
  refine .ite (fun _ => ?_) fun _ => .ite (fun _ => ?_) fun _ => .ite (fun _ => ?_) fun _ => ?_
  · exact .bind (popSlot_upholds h) fun _ s₁ ⟨h₁, _⟩ => .of_pure ⟨h₁, nofun⟩
  · refine .bind (popSlot_upholds h) fun _ s₁ ⟨h₁, _⟩ => ?_
    refine .bind (addTrap_upholds h₁ rfl hlocals _ _) fun trap s₂ ⟨h₂, htrap⟩ => ?_
    refine .bind (emitExit_upholds h₂ rfl (.of_none rfl rfl) fun l hl => ?_)
      fun _ s₃ ⟨h₃, hcloses⟩ => .of_pure ⟨h₃, fun _ => hcloses⟩
    cases hl
    exact .inr (mem_targets_of_path htrap)
  · exact .bind (popToReg_upholds h (hpinned.mono (by decide))) fun index s₁ h₁ =>
      .of_pure ⟨h₁, nofun⟩
  · have hcheck : ∀ index s₁, At R base ls ts s₁ → Upholds R (do
        boundsCheck ctx index (offset + size - 1) pinned
        return some (Address.mk (some index) offset)) s₁ fun address s' =>
          At R base ls ts s' ∧ (address = none → Closes R ls s') :=
      fun index s₁ h₁ => .bind (boundsCheck_upholds h₁ hpinned hlocals index _) fun _ s₂ h₂ =>
        .of_pure ⟨h₂, nofun⟩
    exact .ite (fun _ => .bind (popToModifiableReg_upholds h (hpinned.mono (by decide))) hcheck)
      fun _ => .bind (popToReg_upholds h (hpinned.mono (by decide))) hcheck

theorem protectAccess_upholds (h : At R base ls ts s)
    (hlocals : base.emitter.numLocals ≤ ts.length) (address : Address) (pc : Nat) :
    Upholds R (protectAccess ctx address pc) s fun _ => At R base ls ts :=
  .get_bind (.ite (fun _ => .bind (addTrap_upholds h rfl hlocals _ _) fun _ _ h₁ => .of_pure h₁.1)
    fun _ => .of_pure h)

theorem Address.atMost_pin (address : Address) (hpinned : pinned.AtMost n) :
    (address.pin pinned).AtMost (n + 1) := by
  unfold Address.pin
  split
  · exact hpinned.insert _
  · obtain ⟨rs, hlength, hrs⟩ := hpinned
    exact ⟨rs, Nat.le_succ_of_le hlength, hrs⟩

/-- The value is there, or the access always traps. -/
theorem load_upholds (h : At R base ls (ts ++ [a]) s) {ty : LoadType} (hty : R.allows ty.valueType)
    (hlocals : base.emitter.numLocals ≤ ts.length) (arg : MemArg) :
    Upholds R (load ctx ty arg) s fun reply s' =>
      (reply = .proceed → At R base ls (ts ++ [ty.valueType]) s') ∧
      (reply = .dead → At R base ls ts s' ∧ Closes R ls s') := by
  refine .look (requireScalar_upholds _ _) fun _ _ => ?_
  refine .bind (memoryAddress?_upholds h atMost_none hlocals _ _) fun address s₁ ⟨h₁, hdead⟩ => ?_
  cases address with
  | none => exact .of_pure ⟨nofun, fun _ => ⟨h₁, hdead rfl⟩⟩
  | some address =>
    refine .bind (unusedReg_upholds h₁ (address.atMost_pin atMost_none) .gp) fun r s₂ ⟨h₂, _⟩ => ?_
    refine .bind (emitOp_upholds h₂ rfl) fun _ s₃ h₃ => ?_
    refine .bind (unusedRegFrom_upholds h₃ atMost_none _ _) fun dst s₄ ⟨h₄, hdst⟩ => ?_
    refine .get_bind (.bind (emitOp_upholds h₄ rfl) fun _ s₅ h₅ => ?_)
    refine .bind (protectAccess_upholds h₅ hlocals _ _) fun _ s₆ h₆ => ?_
    exact .bind (pushReg_upholds h₆ hty fun _ => hdst) fun _ s₇ h₇ => .of_pure ⟨fun _ => h₇, nofun⟩

theorem store_upholds (h : At R base ls (ts ++ [a] ++ [b]) s)
    (hlocals : base.emitter.numLocals ≤ ts.length) (ty : StoreType) (arg : MemArg) :
    Upholds R (store ctx ty arg) s fun reply s' =>
      (reply = .proceed → At R base ls ts s') ∧
      (reply = .dead → At R base ls ts s' ∧ Closes R ls s') := by
  refine .look (requireScalar_upholds _ _) fun _ _ => ?_
  refine .bind (popToReg_upholds h atMost_none) fun value s₀ h₀ => ?_
  refine .bind (memoryAddress?_upholds h₀ (atMost_one value) hlocals _ _)
    fun address s₁ ⟨h₁, hdead⟩ => ?_
  cases address with
  | none => exact .of_pure ⟨nofun, fun _ => ⟨h₁, hdead rfl⟩⟩
  | some address =>
    refine .bind (unusedReg_upholds h₁ (address.atMost_pin (atMost_one value)) .gp)
      fun r s₂ ⟨h₂, _⟩ => ?_
    refine .bind (emitOp_upholds h₂ rfl) fun _ s₃ h₃ => ?_
    refine .get_bind (.bind (emitOp_upholds h₃ rfl) fun _ s₄ h₄ => ?_)
    exact .bind (protectAccess_upholds h₄ hlocals _ _) fun _ s₅ h₅ => .of_pure ⟨fun _ => h₅, nofun⟩

theorem memorySize_upholds (h : At R base ls ts s) :
    Upholds R memorySize s fun _ => At R base ls (ts ++ [.i32]) := by
  refine .bind (unusedReg_upholds h atMost_none .gp) fun dst s₁ ⟨h₁, hdst⟩ => ?_
  refine .bind (emitOp_upholds h₁ rfl) fun _ s₂ h₂ => ?_
  exact emitResult_upholds h₂ rfl (R.proper _ (by decide)) fun _ => hdst

/-! ## Calls -/

theorem requireScalars_upholds (what : String) (types : List ValueType) :
    Upholds R (types.forM (requireScalar what)) s fun _ s' => s' = s := by
  induction types with
  | nil => exact .of_pure rfl
  | cons ty types ih =>
    refine .look (requireScalar_upholds what ty) fun _ _ => ?_
    exact ih

theorem requireCallable_upholds (sig : Signature) :
    Upholds R (requireCallable sig) s fun _ s' => s' = s ∧ sig.results.length ≤ 1 := by
  refine .ite (fun _ => .bind (Q := fun _ _ => False) (.of_throw fun _ => nofun) nofun)
    fun hresults => ?_
  exact (requireScalars_upholds _ _).mono fun _ _ hs => ⟨hs, Nat.not_lt.1 hresults⟩

theorem head?_toList {α : Type} {xs : List α} (h : xs.length ≤ 1) : xs.head?.toList = xs := by
  match xs, h with
  | [], _ => rfl
  | [x], _ => rfl

variable {as : List ValueType} {sig : Signature}

theorem emitCall_upholds (h : At R base ls (ts ++ as) s) (hlength : as.length = sig.params.length)
    (hparams : ∀ ty ∈ sig.params, R.allows ty) (hresults : ∀ ty ∈ sig.results, R.allows ty)
    (hsingle : sig.results.length ≤ 1) (hlocals : base.emitter.numLocals ≤ ts.length)
    {call : Instr Label} (htarget : call.target? = none) (htype : call.type? = none)
    (hframe : call.frameOffsets = []) (hcall : call.isCall = true) (hstop : call.isStop = true) :
    Upholds R (emitCall ctx sig call) s fun _ => At R base ls (ts ++ sig.results) := by
  refine .bind (liftEmit_at h (Emitter.prepareCall_upholds h.emitter hlength hparams))
    fun _ s₁ h₁ => ?_
  refine site_upholds h₁ htarget htype hframe hcall hstop hlocals _ _ fun s₄ h₄ => ?_
  have hhead : ∀ ty ∈ sig.results.head?, R.allows ty :=
    fun ty hty => hresults ty (mem_of_mem_head? hty)
  have hfinish := Emitter.finishCall_upholds h₄.emitter hhead
  rw [head?_toList hsingle] at hfinish
  exact liftEmit_at h₄ hfinish

/-- What is known of a function with an index. -/
structure KnownCallee (R : Regime) (ctx : Context) (function : Nat) (sig : Signature) : Prop where
  params : ∀ ty ∈ sig.params, R.allows ty
  results : ∀ ty ∈ sig.results, R.allows ty
  slot : R.linked → ctx.module.isImportedFunction function = true →
    function * pointerSize < UInt32.size

theorem call_upholds {function : Nat} (h : At R base ls (ts ++ as) s)
    (hlength : as.length = sig.params.length) (hlocals : base.emitter.numLocals ≤ ts.length)
    (hknown : KnownCallee R ctx function sig) :
    Upholds R (call ctx function sig) s fun _ => At R base ls (ts ++ sig.results) := by
  refine .look (requireCallable_upholds sig) fun _ hsingle => ?_
  refine .ite (fun himported => ?_) fun _ => emitCall_upholds h hlength hknown.params
    hknown.results hsingle hlocals rfl rfl rfl rfl rfl
  refine .bind (pointerSlot_upholds _ fun hlinked => hknown.slot hlinked himported)
    fun slot s₁ hs => ?_
  subst hs
  refine .bind (emitOp_upholds h rfl) fun _ s₂ h₂ => ?_
  refine .bind (emitOp_upholds h₂ rfl) fun _ s₃ h₃ => ?_
  refine .bind (emitOp_upholds h₃ rfl) fun _ s₄ h₄ => ?_
  refine .bind (emitOp_upholds h₄ rfl) fun _ s₅ h₅ => ?_
  exact emitCall_upholds h₅ hlength hknown.params hknown.results hsingle hlocals rfl rfl rfl rfl rfl

theorem maskIndex_upholds (h : At R base ls ts s) (index size mask : Reg) :
    Upholds R (maskIndex index size mask) s fun _ => At R base ls ts :=
  .bind (emitOp_upholds h rfl) fun _ _ h₁ =>
    .bind (emitOp_upholds h₁ rfl) fun _ _ h₂ =>
    .bind (emitOp_upholds h₂ rfl) fun _ _ h₃ =>
    .bind (emitOp_upholds h₃ rfl) fun _ _ h₄ => emitOp_upholds h₄ rfl

theorem calleeChecks_upholds (h : At R base ls ts s) (hlocals : base.emitter.numLocals ≤ ts.length)
    (sigId : Nat) (index table tmp scratch : Reg) :
    Upholds R (calleeChecks ctx sigId index table tmp scratch) s fun _ => At R base ls ts := by
  have hi32 : R.allows .i32 := R.proper _ (by decide)
  refine .bind (addTrap_upholds h rfl hlocals _ _) fun outOfBounds s₁ ⟨h₁, hbounds⟩ => ?_
  refine .mono ?_ fun _ _ => h₁.trans
  refine .bind (emitOp_upholds h₁.here rfl) fun _ s₂ h₂ => ?_
  refine .bind (emitBranch_upholds h₂ (.of_type hi32 rfl rfl) rfl
    (mem_targets_of_path (h₂.later.paths hbounds))) fun _ s₃ h₃ => .get_bind ?_
  refine .when (Q := At R s₁ ls ts) (fun _ => maskIndex_upholds h₃ _ _ _) (fun _ => h₃)
    fun s₄ h₄ => ?_
  refine .bind (addTrap_upholds h₄ rfl (h₁.later.numLocals ▸ hlocals) _ _)
    fun sigMismatch s₅ ⟨h₅, hmismatch⟩ => ?_
  refine .mono ?_ fun _ _ => h₅.trans
  refine .bind (emitOp_upholds h₅.here rfl) fun _ s₆ h₆ => ?_
  refine .bind (emitOp_upholds h₆ rfl) fun _ s₇ h₇ => ?_
  refine .bind (emitOp_upholds h₇ rfl) fun _ s₈ h₈ => ?_
  refine .bind (emitting_upholds h₈ (h₈.emitter.loadBits hi32 tmp _)) fun _ s₉ h₉ => ?_
  exact emitBranch_upholds h₉ (.of_type hi32 rfl rfl) rfl
    (mem_targets_of_path (h₉.later.paths hmismatch))

theorem callIndirect_upholds {callee : IndirectCallee} (h : At R base ls (ts ++ as ++ [a]) s)
    (hlength : as.length = sig.params.length) (hparams : ∀ ty ∈ sig.params, R.allows ty)
    (hresults : ∀ ty ∈ sig.results, R.allows ty) (hlocals : base.emitter.numLocals ≤ ts.length)
    (hsig : R.linked → ctx.module.canonicalId? callee.sigIndex ≠ none) :
    Upholds R (callIndirect ctx callee sig) s fun _ => At R base ls (ts ++ sig.results) := by
  refine .look (requireCallable_upholds sig) fun _ hsingle => ?_
  refine .guard (fun _ => nofun) fun _ => ?_
  split
  next hnone => exact .of_throw fun _ hlinked => (hsig hlinked hnone).elim
  next sigId _ =>
    refine .bind (popToModifiableReg_upholds h atMost_none) fun index s₁ h₁ => ?_
    refine .bind (unusedReg_upholds h₁ (atMost_one index) .gp) fun table s₂ ⟨h₂, _⟩ => ?_
    refine .bind (unusedReg_upholds h₂ (atMost_two index table) .gp) fun tmp s₃ ⟨h₃, _⟩ => ?_
    refine .bind (unusedReg_upholds h₃ ((RegSet.atMost_ofList [index, table, tmp]).mono (by simp))
      .gp) fun scratch s₄ ⟨h₄, _⟩ => ?_
    have hlocals' : base.emitter.numLocals ≤ (ts ++ as).length := by
      rw [length_append]
      exact Nat.le_add_right_of_le hlocals
    refine .bind (calleeChecks_upholds h₄ hlocals' sigId index table tmp scratch) fun _ s₅ h₅ => ?_
    refine .bind (emitOp_upholds h₅ rfl) fun _ s₆ h₆ => ?_
    refine .bind (emitOp_upholds h₆ rfl) fun _ s₇ h₇ => ?_
    refine .bind (emitOp_upholds h₇ rfl) fun _ s₈ h₈ => ?_
    refine .bind (emitOp_upholds h₈ rfl) fun _ s₉ h₉ => ?_
    refine .bind (emitOp_upholds h₉ rfl) fun _ s₁₀ h₁₀ => ?_
    exact emitCall_upholds h₁₀ hlength hparams hresults hsingle hlocals rfl rfl rfl rfl rfl

theorem callStub_upholds {params : List ValueType} {immediate : Option UInt64}
    {result : Option ValueType} (h : At R base ls (ts ++ as) s)
      (hlength : as.length = params.length)
    (hparams : ∀ ty ∈ params, R.allows ty) (hresult : ∀ ty ∈ result, R.allows ty)
    (hfree : params.length < (Reg.params .gp).length) (hlocals : base.emitter.numLocals ≤ ts.length)
    {stub : RuntimeStub} (hstub : stub ≠ .traceEnter) :
    Upholds R (callStub ctx stub params immediate result) s fun _ =>
      At R base ls (ts ++ result.toList) := by
  refine .bind (liftEmit_at h (Emitter.prepareCall_upholds h.emitter hlength hparams))
    fun _ s₁ h₁ => ?_
  have hcall : ∀ s₂, At R base ls ts s₂ → Upholds R (do
      recordPosition ctx.pc
      Lowering.emit (.callStub stub)
      let _ ← recordEntry (← get).emitter.pc .didSpill
      liftEmit (Emitter.finishCall result)) s₂ fun _ => At R base ls (ts ++ result.toList) := by
    intro s₂ h₂
    refine site_upholds h₂ rfl rfl rfl rfl (by simpa [Instr.isStop] using hstub)
      hlocals _ _ fun s₃ h₃ => ?_
    exact liftEmit_at h₃ (Emitter.finishCall_upholds h₃.emitter hresult)
  cases immediate with
  | none => exact hcall s₁ h₁
  | some bits =>
    rw [getElem?_eq_getElem hfree]
    exact .bind (emitting_upholds h₁ (h₁.emitter.loadBits (R.proper _ (by decide)) _ bits)) fun _ =>
      hcall

theorem bulkOperation_upholds {operands : Nat} (h : At R base ls (ts ++ as) s)
    (hlength : as.length = operands) (hfew : operands ≤ 3)
    (hlocals : base.emitter.numLocals ≤ ts.length) {stub : RuntimeStub} (hstub : stub ≠ .traceEnter)
    (immediate : Option UInt64) :
    Upholds R (bulkOperation ctx stub operands immediate) s fun _ => At R base ls ts := by
  refine .get_bind (.guard (fun _ => nofun) fun _ => ?_)
  rw [if_neg (Nat.not_lt.2 hfew)]
  have hcount : as.length = (replicate operands ValueType.i32).length := by simpa using hlength
  have hparams : ∀ ty ∈ replicate operands ValueType.i32, R.allows ty := fun ty hty => by
    rw [eq_of_mem_replicate hty]
    exact R.proper _ (by decide)
  have hregs : (replicate operands ValueType.i32).length < (Reg.params .gp).length := by
    rw [length_replicate]
    exact Nat.lt_of_le_of_lt hfew (by decide)
  have hnone : ∀ ty ∈ (none : Option ValueType), R.allows ty := nofun
  refine (callStub_upholds h hcount hparams hnone hregs hlocals hstub).mono fun _ s' h' => ?_
  simpa using h'

end Lowering

end OnePass
