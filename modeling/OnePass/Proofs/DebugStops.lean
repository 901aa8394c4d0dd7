import OnePass.Proofs.ProtectedAccesses
import OnePass.Proofs.StackChecks

/-!
Where code stops for a debugger: in slow paths that checks branch to, and where it comes back from a
call. The code of an event is split there, so that the state of the slots at each stop is that of a
call of the run, followed by the code in front of the stop. The side table lists these states.
-/
namespace OnePass

open List

namespace Lowering

/-! ## Checks -/

/-- What is checked on the way through an event. -/
inductive Guard where
  /-- Nothing is: the code always traps. -/
  | never (stub : RuntimeStub)
  | stack
  | divisor (op : IntBinary) (ty : ValueType) (lhs rhs : Reg)
  | conversion (op : UnaryOp) (dst src : Reg)
  | callee (sigId : Nat) (index table tmp scratch : Reg)
  | bounds (index : Reg) (lastByte : Nat) (pinned : RegSet)
  /-- The access at this place is left to the trap handler. -/
  | access (place : Nat)

/-- The code of the check, with the slow paths that it branches to. -/
def Guard.check (ctx : Context) : Guard → LowerM Unit
  | never stub => do
    let trap ← addTrap stub ctx.pc
    emit (.jump trap)
  | stack => stackCheck ctx.pc
  | divisor op ty lhs rhs => divisorChecks ctx op ty lhs rhs
  | conversion op dst src => do
    let trap ← addTrap .trapFloatUnrepresentable ctx.pc
    emit (.unaryTrapping (.unary op) dst src trap)
  | callee sigId index table tmp scratch => calleeChecks ctx sigId index table tmp scratch
  | bounds index lastByte pinned => boundsCheck ctx index lastByte pinned
  | access place => do
    let _ ← addTrap .trapMemOutOfBounds ctx.pc (some place)

/-! ## The way to a check -/

/-- Pop the index of an access. What is to be checked then, and where the access goes. -/
def reachAddress (ctx : Context) (size offset : Nat) (pinned : RegSet) :
    LowerM (Option Guard × Option Address) := do
  let options := (← get).options
  let top ← peekSlot
  let known := top.const?.map fun value => value.toUInt32.toNat
  let least := known.getD 0
  if known.isSome && least + offset + size ≤ ctx.module.minMemorySize
      && least + offset < UInt32.size then
    let _ ← popSlot
    return (none, some ⟨none, least + offset⟩)
  else if least + offset + size > ctx.module.maxMemorySize then
    let _ ← popSlot
    return (some (.never .trapMemOutOfBounds), none)
  else if options.boundsChecks = .trapHandler then
    let index ← popToReg pinned
    return (none, some ⟨some index, offset⟩)
  else
    let index ←
      if options.indexMasking then popToModifiableReg pinned else popToReg pinned
    return (some (.bounds index (offset + size - 1) pinned), some ⟨some index, offset⟩)

/-- An access up to its check, and what is left to do then. -/
def approachAccess (ctx : Context) (size offset : Nat) (pinned : RegSet)
    (ready : Address → LowerM Access) : LowerM (Option Guard × LowerM Reply) := do
  let (guard, address) ← reachAddress ctx size offset pinned
  match guard, address with
  | guard, none => return (guard, return .dead)
  | some guard, some a => return (some guard, ready a >>= fun x => closeAccess ctx (some x))
  | none, some a =>
    let x ← ready a
    let place := (← get).emitter.pc
    emit x.instr
    if (← get).options.boundsChecks = .trapHandler && x.address.index.isSome then
      return (some (.access place), yieldAccess x)
    else return (none, yieldAccess x)

/-- Pop the index of an indirect call and find registers for it. -/
def reachCallee (ctx : Context) (callee : IndirectCallee) (sig : Signature) :
    LowerM (Reg × Reg × Guard) := do
  requireCallable sig
  if callee.tableIndex ≠ 0 then
    throw ⟨.referenceTypes, "call_indirect through a table other than 0"⟩
  match ctx.module.canonicalId? callee.sigIndex with
  | none => throw (.internal "signature index out of range")
  | some sigId =>
    let index ← popToModifiableReg
    let table ← unusedReg .gp (.ofList [index])
    let tmp ← unusedReg .gp (.ofList [index, table])
    let scratch ← unusedReg .gp (.ofList [index, table, tmp])
    return (index, table, .callee sigId index table tmp scratch)

/-! ## The way to a call -/

/-- Move the arguments and call. -/
def enterCall (ctx : Context) (sig : Signature) (call : Instr Label) : LowerM Unit := do
  liftEmit (Emitter.prepareCall sig.params)
  recordPosition ctx.pc
  emit call

/-- Call what a table holds when it is checked. -/
def enterCallee (ctx : Context) (sig : Signature) (index table : Reg) : LowerM Unit := do
  emit (.binary (int32 .add) index index index)
  emit (.loadInstanceField table .indirectFunctionTableTargets)
  emit (.load .i64Load .callTarget table (some index) 0)
  emit (.loadInstanceField table .indirectFunctionTableRefs)
  emit (.load .i64Load .instanceReg table (some index) 0)
  enterCall ctx sig (.callIndirect .callTarget)

def enterImport (ctx : Context) (function : Nat) (sig : Signature) : LowerM Unit := do
  let slot ← pointerSlot "function" function
  emit (.loadInstanceField .callTarget .importedFunctionTargets)
  emit (.load .i64Load .callTarget .callTarget none slot)
  emit (.loadInstanceField (.scratch .gp) .importedFunctionRefs)
  emit (.load .i64Load .instanceReg (.scratch .gp) none slot)
  enterCall ctx sig (.callIndirect .callTarget)

def enterStub (ctx : Context) (stub : RuntimeStub) (params : List ValueType)
    (immediate : Option UInt64) : LowerM Unit := do
  liftEmit (Emitter.prepareCall params)
  match immediate with
  | none => pure ()
  | some bits =>
    match (Reg.params .gp)[params.length]? with
    | none => throw (.internal "no register left for a stub immediate")
    | some r => emitting (·.loadBits .i64 r bits)
  recordPosition ctx.pc
  emit (.callStub stub)

/-- Take the result of a call. -/
def leaveCall (result : Option ValueType) : LowerM Reply := do
  liftEmit (Emitter.finishCall result)
  return .proceed

/-- Describe the slots where the code comes back from a call. -/
def noteReturn (view : RegisterView) : LowerM Unit := do
  let _ ← recordEntry (← get).emitter.pc view

/-! ## Events -/

/-- The code of an event up to its check, and what is left to do then. -/
def approach (ctx : Context) (e : Event) : LowerM (Option Guard × LowerM Reply) :=
  match e with
  | .startBody _ => do
    openFrame ctx
    return (some .stack, do openBody ctx; return .proceed)
  | .loop b => do
    openLoop b
    return (some .stack, return .proceed)
  | .unreachable => return (some (.never .trapUnreachable), return .proceed)
  | .unary op value result =>
    if op.isTrapping then do
      requireScalar "operand" value.ty
      requireScalar "result" result.ty
      let _ ← fusesWithBranch ctx
      let src ← popToReg
      let dst ← unusedRegFrom (.ofType result.ty) (.ofList [src])
      return (some (.conversion op dst src), do pushReg result.ty dst; return .proceed)
    else return (none, handle ctx e)
  | .binary (.int w op) value _ result =>
    if op.isDivision then do
      requireScalar "operand" value.ty
      requireScalar "result" result.ty
      let rhs ← popToReg
      let lhs ← popToReg (.ofList [rhs])
      let dst ← unusedReg .gp (.ofList [lhs, rhs])
      return (some (.divisor op value.ty lhs rhs), do
        emit (.binary (.binary (.int w op)) dst lhs rhs)
        pushReg value.ty dst
        return .proceed)
    else return (none, handle ctx e)
  | .load ty arg .. => do
    requireScalar "load" ty.valueType
    approachAccess ctx ty.size arg.offset .empty fun a => do
      let base ← unusedReg .gp (a.pin .empty)
      emit (.loadInstanceField base .memoryStart)
      let dst ← unusedRegFrom (.ofType ty.valueType) ((a.pin .empty).insert base)
      return .load ty dst base a
  | .store ty arg .. => do
    requireScalar "store" ty.valueType
    let value ← popToReg
    approachAccess ctx ty.size arg.offset (.ofList [value]) fun a => do
      let base ← unusedReg .gp (a.pin (.ofList [value]))
      emit (.loadInstanceField base .memoryStart)
      return .store ty base a value
  | .callIndirect _ callee sig .. => do
    let (index, table, guard) ← reachCallee ctx callee sig
    return (some guard, do
      enterCallee ctx sig index table
      noteReturn .didSpill
      leaveCall sig.results.head?)
  | _ => return (none, handle ctx e)

def approachBulk (ctx : Context) (stub : RuntimeStub) (operands : Nat) (immediate : Option UInt64) :
    LowerM (Option RegisterView × LowerM Reply) := do
  if !(← get).options.bulkOperations then throw ⟨.bulkOperations, stub.ident⟩
  if operands > 3 then throw (.internal "too many bulk operation operands")
  enterStub ctx stub (List.replicate operands .i32) immediate
  return (some .didSpill, leaveCall none)

/-- The code of an event up to where it comes back from a call, and what is left to do then. -/
def approachReturn (ctx : Context) (e : Event) : LowerM (Option RegisterView × LowerM Reply) :=
  match e with
  | .nextInstruction _ => do
    if (← get).options.hasBreakpoint ctx.pc then
      recordPosition ctx.pc
      emit (.callStub .debugBreak)
      return (some .allowRegs, return .proceed)
    else return (none, return .proceed)
  | .call function sig .. => do
    requireCallable sig
    if ctx.module.isImportedFunction function then enterImport ctx function sig
    else enterCall ctx sig (.call (.ofNat function))
    return (some .didSpill, leaveCall sig.results.head?)
  | .callIndirect _ callee sig .. => do
    let (index, table, guard) ← reachCallee ctx callee sig
    guard.check ctx
    enterCallee ctx sig index table
    return (some .didSpill, leaveCall sig.results.head?)
  | .memoryGrow .. => do
    enterStub ctx .memoryGrow [.i32] none
    return (some .didSpill, leaveCall (some .i32))
  | .memoryInit segment _ => approachBulk ctx .memoryInit 3 (some (packIndices 0 segment))
  | .dataDrop segment => approachBulk ctx .dataDrop 0 (some (packIndices 0 segment))
  | .memoryCopy _ => approachBulk ctx .memoryCopy 3 none
  | .memoryFill _ => approachBulk ctx .memoryFill 3 none
  | .tableInit segment table _ => approachBulk ctx .tableInit 3 (some (packIndices table segment))
  | .elemDrop segment => approachBulk ctx .elemDrop 0 (some (packIndices 0 segment))
  | .tableCopy dst src _ => approachBulk ctx .tableCopy 3 (some (packIndices dst src))
  | _ => return (none, handle ctx e)

/-- Check what there is to check, and go on. -/
def passCheck (ctx : Context) (p : Option Guard × LowerM Reply) : LowerM Reply := do
  p.1.forM (Guard.check ctx)
  p.2

/-- Describe the slots if there was a call, and go on. -/
def passReturn (p : Option RegisterView × LowerM Reply) : LowerM Reply := do
  p.1.forM noteReturn
  p.2

/-! ### The code is split rightly -/

variable (ctx : Context)

theorem memoryAddress?_eq (size offset : Nat) (pinned : RegSet) :
    memoryAddress? ctx size offset pinned =
    reachAddress ctx size offset pinned >>= fun p => p.1.forM (Guard.check ctx) >>=
      fun _ => pure p.2 := by
  unfold memoryAddress? reachAddress
  simp only [bind_assoc]
  refine congrArg _ (funext fun s => congrArg _ (funext fun top => ?_))
  split
  · simp only [bind_assoc, pure_bind]
    rfl
  · split
    · simp only [bind_assoc, pure_bind, Option.forM, Guard.check]
    · split
      · simp only [bind_assoc, pure_bind]
        rfl
      · split <;> simp only [bind_assoc, pure_bind, Option.forM, Guard.check]

theorem approachAccess_eq (size offset : Nat) (pinned : RegSet) (ready : Address → LowerM Access) :
    approachAccess ctx size offset pinned ready >>=
      passCheck ctx = memoryAddress? ctx size offset pinned >>=
      fun a => a.elim (pure .dead) fun a => ready a >>= fun x => closeAccess ctx (some x) := by
  rw [memoryAddress?_eq]
  unfold approachAccess
  simp only [bind_assoc, pure_bind]
  refine congrArg _ (funext fun p => ?_)
  obtain ⟨_ | guard, _ | a⟩ := p
  · simp only [pure_bind]
    rfl
  · simp only [bind_assoc, Option.elim_some, Option.forM, pure_bind]
    refine congrArg _ (funext fun x => ?_)
    simp only [closeAccess, protectAccess, bind_assoc]
    refine congrArg _ (funext fun s =>
      congrArg _ (funext fun _ => congrArg _ (funext fun s' => ?_)))
    split <;> simp only [pure_bind, passCheck, Option.forM, Guard.check, bind_assoc]
  · simp only [pure_bind, passCheck]
    rfl
  · simp only [pure_bind, passCheck]
    rfl

theorem binary_division {op : IntBinary} (hop : op.isDivision = true) (w : Width)
    (operand result : ValueType) :
      binary ctx (.int w op) operand result = division ctx w op operand := by
  cases w <;> cases op <;> first | rfl | cases hop

theorem emitCall_eq (sig : Signature) (call : Instr Label) : emitCall ctx sig call = (do
      enterCall ctx sig call
      noteReturn .didSpill
      liftEmit (Emitter.finishCall sig.results.head?)) := by
  simp only [emitCall, enterCall, noteReturn, bind_assoc, pure_bind]

theorem callIndirect_eq (callee : IndirectCallee) (sig : Signature) : callIndirect ctx callee sig =
    (do
      let p ← reachCallee ctx callee sig
      p.2.2.check ctx
      enterCallee ctx sig p.1 p.2.1
      noteReturn .didSpill
      liftEmit (Emitter.finishCall sig.results.head?)) := by
  unfold callIndirect reachCallee
  simp only [bind_assoc]
  refine congrArg _ (funext fun _ => ?_)
  split
  · rfl
  · cases ctx.module.canonicalId? callee.sigIndex with
    | none => rfl
    | some sigId =>
      simp only [Guard.check, enterCallee, emitCall_eq, bind_assoc, pure_bind]

theorem handle_eq_approach (e : Event) : handle ctx e = approach ctx e >>= passCheck ctx := by
  cases e with
  | startBody b =>
    simp only [handle, lower, startBody_eq, approach, bind_assoc, pure_bind]
    rfl
  | loop b =>
    simp only [handle, lower, loop_eq, approach, bind_assoc, pure_bind]
    rfl
  | unreachable =>
    simp only [handle, lower, unreachable, approach, passCheck, Option.forM,
      Guard.check, bind_assoc, pure_bind]
  | unary op value result =>
    by_cases hop : op.isTrapping = true
    · have hne : op ≠ .eqz .w32 := by
        rintro rfl
        cases hop
      simp [handle, lower, unary, approach, passCheck, Guard.check, hop, hne]
    · simp only [approach, if_neg hop, pure_bind]
      rfl
  | binary op value rhs result =>
    cases op with
    | int w op =>
      by_cases hop : op.isDivision = true
      · simp only [handle, lower, binary_division ctx hop, division, approach,
          if_pos hop, bind_assoc, pure_bind]
        rfl
      · simp only [approach, if_neg hop, pure_bind]
        rfl
    | _ => exact (pure_bind _ _).symm
  | load ty arg =>
    rw [handle_access ctx rfl]
    simp only [openAccess, approach, bind_assoc, approachAccess_eq]
    refine congrArg _ (funext fun _ => congrArg _ (funext fun a => ?_))
    cases a <;> simp only [bind_assoc, pure_bind] <;> rfl
  | store ty arg =>
    rw [handle_access ctx rfl]
    simp only [openAccess, approach, bind_assoc, approachAccess_eq]
    refine congrArg _ (funext fun _ => congrArg _ (funext fun _ => congrArg _ (funext fun a => ?_)))
    cases a <;> simp only [bind_assoc, pure_bind] <;> rfl
  | callIndirect _ callee sig =>
    simp only [handle, lower, callIndirect_eq, approach, passCheck, leaveCall,
      Option.forM, bind_assoc, pure_bind]
  | _ => exact (pure_bind _ _).symm

theorem callStub_eq (stub : RuntimeStub) (params : List ValueType) (immediate : Option UInt64)
    (result : Option ValueType) : callStub ctx stub params immediate result = (do
      enterStub ctx stub params immediate
      noteReturn .didSpill
      liftEmit (Emitter.finishCall result)) := by
  unfold callStub enterStub
  simp only [bind_assoc]
  refine congrArg _ (funext fun _ => ?_)
  cases immediate with
  | none => simp only [noteReturn, bind_assoc, pure_bind]
  | some bits =>
    dsimp only
    cases (Reg.params .gp)[params.length]? with
    | none => rfl
    | some r => simp only [noteReturn, bind_assoc, pure_bind]

theorem bulkOperation_eq (stub : RuntimeStub) (operands : Nat) (immediate : Option UInt64) :
    (do bulkOperation ctx stub operands immediate; return .proceed) =
      approachBulk ctx stub operands immediate >>= passReturn := by
  unfold bulkOperation approachBulk
  simp only [bind_assoc]
  refine congrArg _ (funext fun s => ?_)
  split
  · rfl
  · split
    · rfl
    · simp only [callStub_eq, passReturn, leaveCall, Option.forM, bind_assoc, pure_bind]

theorem handle_eq_approachReturn (e : Event) :
    handle ctx e = approachReturn ctx e >>= passReturn := by
  cases e with
  | nextInstruction op =>
    simp only [handle, lower, nextInstruction, approachReturn, bind_assoc]
    refine congrArg _ (funext fun s => ?_)
    split <;> simp only [breakpoint, noteReturn, passReturn, Option.forM, bind_assoc, pure_bind]
  | call function sig =>
    simp only [handle, lower, call, approachReturn, bind_assoc]
    refine congrArg _ (funext fun _ => ?_)
    split <;> simp only [callImport, enterImport, emitCall_eq, passReturn, leaveCall,
      Option.forM, bind_assoc, pure_bind]
  | callIndirect _ callee sig =>
    simp only [handle, lower, callIndirect_eq, approachReturn, passReturn, leaveCall,
      Option.forM, bind_assoc, pure_bind]
  | memoryGrow =>
    simp only [handle, lower, callStub_eq, approachReturn, passReturn, leaveCall,
      Option.forM, bind_assoc, pure_bind]
  | memoryInit | dataDrop | memoryCopy | memoryFill | tableInit | elemDrop | tableCopy =>
    exact bulkOperation_eq ctx _ _ _
  | _ => exact (pure_bind _ _).symm

/-! ## Between the stops -/

section

variable {fits : Location → ValueType → Prop} {L J : CacheState → Prop} {traps : Option Nat → Prop}
  {notes : RegisterView → Prop} {loops ends : Prop} {I : Lowering → Prop}
  (h : Steady fits L J traps notes loops ends I)
include h

/-- Only an address that is checked by code has a check and a way to go on. -/
theorem Steady.reachAddress (size offset : Nat) (pinned : RegSet) :
    Preserves I (reachAddress ctx size offset pinned) fun p => p.1.isSome = true →
      p.2.isSome = true → ∃ s, I s ∧ s.options.boundsChecks ≠ .trapHandler := by
  refine .bind .get fun s hs => peekSlot_preserves.next fun top => ?_
  refine .ite (fun _ => h.popSlot.next fun _ => .pure (by rintro ⟨⟩)) fun _ => ?_
  refine .ite (fun _ => h.popSlot.next fun _ => .pure (by rintro - ⟨⟩)) fun _ => ?_
  refine .ite (fun _ => (h.popToReg _).next fun _ => .pure (by rintro ⟨⟩)) fun hchecks => ?_
  exact .ite (fun _ => (h.popToModifiableReg _).next fun _ => .pure fun _ _ => ⟨s, hs, hchecks⟩)
    fun _ => (h.popToReg _).next fun _ => .pure fun _ _ => ⟨s, hs, hchecks⟩

/-- No access is left to the trap handler whose address is checked by code. -/
theorem Steady.approachAccess (size offset : Nat) (pinned : RegSet)
    {ready : Address → LowerM Access}
    (hready : ∀ a, Preserves I (ready a) fun x => x.valueType ≠ .v128) :
    Preserves I (approachAccess ctx size offset pinned ready) fun p =>
      (∃ options, ∀ s, I s → s.options = options) → Preserves I p.2 := by
  refine (h.reachAddress ctx size offset pinned).bind fun p hp => ?_
  obtain ⟨_ | guard, _ | a⟩ := p
  · exact .pure fun _ => .done
  · refine (hready a).bind fun x hx => .bind .get fun _ _ => h.emits <| .bind .get fun _ _ => ?_
    have hyield := h.yieldAccess (h.scalar hx)
    exact .ite (fun _ => .pure fun _ => hyield) fun _ => .pure fun _ => hyield
  · exact .pure fun _ => .done
  · refine .pure ?_
    rintro ⟨options, hoptions⟩
    obtain ⟨s, hs, hchecks⟩ := hp rfl rfl
    refine (hready a).bind fun x hx => .bind .get fun _ _ => h.emits <|
      .next (.bind .get fun s' hs' => ?_) fun _ => h.yieldAccess (h.scalar hx)
    rw [hoptions s hs, ← hoptions s' hs'] at hchecks
    exact .ite (fun htrap => by simp [hchecks] at htrap) fun _ => .done

theorem Steady.reachCallee (callee : IndirectCallee) (sig : Signature) :
    Preserves I (reachCallee ctx callee sig) := by
  refine (requireCallable_preserves sig).any.next fun _ => .when (fun _ => .throw _) ?_
  split
  · exact .throw _
  · exact h.popToModifiableReg.next fun _ => (h.unusedReg _ _).next fun _ =>
      (h.unusedReg _ _).next fun _ => (h.unusedReg _ _).next fun _ => .done

/-- Nothing is checked or called on the way to the first check of an event, nor after its last
one. -/
theorem Steady.approach (hloops : loops) {e : Event} (he : e.makesPaths = true)
    (hgiven : ∀ ty ∈ e.givenTypes ctx, fits .stack ty) :
    Preserves I (approach ctx e) fun p => (∃ options, ∀ s, I s → s.options = options) →
      e.view? = none → Preserves I p.2 := by
  have hlower {m : LowerM Unit} (hm : Preserves I m) :
      Preserves I (m >>= fun _ => pure Reply.proceed) :=
    hm.next fun _ => .done
  cases e with
  | startBody b =>
    exact (h.openFrame hgiven).next fun _ => .pure fun _ _ => hlower (h.openBody ctx)
  | loop b => exact (h.openLoop hloops b).next fun _ => .pure fun _ _ => .done
  | unreachable => exact .pure fun _ _ => .done
  | unary op value result =>
    refine .ite (fun _ => ?_) fun hop => .pure fun _ _ => ?_
    · exact (requireScalar_preserves _ _).any.next fun _ =>
        (requireScalar_preserves _ _).bind fun _ hresult =>
        (fusesWithBranch_preserves ctx).next fun _ => h.popToReg.next fun _ =>
        (h.unusedRegFrom _ _).next fun _ => .pure fun _ _ =>
          hlower (h.pushReg (h.scalar hresult) _)
    · exact hlower ((requireScalar_preserves _ _).any.next fun _ =>
        (requireScalar_preserves _ _).bind fun _ => h.unary ctx fun htrap => (hop htrap).elim)
  | binary op value rhs result =>
    have hplain (hop : ∀ w intOp, op = .int w intOp → intOp.isDivision ≠ true) :
        Preserves I (Lowering.handle ctx (.binary op value rhs result)) :=
      hlower ((requireScalar_preserves _ _).bind fun _ hvalue =>
        (requireScalar_preserves _ _).bind fun _ hresult => h.binary hresult ctx
          (fun w intOp heq hdivides => (hop w intOp heq hdivides).elim) hvalue)
    cases op with
    | int w op =>
      refine .ite (fun _ => ?_) fun hop => .pure fun _ _ => hplain ?_
      · exact (requireScalar_preserves _ _).bind fun _ hvalue =>
          (requireScalar_preserves _ _).any.next fun _ =>
          h.popToReg.next fun _ => (h.popToReg _).next fun _ => (h.unusedReg _ _).next fun _ =>
          .pure fun _ _ => h.emits <| hlower (h.pushReg (h.scalar hvalue) _)
      · rintro w intOp ⟨⟩
        exact hop
    | _ => exact .pure fun _ _ => hplain (by rintro w intOp ⟨⟩)
  | load ty arg =>
    refine (requireScalar_preserves _ _).bind fun _ hty =>
      (h.approachAccess ctx _ _ _ fun a => ?_).mono fun p hp hoptions _ => hp hoptions
    exact (h.unusedReg _ _).next fun _ => h.emits <| (h.unusedRegFrom _ _).next fun _ => .pure hty
  | store ty arg =>
    refine (requireScalar_preserves _ _).bind fun _ hty => h.popToReg.next fun _ =>
      (h.approachAccess ctx _ _ _ fun a => ?_).mono fun p hp hoptions _ => hp hoptions
    exact (h.unusedReg _ _).next fun _ => h.emits (.pure hty)
  | callIndirect _ callee sig =>
    exact (h.reachCallee ctx callee sig).next fun _ => .pure (by rintro - ⟨⟩)
  | _ => cases he

theorem Steady.enterCall (sig : Signature) (call : Instr Label) :
    Preserves I (enterCall ctx sig call) :=
  (h.prepareCall _).next fun _ => (h.recordPosition _).next fun _ => h.emit _

theorem Steady.enterCallee (sig : Signature) (index table : Reg) :
    Preserves I (enterCallee ctx sig index table) :=
  h.emits <| h.emits <| h.emits <| h.emits <| h.emits <| h.enterCall ctx _ _

theorem Steady.enterStub (stub : RuntimeStub) (params : List ValueType)
    (immediate : Option UInt64) : Preserves I (enterStub ctx stub params immediate) := by
  have hend : Preserves I (do Lowering.recordPosition ctx.pc; Lowering.emit (.callStub stub)) :=
    (h.recordPosition _).next fun _ => h.emit _
  refine (h.prepareCall _).next fun _ => ?_
  split
  · exact hend
  · split
    · exact .throw _
    · exact h.emits hend

theorem Steady.leaveCall {result : Option ValueType} (hresult : ∀ ty ∈ result, fits .stack ty) :
    Preserves I (leaveCall result) :=
  .next (liftEmit_preserves fun s => Emitter.finishCall_preserves (h.emitter s) hresult)
    fun _ => .done

theorem Steady.approachReturn {e : Event} (hview : e.view?.isSome = true)
    (hpaths : e.makesPaths = false) :
    Preserves I (approachReturn ctx e) fun p => Preserves I p.2 := by
  have hbulk (stub : RuntimeStub) (operands : Nat) (immediate : Option UInt64) :
      Preserves I (approachBulk ctx stub operands immediate) fun p => Preserves I p.2 :=
    .bind .get fun _ _ => .when (fun _ => .throw _) <| .when (fun _ => .throw _) <|
      (h.enterStub ctx _ _ _).next fun _ => .pure (h.leaveCall (by rintro _ ⟨⟩))
  cases e with
  | nextInstruction op =>
    refine .bind .get fun _ _ => .ite (fun _ => ?_) fun _ => .pure .done
    exact (h.recordPosition _).next fun _ => h.emits <| .pure .done
  | call function sig =>
    refine (requireCallable_preserves sig).bind fun _ hsig => ?_
    have hleave : Preserves I (Lowering.leaveCall sig.results.head?) := h.leaveCall fun ty hty =>
      h.scalar (hsig ty (mem_append_right _ (mem_of_mem_head? hty)))
    refine .ite (fun _ => ?_) fun _ => ?_
    · refine .next ((pointerSlot_preserves _ _).next fun _ => ?_) fun _ => .pure hleave
      exact h.emits <| h.emits <| h.emits <| h.emits <| h.enterCall ctx _ _
    · exact (h.enterCall ctx _ _).next fun _ => .pure hleave
  | memoryGrow =>
    exact (h.enterStub ctx _ _ _).next fun _ => .pure (h.leaveCall fun _ hty => by
      cases hty
      exact h.scalar (by decide))
  | memoryInit | dataDrop | memoryCopy | memoryFill | tableInit | elemDrop | tableCopy =>
    exact hbulk _ _ _
  | callIndirect => cases hpaths
  | _ => cases hview

end

/-- Something is known of the slow paths and entries so far. -/
abbrev Records (T : CompileOptions → Array OutOfLine → Option SideRecord → Prop) (s : Lowering) :
    Prop :=
  T s.options s.outOfLine s.work.sideRecord

/-- Steps between stops leave the slow paths and entries as they are. -/
theorem steady_still (T : CompileOptions → Array OutOfLine → Option SideRecord → Prop) :
    Steady (fun _ _ => True) (fun _ => True) (fun _ => True) (fun _ => False)
      (fun _ => False) True False (Records T) where
  emitter _ :=
    { emit := fun _ _ h => h
      stack := fun _ _ h => h
      recent := fun _ _ h => h
      frame := fun _ _ => trivial
      const := fun _ _ _ => trivial
      reg := fun _ _ _ _ => trivial
      typed := fun _ _ _ _ => trivial
      push := fun _ _ _ h _ => h
      pop := fun _ _ _ h _ => h
      relocate := fun _ _ _ h _ => h
      record := fun _ _ h => h
      steal := fun _ _ h _ => h
      addLabel := fun _ h => h
      bind := fun _ _ h => h }
  same _ _ _ _ _ h := h
  control _ _ h _ := h
  keeps _ _ _ _ := ⟨fun _ _ => trivial, fun _ _ => trivial⟩
  keep _ _ := trivial
  header _ _ _ := trivial
  merge _ _ _ _ _ := trivial
  pass _ _ _ _ _ := trivial
  label _ _ := trivial
  noted _ := False.elim
  entry _ _ _ _ := False.elim
  path _ _ := False.elim
  finish := False.elim

/-! ## At the stops -/

section

variable {t : CacheState} {T : CompileOptions → Array OutOfLine → Option SideRecord → Prop}

/-- The code of a check, all of it, is emitted in the state in which its slow paths are made, unless
it is a bounds check. -/
theorem Guard.check_rests {guard : Guard}
    (hguard : ∀ index lastByte pinned, guard ≠ .bounds index lastByte pinned)
    (h : ∀ s s' o, Rests t T s → s.Made s' o → o.position = ctx.pc →
      T s.options s'.outOfLine s'.work.sideRecord) : Preserves (Rests t T) (guard.check ctx) := by
  cases guard with
  | never stub => exact (Rests.addTrap h _ _).next fun _ => Rests.emit _
  | stack => exact Rests.stackCheck h
  | divisor op ty lhs rhs =>
    refine (Rests.addTrap h _ _).next fun _ => (Rests.emit _).next fun _ =>
      .ite (fun _ => ?_) fun _ => .done
    exact (Rests.addTrap h _ _).next fun _ => Rests.newLabel.next fun _ =>
      (Rests.emit _).next fun _ => (Rests.emit _).next fun _ => Rests.bindLabel _
  | conversion op dst src => exact (Rests.addTrap h _ _).next fun _ => Rests.emit _
  | callee sigId index table tmp scratch =>
    refine (Rests.addTrap h _ _).next fun _ => (Rests.emit _).next fun _ =>
      (Rests.emit _).next fun _ => .bind .get fun _ _ => .when (fun _ => Rests.maskIndex _ _ _) ?_
    exact (Rests.addTrap h _ _).next fun _ => (Rests.emit _).next fun _ =>
      (Rests.emit _).next fun _ =>
      (Rests.emit _).next fun _ => .next (Rests.emitting fun _ => rfl) fun _ => Rests.emit _
  | bounds index lastByte pinned => exact (hguard _ _ _ rfl).elim
  | access place => exact (Rests.addTrap h _ _).next fun _ => .done

/-- A check adds slow paths that are made in the state where it begins, and nothing else. -/
theorem Guard.check_maintains (guard : Guard) {s : Lowering} (hs : s.Records T)
    (h : ∀ s₁ s₂ o, Rests s.emitter.state T s₁ → s₁.Made s₂ o → o.position = ctx.pc →
      T s₁.options s₂.outOfLine s₂.work.sideRecord) :
    Maintains (Records T) (guard.check ctx) s fun _ _ => True := by
  have hrests : Rests s.emitter.state T s := ⟨rfl, hs⟩
  by_cases hbounds : ∃ index lastByte pinned, guard = .bounds index lastByte pinned
  · obtain ⟨index, lastByte, pinned, rfl⟩ := hbounds
    have hstill := steady_still T
    show Maintains _ (boundsCheck ctx index lastByte pinned) s _
    rw [boundsCheck_eq]
    have hadd := (Rests.addTrap h .trapMemOutOfBounds none s hrests).strengthen fun s' hs' => hs'.2
    refine hadd.bind fun trap s₁ hs₁ _ => ?_
    refine ((hstill.unusedReg .gp _).next fun size => (hstill.unusedReg .gp _).next fun limit => ?_)
      s₁ hs₁
    exact (hstill.emits <| hstill.emits <| .when (fun _ => hstill.emit _) <|
      hstill.emits <| hstill.emits <|
      .bind .get fun _ _ => .ite (fun _ => hstill.emits <| hstill.emit _) fun _ => .done)
  · have hguard : ∀ index lastByte pinned, guard ≠ .bounds index lastByte pinned :=
      fun index lastByte pinned heq => hbounds ⟨index, lastByte, pinned, heq⟩
    exact ⟨((guard.check_rests ctx hguard h) s hrests).always.2, fun _ _ _ => trivial⟩

end

/-! ### After a call -/

/-- What matters is how the last step ends. -/
theorem settles_last {α β : Type} {m : LowerM α} {k : α → LowerM β} {s : Lowering}
    {post : β → Lowering → Prop}
    (hk : ∀ x s', Settles (fun _ _ => True) (k x) s' post) :
      Settles (fun _ _ => True) (m >>= k) s post :=
  .bind (Q := fun _ _ => True) ⟨fun _ _ _ => trivial, fun _ _ _ => trivial⟩ fun x s' _ => hk x s'

theorem prepareCall_unbacked (params : List ValueType) (s : Lowering) :
    Settles (fun _ _ => True) (liftEmit (Emitter.prepareCall params)) s fun _ s' =>
      s'.emitter.state.Unbacked := by
  refine ⟨fun _ s' hrun => ?_, fun _ _ _ => trivial⟩
  rw [run_liftEmit] at hrun
  obtain ⟨hr, rfl⟩ := Prod.mk.inj hrun
  exact Emitter.unbacked_of_prepareCall (Prod.ext hr rfl)

theorem enterCall_unbacked (sig : Signature) (call : Instr Label) (s : Lowering) :
    Settles (fun _ _ => True) (enterCall ctx sig call) s fun _ s' => s'.emitter.state.Unbacked :=
  (prepareCall_unbacked _ s).bind fun _ _ hs => .modify_bind (.of_modify hs)

theorem enterStub_unbacked (stub : RuntimeStub) (params : List ValueType)
    (immediate : Option UInt64) (s : Lowering) :
    Settles (fun _ _ => True) (enterStub ctx stub params immediate) s fun _ s' =>
      s'.emitter.state.Unbacked := by
  refine (prepareCall_unbacked _ s).bind fun _ _ hs => ?_
  split
  · exact .modify_bind (.of_modify hs)
  · split
    · exact .of_throw trivial
    · exact .modify_bind (.modify_bind (.of_modify hs))

/-- Only at a breakpoint are values in registers where the code comes back. -/
theorem approachReturn_unbacked (e : Event) (s : Lowering) :
    Settles (fun _ _ => True) (approachReturn ctx e) s fun p s' => ∀ view, p.1 = some view →
      view ≠ .assumeSpilled ∧ (view = .didSpill → s'.emitter.state.Unbacked) := by
  have hcall {m : LowerM Unit} {s : Lowering} (rest : LowerM Reply)
      (hm : Settles (fun _ _ => True) m s fun _ s' => s'.emitter.state.Unbacked) :
      Settles (fun _ _ => True) (m >>= fun _ => pure (some RegisterView.didSpill, rest)) s
        fun p s' => ∀ view, p.1 = some view →
          view ≠ .assumeSpilled ∧ (view = .didSpill → s'.emitter.state.Unbacked) := by
    refine hm.bind fun _ s' hs => .of_pure ?_
    rintro _ ⟨⟩
    exact ⟨by decide, fun _ => hs⟩
  have hnone {s : Lowering} (rest : LowerM Reply) : Settles (fun _ _ => True)
      (pure (none, rest) : LowerM (Option RegisterView × LowerM Reply)) s
        fun p s' => ∀ view, p.1 = some view →
          view ≠ .assumeSpilled ∧ (view = .didSpill → s'.emitter.state.Unbacked) :=
    .of_pure (by rintro _ ⟨⟩)
  have hbulk (stub : RuntimeStub) (operands : Nat) (immediate : Option UInt64) (s : Lowering) :
      Settles (fun _ _ => True) (approachBulk ctx stub operands immediate) s
        fun p s' => ∀ view, p.1 = some view →
          view ≠ .assumeSpilled ∧ (view = .didSpill → s'.emitter.state.Unbacked) :=
    .get_bind <| .guard trivial fun _ => .guard trivial fun _ =>
      hcall _ (enterStub_unbacked ctx _ _ _ _)
  cases e with
  | nextInstruction op =>
    refine .get_bind <| .ite (fun _ => settles_last fun _ _ => settles_last fun _ s' => .of_pure ?_)
      fun _ => hnone _
    rintro _ ⟨⟩
    exact ⟨by decide, by rintro ⟨⟩⟩
  | call function sig =>
    refine settles_last fun _ s => .ite (fun _ => hcall _ ?_) fun _ =>
      hcall _ (enterCall_unbacked ctx _ _ s)
    exact settles_last fun _ _ => settles_last fun _ _ => settles_last fun _ _ =>
      settles_last fun _ _ => settles_last fun _ s' => enterCall_unbacked ctx _ _ s'
  | callIndirect _ callee sig =>
    refine settles_last fun _ _ => settles_last fun _ _ => hcall _ ?_
    exact settles_last fun _ _ => settles_last fun _ _ => settles_last fun _ _ =>
      settles_last fun _ _ => settles_last fun _ s' => enterCall_unbacked ctx _ _ s'
  | memoryGrow => exact hcall _ (enterStub_unbacked ctx _ _ _ _)
  | memoryInit | dataDrop | memoryCopy | memoryFill | tableInit | elemDrop | tableCopy =>
    exact hbulk _ _ _ _
  | _ => exact hnone _

theorem noteReturn_run (view : RegisterView) (s : Lowering) : (noteReturn view).run.run s =
    (.ok (), { s with work := { s.work with
      sideRecord := s.work.sideRecord.map fun r =>
        (r.add s.emitter.pc s.emitter.state view).2 } }) := by
  obtain ⟨options, ⟨emitter, positions, protections, _ | record⟩, control, outOfLine, pendingTest,
    frameSetup⟩ := s <;> rfl

end Lowering

open Lowering

/-! ## The stops of a run -/

theorem Maintains.traced {σ α : Type} {I : σ → Prop} {m : ExceptT Bailout (StateM σ) α} {s : σ}
    {post : α → σ → Prop} (h : Maintains I m s post) :
    Maintains I m s fun x s' => post x s' ∧ m.run.run s = (.ok x, s') :=
  ⟨h.always, fun x s' hrun => ⟨h.ends x s' hrun, hrun⟩⟩

/-- Where the code of a call stops for a check: what is checked, and the state there. -/
def Call.guard? (c : Call Lowering) : Option (Guard × Lowering) :=
  match (approach c.context c.event).run.run c.state with
  | (.ok (some guard, _), s) => some (guard, s)
  | _ => none

/-- Where the code of a call comes back from one: how registers are shown, and the state there. -/
def Call.return? (c : Call Lowering) : Option (RegisterView × Lowering) :=
  match (approachReturn c.context c.event).run.run c.state with
  | (.ok (some view, _), s) => some (view, s)
  | _ => none

/-- Every slow path was made for a check in one of the calls, and tells of the state there; every
entry is one of these, or lists the state where one of the calls comes back. -/
structure Told (calls : List (Call Lowering)) (paths : Array OutOfLine)
    (record : Option SideRecord) : Prop where
  checks : ∀ o ∈ paths, ∃ c ∈ calls, ∃ guard s, c.guard? = some (guard, s) ∧
    o.position = c.context.pc ∧ o.Tells s.emitter.state record
  entries : ∀ r, record = some r → ∀ (k : Nat) (e : SideEntry), r.entries[k]? = some e →
    (∃ o ∈ paths, o.entry = some k) ∨ ∃ c ∈ calls, ∃ view s, c.return? = some (view, s) ∧
      e.pc = s.emitter.pc ∧ e.values = s.emitter.state.slots.toList.map (.ofSlot view)
  claims : ∀ r, record = some r → ∃ claimed : List Nat,
    paths.toList.map OutOfLine.entry = claimed.map some ∧ claimed.Nodup ∧
      ∀ k ∈ claimed, k < r.entries.size

theorem SideRecord.size_add (r : SideRecord) (pc : Nat) (t : CacheState) (view : RegisterView) :
    (r.add pc t view).2.entries.size = r.entries.size + 1 := Array.size_push _

namespace Told

variable {calls calls' : List (Call Lowering)} {paths : Array OutOfLine}
    {record : Option SideRecord}
  {c : Call Lowering} {s s' s₀ : Lowering} {o : OutOfLine} {guard : Guard} {view : RegisterView}

theorem mono (h : Told calls paths record) (hcalls : ∀ c ∈ calls, c ∈ calls') :
    Told calls' paths record := by
  refine ⟨fun o ho => ?_, fun r hr k e he => ?_, h.claims⟩
  · obtain ⟨c, hc, htells⟩ := h.checks o ho
    exact ⟨c, hcalls c hc, htells⟩
  · obtain hpath | ⟨c, hc, hreturn⟩ := h.entries r hr k e he
    · exact .inl hpath
    · exact .inr ⟨c, hcalls c hc, hreturn⟩

theorem tells_add {t t' : CacheState} {r : SideRecord} (h : o.Tells t (some r)) (pc : Nat) :
    o.Tells t (some (r.add pc t' view).2) := by
  refine h.mono rfl ?_
  rintro _ _ ⟨⟩ ⟨⟩ i e he
  refine ⟨e, ?_, rfl⟩
  have hlt := (Array.getElem?_eq_some_iff.1 he).1
  exact (Array.getElem?_push_lt hlt).trans ((Array.getElem?_eq_getElem hlt).symm.trans he)

/-- The code comes back from a call. -/
theorem note (h : Told calls s.outOfLine s.work.sideRecord) (hc : c ∈ calls)
    (hreturn : c.return? = some (view, s)) : Told calls s.outOfLine
      (s.work.sideRecord.map fun r => (r.add s.emitter.pc s.emitter.state view).2) := by
  cases hrecord : s.work.sideRecord with
  | none => rwa [hrecord] at h
  | some r =>
    rw [hrecord] at h
    refine ⟨fun o ho => ?_, ?_, ?_⟩
    · obtain ⟨c, hc, guard, s, hguard, hposition, htells⟩ := h.checks o ho
      exact ⟨c, hc, guard, s, hguard, hposition, tells_add htells _⟩
    · rintro _ ⟨⟩ k e he
      rw [SideRecord.getElem?_add] at he
      split at he
      next =>
        cases he
        exact .inr ⟨c, hc, view, s, hreturn, rfl, rfl⟩
      next => exact h.entries r rfl k e he
    · rintro _ ⟨⟩
      obtain ⟨claimed, hclaimed, hnodup, hlt⟩ := h.claims r rfl
      refine ⟨claimed, hclaimed, hnodup, fun k hk => ?_⟩
      rw [SideRecord.size_add]
      exact Nat.lt_succ_of_lt (hlt k hk)

/-- A check makes a slow path. -/
theorem made (h : Told calls s.outOfLine s.work.sideRecord) (hmade : s.Made s' o) (hc : c ∈ calls)
    (hguard : c.guard? = some (guard, s₀)) (hstate : s.emitter.state = s₀.emitter.state)
    (hposition : o.position = c.context.pc) : Told calls s'.outOfLine s'.work.sideRecord := by
  have hsaved := hmade.saved
  have hpushed := hmade.pushed
  have hentry := hmade.entry
  rw [hmade.paths, hmade.record]
  rw [savedRegs] at hsaved
  cases hrecord : s.work.sideRecord with
  | none =>
    rw [hrecord] at h hsaved
    refine ⟨fun o' ho' => ?_, by rintro _ ⟨⟩, by rintro _ ⟨⟩⟩
    rcases Array.mem_push.1 ho' with ho' | rfl
    · exact h.checks o' ho'
    · exact ⟨c, hc, guard, s₀, hguard, hposition, hsaved, by rintro ⟨⟩, by rintro _ ⟨⟩⟩
  | some r =>
    rw [hrecord] at h hsaved hpushed hentry
    refine ⟨fun o' ho' => ?_, ?_, ?_⟩
    · rcases Array.mem_push.1 ho' with ho' | rfl
      · obtain ⟨c, hc, guard, s, hguard, hposition, htells⟩ := h.checks o' ho'
        exact ⟨c, hc, guard, s, hguard, hposition, tells_add htells _⟩
      · refine ⟨c, hc, guard, s₀, hguard, hposition, ?_, fun _ => hpushed rfl, ?_⟩
        · rw [hsaved, ← hstate]
          rfl
        · rintro _ ⟨⟩
          exact ⟨_, _, hentry, Array.getElem?_push_size, by rw [hstate]⟩
    · rintro _ ⟨⟩ k e he
      rw [SideRecord.getElem?_add] at he
      split at he
      next hk => exact .inl ⟨o, Array.mem_push_self, by rw [hentry, hk]; rfl⟩
      next =>
        obtain ⟨o', ho', hk⟩ | hreturn := h.entries r rfl k e he
        · exact .inl ⟨o', Array.mem_push.2 (.inl ho'), hk⟩
        · exact .inr hreturn
    · rintro _ ⟨⟩
      obtain ⟨claimed, hclaimed, hnodup, hlt⟩ := h.claims r rfl
      refine ⟨claimed ++ [r.entries.size], ?_, ?_, fun k hk => ?_⟩
      · rw [Array.toList_push, map_append, hclaimed, map_append, map_singleton, hentry]
        rfl
      · refine nodup_append.2 ⟨hnodup, nodup_singleton _, ?_⟩
        rintro k hk _ hlast rfl
        rw [mem_singleton.1 hlast] at hk
        exact Nat.lt_irrefl _ (hlt _ hk)
      · rw [SideRecord.size_add]
        rcases mem_append.1 hk with hk | hk
        · exact Nat.lt_succ_of_lt (hlt k hk)
        · rw [mem_singleton.1 hk]
          exact Nat.lt_succ_self _

/-- What a call adds is told of. -/
theorem handle {ctx : Context} {e : Event} (h : Told calls s.outOfLine s.work.sideRecord)
    (hc : ⟨ctx, e, s⟩ ∈ calls) (he : e ≠ .finishFunction) :
    Told calls (Backend.compiler.handle ctx e s).2.outOfLine
      (Backend.compiler.handle ctx e s).2.work.sideRecord := by
  obtain ⟨T, hT⟩ : ∃ T : CompileOptions → Array OutOfLine → Option SideRecord → Prop,
      T = fun options paths record => options = s.options ∧ Told calls paths record := ⟨_, rfl⟩
  have hstill := steady_still T
  have hs : s.Records T := by
    rw [hT]
    exact ⟨rfl, h⟩
  have hoptions : ∃ options, ∀ s' : Lowering, s'.Records T → s'.options = options :=
    ⟨s.options, fun s' hs' => by rw [hT] at hs'; exact hs'.1⟩
  have hcheck {s₁ : Lowering} (guard : Guard) (hs₁ : s₁.Records T)
      (hguard : Call.guard? ⟨ctx, e, s⟩ = some (guard, s₁)) :
      Maintains (Records T) (guard.check ctx) s₁ fun _ _ => True := by
    refine guard.check_maintains ctx hs₁ fun s₂ s₃ o hrests hmade hposition => ?_
    rw [hT] at hrests ⊢
    exact ⟨hrests.2.1, hrests.2.2.made hmade hc hguard hrests.1 hposition⟩
  have hnote {s₁ : Lowering} (view : RegisterView) (hs₁ : s₁.Records T)
      (hreturn : Call.return? ⟨ctx, e, s⟩ = some (view, s₁)) :
      Maintains (Records T) (noteReturn view) s₁ fun _ _ => True := by
    refine ⟨?_, fun _ _ _ => trivial⟩
    rw [noteReturn_run]
    rw [hT] at hs₁ ⊢
    exact ⟨hs₁.1, hs₁.2.note hc hreturn⟩
  suffices hend : Maintains (Records T) (Lowering.handle ctx e) s fun _ _ => True by
    have halways := hend.always
    rw [hT] at halways
    exact halways.2
  cases hview : e.view?.isSome with
  | true =>
    have hreturns : Maintains (Records T) (approachReturn ctx e) s fun p _ =>
        Preserves (Records T) p.2 := by
      cases hpaths : e.makesPaths with
      | false => exact hstill.approachReturn ctx hview hpaths s hs
      | true =>
        -- the only event with checks and a call
        cases e with
        | callIndirect _ callee sig =>
          refine (hstill.reachCallee ctx callee sig s hs).traced.bind fun p s₁ hs₁ hp => ?_
          have hcalled : Preserves (Records T) (do
              enterCallee ctx sig p.1 p.2.1
              pure (some RegisterView.didSpill, leaveCall sig.results.head?))
              fun p => Preserves (Records T) p.2 :=
            (hstill.enterCallee ctx _ _ _).next fun _ => .pure (hstill.leaveCall fun _ _ => trivial)
          refine (hcheck p.2.2 hs₁ ?_).bind fun _ s₂ hs₂ _ => hcalled s₂ hs₂
          rw [Call.guard?, approach, Settles.run_run_bind, hp.2]
          rfl
        | _ => cases hpaths <;> cases hview
    rw [handle_eq_approachReturn]
    refine hreturns.traced.bind fun p s₁ hs₁ hp => ?_
    obtain ⟨_ | view, rest⟩ := p
    · exact hp.1 s₁ hs₁
    · refine (hnote view hs₁ ?_).bind fun _ s₂ hs₂ _ => hp.1 s₂ hs₂
      rw [Call.return?, hp.2]
  | false =>
    have hview : e.view? = none := Option.not_isSome_iff_eq_none.1 (by simp [hview])
    cases hpaths : e.makesPaths with
    | false =>
      refine hstill.handle ctx e hs (fun _ _ => trivial) he ?_ ?_ ?_ (fun _ _ _ _ _ _ _ => trivial)
        fun _ _ => trivial
      · exact fun h => by simp [hpaths] at h
      · exact fun h _ => by simp [Event.makesPaths_of_isAccess h] at hpaths
      · exact fun view h => by simp [hview] at h
    | true =>
      rw [handle_eq_approach]
      have hway := hstill.approach ctx trivial hpaths (fun _ _ => trivial) s hs
      refine hway.traced.bind fun p s₁ hs₁ hp => ?_
      have hrest := hp.1 hoptions hview
      obtain ⟨_ | guard, rest⟩ := p
      · exact hrest s₁ hs₁
      · refine (hcheck guard hs₁ ?_).bind fun _ s₂ hs₂ _ => hrest s₂ hs₂
        rw [Call.guard?, hp.2]

end Told

theorem Backend.Leads.told {options : CompileOptions} {s : Lowering} {calls : List (Call Lowering)}
    (h : Backend.compiler.Leads (.start options) calls s)
      (hcalls : ∀ c ∈ calls, c.event ≠ .finishFunction) :
    Told calls s.outOfLine s.work.sideRecord := by
  induction h with
  | nil =>
    refine ⟨by rintro _ ⟨⟨⟩⟩, fun r hr k e he => ?_,
      fun r _ => ⟨[], rfl, nodup_nil, forall_mem_nil _⟩⟩
    have hempty : r.entries = #[] := by
      have hstart : (if options.wantsSideTable then some ({} : SideRecord) else none) = some r := hr
      split at hstart <;> cases hstart
      rfl
    rw [hempty] at he
    cases he
  | @snoc calls s ctx e _ ih =>
    have htold := ih fun c hc => hcalls c (mem_append_left _ hc)
    exact (htold.mono fun c => mem_append_left _).handle (mem_append_right _ mem_cons_self)
      (hcalls ⟨ctx, e, s⟩ (mem_append_right _ mem_cons_self))

/-- What all changes keep is known where a check begins. -/
theorem Call.holds_guard? {c : Call Lowering} {guard : Guard} {s : Lowering}
    (h : c.guard? = some (guard, s)) (hgiven : Decode.Given c)
    {fits : Location → ValueType → Prop} {C L J : CacheState → Prop}
    (hstable : Stable fits C L J True) (hc : c.state.Holds C L J) : C s.emitter.state := by
  have hpaths : c.event.makesPaths = true := by
    obtain ⟨ctx, e, s₀⟩ := c
    cases e with
    | startBody | loop | unreachable | unary | binary | load | store | callIndirect => rfl
    | _ => cases h
  have halways := (hstable.steady.approach c.context trivial hpaths
    (fun ty hty => hstable.stack ty (hgiven.scalar ty hty)) c.state hc).always
  rcases hrun : (approach c.context c.event).run.run c.state with ⟨_ | ⟨_ | guard', rest⟩, s'⟩ <;>
    rw [Call.guard?, hrun] at h <;> cases h
  rw [hrun] at halways
  exact halways.1

/-! ## The end of a function -/

namespace Lowering

theorem isSome_generateAll (paths : List OutOfLine) (a : Assembly) :
    (generateAll a paths).sideRecord.isSome = a.sideRecord.isSome := by
  induction paths generalizing a with
  | nil => rfl
  | cons o paths ih =>
    refine (ih (o.generate a)).trans ?_
    show (o.setEntry _ a.sideRecord).isSome = _
    unfold OutOfLine.setEntry
    split
    next hrecord => rw [hrecord]; rfl
    next => rfl

/-- The slow paths are generated: each one has its entry where it comes back from the runtime. -/
theorem entries_generateAll (paths : List OutOfLine) (a : Assembly) (front : List (Instr Label))
    {is : List (Instr Label)} {r : SideRecord} {claimed : List Nat}
      (hspells : a.emitter.buffer.Spells is)
    (hfront : Instr.codeSize is = Instr.codeSize front) (hr : a.sideRecord = some r)
    (hclaimed : paths.map OutOfLine.entry = claimed.map some) (hnodup : claimed.Nodup) :
    ∃ r', (generateAll a paths).sideRecord = some r' ∧
      (∀ k ∉ claimed, r'.entries[k]? = r.entries[k]?) ∧
      ∀ earlier o later k, paths = earlier ++ o :: later → o.entry = some k →
        r'.entries[k]? = r.entries[k]?.map fun e => { e with
          pc := Instr.codeSize (front ++ earlier.flatMap OutOfLine.code ++ o.saveCode ++
            [.callStub o.stub]) } := by
  induction paths generalizing a is front r claimed with
  | nil =>
    refine ⟨r, hr, fun _ _ => rfl, fun earlier o later k hpaths => ?_⟩
    simp at hpaths
  | cons o paths ih =>
    cases claimed with
    | nil => cases hclaimed
    | cons first claimed =>
      obtain ⟨hentry, hclaimed⟩ := cons.inj hclaimed
      obtain ⟨hfirst, hnodup⟩ := nodup_cons.1 hnodup
      have hfront' : Instr.codeSize (is ++ o.code) = Instr.codeSize (front ++ o.code) := by
        rw [Instr.codeSize_append, hfront, Instr.codeSize_append]
      obtain ⟨pc, hpc⟩ : ∃ pc, pc = Instr.codeSize (front ++ o.saveCode ++ [.callStub o.stub]) :=
        ⟨_, rfl⟩
      have hset : (o.generate a).sideRecord = some (r.setPc first pc) := by
        have hcalled : (((a.emitter.bind o.label).emitAll o.saveCode).emit (.callStub o.stub)).pc =
            pc := by
          rw [Emitter.emitAll_eq, hpc, Instr.codeSize_append, Instr.codeSize_append, ← hfront,
            ← Instr.codeSize_append, ← Instr.codeSize_append]
          exact (((hspells.bind o.label).emits o.saveCode).emit _).size
        rw [← hcalled, ← OutOfLine.setEntry_some hentry, ← hr]
        rfl
      obtain ⟨r', hr', hkept, hplaced⟩ :=
        ih (o.generate a) (front ++ o.code) (spells_generate hspells o) hfront' hset hclaimed hnodup
      refine ⟨r', hr', fun k hk => ?_, fun earlier o' later k hpaths hk => ?_⟩
      · have hne : first ≠ k := fun heq => hk (heq ▸ mem_cons_self)
        rw [hkept k fun h => hk (mem_cons_of_mem _ h), SideRecord.getElem?_setPc, if_neg hne]
      · cases earlier with
        | nil =>
          cases hpaths
          cases hentry.symm.trans hk
          rw [hkept first hfirst, SideRecord.getElem?_setPc, if_pos rfl,
            hpc, flatMap_nil, append_nil]
        | cons _ earlier =>
          cases hpaths
          have hmem : k ∈ claimed := by
            have hmap : some k ∈ claimed.map some := hclaimed ▸ mem_map.2 ⟨o', by simp, hk⟩
            obtain ⟨_, hmem, ⟨⟩⟩ := mem_map.1 hmap
            exact hmem
          have hne : first ≠ k := fun heq => hfirst (heq ▸ hmem)
          rw [hplaced earlier o' later k rfl hk, SideRecord.getElem?_setPc,
            if_neg hne, flatMap_cons]
          simp only [append_assoc]

end Lowering

/-! ## What the side table shows -/

/-- The entry is where the code of one of the calls comes back from a call, a stub or a breakpoint.
It lists the slots of the state there, and a debugger reads their values from it. -/
def SideEntry.OfReturn (e : SideEntry) (calls : List (Call Lowering)) : Prop :=
  ∃ c ∈ calls, ∃ view s, c.return? = some (view, s) ∧ e.pc = s.emitter.pc ∧
    e.Lists s.emitter.state view ∧ ∀ d, e.Shows s.emitter.state d d

/-- The entry is where a slow path behind the code in front comes back from the runtime. The path is
one of a check in the code of one of the calls: it saves the registers that back slots where the
check begins, and a debugger reads from the entry what these slots stood for when the path was
entered. -/
def SideEntry.OfPath (e : SideEntry) (calls : List (Call Lowering)) (front : List (Instr Label))
    (o : OutOfLine) : Prop :=
  e.pc = Instr.codeSize (front ++ o.saveCode ++ [.callStub o.stub]) ∧
  ∃ c ∈ calls, ∃ guard s, c.guard? = some (guard, s) ∧ o.position = c.context.pc ∧
    o.saved = s.emitter.state.savedRegs ∧ e.Lists s.emitter.state .assumeSpilled ∧
    (s.emitter.state.Addressable → ∀ d, ∃ d', Instr.moveAll? o.saveCode d = some d' ∧
      e.Shows s.emitter.state d d')

theorem Call.return?_view {c : Call Lowering} {view : RegisterView} {s : Lowering}
    (h : c.return? = some (view, s)) :
    view ≠ .assumeSpilled ∧ (view = .didSpill → s.emitter.state.Unbacked) := by
  have hends := (approachReturn_unbacked c.context c.event c.state).ends
  rcases hrun : (approachReturn c.context c.event).run.run c.state with ⟨_ | ⟨_ | view', rest⟩, s'⟩
    <;>
    rw [Call.return?, hrun] at h <;> cases h
  exact hends _ _ hrun view rfl

/-- The function is finished: every entry is one of a return or of a path, and every path has
one. -/
theorem Told.finish {calls : List (Call Lowering)} {s s' : Lowering} {ctx : Context}
    {rest : List (Instr Label)} {r' : SideRecord} (h : Told calls s.outOfLine s.work.sideRecord)
    (hplaced : ∀ c guard s, c ∈ calls → c.guard? = some (guard, s) →
      s.emitter.state.Placed ∧ s.emitter.state.Scalar)
    (hspells : s.emitter.buffer.Spells (.enterFrame 0 :: rest))
    (hs : s' = (Backend.compiler.handle ctx .finishFunction s).2) (hsetup : s'.frameSetup = 0)
    (hr' : s'.work.sideRecord = some r') : let paths := s'.outOfLine.toList
    ∃ front, Instr.Fill s'.emitter.buffer.code (front ++ paths.flatMap OutOfLine.code) ∧
      (∀ e ∈ r'.entries, e.OfReturn calls ∨ ∃ earlier o later, paths = earlier ++ o :: later ∧
        e.OfPath calls (front ++ earlier.flatMap OutOfLine.code) o) ∧
      ∀ earlier o later, paths = earlier ++ o :: later → ∃ e ∈ r'.entries,
        e.OfPath calls (front ++ earlier.flatMap OutOfLine.code) o := by
  intro paths
  obtain ⟨size, hfill⟩ := fill_finishFunction hspells hs hsetup
  rw [handle_finishFunction] at hs
  have hpaths : paths = s.outOfLine.toList := by
    show s'.outOfLine.toList = _
    rw [hs]
    rfl
  have hrecord : (generateAll s.work s.outOfLine.toList).sideRecord = some r' := by
    rw [← hr', hs]
    rfl
  obtain ⟨r, hr⟩ : ∃ r, s.work.sideRecord = some r := by
    refine Option.isSome_iff_exists.1 ?_
    rw [← isSome_generateAll s.outOfLine.toList, hrecord]
    rfl
  rw [hr] at h
  obtain ⟨claimed, hclaimed, hnodup, -⟩ := h.claims r rfl
  obtain ⟨front, hfront⟩ : ∃ front : List (Instr Label), front = .enterFrame size :: rest :=
    ⟨_, rfl⟩
  obtain ⟨_, hrecord', hkept, hset⟩ := entries_generateAll s.outOfLine.toList s.work front hspells
    (hfront ▸ codeSize_enterFrame 0 size rest) hr hclaimed hnodup
  cases hrecord'.symm.trans hrecord
  have hpath (earlier : List OutOfLine) (o : OutOfLine) (later : List OutOfLine)
      (heq : paths = earlier ++ o :: later) : ∃ k e, o.entry = some k ∧ r'.entries[k]? = some e ∧
        e.OfPath calls (front ++ earlier.flatMap OutOfLine.code) o := by
    have ho : o ∈ s.outOfLine := Array.mem_toList_iff.1 (hpaths ▸ heq ▸ by simp)
    obtain ⟨c, hc, guard, s₁, hguard, hposition, htells⟩ := h.checks o ho
    obtain ⟨k, e, hk, he, hvalues⟩ := htells.entry r rfl
    refine ⟨k, _, hk, (hset earlier o later k (hpaths ▸ heq) hk).trans (congrArg _ he),
      rfl, c, hc, guard, s₁,
      hguard, hposition, htells.saved, ⟨hvalues, by rintro ⟨⟩⟩, fun haddressable d => ?_⟩
    obtain ⟨hplaced, hscalar⟩ := hplaced c guard s₁ hc hguard
    exact htells.shows hplaced (hscalar.encodable haddressable) hvalues d
  refine ⟨front, ?_, fun e he => ?_, fun earlier o later heq => ?_⟩
  · rwa [hpaths, hfront]
  · obtain ⟨k, hk⟩ := Array.getElem?_of_mem he
    by_cases hmem : k ∈ claimed
    · have hmap : some k ∈ s.outOfLine.toList.map OutOfLine.entry :=
        hclaimed ▸ mem_map.2 ⟨k, hmem, rfl⟩
      obtain ⟨o, ho, hentry⟩ := mem_map.1 hmap
      obtain ⟨earlier, later, heq⟩ := append_of_mem ho
      obtain ⟨k', e', hk', he', hof⟩ := hpath earlier o later (hpaths.trans heq)
      cases hentry.symm.trans hk'
      cases hk.symm.trans he'
      exact .inr ⟨earlier, o, later, hpaths.trans heq, hof⟩
    · rw [hkept k hmem] at hk
      obtain ⟨o, ho, hentry⟩ | ⟨c, hc, view, s₁, hreturn, hpc, hvalues⟩ := h.entries r rfl k e hk
      · have hmap : some k ∈ claimed.map some :=
          hclaimed ▸ mem_map.2 ⟨o, Array.mem_toList_iff.2 ho, hentry⟩
        obtain ⟨_, hclaim, ⟨⟩⟩ := mem_map.1 hmap
        exact (hmem hclaim).elim
      · obtain ⟨hview, hunbacked⟩ := Call.return?_view hreturn
        have hlists : e.Lists s₁.emitter.state view := ⟨hvalues, hunbacked⟩
        exact .inl ⟨c, hc, view, s₁, hreturn, hpc, hlists, hlists.shows hview⟩
  · obtain ⟨_, e, -, he, hof⟩ := hpath earlier o later heq
    exact ⟨e, Array.mem_of_getElem? he, hof⟩

/-- What the side table shows. The code of every event is that up to its check, the check and the
rest, and also that up to where it comes back from a call, the entry and the rest. Every entry of
the table is where one of the calls of the run comes back, or where one of the slow paths does,
which stand at the end of the code: then it shows the state where the check that branches to the
path begins. This is also the state where it branches, unless the check is a bounds check. That one
branches when it has registers for itself: if two are free the path saves what it should, otherwise
also up to two registers that back slots no longer. -/
theorem sideTable_shows_states {module : Module} {sig : Signature} {body : Array UInt8}
    {decoderOptions : DecoderOptions} {options : CompileOptions} {f : CompiledFunction}
    {table : SideTable} (hcompile : compileFunction module sig body decoderOptions options = .ok f)
    (htable : f.sideTable = some table) :
    (∀ ctx e, handle ctx e = approach ctx e >>= passCheck ctx ∧
      handle ctx e = approachReturn ctx e >>= passReturn) ∧
    (let calls := compileCalls module sig body decoderOptions options
    ∃ s front, decodeBody .compiler (.start options) module sig body decoderOptions = (.ok (), s) ∧
      f = .ofLowering s ∧ Instr.Fill f.code (front ++ s.outOfLine.toList.flatMap OutOfLine.code) ∧
      (∀ e ∈ table.entries, e.OfReturn calls ∨
        ∃ earlier o later, s.outOfLine.toList = earlier ++ o :: later ∧
          e.OfPath calls (front ++ earlier.flatMap OutOfLine.code) o) ∧
      ∀ earlier o later, s.outOfLine.toList = earlier ++ o :: later → ∃ e ∈ table.entries,
        e.OfPath calls (front ++ earlier.flatMap OutOfLine.code) o) ∧
    (∀ ctx (guard : Guard) t, (∀ index lastByte pinned, guard ≠ .bounds index lastByte pinned) →
      Preserves (fun s => s.emitter.state = t) (guard.check ctx)) ∧
    ∀ ctx index lastByte pinned s s',
      ((Guard.bounds index lastByte pinned).check ctx).run.run s = (.ok (), s') →
      ∃ taken : List Reg, taken.length ≤ 2 ∧
        s'.emitter.state.savedRegs = s.emitter.state.savedRegs.filter (·.reg ∉ taken) ∧
        (RoomForCheck s.emitter.state (pinned.insert index) →
          s'.emitter.state = s.emitter.state) := by
  obtain ⟨s, code, hrun, rfl, hfinished⟩ :=
    finished_of_compileFunction (Regime.fits_lax module sig decoderOptions) hcompile
  obtain ⟨calls, s₀, ctx, hcalls, hleads, hinside, ⟨-, _, ⟨rest, rfl⟩, hspells, -⟩, hs⟩ :=
    compileCalls_ledger hrun
  obtain ⟨record, hrecord, rfl⟩ := Option.map_eq_some_iff.1 htable
  have htold : Told (compileCalls module sig body decoderOptions options)
      s₀.outOfLine s₀.work.sideRecord :=
    (hleads.told hinside).mono fun c hc => hcalls ▸ mem_append_left _ hc
  have hplaced (c : Call Lowering) (guard : Guard) (s : Lowering)
      (hc : c ∈ compileCalls module sig body decoderOptions options)
      (hguard : c.guard? = some (guard, s)) :
      s.emitter.state.Placed ∧ s.emitter.state.Scalar := by
    have hgiven := given_of_mem_compileCalls hc
    refine ⟨Call.holds_guard? hguard hgiven stable_placed (holds_of_mem_compileCalls hc
      stable_placed (fun _ _ _ => trivial) (CacheState.placed_empty _)), ?_⟩
    exact Call.holds_guard? hguard hgiven CacheState.stable_scalar (holds_of_mem_compileCalls hc
      CacheState.stable_scalar (fun _ _ hty => hty) (forall_mem_nil _))
  obtain ⟨front, hfill, hentries, hpaths⟩ := htold.finish hplaced hspells hs hfinished.setup hrecord
  refine ⟨fun ctx e => ⟨handle_eq_approach ctx e, handle_eq_approachReturn ctx e⟩,
    ⟨s, front, hrun, rfl, hfill, fun e he => hentries e (SideTable.mem_ofRecord.1 he),
      fun earlier o later heq => ?_⟩, fun ctx guard t hguard s hs => ?_,
    fun _ _ _ _ _ _ => boundsCheck_ends⟩
  · obtain ⟨e, he, hof⟩ := hpaths earlier o later heq
    exact ⟨e, SideTable.mem_ofRecord.2 he, hof⟩
  · have hrests := guard.check_rests (T := fun _ _ _ => True)
      ctx hguard (fun _ _ _ _ _ _ => trivial) s ⟨hs, trivial⟩
    exact ⟨hrests.always.1, fun _ _ _ => trivial⟩

/-- A load in a function whose eight parameters take all registers. The bounds check takes two of
them, and its slow path saves these as well: over the values of the parameters, which are in the
frame by then. -/
theorem sideTable_shows_states_load :
    let module : Module := { memory := some ⟨1, none⟩ }
    let sig : Signature := ⟨List.replicate 8 .i32, [.i32]⟩
    let body : Array UInt8 := #[0x00, 0x20, 0x00, 0x28, 0x02, 0x00, 0x0B]
    let options : CompileOptions := { sideTable := true }
    ∃ f table, compileFunction module sig body {} options = .ok f ∧ f.sideTable = some table ∧
      (∃ s front, f = .ofLowering s ∧ ∀ earlier o later,
        s.outOfLine.toList = earlier ++ o :: later →
        ∃ e ∈ table.entries, e.OfPath (compileCalls module sig body {} options)
          (front ++ earlier.flatMap OutOfLine.code) o) ∧
      ∃ c ∈ compileCalls module sig body {} options, ∃ guard s s', c.guard? = some (guard, s) ∧
        (guard.check c.context).run.run s = (.ok (), s') ∧
        s.emitter.state.savedRegs.length = 8 ∧ s'.emitter.state.savedRegs.length = 6 := by
  intro module sig body options
  obtain ⟨compiled, hcompiled⟩ :
      ∃ compiled, compiled = compileFunction module sig body {} options :=
    ⟨_, rfl⟩
  have htable : compiled.toOption.map (·.sideTable.isSome) = some true := by
    rw [hcompiled]
    decide +kernel
  let check (c : Call Lowering) (p : Guard × Lowering) : Except Bailout Unit × Lowering :=
    (p.1.check c.context).run.run p.2
  have hstale : ((compileCalls module sig body {} options).find? fun c => c.guard?.any fun p =>
      (check c p).1.toOption.isSome && p.2.emitter.state.savedRegs.length == 8 &&
        (check c p).2.emitter.state.savedRegs.length == 6).isSome = true := by decide +kernel
  cases compiled with
  | error e => cases htable
  | ok f =>
    obtain ⟨table, ht⟩ := Option.isSome_iff_exists.1 (Option.some.inj htable)
    obtain ⟨-, ⟨s, front, -, hs, -, -, hpaths⟩, -⟩ := sideTable_shows_states hcompiled.symm ht
    refine ⟨f, table, hcompiled.symm, ht, ⟨s, front, hs, hpaths⟩, ?_⟩
    obtain ⟨c, hc⟩ := Option.isSome_iff_exists.1 hstale
    have hfound := List.find?_some hc
    cases hguard : c.guard? with
    | none =>
      rw [hguard] at hfound
      cases hfound
    | some p =>
      rw [hguard, Option.any_some, Bool.and_eq_true, Bool.and_eq_true, beq_iff_eq,
        beq_iff_eq] at hfound
      rcases hrun : check c p with ⟨_ | _, s'⟩ <;> rw [hrun] at hfound
      · cases hfound.1.1
      · exact ⟨c, List.mem_of_find?_eq_some hc, p.1, p.2, s', hguard, hrun, hfound.1.2, hfound.2⟩

end OnePass
