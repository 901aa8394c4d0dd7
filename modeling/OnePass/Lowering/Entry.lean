import OnePass.Lowering.Basic

/-!
The start of a function: the frame, the parameters, the declared locals. And its end.
-/
namespace OnePass

namespace Lowering

/-- Up to so many declared locals start as the constant zero if they are integers. -/
def maxConstantLocals : Nat := 16

/-- Refuse functions with values or results that code generation does not handle. -/
def startFunction (ctx : Context) : LowerM Unit := do
  if ctx.sig.results.length > 1 then throw ⟨.multiValue, "multiple return values"⟩
  ctx.sig.results.forM (requireScalar "result")
  ctx.locals.forM (requireScalar "local")
  emitting fun e => { e with numLocals := ctx.locals.size }

/-- Push a parameter that the caller passed on the stack. -/
def stackParam (ty : ValueType) (index : Nat) : LowerM Unit := do
  let c := RegClass.ofType ty
  match (← get).emitter.state.unused? c .empty with
  | some r =>
    emit (.loadStackArg ty r (.ofNat index))
    pushReg ty r
  | none =>
    emit (.loadStackArg ty (.scratch c) (.ofNat index))
    emitting fun e =>
      let pushed := e.modifyState (·.push ty .stack)
      pushed.spill ty pushed.state.topOffset (.scratch c)

/-- Parameters stay in their registers; those on the stack are loaded if a register is free. -/
def params (types : List ValueType) : LowerM Unit :=
  (types.zip (ArgPlace.ofTypes types)).forM fun (ty, place) =>
    match place with
    | .reg r => pushReg ty r
    | .stack index => stackParam ty index

/-- Push the slots of the declared locals. -/
def pushLocals (types : List ValueType) (s : CacheState) : CacheState :=
  let few := decide (types.length ≤ maxConstantLocals)
  types.foldl (fun s ty => s.push ty (if few && ty.isInteger then .const 0 else .stack)) s

/-- The part of the frame that the given slots of the frame span, from above the first one. -/
def stackSpan? (slots : List Slot) : Option (Nat × Nat) :=
  let offsets := slots.filterMap fun s => if s.loc = .stack then some s.offset else none
  match offsets with
  | [] => none
  | first :: rest =>
    let low := rest.foldl min first
    let high := rest.foldl max first
    some (low - 8, high - low + 8)

/-- Declared locals are zero. -/
def declareLocals (types : List ValueType) : LowerM Unit :=
  emitting fun e =>
    let declared := e.modifyState (pushLocals types)
    match stackSpan? (declared.state.slots.toList.drop e.state.height) with
    | some (start, size) => declared.emit (.zeroSlots (.ofNat start) (.ofNat size))
    | none => declared

/-- Call the tracer with everything in the frame. -/
def traceEntry (position : Nat) : LowerM Unit := do
  emitting (·.spillAllRegs)
  recordPosition position
  emit (.callStub .traceEnter)
  emitting (·.fill .i64 .instanceReg instanceOffset)

/-- Code in front of the first instruction. -/
def startBody (ctx : Context) : LowerM Unit := do
  let setup := (← get).emitter.pc
  modify fun s => { s with frameSetup := setup }
  emit (.enterFrame 0)
  emitting (·.spill .i64 instanceOffset .instanceReg)
  params ctx.sig.params
  if ctx.locals.size < ctx.sig.params.length then
    throw (.internal "fewer locals than parameters")
  declareLocals (ctx.locals.toList.drop ctx.sig.params.length)
  stackCheck ctx.pc
  if (← get).options.traceEntry then traceEntry ctx.pc
  let label ← newLabel
  modify fun s => { s with control := { label } :: s.control }

/-- Return with the topmost value. -/
def ret (ctx : Context) : LowerM Unit := do
  match ctx.sig.results with
  | ty :: _ =>
    let value ← peekSlot
    emitting (·.loadSlot value (.result ty))
  | [] => pure ()
  emit .leaveFrame
  emit .ret

end Lowering

end OnePass
