import OnePass.Lowering.Control

/-!
Constants, operators, locals and `select`.
-/
namespace OnePass

namespace Lowering

/-- Constants that fit 32 bits need no code yet. -/
def constant : Constant → LowerM Unit
  | .i32 value => pushAt .i32 (.const value)
  | .i64 value => do
    if value.toInt32.toInt64 = value then
      pushAt .i64 (.const value.toInt32)
    else
      let r ← unusedReg .gp
      emitting (·.loadBits .i64 r value.toUInt64)
      pushReg .i64 r
  | .f32 bits => float .f32 bits.toUInt64
  | .f64 bits => float .f64 bits
  | .v128 _ => throw ⟨.simd, "v128.const"⟩
where
  float (ty : ValueType) (bits : UInt64) : LowerM Unit := do
    let r ← unusedReg .fp
    emitting (·.loadBits ty r bits)
    pushReg ty r

/-- References are null exactly if they are zero. -/
def refIsNull : LowerM Unit := do
  let src ← popToReg
  let dst ← unusedRegFrom .gp (.ofList [src])
  emit (.unary (.unary (.eqz .w64)) dst src)
  pushReg .i32 dst

def unary (ctx : Context) (op : UnaryOp) (result : ValueType) : LowerM Unit := do
  if op = .eqz .w32 && (← fusesWithBranch ctx) then
    modify fun s => { s with pendingTest := some (.unary op) }
  else
    let src ← popToReg
    let dst ← unusedRegFrom (.ofType result) (.ofList [src])
    if op.isTrapping then
      let trap ← addTrap .trapFloatUnrepresentable ctx.pc
      emit (.unaryTrapping (.unary op) dst src trap)
    else emit (.unary (.unary op) dst src)
    pushReg result dst

/-- The least value of an integer type. -/
def leastInt (ty : ValueType) : Int64 :=
  if ty = .i32 then Int32.minValue.toInt64 else Int64.minValue

/-- A zero divisor traps; so does, for the signed quotient, the least value divided by minus one. -/
def divisorChecks (ctx : Context) (op : IntBinary) (ty : ValueType) (lhs rhs : Reg) :
    LowerM Unit := do
  let zeroStub := if op.isRemainder then .trapRemByZero else .trapDivByZero
  let divByZero ← addTrap zeroStub ctx.pc
  emit (.condJump .equal ty rhs none divByZero)
  if op = .divS then
    let unrepresentable ← addTrap .trapDivUnrepresentable ctx.pc
    let continuation ← newLabel
    emit (.condJumpImm .notEqual ty rhs (-1) continuation)
    emit (.condJumpImm .equal ty lhs (leastInt ty) unrepresentable)
    bindLabel continuation

/-- Division and remainder. -/
def division (ctx : Context) (w : Width) (op : IntBinary) (ty : ValueType) : LowerM Unit := do
  let rhs ← popToReg
  let lhs ← popToReg (.ofList [rhs])
  let dst ← unusedReg .gp (.ofList [lhs, rhs])
  divisorChecks ctx op ty lhs rhs
  emit (.binary (.binary (.int w op)) dst lhs rhs)
  pushReg ty dst

/-- An operator without checks. A constant right operand goes into the instruction if it can. -/
def plainBinary (op : BinaryOp) (result : ValueType) : LowerM Unit := do
  let imm ← if op.hasImmediateForm then (do return (← peekSlot).const?) else pure none
  match imm with
  | some imm =>
    let _ ← popSlot
    let lhs ← popToReg
    let dst ← unusedRegFrom (.ofType result) (.ofList [lhs])
    emit (.binaryImm (.binary op) dst lhs imm)
    pushReg result dst
  | none =>
    let rhs ← popToReg
    let lhs ← popToReg (.ofList [rhs])
    let dst ← unusedRegFrom (.ofType result) (.ofList [lhs, rhs])
    emit (.binary (.binary op) dst lhs rhs)
    pushReg result dst

def binary (ctx : Context) (op : BinaryOp) (operand result : ValueType) : LowerM Unit := do
  match Cond.ofI32Comparison? (.binary op) with
  | some _ =>
    if ← fusesWithBranch ctx then modify fun s => { s with pendingTest := some (.binary op) }
    else plainBinary op result
  | none =>
    match op with
    | .int w intOp =>
      if intOp.isDivision then division ctx w intOp operand else plainBinary op result
    | _ => plainBinary op result

def select (ty : ValueType) : LowerM Unit := do
  let cond ← popToReg
  let falseValue ← popToReg (.ofList [cond])
  let trueValue ← popToReg (.ofList [cond, falseValue])
  let dst ←
    unusedRegFrom (.ofType ty) (.ofList [trueValue, falseValue]) (.ofList [cond])
  let caseFalse ← newLabel
  let done ← newLabel
  emit (.condJump .equal .i32 cond none caseFalse)
  emitting (·.moveReg ty dst trueValue)
  emit (.jump done)
  bindLabel caseFalse
  emitting (·.moveReg ty dst falseValue)
  bindLabel done
  pushReg ty dst

/-- A local in a register and its copy share the register. -/
def localGet (index : Nat) : LowerM Unit := do
  match (← get).emitter.state.slots[index]? with
  | none => throw .underflow
  | some slot =>
    match slot.loc with
    | .reg r => pushReg slot.ty r
    | .const value => pushAt slot.ty (.const value)
    | .stack =>
      let r ← unusedReg slot.regClass
      emitting (·.fill slot.ty r slot.offset)
      pushReg slot.ty r

/-- Load a value from the frame into the register of a local, if nothing else uses it, or into
another one. -/
def setLocalFromFrame (index offset : Nat) : LowerM Unit := do
  match (← get).emitter.state.slots[index]? with
  | none => throw .underflow
  | some slot =>
    let state := (← get).emitter.state
    match slot.reg?.filter fun r => state.useCount r == 1 with
    | some r => emitting (·.fill slot.ty r offset)
    | none =>
      emitting (·.modifyState (·.relocate index .stack))
      let r ← unusedReg slot.regClass
      emitting fun e => (e.fill slot.ty r offset).modifyState (·.relocate index (.reg r))

/-- Give the topmost value to a local. -/
def localTee (index : Nat) : LowerM Unit := do
  let source ← peekSlot
  match source.loc with
  | .stack => setLocalFromFrame index source.offset
  | loc => emitting (·.modifyState (·.relocate index loc))

def localSet (index : Nat) : LowerM Unit := do
  localTee index
  let _ ← popSlot

end Lowering

end OnePass
