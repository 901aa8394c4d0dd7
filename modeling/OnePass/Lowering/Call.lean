import OnePass.Lowering.Memory

/-!
Calls of functions and of runtime stubs.
-/
namespace OnePass

namespace Lowering

def requireCallable (sig : Signature) : LowerM Unit := do
  if sig.results.length > 1 then throw ⟨.multiValue, "call with multiple results"⟩
  (sig.params ++ sig.results).forM (requireScalar "call value")

/-- Move the arguments, call, and take the result. -/
def emitCall (ctx : Context) (sig : Signature) (call : Instr Label) : LowerM Unit := do
  liftEmit (Emitter.prepareCall sig.params)
  recordPosition ctx.pc
  emit call
  let _ ← recordEntry (← get).emitter.pc .didSpill
  liftEmit (Emitter.finishCall sig.results.head?)

/-- An imported function is called through the instance's tables, with the callee's own instance. -/
def callImport (ctx : Context) (function : Nat) (sig : Signature) : LowerM Unit := do
  let slot ← pointerSlot "function" function
  emit (.loadInstanceField .callTarget .importedFunctionTargets)
  emit (.load .i64Load .callTarget .callTarget none slot)
  emit (.loadInstanceField (.scratch .gp) .importedFunctionRefs)
  emit (.load .i64Load .instanceReg (.scratch .gp) none slot)
  emitCall ctx sig (.callIndirect .callTarget)

def call (ctx : Context) (function : Nat) (sig : Signature) : LowerM Unit := do
  requireCallable sig
  if ctx.module.isImportedFunction function then callImport ctx function sig
  else emitCall ctx sig (.call (.ofNat function))

/-- An operator on `i32` values. -/
def int32 (op : IntBinary) : Opcode := .binary (.int .w32 op)

/-- Make an index that is not below the size zero: the mask `((index - size) & ~index) >> 31` is all
ones if it is below, and zero otherwise. -/
def maskIndex (index size mask : Reg) : LowerM Unit := do
  emit (.binary (int32 .sub) mask index size)
  emit (.binaryImm (int32 .xor) size index (-1))
  emit (.binary (int32 .and) mask mask size)
  emit (.binaryImm (int32 .shrS) mask mask 31)
  emit (.binary (int32 .and) index index mask)

/-- Check the index and the signature of what the table holds. -/
def calleeChecks (ctx : Context) (sigId : Nat) (index table tmp scratch : Reg) : LowerM Unit := do
  let outOfBounds ← addTrap .trapTableOutOfBounds ctx.pc
  emit (.loadInstanceField tmp .indirectFunctionTableSize)
  emit (.condJump .aboveEqual .i32 index (some tmp) outOfBounds)
  if (← get).options.indexMasking then maskIndex index tmp scratch
  -- Signature ids take four bytes each, targets and instances eight.
  let sigMismatch ← addTrap .trapFuncSigMismatch ctx.pc
  emit (.loadInstanceField table .indirectFunctionTableSigIds)
  emit (.binaryImm (int32 .shl) index index 2)
  emit (.load .i32Load scratch table (some index) 0)
  emitting (·.loadBits .i32 tmp (.ofNat sigId))
  emit (.condJump .notEqual .i32 scratch (some tmp) sigMismatch)

/-- Check what the table holds, then call it. -/
def callIndirect (ctx : Context) (callee : IndirectCallee) (sig : Signature) : LowerM Unit := do
  requireCallable sig
  if callee.tableIndex ≠ 0 then
    throw ⟨.referenceTypes, "call_indirect through a table other than 0"⟩
  match ctx.module.canonicalId? callee.sigIndex with
  | none => throw (.internal "signature index out of range")
  | some sigId =>
    let index ← popToModifiableReg
    let table ← unusedReg .gp (.ofList [index])
    let tmp ← unusedReg .gp (.ofList [index, table])
    let scratch ← unusedReg .gp (.ofList [index, table, tmp])
    calleeChecks ctx sigId index table tmp scratch
    emit (.binary (int32 .add) index index index)
    emit (.loadInstanceField table .indirectFunctionTableTargets)
    emit (.load .i64Load .callTarget table (some index) 0)
    emit (.loadInstanceField table .indirectFunctionTableRefs)
    emit (.load .i64Load .instanceReg table (some index) 0)
    emitCall ctx sig (.callIndirect .callTarget)

/-- Call a stub with the topmost values. An immediate goes into the next argument register. -/
def callStub (ctx : Context) (stub : RuntimeStub) (params : List ValueType)
    (immediate : Option UInt64) (result : Option ValueType) : LowerM Unit := do
  liftEmit (Emitter.prepareCall params)
  match immediate with
  | none => pure ()
  | some bits =>
    match (Reg.params .gp)[params.length]? with
    | none => throw (.internal "no register left for a stub immediate")
    | some r => emitting (·.loadBits .i64 r bits)
  recordPosition ctx.pc
  emit (.callStub stub)
  let _ ← recordEntry (← get).emitter.pc .didSpill
  liftEmit (Emitter.finishCall result)

/-- Operations on whole ranges, with so many `i32` operands. -/
def bulkOperation (ctx : Context) (stub : RuntimeStub) (operands : Nat)
    (immediate : Option UInt64 := none) : LowerM Unit := do
  if !(← get).options.bulkOperations then throw ⟨.bulkOperations, stub.ident⟩
  if operands > 3 then throw (.internal "too many bulk operation operands")
  callStub ctx stub (List.replicate operands .i32) immediate none

/-- Two indices in one immediate. -/
def packIndices (high low : Nat) : UInt64 := .ofNat (high <<< 32 + low)

end Lowering

end OnePass
