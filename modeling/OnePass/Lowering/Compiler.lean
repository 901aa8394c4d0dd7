import OnePass.Lowering.Call

/-!
The listener that generates code.
-/
namespace OnePass

namespace Lowering

/-- Before an instruction. -/
def nextInstruction (ctx : Context) : LowerM Unit := do
  if (← get).options.hasBreakpoint ctx.pc then breakpoint ctx.pc

/-- Jump to a trap. -/
def unreachable (ctx : Context) : LowerM Unit := do
  let trap ← addTrap .trapUnreachable ctx.pc
  emit (.jump trap)

/-- Generate the code of an event. -/
def lower (ctx : Context) : Event → LowerM Unit
  | .startFunction => startFunction ctx
  | .startBody _ => startBody ctx
  | .finishFunction => finishFunction
  | .nextInstruction _ => nextInstruction ctx
  | .block b => block b
  | .loop b => loop ctx b
  | .tryBlock _ => throw ⟨.exceptionHandling, "try"⟩
  | .ifThen _ b => ifThen b
  | .fallThru b => fallThru b
  | .popControl b => popControl b
  | .endControl _ => return
  | .elseArm b => elseArm b
  | .catchTag .. => throw ⟨.exceptionHandling, "catch"⟩
  | .catchAll _ => throw ⟨.exceptionHandling, "catch_all"⟩
  | .throw .. => throw ⟨.exceptionHandling, "throw"⟩
  | .rethrow _ => throw ⟨.exceptionHandling, "rethrow"⟩
  | .br depth => branch ctx depth
  | .brIf _ depth => branchIf ctx depth
  | .brTable table _ => branchTable ctx table
  | .ret => ret ctx
  | .unreachable => unreachable ctx
  | .unary op value result => do
    requireScalar "operand" value.ty
    requireScalar "result" result.ty
    unary ctx op result.ty
  | .binary op lhs _ result => do
    requireScalar "operand" lhs.ty
    requireScalar "result" result.ty
    binary ctx op lhs.ty result.ty
  | .const value _ => constant value
  | .refNull ty _ => pushAt ty (.const 0)
  | .refIsNull .. => refIsNull
  | .refFunc .. => throw ⟨.referenceTypes, "ref.func"⟩
  | .lane op .. => throw ⟨.simd, op.name⟩
  | .drop _ => discard popSlot
  | .select _ _ _ result => do
    requireScalar "select" result.ty
    select result.ty
  | .localGet _ index => localGet index
  | .localSet _ index => localSet index
  | .localTee _ _ index => localTee index
  | .globalGet _ index => globalGet ctx index
  | .globalSet _ index => globalSet ctx index
  | .load ty arg .. => discard (load ctx ty arg)
  | .store ty arg .. => discard (store ctx ty arg)
  | .memorySize _ => memorySize
  | .memoryGrow .. => callStub ctx .memoryGrow [.i32] none (some .i32)
  | .memoryInit segment _ => bulkOperation ctx .memoryInit 3 (some (packIndices 0 segment))
  | .dataDrop segment => bulkOperation ctx .dataDrop 0 (some (packIndices 0 segment))
  | .memoryCopy _ => bulkOperation ctx .memoryCopy 3
  | .memoryFill _ => bulkOperation ctx .memoryFill 3
  | .tableGet .. => throw ⟨.referenceTypes, "table.get"⟩
  | .tableSet .. => throw ⟨.referenceTypes, "table.set"⟩
  | .tableInit segment table _ => bulkOperation ctx .tableInit 3 (some (packIndices table segment))
  | .elemDrop segment => bulkOperation ctx .elemDrop 0 (some (packIndices 0 segment))
  | .tableCopy dst src _ => bulkOperation ctx .tableCopy 3 (some (packIndices dst src))
  | .tableGrow .. => throw ⟨.referenceTypes, "table.grow"⟩
  | .tableSize .. => throw ⟨.referenceTypes, "table.size"⟩
  | .tableFill .. => throw ⟨.referenceTypes, "table.fill"⟩
  | .call function sig .. => call ctx function sig
  | .callIndirect _ callee sig .. => callIndirect ctx callee sig
  | .returnCall .. => throw ⟨.tailCall, "return_call"⟩
  | .returnCallIndirect .. => throw ⟨.tailCall, "return_call_indirect"⟩

/-- Generate the code of an event and answer it. After a memory access that always traps the code is
dead. -/
def handle (ctx : Context) : Event → LowerM Reply
  | .load ty arg .. => load ctx ty arg
  | .store ty arg .. => store ctx ty arg
  | e => do
    lower ctx e
    return .proceed

end Lowering

def Backend.compiler : Backend Lowering := ⟨fun ctx e s => (Lowering.handle ctx e).run.run s⟩

end OnePass
