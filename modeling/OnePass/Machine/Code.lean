import OnePass.Opcode

/-!
The small alphabets inside machine instructions: operation bytes, branch conditions, fields of the
instance and entry points of the runtime. Each has a one-byte code.
-/
namespace OnePass

/-- The first byte of an instruction. -/
inductive MachineOp where
  | enterFrame | leaveFrame | ret | move | loadConst | spill | spillConst | fill | moveStackValue
  | fillStackSlotsWithZero | loadInstanceField | loadStackArg | storeStackArg | load | store
  | unOp | unOpTrapping | binOp | binOpImm | jump | condJump | condJumpImm | stackCheck
  | call | callIndirect | callRuntimeStub | pushRegisters | popRegisters | assertUnreachable
  deriving DecidableEq, Repr

namespace MachineOp

/-- In code order; codes start at one. -/
def all : List MachineOp :=
  [enterFrame, leaveFrame, ret, move, loadConst, spill, spillConst, fill, moveStackValue,
    fillStackSlotsWithZero, loadInstanceField, loadStackArg, storeStackArg, load, store,
    unOp, unOpTrapping, binOp, binOpImm, jump, condJump, condJumpImm, stackCheck,
    call, callIndirect, callRuntimeStub, pushRegisters, popRegisters, assertUnreachable]

def code : MachineOp → UInt8
  | enterFrame => 1
  | leaveFrame => 2
  | ret => 3
  | move => 4
  | loadConst => 5
  | spill => 6
  | spillConst => 7
  | fill => 8
  | moveStackValue => 9
  | fillStackSlotsWithZero => 10
  | loadInstanceField => 11
  | loadStackArg => 12
  | storeStackArg => 13
  | load => 14
  | store => 15
  | unOp => 16
  | unOpTrapping => 17
  | binOp => 18
  | binOpImm => 19
  | jump => 20
  | condJump => 21
  | condJumpImm => 22
  | stackCheck => 23
  | call => 24
  | callIndirect => 25
  | callRuntimeStub => 26
  | pushRegisters => 27
  | popRegisters => 28
  | assertUnreachable => 29

def ofCode? (c : UInt8) : Option MachineOp := all.find? (·.code == c)

theorem ofCode?_code (op : MachineOp) : ofCode? op.code = some op := by
  cases op <;> decide

def ident : MachineOp → String
  | enterFrame => "EnterFrame"
  | leaveFrame => "LeaveFrame"
  | ret => "Ret"
  | move => "Move"
  | loadConst => "LoadConst"
  | spill => "Spill"
  | spillConst => "SpillConst"
  | fill => "Fill"
  | moveStackValue => "MoveStackValue"
  | fillStackSlotsWithZero => "FillStackSlotsWithZero"
  | loadInstanceField => "LoadInstanceField"
  | loadStackArg => "LoadStackArg"
  | storeStackArg => "StoreStackArg"
  | load => "Load"
  | store => "Store"
  | unOp => "UnOp"
  | unOpTrapping => "UnOpTrapping"
  | binOp => "BinOp"
  | binOpImm => "BinOpImm"
  | jump => "Jump"
  | condJump => "CondJump"
  | condJumpImm => "CondJumpImm"
  | stackCheck => "StackCheck"
  | call => "Call"
  | callIndirect => "CallIndirect"
  | callRuntimeStub => "CallRuntimeStub"
  | pushRegisters => "PushRegisters"
  | popRegisters => "PopRegisters"
  | assertUnreachable => "AssertUnreachable"

end MachineOp

/-- Branch conditions. `below` and `above` compare unsigned. -/
inductive Cond where
  | equal | notEqual | lessThan | lessEqual | greaterThan | greaterEqual
  | below | belowEqual | above | aboveEqual
  deriving DecidableEq, Repr

namespace Cond

def all : List Cond :=
  [equal, notEqual, lessThan, lessEqual, greaterThan, greaterEqual,
    below, belowEqual, above, aboveEqual]

def code : Cond → UInt8
  | equal => 0
  | notEqual => 1
  | lessThan => 2
  | lessEqual => 3
  | greaterThan => 4
  | greaterEqual => 5
  | below => 6
  | belowEqual => 7
  | above => 8
  | aboveEqual => 9

def ofCode? (c : UInt8) : Option Cond := all.find? (·.code == c)

theorem ofCode?_code (c : Cond) : ofCode? c.code = some c := by
  cases c <;> decide

def ident : Cond → String
  | equal => "Equal"
  | notEqual => "NotEqual"
  | lessThan => "LessThan"
  | lessEqual => "LessEqual"
  | greaterThan => "GreaterThan"
  | greaterEqual => "GreaterEqual"
  | below => "Below"
  | belowEqual => "BelowEqual"
  | above => "Above"
  | aboveEqual => "AboveEqual"

def mnemonic : Cond → String
  | equal => "eq"
  | notEqual => "ne"
  | lessThan => "lt"
  | lessEqual => "le"
  | greaterThan => "gt"
  | greaterEqual => "ge"
  | below => "b"
  | belowEqual => "be"
  | above => "a"
  | aboveEqual => "ae"

/-- The condition that holds exactly when this one does not. -/
def negate : Cond → Cond
  | equal => notEqual
  | notEqual => equal
  | lessThan => greaterEqual
  | lessEqual => greaterThan
  | greaterThan => lessEqual
  | greaterEqual => lessThan
  | below => aboveEqual
  | belowEqual => above
  | above => belowEqual
  | aboveEqual => below

@[simp] theorem negate_negate (c : Cond) : c.negate.negate = c := by
  cases c <;> rfl

def ofIntRel : IntRel → Cond
  | .eq => equal
  | .ne => notEqual
  | .ltS => lessThan
  | .ltU => below
  | .gtS => greaterThan
  | .gtU => above
  | .leS => lessEqual
  | .leU => belowEqual
  | .geS => greaterEqual
  | .geU => aboveEqual

/-- The condition that a comparison of two `i32` values computes. -/
def ofI32Comparison? : Opcode → Option Cond
  | .binary (.intCompare .w32 rel) => some (ofIntRel rel)
  | _ => none

end Cond

/-- Fields of the instance that compiled code reads. -/
inductive InstanceField where
  | memoryStart
  /-- Current size of the memory in bytes. -/
  | memorySize
  /-- The least power of two that is at least the memory size, minus one. -/
  | memoryMask
  | stackLimitAddress
  | globalsStart
  /-- Table of pointers to imported mutable globals. -/
  | importedMutableGlobals
  | importedFunctionTargets
  | importedFunctionRefs
  | indirectFunctionTableSize
  | indirectFunctionTableSigIds
  | indirectFunctionTableTargets
  | indirectFunctionTableRefs
  deriving DecidableEq, Repr

namespace InstanceField

def all : List InstanceField :=
  [memoryStart, memorySize, memoryMask, stackLimitAddress, globalsStart, importedMutableGlobals,
    importedFunctionTargets, importedFunctionRefs, indirectFunctionTableSize,
    indirectFunctionTableSigIds, indirectFunctionTableTargets, indirectFunctionTableRefs]

def code : InstanceField → UInt8
  | memoryStart => 0
  | memorySize => 1
  | memoryMask => 2
  | stackLimitAddress => 3
  | globalsStart => 4
  | importedMutableGlobals => 5
  | importedFunctionTargets => 6
  | importedFunctionRefs => 7
  | indirectFunctionTableSize => 8
  | indirectFunctionTableSigIds => 9
  | indirectFunctionTableTargets => 10
  | indirectFunctionTableRefs => 11

def ofCode? (c : UInt8) : Option InstanceField := all.find? (·.code == c)

theorem ofCode?_code (f : InstanceField) : ofCode? f.code = some f := by
  cases f <;> decide

def ident : InstanceField → String
  | memoryStart => "MemoryStart"
  | memorySize => "MemorySize"
  | memoryMask => "MemoryMask"
  | stackLimitAddress => "StackLimitAddress"
  | globalsStart => "GlobalsStart"
  | importedMutableGlobals => "ImportedMutableGlobals"
  | importedFunctionTargets => "ImportedFunctionTargets"
  | importedFunctionRefs => "ImportedFunctionRefs"
  | indirectFunctionTableSize => "IndirectFunctionTableSize"
  | indirectFunctionTableSigIds => "IndirectFunctionTableSigIds"
  | indirectFunctionTableTargets => "IndirectFunctionTableTargets"
  | indirectFunctionTableRefs => "IndirectFunctionTableRefs"

end InstanceField

/-- Entry points of the runtime. The traps do not return. -/
inductive RuntimeStub where
  | trapUnreachable | trapMemOutOfBounds | trapDivByZero | trapRemByZero
  | trapDivUnrepresentable | trapFloatUnrepresentable | trapTableOutOfBounds | trapFuncSigMismatch
  | stackGuard | debugBreak | traceEnter
  | memoryGrow | memoryInit | dataDrop | memoryCopy | memoryFill | tableInit | elemDrop | tableCopy
  deriving DecidableEq, Repr

namespace RuntimeStub

def all : List RuntimeStub :=
  [trapUnreachable, trapMemOutOfBounds, trapDivByZero, trapRemByZero,
    trapDivUnrepresentable, trapFloatUnrepresentable, trapTableOutOfBounds, trapFuncSigMismatch,
    stackGuard, debugBreak, traceEnter,
    memoryGrow, memoryInit, dataDrop, memoryCopy, memoryFill, tableInit, elemDrop, tableCopy]

def code : RuntimeStub → UInt8
  | trapUnreachable => 0
  | trapMemOutOfBounds => 1
  | trapDivByZero => 2
  | trapRemByZero => 3
  | trapDivUnrepresentable => 4
  | trapFloatUnrepresentable => 5
  | trapTableOutOfBounds => 6
  | trapFuncSigMismatch => 7
  | stackGuard => 8
  | debugBreak => 9
  | traceEnter => 10
  | memoryGrow => 11
  | memoryInit => 12
  | dataDrop => 13
  | memoryCopy => 14
  | memoryFill => 15
  | tableInit => 16
  | elemDrop => 17
  | tableCopy => 18

def ofCode? (c : UInt8) : Option RuntimeStub := all.find? (·.code == c)

theorem ofCode?_code (s : RuntimeStub) : ofCode? s.code = some s := by
  cases s <;> decide

def ident : RuntimeStub → String
  | trapUnreachable => "TrapUnreachable"
  | trapMemOutOfBounds => "TrapMemOutOfBounds"
  | trapDivByZero => "TrapDivByZero"
  | trapRemByZero => "TrapRemByZero"
  | trapDivUnrepresentable => "TrapDivUnrepresentable"
  | trapFloatUnrepresentable => "TrapFloatUnrepresentable"
  | trapTableOutOfBounds => "TrapTableOutOfBounds"
  | trapFuncSigMismatch => "TrapFuncSigMismatch"
  | stackGuard => "StackGuard"
  | debugBreak => "DebugBreak"
  | traceEnter => "TraceEnter"
  | memoryGrow => "MemoryGrow"
  | memoryInit => "MemoryInit"
  | dataDrop => "DataDrop"
  | memoryCopy => "MemoryCopy"
  | memoryFill => "MemoryFill"
  | tableInit => "TableInit"
  | elemDrop => "ElemDrop"
  | tableCopy => "TableCopy"

def isTrap : RuntimeStub → Bool
  | trapUnreachable | trapMemOutOfBounds | trapDivByZero | trapRemByZero | trapDivUnrepresentable
  | trapFloatUnrepresentable | trapTableOutOfBounds | trapFuncSigMismatch => true
  | _ => false

end RuntimeStub

end OnePass
