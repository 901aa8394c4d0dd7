import OnePass.Feature
import OnePass.MemoryAccess
import OnePass.Operator

/-!
The instructions of function bodies. An opcode is one byte, or an escape byte (`0xFC` or `0xFD`) and
an index; the code of the latter is `escape * 256 + index`. Loads, stores and the operators without
immediates are grouped by shape, all others stand alone.
-/
namespace OnePass

namespace UnaryOp

def code : UnaryOp → Nat
  | eqz .w32 => 0x45
  | eqz .w64 => 0x50
  | int .w32 op => 0x67 + op.index
  | int .w64 op => 0x79 + op.index
  | float .w32 op => 0x8B + op.index
  | float .w64 op => 0x99 + op.index
  | wrap => 0xA7
  | truncate .w32 .w32 s => 0xA8 + s.index
  | truncate .w32 .w64 s => 0xAA + s.index
  | extend s => 0xAC + s.index
  | truncate .w64 .w32 s => 0xAE + s.index
  | truncate .w64 .w64 s => 0xB0 + s.index
  | convert .w32 .w32 s => 0xB2 + s.index
  | convert .w32 .w64 s => 0xB4 + s.index
  | demote => 0xB6
  | convert .w64 .w32 s => 0xB7 + s.index
  | convert .w64 .w64 s => 0xB9 + s.index
  | promote => 0xBB
  | reinterpretFloat .w32 => 0xBC
  | reinterpretFloat .w64 => 0xBD
  | reinterpretInt .w32 => 0xBE
  | reinterpretInt .w64 => 0xBF
  | extend8 .w32 => 0xC0
  | extend16 .w32 => 0xC1
  | extend8 .w64 => 0xC2
  | extend16 .w64 => 0xC3
  | extend32 => 0xC4
  | truncateSat .w32 .w32 s => 0xFC00 + s.index
  | truncateSat .w32 .w64 s => 0xFC02 + s.index
  | truncateSat .w64 .w32 s => 0xFC04 + s.index
  | truncateSat .w64 .w64 s => 0xFC06 + s.index
  | vector .splatI8x16 => 0xFD0F
  | vector .splatI32x4 => 0xFD11
  | vector .splatF32x4 => 0xFD13
  | vector .not => 0xFD4D

def ident : UnaryOp → String
  | eqz w => "I" ++ w.digits ++ "Eqz"
  | int w op => "I" ++ w.digits ++ op.ident
  | float w op => "F" ++ w.digits ++ op.ident
  | wrap => "I32WrapI64"
  | truncate dst src s => "I" ++ dst.digits ++ "TruncF" ++ src.digits ++ s.ident
  | extend s => "I64ExtendI32" ++ s.ident
  | convert dst src s => "F" ++ dst.digits ++ "ConvertI" ++ src.digits ++ s.ident
  | demote => "F32DemoteF64"
  | promote => "F64PromoteF32"
  | reinterpretFloat w => "I" ++ w.digits ++ "ReinterpretF" ++ w.digits
  | reinterpretInt w => "F" ++ w.digits ++ "ReinterpretI" ++ w.digits
  | extend8 w => "I" ++ w.digits ++ "Extend8S"
  | extend16 w => "I" ++ w.digits ++ "Extend16S"
  | extend32 => "I64Extend32S"
  | truncateSat dst src s => "I" ++ dst.digits ++ "TruncSatF" ++ src.digits ++ s.ident
  | vector op => op.ident

def name : UnaryOp → String
  | eqz w => w.int.name ++ ".eqz"
  | int w op => w.int.name ++ "." ++ op.name
  | float w op => w.float.name ++ "." ++ op.name
  | wrap => "i32.wrap_i64"
  | truncate dst src s => dst.int.name ++ ".trunc_" ++ src.float.name ++ s.suffix
  | extend s => "i64.extend_i32" ++ s.suffix
  | convert dst src s => dst.float.name ++ ".convert_" ++ src.int.name ++ s.suffix
  | demote => "f32.demote_f64"
  | promote => "f64.promote_f32"
  | reinterpretFloat w => w.int.name ++ ".reinterpret_" ++ w.float.name
  | reinterpretInt w => w.float.name ++ ".reinterpret_" ++ w.int.name
  | extend8 w => w.int.name ++ ".extend8_s"
  | extend16 w => w.int.name ++ ".extend16_s"
  | extend32 => "i64.extend32_s"
  | truncateSat dst src s => dst.int.name ++ ".trunc_sat_" ++ src.float.name ++ s.suffix
  | vector op => op.name

def feature? : UnaryOp → Option Feature
  | extend8 _ | extend16 _ | extend32 => some .signExtension
  | truncateSat .. => some .saturatingTruncation
  | vector _ => some .simd
  | _ => none

private def conversions (f : Width → Width → Signedness → UnaryOp) : List UnaryOp :=
  Width.all.flatMap fun dst => Width.all.flatMap fun src => Signedness.all.map (f dst src)

def all : List UnaryOp :=
  Width.all.map eqz ++
  (Width.all.flatMap fun w => IntUnary.all.map (int w)) ++
  (Width.all.flatMap fun w => FloatUnary.all.map (float w)) ++
  [wrap] ++ conversions truncate ++ Signedness.all.map extend ++ conversions convert ++
  [demote, promote] ++ Width.all.map reinterpretFloat ++ Width.all.map reinterpretInt ++
  Width.all.map extend8 ++ Width.all.map extend16 ++ [extend32] ++
  conversions truncateSat ++ VecUnary.all.map vector

end UnaryOp

namespace BinaryOp

def code : BinaryOp → Nat
  | intCompare .w32 rel => 0x46 + rel.index
  | intCompare .w64 rel => 0x51 + rel.index
  | floatCompare .w32 rel => 0x5B + rel.index
  | floatCompare .w64 rel => 0x61 + rel.index
  | int .w32 op => 0x6A + op.index
  | int .w64 op => 0x7C + op.index
  | float .w32 op => 0x92 + op.index
  | float .w64 op => 0xA0 + op.index
  | vector .and => 0xFD4E
  | vector .or => 0xFD50
  | vector .xor => 0xFD51
  | vector .addI8x16 => 0xFD6E
  | vector .addI32x4 => 0xFDAE
  | vector .subI32x4 => 0xFDB1
  | vector .mulI32x4 => 0xFDB5
  | vector .addF32x4 => 0xFDE4

def ident : BinaryOp → String
  | intCompare w rel => "I" ++ w.digits ++ rel.ident
  | floatCompare w rel => "F" ++ w.digits ++ rel.ident
  | int w op => "I" ++ w.digits ++ op.ident
  | float w op => "F" ++ w.digits ++ op.ident
  | vector op => op.ident

def name : BinaryOp → String
  | intCompare w rel => w.int.name ++ "." ++ rel.name
  | floatCompare w rel => w.float.name ++ "." ++ rel.name
  | int w op => w.int.name ++ "." ++ op.name
  | float w op => w.float.name ++ "." ++ op.name
  | vector op => op.name

def feature? : BinaryOp → Option Feature
  | vector _ => some .simd
  | _ => none

def all : List BinaryOp :=
  (Width.all.flatMap fun w => IntRel.all.map (intCompare w)) ++
  (Width.all.flatMap fun w => FloatRel.all.map (floatCompare w)) ++
  (Width.all.flatMap fun w => IntBinary.all.map (int w)) ++
  (Width.all.flatMap fun w => FloatBinary.all.map (float w)) ++
  VecBinary.all.map vector

end BinaryOp

/-- The opcode of a load in a body. -/
def LoadType.opcode : LoadType → Nat
  | i32Load => 0x28
  | i64Load => 0x29
  | f32Load => 0x2A
  | f64Load => 0x2B
  | i32Load8S => 0x2C
  | i32Load8U => 0x2D
  | i32Load16S => 0x2E
  | i32Load16U => 0x2F
  | i64Load8S => 0x30
  | i64Load8U => 0x31
  | i64Load16S => 0x32
  | i64Load16U => 0x33
  | i64Load32S => 0x34
  | i64Load32U => 0x35
  | v128Load => 0xFD00

/-- The opcode of a store in a body. -/
def StoreType.opcode : StoreType → Nat
  | i32Store => 0x36
  | i64Store => 0x37
  | f32Store => 0x38
  | f64Store => 0x39
  | i32Store8 => 0x3A
  | i32Store16 => 0x3B
  | i64Store8 => 0x3C
  | i64Store16 => 0x3D
  | i64Store32 => 0x3E
  | v128Store => 0xFD0B

inductive Opcode where
  -- control
  | unreachable | nop | block | loop | ifThen | elseArm | tryBlock | catchTag | throw | rethrow
  | endBlock | br | brIf | brTable | ret
  | call | callIndirect | returnCall | returnCallIndirect | catchAll
  -- operands and variables
  | drop | select | selectTyped
  | localGet | localSet | localTee | globalGet | globalSet | tableGet | tableSet
  -- memory and constants
  | load (ty : LoadType) | store (ty : StoreType) | memorySize | memoryGrow
  | i32Const | i64Const | f32Const | f64Const | v128Const
  -- operators
  | unary (op : UnaryOp) | binary (op : BinaryOp)
  -- references, bulk operations, lanes
  | refNull | refIsNull | refFunc
  | memoryInit | dataDrop | memoryCopy | memoryFill
  | tableInit | elemDrop | tableCopy | tableGrow | tableSize | tableFill
  | extractLane | replaceLane
  deriving DecidableEq, Repr, Inhabited

namespace Opcode

/-- The numeric identifier. -/
def code : Opcode → Nat
  | unreachable => 0x00
  | nop => 0x01
  | block => 0x02
  | loop => 0x03
  | ifThen => 0x04
  | elseArm => 0x05
  | tryBlock => 0x06
  | catchTag => 0x07
  | throw => 0x08
  | rethrow => 0x09
  | endBlock => 0x0B
  | br => 0x0C
  | brIf => 0x0D
  | brTable => 0x0E
  | ret => 0x0F
  | call => 0x10
  | callIndirect => 0x11
  | returnCall => 0x12
  | returnCallIndirect => 0x13
  | catchAll => 0x19
  | drop => 0x1A
  | select => 0x1B
  | selectTyped => 0x1C
  | localGet => 0x20
  | localSet => 0x21
  | localTee => 0x22
  | globalGet => 0x23
  | globalSet => 0x24
  | tableGet => 0x25
  | tableSet => 0x26
  | load ty => ty.opcode
  | store ty => ty.opcode
  | memorySize => 0x3F
  | memoryGrow => 0x40
  | i32Const => 0x41
  | i64Const => 0x42
  | f32Const => 0x43
  | f64Const => 0x44
  | unary op => op.code
  | binary op => op.code
  | refNull => 0xD0
  | refIsNull => 0xD1
  | refFunc => 0xD2
  | memoryInit => 0xFC08
  | dataDrop => 0xFC09
  | memoryCopy => 0xFC0A
  | memoryFill => 0xFC0B
  | tableInit => 0xFC0C
  | elemDrop => 0xFC0D
  | tableCopy => 0xFC0E
  | tableGrow => 0xFC0F
  | tableSize => 0xFC10
  | tableFill => 0xFC11
  | v128Const => 0xFD0C
  | extractLane => 0xFD1B
  | replaceLane => 0xFD1C

def ident : Opcode → String
  | unreachable => "Unreachable"
  | nop => "Nop"
  | block => "Block"
  | loop => "Loop"
  | ifThen => "If"
  | elseArm => "Else"
  | tryBlock => "Try"
  | catchTag => "Catch"
  | throw => "Throw"
  | rethrow => "Rethrow"
  | endBlock => "End"
  | br => "Br"
  | brIf => "BrIf"
  | brTable => "BrTable"
  | ret => "Return"
  | call => "Call"
  | callIndirect => "CallIndirect"
  | returnCall => "ReturnCall"
  | returnCallIndirect => "ReturnCallIndirect"
  | catchAll => "CatchAll"
  | drop => "Drop"
  | select => "Select"
  | selectTyped => "SelectWithType"
  | localGet => "LocalGet"
  | localSet => "LocalSet"
  | localTee => "LocalTee"
  | globalGet => "GlobalGet"
  | globalSet => "GlobalSet"
  | tableGet => "TableGet"
  | tableSet => "TableSet"
  | load ty => ty.ident
  | store ty => ty.ident
  | memorySize => "MemorySize"
  | memoryGrow => "MemoryGrow"
  | i32Const => "I32Const"
  | i64Const => "I64Const"
  | f32Const => "F32Const"
  | f64Const => "F64Const"
  | v128Const => "V128Const"
  | unary op => op.ident
  | binary op => op.ident
  | refNull => "RefNull"
  | refIsNull => "RefIsNull"
  | refFunc => "RefFunc"
  | memoryInit => "MemoryInit"
  | dataDrop => "DataDrop"
  | memoryCopy => "MemoryCopy"
  | memoryFill => "MemoryFill"
  | tableInit => "TableInit"
  | elemDrop => "ElemDrop"
  | tableCopy => "TableCopy"
  | tableGrow => "TableGrow"
  | tableSize => "TableSize"
  | tableFill => "TableFill"
  | extractLane => "I32x4ExtractLane"
  | replaceLane => "I32x4ReplaceLane"

/-- The name in the text format. Both forms of `select` share one. -/
def name : Opcode → String
  | unreachable => "unreachable"
  | nop => "nop"
  | block => "block"
  | loop => "loop"
  | ifThen => "if"
  | elseArm => "else"
  | tryBlock => "try"
  | catchTag => "catch"
  | throw => "throw"
  | rethrow => "rethrow"
  | endBlock => "end"
  | br => "br"
  | brIf => "br_if"
  | brTable => "br_table"
  | ret => "return"
  | call => "call"
  | callIndirect => "call_indirect"
  | returnCall => "return_call"
  | returnCallIndirect => "return_call_indirect"
  | catchAll => "catch_all"
  | drop => "drop"
  | select => "select"
  | selectTyped => "select"
  | localGet => "local.get"
  | localSet => "local.set"
  | localTee => "local.tee"
  | globalGet => "global.get"
  | globalSet => "global.set"
  | tableGet => "table.get"
  | tableSet => "table.set"
  | load ty => ty.name
  | store ty => ty.name
  | memorySize => "memory.size"
  | memoryGrow => "memory.grow"
  | i32Const => "i32.const"
  | i64Const => "i64.const"
  | f32Const => "f32.const"
  | f64Const => "f64.const"
  | v128Const => "v128.const"
  | unary op => op.name
  | binary op => op.name
  | refNull => "ref.null"
  | refIsNull => "ref.is_null"
  | refFunc => "ref.func"
  | memoryInit => "memory.init"
  | dataDrop => "data.drop"
  | memoryCopy => "memory.copy"
  | memoryFill => "memory.fill"
  | tableInit => "table.init"
  | elemDrop => "elem.drop"
  | tableCopy => "table.copy"
  | tableGrow => "table.grow"
  | tableSize => "table.size"
  | tableFill => "table.fill"
  | extractLane => "i32x4.extract_lane"
  | replaceLane => "i32x4.replace_lane"

/-- The extension that must be enabled for the opcode to decode. -/
def feature? : Opcode → Option Feature
  | tryBlock | catchTag | throw | rethrow | catchAll => some .exceptions
  | returnCall | returnCallIndirect => some .tailCall
  | selectTyped | tableGet | tableSet | refNull | refIsNull | refFunc
  | tableGrow | tableSize | tableFill => some .referenceTypes
  | memoryInit | dataDrop | memoryCopy | memoryFill | tableInit | elemDrop | tableCopy =>
    some .bulkMemory
  | load .v128Load | store .v128Store | v128Const | extractLane | replaceLane => some .simd
  | unary op => op.feature?
  | binary op => op.feature?
  | _ => none

def all : List Opcode :=
  [unreachable, nop, block, loop, ifThen, elseArm, tryBlock, catchTag, throw, rethrow,
    endBlock, br, brIf, brTable, ret,
    call, callIndirect, returnCall, returnCallIndirect, catchAll,
    drop, select, selectTyped,
    localGet, localSet, localTee, globalGet, globalSet, tableGet, tableSet] ++
  LoadType.all.map load ++ StoreType.all.map store ++
  [memorySize, memoryGrow, i32Const, i64Const, f32Const, f64Const, v128Const] ++
  UnaryOp.all.map unary ++ BinaryOp.all.map binary ++
  [refNull, refIsNull, refFunc,
    memoryInit, dataDrop, memoryCopy, memoryFill,
    tableInit, elemDrop, tableCopy, tableGrow, tableSize, tableFill,
    extractLane, replaceLane]

/-- Every opcode beside its code. -/
def table : List (Nat × Opcode) := all.map fun op => (op.code, op)

def ofCode? (c : Nat) : Option Opcode := table.lookup c

/-- Whether a byte announces an opcode of two parts. -/
def isEscape (b : UInt8) : Bool := b == 0xFC || b == 0xFD

/-- The escape byte of an opcode of two parts. -/
def escape? (op : Opcode) : Option Nat :=
  if op.code > 0xFF then some (op.code / 256) else none

/-- Two-operand comparisons of integers and floats. -/
def isComparison : Opcode → Bool
  | binary op => op.isComparison
  | _ => false

instance : ToString Opcode := ⟨name⟩

end Opcode

end OnePass
