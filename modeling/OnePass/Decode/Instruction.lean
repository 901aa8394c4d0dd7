import OnePass.Opcode
import OnePass.Signature

/-!
Decoded instructions: an opcode with its immediates, indices resolved to the types they stand for.
-/
namespace OnePass

/-- The parameters and results of a construct. -/
structure BlockType where
  params : List ValueType
  results : List ValueType
  deriving DecidableEq, Repr, Inhabited

/-- The static part of a memory address. -/
structure MemArg where
  /-- Alignment hint, as an exponent of two. -/
  align : Nat
  offset : Nat
  deriving DecidableEq, Repr, Inhabited

/-- The branch depths of a `br_table`. -/
structure BranchTable where
  entries : Array Nat
  default : Nat
  deriving DecidableEq, Repr, Inhabited

/-- All depths, the default last. -/
def BranchTable.targets (t : BranchTable) : List Nat := t.entries.toList ++ [t.default]

/-- The indices of an indirect call. -/
structure IndirectCallee where
  sigIndex : Nat
  tableIndex : Nat
  deriving DecidableEq, Repr, Inhabited

/-- The scalar and vector constants; floats by their bits. -/
inductive Constant where
  | i32 (value : Int32)
  | i64 (value : Int64)
  | f32 (bits : UInt32)
  | f64 (bits : UInt64)
  | v128 (bytes : List UInt8)
  deriving DecidableEq, Repr

def Constant.type : Constant → ValueType
  | i32 _ => .i32
  | i64 _ => .i64
  | f32 _ => .f32
  | f64 _ => .f64
  | v128 _ => .v128

inductive Instruction where
  | unreachable
  | nop
  | block (type : BlockType)
  | loop (type : BlockType)
  | tryBlock (type : BlockType)
  | ifThen (type : BlockType)
  | elseArm
  | endBlock
  | catchTag (tag : Nat) (params : List ValueType)
  | catchAll
  | throw (tag : Nat) (params : List ValueType)
  | rethrow (depth : Nat)
  | br (depth : Nat)
  | brIf (depth : Nat)
  | brTable (table : BranchTable)
  | ret
  | call (function : Nat) (sig : Signature)
  | callIndirect (callee : IndirectCallee) (sig : Signature)
  | returnCall (function : Nat) (sig : Signature)
  | returnCallIndirect (callee : IndirectCallee) (sig : Signature)
  | drop
  | select
  | selectTyped (ty : ValueType)
  | localGet (index : Nat) (ty : ValueType)
  | localSet (index : Nat) (ty : ValueType)
  | localTee (index : Nat) (ty : ValueType)
  | globalGet (index : Nat) (ty : ValueType)
  | globalSet (index : Nat) (ty : ValueType)
  | tableGet (table : Nat) (elem : ValueType)
  | tableSet (table : Nat) (elem : ValueType)
  | load (ty : LoadType) (arg : MemArg)
  | store (ty : StoreType) (arg : MemArg)
  | memorySize
  | memoryGrow
  | const (value : Constant)
  | unary (op : UnaryOp)
  | binary (op : BinaryOp)
  | refNull (ty : ValueType)
  | refIsNull
  | refFunc (function : Nat)
  | memoryInit (segment : Nat)
  | dataDrop (segment : Nat)
  | memoryCopy
  | memoryFill
  | tableInit (segment : Nat) (segmentType : ValueType) (table : Nat) (elem : ValueType)
  | elemDrop (segment : Nat)
  | tableCopy (dst : Nat) (dstElem : ValueType) (src : Nat) (srcElem : ValueType)
  | tableGrow (table : Nat) (elem : ValueType)
  | tableSize (table : Nat)
  | tableFill (table : Nat) (elem : ValueType)
  | extractLane (lane : UInt8)
  | replaceLane (lane : UInt8)
  deriving DecidableEq, Repr

end OnePass
