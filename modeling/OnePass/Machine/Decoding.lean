import OnePass.Machine.Encoding

/-!
Reading machine code back into instructions with absolute branch targets.
-/
namespace OnePass

inductive DisasmError where
  | truncated (offset : Nat)
  | unknownOp (op : UInt8) (offset : Nat)
  | invalidOperand (offset : Nat)
  deriving DecidableEq, Repr

def DisasmError.text : DisasmError → String
  | truncated offset => s!"truncated instruction at offset {offset}"
  | unknownOp op offset => s!"unknown machine opcode {Text.hexByte op} at offset {offset}"
  | invalidOperand offset => s!"invalid operand in instruction at offset {offset}"

namespace Decoding

/-- Why an operand cannot be read. -/
inductive Fault where
  | truncated | invalid
  deriving DecidableEq, Repr

def Fault.toError : Fault → Nat → DisasmError
  | truncated, offset => .truncated offset
  | invalid, offset => .invalidOperand offset

/-- The bytes not yet read and the code offset of the first of them. -/
structure Cursor where
  rest : List UInt8
  pos : Nat
  deriving DecidableEq, Repr

abbrev Get := StateT Cursor (Except Fault)

def bytes (count : Nat) : Get (List UInt8) := do
  let c ← get
  let taken := c.rest.take count
  if taken.length < count then throw .truncated
  set (Cursor.mk (c.rest.drop count) (c.pos + count))
  return taken

def byte : Get UInt8 := do
  let c ← get
  match c.rest with
  | [] => throw .truncated
  | b :: rest =>
    set (Cursor.mk rest (c.pos + 1))
    return b

def orInvalid {α : Type} : Option α → Get α
  | some a => return a
  | none => throw .invalid

def nat32 : Get Nat := return Bytes.toNat (← bytes 4)

def u32 : Get UInt32 := return UInt32.ofNat (← nat32)

def u64 : Get UInt64 := return UInt64.ofNat (Bytes.toNat (← bytes 8))

def i32 : Get Int32 := return (← u32).toInt32

def i64 : Get Int64 := return (← u64).toInt64

def reg : Get Reg := do orInvalid (Reg.ofCode? (← byte).toNat)

def optReg : Get (Option Reg) := do
  let b ← byte
  if b = Encoding.noReg then return none
  else return some (← orInvalid (Reg.ofCode? b.toNat))

def type : Get ValueType := do orInvalid (ValueType.ofCode? (← byte))

def opcode : Get Opcode := do orInvalid (Opcode.ofCode? (← nat32))

def loadType : Get LoadType := do orInvalid (LoadType.ofCode? (← byte))

def storeType : Get StoreType := do orInvalid (StoreType.ofCode? (← byte))

def cond : Get Cond := do orInvalid (Cond.ofCode? (← byte))

def field : Get InstanceField := do orInvalid (InstanceField.ofCode? (← byte))

def stub : Get RuntimeStub := do orInvalid (RuntimeStub.ofCode? (← byte))

def regSet : Get RegSet := return ⟨BitVec.ofNat 32 (← nat32)⟩

/-- The displacement at the end of an instruction, resolved to a code offset. -/
def target : Get Nat := do
  let rel ← i32
  let c ← get
  let t := (c.pos : Int) + rel.toInt
  if 0 ≤ t ∧ t < UInt32.size then return t.toNat else throw .invalid

/-- The operands of an operation. -/
def operands : MachineOp → Get (Instr Nat)
  | .enterFrame => return .enterFrame (← u32)
  | .leaveFrame => return .leaveFrame
  | .ret => return .ret
  | .move => return .move (← type) (← reg) (← reg)
  | .loadConst => return .loadConst (← type) (← reg) (← u64)
  | .spill => return .spill (← type) (← u32) (← reg)
  | .spillConst => return .spillConst (← type) (← u32) (← i32)
  | .fill => return .fill (← type) (← reg) (← u32)
  | .moveStackValue => return .moveStackValue (← type) (← u32) (← u32)
  | .fillStackSlotsWithZero => return .zeroSlots (← u32) (← u32)
  | .loadInstanceField => return .loadInstanceField (← reg) (← field)
  | .loadStackArg => return .loadStackArg (← type) (← reg) (← u32)
  | .storeStackArg => return .storeStackArg (← type) (← u32) (← reg)
  | .load => return .load (← loadType) (← reg) (← reg) (← optReg) (← u32)
  | .store => return .store (← storeType) (← reg) (← optReg) (← u32) (← reg)
  | .unOp => return .unary (← opcode) (← reg) (← reg)
  | .unOpTrapping => return .unaryTrapping (← opcode) (← reg) (← reg) (← target)
  | .binOp => return .binary (← opcode) (← reg) (← reg) (← reg)
  | .binOpImm => return .binaryImm (← opcode) (← reg) (← reg) (← i32)
  | .jump => return .jump (← target)
  | .condJump => return .condJump (← cond) (← type) (← reg) (← optReg) (← target)
  | .condJumpImm => return .condJumpImm (← cond) (← type) (← reg) (← i64) (← target)
  | .stackCheck => return .stackCheck (← reg) (← target)
  | .call => return .call (← u32)
  | .callIndirect => return .callIndirect (← reg)
  | .callRuntimeStub => return .callStub (← stub)
  | .pushRegisters => return .pushRegs (← regSet)
  | .popRegisters => return .popRegs (← regSet)
  | .assertUnreachable => return .assertUnreachable

/-- The instruction whose bytes stand first in the suffix of the code that begins at `offset`, and
what follows it. -/
def instr (offset : Nat) (suffix : List UInt8) : Except DisasmError (Instr Nat × Cursor) :=
  match suffix with
  | [] => .error (.truncated offset)
  | b :: rest =>
    match MachineOp.ofCode? b with
    | none => .error (.unknownOp b offset)
    | some op => ((operands op).run ⟨rest, offset + 1⟩).mapError (·.toError offset)

/-- Decode until nothing is left. Every instruction takes a byte, so `fuel` bytes need no more
steps. -/
def instrs :
    (fuel : Nat) → (offset : Nat) → List UInt8 → Except DisasmError (List (Nat × Instr Nat))
  | _, _, [] => .ok []
  | 0, _, _ => .ok []
  | fuel + 1, offset, suffix => do
    let (i, c) ← instr offset suffix
    let rest ← instrs fuel c.pos c.rest
    return (offset, i) :: rest

end Decoding

/-- The instruction at an offset and its length. -/
def Instr.decode (code : Array UInt8) (offset : Nat) : Except DisasmError (Instr Nat × Nat) := do
  let (i, c) ← Decoding.instr offset (code.toList.drop offset)
  return (i, c.pos - offset)

/-- The instructions from an offset on, with their offsets. -/
def disassembleFrom (code : Array UInt8) (start : Nat) :
    Except DisasmError (List (Nat × Instr Nat)) :=
  Decoding.instrs (code.size - start) start (code.toList.drop start)

/-- All instructions of a code buffer with their offsets. -/
def disassemble (code : Array UInt8) : Except DisasmError (List (Nat × Instr Nat)) :=
  disassembleFrom code 0

/-- A decoded instruction as text, targets as decimal offsets. -/
def Instr.line (i : Instr Nat) : String := i.text fun t => toString t

/-- An offset and the instruction there. -/
def listingLine (entry : Nat × Instr Nat) : String := s!"{entry.1}: {entry.2.line}"

end OnePass
