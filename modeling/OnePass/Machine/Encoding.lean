import OnePass.Bytes
import OnePass.Machine.Instr

/-!
The byte form of machine instructions: one operation byte, then the operands in order, each of fixed
width and least significant byte first. Instructions with a branch target end in a 32-bit
displacement relative to the end of the instruction.
-/
namespace OnePass

namespace Encoding

/-- Stands for an absent register. -/
def noReg : UInt8 := 0xFF

def u32 (n : UInt32) : List UInt8 := Bytes.ofNat 4 n.toNat

def u64 (n : UInt64) : List UInt8 := Bytes.ofNat 8 n.toNat

def i32 (n : Int32) : List UInt8 := u32 n.toUInt32

def i64 (n : Int64) : List UInt8 := u64 n.toUInt64

def reg (r : Reg) : List UInt8 := [UInt8.ofNat r.code]

def optReg : Option Reg → List UInt8
  | some r => reg r
  | none => [noReg]

def type (ty : ValueType) : List UInt8 := [ty.code?.getD 0]

def opcode (op : Opcode) : List UInt8 := Bytes.ofNat 4 op.code

def regSet (s : RegSet) : List UInt8 := Bytes.ofNat 4 s.bits.toNat

/-- A displacement that is still to be patched. -/
def hole : List UInt8 := [0, 0, 0, 0]

end Encoding

open Encoding in
/-- The operands after the operation byte. A displacement is written as zero. -/
def Instr.operands {τ : Type} : Instr τ → List UInt8
  | enterFrame size => u32 size
  | leaveFrame | ret | assertUnreachable => []
  | move ty dst src => type ty ++ reg dst ++ reg src
  | loadConst ty dst bits => type ty ++ reg dst ++ u64 bits
  | spill ty offset src => type ty ++ u32 offset ++ reg src
  | spillConst ty offset value => type ty ++ u32 offset ++ i32 value
  | fill ty dst offset => type ty ++ reg dst ++ u32 offset
  | moveStackValue ty dst src => type ty ++ u32 dst ++ u32 src
  | zeroSlots start size => u32 start ++ u32 size
  | loadInstanceField dst field => reg dst ++ [field.code]
  | loadStackArg ty dst index => type ty ++ reg dst ++ u32 index
  | storeStackArg ty index src => type ty ++ u32 index ++ reg src
  | load ty dst base index offset => [ty.code] ++ reg dst ++ reg base ++ optReg index ++ u32 offset
  | store ty base index offset src => [ty.code] ++ reg base ++ optReg index ++ u32 offset ++ reg src
  | unary op dst src => opcode op ++ reg dst ++ reg src
  | unaryTrapping op dst src _ => opcode op ++ reg dst ++ reg src ++ hole
  | binary op dst lhs rhs => opcode op ++ reg dst ++ reg lhs ++ reg rhs
  | binaryImm op dst lhs imm => opcode op ++ reg dst ++ reg lhs ++ i32 imm
  | jump _ => hole
  | condJump cond ty lhs rhs _ => [cond.code] ++ type ty ++ reg lhs ++ optReg rhs ++ hole
  | condJumpImm cond ty lhs imm _ => [cond.code] ++ type ty ++ reg lhs ++ i64 imm ++ hole
  | stackCheck limit _ => reg limit ++ hole
  | call function => u32 function
  | callIndirect target => reg target
  | callStub stub => [stub.code]
  | pushRegs regs | popRegs regs => regSet regs

/-- The bytes of an instruction, a displacement left zero. -/
def Instr.encode {τ : Type} (i : Instr τ) : List UInt8 := i.op.code :: i.operands

end OnePass
