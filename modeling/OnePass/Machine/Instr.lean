import OnePass.Machine.Code
import OnePass.Register
import OnePass.Text.Hex

/-!
Machine instructions. `τ` is the type of branch targets: labels while code is assembled, absolute
code offsets once it is decoded. Frame offsets count bytes downwards from the frame pointer. Values
of type `i32` sit zero-extended in 64-bit registers.
-/
namespace OnePass

open Text

inductive Instr (τ : Type) where
  /-- Set up a frame of so many bytes below the frame pointer. -/
  | enterFrame (frameSize : UInt32)
  | leaveFrame
  | ret
  | move (ty : ValueType) (dst src : Reg)
  | loadConst (ty : ValueType) (dst : Reg) (bits : UInt64)
  | spill (ty : ValueType) (offset : UInt32) (src : Reg)
  /-- Store an integer constant, sign-extended in 64-bit slots. -/
  | spillConst (ty : ValueType) (offset : UInt32) (value : Int32)
  | fill (ty : ValueType) (dst : Reg) (offset : UInt32)
  | moveStackValue (ty : ValueType) (dstOffset srcOffset : UInt32)
  /-- Zero the `size` bytes below frame offset `start`. -/
  | zeroSlots (start size : UInt32)
  | loadInstanceField (dst : Reg) (field : InstanceField)
  /-- Read an argument that the caller passed on the stack. -/
  | loadStackArg (ty : ValueType) (dst : Reg) (index : UInt32)
  /-- Write an argument that is passed on the stack. -/
  | storeStackArg (ty : ValueType) (index : UInt32) (src : Reg)
  /-- Read memory at `base + index + offset`; the index is zero-extended. -/
  | load (ty : LoadType) (dst base : Reg) (index : Option Reg) (offset : UInt32)
  | store (ty : StoreType) (base : Reg) (index : Option Reg) (offset : UInt32) (src : Reg)
  | unary (op : Opcode) (dst src : Reg)
  /-- A conversion that branches to `trap` when the result is not representable. -/
  | unaryTrapping (op : Opcode) (dst src : Reg) (trap : τ)
  | binary (op : Opcode) (dst lhs rhs : Reg)
  | binaryImm (op : Opcode) (dst lhs : Reg) (imm : Int32)
  | jump (target : τ)
  /-- Compare `lhs` with `rhs`, or with zero. -/
  | condJump (cond : Cond) (ty : ValueType) (lhs : Reg) (rhs : Option Reg) (target : τ)
  | condJumpImm (cond : Cond) (ty : ValueType) (lhs : Reg) (imm : Int64) (target : τ)
  /-- Branch when the stack pointer is below the limit stored at `limit`. -/
  | stackCheck (limit : Reg) (target : τ)
  /-- A direct call; the index is patched when the module is linked. -/
  | call (function : UInt32)
  | callIndirect (target : Reg)
  | callStub (stub : RuntimeStub)
  | pushRegs (regs : RegSet)
  | popRegs (regs : RegSet)
  | assertUnreachable
  deriving DecidableEq, Repr

namespace Instr

variable {τ : Type}

def op : Instr τ → MachineOp
  | enterFrame _ => .enterFrame
  | leaveFrame => .leaveFrame
  | ret => .ret
  | move .. => .move
  | loadConst .. => .loadConst
  | spill .. => .spill
  | spillConst .. => .spillConst
  | fill .. => .fill
  | moveStackValue .. => .moveStackValue
  | zeroSlots .. => .fillStackSlotsWithZero
  | loadInstanceField .. => .loadInstanceField
  | loadStackArg .. => .loadStackArg
  | storeStackArg .. => .storeStackArg
  | load .. => .load
  | store .. => .store
  | unary .. => .unOp
  | unaryTrapping .. => .unOpTrapping
  | binary .. => .binOp
  | binaryImm .. => .binOpImm
  | jump _ => .jump
  | condJump .. => .condJump
  | condJumpImm .. => .condJumpImm
  | stackCheck .. => .stackCheck
  | call _ => .call
  | callIndirect _ => .callIndirect
  | callStub _ => .callRuntimeStub
  | pushRegs _ => .pushRegisters
  | popRegs _ => .popRegisters
  | assertUnreachable => .assertUnreachable

/-- Where the instruction may branch to. -/
def target? : Instr τ → Option τ
  | unaryTrapping _ _ _ t | jump t | condJump _ _ _ _ t | condJumpImm _ _ _ _ t
  | stackCheck _ t => some t
  | _ => none

private def slotText (offset : UInt32) : String := s!"[fp-{offset.toNat}]"

private def orDash : Option Reg → String
  | some r => r.name
  | none => "-"

private def orZero : Option Reg → String
  | some r => r.name
  | none => "0"

/-- The instruction as a line of assembly; `place` writes a branch target. -/
def text (place : τ → String) : Instr τ → String
  | enterFrame size => s!"enter_frame {size.toNat}"
  | leaveFrame => "leave_frame"
  | ret => "ret"
  | move ty dst src => s!"move.{ty} {dst}, {src}"
  | loadConst ty dst bits => s!"load_const.{ty} {dst}, {hexLiteral bits.toNat}"
  | spill ty offset src => s!"spill.{ty} {slotText offset}, {src}"
  | spillConst ty offset value => s!"spill_const.{ty} {slotText offset}, {value.toInt}"
  | fill ty dst offset => s!"fill.{ty} {dst}, {slotText offset}"
  | moveStackValue ty dst src => s!"move_stack.{ty} {slotText dst}, {slotText src}"
  | zeroSlots start size => s!"zero_slots {slotText start}, {size.toNat}"
  | loadInstanceField dst field => s!"load_instance {dst}, {field.ident}"
  | loadStackArg ty dst index => s!"load_arg.{ty} {dst}, #{index.toNat}"
  | storeStackArg ty index src => s!"store_arg.{ty} #{index.toNat}, {src}"
  | load ty dst base index offset =>
    s!"load.{ty.ident} {dst}, [{base} + {orDash index} + {offset.toNat}]"
  | store ty base index offset src =>
    s!"store.{ty.ident} [{base} + {orDash index} + {offset.toNat}], {src}"
  | unary op dst src => s!"{op} {dst}, {src}"
  | unaryTrapping op dst src trap => s!"{op} {dst}, {src} (trap @{place trap})"
  | binary op dst lhs rhs => s!"{op} {dst}, {lhs}, {rhs}"
  | binaryImm op dst lhs imm => s!"{op} {dst}, {lhs}, {imm.toInt}"
  | jump target => s!"jmp @{place target}"
  | condJump cond ty lhs rhs target =>
    s!"j{cond.mnemonic}.{ty} {lhs}, {orZero rhs} @{place target}"
  | condJumpImm cond ty lhs imm target =>
    s!"j{cond.mnemonic}.{ty} {lhs}, {imm.toInt} @{place target}"
  | stackCheck limit target => s!"stack_check [{limit}] @{place target}"
  | call function => s!"call #{function.toNat}"
  | callIndirect target => s!"call {target}"
  | callStub stub => s!"call_stub {stub.ident}"
  | pushRegs regs => s!"push {regs.text}"
  | popRegs regs => s!"pop {regs.text}"
  | assertUnreachable => "assert_unreachable"

end Instr

end OnePass
