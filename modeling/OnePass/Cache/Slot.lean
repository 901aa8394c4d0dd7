import OnePass.Register

/-!
Where a value lives while code is generated. Every local and operand has a slot. Its place in the
frame is fixed as long as the slot exists, whether or not the value is there at the moment.
-/
namespace OnePass

/-- Bytes of a frame in front of the first slot. -/
def staticFrameSize : Nat := 16

/-- Where the frame keeps the instance. -/
def instanceOffset : Nat := 16

/-- Bytes a value of a type takes in the frame; also their alignment. -/
def slotSize (ty : ValueType) : Nat := if ty = .v128 then 16 else 8

inductive Location where
  | reg (r : Reg)
  /-- An integer that no code has produced yet; sign-extended for 64-bit types. -/
  | const (value : Int32)
  /-- In the frame. -/
  | stack
  deriving DecidableEq, Repr

namespace Location

def reg? : Location → Option Reg
  | reg r => some r
  | _ => none

def const? : Location → Option Int32
  | const value => some value
  | _ => none

def text : Location → String
  | reg r => r.name
  | const value => s!"#{value.toInt}"
  | stack => "st"

end Location

structure Slot where
  ty : ValueType
  loc : Location
  /-- Place in the frame, counted downwards from the frame pointer. -/
  offset : Nat
  deriving DecidableEq, Repr

namespace Slot

def reg? (s : Slot) : Option Reg := s.loc.reg?

def const? (s : Slot) : Option Int32 := s.loc.const?

/-- The registers that can hold the value. -/
def regClass (s : Slot) : RegClass := .ofType s.ty

def text (s : Slot) : String := s!"{s.ty.name}:{s.loc.text}@{s.offset}"

end Slot

/-- The bits of an integer constant in a register: `i32` zero-extended, all else sign-extended. -/
def constBits (ty : ValueType) (value : Int32) : UInt64 :=
  if ty = .i32 then value.toUInt32.toUInt64 else value.toInt64.toUInt64

end OnePass
