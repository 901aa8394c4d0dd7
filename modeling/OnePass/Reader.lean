import OnePass.Bytes
import OnePass.Error

/-!
A position in the bytes of a body. A read that runs out of bytes leaves the position where it ran
out. Numbers are LEB128 in their strict form: an encoding takes no more bytes than the width needs,
and the bits of the last byte beyond the width are zero (unsigned) or copies of the sign (signed).
-/
namespace OnePass

structure Reader where
  bytes : Array UInt8
  pos : Nat := 0
  deriving DecidableEq, Repr, Inhabited

/-- Reads keep the position they reached also when they fail. -/
abbrev ReadM := ExceptT DecodeError (StateM Reader)

namespace Reader

/-- At an offset, or at the end if that comes first. -/
def startingAt (bytes : Array UInt8) (offset : Nat) : Reader := ⟨bytes, min offset bytes.size⟩

def isAtEnd (r : Reader) : Bool := r.pos ≥ r.bytes.size

/-- The next byte, left in place. -/
def peek? (r : Reader) : Option UInt8 := r.bytes[r.pos]?

/-- The next `count` bytes if there are so many. -/
def take? (r : Reader) (count : Nat) : Option (List UInt8) :=
  if r.pos + count ≤ r.bytes.size then some (r.bytes.extract r.pos (r.pos + count)).toList
  else none

def failAt (offset : Nat) (fault : DecodeFault) : ReadM α := throw ⟨offset, fault⟩

def readU8 (what : String) : ReadM UInt8 := do
  let r ← get
  match r.peek? with
  | some byte =>
    set { r with pos := r.pos + 1 }
    return byte
  | none => failAt r.pos (.eof what)

/-- Exactly `count` bytes, or none at all. -/
def readBytes (count : Nat) (what : String) : ReadM (List UInt8) := do
  let r ← get
  match r.take? count with
  | some bytes =>
    set { r with pos := r.pos + count }
    return bytes
  | none => failAt r.pos (.eof what)

/-- Groups of seven bits that a number of `width` bits needs. -/
def lebLength (width : Nat) : Nat := (width + 6) / 7

/-- Read the rest of an unsigned number of `width` bits: `shift` bits are in `value`, and at most
`left` more bytes may follow. Faults are reported at `start`. -/
def unsignedLoop (width start : Nat) (what : String) : (left shift : Nat) → UInt64 → ReadM UInt64
  | 0, _, _ => failAt start (.varintTooLong what)
  | left + 1, shift, value => do
    let byte ← readU8 what
    let payload := byte &&& 0x7F
    let value := value ||| payload.toUInt64 <<< UInt64.ofNat shift
    if byte &&& 0x80 = 0 then
      if left = 0 ∧ payload.toUInt32 >>> UInt32.ofNat (width - shift) ≠ 0 then
        failAt start (.extraBits what)
      else return value
    else unsignedLoop width start what left (shift + 7) value

def readUnsigned (width : Nat) (what : String) : ReadM UInt64 := do
  let r ← get
  unsignedLoop width r.pos what (lebLength width) 0 0

/-- Whether the seven bits of the last possible byte repeat the sign from bit `usable - 1` up. -/
def signBitsAgree (usable : Nat) (payload : UInt8) : Bool :=
  let high := payload >>> UInt8.ofNat (usable - 1)
  high == 0 || high == 0x7F >>> UInt8.ofNat (usable - 1)

/-- The sign of the last byte is repeated in the bits from `shift` up, if there are any. -/
def signExtend (shift : Nat) (byte : UInt8) (value : UInt64) : UInt64 :=
  if shift < 64 ∧ byte &&& 0x40 ≠ 0 then value ||| ~~~(0 : UInt64) <<< UInt64.ofNat shift
  else value

/-- As `unsignedLoop`, for signed numbers: the bits read are a number in two's complement. -/
def signedLoop (width start : Nat) (what : String) : (left shift : Nat) → UInt64 → ReadM Int64
  | 0, _, _ => failAt start (.varintTooLong what)
  | left + 1, shift, value => do
    let byte ← readU8 what
    let payload := byte &&& 0x7F
    let value := value ||| payload.toUInt64 <<< UInt64.ofNat shift
    if byte &&& 0x80 = 0 then
      if left = 0 ∧ !signBitsAgree (width - shift) payload then failAt start (.extraBits what)
      else return (signExtend (shift + 7) byte value).toInt64
    else signedLoop width start what left (shift + 7) value

def readSigned (width : Nat) (what : String) : ReadM Int64 := do
  let r ← get
  signedLoop width r.pos what (lebLength width) 0 0

def readU32 (what : String) : ReadM Nat := return (← readUnsigned 32 what).toUInt32.toNat

def readI32 (what : String) : ReadM Int32 := return (← readSigned 32 what).toInt32

def readI64 (what : String) : ReadM Int64 := readSigned 64 what

/-- Block types are signed numbers of 33 bits, so that every type index is representable. -/
def readI33 (what : String) : ReadM Int := return (← readSigned 33 what).toInt

/-- The bits of a 32-bit float. -/
def readF32 (what : String) : ReadM UInt32 :=
  return UInt32.ofNat (Bytes.toNat (← readBytes 4 what))

/-- The bits of a 64-bit float. -/
def readF64 (what : String) : ReadM UInt64 :=
  return UInt64.ofNat (Bytes.toNat (← readBytes 8 what))

end Reader

end OnePass
