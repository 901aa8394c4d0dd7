import OnePass.Cache.State
import OnePass.CodeBuffer
import OnePass.Error

/-!
A code buffer together with the state of the slots it is emitted for. Everything that changes where
values live and emits the code for it goes through an emitter.
-/
namespace OnePass

structure Emitter where
  buffer : CodeBuffer := {}
  state : CacheState := {}
  /-- So many of the first slots are locals. -/
  numLocals : Nat := 0

/-- A step of code generation. What was emitted before a refusal stays. -/
abbrev EmitM := ExceptT Bailout (StateM Emitter)

/-- Frames are multiples of this. -/
def frameAlignment : Nat := 16

/-- More values were taken than there are. -/
def Bailout.underflow : Bailout := .internal "code generator value stack underflow"

namespace Emitter

/-- The offset of the next instruction. -/
def pc (e : Emitter) : Nat := e.buffer.pc

def emit (e : Emitter) (i : Instr Label) : Emitter := { e with buffer := e.buffer.emit i }

def emitAll (e : Emitter) (code : List (Instr Label)) : Emitter := code.foldl emit e

/-- A label that is not in use yet. -/
def nextLabel (e : Emitter) : Label := e.buffer.nextLabel

/-- Take the next label into use. -/
def addLabel (e : Emitter) : Emitter := { e with buffer := e.buffer.addLabel }

def bind (e : Emitter) (l : Label) : Emitter := { e with buffer := e.buffer.bind l }

def isBound (e : Emitter) (l : Label) : Bool := e.buffer.isBound l

def modifyState (e : Emitter) (f : CacheState → CacheState) : Emitter :=
  { e with state := f e.state }

/-- Bytes of a frame that has room for every slot handed out so far. -/
def frameSize (e : Emitter) : Nat := roundUp e.state.maxOffset frameAlignment

def moveReg (e : Emitter) (ty : ValueType) (dst src : Reg) : Emitter :=
  if dst = src then e else e.emit (.move ty dst src)

def loadConstant (e : Emitter) (ty : ValueType) (dst : Reg) (value : Int32) : Emitter :=
  e.emit (.loadConst ty dst (constBits ty value))

def loadBits (e : Emitter) (ty : ValueType) (dst : Reg) (bits : UInt64) : Emitter :=
  e.emit (.loadConst ty dst bits)

def spill (e : Emitter) (ty : ValueType) (offset : Nat) (src : Reg) : Emitter :=
  e.emit (.spill ty (.ofNat offset) src)

def fill (e : Emitter) (ty : ValueType) (dst : Reg) (offset : Nat) : Emitter :=
  e.emit (.fill ty dst (.ofNat offset))

/-- Bring the value of a slot into a register. The slot stays where it is. -/
def loadSlot (e : Emitter) (slot : Slot) (dst : Reg) : Emitter :=
  match slot.loc with
  | .reg r => e.moveReg slot.ty dst r
  | .const value => e.loadConstant slot.ty dst value
  | .stack => e.fill slot.ty dst slot.offset

/-- Move the value of a slot to its place in the frame. -/
def spillSlot (e : Emitter) (index : Nat) : Emitter :=
  match e.state.slots[index]? with
  | none => e
  | some slot =>
    match slot.loc with
    | .stack => e
    | .reg r => (e.spill slot.ty slot.offset r).modifyState (·.relocate index .stack)
    | .const value =>
      (e.emit (.spillConst slot.ty (.ofNat slot.offset) value)).modifyState
        (·.relocate index .stack)

/-- Spill the slots among `indices` that satisfy `p` when their turn comes. -/
def spillWhere (e : Emitter) (p : Slot → Bool) (indices : List Nat) : Emitter :=
  indices.foldl (fun e i => if e.state.slots[i]?.any p then e.spillSlot i else e) e

/-- Spill every slot that a register backs, the topmost first. -/
def spillReg (e : Emitter) (r : Reg) : Emitter :=
  e.spillWhere (·.reg? == some r) (List.range e.state.height).reverse

def spillLocals (e : Emitter) : Emitter := e.spillWhere (fun _ => true) (List.range e.numLocals)

/-- Spill every slot that a register backs. Constants stay. -/
def spillAllRegs (e : Emitter) : Emitter :=
  e.spillWhere (·.reg?.isSome) (List.range e.state.height)

/-- Spill every slot whose register backs a lower slot, too. -/
def unshareRegs (e : Emitter) : Emitter :=
  let unshare : Emitter × RegSet → Nat → Emitter × RegSet := fun (e, seen) i =>
    match e.state.slots[i]?.bind Slot.reg? with
    | some r => if seen.contains r then (e.spillSlot i, seen) else (e, seen.insert r)
    | none => (e, seen)
  ((List.range e.state.height).foldl unshare (e, .empty)).1

/-- Give a constant slot a free register, or its place in the frame. -/
def materializeSlot (e : Emitter) (index : Nat) : Emitter :=
  match e.state.slots[index]? with
  | none => e
  | some slot =>
    match slot.loc with
    | .const value =>
      match e.state.unused? slot.regClass .empty with
      | some r => (e.loadConstant slot.ty r value).modifyState (·.relocate index (.reg r))
      | none => e.spillSlot index
    | _ => e

/-- Let none of the topmost `count` slots be a constant. -/
def materializeConstants (e : Emitter) (count : Nat) : Emitter :=
  ((List.range e.state.height).drop (e.state.height - count)).foldl materializeSlot e

end Emitter

end OnePass
