import OnePass.Emitter.Basic
import OnePass.SideTable

/-!
Rarely taken paths, emitted after the body. Each calls a stub: a trap never comes back, a stack
check brings the registers back and goes on where it was left.

Registers in use are pushed around the call; for a debugger they are written to their places in the
frame instead.
-/
namespace OnePass

/-- A body offset and the code that belongs to it. -/
structure SourcePosition where
  code : Nat
  source : Nat
  deriving DecidableEq, Repr

/-- A memory access that may fault, and where its trap handler goes on. -/
structure ProtectedInstr where
  instr : Nat
  landing : Nat
  deriving DecidableEq, Repr

/-- A register whose value is written to its place in the frame. -/
structure SavedReg where
  ty : ValueType
  reg : Reg
  offset : Nat
  deriving DecidableEq, Repr

structure OutOfLine where
  label : Label
  /-- Where to go on; traps do not. -/
  continuation : Option Label := none
  stub : RuntimeStub
  /-- Body offset of the instruction that branches here. -/
  position : Nat
  pushed : RegSet := .empty
  /-- Code offset of a memory access that faults into this trap. -/
  trappingPc : Option Nat := none
  saved : List SavedReg := []
  /-- The entry of the side table that describes the call. -/
  entry : Option Nat := none
  deriving Repr

/-- Code and the tables that describe it. -/
structure Assembly where
  emitter : Emitter := {}
  positions : Array SourcePosition := #[]
  protections : Array ProtectedInstr := #[]
  sideRecord : Option SideRecord := none

namespace OutOfLine

/-- A path that calls the stack guard and goes on. -/
def stackCheck (label continuation : Label) (position : Nat) (pushed : RegSet) : OutOfLine :=
  { label, continuation := some continuation, stub := .stackGuard, position, pushed }

/-- The code that saves registers before the call. -/
def saveCode (o : OutOfLine) : List (Instr Label) :=
  if o.pushed.isEmpty then o.saved.map fun s => .spill s.ty (.ofNat s.offset) s.reg
  else [.pushRegs o.pushed]

/-- The code after the call. -/
def resumeCode (o : OutOfLine) : List (Instr Label) :=
  match o.continuation with
  | none => [.assertUnreachable]
  | some l =>
    let restore :=
      if o.pushed.isEmpty then
        o.saved.map (fun s => .fill s.ty s.reg (.ofNat s.offset)) ++
          [.fill .i64 .instanceReg (.ofNat instanceOffset)]
      else [.popRegs o.pushed]
    restore ++ [.jump l]

/-- The side table with the offset of the path's entry set. -/
def setEntry (o : OutOfLine) (pc : Nat) (record : Option SideRecord) : Option SideRecord :=
  match o.entry, record with
  | some index, some r => some (r.setPc index pc)
  | _, record => record

/-- Emit the path at the end of the code. -/
def generate (o : OutOfLine) (a : Assembly) : Assembly :=
  let start := a.emitter.bind o.label
  let saved := start.emitAll o.saveCode
  let called := saved.emit (.callStub o.stub)
  { emitter := called.emitAll o.resumeCode
    positions := a.positions.push ⟨saved.pc, o.position⟩
    protections := match o.trappingPc with
      | some pc => a.protections.push ⟨pc, start.pc⟩
      | none => a.protections
    sideRecord := o.setEntry called.pc a.sideRecord }

end OutOfLine

end OnePass
