import OnePass.Decode.Event
import OnePass.Emitter.Call
import OnePass.OutOfLine

/-!
The state of code generation and the steps that every kind of instruction shares. Code is emitted
event by event, while the decoder goes through the body. The slots stand for the locals and the
decoder's operands; slow paths are collected and emitted after the body.
-/
namespace OnePass

/-- The arm of an `if` that is entered when the condition is false. -/
structure ElseArm where
  label : Label
  state : CacheState

/-- What code generation knows of an open construct. -/
structure ControlData where
  /-- Where branches go: to the header of a loop, to the end of any other construct. -/
  label : Label
  /-- Where branches leave the values. The first branch decides, for a loop the header. -/
  labelState : Option CacheState := none
  elseArm : Option ElseArm := none

structure Lowering where
  options : CompileOptions
  work : Assembly
  /-- Open constructs, the innermost first. -/
  control : List ControlData := []
  /-- Slow paths, in the order in which they are emitted. -/
  outOfLine : Array OutOfLine := #[]
  /-- A test of `i32` values whose result is not computed because the next instruction branches on
  it. Its operands are still on the stack. -/
  pendingTest : Option Opcode := none
  /-- Offset of the instruction that sets up the frame. -/
  frameSetup : Nat := 0

/-- A step of code generation. -/
abbrev LowerM := ExceptT Bailout (StateM Lowering)

/-- A step of the emitter is a step of code generation. -/
def liftEmit {α : Type} (m : EmitM α) : LowerM α := ExceptT.mk fun s =>
  let ⟨options, ⟨emitter, positions, protections, sideRecord⟩, control, outOfLine, pendingTest,
    frameSetup⟩ := s
  let (r, emitter) := m.run.run emitter
  (r, ⟨options, ⟨emitter, positions, protections, sideRecord⟩, control, outOfLine, pendingTest,
    frameSetup⟩)

namespace Lowering

/-- The state before the first event. -/
def start (options : CompileOptions) : Lowering :=
  { options, work := { sideRecord := if options.wantsSideTable then some {} else none } }

def emitter (s : Lowering) : Emitter := s.work.emitter

def mapEmitter (s : Lowering) (f : Emitter → Emitter) : Lowering :=
  { s with work := { s.work with emitter := f s.work.emitter } }

/-- Change the emitter. -/
def emitting (f : Emitter → Emitter) : LowerM Unit := modify (·.mapEmitter f)

def emit (i : Instr Label) : LowerM Unit := emitting (·.emit i)

def newLabel : LowerM Label :=
  modifyGet fun s => (s.emitter.nextLabel, s.mapEmitter Emitter.addLabel)

def bindLabel (l : Label) : LowerM Unit := emitting (·.bind l)

def popSlot : LowerM Slot := liftEmit Emitter.popSlot

def peekSlot : LowerM Slot := liftEmit Emitter.peekSlot

def popToReg (pinned : RegSet := .empty) : LowerM Reg := liftEmit (Emitter.popToReg pinned)

def popToModifiableReg (pinned : RegSet := .empty) : LowerM Reg :=
  liftEmit (Emitter.popToModifiableReg pinned)

def unusedReg (c : RegClass) (pinned : RegSet := .empty) : LowerM Reg :=
  liftEmit (Emitter.unusedReg c pinned)

def unusedRegFrom (c : RegClass) (candidates : RegSet) (pinned : RegSet := .empty) : LowerM Reg :=
  liftEmit (Emitter.unusedRegFrom c candidates pinned)

def pushReg (ty : ValueType) (r : Reg) : LowerM Unit := liftEmit (Emitter.pushReg ty r)

/-- Push a value that no register holds. -/
def pushAt (ty : ValueType) (loc : Location) : LowerM Unit :=
  emitting (·.modifyState (·.push ty loc))

/-- Vectors have no registers. -/
def requireScalar (what : String) (ty : ValueType) : LowerM Unit :=
  if ty = .v128 then throw ⟨.simd, s!"v128 {what}"⟩ else return

/-- The code that follows belongs to the body offset `source`. -/
def recordPosition (source : Nat) : LowerM Unit :=
  modify fun s =>
    { s with work := { s.work with positions := s.work.positions.push ⟨s.emitter.pc, source⟩ } }

/-- Describe the slots for a debugger, if one is wanted, at code offset `pc`. The answer holds the
index of the entry. -/
def recordEntry (pc : Nat) (view : RegisterView) : LowerM (Option Nat) := do
  let s ← get
  match s.work.sideRecord with
  | none => return none
  | some record =>
    let (index, record) := record.add pc s.emitter.state view
    modify fun s => { s with work := { s.work with sideRecord := some record } }
    return some index

/-- The registers in use and where their values go for a debugger. -/
def savedRegs (s : Lowering) : List SavedReg :=
  if s.work.sideRecord.isNone then []
  else s.emitter.state.slots.toList.filterMap fun slot =>
    slot.reg?.map fun r => ⟨slot.ty, r, slot.offset⟩

/-- A slow path that traps. `trappingPc` is the offset of a memory access that faults into it. The
offset of its debug entry is known when the path is emitted. -/
def addTrap (stub : RuntimeStub) (position : Nat) (trappingPc : Option Nat := none) :
    LowerM Label := do
  let label ← newLabel
  let entry ← recordEntry 0 .assumeSpilled
  let saved := (← get).savedRegs
  let path : OutOfLine := { label, stub, position, trappingPc, saved, entry }
  modify fun s => { s with outOfLine := s.outOfLine.push path }
  return label

/-- Let the stack guard run when the stack pointer is below the limit. Registers are pushed around
the call; for a debugger they go to their places in the frame. -/
def stackCheck (position : Nat) : LowerM Unit := do
  let s ← get
  if !s.options.stackChecks then return
  let label ← newLabel
  let continuation ← newLabel
  let pushed :=
    if s.work.sideRecord.isSome then .empty else s.emitter.state.used.insert .instanceReg
  let entry ← recordEntry 0 .assumeSpilled
  let path : OutOfLine :=
    { OutOfLine.stackCheck label continuation position pushed with saved := s.savedRegs, entry }
  modify fun s => { s with outOfLine := s.outOfLine.push path }
  emit (.loadInstanceField (.scratch .gp) .stackLimitAddress)
  emit (.stackCheck (.scratch .gp) label)
  bindLabel continuation

/-- Stop at a breakpoint in front of the current instruction. -/
def breakpoint (position : Nat) : LowerM Unit := do
  recordPosition position
  emit (.callStub .debugBreak)
  let _ ← recordEntry (← get).emitter.pc .allowRegs

/-- Emit the slow paths and set the size of the frame. -/
def finishFunction : LowerM Unit := do
  modify fun s => { s with work := s.outOfLine.foldl (fun a path => path.generate a) s.work }
  let setup := (← get).frameSetup
  emitting fun e => { e with buffer := e.buffer.patchFrameSize setup e.frameSize }
  if !(← get).emitter.buffer.allResolved then
    throw (.internal "unbound label at end of function")

end Lowering

end OnePass
