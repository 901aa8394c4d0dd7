import OnePass.Lowering.Numeric

/-!
Globals and memory accesses.
-/
namespace OnePass

namespace Lowering

/-- Bytes of a pointer in the instance's tables. -/
def pointerSize : Nat := 8

/-- Exponent of two of the page size. -/
def pageSizeLog2 : Int32 := 16

/-- The offset of an entry in a table of pointers, which has to fit its instruction. -/
def pointerSlot (kind : String) (index : Nat) : LowerM UInt32 :=
  if index * pointerSize < UInt32.size then return .ofNat (index * pointerSize)
  else throw (.internal s!"imported {kind} slot out of range")

def lookupGlobal (ctx : Context) (index : Nat) : LowerM Global := do
  match ctx.module.globals[index]? with
  | none => throw (.internal "global index out of range")
  | some global =>
    if global.ty.isReference then throw ⟨.referenceTypes, "reference-typed global"⟩
    requireScalar "global" global.ty
    return global

/-- A register and an offset that together give the address of a global. -/
def globalAddress (global : Global) (pinned : RegSet) : LowerM (Reg × Nat) := do
  let base ← unusedReg .gp pinned
  if global.isIndirect then
    let slot ← pointerSlot "global" global.offset
    emit (.loadInstanceField base .importedMutableGlobals)
    emit (.load .i64Load base base none slot)
    return (base, 0)
  else
    emit (.loadInstanceField base .globalsStart)
    return (base, global.offset)

def globalGet (ctx : Context) (index : Nat) : LowerM Unit := do
  let global ← lookupGlobal ctx index
  let (base, offset) ← globalAddress global .empty
  let dst ← unusedRegFrom (.ofType global.ty) (.ofList [base])
  emit (.load (.ofValueType global.ty) dst base none (.ofNat offset))
  pushReg global.ty dst

def globalSet (ctx : Context) (index : Nat) : LowerM Unit := do
  let global ← lookupGlobal ctx index
  let value ← popToReg
  let (base, offset) ← globalAddress global (.ofList [value])
  emit (.store (.ofValueType global.ty) base none (.ofNat offset) value)

/-- Where an access goes whose index is in bounds. Without an index register the index is part of
the offset. -/
structure Address where
  index : Option Reg
  offset : Nat
  deriving DecidableEq, Repr

/-- The registers of an address, with others. -/
def Address.pin (a : Address) (pinned : RegSet) : RegSet :=
  match a.index with
  | some r => pinned.insert r
  | none => pinned

/-- Trap unless the whole access is inside the memory. Its last byte is at `index + lastByte`. -/
def boundsCheck (ctx : Context) (index : Reg) (lastByte : Nat) (pinned : RegSet) :
    LowerM Unit := do
  let pinned := pinned.insert index
  let trap ← addTrap .trapMemOutOfBounds ctx.pc
  let size ← unusedReg .gp pinned
  let limit ← unusedReg .gp (pinned.insert size)
  emit (.loadInstanceField size .memorySize)
  emitting (·.loadBits .i64 limit (.ofNat lastByte))
  -- A memory never gets smaller than its minimum, so that `size - lastByte` does not wrap.
  if lastByte ≥ ctx.module.minMemorySize then
    emit (.condJump .aboveEqual .i64 limit (some size) trap)
  emit (.binary (.binary (.int .w64 .sub)) limit size limit)
  emit (.condJump .aboveEqual .i64 index (some limit) trap)
  if (← get).options.indexMasking then
    emit (.loadInstanceField size .memoryMask)
    emit (.binary (.binary (.int .w64 .and)) index index size)

/-- Pop the index of an access to `size` bytes and check it. No answer: the access can never
succeed, and code that traps was emitted. -/
def memoryAddress? (ctx : Context) (size offset : Nat) (pinned : RegSet) :
    LowerM (Option Address) := do
  let options := (← get).options
  let top ← peekSlot
  let known := top.const?.map fun value => value.toUInt32.toNat
  let least := known.getD 0
  if known.isSome && least + offset + size ≤ ctx.module.minMemorySize
      && least + offset < UInt32.size then
    let _ ← popSlot
    return some ⟨none, least + offset⟩
  else if least + offset + size > ctx.module.maxMemorySize then
    let _ ← popSlot
    let trap ← addTrap .trapMemOutOfBounds ctx.pc
    emit (.jump trap)
    return none
  else if options.boundsChecks = .trapHandler then
    let index ← popToReg pinned
    return some ⟨some index, offset⟩
  else
    let index ←
      if options.indexMasking then popToModifiableReg pinned else popToReg pinned
    boundsCheck ctx index (offset + size - 1) pinned
    return some ⟨some index, offset⟩

/-- Let the trap handler know an unchecked access, which stands at `pc`. -/
def protectAccess (ctx : Context) (a : Address) (pc : Nat) : LowerM Unit := do
  if (← get).options.boundsChecks = .trapHandler && a.index.isSome then
    let _ ← addTrap .trapMemOutOfBounds ctx.pc (some pc)

def load (ctx : Context) (ty : LoadType) (arg : MemArg) : LowerM Reply := do
  requireScalar "load" ty.valueType
  match ← memoryAddress? ctx ty.size arg.offset .empty with
  | none => return .dead
  | some a =>
    let pinned := a.pin .empty
    let base ← unusedReg .gp pinned
    emit (.loadInstanceField base .memoryStart)
    let dst ← unusedRegFrom (.ofType ty.valueType) (pinned.insert base)
    let pc := (← get).emitter.pc
    emit (.load ty dst base a.index (.ofNat a.offset))
    protectAccess ctx a pc
    pushReg ty.valueType dst
    return .proceed

def store (ctx : Context) (ty : StoreType) (arg : MemArg) : LowerM Reply := do
  requireScalar "store" ty.valueType
  let value ← popToReg
  match ← memoryAddress? ctx ty.size arg.offset (.ofList [value]) with
  | none => return .dead
  | some a =>
    let base ← unusedReg .gp (a.pin (.ofList [value]))
    emit (.loadInstanceField base .memoryStart)
    let pc := (← get).emitter.pc
    emit (.store ty base a.index (.ofNat a.offset) value)
    protectAccess ctx a pc
    return .proceed

/-- The size in pages. -/
def memorySize : LowerM Unit := do
  let dst ← unusedReg .gp
  emit (.loadInstanceField dst .memorySize)
  emit (.binaryImm (.binary (.int .w64 .shrU)) dst dst pageSizeLog2)
  pushReg .i32 dst

end Lowering

end OnePass
