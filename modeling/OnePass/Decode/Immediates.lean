import OnePass.Decode.Control
import OnePass.Decode.Instruction
import OnePass.Module
import OnePass.Options
import OnePass.Reader

/-!
Reading an opcode and its immediates. Indices are looked up as they are read, so that the first
fault in reading order is the one reported. Faults in an immediate's own bytes are reported where
the immediate starts, faults of an index at the instruction.
-/
namespace OnePass

open Reader

/-- What immediates may refer to. -/
structure Scope where
  module : Module
  features : FeatureSet
  /-- Parameters and declared locals. -/
  locals : Array ValueType
  /-- Open constructs, the innermost first. -/
  control : List Control
  /-- Offset of the instruction. -/
  pc : Nat

namespace Scope

/-- Whether a value type may be written in a body. -/
def typeEnabled (features : FeatureSet) : ValueType → Bool
  | .v128 => features.contains .simd
  | .funcref | .externref => features.contains .referenceTypes
  | .bottom => false
  | _ => true

def readValueType (features : FeatureSet) (what : String) : ReadM ValueType := do
  let start := (← get).pos
  let code ← readU8 what
  match (ValueType.ofCode? code).filter (typeEnabled features) with
  | some ty => return ty
  | none => failAt start (.badType what code)

/-- Either nothing (`0x40`), a result type, or the index of a signature. -/
def readBlockType (s : Scope) : ReadM BlockType := do
  let r ← get
  match r.peek? with
  | none => failAt r.pos (.eof "block type")
  | some byte =>
    if byte = 0x40 then
      let _ ← readU8 "block type"
      return ⟨[], []⟩
    else if (ValueType.ofCode? byte).isSome then
      return ⟨[], [← readValueType s.features "block"]⟩
    else
      let index ← readI33 "block type"
      if index < 0 then failAt r.pos (.badBlockType index)
      else if !s.features.contains .multiValue then failAt r.pos .blockTypeNeedsMultiValue
      else match s.module.signature? index.toNat with
        | some sig => return ⟨sig.params, sig.results⟩
        | none => failAt r.pos (.badIndex "block type" index.toNat)

def readMemArg (maxAlign : Nat) : ReadM MemArg := do
  let start := (← get).pos
  let align ← readU32 "alignment"
  if align > maxAlign then failAt start (.alignment maxAlign align)
  else return ⟨align, ← readU32 "offset"⟩

def readZeroByte (what : String) : ReadM Unit := do
  let start := (← get).pos
  let byte ← readU8 what
  if byte ≠ 0 then failAt start (.nonzeroByte what byte)

def requireMemory (s : Scope) : ReadM Unit :=
  if s.module.hasMemory then return else failAt s.pc .noMemory

/-- Read an index and look it up. `noun` names the kind of index while it is read, `what` in the
fault of a failed look-up. -/
def readIndex {α : Type} (s : Scope) (noun what : String) (lookup : Nat → Option α) :
    ReadM (Nat × α) := do
  let index ← readU32 noun
  match lookup index with
  | some a => return (index, a)
  | none => failAt s.pc (.badIndex what index)

def readLocal (s : Scope) : ReadM (Nat × ValueType) :=
  s.readIndex "local index" "local" (s.locals[·]?)

def readFunction (s : Scope) : ReadM (Nat × Signature) :=
  s.readIndex "function index" "function" s.module.functionSig?

def readTable (s : Scope) : ReadM (Nat × ValueType) :=
  s.readIndex "table index" "table" fun i => s.module.tables[i]?.map Table.elemType

def readElemSegment (s : Scope) : ReadM (Nat × ValueType) :=
  s.readIndex "element segment index" "element segment" (s.module.elemSegments[·]?)

def readTag (s : Scope) : ReadM (Nat × Signature) :=
  s.readIndex "tag index" "tag" s.module.tagSig?

def readGlobal (s : Scope) : ReadM (Nat × Global) :=
  s.readIndex "global index" "global" (s.module.globals[·]?)

def readDataSegment (s : Scope) : ReadM Nat := do
  let index ← readU32 "data segment index"
  match s.module.dataCount with
  | none => failAt s.pc .noDataCount
  | some count =>
    if index ≥ count then failAt s.pc (.badIndex "data segment" index) else return index

def readBranchDepth (s : Scope) : ReadM Nat := do
  let depth ← readU32 "branch depth"
  if depth ≥ s.control.length then failAt s.pc (.badBranchDepth depth) else return depth

/-- So many entries of a branch table, after those in `acc`. -/
def readTargets : Nat → Array Nat → ReadM (Array Nat)
  | 0, acc => return acc
  | count + 1, acc => do readTargets count (acc.push (← readU32 "br_table target"))

def readBranchTable (s : Scope) : ReadM BranchTable := do
  let count ← readU32 "table count"
  if count > maxBranchTableSize then failAt s.pc (.branchTableTooLarge count)
  else
    let entries ← readTargets count #[]
    return ⟨entries, ← readU32 "br_table target"⟩

/-- The signature and the table of an indirect call. Without reference types the table is always the
first and its place is a zero byte. -/
def readIndirectCallee (s : Scope) : ReadM (IndirectCallee × Signature) := do
  let sigIndex ← readU32 "signature index"
  let tableIndex ←
    if s.features.contains .referenceTypes then readU32 "table index"
    else do readZeroByte "table index"; pure 0
  match s.module.signature? sigIndex with
  | none => failAt s.pc (.badIndex "signature" sigIndex)
  | some sig =>
    match s.module.tables[tableIndex]? with
    | none => failAt s.pc (.badIndex "table" tableIndex)
    | some table =>
      if table.elemType ≠ .funcref then failAt s.pc (.tableNotOfFunctions tableIndex)
      else return (⟨sigIndex, tableIndex⟩, sig)

def readSelectType (s : Scope) : ReadM ValueType := do
  let count ← readU32 "number of select types"
  if count ≠ 1 then failAt s.pc .selectTypeCount
  else readValueType s.features "select"

def readReferenceType (s : Scope) : ReadM ValueType := do
  let ty ← readValueType s.features "reference"
  if ty.isReference then return ty else failAt s.pc (.badReferenceType ty)

def readLane (s : Scope) : ReadM UInt8 := do
  let lane ← readU8 "lane index"
  if lane ≥ 4 then failAt s.pc (.badLane lane) else return lane

end Scope

/-- Read an opcode. Unknown and disabled ones are faults at their first byte. -/
def Opcode.read (features : FeatureSet) : ReadM Opcode := do
  let start := (← get).pos
  let byte ← readU8 "opcode"
  let code ←
    if isEscape byte then do
      let index ← readU32 "prefixed opcode index"
      if index > 0xFF then failAt start (.escapedIndexTooLarge byte index)
      else pure (byte.toNat * 256 + index)
    else pure byte.toNat
  match ofCode? code with
  | none => failAt start (.unknownOpcode code)
  | some op => if features.allows op.feature? then return op else failAt start (.disabledOpcode op)

/-- The name of the instruction at an offset, for messages. -/
def Opcode.nameAt (bytes : Array UInt8) (offset : Nat) : String :=
  match (readU8 "opcode").run.run (Reader.startingAt bytes offset) with
  | (.error _, _) => "<end>"
  | (.ok byte, r) =>
    if isEscape byte then
      match (readU32 "opcode").run.run r with
      | (.error _, _) => "<invalid>"
      | (.ok index, _) => nameOf (byte.toNat * 256 ||| index)
    else nameOf byte.toNat
where
  nameOf (code : Nat) : String := ((ofCode? code).map name).getD "<invalid>"

open Scope in
/-- Read the immediates of an opcode. -/
def Instruction.read (s : Scope) : Opcode → ReadM Instruction
  | .unreachable => return .unreachable
  | .nop => return .nop
  | .block => return .block (← s.readBlockType)
  | .loop => return .loop (← s.readBlockType)
  | .tryBlock => return .tryBlock (← s.readBlockType)
  | .ifThen => return .ifThen (← s.readBlockType)
  | .elseArm => return .elseArm
  | .endBlock => return .endBlock
  | .catchTag => do
    let (tag, sig) ← s.readTag
    return .catchTag tag sig.params
  | .catchAll => return .catchAll
  | .throw => do
    let (tag, sig) ← s.readTag
    return .throw tag sig.params
  | .rethrow => return .rethrow (← s.readBranchDepth)
  | .br => return .br (← s.readBranchDepth)
  | .brIf => return .brIf (← s.readBranchDepth)
  | .brTable => return .brTable (← s.readBranchTable)
  | .ret => return .ret
  | .call => do
    let (index, sig) ← s.readFunction
    return .call index sig
  | .callIndirect => do
    let (callee, sig) ← s.readIndirectCallee
    return .callIndirect callee sig
  | .returnCall => do
    let (index, sig) ← s.readFunction
    return .returnCall index sig
  | .returnCallIndirect => do
    let (callee, sig) ← s.readIndirectCallee
    return .returnCallIndirect callee sig
  | .drop => return .drop
  | .select => return .select
  | .selectTyped => return .selectTyped (← s.readSelectType)
  | .localGet => do
    let (index, ty) ← s.readLocal
    return .localGet index ty
  | .localSet => do
    let (index, ty) ← s.readLocal
    return .localSet index ty
  | .localTee => do
    let (index, ty) ← s.readLocal
    return .localTee index ty
  | .globalGet => do
    let (index, global) ← s.readGlobal
    return .globalGet index global.ty
  | .globalSet => do
    let (index, global) ← s.readGlobal
    if global.mutable then return .globalSet index global.ty
    else failAt s.pc (.immutableGlobal index)
  | .tableGet => do
    let (table, elem) ← s.readTable
    return .tableGet table elem
  | .tableSet => do
    let (table, elem) ← s.readTable
    return .tableSet table elem
  | .load ty => do
    s.requireMemory
    return .load ty (← readMemArg ty.sizeLog2)
  | .store ty => do
    s.requireMemory
    return .store ty (← readMemArg ty.sizeLog2)
  | .memorySize => do
    readZeroByte "memory index"
    s.requireMemory
    return .memorySize
  | .memoryGrow => do
    readZeroByte "memory index"
    s.requireMemory
    return .memoryGrow
  | .i32Const => return .const (.i32 (← readI32 "i32 constant"))
  | .i64Const => return .const (.i64 (← readI64 "i64 constant"))
  | .f32Const => return .const (.f32 (← readF32 "f32 constant"))
  | .f64Const => return .const (.f64 (← readF64 "f64 constant"))
  | .v128Const => return .const (.v128 (← readBytes 16 "v128 constant"))
  | .unary op => return .unary op
  | .binary op => return .binary op
  | .refNull => return .refNull (← s.readReferenceType)
  | .refIsNull => return .refIsNull
  | .refFunc => do
    let (index, _) ← s.readFunction
    return .refFunc index
  | .memoryInit => do
    let segment ← s.readDataSegment
    readZeroByte "memory index"
    s.requireMemory
    return .memoryInit segment
  | .dataDrop => return .dataDrop (← s.readDataSegment)
  | .memoryCopy => do
    readZeroByte "memory index"
    readZeroByte "memory index"
    s.requireMemory
    return .memoryCopy
  | .memoryFill => do
    readZeroByte "memory index"
    s.requireMemory
    return .memoryFill
  | .tableInit => do
    let (segment, segmentType) ← s.readElemSegment
    let (table, elem) ← s.readTable
    return .tableInit segment segmentType table elem
  | .elemDrop => do
    let (segment, _) ← s.readElemSegment
    return .elemDrop segment
  | .tableCopy => do
    let (dst, dstElem) ← s.readTable
    let (src, srcElem) ← s.readTable
    return .tableCopy dst dstElem src srcElem
  | .tableGrow => do
    let (table, elem) ← s.readTable
    return .tableGrow table elem
  | .tableSize => do
    let (table, _) ← s.readTable
    return .tableSize table
  | .tableFill => do
    let (table, elem) ← s.readTable
    return .tableFill table elem
  | .extractLane => return .extractLane (← s.readLane)
  | .replaceLane => return .replaceLane (← s.readLane)

/-- So many groups of locals, each a count and a type, after those in `locals`. The bound is checked
before the type is read. -/
def readLocalGroups (features : FeatureSet) : Nat → Array ValueType → ReadM (Array ValueType)
  | 0, locals => return locals
  | groups + 1, locals => do
    let start := (← get).pos
    let count ← readU32 "local count"
    let total := locals.size + count
    if total > maxLocals then failAt start (.tooManyLocals total)
    else
      let ty ← Scope.readValueType features "local"
      readLocalGroups features groups (locals ++ Array.replicate count ty)

/-- The parameters and the locals declared at the start of a body. -/
def readLocals (features : FeatureSet) (sig : Signature) : ReadM (Array ValueType) := do
  let groups ← readU32 "local decls count"
  readLocalGroups features groups sig.params.toArray

end OnePass
