import OnePass.Alignment
import OnePass.Signature

/-!
What a function body may refer to by index: types, functions, globals, one memory, tables, exception
tags and segments. A `Module.Builder` collects them; imports of a kind come before definitions of
that kind. Globals are laid out one after another, each aligned to its slot size; imported mutable
globals live elsewhere and are reached through a table of pointers.
-/
namespace OnePass

structure Global where
  ty : ValueType
  mutable : Bool
  imported : Bool
  /-- Index into the pointer table for an indirect global, else the byte offset of its slot. -/
  offset : Nat
  deriving DecidableEq, Repr, Inhabited

/-- Reached through the table of pointers to imported mutable globals. -/
def Global.isIndirect (g : Global) : Bool := g.imported && g.mutable

/-- A size that may grow: a minimum and, optionally, a maximum. -/
structure Limits where
  min : Nat
  max : Option Nat
  deriving DecidableEq, Repr

structure Table where
  elemType : ValueType
  limits : Limits
  deriving DecidableEq, Repr

structure Module where
  types : Array Signature := #[]
  /-- For each type the smallest index with an equal signature. -/
  canonicalIds : Array Nat := #[]
  /-- The type index of each function. -/
  functions : Array Nat := #[]
  importedFunctions : Nat := 0
  importedMutableGlobals : Nat := 0
  globals : Array Global := #[]
  globalsSize : Nat := 0
  /-- Limits in pages. -/
  memory : Option Limits := none
  tables : Array Table := #[]
  /-- The type index of each tag. -/
  tags : Array Nat := #[]
  elemSegments : Array ValueType := #[]
  dataCount : Option Nat := none
  deriving DecidableEq, Repr, Inhabited

namespace Module

/-- Bytes per page of linear memory. -/
def pageSize : Nat := 65536

def maxMemoryPages : Nat := 65536

def maxTableSize : Nat := 10000000

/-- Least number of bytes a global's slot takes. -/
def globalSlotSize : Nat := 8

def signature? (m : Module) (index : Nat) : Option Signature := m.types[index]?

/-- The number that all equal signatures share. -/
def canonicalId? (m : Module) (index : Nat) : Option Nat := m.canonicalIds[index]?

def functionType? (m : Module) (index : Nat) : Option Nat := m.functions[index]?

def functionSig? (m : Module) (index : Nat) : Option Signature :=
  (m.functionType? index).bind m.signature?

def isImportedFunction (m : Module) (index : Nat) : Bool := index < m.importedFunctions

def tagSig? (m : Module) (index : Nat) : Option Signature :=
  m.tags[index]?.bind m.signature?

def hasMemory (m : Module) : Bool := m.memory.isSome

/-- Bytes of memory that are there from the start. -/
def minMemorySize (m : Module) : Nat :=
  match m.memory with
  | none => 0
  | some limits => limits.min * pageSize

/-- Bytes the memory can ever grow to. -/
def maxMemorySize (m : Module) : Nat :=
  match m.memory with
  | none => 0
  | some limits => min (limits.max.getD maxMemoryPages) maxMemoryPages * pageSize

inductive BuildError where
  | unknownType (index : Nat)
  | importAfterDefinition
  | invalidLimits (min max : Nat)
  | limitTooLarge (value limit : Nat)
  | multipleMemories
  | invalidTableElement (ty : ValueType)
  deriving DecidableEq, Repr

def BuildError.text : BuildError → String
  | unknownType index => s!"unknown type index {index}"
  | importAfterDefinition => "imports must be declared before definitions"
  | invalidLimits min max => s!"invalid limits: minimum {min} exceeds maximum {max}"
  | limitTooLarge value limit => s!"limit {value} exceeds implementation maximum {limit}"
  | multipleMemories => "only one linear memory is supported"
  | invalidTableElement ty => s!"table element type must be a reference type, found {ty.name}"

/-- One declaration. -/
inductive Decl where
  | type (sig : Signature)
  | importFunction (type : Nat)
  | function (type : Nat)
  | importGlobal (ty : ValueType) (mutable : Bool)
  | global (ty : ValueType) (mutable : Bool)
  | memory (limits : Limits)
  | table (elem : ValueType) (limits : Limits)
  | tag (type : Nat)
  | elemSegment (ty : ValueType)
  | dataCount (count : Nat)
  deriving DecidableEq, Repr

/-- Bytes the slot of a directly stored global takes; also its alignment. -/
def slotSizeOf (ty : ValueType) : Nat := max ty.sizeBytes globalSlotSize

/-- Append a global with a slot of its own. -/
def pushDirectGlobal (m : Module) (ty : ValueType) (mutable imported : Bool) : Module :=
  let offset := roundUp m.globalsSize (slotSizeOf ty)
  { m with
    globals := m.globals.push ⟨ty, mutable, imported, offset⟩
    globalsSize := offset + slotSizeOf ty }

/-- Append a global that is reached through the pointer table. -/
def pushIndirectGlobal (m : Module) (ty : ValueType) : Module :=
  { m with
    globals := m.globals.push ⟨ty, true, true, m.importedMutableGlobals⟩
    importedMutableGlobals := m.importedMutableGlobals + 1 }

/-- A module under construction. -/
structure Builder where
  module : Module := {}
  /-- The numbers of the signatures so far. -/
  canonical : List (Signature × Nat) := []
  deriving Inhabited

/-- The number of a signature; `index` becomes its number if it has none. -/
def numberOr (canonical : List (Signature × Nat)) (sig : Signature) (index : Nat) :
    Nat × List (Signature × Nat) :=
  match canonical.lookup sig with
  | some id => (id, canonical)
  | none => (index, (sig, index) :: canonical)

/-- Append a type. It has the number of an equal type before it, or its own index. -/
def Builder.pushType (b : Builder) (sig : Signature) : Builder :=
  let (id, canonical) := numberOr b.canonical sig b.module.types.size
  { module := { b.module with
      canonicalIds := b.module.canonicalIds.push id
      types := b.module.types.push sig }
    canonical }

/-- A step of building. What was added before a refusal stays. -/
abbrev BuildM := ExceptT BuildError (StateM Builder)

/-- The module so far. -/
def current : BuildM Module := return (← get).module

def change (f : Module → Module) : BuildM Unit := modify fun b => { b with module := f b.module }

/-- The minimum may not exceed the bound or the maximum. The maximum itself is not bounded. -/
def checkLimits (limits : Limits) (bound : Nat) : BuildM Unit := do
  if limits.min > bound then throw (.limitTooLarge limits.min bound)
  match limits.max with
  | none => return
  | some max => if limits.min > max then throw (.invalidLimits limits.min max)

def requireType (index : Nat) : BuildM Unit := do
  if (← current).types.size ≤ index then throw (.unknownType index)

/-- Append a function; the answer is its index. -/
def addFunction (type : Nat) : BuildM (Option Nat) := do
  let index := (← current).functions.size
  change fun m => { m with functions := m.functions.push type }
  return some index

/-- Add one declaration. The answer is the index of what was added, if it has one. -/
def declare : Decl → BuildM (Option Nat)
  | .type sig => do
    let index := (← current).types.size
    modify (·.pushType sig)
    return some index
  | .importFunction type => do
    requireType type
    let m ← current
    if m.functions.size ≠ m.importedFunctions then throw .importAfterDefinition
    change fun m => { m with importedFunctions := m.importedFunctions + 1 }
    addFunction type
  | .function type => do
    requireType type
    addFunction type
  | .importGlobal ty mutable => do
    let m ← current
    if m.globals.any fun g => !g.imported then throw .importAfterDefinition
    change fun m => if mutable then m.pushIndirectGlobal ty else m.pushDirectGlobal ty false true
    return some m.globals.size
  | .global ty mutable => do
    let index := (← current).globals.size
    change (·.pushDirectGlobal ty mutable false)
    return some index
  | .memory limits => do
    if (← current).memory.isSome then throw .multipleMemories
    checkLimits limits maxMemoryPages
    change fun m => { m with memory := some limits }
    return none
  | .table elem limits => do
    if !elem.isReference then throw (.invalidTableElement elem)
    checkLimits limits maxTableSize
    let index := (← current).tables.size
    change fun m => { m with tables := m.tables.push ⟨elem, limits⟩ }
    return some index
  | .tag type => do
    requireType type
    let index := (← current).tags.size
    change fun m => { m with tags := m.tags.push type }
    return some index
  | .elemSegment ty => do
    if !ty.isReference then throw (.invalidTableElement ty)
    let index := (← current).elemSegments.size
    change fun m => { m with elemSegments := m.elemSegments.push ty }
    return some index
  | .dataCount count => do
    change fun m => { m with dataCount := some count }
    return none

/-- Build a module; the first refused declaration ends it. -/
def ofDecls (decls : List Decl) : Except BuildError Module :=
  let (outcome, b) := (decls.forM fun d => discard (declare d)).run.run {}
  outcome.map fun _ => b.module

/-- Add declarations one by one, going on after refused ones, with the answer to each. -/
def declareAll (b : Builder) : List Decl → Module × List (Except BuildError (Option Nat))
  | [] => (b.module, [])
  | d :: ds =>
    let (answer, b) := (declare d).run.run b
    let (final, answers) := declareAll b ds
    (final, answer :: answers)

end Module

end OnePass
