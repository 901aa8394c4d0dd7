import OnePass.Opcode
import OnePass.Text.Hex

/-!
Why a body is not accepted or not compiled. A decode error names its cause and the body offset it is
reported at; a bailout says that the body is fine but this compiler does not handle it.
-/
namespace OnePass

open Text

inductive DecodeErrorKind where
  | unexpectedEof | malformedLeb | invalidOpcode | invalidIndex | stackUnderflow | typeMismatch
  | invalidBranchDepth | arityMismatch | invalidControl | invalidImmediate | tooManyLocals
  deriving DecidableEq, Repr

def DecodeErrorKind.text : DecodeErrorKind → String
  | unexpectedEof => "unexpected end of body"
  | malformedLeb => "malformed LEB128"
  | invalidOpcode => "invalid opcode"
  | invalidIndex => "invalid index"
  | stackUnderflow => "stack underflow"
  | typeMismatch => "type mismatch"
  | invalidBranchDepth => "invalid branch depth"
  | arityMismatch => "arity mismatch"
  | invalidControl => "invalid control structure"
  | invalidImmediate => "invalid immediate"
  | tooManyLocals => "too many locals"

/-- Largest number of parameters and declared locals together. -/
def maxLocals : Nat := 50000

/-- Largest number of entries of a branch table, the default apart. -/
def maxBranchTableSize : Nat := 65520

/-- The cause of a decode error. `what` names the thing that was being read or checked. -/
inductive DecodeFault where
  -- unexpected end
  | eof (what : String)
  -- malformed numbers
  | extraBits (what : String)
  | varintTooLong (what : String)
  -- opcodes
  | escapedIndexTooLarge (escape : UInt8) (index : Nat)
  | unknownOpcode (code : Nat)
  | disabledOpcode (op : Opcode)
  -- indices
  | badIndex (what : String) (index : Nat)
  | noMemory
  | noDataCount
  -- operand stack
  | underflow (op : Opcode) (missing : Nat)
  -- types; `producer` is the name of the instruction that pushed the operand
  | operandType (op : Opcode) (index : Nat) (expected : ValueType) (producer : String)
      (found : ValueType)
  | mergeType (what : String) (index : Nat) (expected found : ValueType)
  | tailCallReturns
  | branchTableType (entry : Nat)
  | tableNotOfFunctions (table : Nat)
  | selectOfReference
  | notAReference (producer : String) (found : ValueType)
  | elementType (op : Opcode) (src dst : ValueType)
  -- branch depths
  | badBranchDepth (depth : Nat)
  | badTableEntry (entry depth : Nat)
  -- arities; `target` is the offset of the construct that is left
  | fallthroughArity (expected target found : Nat)
  | branchArity (expected target found : Nat)
  | branchTableArity (expected found : Nat)
  | returnArity (expected found : Nat)
  | oneArmedIfArity
  | branchTableEntryArity (entry previous found : Nat)
  -- nesting
  | missingEnd
  | elseWithoutIf
  | secondElse
  | missingCatch
  | trailingCode
  | catchOutsideTry (what : String)
  | catchAfterCatchAll (what : String)
  | rethrowTarget
  -- immediates
  | badType (what : String) (code : UInt8)
  | badBlockType (value : Int)
  | blockTypeNeedsMultiValue
  | alignment (max actual : Nat)
  | nonzeroByte (what : String) (byte : UInt8)
  | branchTableTooLarge (count : Nat)
  | selectTypeCount
  | immutableGlobal (index : Nat)
  | badReferenceType (ty : ValueType)
  | badLane (lane : UInt8)
  -- locals
  | tooManyLocals (total : Nat)
  deriving DecidableEq, Repr

namespace DecodeFault

def kind : DecodeFault → DecodeErrorKind
  | eof _ => .unexpectedEof
  | extraBits _ | varintTooLong _ => .malformedLeb
  | escapedIndexTooLarge .. | unknownOpcode _ | disabledOpcode _ => .invalidOpcode
  | badIndex .. | noMemory | noDataCount => .invalidIndex
  | underflow .. => .stackUnderflow
  | operandType .. | mergeType .. | tailCallReturns | branchTableType _ | tableNotOfFunctions _
  | selectOfReference | notAReference .. | elementType .. => .typeMismatch
  | badBranchDepth _ | badTableEntry .. => .invalidBranchDepth
  | fallthroughArity .. | branchArity .. | branchTableArity .. | returnArity .. | oneArmedIfArity
  | branchTableEntryArity .. => .arityMismatch
  | missingEnd | elseWithoutIf | secondElse | missingCatch | trailingCode | catchOutsideTry _
  | catchAfterCatchAll _ | rethrowTarget => .invalidControl
  | badType .. | badBlockType _ | blockTypeNeedsMultiValue | alignment .. | nonzeroByte ..
  | branchTableTooLarge _ | selectTypeCount | immutableGlobal _ | badReferenceType _
  | badLane _ => .invalidImmediate
  | tooManyLocals _ => .tooManyLocals

def message : DecodeFault → String
  | eof what => s!"expected {what}"
  | extraBits what => s!"extra bits in varint ({what})"
  | varintTooLong what => s!"length overflow while decoding varint ({what})"
  | escapedIndexTooLarge escape index =>
    s!"invalid prefixed opcode {hexByte escape} {hexLiteral index}"
  | unknownOpcode code => s!"invalid opcode {hexLiteral code}"
  | disabledOpcode op => s!"invalid opcode {op.name} (feature not enabled)"
  | badIndex what index => s!"invalid {what} index: {index}"
  | noMemory => "memory instruction with no memory"
  | noDataCount => "data segment access requires a data count"
  | underflow op missing =>
    s!"not enough arguments on the stack for {op.name}, expected {missing} more"
  | operandType op index expected producer found =>
    s!"{op.name}[{index}] expected type {expected.name}, found {producer} of type {found.name}"
  | mergeType what index expected found =>
    s!"type error in {what}[{index}] (expected {expected.name}, got {found.name})"
  | tailCallReturns => "tail call return types mismatch"
  | branchTableType entry => s!"inconsistent type in br_table target {entry}"
  | tableNotOfFunctions table =>
    s!"call_indirect: immediate table #{table} is not of a function type"
  | selectOfReference => "select without type is only valid for value type inputs"
  | notAReference producer found =>
    s!"ref.is_null[0] expected reference type, found {producer} of type {found.name}"
  | elementType op src dst =>
    s!"{op.name}: element type {src.name} does not match table type {dst.name}"
  | badBranchDepth depth => s!"invalid branch depth: {depth}"
  | badTableEntry entry depth => s!"invalid table entry (index {entry}, depth {depth})"
  | fallthroughArity expected target found =>
    s!"expected {expected} elements on the stack for fallthru to @{target}, found {found}"
  | branchArity expected target found =>
    s!"expected {expected} elements on the stack for br to @{target}, found {found}"
  | branchTableArity expected found =>
    s!"expected {expected} elements on the stack for br_table, found {found}"
  | returnArity expected found =>
    s!"expected {expected} elements on the stack for return, found {found}"
  | oneArmedIfArity => "start-arity and end-arity of one-armed if must match"
  | branchTableEntryArity entry previous found =>
    s!"inconsistent arity in br_table target {entry} (previous was {previous}, this one is {found})"
  | missingEnd => "function body must end with \"end\" opcode"
  | elseWithoutIf => "else does not match an if"
  | secondElse => "else already present for if"
  | missingCatch => "missing catch or catch-all in try"
  | trailingCode => "trailing code after function end"
  | catchOutsideTry what => s!"{what} does not match a try"
  | catchAfterCatchAll what => s!"{what} after catch-all for try"
  | rethrowTarget => "rethrow not targeting catch or catch-all"
  | badType what code => s!"invalid {what} type {hexByte code}"
  | badBlockType value => s!"invalid block type {value}"
  | blockTypeNeedsMultiValue => "block type index requires multi-value"
  | alignment max actual =>
    s!"invalid alignment; expected maximum alignment is {max}, actual alignment is {actual}"
  | nonzeroByte what byte => s!"invalid {what}: expected 0, found {byte.toNat}"
  | branchTableTooLarge count => s!"invalid table count (> max br_table size): {count}"
  | selectTypeCount => "invalid number of types for select"
  | immutableGlobal index => s!"immutable global #{index} cannot be assigned"
  | badReferenceType ty => s!"invalid reference type {ty.name}"
  | badLane lane => s!"invalid lane index {lane.toNat}"
  | tooManyLocals total => s!"local count too large: {total} exceeds {maxLocals}"

end DecodeFault

/-- A cause and the body offset it is reported at. -/
structure DecodeError where
  offset : Nat
  fault : DecodeFault
  deriving DecidableEq, Repr

namespace DecodeError

def kind (e : DecodeError) : DecodeErrorKind := e.fault.kind

def text (e : DecodeError) : String :=
  s!"{e.kind.text} at offset {hexLiteral e.offset}: {e.fault.message}"

end DecodeError

inductive BailoutReason where
  | simd | referenceTypes | exceptionHandling | tailCall | multiValue | bulkOperations | other
  deriving DecidableEq, Repr

def BailoutReason.text : BailoutReason → String
  | simd => "simd"
  | referenceTypes => "reference types"
  | exceptionHandling => "exception handling"
  | tailCall => "tail call"
  | multiValue => "multi-value"
  | bulkOperations => "bulk operations"
  | other => "other"

/-- A backend's refusal to go on with a body that decodes. -/
structure Bailout where
  reason : BailoutReason
  detail : String
  deriving DecidableEq, Repr

namespace Bailout

/-- A failure inside the code generator, which valid bodies do not provoke. -/
def internal (detail : String) : Bailout := ⟨.other, detail⟩

def text (b : Bailout) : String := s!"unsupported {b.reason.text}: {b.detail}"

end Bailout

inductive CompileError where
  | decode (e : DecodeError)
  | unsupported (b : Bailout)
  deriving DecidableEq, Repr

namespace CompileError

def text : CompileError → String
  | decode e => e.text
  | unsupported b => b.text

/-- The body is valid, and another compiler may take it. -/
def isBailout : CompileError → Bool
  | decode _ => false
  | unsupported _ => true

end CompileError

end OnePass
