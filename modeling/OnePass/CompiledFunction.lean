import OnePass.Decode.Body
import OnePass.Lowering.Compiler

/-!
Compiling one function body: decoding and code generation share one pass over it.
-/
namespace OnePass

structure CompiledFunction where
  code : Array UInt8
  /-- In the order of code offsets. -/
  positions : Array SourcePosition
  protections : Array ProtectedInstr
  /-- Direct calls to be linked. -/
  relocations : Array Relocation
  /-- Bytes of the frame below the frame pointer. -/
  frameSize : Nat
  sideTable : Option SideTable

namespace CompiledFunction

/-- What code generation has produced. -/
def ofLowering (s : Lowering) : CompiledFunction :=
  let e := s.emitter
  { code := e.buffer.code
    positions := s.work.positions
    protections := s.work.protections
    relocations := e.buffer.relocations
    frameSize := e.frameSize
    sideTable := s.work.sideRecord.map (.ofRecord e.numLocals) }

/-- The body offset that the code at an offset belongs to. -/
def sourceAt? (f : CompiledFunction) (pc : Nat) : Option Nat :=
  match partitionPoint (fun i => f.positions[i]?.any (·.code ≤ pc)) 0 f.positions.size with
  | 0 => none
  | last + 1 => f.positions[last]?.map SourcePosition.source

end CompiledFunction

/-- Check and compile a function body. -/
def compileFunction (module : Module) (sig : Signature) (body : Array UInt8)
    (decoderOptions : DecoderOptions) (options : CompileOptions) :
    Except CompileError CompiledFunction :=
  let (outcome, s) := decodeBody .compiler (.start options) module sig body decoderOptions
  outcome.map fun _ => .ofLowering s

end OnePass
