import OnePass.Decode.Step

/-!
Decoding a whole body: the locals, then instructions until the construct that stands for the body is
closed. Every instruction takes at least one byte, so as many steps as there are bytes are enough.
-/
namespace OnePass

namespace Decode

variable {σ : Type}

/-- Read and check the next instruction. -/
def step (b : Backend σ) : DecodeM σ Unit := do
  modify fun ctx => { ctx with pc := ctx.reader.pos }
  let op ← read (Opcode.read (← get).options.features)
  modify fun ctx => { ctx with opcode := op }
  report b (.nextInstruction op)
  let i ← read (Instruction.read (← get).scope op)
  instruction b i

/-- At most `fuel` instructions; with none left the body has to be closed. -/
def steps (b : Backend σ) : (fuel : Nat) → DecodeM σ Unit
  | 0 => do
    let ctx ← get
    if !ctx.control.isEmpty then throw (.decode ⟨ctx.reader.pos, .missingEnd⟩)
  | fuel + 1 => do
    let ctx ← get
    if ctx.control.isEmpty then return
    else if ctx.reader.isAtEnd then throw (.decode ⟨ctx.reader.pos, .missingEnd⟩)
    else
      step b
      steps b fuel

/-- The locals and the whole body. -/
def body (b : Backend σ) : DecodeM σ Unit := do
  let ctx ← get
  let locals ← read (readLocals ctx.options.features ctx.sig)
  modify fun ctx => { ctx with locals }
  tell b .startFunction
  modify fun ctx => { ctx with pc := ctx.reader.pos }
  let block ← check (Check.pushControl .block ⟨[], ctx.sig.results⟩)
  tell b (.startBody block)
  steps b ctx.bodySize
  tell b .finishFunction

end Decode

/-- The state before the first byte of a body. -/
def Context.initial (module : Module) (sig : Signature) (body : Array UInt8)
    (options : DecoderOptions) : Context :=
  { module, sig, options, reader := ⟨body, 0⟩ }

/-- Decode a function body for a backend. The answer holds the outcome and the backend's last
state. -/
def decodeBody {σ : Type} (b : Backend σ) (s : σ) (module : Module) (sig : Signature)
    (body : Array UInt8) (options : DecoderOptions) : Except CompileError Unit × σ :=
  let (outcome, s) := ((Decode.body b).run (.initial module sig body options)).run.run s
  (outcome.map Prod.fst, s)

/-- Whether a body is valid. -/
def validate (module : Module) (sig : Signature) (body : Array UInt8) (options : DecoderOptions) :
    Except CompileError Unit :=
  (decodeBody .validator () module sig body options).1

end OnePass
