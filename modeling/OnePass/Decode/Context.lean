import OnePass.Decode.Immediates

/-!
The decoder's state between two steps, as a backend sees it: what is fixed for the function, the
position in the body, and the stacks of operands and open constructs.
-/
namespace OnePass

structure Context where
  module : Module
  sig : Signature
  options : DecoderOptions
  reader : Reader
  /-- Parameters and declared locals. -/
  locals : Array ValueType := #[]
  /-- Operands, the topmost last. -/
  stack : Array Value := #[]
  /-- Open constructs, the innermost first. -/
  control : List Control := []
  /-- Whether the current code can execute as far as the decoder and the backend know. -/
  live : Bool := true
  /-- Offset of the current instruction. -/
  pc : Nat := 0
  /-- The current instruction; `nop` before the first. -/
  opcode : Opcode := .nop

namespace Context

/-- The type of a local, `bottom` where there is none. -/
def localType (ctx : Context) (index : Nat) : ValueType := ctx.locals[index]?.getD .bottom

/-- The operand `depth` below the top. -/
def operand? (ctx : Context) (depth : Nat) : Option Value :=
  if depth < ctx.stack.size then ctx.stack[ctx.stack.size - 1 - depth]? else none

def controlDepth (ctx : Context) : Nat := ctx.control.length

/-- The construct `depth` levels out from the innermost. -/
def controlAt (ctx : Context) (depth : Nat) : Control := ctx.control.getD depth default

/-- The innermost open construct. -/
def current (ctx : Context) : Control := ctx.controlAt 0

/-- Change the construct `depth` levels out. -/
def modifyControl (ctx : Context) (depth : Nat) (f : Control → Control) : Context :=
  { ctx with control := ctx.control.modify depth f }

def modifyCurrent (ctx : Context) (f : Control → Control) : Context := ctx.modifyControl 0 f

/-- The first byte after the current instruction. -/
def lookahead? (ctx : Context) : Option UInt8 := ctx.reader.peek?

def bodySize (ctx : Context) : Nat := ctx.reader.bytes.size

/-- Whether the innermost construct is the body itself. -/
def isOutermost (ctx : Context) : Bool :=
  match ctx.control with
  | [_] => true
  | _ => false

/-- Whether the construct around the innermost one is reachable; the function itself always is. -/
def parentReachable (ctx : Context) : Bool :=
  match ctx.control with
  | [_] => true
  | _ :: parent :: _ => parent.isReachable
  | [] => false

/-- The rest of the innermost construct never executes. It is still checked. -/
def markDead (ctx : Context) : Context :=
  let narrow (c : Control) : Control :=
    if c.isReachable then { c with reachability := .specOnly } else c
  { ctx.modifyCurrent narrow with live := false }

/-- Operands of the innermost construct. -/
def available (ctx : Context) : Nat := ctx.stack.size - ctx.current.stackDepth

/-- Drop the operands above a height. -/
def truncate (ctx : Context) (height : Nat) : Context :=
  { ctx with stack := ctx.stack.take height }

def scope (ctx : Context) : Scope :=
  ⟨ctx.module, ctx.options.features, ctx.locals, ctx.control, ctx.pc⟩

end Context

end OnePass
