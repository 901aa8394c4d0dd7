import OnePass.CompiledFunction

/-!
Compiling the bodies of a module. Each is compiled by itself: one that fails does not affect the
others. Several workers get batches of the bodies, and their answers are put together in order.
Steps that are not defined for all arguments have no value for the others.
-/
namespace OnePass

/-- A body and the index of its function. -/
structure FunctionBody where
  function : Nat
  bytes : Array UInt8

/-- A function that could not be compiled. -/
structure FunctionError where
  function : Nat
  error : CompileError
  deriving DecidableEq, Repr

namespace FunctionError

def text (e : FunctionError) : String := s!"function {e.function}: {e.error.text}"

def isBailout (e : FunctionError) : Bool := e.error.isBailout

end FunctionError

/-- Compile one body with the signature of its function, which the module has to define. -/
def compileBody (module : Module) (decoderOptions : DecoderOptions) (options : CompileOptions)
    (body : FunctionBody) : Except FunctionError CompiledFunction :=
  let unknown (what : String) : CompileError := .decode ⟨0, .badIndex what body.function⟩
  let outcome : Except CompileError CompiledFunction :=
    if module.isImportedFunction body.function then .error (unknown "defined function")
    else match module.functionSig? body.function with
      | none => .error (unknown "function")
      | some sig => compileFunction module sig body.bytes decoderOptions options
  outcome.mapError (⟨body.function, ·⟩)

/-- The nearest number between two bounds, the lower of which may not be above the other. -/
def clamp? (n low high : Nat) : Option Nat :=
  if low ≤ high then some (max low (min n high)) else none

/-- A quotient rounded up. There is none by zero. -/
def divCeil? (n divisor : Nat) : Option Nat :=
  if divisor = 0 then none
  else some (if n % divisor = 0 then n / divisor else n / divisor + 1)

/-- Cut a list into pieces of `size + 1`, the last of which may be shorter. -/
def pieces {α : Type} (size : Nat) : List α → List (List α)
  | [] => []
  | a :: rest => (a :: rest.take size) :: pieces size (rest.drop size)
termination_by items => items.length
decreasing_by
  simp only [List.length_drop, List.length_cons]
  omega

/-- Cut a list into pieces of a size that is not zero. -/
def chunks? {α : Type} : (size : Nat) → List α → Option (List (List α))
  | 0, _ => none
  | size + 1, items => some (pieces size items)

/-- Compile all bodies with up to so many workers: at least one, at most one per body. A single one
takes them as they are. -/
def compileModule? (module : Module) (bodies : List FunctionBody) (decoderOptions : DecoderOptions)
    (options : CompileOptions) (workers : Nat) :
    Option (List (Except FunctionError CompiledFunction)) := do
  let compile := compileBody module decoderOptions options
  let workers ← clamp? workers 1 (max bodies.length 1)
  if workers = 1 then return bodies.map compile
  let size ← divCeil? bodies.length workers
  let chunks ← chunks? size bodies
  return chunks.flatMap (·.map compile)

/-- The answers for all bodies. -/
def compileModule (module : Module) (bodies : List FunctionBody) (decoderOptions : DecoderOptions)
    (options : CompileOptions) (workers : Nat) :
    List (Except FunctionError CompiledFunction) :=
  (compileModule? module bodies decoderOptions options workers).getD []

end OnePass
