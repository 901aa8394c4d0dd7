import OnePass.Decode.Context

/-!
What the decoder reports while it goes through a body, and who listens. Apart from the events that
bracket the function, events occur only for live code; `popControl` and `elseArm` occur when the
enclosing construct is reachable.
-/
namespace OnePass

inductive Event where
  /-- The locals are known. -/
  | startFunction
  /-- The construct that stands for the whole body is open. -/
  | startBody (block : Control)
  /-- The last `end` was read. -/
  | finishFunction
  /-- Before each live instruction, its immediates still unread. -/
  | nextInstruction (op : Opcode)
  | block (block : Control)
  | loop (block : Control)
  | tryBlock (block : Control)
  | ifThen (cond : Value) (block : Control)
  /-- The arm of a `try` falls through to its end. -/
  | fallThru (block : Control)
  /-- A construct is about to be closed. -/
  | popControl (block : Control)
  /-- The rest of the construct is unreachable. -/
  | endControl (block : Control)
  | elseArm (block : Control)
  | catchTag (tag : Nat) (block : Control) (values : List Value)
  | catchAll (block : Control)
  | throw (tag : Nat) (args : List Value)
  | rethrow (block : Control)
  /-- A branch, or a return if the depth is outermost. -/
  | br (depth : Nat)
  | brIf (cond : Value) (depth : Nat)
  | brTable (table : BranchTable) (key : Value)
  | ret
  | unreachable
  | unary (op : UnaryOp) (value result : Value)
  | binary (op : BinaryOp) (lhs rhs result : Value)
  | const (value : Constant) (result : Value)
  | refNull (ty : ValueType) (result : Value)
  | refIsNull (value result : Value)
  | refFunc (function : Nat) (result : Value)
  | lane (op : Opcode) (lane : UInt8) (inputs : List Value) (result : Value)
  | drop (value : Value)
  | select (cond falseValue trueValue result : Value)
  | localGet (result : Value) (index : Nat)
  | localSet (value : Value) (index : Nat)
  | localTee (value result : Value) (index : Nat)
  | globalGet (result : Value) (index : Nat)
  | globalSet (value : Value) (index : Nat)
  | load (ty : LoadType) (arg : MemArg) (index result : Value)
  | store (ty : StoreType) (arg : MemArg) (index value : Value)
  | memorySize (result : Value)
  | memoryGrow (value result : Value)
  | memoryInit (segment : Nat) (args : List Value)
  | dataDrop (segment : Nat)
  | memoryCopy (args : List Value)
  | memoryFill (args : List Value)
  | tableGet (index result : Value) (table : Nat)
  | tableSet (index value : Value) (table : Nat)
  | tableInit (segment table : Nat) (args : List Value)
  | elemDrop (segment : Nat)
  | tableCopy (dst src : Nat) (args : List Value)
  | tableGrow (table : Nat) (value delta result : Value)
  | tableSize (table : Nat) (result : Value)
  | tableFill (table : Nat) (args : List Value)
  | call (function : Nat) (sig : Signature) (args returns : List Value)
  | callIndirect (index : Value) (callee : IndirectCallee) (sig : Signature)
      (args returns : List Value)
  | returnCall (function : Nat) (sig : Signature) (args : List Value)
  | returnCallIndirect (index : Value) (callee : IndirectCallee) (sig : Signature)
      (args : List Value)
  deriving DecidableEq, Repr

/-- What a backend answers to an event. -/
inductive Reply where
  | proceed
  /-- The rest of the current construct never executes. -/
  | dead
  deriving DecidableEq, Repr

/-- A listener with a state of its own. It may refuse to go on; its state is kept then, too. -/
structure Backend (σ : Type) where
  handle : Context → Event → σ → Except Bailout Reply × σ

/-- The listener that accepts everything: decoding with it is validation. -/
def Backend.validator : Backend Unit := ⟨fun _ _ s => (.ok .proceed, s)⟩

end OnePass
