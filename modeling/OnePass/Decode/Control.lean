import OnePass.ValueType

/-!
The entries of the decoder's two stacks: typed operands and open constructs.
-/
namespace OnePass

/-- An operand and the offset of the instruction that pushed it. -/
structure Value where
  ty : ValueType
  pc : Nat
  deriving DecidableEq, Repr, Inhabited

/-- Whether the code of a construct can execute. It only narrows while the construct is open, except
that a new arm starts from what the enclosing construct allows. -/
inductive Reachability where
  | reachable
  /-- Reachable by the type rules, but a backend knows that it never executes. -/
  | specOnly
  /-- After an unconditional branch; the operand stack is polymorphic. -/
  | unreachable
  deriving DecidableEq, Repr

/-- The reachability of a construct nested inside one of this reachability. -/
def Reachability.inner : Reachability → Reachability
  | reachable => reachable
  | _ => specOnly

inductive ControlKind where
  | block | loop | ifThen | ifElse | tryBlock | tryCatch | tryCatchAll
  deriving DecidableEq, Repr

/-- The types that flow into or out of a construct, and whether something reachable does flow. -/
structure Merge where
  types : List ValueType
  reached : Bool := false
  deriving DecidableEq, Repr, Inhabited

def Merge.arity (m : Merge) : Nat := m.types.length

/-- An open construct. -/
structure Control where
  kind : ControlKind
  /-- Height of the operand stack at entry, below the parameters. -/
  stackDepth : Nat
  reachability : Reachability
  /-- The parameters. -/
  startMerge : Merge
  /-- The results. -/
  endMerge : Merge
  /-- Offset of the opening instruction. -/
  pc : Nat
  deriving DecidableEq, Repr

instance : Inhabited Control := ⟨⟨.block, 0, .reachable, ⟨[], false⟩, ⟨[], false⟩, 0⟩⟩

namespace Control

def isReachable (c : Control) : Bool := c.reachability == .reachable

def isUnreachable (c : Control) : Bool := c.reachability == .unreachable

def isLoop (c : Control) : Bool := c.kind == .loop

def isIf (c : Control) : Bool := c.kind == .ifThen || c.kind == .ifElse

/-- An `if` that has no other arm so far. -/
def isOneArmedIf (c : Control) : Bool := c.kind == .ifThen

def isTry (c : Control) : Bool :=
  c.kind == .tryBlock || c.kind == .tryCatch || c.kind == .tryCatchAll

/-- What a branch to the construct carries: a loop is entered again at its start, every other
construct is left at its end. -/
def branchMerge (c : Control) : Merge := if c.isLoop then c.startMerge else c.endMerge

/-- Note that a reachable branch goes here. -/
def markBranch (c : Control) : Control :=
  if c.isLoop then { c with startMerge := { c.startMerge with reached := true } }
  else { c with endMerge := { c.endMerge with reached := true } }

/-- Note that the end is reached. -/
def markEnd (c : Control) : Control :=
  { c with endMerge := { c.endMerge with reached := true } }

end Control

end OnePass
