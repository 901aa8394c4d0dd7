import OnePass.Bisection
import OnePass.Feature

/-!
What a caller may choose: how strictly a body is checked and how code is generated for it.
-/
namespace OnePass

/-- `full` checks every type rule. `trusted` is for bodies checked before: it keeps the structural
checks and drops the comparisons of types. -/
inductive ValidationMode where
  | full | trusted
  deriving DecidableEq, Repr

structure DecoderOptions where
  features : FeatureSet := .standard
  validation : ValidationMode := .full
  deriving DecidableEq, Repr

namespace DecoderOptions

def trusted (o : DecoderOptions) : Bool := o.validation == .trusted

end DecoderOptions

/-- Who notices an access outside linear memory: emitted comparisons, or a handler for the fault. -/
inductive BoundsChecks where
  | explicit | trapHandler
  deriving DecidableEq, Repr

structure CompileOptions where
  boundsChecks : BoundsChecks := .explicit
  /-- Mask indices after their bounds check. -/
  indexMasking : Bool := false
  /-- Compare the stack pointer with its limit at function entry and loop headers. -/
  stackChecks : Bool := true
  /-- Bulk operations call the runtime; without it they are not compiled. -/
  bulkOperations : Bool := true
  sideTable : Bool := false
  /-- Body offsets to stop at, ascending and without repetition. -/
  breakpoints : List Nat := []
  traceEntry : Bool := false
  deriving DecidableEq, Repr

namespace CompileOptions

/-- Insert into an ascending list unless the value is there. -/
def insertAscending (n : Nat) : List Nat → List Nat
  | [] => [n]
  | m :: ms =>
    if n < m then n :: m :: ms
    else if n = m then m :: ms
    else m :: insertAscending n ms

def withBreakpoints (o : CompileOptions) (offsets : List Nat) : CompileOptions :=
  { o with breakpoints := offsets.foldr insertAscending [] }

/-- A side table is recorded when asked for, and whenever there is something to stop at. -/
def wantsSideTable (o : CompileOptions) : Bool :=
  o.sideTable || !o.breakpoints.isEmpty

/-- Whether to stop at an offset, by binary search. -/
def hasBreakpoint (o : CompileOptions) (offset : Nat) : Bool :=
  let before (i : Nat) : Bool := o.breakpoints.getD i 0 < offset
  o.breakpoints[partitionPoint before 0 o.breakpoints.length]? == some offset

end CompileOptions

end OnePass
