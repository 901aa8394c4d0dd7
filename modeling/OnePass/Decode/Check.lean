import OnePass.Decode.Context

/-!
The type rules for operands and merges. Checks that compare types are skipped in trusted mode; those
that count operands are not.
-/
namespace OnePass

/-- A step that changes the context or finds a fault. -/
abbrev CheckM := StateT Context (Except DecodeError)

namespace Check

/-- A fault of the current instruction. -/
def fault {α : Type} (f : DecodeFault) : CheckM α := do throw ⟨(← get).pc, f⟩

def push (ty : ValueType) : CheckM Value := do
  let value := ⟨ty, (← get).pc⟩
  modify fun ctx => { ctx with stack := ctx.stack.push value }
  return value

def pushAll (types : List ValueType) : CheckM (List Value) := types.mapM push

/-- Take the topmost operand as operand `index` of the instruction. The polymorphic stack of
unreachable code never runs out. -/
def popAny (index : Nat) : CheckM Value := do
  let ctx ← get
  if ctx.stack.size ≤ ctx.current.stackDepth then
    if ctx.current.isUnreachable then return ⟨.bottom, ctx.pc⟩
    else fault (.underflow ctx.opcode (index + 1))
  else
    match ctx.stack.back? with
    | some value =>
      modify fun ctx => { ctx with stack := ctx.stack.pop }
      return value
    | none => fault (.underflow ctx.opcode (index + 1))

/-- Operand `index` has a type below the expected one; `bottom` expects nothing. -/
def operand (index : Nat) (expected : ValueType) (value : Value) : CheckM Unit := do
  let ctx ← get
  if ctx.options.trusted || expected == .bottom || value.ty.isSubtypeOf expected then return
  else
    let producer := Opcode.nameAt ctx.reader.bytes value.pc
    fault (.operandType ctx.opcode index expected producer value.ty)

def pop (index : Nat) (expected : ValueType) : CheckM Value := do
  let value ← popAny index
  operand index expected value
  return value

/-- Pop operands of the given types, the last first; `shift` is added to their positions. The answer
is in stack order. -/
def popTypes (shift : Nat) (types : List ValueType) : CheckM (List Value) :=
  types.zipIdx.foldrM (fun (ty, i) values => return (← pop (i + shift) ty) :: values) []

def popArgs : List ValueType → CheckM (List Value) := popTypes 0

/-- Open a construct. -/
def pushControl (kind : ControlKind) (type : BlockType) : CheckM Control := do
  let ctx ← get
  let reachability : Reachability := match ctx.control with
    | parent :: _ => parent.reachability.inner
    | [] => .reachable
  let control : Control :=
    { kind, stackDepth := ctx.stack.size, reachability, startMerge := ⟨type.params, false⟩
      endMerge := ⟨type.results, false⟩, pc := ctx.pc }
  modify fun ctx => { ctx with control := control :: ctx.control, live := control.isReachable }
  return control

/-- Make the operands of the innermost construct exactly values of the given types, pushed by its
opening instruction. -/
def pushMergeValues (types : List ValueType) : CheckM Unit :=
  modify fun ctx =>
    let base := ctx.truncate ctx.current.stackDepth
    { base with stack := base.stack ++ types.map fun ty => Value.mk ty ctx.current.pc }

/-- The first position at which an operand's type is not below the expected one. -/
def firstMismatch? (operands : List ValueType) (expected : List ValueType) :
    Option (Nat × ValueType × ValueType) :=
  ((operands.zip expected).zipIdx.find? fun ((found, want), _) => !found.isSubtypeOf want).map
    fun ((found, want), i) => (i, want, found)

/-- The topmost operands have types below the expected ones. -/
def mergeTypes (expected : List ValueType) (what : String) : CheckM Unit := do
  let ctx ← get
  if ctx.options.trusted then return
  else
    let top := ctx.stack.extract (ctx.stack.size - expected.length) ctx.stack.size
    match firstMismatch? (top.toList.map Value.ty) expected with
    | some (i, want, found) => fault (.mergeType what i want found)
    | none => return

/-- Check what operands there are against the types and leave exactly those types. -/
def unreachableMerge (types : List ValueType) (conditional : Bool) : CheckM Unit := do
  let _ ← popTypes (if conditional then 1 else 0) types
  let _ ← pushAll types

/-- The innermost construct ends with its results. -/
def fallthrough : CheckM Unit := do
  let ctx ← get
  let c := ctx.current
  let arity := c.endMerge.arity
  if c.isReachable then
    if ctx.available ≠ arity then fault (.fallthroughArity arity c.pc ctx.available)
    else mergeTypes c.endMerge.types "merge"
  else if ctx.available > arity then fault (.fallthroughArity arity c.pc ctx.available)
  else unreachableMerge c.endMerge.types false

/-- The operands fit a branch. The answer tells whether the branch is reachable. -/
def branch (depth : Nat) (conditional : Bool) : CheckM Bool := do
  let ctx ← get
  let target := ctx.controlAt depth
  let types := target.branchMerge.types
  if ctx.current.isReachable then
    if types.isEmpty then return true
    else if ctx.available < types.length then
      fault (.branchArity types.length target.pc ctx.available)
    else
      mergeTypes types "branch"
      return true
  else
    unreachableMerge types conditional
    return false

/-- The operands fit every target of a branch table at once. -/
def branchTable (types : List ValueType) : CheckM Unit := do
  let ctx ← get
  if !ctx.current.isUnreachable then
    if ctx.available < types.length then
      fault (.branchTableArity types.length ctx.available)
    else mergeTypes types "br_table"
  else
    let _ ← popTypes 1 types

/-- The operands fit the function's results. -/
def returnTypes : CheckM Unit := do
  let ctx ← get
  let results := ctx.sig.results
  if ctx.available < results.length then
    fault (.returnArity results.length ctx.available)
  else mergeTypes results "return"

/-- Without an `else` the parameters pass through as the results. Faults are reported at the
`if`. -/
def oneArmedIf (c : Control) : CheckM Unit := do
  if c.startMerge.arity ≠ c.endMerge.arity then throw ⟨c.pc, .oneArmedIfArity⟩
  else if (← get).options.trusted then return
  else match firstMismatch? c.startMerge.types c.endMerge.types with
    | some (i, want, found) => throw ⟨c.pc, .mergeType "merge" i want found⟩
    | none => return

/-- A tail call returns what its caller returns. -/
def tailCallReturns (callee : Signature) : CheckM Unit := do
  let ctx ← get
  let ours := ctx.sig.results
  let theirs := callee.results
  let fits := ours.length == theirs.length && (theirs.zip ours).all fun (t, o) => t.isSubtypeOf o
  if fits || ctx.options.trusted then return
  else fault .tailCallReturns

/-- The elements of one table or segment may go into another table. -/
def elementTypes (src dst : ValueType) : CheckM Unit := do
  let ctx ← get
  if src.isSubtypeOf dst || ctx.options.trusted then return
  else fault (.elementType ctx.opcode src dst)

/-- The depths of a branch table seen so far, and the types that fit all of them. -/
structure TableScan where
  seen : Array Bool
  types : Option (List ValueType) := none

/-- Take in one more target. Types of different targets are brought to a common subtype where there
are reference types, and have to be equal otherwise. -/
def scanTarget (scan : TableScan) (target entry : Nat) : CheckM TableScan := do
  let ctx ← get
  match scan.seen[target]? with
  | none => fault (.badTableEntry entry target)
  | some true => return scan
  | some false =>
    let seen := scan.seen.setIfInBounds target true
    let types := (ctx.controlAt target).branchMerge.types
    match scan.types with
    | none => return ⟨seen, some types⟩
    | some previous =>
      if types.length ≠ previous.length then
        fault (.branchTableEntryArity entry previous.length types.length)
      else if ctx.options.trusted then return ⟨seen, some previous⟩
      else if ctx.options.features.contains .referenceTypes then
        return ⟨seen, some (List.zipWith ValueType.commonSubtype previous types)⟩
      else if previous = types then return ⟨seen, some previous⟩
      else fault (.branchTableType entry)

def scanTable (table : BranchTable) : CheckM TableScan := do
  let seen := Array.replicate (← get).controlDepth false
  table.targets.zipIdx.foldlM (fun scan (target, entry) => scanTarget scan target entry)
    ⟨seen, none⟩

end Check

end OnePass
