import OnePass.Lowering.Entry

/-!
Blocks, loops, conditionals and branches. All paths to a label leave the values in the places of the
label's state.
-/
namespace OnePass

namespace Lowering

/-- The constructs of code generation and of the decoder differ. -/
def outOfSync : Bailout := .internal "control stack out of sync"

def requireScalarBlock (block : Control) : LowerM Unit :=
  (block.startMerge.types ++ block.endMerge.types).forM (requireScalar "block value")

def pushControl (data : ControlData) : LowerM Unit :=
  modify fun s => { s with control := data :: s.control }

def popData : LowerM ControlData := do
  match (← get).control with
  | data :: rest =>
    modify fun s => { s with control := rest }
    return data
  | [] => throw outOfSync

/-- Whether a test can leave its result to the branch that follows. A breakpoint in between needs
the result. -/
def fusesWithBranch (ctx : Context) : LowerM Bool := do
  let branches := ctx.lookahead?.any fun b =>
    b.toNat == Opcode.brIf.code || b.toNat == Opcode.ifThen.code
  return branches && !(← get).options.hasBreakpoint ctx.reader.pos

/-- Pop the condition and branch if it is false. -/
def jumpIfFalse (target : Label) : LowerM Unit := do
  let test := (← get).pendingTest
  modify fun s => { s with pendingTest := none }
  match test with
  | none =>
    let value ← popToReg
    emit (.condJump .equal .i32 value none target)
  | some (.unary (.eqz .w32)) =>
    let value ← popToReg
    emit (.condJump .notEqual .i32 value none target)
  | some op =>
    match Cond.ofI32Comparison? op with
    | none => throw (.internal "fused operator is not an i32 comparison")
    | some c =>
      let top ← peekSlot
      match top.const? with
      | some imm =>
        let _ ← popSlot
        let lhs ← popToReg
        emit (.condJumpImm c.negate .i32 lhs imm.toInt64 target)
      | none =>
        let rhs ← popToReg
        let lhs ← popToReg (.ofList [rhs])
        emit (.condJump c.negate .i32 lhs (some rhs) target)

def block (b : Control) : LowerM Unit := do
  requireScalarBlock b
  pushControl { label := ← newLabel }

/-- Branches back to the header need every value in a place of its own there. -/
def loop (ctx : Context) (b : Control) : LowerM Unit := do
  requireScalarBlock b
  emitting fun e => (e.spillLocals.materializeConstants b.startMerge.arity).unshareRegs
  let label ← newLabel
  bindLabel label
  pushControl { label, labelState := some (← get).emitter.state }
  stackCheck ctx.pc

def ifThen (b : Control) : LowerM Unit := do
  requireScalarBlock b
  let elseLabel ← newLabel
  jumpIfFalse elseLabel
  let label ← newLabel
  pushControl { label, elseArm := some ⟨elseLabel, (← get).emitter.state⟩ }

/-- The label of the construct `depth` levels out, and where branches to it leave the values. -/
def labelTarget (depth arity stackDepth : Nat) : LowerM (Label × CacheState) := do
  let s ← get
  match s.control[depth]? with
  | none => throw outOfSync
  | some data =>
    match data.labelState with
    | some state => return (data.label, state)
    | none =>
      let state := s.emitter.state.mergeTarget s.emitter.numLocals arity stackDepth
      let decided := { data with labelState := some state }
      modify fun s => { s with control := s.control.set depth decided }
      return (data.label, state)

/-- The first arm ends, the second begins where the condition was false. -/
def elseArm (b : Control) : LowerM Unit := do
  if b.isReachable then
    let (label, target) ← labelTarget 0 b.endMerge.arity b.stackDepth
    emitting fun e => (e.mergeFull target).emit (.jump label)
  let data ← popData
  match data.elseArm with
  | none => throw (.internal "else without if")
  | some arm =>
    pushControl { data with elseArm := none }
    emitting fun e => (e.bind arm.label).steal arm.state

/-- Values reach the end of a construct without a branch. -/
def fallThru (b : Control) : LowerM Unit := do
  let decided := (← get).control.head?.any (·.labelState.isSome)
  let (_, target) ← labelTarget 0 b.endMerge.arity b.stackDepth
  if decided then emitting (·.mergeFull target)

/-- Without an `else` the parameters pass through as the results when the condition is false. -/
def finishOneArmedIf (b : Control) (data : ControlData) (arm : ElseArm) (e : Emitter) : Emitter :=
  let passing := arm.state.mergeTarget e.numLocals b.startMerge.arity b.stackDepth
  match data.labelState.or (if b.isReachable then some passing else none) with
  | none => (e.bind arm.label).steal arm.state
  | some target =>
    let left := if b.isReachable then (e.mergeFull target).emit (.jump data.label) else e
    (((left.bind arm.label).steal arm.state).mergeFull target).steal target

/-- A construct ends. A loop has no label there. -/
def popControl (b : Control) : LowerM Unit := do
  let data ← popData
  if b.isLoop then return
  else if b.isOneArmedIf then
    match data.elseArm with
    | none => throw (.internal "if without else state")
    | some arm => emitting (finishOneArmedIf b data arm)
  else
    match data.labelState with
    | none => pure ()
    | some target =>
      emitting fun e => (if b.isReachable then e.mergeFull target else e).steal target
  emitting fun e => if e.isBound data.label then e else e.bind data.label

/-- A branch to the construct `depth` levels out; to the outermost it is a return. -/
def branch (ctx : Context) (depth : Nat) : LowerM Unit := do
  if depth + 1 ≥ ctx.controlDepth then ret ctx
  else
    let target := ctx.controlAt depth
    let arity := target.branchMerge.arity
    let (label, state) ← labelTarget depth arity target.stackDepth
    emitting fun e => (e.mergeBranch state arity).emit (.jump label)

def branchIf (ctx : Context) (depth : Nat) : LowerM Unit := do
  let continuation ← newLabel
  jumpIfFalse continuation
  branch ctx depth
  bindLabel continuation

/-- Where the branches of a table begin that were emitted so far, by depth. -/
abbrev CaseLabels := List (Nat × Label)

/-- Each depth is branched to once; later entries jump to the first copy. -/
def branchCase (ctx : Context) (cases : CaseLabels) (depth : Nat) : LowerM CaseLabels := do
  match cases.lookup depth with
  | some label =>
    emit (.jump label)
    return cases
  | none =>
    let label ← newLabel
    bindLabel label
    branch ctx depth
    return (depth, label) :: cases

/-- Binary search for the entry that the key selects; the first of `targets` has index `first`. -/
def searchTable (ctx : Context) (key : Reg) (first : Nat) (targets : List Nat)
    (cases : CaseLabels) : LowerM CaseLabels :=
  match targets with
  | [] => return cases
  | [depth] => branchCase ctx cases depth
  | a :: b :: rest => do
    let half := (a :: b :: rest).length / 2
    let upper ← newLabel
    emit (.condJumpImm .aboveEqual .i32 key (.ofNat (first + half)) upper)
    let cases ← searchTable ctx key first ((a :: b :: rest).take half) cases
    bindLabel upper
    searchTable ctx key (first + half) ((a :: b :: rest).drop half) cases
termination_by targets.length
decreasing_by
  all_goals
    simp only [List.length_take, List.length_drop, List.length_cons]
    omega

def branchTable (ctx : Context) (table : BranchTable) : LowerM Unit := do
  let key ← popToReg
  let count := table.entries.size
  if count = 0 then
    let _ ← branchCase ctx [] table.default
  else
    let defaultLabel ← newLabel
    emit (.condJumpImm .aboveEqual .i32 key (.ofNat count) defaultLabel)
    let cases ← searchTable ctx key 0 table.entries.toList []
    bindLabel defaultLabel
    let _ ← branchCase ctx cases table.default

end Lowering

end OnePass
