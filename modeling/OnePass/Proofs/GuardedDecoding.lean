import OnePass.Proofs.Run

/-!
The decoder with every lookup guarded. Where the decoder would answer a lookup outside its stacks
with a default, or a difference below zero with zero, a guarded run halts. The two do the same as
long as nothing is out of range.
-/
namespace OnePass

/-- How a guarded run ends early. -/
inductive Halt where
  | error (e : CompileError)
  /-- A construct or an operand is not there. -/
  | outOfRange
  deriving DecidableEq, Repr

abbrev GuardedM (σ : Type) := StateT Context (ExceptT Halt (StateM σ))

namespace Guarded

variable {σ α : Type}

/-- A step of the decoder that looks nothing up. -/
def lift (m : DecodeM σ α) : GuardedM σ α := fun ctx => ExceptT.mk fun s =>
  let (r, s) := (m ctx).run s
  (r.mapError .error, s)

def check (m : CheckM α) : GuardedM σ α := lift (Decode.check m)

/-- The construct `depth` levels out from the innermost. -/
def controlAt (depth : Nat) : GuardedM σ Control := do
  match (← get).control[depth]? with
  | some c => return c
  | none => throw .outOfRange

/-- The innermost open construct. -/
def current : GuardedM σ Control := controlAt 0

/-- The height of the stack above a height that it has. -/
def heightAbove (base : Nat) : GuardedM σ Nat := do
  let height := (← get).stack.size
  if base ≤ height then return height - base else throw .outOfRange

/-- Operands of the innermost construct. -/
def available : GuardedM σ Nat := do heightAbove (← current).stackDepth

def parentReachable : GuardedM σ Bool := do
  if (← get).isOutermost then return true else return (← controlAt 1).isReachable

section Operands

def popAny (index : Nat) : GuardedM σ Value := do
  let _ ← current
  check (Check.popAny index)

def pop (index : Nat) (expected : ValueType) : GuardedM σ Value := do
  let value ← popAny index
  check (Check.operand index expected value)
  return value

def popEach (operands : List (ValueType × Nat)) : GuardedM σ (List Value) :=
  operands.foldrM (fun (ty, index) values => return (← pop index ty) :: values) []

def pushMergeValues (types : List ValueType) : GuardedM σ Unit := do
  let _ ← current
  check (Check.pushMergeValues types)

/-- The topmost operands are looked at only if types are compared. -/
def mergeTypes (expected : List ValueType) (what : String) : GuardedM σ Unit := do
  if !(← get).options.trusted then
    let _ ← heightAbove expected.length
  check (Check.mergeTypes expected what)

def unreachableMerge (types : List ValueType) (conditional : Bool) : GuardedM σ Unit := do
  let _ ← popEach (types.zipIdx (if conditional then 1 else 0))
  let _ ← check (Check.pushAll types)

def fallthrough : GuardedM σ Unit := do
  let c ← current
  let found ← available
  let arity := c.endMerge.arity
  if c.isReachable then
    if found ≠ arity then check (Check.fault (.fallthroughArity arity c.pc found))
    else mergeTypes c.endMerge.types "merge"
  else if found > arity then check (Check.fault (.fallthroughArity arity c.pc found))
  else unreachableMerge c.endMerge.types false

def branch (depth : Nat) (conditional : Bool) : GuardedM σ Bool := do
  let target ← controlAt depth
  let types := target.branchMerge.types
  if (← current).isReachable then
    if types.isEmpty then return true
    else
      let found ← available
      if found < types.length then
        check (Check.fault (.branchArity types.length target.pc found))
      else
        mergeTypes types "branch"
        return true
  else
    unreachableMerge types conditional
    return false

def branchTable (types : List ValueType) : GuardedM σ Unit := do
  if !(← current).isUnreachable then
    let found ← available
    if found < types.length then check (Check.fault (.branchTableArity types.length found))
    else mergeTypes types "br_table"
  else
    let _ ← popEach (types.zipIdx 1)

def returnTypes : GuardedM σ Unit := do
  let results := (← get).sig.results
  let found ← available
  if found < results.length then check (Check.fault (.returnArity results.length found))
  else mergeTypes results "return"

/-- A target is looked up when it is seen for the first time. -/
def scanTarget (scan : Check.TableScan) (target entry : Nat) : GuardedM σ Check.TableScan := do
  if scan.seen[target]? = some false then
    let _ ← controlAt target
  check (Check.scanTarget scan target entry)

def scanTable (table : BranchTable) : GuardedM σ Check.TableScan := do
  let seen := Array.replicate (← get).controlDepth false
  table.targets.zipIdx.foldlM (fun scan (target, entry) => scanTarget scan target entry)
    ⟨seen, none⟩

def shape (shape : Shape) : GuardedM σ Event := do
  check shape.requires
  let args ← popEach shape.takes
  let results ← check (Check.pushAll shape.gives)
  return shape.event args results

end Operands

section Constructs

def tell (b : Backend σ) (e : Event) : GuardedM σ Unit := lift (Decode.tell b e)

def report (b : Backend σ) (e : Event) : GuardedM σ Unit := lift (Decode.report b e)

def endControl (b : Backend σ) : GuardedM σ Unit := do
  let _ ← current
  modify fun ctx => ctx.truncate ctx.current.stackDepth
  report b (.endControl (← current))
  let _ ← current
  modify fun ctx =>
    { ctx.modifyCurrent fun c => { c with reachability := .unreachable } with live := false }

def fallThru (b : Backend σ) : GuardedM σ Unit := do
  fallthrough
  let c ← current
  if c.isReachable then
    if !c.isLoop then tell b (.fallThru c)
    let _ ← current
    modify fun ctx => ctx.modifyCurrent Control.markEnd

/-- The construct around the innermost one is looked up when that is closed. -/
def popControl (b : Backend σ) : GuardedM σ Unit := do
  let c ← current
  if ← parentReachable then tell b (.popControl c)
  if !c.isLoop then pushMergeValues c.endMerge.types
  let _ ← controlAt 1
  modify fun ctx =>
    let outer := { ctx with control := ctx.control.tail }
    let outer :=
      if c.isReachable || c.endMerge.reached || c.isOneArmedIf then outer else outer.markDead
    { outer with live := outer.current.isReachable }

def openBlock (b : Backend σ) (kind : ControlKind) (type : BlockType) (event : Control → Event) :
    GuardedM σ Unit := do
  let _ ← popEach type.params.zipIdx
  let block ← check (Check.pushControl kind type)
  report b (event block)
  pushMergeValues type.params

/-- What the construct around the innermost one allows for a new arm. -/
def armReachability : GuardedM σ Reachability := return (← controlAt 1).reachability.inner

def elseArm (b : Backend σ) : GuardedM σ Unit := do
  let c ← current
  if !c.isIf then check (Check.fault .elseWithoutIf)
  if c.kind = .ifElse then check (Check.fault .secondElse)
  fallthrough
  let _ ← current
  modify fun ctx => ctx.modifyCurrent fun c => { c with kind := .ifElse }
  let c ← current
  if ← parentReachable then tell b (.elseArm c)
  let inner ← armReachability
  let _ ← current
  modify fun ctx => ctx.modifyCurrent fun c =>
    { (if c.isReachable then c.markEnd else c) with reachability := inner }
  pushMergeValues c.startMerge.types
  modify fun ctx => { ctx with live := inner == .reachable }

/-- Begin another arm of a `try`. -/
def beginArm : GuardedM σ Unit := do
  let _ ← current
  let _ ← controlAt 1
  lift Decode.beginArm

/-- A handler begins; it finds values of the given types. -/
def beginHandler (b : Backend σ) (what : String) (kind : ControlKind) (params : List ValueType)
    (event : Control → List Value → Event) : GuardedM σ Unit := do
  let _ ← current
  check (Decode.requireTry what)
  let _ ← current
  modify fun ctx => ctx.modifyCurrent fun c => { c with kind }
  fallThru b
  beginArm
  let values ← check (Check.pushAll params)
  let c ← current
  if ← parentReachable then tell b (event c values)
  modify fun ctx => { ctx with live := c.isReachable }

def rethrowUncaught (b : Backend σ) : GuardedM σ Unit := do
  fallThru b
  let _ ← current
  let _ ← controlAt 1
  modify fun ctx =>
    let inner := Decode.armReachability ctx
    ctx.modifyCurrent fun c => { c with reachability := inner }
  let c ← current
  if ← parentReachable then tell b (.catchAll c)
  modify fun ctx => { ctx with live := c.isReachable }
  report b (.rethrow c)
  endControl b

def endBlock (b : Backend σ) : GuardedM σ Unit := do
  let c ← current
  if c.kind = .tryBlock then check (Check.fault .missingCatch)
  if c.isOneArmedIf then check (Check.oneArmedIf c)
  if c.kind = .tryCatch then rethrowUncaught b
  fallthrough
  if (← get).isOutermost then lift (Decode.endBody b) else popControl b

def br (b : Backend σ) (depth : Nat) : GuardedM σ Unit := do
  if ← branch depth false then
    report b (.br depth)
    let _ ← controlAt depth
    modify fun ctx => ctx.modifyControl depth Control.markBranch
  endControl b

def brIf (b : Backend σ) (depth : Nat) : GuardedM σ Unit := do
  let cond ← pop 0 .i32
  if ← branch depth true then
    report b (.brIf cond depth)
    let _ ← controlAt depth
    modify fun ctx => ctx.modifyControl depth Control.markBranch

def brTable (b : Backend σ) (table : BranchTable) : GuardedM σ Unit := do
  let key ← pop 0 .i32
  let scan ← scanTable table
  branchTable (scan.types.getD [])
  if (← get).live then
    tell b (.brTable table key)
    modify (Decode.markSeen scan.seen)
  endControl b

def ret (b : Backend σ) : GuardedM σ Unit := do
  let ctx ← get
  if ctx.live then
    returnTypes
    tell b .ret
  else
    let _ ← popEach ctx.sig.results.zipIdx
  endControl b

def rethrow (b : Backend σ) (depth : Nat) : GuardedM σ Unit := do
  let target ← controlAt depth
  if target.kind ≠ .tryCatch ∧ target.kind ≠ .tryCatchAll then check (Check.fault .rethrowTarget)
  report b (.rethrow target)
  endControl b

/-- The form of `select` without a type. -/
def select (b : Backend σ) : GuardedM σ Unit := do
  let cond ← pop 2 .i32
  let falseValue ← popAny 1
  let trueValue ← pop 0 falseValue.ty
  let ty := if trueValue.ty = .bottom then falseValue.ty else trueValue.ty
  if ty.isReference && !(← get).options.trusted then check (Check.fault .selectOfReference)
  let result ← check (Check.push ty)
  report b (.select cond falseValue trueValue result)

def refIsNull (b : Backend σ) : GuardedM σ Unit := do
  let value ← popAny 0
  let ctx ← get
  if !value.ty.isReference && value.ty != .bottom && !ctx.options.trusted then
    check (Check.fault (.notAReference (Opcode.nameAt ctx.reader.bytes value.pc) value.ty))
  let result ← check (Check.push .i32)
  report b (.refIsNull value result)

end Constructs

/-- One instruction. -/
def instruction (b : Backend σ) (i : Instruction) : GuardedM σ Unit :=
  match i.shape? with
  | some s => do
    report b (← shape s)
    if s.exits then endControl b
  | none =>
    match i with
    | .block type => openBlock b .block type .block
    | .loop type => openBlock b .loop type .loop
    | .tryBlock type => openBlock b .tryBlock type .tryBlock
    | .ifThen type => do
      let cond ← pop 0 .i32
      openBlock b .ifThen type (.ifThen cond)
    | .elseArm => elseArm b
    | .endBlock => endBlock b
    | .catchTag tag params => beginHandler b "catch" .tryCatch params (.catchTag tag)
    | .catchAll => beginHandler b "catch-all" .tryCatchAll [] fun c _ => .catchAll c
    | .rethrow depth => rethrow b depth
    | .br depth => br b depth
    | .brIf depth => brIf b depth
    | .brTable table => brTable b table
    | .ret => ret b
    | .select => select b
    | .refIsNull => refIsNull b
    | _ => return

/-- At most `fuel` instructions; with none left the body has to be closed. -/
def steps (b : Backend σ) : (fuel : Nat) → GuardedM σ Unit
  | 0 => do
    let ctx ← get
    if !ctx.control.isEmpty then throw (.error (.decode ⟨ctx.reader.pos, .missingEnd⟩))
  | fuel + 1 => do
    let ctx ← get
    if ctx.control.isEmpty then return
    else if ctx.reader.isAtEnd then throw (.error (.decode ⟨ctx.reader.pos, .missingEnd⟩))
    else
      let i ← lift (Decode.fetch b)
      instruction b i
      steps b fuel

def body (b : Backend σ) : GuardedM σ Unit := do
  let fuel := (← get).bodySize
  lift (Decode.enter b)
  steps b fuel
  tell b .finishFunction

end Guarded

/-- Decode a function body with every lookup guarded. -/
def guardedDecodeBody {σ : Type} (b : Backend σ) (s : σ) (module : Module) (sig : Signature)
    (body : Array UInt8) (options : DecoderOptions) : Except Halt Unit × σ :=
  let (outcome, s) := ((Guarded.body b).run (.initial module sig body options)).run.run s
  (outcome.map Prod.fst, s)

end OnePass
