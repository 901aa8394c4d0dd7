import OnePass.Decode.Check
import OnePass.Decode.Event

/-!
One instruction: its operands are checked and popped, its results pushed, constructs opened or
closed, and the backend told, in this order.
-/
namespace OnePass

/-- A step of decoding for a backend with state `σ`. The backend's state survives a failure. -/
abbrev DecodeM (σ : Type) := StateT Context (ExceptT CompileError (StateM σ))

namespace Decode

variable {σ α : Type}

def check (m : CheckM α) : DecodeM σ α := fun ctx =>
  match m ctx with
  | .ok r => pure r
  | .error e => throw (.decode e)

def read (m : ReadM α) : DecodeM σ α := fun ctx =>
  match m.run.run ctx.reader with
  | (.ok a, r) => pure (a, { ctx with reader := r })
  | (.error e, _) => throw (.decode e)

/-- Tell the backend, live or not. -/
def tell (b : Backend σ) (e : Event) : DecodeM σ Unit := fun ctx => do
  let s ← getThe σ
  match b.handle ctx e s with
  | (.ok reply, s) =>
    set s
    match reply with
    | .proceed => return ((), ctx)
    | .dead => return ((), ctx.markDead)
  | (.error bailout, s) =>
    set s
    throw (.unsupported bailout)

/-- Tell the backend if the code is live. -/
def report (b : Backend σ) (e : Event) : DecodeM σ Unit := do
  if (← get).live then tell b e

/-- The rest of the innermost construct is unreachable. -/
def endControl (b : Backend σ) : DecodeM σ Unit := do
  modify fun ctx => ctx.truncate ctx.current.stackDepth
  report b (.endControl (← get).current)
  modify fun ctx =>
    { ctx.modifyCurrent fun c => { c with reachability := .unreachable } with live := false }

/-- An arm of a `try` ends. -/
def fallThru (b : Backend σ) : DecodeM σ Unit := do
  check Check.fallthrough
  let c := (← get).current
  if c.isReachable then
    if !c.isLoop then tell b (.fallThru c)
    modify fun ctx => ctx.modifyCurrent Control.markEnd

/-- Close the innermost construct. A loop leaves its operands in place. -/
def popControl (b : Backend σ) : DecodeM σ Unit := do
  let c := (← get).current
  if (← get).parentReachable then tell b (.popControl c)
  if !c.isLoop then check (Check.pushMergeValues c.endMerge.types)
  modify fun ctx =>
    let outer := { ctx with control := ctx.control.tail }
    let outer :=
      if c.isReachable || c.endMerge.reached || c.isOneArmedIf then outer else outer.markDead
    { outer with live := outer.current.isReachable }

/-- Open a construct whose parameters are on the stack. -/
def openBlock (b : Backend σ) (kind : ControlKind) (type : BlockType) (event : Control → Event) :
    DecodeM σ Unit := do
  let _ ← check (Check.popArgs type.params)
  let block ← check (Check.pushControl kind type)
  report b (event block)
  check (Check.pushMergeValues type.params)

def openIf (b : Backend σ) (type : BlockType) : DecodeM σ Unit := do
  let cond ← check (Check.pop 0 .i32)
  openBlock b .ifThen type (.ifThen cond)

/-- What the construct around the innermost one allows for a new arm. -/
def armReachability (ctx : Context) : Reachability := (ctx.controlAt 1).reachability.inner

def elseArm (b : Backend σ) : DecodeM σ Unit := do
  let c := (← get).current
  if !c.isIf then check (Check.fault .elseWithoutIf)
  if c.kind = .ifElse then check (Check.fault .secondElse)
  check Check.fallthrough
  modify fun ctx => ctx.modifyCurrent fun c => { c with kind := .ifElse }
  let c := (← get).current
  if (← get).parentReachable then tell b (.elseArm c)
  let inner := armReachability (← get)
  modify fun ctx => ctx.modifyCurrent fun c =>
    { (if c.isReachable then c.markEnd else c) with reachability := inner }
  check (Check.pushMergeValues c.startMerge.types)
  modify fun ctx => { ctx with live := inner == .reachable }

/-- Begin another arm of a `try`: what was left of the operands goes, reachability starts anew. -/
def beginArm : DecodeM σ Unit :=
  modify fun ctx =>
    let inner := armReachability ctx
    (ctx.truncate ctx.current.stackDepth).modifyCurrent fun c => { c with reachability := inner }

/-- A handler may follow: the innermost construct is a `try` without a catch-all. -/
def requireTry (what : String) : CheckM Unit := do
  let c := (← get).current
  if !c.isTry then Check.fault (.catchOutsideTry what)
  else if c.kind = .tryCatchAll then Check.fault (.catchAfterCatchAll what)

def catchTag (b : Backend σ) (tag : Nat) (params : List ValueType) : DecodeM σ Unit := do
  check (requireTry "catch")
  modify fun ctx => ctx.modifyCurrent fun c => { c with kind := .tryCatch }
  fallThru b
  beginArm
  let values ← check (Check.pushAll params)
  let c := (← get).current
  if (← get).parentReachable then tell b (.catchTag tag c values)
  modify fun ctx => { ctx with live := c.isReachable }

def catchAll (b : Backend σ) : DecodeM σ Unit := do
  check (requireTry "catch-all")
  modify fun ctx => ctx.modifyCurrent fun c => { c with kind := .tryCatchAll }
  fallThru b
  beginArm
  let c := (← get).current
  if (← get).parentReachable then tell b (.catchAll c)
  modify fun ctx => { ctx with live := c.isReachable }

/-- A `try` without a catch-all ends: what no handler took is thrown again. -/
def rethrowUncaught (b : Backend σ) : DecodeM σ Unit := do
  fallThru b
  modify fun ctx =>
    let inner := armReachability ctx
    ctx.modifyCurrent fun c => { c with reachability := inner }
  let c := (← get).current
  if (← get).parentReachable then tell b (.catchAll c)
  modify fun ctx => { ctx with live := c.isReachable }
  report b (.rethrow c)
  endControl b

/-- The last `end`: the function returns. -/
def endBody (b : Backend σ) : DecodeM σ Unit := do
  let reader := (← get).reader
  if !reader.isAtEnd then throw (.decode ⟨reader.pos, .trailingCode⟩)
  report b .ret
  modify fun ctx => { ctx with control := [] }

def endBlock (b : Backend σ) : DecodeM σ Unit := do
  let c := (← get).current
  if c.kind = .tryBlock then check (Check.fault .missingCatch)
  if c.isOneArmedIf then check (Check.oneArmedIf c)
  if c.kind = .tryCatch then rethrowUncaught b
  check Check.fallthrough
  if (← get).isOutermost then endBody b else popControl b

def br (b : Backend σ) (depth : Nat) : DecodeM σ Unit := do
  if ← check (Check.branch depth false) then
    report b (.br depth)
    modify fun ctx => ctx.modifyControl depth Control.markBranch
  endControl b

def brIf (b : Backend σ) (depth : Nat) : DecodeM σ Unit := do
  let cond ← check (Check.pop 0 .i32)
  if ← check (Check.branch depth true) then
    report b (.brIf cond depth)
    modify fun ctx => ctx.modifyControl depth Control.markBranch

/-- Note a branch to every construct whose depth was seen. -/
def markSeen (seen : Array Bool) (ctx : Context) : Context :=
  { ctx with
    control := ctx.control.mapIdx fun depth c =>
      if seen[depth]?.getD false then c.markBranch else c }

def brTable (b : Backend σ) (table : BranchTable) : DecodeM σ Unit := do
  let key ← check (Check.pop 0 .i32)
  let scan ← check (Check.scanTable table)
  check (Check.branchTable (scan.types.getD []))
  if (← get).live then
    tell b (.brTable table key)
    modify (markSeen scan.seen)
  endControl b

def ret (b : Backend σ) : DecodeM σ Unit := do
  let ctx ← get
  if ctx.live then
    check Check.returnTypes
    tell b .ret
  else
    let _ ← check (Check.popArgs ctx.sig.results)
  endControl b

def rethrow (b : Backend σ) (depth : Nat) : DecodeM σ Unit := do
  let target := (← get).controlAt depth
  if target.kind ≠ .tryCatch ∧ target.kind ≠ .tryCatchAll then check (Check.fault .rethrowTarget)
  report b (.rethrow target)
  endControl b

def call (b : Backend σ) (function : Nat) (sig : Signature) : DecodeM σ Unit := do
  let args ← check (Check.popArgs sig.params)
  let returns ← check (Check.pushAll sig.results)
  report b (.call function sig args returns)

def callIndirect (b : Backend σ) (callee : IndirectCallee) (sig : Signature) : DecodeM σ Unit := do
  let index ← check (Check.pop 0 .i32)
  let args ← check (Check.popArgs sig.params)
  let returns ← check (Check.pushAll sig.results)
  report b (.callIndirect index callee sig args returns)

def returnCall (b : Backend σ) (function : Nat) (sig : Signature) : DecodeM σ Unit := do
  check (Check.tailCallReturns sig)
  let args ← check (Check.popArgs sig.params)
  report b (.returnCall function sig args)
  endControl b

def returnCallIndirect (b : Backend σ) (callee : IndirectCallee) (sig : Signature) :
    DecodeM σ Unit := do
  check (Check.tailCallReturns sig)
  let index ← check (Check.pop 0 .i32)
  let args ← check (Check.popArgs sig.params)
  report b (.returnCallIndirect index callee sig args)
  endControl b

/-- The form without a type: both alternatives have one type, which is not a reference. -/
def select (b : Backend σ) : DecodeM σ Unit := do
  let cond ← check (Check.pop 2 .i32)
  let falseValue ← check (Check.popAny 1)
  let trueValue ← check (Check.pop 0 falseValue.ty)
  let ty := if trueValue.ty = .bottom then falseValue.ty else trueValue.ty
  if ty.isReference && !(← get).options.trusted then check (Check.fault .selectOfReference)
  let result ← check (Check.push ty)
  report b (.select cond falseValue trueValue result)

def selectTyped (b : Backend σ) (ty : ValueType) : DecodeM σ Unit := do
  let cond ← check (Check.pop 2 .i32)
  let falseValue ← check (Check.pop 1 ty)
  let trueValue ← check (Check.pop 0 ty)
  let result ← check (Check.push ty)
  report b (.select cond falseValue trueValue result)

def refIsNull (b : Backend σ) : DecodeM σ Unit := do
  let value ← check (Check.popAny 0)
  let ctx ← get
  if !value.ty.isReference && value.ty != .bottom && !ctx.options.trusted then
    check (Check.fault (.notAReference (Opcode.nameAt ctx.reader.bytes value.pc) value.ty))
  let result ← check (Check.push .i32)
  report b (.refIsNull value result)

/-- Operators that pop three `i32` operands and push nothing. -/
def bulk (b : Backend σ) (event : List Value → Event) : DecodeM σ Unit := do
  let args ← check (Check.popArgs [.i32, .i32, .i32])
  report b (event args)

/-- Check one instruction and report it. -/
def instruction (b : Backend σ) : Instruction → DecodeM σ Unit
  | .unreachable => do
    report b .unreachable
    endControl b
  | .nop => return
  | .block type => openBlock b .block type .block
  | .loop type => openBlock b .loop type .loop
  | .tryBlock type => openBlock b .tryBlock type .tryBlock
  | .ifThen type => openIf b type
  | .elseArm => elseArm b
  | .endBlock => endBlock b
  | .catchTag tag params => catchTag b tag params
  | .catchAll => catchAll b
  | .throw tag params => do
    let args ← check (Check.popArgs params)
    report b (.throw tag args)
    endControl b
  | .rethrow depth => rethrow b depth
  | .br depth => br b depth
  | .brIf depth => brIf b depth
  | .brTable table => brTable b table
  | .ret => ret b
  | .call function sig => call b function sig
  | .callIndirect callee sig => callIndirect b callee sig
  | .returnCall function sig => returnCall b function sig
  | .returnCallIndirect callee sig => returnCallIndirect b callee sig
  | .drop => do
    let value ← check (Check.popAny 0)
    report b (.drop value)
  | .select => select b
  | .selectTyped ty => selectTyped b ty
  | .localGet index ty => do
    let result ← check (Check.push ty)
    report b (.localGet result index)
  | .localSet index ty => do
    let value ← check (Check.pop 0 ty)
    report b (.localSet value index)
  | .localTee index ty => do
    let value ← check (Check.pop 0 ty)
    let result ← check (Check.push ty)
    report b (.localTee value result index)
  | .globalGet index ty => do
    let result ← check (Check.push ty)
    report b (.globalGet result index)
  | .globalSet index ty => do
    let value ← check (Check.pop 0 ty)
    report b (.globalSet value index)
  | .tableGet table elem => do
    let index ← check (Check.pop 0 .i32)
    let result ← check (Check.push elem)
    report b (.tableGet index result table)
  | .tableSet table elem => do
    let value ← check (Check.pop 1 elem)
    let index ← check (Check.pop 0 .i32)
    report b (.tableSet index value table)
  | .load ty arg => do
    let index ← check (Check.pop 0 .i32)
    let result ← check (Check.push ty.valueType)
    report b (.load ty arg index result)
  | .store ty arg => do
    let value ← check (Check.pop 1 ty.valueType)
    let index ← check (Check.pop 0 .i32)
    report b (.store ty arg index value)
  | .memorySize => do
    let result ← check (Check.push .i32)
    report b (.memorySize result)
  | .memoryGrow => do
    let value ← check (Check.pop 0 .i32)
    let result ← check (Check.push .i32)
    report b (.memoryGrow value result)
  | .const value => do
    let result ← check (Check.push value.type)
    report b (.const value result)
  | .unary op => do
    let value ← check (Check.pop 0 op.input)
    let result ← check (Check.push op.output)
    report b (.unary op value result)
  | .binary op => do
    let rhs ← check (Check.pop 1 op.operand)
    let lhs ← check (Check.pop 0 op.operand)
    let result ← check (Check.push op.output)
    report b (.binary op lhs rhs result)
  | .refNull ty => do
    let result ← check (Check.push ty)
    report b (.refNull ty result)
  | .refIsNull => refIsNull b
  | .refFunc function => do
    let result ← check (Check.push .funcref)
    report b (.refFunc function result)
  | .memoryInit segment => bulk b (.memoryInit segment)
  | .dataDrop segment => report b (.dataDrop segment)
  | .memoryCopy => bulk b .memoryCopy
  | .memoryFill => bulk b .memoryFill
  | .tableInit segment segmentType table elem => do
    check (Check.elementTypes segmentType elem)
    bulk b (.tableInit segment table)
  | .elemDrop segment => report b (.elemDrop segment)
  | .tableCopy dst dstElem src srcElem => do
    check (Check.elementTypes srcElem dstElem)
    bulk b (.tableCopy dst src)
  | .tableGrow table elem => do
    let delta ← check (Check.pop 1 .i32)
    let value ← check (Check.pop 0 elem)
    let result ← check (Check.push .i32)
    report b (.tableGrow table value delta result)
  | .tableSize table => do
    let result ← check (Check.push .i32)
    report b (.tableSize table result)
  | .tableFill table elem => do
    let args ← check (Check.popArgs [.i32, elem, .i32])
    report b (.tableFill table args)
  | .extractLane lane => do
    let inputs ← check (Check.popArgs [.v128])
    let result ← check (Check.push .i32)
    report b (.lane .extractLane lane inputs result)
  | .replaceLane lane => do
    let inputs ← check (Check.popArgs [.v128, .i32])
    let result ← check (Check.push .v128)
    report b (.lane .replaceLane lane inputs result)

end Decode

end OnePass
