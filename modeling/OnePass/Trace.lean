import OnePass.Decode.Body

/-!
A listener that writes every event down as a line of text. It can also be told to refuse at an
offset, or to declare the code after an offset dead: then a trace shows how decoding goes on.
-/
namespace OnePass

open Text

def Value.text (v : Value) : String := s!"{v.ty.name}@{v.pc}"

def Reachability.ident : Reachability → String
  | reachable => "Reachable"
  | specOnly => "SpecOnlyReachable"
  | unreachable => "Unreachable"

def ControlKind.ident : ControlKind → String
  | block => "Block"
  | loop => "Loop"
  | ifThen => "If"
  | ifElse => "IfElse"
  | tryBlock => "Try"
  | tryCatch => "TryCatch"
  | tryCatchAll => "TryCatchAll"

/-- The texts in brackets, separated by blanks. -/
private def bracketed (parts : List String) : String := "[" ++ joinWith " " parts ++ "]"

private def valueList (values : List Value) : String := bracketed (values.map Value.text)

/-- The types, with an exclamation mark if something reachable flows. -/
def Merge.text (m : Merge) : String :=
  bracketed (m.types.map ValueType.name) ++ (if m.reached then "!" else "")

def Control.text (c : Control) : String :=
  s!"{c.kind.ident}@{c.pc} depth={c.stackDepth} {c.reachability.ident} in={c.startMerge.text} " ++
  s!"out={c.endMerge.text} br={c.branchMerge.arity}"

def MemArg.text (arg : MemArg) : String := s!"align={arg.align} offset={arg.offset}"

def IndirectCallee.text (c : IndirectCallee) : String := s!"sig={c.sigIndex} table={c.tableIndex}"

def BranchTable.text (t : BranchTable) : String :=
  let targets := joinWith ", " (t.targets.map toString)
  s!"[{targets}] n={t.entries.size} default={t.default}"

/-- The constant's event, with floats and vectors in hexadecimal. -/
private def constantLine (result : Value) : Constant → List String
  | .i32 v => ["i32_const", result.text, toString v.toInt]
  | .i64 v => ["i64_const", result.text, toString v.toInt]
  | .f32 bits => ["f32_const", result.text, hexPadded 8 bits.toNat]
  | .f64 bits => ["f64_const", result.text, hexPadded 16 bits.toNat]
  | .v128 bytes => ["s128_const", result.text, hexBytes bytes]

/-- What is known at the start of a function. One type more than there are locals is shown, up to
twenty of them. -/
private def startLine (ctx : Context) : List String :=
  let count := ctx.locals.size
  let types := (List.range (min count 20 + 1)).map fun i => (ctx.localType i).name
  ["start_function", s!"locals={count}", bracketed types, s!"size={ctx.bodySize}",
    s!"sig={ctx.sig.text}"]

/-- The name of an event and its arguments. -/
def Event.words (ctx : Context) : Event → List String
  | startFunction => startLine ctx
  | startBody b => ["start_function_body", b.text]
  | finishFunction => ["finish_function"]
  | nextInstruction op => ["next_instruction", op.ident]
  | block b => ["block", b.text]
  | loop b => ["begin_loop", b.text]
  | tryBlock b => ["begin_try", b.text]
  | ifThen cond b => ["begin_if", cond.text, b.text]
  | fallThru b => ["fall_thru_to", b.text]
  | popControl b => ["pop_control", b.text]
  | endControl b => ["end_control", b.text]
  | elseArm b => ["else_branch", b.text]
  | catchTag tag b values => ["catch_exception", toString tag, b.text, valueList values]
  | catchAll b => ["catch_all", b.text]
  | throw tag args => ["throw", toString tag, valueList args]
  | rethrow b => ["rethrow", b.text]
  | br depth => ["br_or_ret", toString depth]
  | brIf cond depth => ["br_if", cond.text, toString depth]
  | brTable table key => ["br_table", table.text, key.text]
  | ret => ["do_return"]
  | unreachable => ["unreachable"]
  | unary op value result => ["unop", op.name, value.text, result.text]
  | binary op lhs rhs result => ["binop", op.name, lhs.text, rhs.text, result.text]
  | const value result => constantLine result value
  | refNull ty result => ["ref_null", ty.name, result.text]
  | refIsNull value result => ["ref_is_null", value.text, result.text]
  | refFunc function result => ["ref_func", toString function, result.text]
  | lane op index inputs result =>
    ["simd_lane_op", op.name, toString index.toNat, valueList inputs, result.text]
  | drop value => ["drop_value", value.text]
  | select cond falseValue trueValue result =>
    ["select", cond.text, falseValue.text, trueValue.text, result.text]
  | localGet result index => ["local_get", result.text, toString index]
  | localSet value index => ["local_set", value.text, toString index]
  | localTee value result index => ["local_tee", value.text, result.text, toString index]
  | globalGet result index => ["global_get", result.text, toString index]
  | globalSet value index => ["global_set", value.text, toString index]
  | load ty arg index result => ["load_mem", ty.ident, arg.text, index.text, result.text]
  | store ty arg index value => ["store_mem", ty.ident, arg.text, index.text, value.text]
  | memorySize result => ["current_memory_pages", result.text]
  | memoryGrow value result => ["memory_grow", value.text, result.text]
  | memoryInit segment args => ["memory_init", toString segment, valueList args]
  | dataDrop segment => ["data_drop", toString segment]
  | memoryCopy args => ["memory_copy", valueList args]
  | memoryFill args => ["memory_fill", valueList args]
  | tableGet index result table => ["table_get", index.text, result.text, toString table]
  | tableSet index value table => ["table_set", index.text, value.text, toString table]
  | tableInit segment table args => ["table_init", toString segment, toString table, valueList args]
  | elemDrop segment => ["elem_drop", toString segment]
  | tableCopy dst src args => ["table_copy", toString dst, toString src, valueList args]
  | tableGrow table value delta result =>
    ["table_grow", toString table, value.text, delta.text, result.text]
  | tableSize table result => ["table_size", toString table, result.text]
  | tableFill table args => ["table_fill", toString table, valueList args]
  | call function sig args returns =>
    ["call_direct", toString function, sig.text, valueList args, valueList returns]
  | callIndirect index callee sig args returns =>
    ["call_indirect", index.text, callee.text, sig.text, valueList args, valueList returns]
  | returnCall function sig args => ["return_call", toString function, sig.text, valueList args]
  | returnCallIndirect index callee sig args =>
    ["return_call_indirect", index.text, callee.text, sig.text, valueList args]

/-- Events that bracket the function or announce an instruction; they are only written down. -/
def Event.isFraming : Event → Bool
  | startFunction | startBody _ | finishFunction | nextInstruction _ => true
  | _ => false

/-- The decoder's state in one line, with up to eight operands, the topmost first. -/
def Context.text (ctx : Context) : String :=
  let next := match ctx.lookahead? with
    | some byte => hexPadded 2 byte.toNat
    | none => "-"
  let live := if ctx.live then 1 else 0
  let top := valueList ((List.range 8).filterMap ctx.operand?)
  s!"pc={ctx.pc} op={ctx.opcode.name} h={ctx.stack.size} cd={ctx.controlDepth} " ++
  s!"pos={ctx.reader.pos} next={next} live={live} top={top}"

structure TraceOptions where
  /-- Leave out the state and the announcements. -/
  brief : Bool := false
  /-- Offsets after which the code is declared dead. -/
  deadAt : List Nat := []
  /-- Offset at which the listener refuses. -/
  bailAt : Option Nat := none

namespace TraceOptions

/-- The line of an event, if it is written down. -/
def line? (o : TraceOptions) (ctx : Context) (e : Event) : Option String :=
  let words := joinWith " " (e.words ctx)
  match o.brief, e with
  | true, .nextInstruction _ => none
  | true, _ => some words
  | false, _ => some s!"{words} | {ctx.text}"

def reply (o : TraceOptions) (ctx : Context) (e : Event) : Except Bailout Reply :=
  if e.isFraming then .ok .proceed
  else if o.bailAt = some ctx.pc then .error ⟨.other, "requested"⟩
  else if o.deadAt.contains ctx.pc then .ok .dead
  else .ok .proceed

end TraceOptions

/-- The listener that writes the lines into an array. -/
def Backend.recorder (o : TraceOptions) : Backend (Array String) :=
  ⟨fun ctx e lines =>
    (o.reply ctx e, match o.line? ctx e with | some l => lines.push l | none => lines)⟩

/-- The outcome of decoding and the events up to there. -/
def trace (module : Module) (sig : Signature) (body : Array UInt8) (options : DecoderOptions)
    (o : TraceOptions) : Except CompileError Unit × Array String :=
  decodeBody (.recorder o) #[] module sig body options

end OnePass
