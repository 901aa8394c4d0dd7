import Mathlib
import OnePass.Decode.Body

/-!
The type rules without the bookkeeping. For every open construct a frame keeps its types, its
operands and whether an unconditional branch came before. It forgets who listens, which code is
live, where operands come from and what reaches the ends of constructs. A step of the frames fails
at the offset at which decoding fails, and only the offset is kept.
-/
namespace OnePass

theorem Except.bind_eq_ok_iff {ε α β : Type} {x : Except ε α} {k : α → Except ε β} {b : β} :
    (x >>= k) = .ok b ↔ ∃ a, x = .ok a ∧ k a = .ok b := by
  cases x with
  | error e => exact ⟨fun h => (by cases h), fun ⟨_, h, _⟩ => (by cases h)⟩
  | ok a => exact ⟨fun h => ⟨a, rfl, h⟩, fun ⟨_, h, hk⟩ => by cases h; exact hk⟩

/-- What the type rules know of an open construct. -/
structure Frame where
  kind : ControlKind
  params : List ValueType
  results : List ValueType
  /-- Operands of the construct, the topmost first. -/
  operands : List ValueType
  /-- After an unconditional branch the operands never run out. -/
  polymorphic : Bool
  /-- Offset of the opening instruction. -/
  pc : Nat
  deriving DecidableEq, Repr

/-- The types that a branch to the construct carries. -/
def Frame.labelTypes (f : Frame) : List ValueType :=
  if f.kind = .loop then f.params else f.results

/-- What the type of an instruction depends on besides its operands. -/
structure TypeEnv where
  options : DecoderOptions
  /-- Results of the function. -/
  results : List ValueType
  /-- Label types of the open constructs, the innermost first. -/
  labels : List (List ValueType)
  /-- Kinds of the open constructs, the innermost first. -/
  kinds : List ControlKind

namespace TypeEnv

def ofFrames (options : DecoderOptions) (results : List ValueType) (frames : List Frame) :
    TypeEnv :=
  ⟨options, results, frames.map Frame.labelTypes, frames.map Frame.kind⟩

def label (env : TypeEnv) (depth : Nat) : List ValueType := env.labels.getD depth []

/-- Whether an operand may stand where a type is expected. `bottom` expects nothing. -/
def accepts (env : TypeEnv) (expected found : ValueType) : Bool :=
  env.options.trusted || expected == .bottom || found.isSubtypeOf expected

@[simp] theorem accepts_bottom (env : TypeEnv) (expected : ValueType) :
    env.accepts expected .bottom = true := by
  simp [accepts, ValueType.isSubtypeOf]

/-- Types that fit two targets of a branch table at once. They are common subtypes where there are
reference types; otherwise the types have to be equal. -/
def meet (env : TypeEnv) (types label : List ValueType) : Option (List ValueType) :=
  if label.length ≠ types.length then none
  else if env.options.trusted then some types
  else if env.options.features.contains .referenceTypes then
    some (List.zipWith ValueType.commonSubtype types label)
  else if types = label then some types
  else none

/-- Take in one more target of a branch table. -/
def joinLabel (env : TypeEnv) (types : Option (List ValueType)) (target : Nat) :
    Option (Option (List ValueType)) :=
  match env.labels[target]?, types with
  | none, _ => none
  | some label, none => some (some label)
  | some label, some types => (env.meet types label).map some

/-- The types that fit every target of a branch table. -/
def tableTypes (env : TypeEnv) (targets : List Nat) : Option (List ValueType) :=
  (·.getD []) <$> targets.foldlM env.joinLabel none

end TypeEnv

/-- A step that changes the operands of the innermost construct, or fails. -/
abbrev FrameM := StateT Frame Option

namespace FrameM

variable {α β : Type}

theorem bind_apply (m : FrameM α) (k : α → FrameM β) (f : Frame) :
    (m >>= k) f = (m f).bind fun p => k p.1 p.2 := rfl

theorem get_bind_apply (k : Frame → FrameM α) (f : Frame) : (get >>= k) f = k f f := rfl

theorem guard_apply (p : Prop) [Decidable p] (f : Frame) :
    (guard p : FrameM Unit) f = if p then some ((), f) else none := by
  unfold guard
  split <;> rfl

end FrameM

namespace Frame

def push (ty : ValueType) : FrameM Unit := modify fun f => { f with operands := ty :: f.operands }

def pushTypes : List ValueType → FrameM Unit
  | [] => pure ()
  | ty :: types => do
    push ty
    pushTypes types

def popAny : FrameM ValueType := fun f =>
  match f.operands with
  | ty :: rest => some (ty, { f with operands := rest })
  | [] => if f.polymorphic then some (.bottom, f) else none

def pop (env : TypeEnv) (expected : ValueType) : FrameM Unit := do
  let ty ← popAny
  guard (env.accepts expected ty)

/-- Pop operands of the given types, the last first. -/
def popTypes (env : TypeEnv) : List ValueType → FrameM Unit
  | [] => pure ()
  | ty :: types => do
    popTypes env types
    pop env ty

/-- The topmost operands, as far as there are any, are accepted where the types are expected. -/
def takes (f : Frame) (env : TypeEnv) (types : List ValueType) : Bool :=
  (f.polymorphic || decide (types.length ≤ f.operands.length)) &&
    (f.operands.zip types.reverse).all fun (found, want) => env.accepts want found

/-- The topmost operands are all there and have types below the given ones. -/
def hasOnTop (f : Frame) (env : TypeEnv) (types : List ValueType) : Bool :=
  decide (types.length ≤ f.operands.length) &&
    (env.options.trusted || (f.operands.zip types.reverse).all fun (found, want) =>
      found.isSubtypeOf want)

/-- The rest of the construct is unreachable. -/
def close : FrameM Unit := modify fun f => { f with operands := [], polymorphic := true }

/-- The construct ends with its results. -/
def fallthrough (env : TypeEnv) : FrameM Unit := do
  let f ← get
  guard (f.operands.length ≤ f.results.length)
  popTypes env f.results
  pushTypes f.results

/-- The operands fit a branch table. -/
def branchTable (env : TypeEnv) (types : List ValueType) : FrameM Unit := do
  let f ← get
  if f.polymorphic then popTypes env types else guard (f.hasOnTop env types)

def select (env : TypeEnv) : FrameM Unit := do
  pop env .i32
  let falseType ← popAny
  let trueType ← popAny
  guard (env.accepts falseType trueType)
  let ty := if trueType = .bottom then falseType else trueType
  guard (env.options.trusted || !ty.isReference)
  push ty

def refIsNull (env : TypeEnv) : FrameM Unit := do
  let ty ← popAny
  guard (env.options.trusted || ty.isReference || ty == .bottom)
  push .i32

end Frame

namespace Instruction

/-- The types of instructions that take and leave fixed operands. -/
def stackType? : Instruction → Option BlockType
  | nop | dataDrop _ | elemDrop _ => some ⟨[], []⟩
  | call _ sig => some ⟨sig.params, sig.results⟩
  | callIndirect _ sig => some ⟨sig.params ++ [.i32], sig.results⟩
  | selectTyped ty => some ⟨[ty, ty, .i32], [ty]⟩
  | localGet _ ty | globalGet _ ty | refNull ty => some ⟨[], [ty]⟩
  | localSet _ ty | globalSet _ ty => some ⟨[ty], []⟩
  | localTee _ ty => some ⟨[ty], [ty]⟩
  | tableGet _ elem => some ⟨[.i32], [elem]⟩
  | tableSet _ elem => some ⟨[.i32, elem], []⟩
  | load ty _ => some ⟨[.i32], [ty.valueType]⟩
  | store ty _ => some ⟨[.i32, ty.valueType], []⟩
  | memorySize | tableSize _ => some ⟨[], [.i32]⟩
  | memoryGrow => some ⟨[.i32], [.i32]⟩
  | const value => some ⟨[], [value.type]⟩
  | unary op => some ⟨[op.input], [op.output]⟩
  | binary op => some ⟨[op.operand, op.operand], [op.output]⟩
  | refFunc _ => some ⟨[], [.funcref]⟩
  | memoryInit _ | memoryCopy | memoryFill | tableInit .. | tableCopy .. =>
    some ⟨[.i32, .i32, .i32], []⟩
  | tableGrow _ elem => some ⟨[elem, .i32], [.i32]⟩
  | tableFill _ elem => some ⟨[.i32, elem, .i32], []⟩
  | extractLane _ => some ⟨[.v128], [.i32]⟩
  | replaceLane _ => some ⟨[.v128, .i32], [.v128]⟩
  | _ => none

/-- The operands of instructions after which the construct is unreachable. -/
def exitTypes? (env : TypeEnv) : Instruction → Option (List ValueType)
  | unreachable | rethrow _ => some []
  | throw _ params => some params
  | br depth => some (env.label depth)
  | ret => some env.results
  | returnCall _ sig => some sig.params
  | returnCallIndirect _ sig => some (sig.params ++ [.i32])
  | _ => none

/-- Results of a callee that its caller may return as its own. -/
def resultsFit (ours theirs : List ValueType) : Bool :=
  ours.length == theirs.length && (theirs.zip ours).all fun (t, o) => t.isSubtypeOf o

/-- What the types require of an instruction whatever its operands are. -/
def admissible (env : TypeEnv) : Instruction → Bool
  | tableInit _ segment _ elem => env.options.trusted || segment.isSubtypeOf elem
  | tableCopy _ dst _ src => env.options.trusted || src.isSubtypeOf dst
  | returnCall _ sig | returnCallIndirect _ sig =>
    env.options.trusted || resultsFit env.results sig.results
  | rethrow depth =>
    let kind := env.kinds.getD depth .block
    kind == .tryCatch || kind == .tryCatchAll
  | _ => true

/-- What an instruction that opens and closes nothing does to the operands. -/
def effect (env : TypeEnv) (i : Instruction) : FrameM Unit := do
  guard (i.admissible env)
  match i.stackType?, i.exitTypes? env, i with
  | some type, _, _ => do
    Frame.popTypes env type.params
    Frame.pushTypes type.results
  | _, some types, _ => do
    Frame.popTypes env types
    Frame.close
  | _, _, .brIf depth => do
    Frame.pop env .i32
    Frame.popTypes env (env.label depth)
    Frame.pushTypes (env.label depth)
  | _, _, .brTable table => do
    Frame.pop env .i32
    let types ← (env.tableTypes table.targets : Option _)
    Frame.branchTable env types
    Frame.close
  | _, _, .drop => do let _ ← Frame.popAny
  | _, _, .select => Frame.select env
  | _, _, .refIsNull => Frame.refIsNull env
  | _, _, _ => failure

end Instruction

/-- What every decoding step of one function refers to. -/
structure Setting where
  module : Module
  sig : Signature
  options : DecoderOptions

/-- The stacks of a decoding state as the type rules see them, and the position in the body. -/
structure Outline where
  reader : Reader
  locals : Array ValueType
  /-- Open constructs, the innermost first. -/
  frames : List Frame
  deriving DecidableEq, Repr

namespace Outline

/-- A step of the innermost construct; it fails at the current instruction. -/
def within (pc : Nat) (m : FrameM Unit) (f : Frame) : Except Nat Frame :=
  match m f with
  | some (_, f) => .ok f
  | none => .error pc

/-- A construct whose parameters are its operands. -/
def opened (kind : ControlKind) (type : BlockType) (pc : Nat) : Frame :=
  ⟨kind, type.params, type.results, type.params.reverse, false, pc⟩

/-- Without an `else` the parameters pass through as the results. -/
def passesThrough (options : DecoderOptions) (f : Frame) : Bool :=
  f.params.length == f.results.length &&
    (options.trusted || (f.params.zip f.results).all fun (p, r) => p.isSubtypeOf r)

def isTryKind (kind : ControlKind) : Bool :=
  kind == .tryBlock || kind == .tryCatch || kind == .tryCatchAll

/-- Begin another arm of the innermost construct. -/
def newArm (kind : ControlKind) (operands : List ValueType) (f : Frame) : Frame :=
  { f with kind, operands, polymorphic := false }

/-- The innermost construct ends; `reader` stands after its `end`. -/
def endConstruct (env : TypeEnv) (reader : Reader) (pc : Nat) (f : Frame) (fs : List Frame) :
    Except Nat (List Frame) := do
  if f.kind = .tryBlock then throw pc
  if f.kind = .ifThen && !passesThrough env.options f then throw f.pc
  let f ← if f.kind = .tryCatch then
      within pc (do Frame.fallthrough env; Frame.close) f
    else pure f
  let f ← within pc (Frame.fallthrough env) f
  match fs with
  | [] => if reader.isAtEnd then return [] else throw reader.pos
  | outer :: rest => return { outer with operands := f.results.reverse ++ outer.operands } :: rest

/-- What an instruction does to the open constructs. -/
def advance (env : TypeEnv) (reader : Reader) (pc : Nat) :
    Instruction → List Frame → Except Nat (List Frame)
  | _, [] => .error pc
  | .block type, f :: fs => do
    return opened .block type pc :: (← within pc (Frame.popTypes env type.params) f) :: fs
  | .loop type, f :: fs => do
    return opened .loop type pc :: (← within pc (Frame.popTypes env type.params) f) :: fs
  | .tryBlock type, f :: fs => do
    return opened .tryBlock type pc :: (← within pc (Frame.popTypes env type.params) f) :: fs
  | .ifThen type, f :: fs => do
    let popped ← within pc (do Frame.pop env .i32; Frame.popTypes env type.params) f
    return opened .ifThen type pc :: popped :: fs
  | .elseArm, f :: fs => do
    if f.kind ≠ .ifThen then throw pc
    let f ← within pc (Frame.fallthrough env) f
    return newArm .ifElse f.params.reverse f :: fs
  | .endBlock, f :: fs => endConstruct env reader pc f fs
  | .catchTag _ params, f :: fs => do
    if !isTryKind f.kind || f.kind = .tryCatchAll then throw pc
    let f ← within pc (Frame.fallthrough env) { f with kind := .tryCatch }
    return newArm .tryCatch params.reverse f :: fs
  | .catchAll, f :: fs => do
    if !isTryKind f.kind || f.kind = .tryCatchAll then throw pc
    let f ← within pc (Frame.fallthrough env) { f with kind := .tryCatchAll }
    return newArm .tryCatchAll [] f :: fs
  | i, f :: fs => do return (← within pc (i.effect env) f) :: fs

/-- Read something; only the offset of a fault is kept. -/
def reading {α : Type} (m : ReadM α) (r : Reader) : Except Nat (α × Reader) :=
  match m.run.run r with
  | (.ok a, r) => .ok (a, r)
  | (.error e, _) => .error e.offset

def env (setting : Setting) (o : Outline) : TypeEnv :=
  .ofFrames setting.options setting.sig.results o.frames

/-- What immediates may refer to; of the constructs only their number matters. -/
def scope (setting : Setting) (o : Outline) : Scope :=
  ⟨setting.module, setting.options.features, o.locals, List.replicate o.frames.length default,
    o.reader.pos⟩

/-- Read the next instruction. -/
def nextInstruction (setting : Setting) (o : Outline) : Except Nat (Instruction × Reader) := do
  let (op, r) ← reading (Opcode.read setting.options.features) o.reader
  reading (Instruction.read (o.scope setting) op) r

def step (setting : Setting) (o : Outline) : Except Nat Outline := do
  let (i, reader) ← o.nextInstruction setting
  let frames ← advance (o.env setting) reader o.reader.pos i o.frames
  return { o with reader, frames }

def steps (setting : Setting) : (fuel : Nat) → Outline → Except Nat Outline
  | 0, o => if o.frames.isEmpty then return o else throw o.reader.pos
  | fuel + 1, o =>
    if o.frames.isEmpty then return o
    else if o.reader.isAtEnd then throw o.reader.pos
    else do steps setting fuel (← o.step setting)

/-- The state in which the first instruction is read. -/
def start (setting : Setting) (locals : Array ValueType) (reader : Reader) : Outline :=
  ⟨reader, locals, [opened .block ⟨[], setting.sig.results⟩ reader.pos]⟩

/-- The locals and the whole body. -/
def body (setting : Setting) (bytes : Array UInt8) : Except Nat Outline := do
  let (locals, reader) ← reading (readLocals setting.options.features setting.sig) ⟨bytes, 0⟩
  steps setting bytes.size (start setting locals reader)

end Outline

end OnePass
