import OnePass.Proofs.OutlineMatch

/-!
Most instructions take operands, leave results and tell the listener. A `Shape` says which operands
and results, and what the listener is told; after some the rest of the construct is unreachable.
Facts about all these instructions are facts about shapes.
-/
namespace OnePass

variable {shape : Shape}

/-- What an instruction takes and leaves, and what the listener is told of it. -/
structure Shape where
  /-- What has to hold besides the operands. -/
  requires : CheckM Unit := pure ()
  /-- Types of the operands with their positions in messages. Any operand passes for `bottom`. -/
  takes : List (ValueType × Nat) := []
  gives : List ValueType := []
  /-- The event, given operands and results. -/
  event : List Value → List Value → Event
  /-- The rest of the construct is unreachable. -/
  exits : Bool := false

namespace Check

/-- Pop operands of the given types, the last first. -/
def popEach (operands : List (ValueType × Nat)) : CheckM (List Value) :=
  operands.foldrM (fun (ty, index) values => return (← pop index ty) :: values) []

theorem popEach_nil : popEach [] = pure [] := rfl

theorem popEach_cons (ty : ValueType) (index : Nat) (operands : List (ValueType × Nat)) :
    popEach ((ty, index) :: operands) = do
      let values ← popEach operands
      return (← pop index ty) :: values := by
  simp [popEach]

theorem popTypes_eq_popEach (shift : Nat) (types : List ValueType) :
    popTypes shift types = popEach (types.zipIdx shift) := by
  suffices h : ∀ start, (types.zipIdx start).foldrM
          (fun (ty, i) values => return (← pop (i + shift) ty) :: values) [] =
        popEach (types.zipIdx (start + shift)) by
    rw [popTypes, h, Nat.zero_add]
  intro start
  induction types generalizing start with
  | nil => rfl
  | cons ty types ih =>
    rw [List.zipIdx_cons, List.foldrM_cons, ih, List.zipIdx_cons, popEach_cons, Nat.add_right_comm]

theorem popEach_append (xs ys : List (ValueType × Nat)) : popEach (xs ++ ys) = do
      let later ← popEach ys
      let earlier ← popEach xs
      return earlier ++ later := by
  induction xs with
  | nil => simp [popEach]
  | cons x xs ih =>
    obtain ⟨ty, index⟩ := x
    rw [List.cons_append, popEach_cons, ih, popEach_cons]
    simp

theorem pushAll_nil : pushAll [] = pure [] := rfl

theorem pushAll_cons (ty : ValueType) (types : List ValueType) : pushAll (ty :: types) = do
      let value ← push ty
      return value :: (← pushAll types) := by
  simp [pushAll]

/-- An operand of any type. -/
theorem pop_bottom (index : Nat) : pop index .bottom = popAny index := by
  have hoperand : ∀ value, operand index .bottom value = pure () := by
    intro value
    funext ctx
    simp only [operand, BEq.rfl, Bool.or_true, Bool.true_or, if_true]
    rfl
  simp [pop, hoperand]

end Check

/-- The value at a position of a list that has one there. -/
def nth (values : List Value) (i : Nat) : Value := values.getD i default

open Check

/-- The shape of an instruction that neither opens nor ends a construct nor branches. -/
def Instruction.shape? : Instruction → Option Shape
  | unreachable => some { event := fun _ _ => .unreachable, exits := true }
  | throw tag params =>
    some { takes := params.zipIdx, event := fun args _ => .throw tag args, exits := true }
  | call function sig =>
    some { takes := sig.params.zipIdx, gives := sig.results, event := .call function sig }
  | callIndirect callee sig =>
    some { takes := sig.params.zipIdx ++ [(.i32, 0)], gives := sig.results
           event := fun args => .callIndirect (args.getLastD default) callee sig args.dropLast }
  | returnCall function sig =>
    some { requires := tailCallReturns sig, takes := sig.params.zipIdx
           event := fun args _ => .returnCall function sig args, exits := true }
  | returnCallIndirect callee sig =>
    some { requires := tailCallReturns sig, takes := sig.params.zipIdx ++ [(.i32, 0)]
           event := fun args _ =>
             .returnCallIndirect (args.getLastD default) callee sig args.dropLast
           exits := true }
  | drop => some { takes := [(.bottom, 0)], event := fun args _ => .drop (nth args 0) }
  | selectTyped ty =>
    some { takes := [(ty, 0), (ty, 1), (.i32, 2)], gives := [ty]
           event := fun args results =>
             .select (nth args 2) (nth args 1) (nth args 0) (nth results 0) }
  | localGet index ty =>
    some { gives := [ty], event := fun _ results => .localGet (nth results 0) index }
  | localSet index ty =>
    some { takes := [(ty, 0)], event := fun args _ => .localSet (nth args 0) index }
  | localTee index ty =>
    some { takes := [(ty, 0)], gives := [ty]
           event := fun args results => .localTee (nth args 0) (nth results 0) index }
  | globalGet index ty =>
    some { gives := [ty], event := fun _ results => .globalGet (nth results 0) index }
  | globalSet index ty =>
    some { takes := [(ty, 0)], event := fun args _ => .globalSet (nth args 0) index }
  | tableGet table elem =>
    some { takes := [(.i32, 0)], gives := [elem]
           event := fun args results => .tableGet (nth args 0) (nth results 0) table }
  | tableSet table elem =>
    some { takes := [(.i32, 0), (elem, 1)]
           event := fun args _ => .tableSet (nth args 0) (nth args 1) table }
  | load ty arg =>
    some { takes := [(.i32, 0)], gives := [ty.valueType]
           event := fun args results => .load ty arg (nth args 0) (nth results 0) }
  | store ty arg =>
    some { takes := [(.i32, 0), (ty.valueType, 1)]
           event := fun args _ => .store ty arg (nth args 0) (nth args 1) }
  | memorySize => some { gives := [.i32], event := fun _ results => .memorySize (nth results 0) }
  | memoryGrow =>
    some { takes := [(.i32, 0)], gives := [.i32]
           event := fun args results => .memoryGrow (nth args 0) (nth results 0) }
  | const value =>
    some { gives := [value.type], event := fun _ results => .const value (nth results 0) }
  | unary op =>
    some { takes := [(op.input, 0)], gives := [op.output]
           event := fun args results => .unary op (nth args 0) (nth results 0) }
  | binary op =>
    some { takes := [(op.operand, 0), (op.operand, 1)], gives := [op.output]
           event := fun args results => .binary op (nth args 0) (nth args 1) (nth results 0) }
  | refNull ty => some { gives := [ty], event := fun _ results => .refNull ty (nth results 0) }
  | refFunc function =>
    some { gives := [.funcref], event := fun _ results => .refFunc function (nth results 0) }
  | memoryInit segment => some (bulk (.memoryInit segment))
  | dataDrop segment => some { event := fun _ _ => .dataDrop segment }
  | memoryCopy => some (bulk .memoryCopy)
  | memoryFill => some (bulk .memoryFill)
  | tableInit segment segmentType table elem =>
    some { bulk (.tableInit segment table) with requires := elementTypes segmentType elem }
  | elemDrop segment => some { event := fun _ _ => .elemDrop segment }
  | tableCopy dst dstElem src srcElem =>
    some { bulk (.tableCopy dst src) with requires := elementTypes srcElem dstElem }
  | tableGrow table elem =>
    some { takes := [(elem, 0), (.i32, 1)], gives := [.i32]
           event := fun args results =>
             .tableGrow table (nth args 0) (nth args 1) (nth results 0) }
  | tableSize table =>
    some { gives := [.i32], event := fun _ results => .tableSize table (nth results 0) }
  | tableFill table elem =>
    some { takes := [(.i32, 0), (elem, 1), (.i32, 2)]
           event := fun args _ => .tableFill table args }
  | extractLane lane =>
    some { takes := [(.v128, 0)], gives := [.i32]
           event := fun args results => .lane .extractLane lane args (nth results 0) }
  | replaceLane lane =>
    some { takes := [(.v128, 0), (.i32, 1)], gives := [.v128]
           event := fun args results => .lane .replaceLane lane args (nth results 0) }
  | _ => none
where
  bulk (event : List Value → Event) : Shape :=
    { takes := [(.i32, 0), (.i32, 1), (.i32, 2)], event := fun args _ => event args }

variable {i : Instruction}

/-- What can be required besides the operands. -/
theorem Instruction.requires_cases (h : i.shape? = some shape) :
    shape.requires = pure () ∨ (∃ sig, shape.requires = tailCallReturns sig) ∨
      ∃ src dst, shape.requires = elementTypes src dst := by
  cases i with
  | returnCall | returnCallIndirect =>
    cases h
    exact .inr (.inl ⟨_, rfl⟩)
  | tableInit | tableCopy =>
    cases h
    exact .inr (.inr ⟨_, _, rfl⟩)
  | _ => cases h <;> exact .inl rfl

/-- What else is required changes nothing. -/
theorem Instruction.requires_ok (h : i.shape? = some shape)
    {ctx ctx' : Context} {u : Unit} (hr : shape.requires ctx = .ok (u, ctx')) : ctx' = ctx := by
  obtain heq | ⟨sig, heq⟩ | ⟨src, dst, heq⟩ := requires_cases h <;> rw [heq] at hr
  · cases hr
    rfl
  · simp only [tailCallReturns, bind, StateT.bind, get, getThe, MonadStateOf.get, StateT.get,
      pure, Except.pure, Except.bind] at hr
    split at hr <;> cases hr
    rfl
  · simp only [elementTypes, bind, StateT.bind, get, getThe, MonadStateOf.get, StateT.get,
      pure, Except.pure, Except.bind] at hr
    split at hr <;> cases hr
    rfl

/-- The types that the immediates of an instruction stand for. -/
def Instruction.types : Instruction → List ValueType
  | block type | loop type | tryBlock type | ifThen type => type.params ++ type.results
  | catchTag _ params | throw _ params => params
  | call _ sig | callIndirect _ sig | returnCall _ sig | returnCallIndirect _ sig =>
    sig.params ++ sig.results
  | selectTyped ty | localGet _ ty | localSet _ ty | localTee _ ty | globalGet _ ty
  | globalSet _ ty | tableGet _ ty | tableSet _ ty | refNull ty | tableGrow _ ty
  | tableFill _ ty => [ty]
  | _ => []

theorem LoadType.valueType_ne_bottom (ty : LoadType) : ty.valueType ≠ .bottom := by
  cases ty <;> decide

theorem Width.int_ne_bottom (w : Width) : w.int ≠ .bottom := by
  cases w <;> decide

theorem Width.float_ne_bottom (w : Width) : w.float ≠ .bottom := by
  cases w <;> decide

theorem VecUnary.input_ne_bottom (op : VecUnary) : op.input ≠ .bottom := by
  cases op <;> decide

theorem UnaryOp.input_ne_bottom (op : UnaryOp) : op.input ≠ .bottom := by
  cases op <;> simp [input, Width.int_ne_bottom, Width.float_ne_bottom, VecUnary.input_ne_bottom]

theorem BinaryOp.operand_ne_bottom (op : BinaryOp) : op.operand ≠ .bottom := by
  cases op <;> simp [operand, Width.int_ne_bottom, Width.float_ne_bottom]

theorem UnaryOp.output_ne_bottom (op : UnaryOp) : op.output ≠ .bottom := by
  cases op <;> simp [output, Width.int_ne_bottom, Width.float_ne_bottom]

theorem BinaryOp.output_ne_bottom (op : BinaryOp) : op.output ≠ .bottom := by
  cases op <;> simp [output, Width.int_ne_bottom, Width.float_ne_bottom]

theorem Constant.type_ne_bottom (value : Constant) : value.type ≠ .bottom := by
  cases value <;> simp [type]

/-- The results have types of the immediates, or types that are fixed. -/
theorem Instruction.gives_types (h : i.shape? = some shape) :
    ∀ ty ∈ shape.gives, ty ∈ i.types ∨ ty ≠ .bottom := by
  cases i
  all_goals simp [shape?] at h
  all_goals subst h
  all_goals simp [shape?.bulk, types, LoadType.valueType_ne_bottom, UnaryOp.output_ne_bottom,
    BinaryOp.output_ne_bottom, Constant.type_ne_bottom]
  all_goals grind

/-- Check the operands and push the results. The answer is what the listener is told. -/
def Shape.check (shape : Shape) : CheckM Event := do
  shape.requires
  let args ← popEach shape.takes
  let results ← pushAll shape.gives
  return shape.event args results

namespace Decode

variable {σ : Type}

theorem check_map {α β : Type} (f : α → β) (m : CheckM α) :
    (check (f <$> m) : DecodeM σ β) = f <$> check m := by
  rw [map_eq_pure_bind, check_bind]
  simp [check_pure]

/-- Every instruction with a shape does what its shape says. -/
theorem instruction_eq_shape (b : Backend σ) {shape : Shape} (h : i.shape? = some shape) :
    instruction b i = (do
      report b (← check shape.check)
      if shape.exits then endControl b) := by
  cases i
  all_goals simp [Instruction.shape?] at h
  all_goals subst h
  all_goals simp [instruction, Shape.check, popEach_nil, popEach_cons, popEach_append,
    pushAll_nil, pushAll_cons, popArgs, popTypes_eq_popEach, nth, check_map,
    Instruction.shape?.bulk, call, callIndirect, returnCall, returnCallIndirect, selectTyped, bulk,
    pop_bottom]

/-- A handler begins; it finds values of the given types. -/
def handler (b : Backend σ) (what : String) (kind : ControlKind) (params : List ValueType)
    (event : Control → List Value → Event) : DecodeM σ Unit := do
  check (requireTry what)
  modify fun ctx => ctx.modifyCurrent fun c => { c with kind }
  fallThru b
  beginArm
  let values ← check (pushAll params)
  let c := (← get).current
  if (← get).parentReachable then tell b (event c values)
  modify fun ctx => { ctx with live := c.isReachable }

theorem instruction_catchTag (b : Backend σ) (tag : Nat) (params : List ValueType) :
    instruction b (.catchTag tag params) = handler b "catch" .tryCatch params (.catchTag tag) := rfl

theorem instruction_catchAll (b : Backend σ) : instruction b .catchAll =
    handler b "catch-all" .tryCatchAll [] fun c _ => .catchAll c := rfl

end Decode

end OnePass
