import OnePass.Proofs.StateChanges

/-!
What events do to cache states: the current one and those that are kept for labels and `else` arms.
Along the calls of a run, a property that every change keeps is kept.
-/
namespace OnePass

open List

/-- Whether slow paths may be made for the event. -/
def Event.makesPaths : Event → Bool
  | .startBody .. | .loop .. | .unreachable | .unary .. | .binary .. | .load .. | .store ..
  | .callIndirect .. => true
  | _ => false

theorem Event.makesPaths_of_isAccess {e : Event} (h : e.isAccess = true) : e.makesPaths = true := by
  cases e <;> first | rfl | cases h

/-- Types of values that the event leaves in slots without a check of its own. -/
def Event.givenTypes (ctx : Context) : Event → List ValueType
  | .startBody _ => ctx.sig.params ++ ctx.locals.toList
  | .refNull ty _ => [ty]
  | _ => []

/-- How registers are shown to a debugger when the event's code comes back from a call, if it makes
one that a debugger can stop in. -/
def Event.view? : Event → Option RegisterView
  | .nextInstruction .. => some .allowRegs
  | .call .. | .callIndirect .. | .memoryGrow .. | .memoryInit .. | .dataDrop .. | .memoryCopy ..
  | .memoryFill .. | .tableInit .. | .elemDrop .. | .tableCopy .. => some .didSpill
  | _ => none

/-! ## Accesses to the memory -/

namespace Lowering

/-- An access that is about to be made. -/
inductive Access where
  | load (ty : LoadType) (dst base : Reg) (a : Address)
  | store (ty : StoreType) (base : Reg) (a : Address) (value : Reg)

namespace Access

def address : Access → Address
  | load _ _ _ a | store _ _ a _ => a

/-- The type of the value that is touched. -/
def valueType : Access → ValueType
  | load ty .. => ty.valueType
  | store ty .. => ty.valueType

/-- Bytes that are touched. -/
def size : Access → Nat
  | load ty .. => ty.size
  | store ty .. => ty.size

def instr : Access → Instr Label
  | load ty dst base a => .load ty dst base a.index (.ofNat a.offset)
  | store ty base a value => .store ty base a.index (.ofNat a.offset) value

end Access

/-- The code in front of the access. No answer: the access can never succeed. -/
def openAccess (ctx : Context) : Event → LowerM (Option Access)
  | .load ty arg .. => do
    requireScalar "load" ty.valueType
    match ← memoryAddress? ctx ty.size arg.offset .empty with
    | none => return none
    | some a =>
      let base ← unusedReg .gp (a.pin .empty)
      emit (.loadInstanceField base .memoryStart)
      let dst ← unusedRegFrom (.ofType ty.valueType) ((a.pin .empty).insert base)
      return some (.load ty dst base a)
  | .store ty arg .. => do
    requireScalar "store" ty.valueType
    let value ← popToReg
    match ← memoryAddress? ctx ty.size arg.offset (.ofList [value]) with
    | none => return none
    | some a =>
      let base ← unusedReg .gp (a.pin (.ofList [value]))
      emit (.loadInstanceField base .memoryStart)
      return some (.store ty base a value)
  | _ => return none

/-- What a load leaves. -/
def yieldAccess : Access → LowerM Reply
  | .load ty dst .. => do
    pushReg ty.valueType dst
    return .proceed
  | .store .. => return .proceed

/-- The access itself, and its trap if nothing was checked. -/
def closeAccess (ctx : Context) : Option Access → LowerM Reply
  | none => return .dead
  | some a => do
    let pc := (← get).emitter.pc
    emit a.instr
    protectAccess ctx a.address pc
    yieldAccess a

theorem handle_access (ctx : Context) {e : Event} (h : e.isAccess = true) :
    handle ctx e = openAccess ctx e >>= closeAccess ctx := by
  cases e with
  | load ty arg =>
    simp only [handle, load, openAccess, bind_assoc]
    congr 1
    funext _
    congr 1
    funext a
    cases a <;> simp only [bind_assoc, pure_bind] <;> rfl
  | store ty arg =>
    simp only [handle, store, openAccess, bind_assoc]
    congr 1
    funext _
    congr 1
    funext value
    congr 1
    funext a
    cases a <;> simp only [bind_assoc, pure_bind] <;> rfl
  | _ => cases h

/-! ## Stack checks -/

/-- The code of a function in front of its stack check. -/
def openFrame (ctx : Context) : LowerM Unit := do
  let setup := (← get).emitter.pc
  modify fun s => { s with frameSetup := setup }
  emit (.enterFrame 0)
  emitting (·.spill .i64 instanceOffset .instanceReg)
  params ctx.sig.params
  if ctx.locals.size < ctx.sig.params.length then
    throw (.internal "fewer locals than parameters")
  declareLocals (ctx.locals.toList.drop ctx.sig.params.length)

/-- The code of a function behind it. -/
def openBody (ctx : Context) : LowerM Unit := do
  if (← get).options.traceEntry then traceEntry ctx.pc
  let label ← newLabel
  modify fun s => { s with control := { label } :: s.control }

/-- The code of a loop in front of its stack check. -/
def openLoop (b : Control) : LowerM Unit := do
  requireScalarBlock b
  emitting fun e => (e.spillLocals.materializeConstants b.startMerge.arity).unshareRegs
  let label ← newLabel
  bindLabel label
  pushControl { label, labelState := some (← get).emitter.state }

theorem startBody_eq (ctx : Context) :
    startBody ctx = (do openFrame ctx; stackCheck ctx.pc; openBody ctx) := by
  by_cases h : ctx.locals.size < ctx.sig.params.length <;>
    simp only [startBody, openFrame, openBody, bind_assoc, h, if_true, if_false]

theorem loop_eq (ctx : Context) (b : Control) :
    loop ctx b = (do openLoop b; stackCheck ctx.pc) := by
  simp only [loop, openLoop, bind_assoc]

end Lowering

/-! ## Steps of code generation -/

/-- What is known of the states that are kept for a construct. -/
structure ControlData.Keeps (L J : CacheState → Prop) (d : ControlData) : Prop where
  label : ∀ t, d.labelState = some t → L t
  arm : ∀ arm, d.elseArm = some arm → J arm.state

namespace Lowering

variable {f : Emitter → Emitter}

/-- The property survives the steps that all others are made of, if values go where they fit. `L` is
what the state of a label has, `J` that of any state that is kept. `traps` is what is known of the
accesses that fault into slow paths, `notes` of the entries that are made for a debugger; `loops`
and `ends` stand in front of what is needed only for the header of a loop and the end of a
function. -/
structure Steady (fits : Location → ValueType → Prop) (L J : CacheState → Prop)
    (traps : Option Nat → Prop)
    (notes : RegisterView → Prop) (loops ends : Prop) (I : Lowering → Prop) : Prop where
  emitter : ∀ s : Lowering, Emitter.Stable fits J fun e => I (s.mapEmitter fun _ => e)
  /-- The rest does not matter. -/
  same : ∀ s numLocals positions test setup, I s → I { s with
    work := { s.work with emitter := { s.work.emitter with numLocals }, positions }
    pendingTest := test
    frameSetup := setup }
  control : ∀ s control, I s → (∀ d ∈ control, d.Keeps L J) → I { s with control }
  keeps : ∀ s, I s → ∀ d ∈ s.control, d.Keeps L J
  keep : ∀ s, I s → J s.emitter.state
  header : loops → ∀ s, I s → L s.emitter.state
  merge : ∀ s numLocals arity depth, I s → L (s.emitter.state.mergeTarget numLocals arity depth)
  pass : ∀ t numLocals arity depth, J t → J (t.mergeTarget numLocals arity depth)
  label : ∀ t, L t → J t
  noted : ∀ access, traps access → notes .assumeSpilled
  entry : ∀ s record pc view, notes view → I s → s.work.sideRecord = some record →
    I { s with work := { s.work with sideRecord := some (record.add pc s.emitter.state view).2 } }
  path : ∀ s o, traps o.trappingPc → I s → I { s with outOfLine := s.outOfLine.push o }
  finish : ends → Preserves I finishFunction

variable {fits : Location → ValueType → Prop} {L J : CacheState → Prop} {traps : Option Nat → Prop}
  {notes : RegisterView → Prop} {loops ends : Prop} {I : Lowering → Prop}
    {α : Type} {s s' : Lowering}

theorem requireScalar_preserves (what : String) (ty : ValueType) :
    Preserves I (requireScalar what ty) fun _ => ty ≠ .v128 :=
  .ite (fun _ => .throw _) fun hty => .pure hty

theorem requireScalarBlock_preserves (b : Control) : Preserves I (requireScalarBlock b) :=
  (Preserves.forM fun _ _ => requireScalar_preserves _ _).any

theorem fusesWithBranch_preserves (ctx : Context) : Preserves I (fusesWithBranch ctx) :=
  .bind .get fun _ _ => .done

theorem pointerSlot_preserves (kind : String) (index : Nat) :
    Preserves I (pointerSlot kind index) :=
  .ite (fun _ => .done) fun _ => .throw _

theorem lookupGlobal_preserves (ctx : Context) (index : Nat) :
    Preserves I (lookupGlobal ctx index) fun global => global.ty ≠ .v128 := by
  unfold lookupGlobal
  split
  · exact .throw _
  · refine .when (fun _ => .throw _) ?_
    exact (requireScalar_preserves _ _).bind fun _ hty => .pure hty

theorem requireCallable_preserves (sig : Signature) :
    Preserves I (requireCallable sig) fun _ => ∀ ty ∈ sig.params ++ sig.results, ty ≠ .v128 := by
  unfold requireCallable
  refine .when (fun _ => .throw _) ?_
  exact .forM fun _ _ => requireScalar_preserves _ _

theorem emitting_maintains (h : I (s.mapEmitter fun _ => f s.emitter)) :
    Maintains I (emitting f) s fun _ _ => True := .of_modify h trivial

theorem emitting_preserves (h : ∀ s : Lowering,
    I (s.mapEmitter fun _ => s.emitter) → I (s.mapEmitter fun _ => f s.emitter)) :
      Preserves I (emitting f) :=
  fun s hs => emitting_maintains (h s hs)

variable {m : EmitM α}

theorem liftEmit_maintains {Q : α → Emitter → Prop}
    (hm : Maintains (fun e => I (s.mapEmitter fun _ => e)) m s.emitter Q) :
    Maintains I (liftEmit m) s fun x s' => ∃ e, s' = s.mapEmitter (fun _ => e) ∧ Q x e := by
  refine ⟨?_, fun x s' hr => ?_⟩
  · rw [run_liftEmit]
    exact hm.always
  · rw [run_liftEmit] at hr
    have hfst := congrArg Prod.fst hr
    exact ⟨_, (congrArg Prod.snd hr).symm, hm.ends x _ (Prod.ext hfst rfl)⟩

theorem liftEmit_preserves {post : α → Prop}
    (h : ∀ s : Lowering, Preserves (fun e => I (s.mapEmitter fun _ => e)) m post) :
      Preserves I (liftEmit m) post := by
  intro s hs
  have hm := liftEmit_maintains (h s s.emitter hs)
  refine ⟨hm.always, fun x s' hr => ?_⟩
  obtain ⟨_, _, hx⟩ := hm.ends x s' hr
  exact hx

theorem peekSlot_preserves :
    Preserves I peekSlot := liftEmit_preserves fun _ => Emitter.peekSlot_preserves 0

theorem peekSlot_maintains (hs : I s) : Maintains I peekSlot s
    fun slot s' => s' = s ∧ s.emitter.state.peek? 0 = some slot := by
  refine ⟨(peekSlot_preserves s hs).always, fun slot s' hr => ?_⟩
  have hm : Maintains (fun e => I (s.mapEmitter fun _ => e)) (Emitter.peekSlot 0) s.emitter
      fun slot e => e = s.emitter ∧ s.emitter.state.peek? 0 = some slot := by
    refine .get_bind ?_
    split
    next slot hslot =>
      refine ⟨hs, fun x e hr => ?_⟩
      cases hr
      exact ⟨rfl, hslot⟩
    next => exact ⟨hs, nofun⟩
  obtain ⟨e, rfl, rfl, hpeek⟩ := (liftEmit_maintains hm).ends slot s' hr
  exact ⟨rfl, hpeek⟩

section Steady

variable (h : Steady fits L J traps notes loops ends I)
include h

/-- All types but vectors fit. -/
theorem Steady.scalar {ty : ValueType} (hty : ty ≠ .v128) : fits .stack ty :=
  (h.emitter (.start {})).frame ty hty

theorem Steady.emit (i : Instr Label) : Preserves I (emit i) :=
  emitting_preserves fun s he => (h.emitter s).emit _ i he

/-- An instruction is emitted on the way. -/
theorem Steady.emits {i : Instr Label} {k : Unit → LowerM α} {Q : α → Prop}
    (hk : Preserves I (k ()) Q) : Preserves I (Lowering.emit i >>= k) Q :=
  (h.emit i).next fun _ => hk

theorem Steady.bindLabel (l : Label) : Preserves I (bindLabel l) :=
  emitting_preserves fun s he => (h.emitter s).bind _ l he

theorem Steady.newLabel : Preserves I newLabel :=
  fun s hs => ⟨(h.emitter s).addLabel s.emitter hs, fun _ _ _ => trivial⟩

theorem Steady.recordPosition (source : Nat) : Preserves I (recordPosition source) :=
  .modify fun _ hs => h.same _ _ _ _ _ hs

theorem Steady.setTest (test : Option Opcode) :
    Preserves I (modify fun s => { s with pendingTest := test }) :=
  .modify fun _ hs => h.same _ _ _ _ _ hs

/-- Only functions without vectors are begun. -/
theorem Steady.startFunction (ctx : Context) :
    Preserves I (startFunction ctx) fun _ => ∀ ty ∈ ctx.locals.toList, ty ≠ .v128 := by
  unfold Lowering.startFunction
  refine .when (fun _ => .throw _) ?_
  refine .bind (.forM fun _ _ => requireScalar_preserves _ _) fun _ _ => ?_
  have hmodify (locals : Array ValueType) :
      Preserves I (emitting fun e => { e with numLocals := locals.size }) :=
    .modify fun _ hs => h.same _ _ _ _ _ hs
  refine .bind ?_ fun _ hlocals => (hmodify ctx.locals).mono fun _ _ => hlocals
  rcases ctx.locals with ⟨locals⟩
  rw [Array.forM_eq_forM, forM_toArray]
  exact .forM fun _ _ => requireScalar_preserves _ _

variable {data : ControlData}

/-- A construct is opened. -/
theorem Steady.pushControl (hdata : data.Keeps L J) : Preserves I (pushControl data) :=
  .modify fun s hs => h.control s _ hs fun d hd => (mem_cons.1 hd).elim (fun heq => heq ▸ hdata)
    (h.keeps s hs d)

omit h in
theorem keeps_new (label : Label) : ({ label } : ControlData).Keeps L J :=
    ⟨by rintro _ ⟨⟩, by rintro _ ⟨⟩⟩

theorem Steady.ret (ctx : Context) : Preserves I (ret ctx) := by
  have hend : Preserves I (Lowering.emit .leaveFrame >>= fun _ => Lowering.emit .ret) :=
    h.emits <| h.emit _
  unfold Lowering.ret
  split
  · exact peekSlot_preserves.next fun _ => .next (emitting_preserves fun s he =>
      Emitter.loadSlot_of (h.emitter s).toSpillable he _ _) fun _ => hend
  · exact hend

theorem Steady.popData : Preserves I popData (ControlData.Keeps L J) := by
  intro s hs
  refine .get_bind ?_
  split
  next data rest hcontrol =>
    have hkeeps := h.keeps s hs
    rw [hcontrol] at hkeeps
    exact .bind (Q := fun _ _ => True) (.of_modify (h.control s rest hs fun d hd =>
      hkeeps d (mem_cons_of_mem _ hd)) trivial) fun _ s' hs' _ =>
        Preserves.pure (Q := ControlData.Keeps L J) (hkeeps data mem_cons_self) s' hs'
  next => exact Preserves.throw _ s hs

theorem Steady.block (b : Control) : Preserves I (block b) :=
  (requireScalarBlock_preserves b).next fun _ => h.newLabel.next fun _ =>
    h.pushControl (keeps_new _)

theorem Steady.maskIndex (index size mask : Reg) : Preserves I (maskIndex index size mask) :=
  h.emits <| h.emits <| h.emits <| h.emits <| h.emit _

theorem Steady.popSlot : Preserves I popSlot :=
  liftEmit_preserves (fun s => Emitter.popSlot_preserves (h.emitter s))

theorem Steady.popToReg (pinned : RegSet := .empty) : Preserves I (popToReg pinned) :=
  liftEmit_preserves (fun s => Emitter.popToReg_preserves (h.emitter s) pinned)

theorem Steady.popToModifiableReg (pinned : RegSet := .empty) :
    Preserves I (popToModifiableReg pinned) :=
  liftEmit_preserves (fun s => Emitter.popToModifiableReg_preserves (h.emitter s) pinned)

theorem Steady.unusedReg (c : RegClass) (pinned : RegSet := .empty) :
    Preserves I (unusedReg c pinned) :=
  (liftEmit_preserves (fun s => Emitter.unusedReg_preserves (h.emitter s).toSpillable c pinned)).any

theorem Steady.unusedRegFrom (c : RegClass) (candidates : RegSet) (pinned : RegSet := .empty) :
    Preserves I (unusedRegFrom c candidates pinned) :=
  liftEmit_preserves (fun s =>
    Emitter.unusedRegFrom_preserves (h.emitter s).toSpillable c candidates pinned)

section

variable {ty : ValueType} (hty : fits .stack ty)
include hty

theorem Steady.pushReg (r : Reg) : Preserves I (pushReg ty r) :=
  liftEmit_preserves (fun s => Emitter.pushReg_preserves (h.emitter s) hty r)

/-- An instruction leaves its result in a register. -/
theorem Steady.emit_pushReg (i : Instr Label) (r : Reg) :
    Preserves I (Lowering.emit i >>= fun _ => Lowering.pushReg ty r) :=
  h.emits (h.pushReg hty r)

theorem Steady.pushConst (value : Int32) : Preserves I (pushAt ty (.const value)) :=
  emitting_preserves fun s he => (h.emitter s).push _ _ _ he ((h.emitter s).const _ _ hty)

end

theorem Steady.recordEntry {view : RegisterView} (hn : notes view) (pc : Nat) :
    Preserves I (recordEntry pc view) := by
  intro s hs
  refine .get_bind ?_
  split
  next => exact Preserves.done s hs
  next record hsome =>
    exact .bind (.of_modify (Q := fun _ _ => True) (h.entry _ _ _ _ hn hs hsome) trivial)
      fun _ s' hs' _ => Preserves.done s' hs'

theorem Steady.addTrap (stub : RuntimeStub) (position : Nat) {trappingPc : Option Nat}
    (ht : traps trappingPc) : Preserves I (addTrap stub position trappingPc) :=
  h.newLabel.next fun _ => (h.recordEntry (h.noted _ ht) _).next fun _ => .bind .get fun _ _ =>
    .next (.modify fun _ hs => h.path _ _ ht hs) fun _ => .done

theorem Steady.stackCheck (ht : traps none) (position : Nat) : Preserves I (stackCheck position) :=
  .bind .get fun _ _ => .ite (fun _ => .done) fun _ => h.newLabel.next fun _ =>
    h.newLabel.next fun _ =>
    (h.recordEntry (h.noted _ ht) _).next fun _ =>
      .next (.modify fun _ hs => h.path _ _ ht hs) fun _ => h.emits <| h.emits <| h.bindLabel _

theorem Steady.breakpoint (hn : notes .allowRegs) (position : Nat) :
    Preserves I (breakpoint position) :=
  (h.recordPosition _).next fun _ => h.emits <| .bind .get fun _ _ =>
    (h.recordEntry hn _).next fun _ => .done

/-! ### The start of a function -/

theorem Steady.stackParam {ty : ValueType} (hty : fits .stack ty) (index : Nat) :
    Preserves I (stackParam ty index) := by
  refine .bind .get fun s _ => ?_
  split
  · exact h.emit_pushReg hty _ _
  · exact h.emits <| emitting_preserves fun s he =>
      (h.emitter s).emit _ _ ((h.emitter s).push _ _ _ he hty)

section

variable {types : List ValueType} (htypes : ∀ ty ∈ types, fits .stack ty)
include htypes

theorem Steady.params : Preserves I (params types) := by
  refine (Preserves.forM (Q := fun _ => True) ?_).any
  rintro ⟨ty, place⟩ hmem
  have hty := htypes ty (of_mem_zip hmem).1
  cases place with
  | reg r => exact h.pushReg hty r
  | stack index => exact h.stackParam hty index

omit h in
theorem pushLocals_of {E : Emitter → Prop} (h : Emitter.Stable fits J E) {e : Emitter} (he : E e) :
    E (e.modifyState (pushLocals types)) := by
  unfold pushLocals
  generalize decide (types.length ≤ maxConstantLocals) = few
  dsimp only [Emitter.modifyState]
  obtain ⟨state, hstate⟩ : ∃ state, state = e.state := ⟨_, rfl⟩
  rw [← hstate]
  replace he : E { e with state } := hstate ▸ he
  clear hstate
  induction types generalizing state with
  | nil => exact he
  | cons ty types ih =>
    obtain ⟨hty, htypes⟩ := forall_mem_cons.1 htypes
    refine ih htypes _ (h.push _ _ _ he ?_)
    split
    · exact h.const _ _ hty
    · exact hty

theorem Steady.declareLocals : Preserves I (declareLocals types) := by
  refine emitting_preserves fun s he => ?_
  have hpushed := pushLocals_of htypes (h.emitter s) he
  dsimp only
  split
  · exact (h.emitter s).emit _ _ hpushed
  · exact hpushed

end

theorem Steady.traceEntry (position : Nat) : Preserves I (traceEntry position) :=
  (emitting_preserves fun s he => Emitter.spillWhere_of (h.emitter s).toSpillable he _ _).next
    fun _ => (h.recordPosition _).next fun _ => h.emits <| h.emit _

theorem Steady.openFrame {ctx : Context}
    (htypes : ∀ ty ∈ ctx.sig.params ++ ctx.locals.toList, fits .stack ty) :
      Preserves I (openFrame ctx) := by
  obtain ⟨hparams, hlocals⟩ := forall_mem_append.1 htypes
  refine .bind .get fun _ _ => .next (.modify fun _ hs => h.same _ _ _ _ _ hs) fun _ => ?_
  refine h.emits <| h.emits ?_
  exact (h.params hparams).next fun _ => .when (fun _ => .throw _)
    (h.declareLocals fun ty hty => hlocals ty (mem_of_mem_drop hty))

theorem Steady.openBody (ctx : Context) : Preserves I (openBody ctx) := by
  refine .bind .get fun _ _ => .when (fun _ => h.traceEntry _) ?_
  exact h.newLabel.next fun _ => h.pushControl (keeps_new _)

theorem Steady.startBody (ht : traps none) {ctx : Context}
    (htypes : ∀ ty ∈ ctx.sig.params ++ ctx.locals.toList, fits .stack ty) :
      Preserves I (startBody ctx) := by
  rw [startBody_eq]
  exact (h.openFrame htypes).next fun _ => (h.stackCheck ht _).next fun _ => h.openBody ctx

/-! ### Constructs and branches -/

theorem Steady.jumpIfFalse (target : Label) : Preserves I (jumpIfFalse target) := by
  refine .bind .get fun s _ => .next (h.setTest _) fun _ => ?_
  split
  · exact h.popToReg.next fun _ => h.emit _
  · exact h.popToReg.next fun _ => h.emit _
  · split
    · exact .throw _
    refine peekSlot_preserves.next fun top => ?_
    split
    · exact h.popSlot.next fun _ => h.popToReg.next fun _ => h.emit _
    · exact h.popToReg.next fun _ => (h.popToReg _).next fun _ => h.emit _

theorem Steady.openLoop (hloops : loops) (b : Control) : Preserves I (openLoop b) := by
  refine (requireScalarBlock_preserves b).next fun _ => .next (emitting_preserves fun s he => ?_)
    fun _ => h.newLabel.next fun _ => (h.bindLabel _).next fun _ =>
      .bind .get fun s hs => h.pushControl ⟨?_, by rintro _ ⟨⟩⟩
  · have hspill := (h.emitter s).toSpillable
    exact Emitter.unshareRegs_of hspill (Emitter.materializeConstants_of (h.emitter s)
      (Emitter.spillWhere_of hspill he _ _) _)
  · rintro t ⟨⟩
    exact h.header hloops _ hs

theorem Steady.loop (hloops : loops) (ht : traps none) (ctx : Context) (b : Control) :
    Preserves I (loop ctx b) := by
  rw [loop_eq]
  exact (h.openLoop hloops b).next fun _ => h.stackCheck ht _

theorem Steady.ifThen (b : Control) : Preserves I (ifThen b) := by
  refine (requireScalarBlock_preserves b).next fun _ => h.newLabel.next fun _ =>
    (h.jumpIfFalse _).next fun _ => h.newLabel.next fun _ =>
    .bind .get fun s hs => h.pushControl ⟨by rintro _ ⟨⟩, ?_⟩
  rintro arm ⟨⟩
  exact h.keep _ hs

/-- The state of a label is decided where it is first branched to. -/
theorem Steady.labelTarget (depth arity stackDepth : Nat) :
    Preserves I (labelTarget depth arity stackDepth) fun p => L p.2 := by
  intro s hs
  refine .get_bind ?_
  split
  next => exact Preserves.throw _ s hs
  next data hdata =>
    have hmem := mem_of_getElem? hdata
    split
    next state hstate =>
      exact Preserves.pure (Q := fun p : Label × CacheState => L p.2)
        ((h.keeps s hs data hmem).label state hstate) s hs
    next =>
      have hmerge := h.merge _ s.emitter.numLocals arity stackDepth hs
      refine .bind (Q := fun _ _ => True) (.of_modify (h.control s _ hs fun d hd => ?_) trivial)
        fun _ s' hs' _ => Preserves.pure (Q := fun p : Label × CacheState => L p.2) hmerge s' hs'
      rcases mem_or_eq_of_mem_set hd with hd | rfl
      · exact h.keeps s hs d hd
      · refine ⟨?_, (h.keeps s hs data hmem).arm⟩
        rintro t ⟨⟩
        exact hmerge

theorem reopen_preserves : Preserves I (do
    let data ← popData
    match data.elseArm with
    | none => throw (.internal "else without if")
    | some arm =>
      pushControl { data with elseArm := none }
      emitting fun e => (e.bind arm.label).steal arm.state) := by
  refine h.popData.bind fun data hdata => ?_
  split
  next => exact .throw _
  next arm heq =>
    exact .next (h.pushControl ⟨hdata.label, by rintro _ ⟨⟩⟩) fun _ =>
      emitting_preserves fun s he => (h.emitter s).steal _ _ ((h.emitter s).bind _ _ he)
        (hdata.arm arm heq)

theorem Steady.elseArm (b : Control) : Preserves I (elseArm b) := by
  refine .ite (fun _ => (h.labelTarget _ _ _).any.next fun _ => ?_) fun _ => reopen_preserves h
  exact .next (emitting_preserves fun s he => (h.emitter s).emit _ _
    (Emitter.transfer_of (h.emitter s) he _)) fun _ => reopen_preserves h

theorem Steady.fallThru (b : Control) : Preserves I (fallThru b) :=
  .bind .get fun _ _ => (h.labelTarget _ _ _).any.next fun _ => .ite
    (fun _ => emitting_preserves fun s he => Emitter.transfer_of (h.emitter s) he _) fun _ => .done

theorem Steady.finishOneArmedIf_of (he : I (s.mapEmitter fun _ => s.emitter))
    (b : Control) {arm : ElseArm} (hdata : data.Keeps L J) (harm : J arm.state) :
    I (s.mapEmitter fun _ => finishOneArmedIf b data arm s.emitter) := by
  have hstable := h.emitter s
  have hpass := h.pass _ s.emitter.numLocals b.startMerge.arity b.stackDepth harm
  unfold finishOneArmedIf
  dsimp only
  split
  next => exact hstable.steal _ _ (hstable.bind _ _ he) harm
  next target htarget =>
    have hkept : J target := by
      rcases Option.or_eq_some_iff.1 htarget with hsome | ⟨-, hsome⟩
      · exact h.label _ (hdata.label target hsome)
      · split at hsome
        · cases hsome
          exact hpass
        · cases hsome
    refine hstable.steal _ _ (Emitter.transfer_of hstable (hstable.steal _ _
      (hstable.bind _ _ ?_) harm) _) hkept
    split
    · exact hstable.emit _ _ (Emitter.transfer_of hstable he _)
    · exact he

theorem Steady.popControl (b : Control) : Preserves I (popControl b) := by
  refine h.popData.bind fun data hdata => .ite (fun _ => .done) fun _ => ?_
  have hbind : Preserves I
      (emitting fun e => if e.isBound data.label then e else e.bind data.label) :=
    emitting_preserves fun s he => by
      split
      · exact he
      · exact (h.emitter s).bind _ _ he
  refine .ite (fun _ => ?_) fun _ => ?_
  · split
    next => exact .throw _
    next arm heq =>
      exact (emitting_preserves fun s he =>
        h.finishOneArmedIf_of he b hdata (hdata.arm arm heq)).next fun _ => hbind
  · split
    next => exact hbind
    next target heq =>
      refine .next (emitting_preserves fun s he => ?_) fun _ => hbind
      refine (h.emitter s).steal _ _ ?_ (h.label _ (hdata.label target heq))
      split
      · exact Emitter.transfer_of (h.emitter s) he _
      · exact he

section

variable (ctx : Context)

theorem Steady.branch (depth : Nat) : Preserves I (branch ctx depth) :=
  .ite (fun _ => h.ret ctx) fun _ => (h.labelTarget _ _ _).any.next fun _ =>
    emitting_preserves fun s he => (h.emitter s).emit _ _ (Emitter.transfer_of (h.emitter s) he _)

theorem Steady.branchIf (depth : Nat) : Preserves I (branchIf ctx depth) :=
  h.newLabel.next fun _ => (h.jumpIfFalse _).next fun _ =>
    (h.branch ctx depth).next fun _ => h.bindLabel _

theorem Steady.branchCase (cases : CaseLabels) (depth : Nat) :
    Preserves I (branchCase ctx cases depth) := by
  unfold Lowering.branchCase
  split
  · exact h.emits <| .done
  · exact h.newLabel.next fun _ => (h.bindLabel _).next fun _ =>
      (h.branch ctx depth).next fun _ => .done

theorem Steady.searchTable (key : Reg) (first : Nat) (targets : List Nat) (cases : CaseLabels) :
    Preserves I (searchTable ctx key first targets cases) := by
  fun_induction Lowering.searchTable ctx key first targets cases with
  | case1 => exact .done
  | case2 => exact h.branchCase _ _ _
  | case3 first cases a b rest half ih₁ ih₂ =>
    exact h.newLabel.next fun _ => h.emits <| (ih₁).next fun _ =>
      (h.bindLabel _).next fun _ => ih₂ _

theorem Steady.branchTable (table : BranchTable) : Preserves I (branchTable ctx table) :=
  h.popToReg.next fun _ => .ite (fun _ => (h.branchCase _ _ _).next fun _ => .done) fun _ =>
    h.newLabel.next fun _ => h.emits <|
    (h.searchTable _ _ _ _ _).next fun _ => (h.bindLabel _).next fun _ =>
    (h.branchCase _ _ _).next fun _ => .done

end

/-! ### Instructions -/

theorem Steady.constant (value : Constant) : Preserves I (constant value) := by
  have hload {ty : ValueType} (hty : ty ≠ .v128) (c bits) : Preserves I (do
      let r ← Lowering.unusedReg c
      emitting (·.loadBits ty r bits)
      Lowering.pushReg ty r) :=
    (h.unusedReg _).next fun _ => h.emit_pushReg (h.scalar hty) _ _
  cases value with
  | i32 value => exact h.pushConst (h.scalar (by decide)) _
  | i64 value =>
    exact .ite (fun _ => h.pushConst (h.scalar (by decide)) _) fun _ => hload (by decide) .gp _
  | f32 bits => exact hload (by decide) .fp _
  | f64 bits => exact hload (by decide) .fp _
  | v128 => exact .throw _

theorem Steady.refIsNull : Preserves I refIsNull :=
  h.popToReg.next fun _ => (h.unusedRegFrom _ _).next fun _ =>
    h.emit_pushReg (h.scalar (by decide)) _ _

theorem Steady.unary (ctx : Context) {op : UnaryOp} (ht : op.isTrapping = true → traps none)
    {result : ValueType} (hresult : result ≠ .v128) : Preserves I (unary ctx op result) := by
  have hty := h.scalar hresult
  refine (fusesWithBranch_preserves ctx).next fun _ => .ite (fun _ => h.setTest _)
    fun _ => h.popToReg.next fun _ => (h.unusedRegFrom _ _).next fun _ => ?_
  exact .ite (fun htrap => (h.addTrap _ _ (ht htrap)).next fun _ => h.emit_pushReg hty _ _)
    fun _ => h.emit_pushReg hty _ _

theorem Steady.divisorChecks (ht : traps none) (ctx : Context) (op : IntBinary) (ty : ValueType)
    (lhs rhs : Reg) : Preserves I (divisorChecks ctx op ty lhs rhs) :=
  (h.addTrap _ _ ht).next fun _ => h.emits <| .ite (fun _ => (h.addTrap _ _ ht).next fun _ =>
    h.newLabel.next fun _ => h.emits <| h.emits <| h.bindLabel _) fun _ => .done

theorem Steady.division (ht : traps none) (ctx : Context) (w : Width) (op : IntBinary)
    {ty : ValueType} (hty : ty ≠ .v128) : Preserves I (division ctx w op ty) :=
  h.popToReg.next fun _ => (h.popToReg _).next fun _ => (h.unusedReg _ _).next fun _ =>
    (h.divisorChecks ht _ _ _ _ _).next fun _ => h.emit_pushReg (h.scalar hty) _ _

section

variable {result : ValueType} (hresult : result ≠ .v128)
include hresult

theorem binaryFrom_preserves (op : BinaryOp) (imm : Option Int32) :
    Preserves I (match imm with
      | some imm => do
        let _ ← popSlot
        let lhs ← popToReg
        let dst ← unusedRegFrom (.ofType result) (.ofList [lhs])
        emit (.binaryImm (.binary op) dst lhs imm)
        pushReg result dst
      | none => do
        let rhs ← popToReg
        let lhs ← popToReg (.ofList [rhs])
        let dst ← unusedRegFrom (.ofType result) (.ofList [lhs, rhs])
        emit (.binary (.binary op) dst lhs rhs)
        pushReg result dst) := by
  have hty := h.scalar hresult
  split
  · exact h.popSlot.next fun _ => h.popToReg.next fun _ =>
      (h.unusedRegFrom _ _).next fun _ => h.emit_pushReg hty _ _
  · exact h.popToReg.next fun _ => (h.popToReg _).next fun _ =>
      (h.unusedRegFrom _ _).next fun _ => h.emit_pushReg hty _ _

theorem Steady.plainBinary (op : BinaryOp) : Preserves I (plainBinary op result) := by
  exact .ite (fun _ => .next (peekSlot_preserves.next fun _ => .done) fun _ =>
    binaryFrom_preserves h hresult op _)
    fun _ => .next .done fun _ => binaryFrom_preserves h hresult op _

theorem Steady.binary (ctx : Context) {op : BinaryOp}
    (ht : ∀ w intOp, op = .int w intOp → intOp.isDivision = true → traps none)
    {operand : ValueType} (hoperand : operand ≠ .v128) :
      Preserves I (binary ctx op operand result) := by
  unfold Lowering.binary
  split
  · exact (fusesWithBranch_preserves ctx).next fun _ => .ite
      (fun _ => h.setTest _) fun _ => h.plainBinary hresult op
  · split
    · exact .ite (fun hdivides => h.division (ht _ _ rfl hdivides) ctx _ _ hoperand) fun _ =>
        h.plainBinary hresult _
    · exact h.plainBinary hresult op

end

theorem Steady.select {ty : ValueType} (hty : ty ≠ .v128) : Preserves I (select ty) := by
  have hmove (dst src : Reg) : Preserves I (emitting (·.moveReg ty dst src)) :=
    emitting_preserves fun s he => Emitter.moveReg_of (h.emitter s).toSpillable he _ _ _
  exact h.popToReg.next fun _ => (h.popToReg _).next fun _ =>
    (h.popToReg _).next fun _ => (h.unusedRegFrom _ _ _).next fun _ =>
    h.newLabel.next fun _ => h.newLabel.next fun _ => h.emits <|
    (hmove _ _).next fun _ => h.emits <| (h.bindLabel _).next fun _ =>
    (hmove _ _).next fun _ => (h.bindLabel _).next fun _ => h.pushReg (h.scalar hty) _

theorem Steady.localGet (index : Nat) : Preserves I (localGet index) := by
  refine .bind .get fun s hs => ?_
  split
  next => exact .throw _
  next slot hslot =>
    have hty := (h.emitter s).typed s.emitter hs slot (Array.mem_of_getElem? hslot)
    split
    · exact h.pushReg hty _
    · exact h.pushConst hty _
    · exact (h.unusedReg _).next fun _ => h.emit_pushReg hty _ _

/-- While a register is freed for the local, the types of all slots stay. -/
theorem Steady.setLocalFromFrame (index offset : Nat) :
    Preserves I (setLocalFromFrame index offset) := by
  intro s hs
  refine .get_bind ?_
  split
  next => exact Preserves.throw _ s hs
  next slot hslot =>
    refine .get_bind ?_
    dsimp only
    split
    next => exact h.emit _ s hs
    next =>
      let K : Lowering → Prop := fun s' => I s' ∧ s'.emitter.state.types = s.emitter.state.types
      have hspill (s' : Lowering) : Spillable fun e => K (s'.mapEmitter fun _ => e) :=
        ⟨fun e i he => ⟨(h.emitter s').emit e i he.1, he.2⟩,
          fun e i he => ⟨(h.emitter s').stack e i he.1, (CacheState.types_relocate ..).trans he.2⟩,
          fun e r he => ⟨(h.emitter s').recent e r he.1, he.2⟩⟩
      have hreg : Preserves K (Lowering.unusedReg slot.regClass) fun r =>
          r.regClass = slot.regClass :=
        liftEmit_preserves fun s' => Emitter.unusedReg_preserves (hspill s') _ _
      have hfreed := (hspill s).stack s.emitter index ⟨hs, rfl⟩
      refine .bind (Q := fun _ s' => K s') (.of_modify hfreed.1 hfreed) fun _ s₁ _ hs₁ => ?_
      refine .bind ((hreg s₁ hs₁).strengthen fun s' hs' => hs'.1) fun r s₂ _ ⟨hr, hs₂⟩ => ?_
      refine emitting_maintains ((h.emitter s₂).relocate _ index _ ((h.emitter s₂).emit _ _ hs₂.1)
        fun slot' hslot' => (h.emitter s₂).reg _ _ ?_
          ((h.emitter s₂).typed _ hs₂.1 slot' (Array.mem_of_getElem? hslot')))
      have hslot₂ : s₂.emitter.state.slots[index]? = some slot' := hslot'
      have hty := congrArg (·[index]?) hs₂.2
      simp only [CacheState.types, getElem?_map, Array.getElem?_toList, hslot₂, hslot,
        Option.map_some, Option.some.injEq] at hty
      rw [hr, hty]
      rfl

section

variable (index : Nat) (hs : I s)
  (hfits : ∀ source slot, s.emitter.state.peek? 0 = some source → source.loc ≠ .stack →
    s.emitter.state.slots[index]? = some slot → fits source.loc slot.ty)
include hs hfits

/-- The value goes to the local as it is, unless it is in the frame. -/
theorem Steady.localTee_maintains : Maintains I (localTee index) s fun _ _ => True := by
  refine (peekSlot_maintains hs).bind fun source s' hs' ⟨hsame, hsource⟩ => ?_
  subst hsame
  have hgive (loc : Location) (hloc : source.loc = loc) (hne : loc ≠ .stack) :
      Maintains I (emitting (·.modifyState (·.relocate index loc))) s' fun _ _ => True :=
    .of_modify ((h.emitter s').relocate s'.emitter _ _ hs fun slot hslot =>
      hloc ▸ hfits source slot hsource (hloc ▸ hne) hslot) trivial
  split
  next => exact h.setLocalFromFrame index _ s' hs
  next loc hne => exact hgive _ rfl hne

theorem Steady.localSet_maintains : Maintains I (localSet index) s fun _ _ => True :=
  (h.localTee_maintains index hs hfits).bind fun _ s' hs' _ =>
    (h.popSlot.next fun _ => .done) s' hs'

end

/-! ### Globals and memory -/

theorem Steady.globalAddress (global : Global) (pinned : RegSet) :
    Preserves I (globalAddress global pinned) :=
  (h.unusedReg _ _).next fun _ =>
      .ite (fun _ => (pointerSlot_preserves _ _).next fun _ => h.emits <| h.emits <| .done)
    fun _ => h.emits <| .done

theorem Steady.globalGet (ctx : Context) (index : Nat) : Preserves I (globalGet ctx index) :=
  (lookupGlobal_preserves ctx index).bind fun _ hty => (h.globalAddress _ _).next fun _ =>
    (h.unusedRegFrom _ _).next fun _ => h.emit_pushReg (h.scalar hty) _ _

theorem Steady.globalSet (ctx : Context) (index : Nat) : Preserves I (globalSet ctx index) :=
  (lookupGlobal_preserves ctx index).any.next fun _ => h.popToReg.next fun _ =>
    (h.globalAddress _ _).next fun _ => h.emit _

section

variable (ht : traps none)
include ht

theorem Steady.boundsCheck (ctx : Context) (index : Reg) (lastByte : Nat) (pinned : RegSet) :
    Preserves I (boundsCheck ctx index lastByte pinned) := by
  have hend (limit size : Reg) (trap : Label) : Preserves I (do
      Lowering.emit (.binary (.binary (.int .w64 .sub)) limit size limit)
      Lowering.emit (.condJump .aboveEqual .i64 index (some limit) trap)
      if (← get).options.indexMasking then
        Lowering.emit (.loadInstanceField size .memoryMask)
        Lowering.emit (.binary (.binary (.int .w64 .and)) index index size)) :=
    h.emits <| h.emits <| .bind .get fun _ _ =>
      .ite (fun _ => h.emits <| h.emit _) fun _ => .done
  refine (h.addTrap _ _ ht).next fun _ => (h.unusedReg _ _).next fun _ =>
    (h.unusedReg _ _).next fun _ => h.emits <|
    h.emits <| .ite (fun _ => ?_) fun _ => hend _ _ _
  exact h.emits <| hend _ _ _

/-- Only an access that is inside the smallest memory does without an index. -/
theorem Steady.memoryAddress? (ctx : Context) (size offset : Nat) (pinned : RegSet) :
    Preserves I (memoryAddress? ctx size offset pinned) fun found => ∀ a, found = some a →
      a.index = none → a.offset + size ≤ ctx.module.minMemorySize := by
  have hcheck (index : Reg) : Preserves I (do
      Lowering.boundsCheck ctx index (offset + size - 1) pinned
      return some (⟨some index, offset⟩ : Address)) fun found => ∀ a, found = some a →
        a.index = none → a.offset + size ≤ ctx.module.minMemorySize :=
    (h.boundsCheck ht ctx _ _ _).next fun _ => .pure (by rintro _ ⟨⟩ ⟨⟩)
  refine .bind .get fun s _ => peekSlot_preserves.next fun top => ?_
  refine .ite (fun hinside => h.popSlot.next fun _ => .pure ?_) fun _ => ?_
  · rintro _ ⟨⟩ -
    exact of_decide_eq_true (Bool.and_eq_true_iff.1 (Bool.and_eq_true_iff.1 hinside).1).2
  refine .ite (fun _ => h.popSlot.next fun _ => (h.addTrap _ _ ht).next fun _ =>
    h.emits <| .pure (by rintro _ ⟨⟩)) fun _ => ?_
  refine .ite (fun _ => (h.popToReg _).next fun _ => .pure (by rintro _ ⟨⟩ ⟨⟩)) fun _ => ?_
  exact .ite (fun _ => (h.popToModifiableReg _).next fun _ => hcheck _)
    fun _ => (h.popToReg _).next fun _ => hcheck _

variable (hp : ∀ pc, traps (some pc))
include hp

omit ht in
theorem Steady.protectAccess (ctx : Context) (a : Address) (pc : Nat) :
    Preserves I (protectAccess ctx a pc) :=
  .bind .get fun _ _ => .ite (fun _ => (h.addTrap _ _ (hp _)).next fun _ => .done) fun _ => .done

omit hp in
theorem Steady.openAccess (ctx : Context) (e : Event) :
    Preserves I (openAccess ctx e) fun found => ∀ a, found = some a → a.valueType ≠ .v128 ∧
      (a.address.index = none → a.address.offset + a.size ≤ ctx.module.minMemorySize) := by
  cases e with
  | load ty arg =>
    refine (requireScalar_preserves _ _).bind fun _ hty =>
      (h.memoryAddress? ht _ _ _ _).bind fun a ha => ?_
    split
    · exact .pure (by rintro _ ⟨⟩)
    · refine (h.unusedReg _ _).next fun _ => h.emits <| (h.unusedRegFrom _ _).next fun _ =>
        .pure ?_
      rintro _ ⟨⟩
      exact ⟨hty, ha _ rfl⟩
  | store ty arg =>
    refine (requireScalar_preserves _ _).bind fun _ hty => h.popToReg.next fun _ =>
      (h.memoryAddress? ht _ _ _ _).bind fun a ha => ?_
    split
    · exact .pure (by rintro _ ⟨⟩)
    · refine (h.unusedReg _ _).next fun _ => h.emits <| .pure ?_
      rintro _ ⟨⟩
      exact ⟨hty, ha _ rfl⟩
  | _ => exact .pure (by rintro _ ⟨⟩)

omit ht hp in
theorem Steady.yieldAccess {a : Access} (hty : fits .stack a.valueType) :
    Preserves I (yieldAccess a) := by
  cases a with
  | load => exact (h.pushReg hty _).next fun _ => .done
  | store => exact .done

omit ht in
theorem Steady.closeAccess (ctx : Context) {found : Option Access}
    (htypes : ∀ a, found = some a → a.valueType ≠ .v128) : Preserves I (closeAccess ctx found) := by
  cases found with
  | none => exact .done
  | some a =>
    exact .bind .get fun _ _ => h.emits <| (h.protectAccess hp _ _ _).next fun _ =>
      h.yieldAccess (h.scalar (htypes a rfl))

end

theorem Steady.memorySize : Preserves I memorySize :=
  (h.unusedReg _).next fun _ => h.emits <| h.emit_pushReg (h.scalar (by decide)) _ _

/-! ### Calls -/

section

variable (hn : notes .didSpill)
include hn

/-- The call itself, when its arguments are in place. -/
theorem Steady.finishCall (position : Nat) (call : Instr Label) {result : Option ValueType}
    (hresult : ∀ ty ∈ result, ty ≠ .v128) : Preserves I (do
      Lowering.recordPosition position
      Lowering.emit call
      let _ ← Lowering.recordEntry (← get).emitter.pc .didSpill
      liftEmit (Emitter.finishCall result)) :=
  (h.recordPosition _).next fun _ => h.emits <|
    .bind .get fun _ _ => (h.recordEntry hn _).next fun _ =>
    liftEmit_preserves fun s => Emitter.finishCall_preserves (h.emitter s) fun ty hty =>
      h.scalar (hresult ty hty)

omit hn in
theorem Steady.prepareCall (params : List ValueType) :
    Preserves I (liftEmit (Emitter.prepareCall params)) :=
  liftEmit_preserves fun s => Emitter.prepareCall_preserves (h.emitter s) params

theorem Steady.emitCall (ctx : Context) {sig : Signature}
    (hsig : ∀ ty ∈ sig.params ++ sig.results, ty ≠ .v128) (call : Instr Label) :
      Preserves I (emitCall ctx sig call) :=
  (h.prepareCall _).next fun _ => h.finishCall hn _ _ fun ty hty =>
    hsig ty (mem_append_right _ (mem_of_mem_head? hty))

theorem Steady.call (ctx : Context) (function : Nat)
    (sig : Signature) : Preserves I (call ctx function sig) :=
  (requireCallable_preserves sig).bind fun _ hsig => .ite
    (fun _ => (pointerSlot_preserves _ _).next fun _ => h.emits <| h.emits <|
      h.emits <| (h.emit _).next fun _ => h.emitCall hn _ hsig _)
    fun _ => h.emitCall hn _ hsig _

omit hn in
theorem Steady.calleeChecks (ht : traps none) (ctx : Context) (sigId : Nat)
    (index table tmp scratch : Reg) :
      Preserves I (calleeChecks ctx sigId index table tmp scratch) := by
  refine (h.addTrap _ _ ht).next fun _ => h.emits <| h.emits <| .bind .get fun _ _ => ?_
  refine .when (fun _ => h.maskIndex _ _ _) ?_
  exact (h.addTrap _ _ ht).next fun _ => h.emits <| h.emits <| h.emits <| h.emits <| h.emit _

theorem Steady.callIndirect (ht : traps none) (ctx : Context) (callee : IndirectCallee)
    (sig : Signature) : Preserves I (callIndirect ctx callee sig) := by
  refine (requireCallable_preserves sig).bind fun _ hsig => ?_
  refine .when (fun _ => .throw _) ?_
  split
  · exact .throw _
  · refine h.popToModifiableReg.next fun _ => (h.unusedReg _ _).next fun _ =>
      (h.unusedReg _ _).next fun _ => (h.unusedReg _ _).next fun _ => ?_
    exact (h.calleeChecks ht _ _ _ _ _ _).next fun _ => h.emits <| h.emits <| h.emits <|
      h.emits <| h.emits <| h.emitCall hn _ hsig _

theorem Steady.callStub (ctx : Context) (stub : RuntimeStub)
    (params : List ValueType) (immediate : Option UInt64) {result : Option ValueType}
    (hresult : ∀ ty ∈ result, ty ≠ .v128) :
      Preserves I (callStub ctx stub params immediate result) := by
  refine (h.prepareCall _).next fun _ => ?_
  split
  · exact h.finishCall hn _ _ hresult
  · split
    · exact .throw _
    · exact h.emits <| h.finishCall hn _ _ hresult

theorem Steady.bulkOperation (ctx : Context) (stub : RuntimeStub)
    (operands : Nat) (immediate : Option UInt64) :
    Preserves I (bulkOperation ctx stub operands immediate) := by
  refine .bind .get fun _ _ => ?_
  refine .when (fun _ => .throw _) (.when (fun _ => .throw _) ?_)
  exact h.callStub hn _ _ _ _ (by rintro _ ⟨⟩)

end

/-! ### Events -/

/-- Every event keeps what is known. Some need more: slow paths and entries are made, the header of
a loop is kept as it is, and what is given to a local or a new slot has to fit there. -/
theorem Steady.handle (ctx : Context) (event : Event) (hs : I s)
    (hloop : ∀ b, event = .loop b → loops) (hend : event = .finishFunction → ends)
    (ht : event.makesPaths = true → traps none) (hp : event.isAccess = true → ∀ pc, traps (some pc))
    (hn : ∀ view, event.view? = some view → notes view)
    (hfits : ∀ index source slot, event.assigned? = some index →
      s.emitter.state.peek? 0 = some source →
      source.loc ≠ .stack → s.emitter.state.slots[index]? = some slot → fits source.loc slot.ty)
    (hgiven : ∀ ty ∈ event.givenTypes ctx, fits .stack ty) :
    Maintains I (handle ctx event) s fun _ _ => True := by
  have hlower {event : Event} (hl : Preserves I (lower ctx event)) :
      Maintains I (lower ctx event >>= fun _ => pure Reply.proceed) s fun _ _ => True :=
    (hl.next fun _ => .done) s hs
  cases event with
  | localSet value index =>
    exact (h.localSet_maintains index hs fun _ _ => hfits index _ _ rfl).bind fun _ s' hs' _ =>
      Preserves.done s' hs'
  | localTee value result index =>
    exact (h.localTee_maintains index hs fun _ _ => hfits index _ _ rfl).bind fun _ s' hs' _ =>
      Preserves.done s' hs'
  | loop b => exact hlower (h.loop (hloop b rfl) (ht rfl) ctx b)
  | load ty arg =>
    rw [handle_access ctx rfl]
    exact (h.openAccess (ht rfl) ctx _).bind (fun _ ha =>
      h.closeAccess (hp rfl) ctx fun a hsome => (ha a hsome).1) s hs
  | store ty arg =>
    rw [handle_access ctx rfl]
    exact (h.openAccess (ht rfl) ctx _).bind (fun _ ha =>
      h.closeAccess (hp rfl) ctx fun a hsome => (ha a hsome).1) s hs
  | startFunction => exact hlower (h.startFunction ctx).any
  | startBody => exact hlower (h.startBody (ht rfl) hgiven)
  | finishFunction => exact hlower (h.finish (hend rfl))
  | nextInstruction =>
    exact hlower (.bind .get fun _ _ => .ite (fun _ => h.breakpoint (hn _ rfl) _) fun _ => .done)
  | block b => exact hlower (h.block b)
  | ifThen _ b => exact hlower (h.ifThen b)
  | fallThru b => exact hlower (h.fallThru b)
  | popControl b => exact hlower (h.popControl b)
  | endControl => exact hlower .done
  | elseArm b => exact hlower (h.elseArm b)
  | br depth => exact hlower (h.branch ctx depth)
  | brIf _ depth => exact hlower (h.branchIf ctx depth)
  | brTable table => exact hlower (h.branchTable ctx table)
  | ret => exact hlower (h.ret ctx)
  | unreachable => exact hlower ((h.addTrap _ _ (ht rfl)).next fun _ => h.emit _)
  | unary op value result =>
    exact hlower ((requireScalar_preserves _ _).any.next fun _ => (requireScalar_preserves _ _).bind
      fun _ => h.unary _ (fun _ => ht rfl))
  | binary op lhs rhs result =>
    exact hlower ((requireScalar_preserves _ _).bind fun _ hoperand =>
      (requireScalar_preserves _ _).bind fun _ hresult =>
        h.binary hresult _ (fun _ _ _ _ => ht rfl) hoperand)
  | const value => exact hlower (h.constant value)
  | refNull ty => exact hlower (h.pushConst (hgiven ty mem_cons_self) _)
  | refIsNull => exact hlower h.refIsNull
  | drop => exact hlower (h.popSlot.next fun _ => .done)
  | select c a b result =>
    exact hlower ((requireScalar_preserves _ _).bind fun _ => h.select)
  | localGet _ index => exact hlower (h.localGet index)
  | globalGet _ index => exact hlower (h.globalGet ctx index)
  | globalSet _ index => exact hlower (h.globalSet ctx index)
  | memorySize => exact hlower h.memorySize
  | memoryGrow =>
    exact hlower (h.callStub (hn _ rfl) ctx .memoryGrow [.i32] none (by rintro _ ⟨⟩ ⟨⟩))
  | memoryInit | dataDrop | memoryCopy | memoryFill | tableInit | elemDrop | tableCopy =>
    exact hlower (h.bulkOperation (hn _ rfl) _ _ _ _)
  | call function sig => exact hlower (h.call (hn _ rfl) ctx function sig)
  | callIndirect _ callee sig => exact hlower (h.callIndirect (hn _ rfl) (ht rfl) ctx callee sig)
  | _ => exact hlower (.throw _)

end Steady

/-! ## Properties of cache states -/

variable {C : CacheState → Prop}

/-- What is known of the current state and of those that are kept. -/
structure Holds (C L J : CacheState → Prop) (s : Lowering) : Prop where
  state : C s.emitter.state
  labels : ∀ d ∈ s.control, ∀ t, d.labelState = some t → L t
  arms : ∀ d ∈ s.control, ∀ arm, d.elseArm = some arm → J arm.state

theorem Holds.mapEmitter {e e' : Emitter} (hs : (s.mapEmitter fun _ => e).Holds C L J)
    (h : C e'.state) : (s.mapEmitter fun _ => e').Holds C L J := ⟨h, hs.labels, hs.arms⟩

theorem state_generateAll (paths : List OutOfLine) (a : Assembly) :
    (paths.foldl (fun a path => path.generate a) a).emitter.state = a.emitter.state := by
  induction paths generalizing a with
  | nil => rfl
  | cons path paths ih =>
    rw [foldl_cons, ih, OutOfLine.emitter_generate]

end Lowering

open Lowering in
theorem Stable.steady {fits : Location → ValueType → Prop} {C L J : CacheState → Prop}
    {loops : Prop} (h : Stable fits C L J loops) :
    Steady fits L J (fun _ => True) (fun _ => True) loops True (Holds C L J) where
  emitter s :=
    { emit := fun _ _ hs => hs.mapEmitter hs.state
      stack := fun _ _ hs => hs.mapEmitter (h.relocate _ _ _ hs.state fun slot hslot =>
        h.typed _ hs.state slot (Array.mem_of_getElem? hslot))
      recent := fun _ _ hs => hs.mapEmitter (h.recent _ _ hs.state)
      frame := h.stack
      const := h.const
      reg := h.reg
      typed := fun _ hs => h.typed _ hs.state
      push := fun _ _ _ hs hloc => hs.mapEmitter (h.push _ _ _ hs.state hloc)
      pop := fun _ _ _ hs hpop => hs.mapEmitter (h.pop _ _ _ hs.state hpop)
      relocate := fun _ _ _ hs hloc => hs.mapEmitter (h.relocate _ _ _ hs.state hloc)
      record := fun _ _ hs => hs.mapEmitter (h.record _ _ hs.state)
      steal := fun _ _ hs ht => hs.mapEmitter (h.steal _ _ hs.state ht)
      addLabel := fun _ hs => hs.mapEmitter hs.state
      bind := fun _ _ hs => hs.mapEmitter hs.state }
  same _ _ _ _ _ hs := ⟨hs.state, hs.labels, hs.arms⟩
  control _ _ hs hkeeps :=
    ⟨hs.state, fun d hd => (hkeeps d hd).label, fun d hd => (hkeeps d hd).arm⟩
  keeps _ hs d hd := ⟨hs.labels d hd, hs.arms d hd⟩
  keep _ hs := h.keep _ hs.state
  header hloops _ hs := h.header hloops _ hs.state
  merge _ _ _ _ hs := h.merge _ _ _ _ hs.state
  pass := h.pass
  label := h.label
  noted _ _ := trivial
  entry _ _ _ _ _ hs _ := ⟨hs.state, hs.labels, hs.arms⟩
  path _ _ _ hs := ⟨hs.state, hs.labels, hs.arms⟩
  finish _ := by
    refine .next (.modify fun s hs => ?_) fun _ => .bind .get fun _ _ =>
      .next (emitting_preserves fun _ hs => hs.mapEmitter hs.state) fun _ => .bind .get fun _ _ =>
      .ite (fun _ => .throw _) fun _ => .done
    rw [← Array.foldl_toList]
    exact ⟨(state_generateAll _ _).symm ▸ hs.state, hs.labels, hs.arms⟩

namespace Lowering

section

variable {fits : Location → ValueType → Prop} {C L J : CacheState → Prop}

theorem Blank.holds {s : Lowering} (h : s.Blank) (hstart : C {}) : s.Holds C L J := by
  refine ⟨h.state ▸ hstart, ?_, ?_⟩ <;> rw [h.control] <;> exact forall_mem_nil _

variable (h : Stable fits C L J True) (hloc : ∀ loc ty, fits .stack ty → fits loc ty)
include h hloc

/-- If it does not matter where values are, every event keeps what is known. -/
theorem handle_preserves (ctx : Context) {e : Event}
    (hgiven : ∀ ty ∈ e.givenTypes ctx, fits .stack ty) :
      Preserves (Holds C L J) (handle ctx e) :=
  fun _ hs => h.steady.handle ctx e hs (fun _ _ => trivial) (fun _ => trivial) (fun _ => trivial)
    (fun _ _ => trivial) (fun _ _ => trivial) (fun _ _ slot _ _ _ hslot =>
      hloc _ _ (h.typed _ hs.state slot (Array.mem_of_getElem? hslot))) hgiven

/-- What is known at the start is known along all calls. -/
theorem holds_of_leads (hstart : C {}) {options : CompileOptions} {calls : List (Call Lowering)}
    {s : Lowering} (hleads : Backend.compiler.Leads (.start options) calls s)
    (hgiven : ∀ c ∈ calls, ∀ ty ∈ c.event.givenTypes c.context, fits .stack ty) :
      s.Holds C L J := by
  induction hleads with
  | nil => exact (blank_start options).holds hstart
  | snoc ctx e _ ih =>
    obtain ⟨hearlier, hlast⟩ := forall_mem_append.1 hgiven
    exact (handle_preserves h hloc ctx (hlast _ mem_cons_self) _ (ih hearlier)).always

end

end Lowering

/-! ## Slow paths that are made -/

namespace Lowering

variable {α β : Type} {k : α → LowerM β}

theorem run_bind_ok {m : LowerM α} {s s' : Lowering} {y : β}
    (h : (m >>= k).run.run s = (.ok y, s')) :
    ∃ x s₁, m.run.run s = (.ok x, s₁) ∧ (k x).run.run s₁ = (.ok y, s') := by
  rw [Settles.run_run_bind] at h
  rcases hrun : m.run.run s with ⟨b | x, s₁⟩ <;> rw [hrun] at h
  · cases h
  · exact ⟨x, s₁, rfl, h⟩

/-- The slow path was made in the state that the first one has, with an entry for a debugger. -/
structure Made (s s' : Lowering) (o : OutOfLine) : Prop where
  paths : s'.outOfLine = s.outOfLine.push o
  record : s'.work.sideRecord =
    s.work.sideRecord.map fun r => (r.add 0 s.emitter.state .assumeSpilled).2
  entry : o.entry = s.work.sideRecord.map (·.entries.size)
  saved : o.saved = s.savedRegs
  pushed : s.work.sideRecord.isSome = true → o.pushed.isEmpty = true

theorem addTrap_run (stub : RuntimeStub) (position : Nat) (trappingPc : Option Nat) (s : Lowering) :
    ∃ o l s', (addTrap stub position trappingPc).run.run s = (.ok l, s') ∧ s'.options = s.options ∧
      s'.work.protections = s.work.protections ∧ s'.emitter = s.emitter.addLabel ∧ s.Made s' o ∧
      o.stub = stub ∧ o.position = position ∧ o.trappingPc = trappingPc := by
  obtain ⟨options, ⟨emitter, positions, protections, _ | record⟩, control, outOfLine, pendingTest,
    frameSetup⟩ := s <;>
    exact ⟨_, _, _, rfl, rfl, rfl, rfl, ⟨rfl, rfl, rfl, rfl, fun _ => rfl⟩, rfl, rfl, rfl⟩

theorem stackCheck_run {s : Lowering} (h : s.options.stackChecks = true) (position : Nat) :
    ∃ o l s', (stackCheck position).run.run s = (.ok (), s') ∧ s'.options = s.options ∧
      s.Made s' o ∧ o.stub = .stackGuard ∧ o.position = position ∧ o.continuation = some l ∧
      s'.emitter = ((s.emitter.addLabel.addLabel.emit
        (.loadInstanceField (.scratch .gp) .stackLimitAddress)).emit
          (.stackCheck (.scratch .gp) o.label)).bind l ∧
      o.pushed = if s.work.sideRecord.isSome then .empty else s.emitter.state.used.insert
        .instanceReg := by
  obtain ⟨options, ⟨emitter, positions, protections, record⟩, control, outOfLine, pendingTest,
    frameSetup⟩ := s
  obtain ⟨⟩ := options
  cases h
  cases record with
  | none =>
    exact ⟨_, _, _, rfl, rfl, ⟨rfl, rfl, rfl, rfl, by rintro ⟨⟩⟩, rfl, rfl, rfl, rfl, rfl⟩
  | some record =>
    exact ⟨_, _, _, rfl, rfl, ⟨rfl, rfl, rfl, rfl, fun _ => rfl⟩, rfl, rfl, rfl, rfl, rfl⟩

end Lowering

/-! ## Runs -/

namespace Backend

variable {σ : Type} {b : Backend σ} {start s : σ} {calls earlier later : List (Call σ)} {c : Call σ}

section

variable (h : b.Leads start calls s) (hcalls : calls = earlier ++ c :: later)
include h hcalls

/-- The calls before one of them lead to its state. -/
theorem Leads.before : b.Leads start earlier c.state := by
  induction h generalizing later with
  | nil => simp at hcalls
  | @snoc calls s ctx e hcalls' ih =>
    rcases eq_nil_or_concat later with rfl | ⟨later', last, rfl⟩
    · obtain ⟨rfl, hlast⟩ := append_inj' hcalls rfl
      cases hlast
      exact hcalls'
    · rw [concat_eq_append, ← cons_append, ← append_assoc] at hcalls
      exact ih (append_inj' hcalls rfl).1

/-- One of the calls and those after it lead from its state to the end. -/
theorem Leads.from : b.Leads c.state (c :: later) s := by
  induction h generalizing later with
  | nil => simp at hcalls
  | @snoc calls s ctx e hcalls' ih =>
    rcases eq_nil_or_concat later with rfl | ⟨later', last, rfl⟩
    · obtain ⟨-, hlast⟩ := append_inj' hcalls rfl
      cases hlast
      exact .snoc ctx e .nil
    · rw [concat_eq_append, ← cons_append, ← append_assoc] at hcalls
      obtain ⟨hinit, hlast⟩ := append_inj' hcalls rfl
      cases hlast
      rw [concat_eq_append, ← cons_append]
      exact .snoc ctx e (ih hinit)

end

end Backend

/-- The calls of compiling a function lead from the start to the end of code generation. -/
theorem leads_compileCalls (module : Module) (sig : Signature) (body : Array UInt8)
    (decoderOptions : DecoderOptions) (options : CompileOptions) :
      Backend.compiler.Leads (.start options) (compileCalls module sig body decoderOptions options)
      (decodeBody .compiler (.start options) module sig body decoderOptions).2 := by
  obtain ⟨calls, hleads, -, hrun⟩ := decodeBody_watched module sig body decoderOptions options
  rw [compileCalls, hrun]
  exact hleads

end OnePass
