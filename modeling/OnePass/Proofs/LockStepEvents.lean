import OnePass.Proofs.Listener
import OnePass.Proofs.LockStep

/-!
Instructions that take operands and leave results, as code generation hears of them. The slots on
top are the operands before, and the results after.
-/
namespace OnePass

open List

/-- What is known of a function whose types are those of the regime. -/
structure Regime.Fits (R : Regime) (module : Module) (sig : Signature) (options : DecoderOptions) :
    Prop where
  admits : Admits R.allows module sig options
  params : ∀ ty ∈ sig.params, R.allows ty
  globals : ∀ g ∈ module.globals, R.allows g.ty
  full : R.typed → options.trusted = false
  /-- Pointers to imports are within reach. -/
  indirect : R.linked → ∀ g ∈ module.globals, g.isIndirect = true →
    g.offset * Lowering.pointerSize < UInt32.size
  imports : R.linked → module.importedFunctions * Lowering.pointerSize ≤ UInt32.size
  canonical : R.linked → module.types.size ≤ module.canonicalIds.size

theorem Regime.Fits.along {R : Regime} {ctx ctx' : Context}
    (h : R.Fits ctx.module ctx.sig ctx.options) (hsame : ctx.SameSetting ctx') :
    R.Fits ctx'.module ctx'.sig ctx'.options := by
  rw [hsame.module, hsame.sig, hsame.options]
  exact h

/-- Indices in immediates stand for what is declared there. -/
def Instruction.Declared (module : Module) (locals : Array ValueType) : Instruction → Prop
  | localGet index ty | localSet index ty | localTee index ty => locals[index]? = some ty
  | globalGet index ty | globalSet index ty => ∃ g, module.globals[index]? = some g ∧ g.ty = ty
  | callIndirect callee sig => module.signature? callee.sigIndex = some sig
  | _ => True

namespace Regime.Agree

variable {R : Regime} {ts locals rest : List ValueType} {ty : ValueType} {index : Nat}

theorem getElem? (h : R.Agree ts (locals ++ rest)) (hindex : locals[index]? = some ty) :
    ∃ t, ts[index]? = some t ∧ (R.typed → t = ty) := by
  have hlt := (List.getElem?_eq_some_iff.1 hindex).1
  have hlt' : index < ts.length := by
    rw [h.length, length_append]
    omega
  refine ⟨ts[index], getElem?_eq_getElem hlt', fun ht => ?_⟩
  have hts := h.same ht
  subst hts
  rw [getElem_append_left hlt]
  exact (List.getElem?_eq_some_iff.1 hindex).2

end Regime.Agree

namespace Lowering

variable {R : Regime} {ctx : Context} {s s' : Lowering} {is : List (Instr Label)}
  {ts us : List ValueType} {args : List Value} {o o' o'' : ValueType × Nat} {trusted : Bool}

/-- Code runs on, with slots of the given types. -/
structure Goes (R : Regime) (ctx : Context) (us : List ValueType) (s s' : Lowering) : Prop where
  stands : Standing R us s'
  control : s'.control = s.control
  later : s.Later s'
  next : s'.pendingTest ≠ none → ctx.BranchesNext

/-- Code ends here. -/
structure Stops (R : Regime) (s s' : Lowering) : Prop where
  closes : Closes R [] s'
  control : s'.control = s.control
  later : s.Later s'
  test : s'.pendingTest = none

theorem At.goes (h : At R s [] ts s') (htest : s.pendingTest = none) (hagree : R.Agree ts us) :
    Goes R ctx us s s' := by
  have htest' : s'.pendingTest = none := h.test.trans htest
  exact ⟨⟨h.sound, ts, [], by rw [h.types, append_nil], .nil htest', hagree⟩, h.control, h.later,
    fun hne => (hne htest').elim⟩

/-- A test waits, with operands below the last `ps`. -/
theorem At.goes_waiting {test : Opcode} {ps : List ValueType}
    (h : At R { s with pendingTest := some test } [] (ts ++ ps) s')
    (hps : ({ s with pendingTest := some test } : Lowering).Awaits ps)
    (hagree : R.Agree ts us) (hnext : ctx.BranchesNext) : Goes R ctx us s s' :=
  ⟨⟨h.sound, ts, ps, h.types, hps.congr h.test, hagree⟩, h.control, h.later.forget, fun _ => hnext⟩

theorem At.stops (h : At R s [] ts s') (hcloses : Closes R [] s') (htest : s.pendingTest = none) :
    Stops R s s' :=
  ⟨hcloses, h.control, h.later, h.test.trans htest⟩

theorem handle_upholds {e : Event} {post : Reply → Lowering → Prop} (he : e.isAccess = false)
    (h : Upholds R (lower ctx e) s fun _ => post .proceed) : Upholds R (handle ctx e) s post := by
  unfold handle
  split
  · cases he
  · cases he
  · exact .bind h fun _ _ h' => .of_pure h'

theorem discard_upholds {α : Type} {m : LowerM α} {post : Unit → Lowering → Prop}
    (h : Upholds R m s fun _ => post ()) : Upholds R (discard m) s post :=
  show Upholds R (m >>= fun _ => pure ()) s post from .bind h fun _ _ h' => .of_pure h'

/-- Before an instruction in live code, when no test waits. Its operands `args` are on top. -/
structure Presents (R : Regime) (ctx : Context) (rest : List ValueType) (args : List Value)
    (s : Lowering) : Prop where
  fits : R.Fits ctx.module ctx.sig ctx.options
  sound : ∃ is, s.Sound R is []
  test : s.pendingTest = none
  locals : s.emitter.numLocals = ctx.locals.toList.length
  slots : R.Agree s.emitter.state.types (ctx.locals.toList ++ rest ++ args.map Value.ty)
  args : ∀ v ∈ args, R.allows v.ty

namespace Presents

variable {rest : List ValueType} {args : List Value} {x y z : Value}

theorem none (h : Presents R ctx rest [] s) : ∃ ts, At R s [] ts s ∧
    R.Agree ts (ctx.locals.toList ++ rest) ∧ s.emitter.numLocals ≤ ts.length := by
  obtain ⟨is, hsound⟩ := h.sound
  have hslots := h.slots
  rw [map_nil, append_nil] at hslots
  refine ⟨_, .refl hsound rfl, hslots, ?_⟩
  rw [hslots.length, h.locals, length_append]
  exact Nat.le_add_right _ _

theorem many (h : Presents R ctx rest args s) : ∃ ts as, At R s [] (ts ++ as) s ∧
    R.Agree ts (ctx.locals.toList ++ rest) ∧ R.Agree as (args.map Value.ty) ∧
    s.emitter.numLocals ≤ ts.length := by
  obtain ⟨is, hsound⟩ := h.sound
  obtain ⟨ts, as, hts, hrest, hargs⟩ := h.slots.split
  refine ⟨ts, as, .refl hsound hts, hrest, hargs, ?_⟩
  rw [hrest.length, h.locals, length_append]
  exact Nat.le_add_right _ _

theorem one (h : Presents R ctx rest [x] s) : ∃ ts a, At R s [] (ts ++ [a]) s ∧
    R.Agree ts (ctx.locals.toList ++ rest) ∧ (R.typed → a = x.ty) ∧
      s.emitter.numLocals ≤ ts.length := by
  obtain ⟨ts, as, h, hrest, hargs, hlocals⟩ := h.many
  obtain ⟨a, rfl⟩ := length_eq_one_iff.1 hargs.length
  exact ⟨ts, a, h, hrest, fun ht => by simpa using hargs.same ht, hlocals⟩

theorem two (h : Presents R ctx rest [x, y] s) : ∃ ts a b, At R s [] (ts ++ [a] ++ [b]) s ∧
    R.Agree ts (ctx.locals.toList ++ rest) ∧ (R.typed → a = x.ty) ∧ (R.typed → b = y.ty) ∧
    s.emitter.numLocals ≤ ts.length := by
  obtain ⟨ts, as, h, hrest, hargs, hlocals⟩ := h.many
  obtain ⟨a, b, rfl⟩ := length_eq_two.1 hargs.length
  refine ⟨ts, a, b, by simpa using h, hrest, fun ht => ?_, fun ht => ?_, hlocals⟩
  · have hsame := hargs.same ht
    simp only [map_cons, map_nil, List.cons.injEq] at hsame
    exact hsame.1
  · have hsame := hargs.same ht
    simp only [map_cons, map_nil, List.cons.injEq] at hsame
    exact hsame.2.1

theorem three (h : Presents R ctx rest [x, y, z] s) :
    ∃ ts a b c, At R s [] (ts ++ [a] ++ [b] ++ [c]) s ∧
      R.Agree ts (ctx.locals.toList ++ rest) := by
  obtain ⟨ts, as, h, hrest, hargs, -⟩ := h.many
  obtain ⟨a, b, c, rfl⟩ := length_eq_three.1 hargs.length
  exact ⟨ts, a, b, c, by simpa using h, hrest⟩

end Presents

/-- What code generation makes of an instruction that leaves the results `gives`, or nothing if it
`exits`. -/
def Outcome (R : Regime) (ctx : Context) (rest gives : List ValueType) (exits : Bool) (s : Lowering)
    (reply : Reply) (s' : Lowering) : Prop :=
  if reply = .dead ∨ exits = true then Stops R s s'
  else Goes R ctx (ctx.locals.toList ++ rest ++ gives) s s'

section Outcomes

variable {rest gives : List ValueType} {args : List Value} {x y z : Value}
  {index : Nat} {ty : ValueType} {result cond falseValue trueValue : Value}

/-- The instruction leaves its results. -/
theorem outcome_of_at (hgives : R.Agree us gives) (hrest : R.Agree ts (ctx.locals.toList ++ rest))
    (htest : s.pendingTest = none) (h : At R s [] (ts ++ us) s') :
    Outcome R ctx rest gives false s .proceed s' := by
  rw [Outcome, if_neg (by simp)]
  exact h.goes htest (hrest.append hgives)

theorem outcome_of_none (hrest : R.Agree ts (ctx.locals.toList ++ rest))
    (htest : s.pendingTest = none) (h : At R s [] ts s') :
      Outcome R ctx rest [] false s .proceed s' :=
  outcome_of_at (.refl R []) hrest htest (by rwa [append_nil])

theorem unary_outcome {op : UnaryOp} (h : Presents R ctx rest [x] s)
    (hx : R.typed → x.ty = op.input) (hresult : result.ty = op.output) :
    Upholds R (lower ctx (.unary op x result)) s
      fun _ => Outcome R ctx rest [op.output] false s .proceed := by
  obtain ⟨ts, a, hat, hrest, ha, hlocals⟩ := h.one
  refine .bind (requireScalar_upholds _ _) fun _ s₁ ⟨hs, _⟩ => ?_
  subst hs
  refine .bind (requireScalar_upholds _ _) fun _ s₁ ⟨hs, _⟩ => ?_
  subst hs
  rw [hresult]
  refine (unary_upholds hat (R.proper _ op.output_ne_bottom) hlocals op).mono fun _ s' h' => ?_
  rcases h' with h' | ⟨rfl, hnext, h'⟩
  · exact outcome_of_at (.refl R _) hrest h.test h'
  · rw [Outcome, if_neg (by simp)]
    have h' : At R { s₁ with pendingTest := some (.unary (.eqz .w32)) }
        [] (ts ++ [a] ++ []) s' := by
      simpa using h'
    refine h'.goes_waiting (.inl ⟨rfl, rfl⟩) (hrest.append (.single fun ht => ?_)) hnext
    rw [ha ht, hx ht]
    rfl

theorem binary_outcome {op : BinaryOp} (h : Presents R ctx rest [x, y] s)
    (hx : R.typed → x.ty = op.operand) (hresult : result.ty = op.output) :
    Upholds R (lower ctx (.binary op x y result)) s
      fun _ => Outcome R ctx rest [op.output] false s .proceed := by
  obtain ⟨ts, a, b, hat, hrest, ha, -, hlocals⟩ := h.two
  refine .bind (requireScalar_upholds _ _) fun _ s₁ ⟨hs, _⟩ => ?_
  subst hs
  refine .bind (requireScalar_upholds _ _) fun _ s₁ ⟨hs, _⟩ => ?_
  subst hs
  rw [hresult]
  refine (binary_upholds hat (h.args x mem_cons_self) (R.proper _ op.output_ne_bottom) hlocals
    op fun ht w o hop => ?_).mono fun _ s' h' => ?_
  · rw [hx ht, hop]
    exact ⟨rfl, rfl⟩
  rcases h' with ⟨given, hgiven, h'⟩ | ⟨hcond, hnext, h'⟩
  · exact outcome_of_at (.single hgiven) hrest h.test h'
  · rw [Outcome, if_neg (by simp)]
    refine h'.goes_waiting (.inr ⟨hcond, rfl⟩) (hrest.append (.single fun ht => ?_)) hnext
    rw [ha ht, hx ht]
    unfold Cond.ofI32Comparison? at hcond
    split at hcond
    next heq =>
      cases heq
      rfl
    next => cases hcond

theorem select_outcome (h : Presents R ctx rest [x, y, z] s) (hty : R.allows result.ty) :
    Upholds R (lower ctx (.select cond falseValue trueValue result)) s
      fun _ => Outcome R ctx rest [result.ty] false s .proceed := by
  obtain ⟨ts, a, b, c, hat, hrest⟩ := h.three
  refine .bind (requireScalar_upholds _ _) fun _ s₁ ⟨hs, _⟩ => ?_
  subst hs
  exact (select_upholds hat hty).mono fun _ s' h' =>
    outcome_of_at (.refl R _) hrest h.test h'

theorem localGet_outcome (h : Presents R ctx rest [] s) (hlocal : ctx.locals[index]? = some ty) :
    Upholds R (localGet index) s fun _ => Outcome R ctx rest [ty] false s .proceed := by
  obtain ⟨ts, hat, hrest, -⟩ := h.none
  obtain ⟨t, ht, hty⟩ := hrest.getElem? (Array.getElem?_toList.trans hlocal)
  exact (localGet_upholds hat ht).mono fun _ s' h' =>
    outcome_of_at (.single hty) hrest h.test h'

section

variable (h : Presents R ctx rest [x] s)
include h

section

variable (hlocal : ctx.locals[index]? = some ty) (hx : R.typed → x.ty = ty)
include hlocal hx

/-- The slot of a local, with an operand on top. -/
theorem Presents.local : ∃ ts a t, At R s [] (ts ++ [a]) s ∧
      R.Agree ts (ctx.locals.toList ++ rest) ∧ (ts ++ [a])[index]? = some t ∧
      (R.typed → a = t) ∧ (R.typed → a = ty) := by
  obtain ⟨ts, a, hat, hrest, ha, -⟩ := h.one
  obtain ⟨t, ht, hty⟩ := hrest.getElem? (Array.getElem?_toList.trans hlocal)
  have hvalue : R.typed → a = ty := fun htyped => (ha htyped).trans (hx htyped)
  refine ⟨ts, a, t, hat, hrest, ?_, fun htyped => (hvalue htyped).trans (hty htyped).symm, hvalue⟩
  rw [getElem?_append_left (List.getElem?_eq_some_iff.1 ht).1]
  exact ht

theorem localSet_outcome :
    Upholds R (localSet index) s fun _ => Outcome R ctx rest [] false s .proceed := by
  obtain ⟨ts, a, t, hat, hrest, hslot, hsame, -⟩ := h.local hlocal hx
  exact (localSet_upholds hat hslot hsame).mono fun _ s' h' =>
    outcome_of_none hrest h.test h'

theorem localTee_outcome :
    Upholds R (localTee index) s fun _ => Outcome R ctx rest [ty] false s .proceed := by
  obtain ⟨ts, a, t, hat, hrest, hslot, hsame, hvalue⟩ := h.local hlocal hx
  exact (localTee_upholds hat hslot hsame).mono fun _ s' h' =>
    outcome_of_at (.single hvalue) hrest h.test h'

end

end

theorem Presents.global (h : Presents R ctx rest args s)
    (hg : ∃ g, ctx.module.globals[index]? = some g ∧ g.ty = ty) : KnownGlobal R ctx index := by
  obtain ⟨g, hg, -⟩ := hg
  exact ⟨fun _ => by rw [hg]; exact Option.some_ne_none _,
    fun g' hg' => h.fits.globals g' (Array.mem_of_getElem? hg'),
    fun hlinked g' hg' => h.fits.indirect hlinked g' (Array.mem_of_getElem? hg')⟩

theorem globalGet_outcome (h : Presents R ctx rest [] s)
    (hg : ∃ g, ctx.module.globals[index]? = some g ∧ g.ty = ty) :
    Upholds R (globalGet ctx index) s fun _ => Outcome R ctx rest [ty] false s .proceed := by
  obtain ⟨ts, hat, hrest, -⟩ := h.none
  refine (globalGet_upholds hat (h.global hg)).mono fun _ s' ⟨g, hfound, h'⟩ => ?_
  obtain ⟨g', hg', rfl⟩ := hg
  cases hfound.symm.trans hg'
  exact outcome_of_at (.refl R _) hrest h.test h'

variable {sig : Signature}

theorem call_outcome {function : Nat} (h : Presents R ctx rest args s)
    (hlength : args.length = sig.params.length)
    (htypes : ∀ ty ∈ sig.params ++ sig.results, R.allows ty) :
    Upholds R (call ctx function sig) s fun _ =>
      Outcome R ctx rest sig.results false s .proceed := by
  obtain ⟨ts, as, hat, hrest, has, hlocals⟩ := h.many
  have hcount : as.length = sig.params.length := by rw [has.length, length_map, hlength]
  refine (call_upholds hat hcount hlocals ⟨fun ty hty => htypes ty (mem_append_left _ hty),
    fun ty hty => htypes ty (mem_append_right _ hty), fun hlinked himported => ?_⟩).mono
    fun _ s' h' => outcome_of_at (.refl R _) hrest h.test h'
  have hlt : function < ctx.module.importedFunctions := by
    simpa [Module.isImportedFunction] using himported
  calc function * pointerSize < ctx.module.importedFunctions * pointerSize :=
        Nat.mul_lt_mul_of_pos_right hlt (by decide)
    _ ≤ UInt32.size := h.fits.imports hlinked

theorem callIndirect_outcome {callee : IndirectCallee}
    (h : Presents R ctx rest args s) (hlength : args.length = sig.params.length + 1)
    (htypes : ∀ ty ∈ sig.params ++ sig.results, R.allows ty)
    (hsig : ctx.module.signature? callee.sigIndex = some sig) :
    Upholds R (callIndirect ctx callee sig) s fun _ =>
      Outcome R ctx rest sig.results false s .proceed := by
  obtain ⟨ts, as, hat, hrest, has, hlocals⟩ := h.many
  have hcount : as.length = sig.params.length + 1 := by rw [has.length, length_map, hlength]
  obtain rfl | ⟨as, a, rfl⟩ := eq_nil_or_concat' as
  · cases hcount
  rw [← append_assoc] at hat
  refine (callIndirect_upholds hat (by simpa using hcount)
    (fun ty hty => htypes ty (mem_append_left _ hty))
    (fun ty hty => htypes ty (mem_append_right _ hty)) hlocals fun hlinked => ?_).mono
    fun _ s' h' => outcome_of_at (.refl R _) hrest h.test h'
  have hlt := (Array.getElem?_eq_some_iff.1 hsig).1
  rw [Module.canonicalId?,
    Array.getElem?_eq_getElem (Nat.lt_of_lt_of_le hlt (h.fits.canonical hlinked))]
  exact Option.some_ne_none _

theorem load_outcome {type : LoadType} (h : Presents R ctx rest [x] s) (arg : MemArg) :
    Upholds R (load ctx type arg) s (Outcome R ctx rest [type.valueType] false s) := by
  obtain ⟨ts, a, hat, hrest, -, hlocals⟩ := h.one
  refine (load_upholds hat (R.proper _ type.valueType_ne_bottom) hlocals arg).mono
    fun reply s' ⟨hgo, hstop⟩ => ?_
  cases reply with
  | proceed => exact outcome_of_at (.refl R _) hrest h.test (hgo rfl)
  | dead =>
    rw [Outcome, if_pos (.inl rfl)]
    exact (hstop rfl).1.stops (hstop rfl).2 h.test

theorem store_outcome (h : Presents R ctx rest [x, y] s) (type : StoreType) (arg : MemArg) :
    Upholds R (store ctx type arg) s (Outcome R ctx rest [] false s) := by
  obtain ⟨ts, a, b, hat, hrest, -, -, hlocals⟩ := h.two
  refine (store_upholds hat hlocals type arg).mono fun reply s' ⟨hgo, hstop⟩ => ?_
  cases reply with
  | proceed => exact outcome_of_none hrest h.test (hgo rfl)
  | dead =>
    rw [Outcome, if_pos (.inl rfl)]
    exact (hstop rfl).1.stops (hstop rfl).2 h.test

theorem memoryGrow_outcome (h : Presents R ctx rest [x] s) :
    Upholds R (callStub ctx .memoryGrow [.i32] none (some .i32)) s
      fun _ => Outcome R ctx rest [.i32] false s .proceed := by
  obtain ⟨ts, a, hat, hrest, -, hlocals⟩ := h.one
  have hi32 : R.allows .i32 := R.proper _ (by decide)
  have hparams : ∀ ty ∈ [ValueType.i32], R.allows ty := by simpa using hi32
  have hresult : ∀ ty ∈ some ValueType.i32, R.allows ty := by simpa using hi32
  have hcount : [a].length = [ValueType.i32].length := rfl
  have hregs : [ValueType.i32].length < (Reg.params .gp).length := by decide
  have hcall : Upholds R (callStub ctx .memoryGrow [.i32] none (some .i32)) s
      fun _ => At R s [] (ts ++ [.i32]) :=
    callStub_upholds hat hcount hparams hresult hregs hlocals (by decide)
  exact hcall.mono fun _ s' h' => outcome_of_at (.refl R _) hrest h.test h'

/-- Instructions for segments and for many cells at once call a stub. -/
theorem bulk_outcome {stub : RuntimeStub} {operands : Nat} {immediate : Option UInt64}
    (h : Presents R ctx rest args s)
    (hlength : args.length = operands) (hfew : operands ≤ 3) (hstub : stub ≠ .traceEnter) :
    Upholds R (bulkOperation ctx stub operands immediate) s
      fun _ => Outcome R ctx rest [] false s .proceed := by
  obtain ⟨ts, as, hat, hrest, has, hlocals⟩ := h.many
  have hcount : as.length = operands := by rw [has.length, length_map, hlength]
  exact (bulkOperation_upholds hat hcount hfew hlocals hstub _).mono fun _ s' h' =>
    outcome_of_none hrest h.test h'

theorem unreachable_outcome (h : Presents R ctx rest [] s) :
    Upholds R (unreachable ctx) s fun _ => Outcome R ctx rest gives true s .proceed := by
  obtain ⟨ts, hat, -, hlocals⟩ := h.none
  refine .bind (addTrap_upholds hat rfl hlocals _ _) fun trap s₁ ⟨h₁, htrap⟩ => ?_
  refine (emitExit_upholds h₁ rfl (.of_none rfl rfl) fun l hl => ?_).mono fun _ s' ⟨h', hcloses⟩ =>
    ?_
  · cases hl
    exact .inr (mem_targets_of_path htrap)
  · rw [Outcome, if_pos (.inr rfl)]
    exact h'.stops hcloses h.test

end Outcomes

theorem accepts_one (h : Forall₂ (fun o v => Accepts trusted o.1 v) [o] args) :
    ∃ x, args = [x] ∧ Accepts trusted o.1 x := by
  cases h with
  | cons hx h =>
    cases h
    exact ⟨_, rfl, hx⟩

theorem accepts_two (h : Forall₂ (fun o v => Accepts trusted o.1 v) [o, o'] args) :
    ∃ x y, args = [x, y] ∧ Accepts trusted o.1 x ∧ Accepts trusted o'.1 y := by
  cases h with
  | cons hx h =>
    obtain ⟨y, rfl, hy⟩ := accepts_one h
    exact ⟨_, y, rfl, hx, hy⟩

theorem accepts_three (h : Forall₂ (fun o v => Accepts trusted o.1 v) [o, o', o''] args) :
    ∃ x y z, args = [x, y, z] := by
  cases h with
  | cons hx h =>
    obtain ⟨y, z, rfl, -⟩ := accepts_two h
    exact ⟨_, y, z, rfl⟩

/-- What an instruction with a shape does to the slots. -/
theorem handle_shape {i : Instruction} {shape : Shape} {rest : List ValueType}
    (hi : i.shape? = some shape) (hdecl : i.Declared ctx.module ctx.locals)
    (htypes : ∀ ty ∈ i.types, R.allows ty)
    (hargs : Forall₂ (fun o v => Accepts ctx.options.trusted o.1 v) shape.takes args)
    (h : Presents R ctx rest args s) :
    Upholds R (handle ctx (shape.event args (Check.fresh ctx shape.gives))) s
      (Outcome R ctx rest shape.gives shape.exits s) := by
  have hsame : ∀ {expected : ValueType} {v : Value}, v ∈ args → R.allows expected →
      Accepts ctx.options.trusted expected v → R.typed → v.ty = expected :=
    fun hv hexpected haccepts => haccepts.same h.fits.full hexpected (h.args _ hv)
  have hthrow : ∀ {reason : BailoutReason} {text : String} {post : Unit → Lowering → Prop},
      reason ≠ .other → Upholds R (throw ⟨reason, text⟩) s post :=
    fun hreason => .of_throw fun _ _ => hreason
  cases i with
  | unreachable =>
    cases hi
    cases hargs
    exact handle_upholds rfl (unreachable_outcome h)
  | throw | returnCall | returnCallIndirect | tableGet | tableSet | refFunc | tableGrow | tableSize
  | tableFill | extractLane | replaceLane =>
    cases hi
    exact handle_upholds rfl (hthrow (by decide))
  | call function sig =>
    cases hi
    refine handle_upholds rfl (call_outcome h ?_ htypes)
    rw [← hargs.length_eq, length_zipIdx]
  | callIndirect callee sig =>
    cases hi
    refine handle_upholds rfl (callIndirect_outcome h ?_ htypes hdecl)
    rw [← hargs.length_eq, length_append, length_zipIdx]
    rfl
  | drop =>
    cases hi
    obtain ⟨x, rfl, -⟩ := accepts_one hargs
    obtain ⟨ts, a, hat, hrest, -, -⟩ := h.one
    exact handle_upholds rfl (discard_upholds ((popSlot_upholds hat).mono fun _ s' h' =>
      outcome_of_none hrest h.test h'.1))
  | selectTyped ty =>
    cases hi
    obtain ⟨x, y, z, rfl⟩ := accepts_three hargs
    exact handle_upholds rfl (select_outcome h (htypes ty mem_cons_self))
  | localGet index ty =>
    cases hi
    cases hargs
    exact handle_upholds rfl (localGet_outcome h hdecl)
  | localSet index ty =>
    cases hi
    obtain ⟨x, rfl, hx⟩ := accepts_one hargs
    exact handle_upholds rfl
      (localSet_outcome h hdecl (hsame mem_cons_self (htypes ty mem_cons_self) hx))
  | localTee index ty =>
    cases hi
    obtain ⟨x, rfl, hx⟩ := accepts_one hargs
    exact handle_upholds rfl
      (localTee_outcome h hdecl (hsame mem_cons_self (htypes ty mem_cons_self) hx))
  | globalGet index ty =>
    cases hi
    cases hargs
    exact handle_upholds rfl (globalGet_outcome h hdecl)
  | globalSet index ty =>
    cases hi
    obtain ⟨x, rfl, -⟩ := accepts_one hargs
    obtain ⟨ts, a, hat, hrest, -, -⟩ := h.one
    exact handle_upholds rfl ((globalSet_upholds hat (h.global hdecl)).mono fun _ s' h' =>
      outcome_of_none hrest h.test h')
  | load ty arg =>
    cases hi
    obtain ⟨x, rfl, -⟩ := accepts_one hargs
    exact load_outcome h arg
  | store ty arg =>
    cases hi
    obtain ⟨x, y, rfl, -⟩ := accepts_two hargs
    exact store_outcome h ty arg
  | memorySize =>
    cases hi
    cases hargs
    obtain ⟨ts, hat, hrest, -⟩ := h.none
    exact handle_upholds rfl ((memorySize_upholds hat).mono fun _ s' h' =>
      outcome_of_at (.refl R _) hrest h.test h')
  | memoryGrow =>
    cases hi
    obtain ⟨x, rfl, -⟩ := accepts_one hargs
    exact handle_upholds rfl (memoryGrow_outcome h)
  | const value =>
    cases hi
    cases hargs
    obtain ⟨ts, hat, hrest, -⟩ := h.none
    exact handle_upholds rfl ((constant_upholds hat value).mono fun _ s' h' =>
      outcome_of_at (.refl R _) hrest h.test h')
  | unary op =>
    cases hi
    obtain ⟨x, rfl, hx⟩ := accepts_one hargs
    exact handle_upholds rfl
      (unary_outcome h (hsame mem_cons_self (R.proper _ op.input_ne_bottom) hx) rfl)
  | binary op =>
    cases hi
    obtain ⟨x, y, rfl, hx, -⟩ := accepts_two hargs
    exact handle_upholds rfl
      (binary_outcome h (hsame mem_cons_self (R.proper _ op.operand_ne_bottom) hx) rfl)
  | refNull ty =>
    cases hi
    cases hargs
    obtain ⟨ts, hat, hrest, -⟩ := h.none
    exact handle_upholds rfl ((pushAt_upholds hat (htypes ty mem_cons_self) fun _ =>
      Location.suits_const _ _).mono fun _ s' h' => outcome_of_at (.refl R _) hrest h.test h')
  | memoryInit | memoryCopy | memoryFill | tableInit | tableCopy =>
    cases hi
    exact handle_upholds rfl (bulk_outcome h hargs.length_eq.symm (by decide) (by decide))
  | dataDrop | elemDrop =>
    cases hi
    cases hargs
    exact handle_upholds rfl (bulk_outcome h rfl (by decide) (by decide))
  | _ => cases hi

end Lowering

end OnePass
