import OnePass.Proofs.Comparison
import OnePass.Proofs.TableTypes

/-!
What a branch asks of the operands it carries. In reachable code every operand fits every target. In
unreachable code a branch table folds the types of its targets into one list, and where they differ
the list holds `bottom`, which accepts everything: there an operand may fit no target at all.
-/
namespace OnePass

open List

/-- The same state with another stack of operands. -/
def Context.withStack (ctx : Context) (stack : Array Value) : Context := { ctx with stack }

theorem Context.env_withStack (ctx : Context) (stack : Array Value) :
    (ctx.withStack stack).env = ctx.env := rfl

namespace Check

variable {ctx : Context} {types : List ValueType} {α β : Type}

theorem popAny_apply (index : Nat) (ctx : Context) :
    popAny index ctx = (if ctx.stack.size ≤ ctx.current.stackDepth then
      if ctx.current.isUnreachable then return ⟨.bottom, ctx.pc⟩
      else fault (.underflow ctx.opcode (index + 1))
    else
      match ctx.stack.back? with
      | some value => do
        modify fun ctx => { ctx with stack := ctx.stack.pop }
        return value
      | none => fault (.underflow ctx.opcode (index + 1)) : CheckM Value) ctx := rfl

theorem popAny_frame (index : Nat) (ctx : Context) : match Frame.popAny ctx.frame with
    | some (ty, f) => ∃ v stack, popAny index ctx = .ok (v, ctx.withStack stack) ∧ v.ty = ty ∧
        (ctx.withStack stack).frame = f
    | none => ∃ e, popAny index ctx = .error ⟨ctx.pc, e⟩ := by
  rw [popAny_apply]
  by_cases hsize : ctx.stack.size ≤ ctx.current.stackDepth
  · have hops : ctx.frame.operands = [] := by
      simp [Context.frame, Context.operands, Context.available, Nat.sub_eq_zero_of_le hsize]
    rw [if_pos hsize]
    simp only [Frame.popAny, hops]
    cases hunreachable : ctx.current.isUnreachable with
    | true =>
      have hpoly : ctx.frame.polymorphic = true := hunreachable
      rw [if_pos hpoly]
      exact ⟨_, ctx.stack, rfl, rfl, rfl⟩
    | false =>
      have hpoly : ctx.frame.polymorphic = false := hunreachable
      simp only [hpoly]
      exact ⟨_, rfl⟩
  · obtain ⟨stack, value, hstack⟩ : ∃ (stack : Array Value) (value : Value),
        ctx.stack = stack.push value := Array.eq_push_of_size_ne_zero (by omega)
    have htypes : ctx.types = value.ty :: (stack.toList.map Value.ty).reverse := by
      simp [Context.types, hstack]
    have havailable : ctx.available = (stack.size - ctx.current.stackDepth) + 1 := by
      rw [Context.available, hstack, Array.size_push]
      rw [hstack, Array.size_push] at hsize
      omega
    have hops : ctx.frame.operands = value.ty :: (ctx.withStack stack).operands := by
      change ctx.types.take ctx.available = _
      rw [htypes, havailable, take_succ_cons]
      rfl
    rw [if_neg hsize, hstack, Array.back?_push]
    simp only [Frame.popAny, hops]
    refine ⟨value, stack, ?_, rfl, ?_⟩
    · change Except.ok (value, ctx.withStack ctx.stack.pop) = _
      rw [hstack, Array.pop_push]
    · rfl

theorem pop_frame (index : Nat) (ty : ValueType) (ctx : Context) :
    match Frame.pop ctx.env ty ctx.frame with
    | some (_, f) => ∃ v stack, pop index ty ctx = .ok (v, ctx.withStack stack) ∧
        (ctx.withStack stack).frame = f
    | none => ∃ e, pop index ty ctx = .error ⟨ctx.pc, e⟩ := by
  have hpop : pop index ty ctx =
      (popAny index ctx).bind fun p => (operand index ty p.1 p.2).bind fun q => .ok (p.1, q.2) :=
        rfl
  have hany := popAny_frame index ctx
  rw [hpop, Frame.pop, FrameM.bind_apply]
  cases hframe : Frame.popAny ctx.frame with
  | none =>
    rw [hframe] at hany
    obtain ⟨e, he⟩ := hany
    rw [he]
    exact ⟨e, rfl⟩
  | some p =>
    obtain ⟨found, f⟩ := p
    rw [hframe] at hany
    obtain ⟨v, stack, hok, rfl, rfl⟩ := hany
    rw [hok]
    simp only [Option.bind_some, FrameM.guard_apply]
    have hoperand : operand index ty v (ctx.withStack stack) =
        (if ctx.options.trusted || ty == .bottom || v.ty.isSubtypeOf ty then pure ()
        else fault (.operandType ctx.opcode index ty (Opcode.nameAt ctx.reader.bytes v.pc) v.ty)
          : CheckM Unit) (ctx.withStack stack) := rfl
    have haccepts : ctx.env.accepts ty v.ty =
        (ctx.options.trusted || ty == .bottom || v.ty.isSubtypeOf ty) := rfl
    simp only [Except.bind, hoperand, ← haccepts]
    cases ctx.env.accepts ty v.ty with
    | false => exact ⟨_, rfl⟩
    | true => exact ⟨v, stack, rfl, rfl⟩

/-- The operands of the last types are popped first. -/
theorem foldrM_pop_cons (shift start : Nat) (ty : ValueType) (types : List ValueType)
    (ctx : Context) : (((ty :: types).zipIdx start).foldrM
        (fun (ty, i) values => return (← pop (i + shift) ty) :: values) [] : CheckM _) ctx =
      ((types.zipIdx (start + 1)).foldrM
        (fun (ty, i) values => return (← pop (i + shift) ty) :: values) ([] : List Value) ctx).bind
        fun p => (pop (start + shift) ty p.2).bind fun q => .ok (q.1 :: p.1, q.2) := by
  rw [zipIdx_cons, foldrM_cons]
  rfl

/-- Popping several operands does to the innermost construct what the frame step does. -/
theorem popTypes_frame (shift : Nat) (types : List ValueType) (ctx : Context) :
    match Frame.popTypes ctx.env types ctx.frame with
    | some (_, f) => ∃ vs stack, popTypes shift types ctx = .ok (vs, ctx.withStack stack) ∧
        (ctx.withStack stack).frame = f
    | none => ∃ e, popTypes shift types ctx = .error ⟨ctx.pc, e⟩ := by
  unfold popTypes
  generalize 0 = start
  induction types generalizing start with
  | nil => exact ⟨[], ctx.stack, rfl, rfl⟩
  | cons ty types ih =>
    have htail := ih (start + 1)
    have hframe : Frame.popTypes ctx.env (ty :: types) ctx.frame =
        (Frame.popTypes ctx.env types ctx.frame).bind fun p => Frame.pop ctx.env ty p.2 := rfl
    rw [foldrM_pop_cons, hframe]
    cases hrest : Frame.popTypes ctx.env types ctx.frame with
    | none =>
      rw [hrest] at htail
      obtain ⟨e, he⟩ := htail
      rw [he]
      exact ⟨e, rfl⟩
    | some p =>
      rw [hrest] at htail
      obtain ⟨vs, stack, hok, hf⟩ := htail
      have hpop := pop_frame (start + shift) ty (ctx.withStack stack)
      rw [hok]
      simp only [Option.bind_some, Except.bind, ← hf]
      cases hty : Frame.pop ctx.env ty ((ctx.withStack stack).frame) with
      | none =>
        rw [Context.env_withStack, hty] at hpop
        obtain ⟨e, he⟩ := hpop
        rw [he]
        exact ⟨e, rfl⟩
      | some q =>
        rw [Context.env_withStack, hty] at hpop
        obtain ⟨v, stack', hok', hf'⟩ := hpop
        rw [hok']
        exact ⟨v :: vs, stack', rfl, hf'⟩

/-- The check succeeds exactly if the condition holds. -/
def Decides {α : Type} (p : Prop) (m : CheckM α) (ctx : Context) : Prop :=
  (p ∧ ∃ r, m ctx = .ok r) ∨ (¬p ∧ ∃ e, m ctx = .error e)

theorem decides_popTypes (shift : Nat) (types : List ValueType) (ctx : Context) :
    Decides (ctx.frame.takes ctx.env types = true) (popTypes shift types) ctx := by
  have hpop := popTypes_frame shift types ctx
  rw [Frame.popTypes_eq_takes] at hpop
  by_cases htakes : ctx.frame.takes ctx.env types = true
  · rw [if_pos htakes] at hpop
    obtain ⟨vs, stack, hok, -⟩ := hpop
    exact .inl ⟨htakes, _, hok⟩
  · rw [if_neg htakes] at hpop
    obtain ⟨e, he⟩ := hpop
    exact .inr ⟨htakes, _, he⟩

theorem Decides.fault {p : Prop} (hp : ¬p) (e : DecodeFault) (ctx : Context) :
    Decides p (fault e : CheckM α) ctx := .inr ⟨hp, _, rfl⟩

theorem Decides.get_bind {p : Prop} {k : Context → CheckM α}
    (h : Decides p (k ctx) ctx) : Decides p (get >>= k) ctx := h

/-- Go on with a step that always succeeds. -/
theorem Decides.bind {p : Prop} {m : CheckM α} {k : α → CheckM β}
    (h : Decides p m ctx) (hk : ∀ x ctx', ∃ r, k x ctx' = .ok r) : Decides p (m >>= k) ctx := by
  have hbind : (m >>= k) ctx = (m ctx).bind fun r => k r.1 r.2 := rfl
  rw [Decides, hbind]
  obtain ⟨hp, ⟨x, ctx'⟩, hr⟩ | ⟨hp, e, he⟩ := h
  · obtain ⟨r, hk⟩ := hk x ctx'
    exact .inl ⟨hp, r, by rw [hr]; exact hk⟩
  · exact .inr ⟨hp, e, by rw [he]; rfl⟩

theorem exists_pushAll (types : List ValueType) (ctx : Context) :
    ∃ r, pushAll types ctx = .ok r := by
  induction types generalizing ctx with
  | nil => exact ⟨([], ctx), rfl⟩
  | cons ty types ih =>
    let pushed : Context := { ctx with stack := ctx.stack.push ⟨ty, ctx.pc⟩ }
    obtain ⟨⟨values, ctx'⟩, hrest⟩ := ih pushed
    have hcons : pushAll (ty :: types) ctx =
        (pushAll types pushed).bind fun r => .ok (⟨ty, ctx.pc⟩ :: r.1, r.2) := by
      rw [pushAll, mapM_cons]
      rfl
    exact ⟨_, by rw [hcons, hrest]; rfl⟩

theorem length_operands (ctx : Context) : ctx.operands.length = ctx.available := by
  simp [Context.operands, Context.available]

theorem hasOnTop_of_short (h : ctx.available < types.length) :
    ¬ ctx.frame.hasOnTop ctx.env types = true := by
  have hshort : ¬ types.length ≤ ctx.frame.operands.length := by
    rw [← length_operands] at h
    exact Nat.not_le.2 h
  simp [Frame.hasOnTop, hshort]

theorem decides_mergeTypes (h : ¬ ctx.available < types.length) (what : String) :
    Decides (ctx.frame.hasOnTop ctx.env types = true) (mergeTypes types what) ctx := by
  have hlength : types.length ≤ ctx.operands.length := by
    rw [length_operands]
    omega
  obtain ⟨e, hmerge⟩ := Decode.mergeTypes_frame hlength what
  rw [Decides, hmerge]
  by_cases htop : ctx.frame.hasOnTop ctx.env types = true
  · exact .inl ⟨htop, _, if_pos htop⟩
  · exact .inr ⟨htop, _, if_neg htop⟩

/-- Reachable code compares the operands of a branch, other code pops them. -/
theorem decides_branch (depth : Nat) (conditional : Bool) (ctx : Context) :
    Decides ((if !ctx.current.isReachable then
        ctx.frame.takes ctx.env (ctx.controlAt depth).branchMerge.types
      else ctx.frame.hasOnTop ctx.env (ctx.controlAt depth).branchMerge.types) = true)
      (branch depth conditional) ctx := by
  apply Decides.get_bind
  dsimp only
  cases ctx.current.isReachable with
  | true =>
    simp only [Bool.not_true, Bool.false_eq_true, if_false, if_true]
    split
    next hempty =>
      refine .inl ⟨?_, _, rfl⟩
      rw [List.isEmpty_iff] at hempty
      simp [hempty, Frame.hasOnTop]
    next =>
      split
      next hlt => exact .fault (hasOnTop_of_short hlt) _ _
      next hge => exact (decides_mergeTypes hge _).bind fun _ ctx' => ⟨(true, ctx'), rfl⟩
  | false =>
    refine Decides.bind ?_ fun _ ctx' => ⟨(false, ctx'), rfl⟩
    refine (decides_popTypes ..).bind fun _ ctx' => ?_
    obtain ⟨⟨values, ctx''⟩, hpush⟩ := exists_pushAll (ctx.controlAt depth).branchMerge.types ctx'
    exact ⟨((), ctx''), congrArg (fun r => r.bind fun p => .ok ((), p.2)) hpush⟩

/-- Code that is not unreachable compares the operands of a branch table, unreachable code pops
them. -/
theorem decides_branchTable (types : List ValueType) (ctx : Context) :
    Decides ((if ctx.current.isUnreachable then ctx.frame.takes ctx.env types
      else ctx.frame.hasOnTop ctx.env types) = true) (branchTable types) ctx := by
  apply Decides.get_bind
  cases ctx.current.isUnreachable with
  | false =>
    rw [if_neg Bool.false_ne_true, Bool.not_false, if_pos rfl]
    split
    next hlt => exact .fault (hasOnTop_of_short hlt) _ _
    next hge => exact decides_mergeTypes hge _
  | true => exact (decides_popTypes 1 types ctx).bind fun _ ctx' => ⟨((), ctx'), rfl⟩

end Check

namespace Decode

variable {σ α β : Type} {b : Backend σ} {m : CheckM α} {ctx ctx' : Context} {k : α → DecodeM σ β}

/-- The step ends with a decode error. -/
def Faults (m : DecodeM σ α) (ctx : Context) (s : σ) : Prop :=
  ∃ e, outcome m ctx s = .error (.decode e)

/-- The step ends with no decode error, whatever state it starts in. -/
structure Faultless (m : DecodeM σ α) : Prop where
  not_faults : ∀ ctx s, ¬ Faults m ctx s

namespace Faultless

theorem pure (x : α) : Faultless (σ := σ) (pure x) := ⟨fun _ _ ⟨_, h⟩ => by cases h⟩

theorem modify (g : Context → Context) : Faultless (σ := σ) (modify g) :=
    ⟨fun _ _ ⟨_, h⟩ => by cases h⟩

theorem get : Faultless (σ := σ) get := ⟨fun _ _ ⟨_, h⟩ => by cases h⟩

theorem bind {m : DecodeM σ α} {k : α → DecodeM σ β} (hm : Faultless m)
    (hk : ∀ x, Faultless (k x)) : Faultless (m >>= k) := by
  refine ⟨fun ctx s ⟨e, h⟩ => ?_⟩
  rw [outcome_bind] at h
  rcases hr : (m ctx).run s with ⟨e' | ⟨x, ctx'⟩, s'⟩ <;> rw [hr] at h
  · cases h
    exact hm.not_faults ctx s ⟨e, congrArg Prod.fst hr⟩
  · exact (hk x).not_faults ctx' s' ⟨e, h⟩

theorem ite {p : Prop} [Decidable p] {m k : DecodeM σ α} (hm : Faultless m) (hk : Faultless k) :
    Faultless (if p then m else k) := by
  split
  · exact hm
  · exact hk

theorem tell (b : Backend σ) (e : Event) : Faultless (tell b e) := by
  refine ⟨fun ctx s ⟨fault, h⟩ => ?_⟩
  obtain ⟨bailout, hr⟩ | hr | hr := outcome_tell b e ctx s <;> rw [hr] at h <;> cases h

theorem report (b : Backend σ) (e : Event) : Faultless (report b e) :=
  .bind .get fun _ => .ite (.tell b e) (.pure ())

theorem endControl (b : Backend σ) : Faultless (endControl b) :=
  .bind (.modify _) fun _ => .bind .get fun _ => .bind (.report ..) fun _ => .modify _

end Faultless

theorem faults_check_bind_ok {x : α}
    (s : σ) (hm : m ctx = .ok (x, ctx')) : Faults (check m >>= k) ctx s ↔ Faults (k x) ctx' s := by
  have hrun : (check m ctx : ExceptT _ (StateM σ) _).run s = (.ok (x, ctx'), s) := by
    simp only [check, hm]
    rfl
  rw [Faults, Faults, outcome_bind, hrun]

theorem faults_check_bind_error (k : α → DecodeM σ β)
    {e : DecodeError} (s : σ) (hm : m ctx = .error e) : Faults (check m >>= k) ctx s := by
  have hrun : (check m ctx : ExceptT _ (StateM σ) _).run s = (.error (.decode e), s) := by
    simp only [check, hm]
    rfl
  exact ⟨e, by rw [outcome_bind, hrun]⟩

/-- A step that starts with a check faults with the check only. -/
theorem faults_check_bind {p : Prop} (s : σ)
    (hm : Check.Decides p m ctx) (hk : ∀ x, Faultless (k x)) :
      Faults (check m >>= k) ctx s ↔ ¬p := by
  obtain ⟨hp, ⟨x, ctx'⟩, hr⟩ | ⟨hp, e, he⟩ := hm
  · rw [faults_check_bind_ok s hr]
    exact ⟨fun h => ((hk x).not_faults ctx' s h).elim, fun h => (h hp).elim⟩
  · exact ⟨fun _ => hp, fun _ => faults_check_bind_error k s he⟩

end Decode

namespace Instruction

/-- The depths to which an instruction may branch. -/
def branchTargets : Instruction → List Nat
  | br depth | brIf depth => [depth]
  | brTable table => table.targets
  | _ => []

/-- Whether the topmost operand selects the branch and is not carried along. -/
def isSelective : Instruction → Bool
  | brIf _ | brTable _ => true
  | _ => false

end Instruction

namespace Context

/-- The operands that a branch may carry, the topmost first. -/
def payload (ctx : Context) (i : Instruction) : List ValueType :=
  if i.isSelective then ctx.operands.tail else ctx.operands

/-- Whether the operands of a branch are popped as the types of its targets rather than compared
with them. -/
def popsPayload (ctx : Context) : Instruction → Bool
  | .brTable _ => ctx.current.isUnreachable
  | _ => !ctx.current.isReachable

/-- The topmost operand, where there is one, is an index. -/
def SelectorFits (ctx : Context) : Prop :=
  match ctx.operands with
  | [] => ctx.current.isUnreachable = true
  | ty :: _ => ty.isSubtypeOf .i32 = true

/-- What the decoder asks of a branch: targets that go together, operands enough, and at each
position from the top down a type below that of every target. The types are not looked at where
operands are popped and the targets have no proper type in common. -/
structure BranchFits (ctx : Context) (i : Instruction) : Prop where
  selector : i.isSelective = true → ctx.SelectorFits
  compatible : ctx.env.Compatible i.branchTargets
  present : ctx.current.isUnreachable = true ∨
    ∀ d ∈ i.branchTargets, (ctx.env.label d).length ≤ (ctx.payload i).length
  types : ∀ d ∈ i.branchTargets, ∀ (position : Nat) (found want : ValueType),
    (ctx.payload i)[position]? = some found → (ctx.env.label d).reverse[position]? = some want →
    found.isSubtypeOf want = true ∨
      (ctx.popsPayload i = true ∧ ctx.env.Mixed i.branchTargets position)

/-- What a branch to the construct carries; nothing where there is no such construct. -/
theorem label_env (ctx : Context) (d : Nat) :
    ctx.env.label d = (ctx.controlAt d).branchMerge.types := by
  simp only [TypeEnv.label, env, controlAt, getD_eq_getElem?_getD, getElem?_map]
  cases ctx.control[d]? <;> rfl

end Context

/-- The operands pass the check of a branch whose types are folded from its targets. -/
theorem Frame.passes_iff {env : TypeEnv} {f : Frame} {targets : List Nat} {types : List ValueType}
    {d₀ : Nat} {popping : Bool} (htrusted : env.options.trusted = false)
    (h : env.Folded targets types) (hd₀ : d₀ ∈ targets)
    (hpopping : f.polymorphic = true → popping = true) :
    (if popping then f.takes env types else f.hasOnTop env types) = true ↔
      (f.polymorphic = true ∨ ∀ d ∈ targets, (env.label d).length ≤ f.operands.length) ∧
      ∀ d ∈ targets, ∀ (p : Nat) (found want : ValueType), f.operands[p]? = some found →
        (env.label d).reverse[p]? = some want →
        found.isSubtypeOf want = true ∨ (popping = true ∧ env.Mixed targets p) := by
  cases popping with
  | true => simpa using Frame.takes_iff_of_folded htrusted h hd₀
  | false =>
    have hpoly : ¬ f.polymorphic = true := fun hpoly => Bool.false_ne_true (hpopping hpoly)
    simpa [hpoly] using Frame.hasOnTop_iff_of_folded htrusted h hd₀

namespace Check

theorem popAny_frame_eq (ctx : Context) : Frame.popAny ctx.frame = match ctx.operands with
    | ty :: rest => some (ty, { ctx.frame with operands := rest })
    | [] => if ctx.current.isUnreachable then some (.bottom, ctx.frame) else none := rfl

/-- The operand that selects a branch is popped; the others are its payload. -/
theorem pop_selector (ctx : Context) (htrusted : ctx.options.trusted = false) :
    (ctx.SelectorFits ∧ ∃ v stack, pop 0 .i32 ctx = .ok (v, ctx.withStack stack) ∧
      (ctx.withStack stack).frame = { ctx.frame with operands := ctx.operands.tail }) ∨
    (¬ ctx.SelectorFits ∧ ∃ e, pop 0 .i32 ctx = .error e) := by
  have hpop := pop_frame 0 .i32 ctx
  have haccepts : ∀ ty, ctx.env.accepts .i32 ty = ty.isSubtypeOf .i32 := by
    intro ty
    change (ctx.options.trusted || _ || _) = _
    rw [htrusted]
    rfl
  rw [Frame.pop, FrameM.bind_apply, popAny_frame_eq] at hpop
  unfold Context.SelectorFits
  cases hoperands : ctx.operands with
  | nil =>
    have hframe : ctx.frame = { ctx.frame with operands := [] } := by
      simp [Context.frame, hoperands]
    cases hunreachable : ctx.current.isUnreachable with
    | true =>
      simp only [hoperands, hunreachable, if_true, Option.bind_some, FrameM.guard_apply,
        TypeEnv.accepts_bottom] at hpop
      obtain ⟨v, stack, hok, hf⟩ := hpop
      exact .inl ⟨rfl, v, stack, hok, hf.trans hframe⟩
    | false =>
      simp only [hoperands, hunreachable, Bool.false_eq_true, if_false, Option.bind_none] at hpop
      obtain ⟨e, he⟩ := hpop
      exact .inr ⟨Bool.false_ne_true, _, he⟩
  | cons ty rest =>
    simp only [hoperands, Option.bind_some, FrameM.guard_apply, haccepts] at hpop
    cases hty : ty.isSubtypeOf .i32 with
    | true =>
      rw [if_pos hty] at hpop
      obtain ⟨v, stack, hok, hf⟩ := hpop
      exact .inl ⟨hty, v, stack, hok, hf⟩
    | false =>
      rw [if_neg (by simp [hty])] at hpop
      obtain ⟨e, he⟩ := hpop
      exact .inr ⟨by simp [hty], _, he⟩

end Check

namespace Decode

variable {σ : Type} {b : Backend σ} {ctx : Context}

/-- Unreachable code is not reachable. -/
theorem popsPayload_of_isUnreachable {i : Instruction} (h : ctx.current.isUnreachable = true) :
    ctx.popsPayload i = true := by
  have hr : ctx.current.isReachable = false := by
    simp only [Control.isUnreachable, beq_iff_eq] at h
    simp [Control.isReachable, h]
  cases i <;> simp [Context.popsPayload, h, hr]

section

variable (htrusted : ctx.options.trusted = false)
include htrusted

/-- What is left to check once the targets are folded. -/
theorem branchFits_iff {i : Instruction}
    {types : List ValueType} {d₀ : Nat} (h : ctx.env.Folded i.branchTargets types)
    (hd₀ : d₀ ∈ i.branchTargets) :
    ctx.BranchFits i ↔ (i.isSelective = true → ctx.SelectorFits) ∧
      (if ctx.popsPayload i then { ctx.frame with operands := ctx.payload i }.takes ctx.env types
      else { ctx.frame with operands := ctx.payload i }.hasOnTop ctx.env types) = true := by
  have hpasses := @Frame.passes_iff ctx.env { ctx.frame with operands := ctx.payload i }
    i.branchTargets types d₀ (ctx.popsPayload i) htrusted h hd₀ popsPayload_of_isUnreachable
  rw [hpasses]
  exact ⟨fun fits => ⟨fits.selector, fits.present, fits.types⟩,
    fun ⟨selector, present, types⟩ => ⟨selector, h.compatible, present, types⟩⟩

/-- A branch with a selector pops it and checks the payload then. -/
theorem faults_selective {k : Value → DecodeM σ Unit} {s : σ} {p : Prop}
    (hk : ∀ v stack, (ctx.withStack stack).frame =
      { ctx.frame with operands := ctx.operands.tail } →
      (Faults (k v) (ctx.withStack stack) s ↔ ¬p)) :
    Faults (check (Check.pop 0 .i32) >>= k) ctx s ↔ ¬ (ctx.SelectorFits ∧ p) := by
  obtain ⟨hfits, v, stack, hok, hf⟩ | ⟨hmiss, e, he⟩ := Check.pop_selector ctx htrusted
  · rw [faults_check_bind_ok s hok, hk v stack hf]
    exact ⟨fun hp h => hp h.2, fun h hp => h ⟨hfits, hp⟩⟩
  · exact ⟨fun _ h => hmiss h.1, fun _ => faults_check_bind_error k s he⟩

theorem faults_br_iff {d : Nat} (hd : d < ctx.control.length) (s : σ) :
    Faults (br b d) ctx s ↔ ¬ ctx.BranchFits (.br d) := by
  have hrange : d < ctx.env.labels.length := by simpa [Context.env] using hd
  have hchecks := Check.decides_branch d false ctx
  rw [← Context.label_env] at hchecks
  have hfolded : ctx.env.Folded (Instruction.br d).branchTargets (ctx.env.label d) := .single hrange
  have hfits := branchFits_iff htrusted hfolded (mem_singleton_self d)
  have hselective : (Instruction.br d).isSelective = false := rfl
  simp only [hselective, Bool.false_eq_true, false_imp_iff, true_and] at hfits
  rw [hfits]
  exact faults_check_bind s hchecks fun reached => .ite
    (.bind (.report ..) fun _ => .bind (.modify _) fun _ => .endControl b) (.endControl b)

theorem faults_brIf_iff {d : Nat} (hd : d < ctx.control.length) (s : σ) :
    Faults (brIf b d) ctx s ↔ ¬ ctx.BranchFits (.brIf d) := by
  have hrange : d < ctx.env.labels.length := by simpa [Context.env] using hd
  have hfolded : ctx.env.Folded (Instruction.brIf d).branchTargets (ctx.env.label d) :=
    .single hrange
  have hfits := branchFits_iff htrusted hfolded (mem_singleton_self d)
  have hselective : (Instruction.brIf d).isSelective = true := rfl
  simp only [hselective, true_imp_iff] at hfits
  rw [hfits]
  refine faults_selective htrusted fun v stack hf => ?_
  have hchecks := Check.decides_branch d true (ctx.withStack stack)
  rw [← Context.label_env, hf] at hchecks
  exact faults_check_bind s hchecks fun reached =>
    .ite (.bind (.report ..) fun _ => .modify _) (.pure _)

theorem faults_brTable_iff (table : BranchTable) (s : σ) :
    Faults (brTable b table) ctx s ↔ ¬ ctx.BranchFits (.brTable table) := by
  obtain ⟨d, rest, htargets⟩ : ∃ d rest, table.targets = d :: rest :=
    exists_cons_of_ne_nil (by simp [BranchTable.targets])
  have htypes := TypeEnv.folded_tableTypes (show ctx.env.options.trusted = false from htrusted)
    rest (d := d)
  rw [← htargets] at htypes
  cases hfold : ctx.env.tableTypes table.targets with
  | none =>
    rw [hfold] at htypes
    refine iff_of_true ?_ fun fits => htypes fits.compatible
    refine (faults_selective (p := False) htrusted fun v stack hf => ?_).2 fun h => h.2
    have hscan := @scanTable_eq ctx.env (ctx.withStack stack) rfl rfl table
    rw [hfold] at hscan
    obtain ⟨e, he⟩ := hscan
    exact iff_of_true (faults_check_bind_error _ s he) not_false
  | some types =>
    rw [hfold] at htypes
    have hfolded : ctx.env.Folded (Instruction.brTable table).branchTargets types := htypes
    have hmem : d ∈ (Instruction.brTable table).branchTargets := by
      simp [Instruction.branchTargets, htargets]
    have hfits := branchFits_iff htrusted hfolded hmem
    have hselective : (Instruction.brTable table).isSelective = true := rfl
    simp only [hselective, true_imp_iff] at hfits
    rw [hfits]
    refine faults_selective htrusted fun v stack hf => ?_
    have hscan := @scanTable_eq ctx.env (ctx.withStack stack) rfl rfl table
    rw [hfold] at hscan
    obtain ⟨scan, hok, rfl⟩ := hscan
    have hchecks := Check.decides_branchTable (scan.types.getD []) (ctx.withStack stack)
    rw [hf] at hchecks
    rw [faults_check_bind_ok s hok]
    exact faults_check_bind s hchecks fun _ => .bind .get fun _ => .ite
      (.bind (.tell ..) fun _ => .bind (.modify _) fun _ => .endControl b) (.endControl b)

end

/-- A visited branch faults exactly if its operands and targets do not fit. -/
theorem Visits.faults_iff {start : Context} {s₀ s : σ} {i : Instruction}
    (h : Visits b start s₀ ctx s i) (htrusted : start.options.trusted = false)
    (hbranch : i.branchTargets ≠ []) : Faults (instruction b i) ctx s ↔ ¬ ctx.BranchFits i := by
  obtain ⟨op, r, hread⟩ := h.reads
  have htrusted : ctx.options.trusted = false := by rwa [h.sameFunction.options]
  cases i with
  | br d => exact faults_br_iff htrusted (Instruction.lt_of_read_br hread (.inl rfl)) s
  | brIf d => exact faults_brIf_iff htrusted (Instruction.lt_of_read_br hread (.inr rfl)) s
  | brTable table => exact faults_brTable_iff htrusted table s
  | _ => exact (hbranch rfl).elim

end Decode

/-- Every branch that a full check of a body comes to is rejected with a decode error exactly if it
does not fit, and with it the body. So in an accepted body every operand that a branch carries has a
type below that of each target, unless operands are popped there and the targets have no proper type
in common. -/
theorem branch_payload_fits {σ : Type} (b : Backend σ) (module : Module) (sig : Signature)
    (bytes : Array UInt8) (features : FeatureSet) {s₀ s : σ} {ctx : Context} {i : Instruction}
    (hvisits : Decode.Visits b (.initial module sig bytes ⟨features, .full⟩) s₀ ctx s i)
    (hbranch : i.branchTargets ≠ []) :
    ((∃ e, Decode.outcome (Decode.instruction b i) ctx s = .error (.decode e)) ↔
      ¬ ctx.BranchFits i) ∧
    (¬ ctx.BranchFits i → ∃ e, (decodeBody b s₀ module sig bytes ⟨features, .full⟩).1 =
      .error (.decode e)) ∧
    ((decodeBody b s₀ module sig bytes ⟨features, .full⟩).1 = .ok () →
      ∀ d ∈ i.branchTargets, ∀ (position : Nat) (found want : ValueType),
        (ctx.payload i)[position]? = some found →
        (ctx.controlAt d).branchMerge.types.reverse[position]? = some want →
          found.isSubtypeOf want = true ∨
          (ctx.popsPayload i = true ∧ ctx.env.Mixed i.branchTargets position)) := by
  have hfaults := hvisits.faults_iff rfl hbranch
  have hrejects : ¬ ctx.BranchFits i →
      ∃ e, (decodeBody b s₀ module sig bytes ⟨features, .full⟩).1 = .error (.decode e) := by
    intro hmiss
    obtain ⟨e, he⟩ := hfaults.2 hmiss
    obtain ⟨e', hbody⟩ := hvisits.fault he
    exact ⟨e', congrArg (Except.map Prod.fst) hbody⟩
  refine ⟨hfaults, hrejects, ?_⟩
  intro hok d hd position found want hfound hwant
  have hfits : ctx.BranchFits i := Classical.byContradiction fun hmiss => by
    obtain ⟨e, he⟩ := hrejects hmiss
    rw [hok] at he
    cases he
  exact hfits.types d hd position found want hfound (by rwa [Context.label_env])

/-- A block of type `i64` in a function of type `i32`. In its unreachable part a branch table to
both carries an `i32`. -/
def mixedTable : Array UInt8 :=
  #[0x00, 0x02, 0x7e, 0x00, 0x41, 0x00, 0x41, 0x00, 0x0e, 0x01, 0x00, 0x01,
    0x0b, 0x1a, 0x41, 0x00, 0x0b]

/-- A state of decoding `mixedTable`: the current instruction, the operands, and how far the block
is reachable if it is open. -/
def mixedTableAt (pc pos : Nat) (opcode : Opcode) (stack : Array Value)
    (block? : Option Reachability) : Context where
  module := {}
  sig := ⟨[], [.i32]⟩
  options := ⟨.standard, .full⟩
  reader := ⟨mixedTable, pos⟩
  stack
  control := (block?.map fun r => ⟨.block, 0, r, ⟨[], false⟩, ⟨[.i64], false⟩, 1⟩).toList ++
    [⟨.block, 0, .reachable, ⟨[], false⟩, ⟨[.i32], false⟩, 1⟩]
  live := block?.all (· == .reachable)
  pc
  opcode

theorem visits_mixedTable :
    Decode.Visits .validator (.initial {} ⟨[], [.i32]⟩ mixedTable ⟨.standard, .full⟩) ()
      (mixedTableAt 8 12 .brTable #[⟨.i32, 4⟩, ⟨.i32, 6⟩] (some .unreachable))
        () (.brTable ⟨#[0], 1⟩) := by
  have hbody : Decode.Reached .validator (.initial {} ⟨[], [.i32]⟩ mixedTable ⟨.standard, .full⟩) ()
      (mixedTableAt 1 1 .nop #[] none) () := .enter rfl
  have hblock : Decode.Reached .validator _ () (mixedTableAt 1 3 .block #[] (some .reachable)) () :=
    .step hbody rfl rfl rfl
  have hdead : Decode.Reached .validator _ ()
      (mixedTableAt 3 4 .unreachable #[] (some .unreachable)) () := .step hblock rfl rfl rfl
  have hpayload : Decode.Reached .validator _ ()
      (mixedTableAt 4 6 .i32Const #[⟨.i32, 4⟩] (some .unreachable)) () := .step hdead rfl rfl rfl
  have hindex : Decode.Reached .validator _ ()
      (mixedTableAt 6 8 .i32Const #[⟨.i32, 4⟩, ⟨.i32, 6⟩] (some .unreachable)) () :=
    .step hpayload rfl rfl rfl
  exact ⟨_, _, hindex, rfl, rfl, rfl⟩

theorem validate_mixedTable : validate {} ⟨[], [.i32]⟩ mixedTable ⟨.standard, .full⟩ = .ok () := by
  have hok : (validate {} ⟨[], [.i32]⟩ mixedTable ⟨.standard, .full⟩).toBool = true := by
    decide +kernel
  cases hresult : validate {} ⟨[], [.i32]⟩ mixedTable ⟨.standard, .full⟩ with
  | ok => rfl
  | error e =>
    rw [hresult] at hok
    cases hok

/-- The body is accepted although the operand does not fit the block: the two targets have no type
in common. -/
theorem branch_payload_fits_mixedTable :
    Decode.Visits .validator (.initial {} ⟨[], [.i32]⟩ mixedTable ⟨.standard, .full⟩) ()
      (mixedTableAt 8 12 .brTable #[⟨.i32, 4⟩, ⟨.i32, 6⟩] (some .unreachable))
        () (.brTable ⟨#[0], 1⟩) ∧
    (decodeBody .validator () {} ⟨[], [.i32]⟩ mixedTable ⟨.standard, .full⟩).1 = .ok () ∧
    ((.i32 : ValueType).isSubtypeOf .i64 = true ∨
      ((mixedTableAt 8 12 .brTable #[⟨.i32, 4⟩, ⟨.i32, 6⟩] (some .unreachable)).popsPayload
        (.brTable ⟨#[0], 1⟩) = true ∧
      (mixedTableAt 8 12 .brTable #[⟨.i32, 4⟩, ⟨.i32, 6⟩] (some .unreachable)).env.Mixed [0, 1]
        0)) ∧
    (.i32 : ValueType).isSubtypeOf .i64 = false := by
  have hfits := branch_payload_fits .validator {} ⟨[], [.i32]⟩
    mixedTable .standard visits_mixedTable (by decide)
  exact ⟨visits_mixedTable, validate_mixedTable,
    hfits.2.2 validate_mixedTable 0 (by decide) 0 .i32 .i64 rfl rfl, rfl⟩

end OnePass
