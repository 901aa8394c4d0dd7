import OnePass.Proofs.OutlineBranches

/-!
Every instruction that opens and closes nothing follows its effect on the innermost frame. What it
pushes has no `bottom` type as long as its immediates have none.
-/
namespace OnePass

/-- Instructions that open or close a construct or one of its arms. -/
def Instruction.isStructural : Instruction → Bool
  | block _ | loop _ | tryBlock _ | ifThen _ | elseArm | endBlock | catchTag .. | catchAll => true
  | _ => false

variable {i : Instruction}

namespace Instruction

variable {env : TypeEnv}

theorem effect_of_stackType? {type : BlockType}
    (htype : i.stackType? = some type) (h : i.admissible env = true) :
    i.effect env = (do Frame.popTypes env type.params; Frame.pushTypes type.results) := by
  funext f
  simp [effect, h, htype, guard]

theorem effect_of_exitTypes? {types : List ValueType}
    (htype : i.stackType? = none) (hexit : i.exitTypes? env = some types)
    (h : i.admissible env = true) :
    i.effect env = (do Frame.popTypes env types; Frame.close) := by
  funext f
  simp [effect, h, htype, hexit, guard]

theorem effect_of_shape {shape : Shape} (h : i.shape? = some shape) : i.effect env = (do
      guard (i.admissible env)
      Frame.popTypes env (shape.takes.map Prod.fst)
      if shape.exits then Frame.close else Frame.pushTypes shape.gives) := by
  cases i
  all_goals simp only [shape?, reduceCtorEq, Option.some.injEq] at h
  all_goals subst h
  case drop =>
    simp [effect, stackType?, exitTypes?, Frame.popTypes, Frame.pushTypes,
      Frame.pop, TypeEnv.accepts]
  all_goals simp [effect, stackType?, exitTypes?, shape?.bulk]

end Instruction

theorem Frame.pushTypes_close (types : List ValueType) :
    (do Frame.pushTypes types; Frame.close : FrameM Unit) = Frame.close := by
  funext f
  rw [FrameM.bind_apply, Frame.pushTypes_eq]
  rfl

namespace Decode

variable {σ : Type} {b : Backend σ} {env : TypeEnv}

theorem tracks_pushClean {ty : ValueType} (h : ty ≠ .bottom) :
    Tracks (σ := σ) env (fun _ => True) (check (Check.push ty)) (Frame.push ty) fun _ _ _ => True :=
  (tracks_push fun _ => rfl).weaken (fun _ _ _ _ => h) fun _ _ _ => id

variable {pre : Frame → Prop}

theorem tracks_markBranch (depth : Nat) :
    Tracks (σ := σ) env pre (modify fun ctx => ctx.modifyControl depth Control.markBranch) (pure ())
      fun _ _ => pre := by
  intro ctx f fs hm _ hpre
  exact Ends.of_modify ⟨hpre, .refl f, hm.modifyControl Control.Alike.markBranch depth,
    ⟨rfl, rfl, rfl, rfl, rfl, rfl⟩⟩

theorem tracks_markSeen (seen : Array Bool) :
    Tracks (σ := σ) env pre (modify (markSeen seen)) (pure ()) fun _ _ => pre := by
  intro ctx f fs hm _ hpre
  have hmarked : ∀ (i : Nat) (c : Control),
      c.Alike (if seen[i]?.getD false then c.markBranch else c) := by
    intro i c
    split
    · exact .markBranch c
    · exact .refl c
  exact Ends.of_modify ⟨hpre, .refl f, ⟨hm.framed.mapIdx hmarked, hm.live⟩,
    ⟨rfl, rfl, rfl, rfl, rfl, rfl⟩⟩

section

variable (hb : b.NeverBails)
include hb

theorem tracks_br (depth : Nat) : Tracks env (fun _ => True) (br b depth)
      (do Frame.popTypes env (env.label depth); Frame.close) fun _ _ _ => True := by
  rw [← Frame.pushTypes_close (env.label depth), ← bind_assoc]
  refine (tracks_branch depth false).bind fun reachable _ => ?_
  cases reachable with
  | false => exact tracks_endControl hb
  | true =>
    exact (tracks_report hb _).before fun _ =>
      (tracks_markBranch depth).before fun _ => tracks_endControl hb

theorem tracks_brIf (depth : Nat) : Tracks env (fun _ => True) (brIf b depth) (do
        Frame.pop env .i32
        Frame.popTypes env (env.label depth)
        Frame.pushTypes (env.label depth)) fun _ _ _ => True := by
  refine (tracks_pop 0 .i32).bind fun cond _ => ?_
  refine (tracks_branch depth true).andThen fun reachable _ => ?_
  cases reachable with
  | false => exact Tracks.pure fun _ => id
  | true => exact (tracks_report hb _).before fun _ => tracks_markBranch depth

theorem tracks_brTable (table : BranchTable) : Tracks env (fun _ => True) (brTable b table) (do
        Frame.pop env .i32
        let types ← liftM (env.tableTypes table.targets)
        Frame.branchTable env types
        Frame.close) fun _ _ _ => True := by
  refine (tracks_pop 0 .i32).bind fun key _ => ?_
  refine (tracks_scanTable table).bind fun scan types => ?_
  intro ctx f fs hm henv hscan
  obtain ⟨rfl, -⟩ := hscan
  refine (tracks_branchTable (scan.types.getD [])).bind (fun _ _ => ?_) ctx f fs hm henv trivial
  intro ctx f fs hm henv _
  apply Ends.get_bind
  split
  · exact (tracks_tell hb _).before (fun _ => (tracks_markSeen scan.seen).before fun _ =>
      tracks_endControl hb) ctx f fs hm henv trivial
  · exact tracks_endControl hb ctx f fs hm henv trivial

end

theorem tracks_returnTypes (hresults : .bottom ∉ env.results) :
    Tracks (σ := σ) env (fun f => f.polymorphic = false) (check Check.returnTypes)
      (do Frame.popTypes env env.results; Frame.pushTypes env.results) fun _ _ _ => True := by
  intro ctx f fs hm henv hpoly s
  have hsig : ctx.sig.results = env.results := by rw [← henv]; rfl
  simp only [Check.returnTypes, check_bind, check_get, outcome_get_bind,
    hm.available, hsig, check_ite]
  split
  next hlt =>
    rw [FrameM.bind_apply, Frame.popTypes_of_short hpoly hlt]
    exact rfl
  next hge =>
    exact tracks_mergeTypes hresults "return" ctx f fs hm henv ⟨hpoly, Nat.not_lt.1 hge⟩ s

/-- Live code compares the operands with the results and leaves them to be dropped. -/
theorem tracks_ret (hb : b.NeverBails) (hresults : .bottom ∉ env.results) :
    Tracks env (fun _ => True) (ret b)
      (do Frame.popTypes env env.results; Frame.close) fun _ _ _ => True := by
  intro ctx f fs hm henv _
  have hsig : ctx.sig.results = env.results := by rw [← henv]; rfl
  apply Ends.get_bind
  split
  next hlive =>
    have hclose : (do Frame.popTypes env env.results; Frame.close : FrameM Unit) =
        (do Frame.popTypes env env.results; Frame.pushTypes env.results) >>=
          fun _ => Frame.close := by
      rw [bind_assoc, Frame.pushTypes_close]
    rw [hclose]
    exact (tracks_returnTypes hresults).bind (fun _ _ => (tracks_tell hb _).before fun _ =>
      tracks_endControl hb) ctx f fs hm henv (hm.live hlive f rfl)
  next =>
    rw [hsig]
    exact (tracks_popTypes 0 env.results).bind (fun _ _ => tracks_endControl hb)
      ctx f fs hm henv trivial

/-- A fault that a condition on the options decides. -/
theorem tracks_faultIf {α : Type} {p : DecoderOptions → Bool} {q : Bool} {e : Context → DecodeFault}
    {m : DecodeM σ α} {a : FrameM Unit} {post : α → Unit → Frame → Prop}
    (hp : p env.options = !q) (h : Tracks env pre m a post) :
    Tracks env pre (do
        let ctx ← get
        if p ctx.options then
          check (Check.fault (e ctx))
        m)
      (do guard q; a) post := by
  intro ctx f fs hm henv hpre
  have hopt : ctx.options = env.options := by rw [← henv]; rfl
  apply Ends.get_bind
  rw [hopt, hp, FrameM.bind_apply, FrameM.guard_apply]
  cases q with
  | false =>
    intro s
    exact rfl
  | true => exact h ctx f fs hm henv hpre

theorem tracks_select (hb : b.NeverBails) :
    Tracks env (fun _ => True) (select b) (Frame.select env) fun _ _ _ => True := by
  unfold select Frame.select
  refine (tracks_pop 2 .i32).bind fun cond _ => ?_
  refine (tracks_popAny 1).bind fun xf yf => ?_
  refine Tracks.assuming (fun f h => ⟨fun ht => (h ht).1, trivial⟩) fun hf => ?_
  simp only [Check.pop, check_bind, bind_assoc, check_pure, pure_bind]
  refine (tracks_popAny 0).bind fun xt yt => ?_
  refine Tracks.assuming (fun f h => ⟨fun ht => (h ht).1, fun ht => (h ht).2⟩) fun ht => ?_
  refine (tracks_operand hf ht).bind fun _ _ => ?_
  have hty : env.options.trusted = false →
      (if xt.ty = .bottom then xf.ty else xt.ty) = if yt = .bottom then yf else yt := by
    intro htrusted
    rw [hf htrusted, ht htrusted]
  refine tracks_faultIf (p := fun o =>
    (if xt.ty = .bottom then xf.ty else xt.ty).isReference && !o.trusted) ?_ ?_
  · cases htrusted : env.options.trusted with
    | true => simp
    | false => simp [hty htrusted]
  · refine ((tracks_push hty).weaken ?_ fun _ _ _ => id).andThen fun _ _ => tracks_report hb _
    intro f hpre htrusted hpoly
    rw [if_neg (hpre htrusted hpoly)]
    exact hpre htrusted hpoly

theorem tracks_refIsNull (hb : b.NeverBails) :
    Tracks env (fun _ => True) (refIsNull b) (Frame.refIsNull env) fun _ _ _ => True := by
  refine (tracks_popAny 0).bind fun x y => ?_
  refine Tracks.assuming (fun f h => ⟨fun ht => (h ht).1, trivial⟩) fun hxy => ?_
  refine tracks_faultIf (p := fun o => !x.ty.isReference && x.ty != .bottom && !o.trusted) ?_ ?_
  · cases htrusted : env.options.trusted with
    | true => simp
    | false => simp [hxy htrusted, Bool.not_or, bne]
  · exact (tracks_pushClean (by decide)).andThen fun _ _ => tracks_report hb _

theorem tracks_tailCallReturns (sig : Signature) :
    Tracks (σ := σ) env pre (check (Check.tailCallReturns sig))
      (guard (env.options.trusted || Instruction.resultsFit env.results sig.results))
      fun _ _ => pre := by
  intro ctx f fs hm henv hpre s
  have hopt : ctx.options = env.options := by rw [← henv]; rfl
  have hsig : ctx.sig.results = env.results := by rw [← henv]; rfl
  simp only [Check.tailCallReturns, check_bind, check_get, outcome_get_bind, hopt, hsig]
  exact tracks_guard (Bool.or_comm _ _) ctx f fs hm henv hpre s

theorem tracks_elementTypes (src dst : ValueType) :
    Tracks (σ := σ) env pre (check (Check.elementTypes src dst))
      (guard (env.options.trusted || src.isSubtypeOf dst)) fun _ _ => pre := by
  intro ctx f fs hm henv hpre s
  have hopt : ctx.options = env.options := by rw [← henv]; rfl
  simp only [Check.elementTypes, check_bind, check_get, outcome_get_bind, hopt]
  exact tracks_guard (Bool.or_comm _ _) ctx f fs hm henv hpre s

theorem tracks_rethrow (hb : b.NeverBails) (depth : Nat) :
    Tracks env (fun _ => True) (rethrow b depth)
      (do guard (Instruction.admissible env (.rethrow depth)); Frame.close) fun _ _ _ => True := by
  intro ctx f fs hm henv _
  have hkind : (ctx.controlAt depth).kind = env.kinds.getD depth .block := by
    rw [← henv]
    exact hm.framed.kind_getD depth
  have hadmissible : Instruction.admissible env (.rethrow depth) = true ↔
      ¬ ((ctx.controlAt depth).kind ≠ .tryCatch ∧ (ctx.controlAt depth).kind ≠ .tryCatchAll) := by
    rw [hkind]
    simp only [Instruction.admissible, Bool.or_eq_true, beq_iff_eq]
    grind
  apply Ends.get_bind
  dsimp only
  rw [FrameM.bind_apply, FrameM.guard_apply]
  split
  next hfault =>
    rw [if_neg fun h => hadmissible.1 h hfault]
    intro s
    exact rfl
  next hok =>
    rw [if_pos (hadmissible.2 hok)]
    exact (tracks_report hb _).before (fun _ => tracks_endControl hb) ctx f fs hm henv trivial

/-- What is required besides the operands. -/
theorem tracks_requires {shape : Shape} (h : i.shape? = some shape) :
    Tracks (σ := σ) env (fun _ => True) (check shape.requires) (guard (i.admissible env))
      fun _ _ _ => True := by
  cases i with
  | returnCall function sig =>
    cases h
    exact tracks_tailCallReturns sig
  | returnCallIndirect callee sig =>
    cases h
    exact tracks_tailCallReturns sig
  | tableInit segment segmentType table elem =>
    cases h
    exact tracks_elementTypes segmentType elem
  | tableCopy dst dstElem src srcElem =>
    cases h
    exact tracks_elementTypes srcElem dstElem
  | _ => cases h <;> exact Tracks.pure fun _ => id

/-- Operands are popped, results are pushed, and the construct may be unreachable then. -/
theorem tracks_shape (hb : b.NeverBails) {shape : Shape}
    (h : i.shape? = some shape) (htypes : .bottom ∉ i.types) :
    Tracks env (fun _ => True) (instruction b i) (i.effect env) fun _ _ _ => True := by
  have hgives : .bottom ∉ shape.gives := by
    intro hmem
    exact (i.gives_types h _ hmem).elim htypes fun hne => hne rfl
  rw [instruction_eq_shape b h, Instruction.effect_of_shape h, Shape.check]
  simp only [check_bind, check_pure, bind_assoc, pure_bind]
  refine (tracks_requires h).bind fun _ _ => (tracks_popEach shape.takes).bind fun args _ => ?_
  cases hexits : shape.exits with
  | false =>
    exact (tracks_pushTypes hgives).andThen fun _ _ => (tracks_report hb _).before fun _ =>
      Tracks.pure fun _ => id
  | true =>
    have hclose : (if true = true then Frame.close else Frame.pushTypes shape.gives : FrameM Unit) =
        (do Frame.pushTypes shape.gives; Frame.close) := (Frame.pushTypes_close shape.gives).symm
    rw [hclose]
    exact (tracks_pushTypes hgives).bind fun _ _ => (tracks_report hb _).before fun _ =>
      tracks_endControl hb

/-- What an instruction does to the stacks is its effect on the innermost frame. -/
theorem tracks_instruction (hb : b.NeverBails) (hresults : .bottom ∉ env.results)
    (hplain : i.isStructural = false) (htypes : .bottom ∉ i.types) :
    Tracks env (fun _ => True) (instruction b i) (i.effect env) fun _ _ _ => True := by
  cases hshape : i.shape? with
  | some shape => exact tracks_shape hb hshape htypes
  | none =>
    cases i
    all_goals simp only [Instruction.shape?, reduceCtorEq] at hshape
    all_goals simp only [Instruction.isStructural, reduceCtorEq] at hplain
    case nop =>
      rw [Instruction.effect_of_stackType? rfl rfl]
      exact Tracks.pure fun _ => id
    case rethrow depth => exact tracks_rethrow hb depth
    case br depth =>
      rw [Instruction.effect_of_exitTypes? rfl rfl rfl]
      exact tracks_br hb depth
    case brIf depth => exact tracks_brIf hb depth
    case brTable table => exact tracks_brTable hb table
    case ret =>
      rw [Instruction.effect_of_exitTypes? rfl rfl rfl]
      exact tracks_ret hb hresults
    case select => exact tracks_select hb
    case refIsNull => exact tracks_refIsNull hb

end Decode

end OnePass
