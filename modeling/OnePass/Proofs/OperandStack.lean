import OnePass.Proofs.BranchPayload
import OnePass.Proofs.Shape

/-!
What the checks do to the operands, for the innermost construct: its operands lie above those of the
constructs around it, and these are never touched.
-/
namespace OnePass

open List

/-- The operands split at the entry of the innermost construct. -/
structure Context.Shows (ctx : Context) (c : Control) (outer : List Control)
    (below ops : List Value) : Prop where
  control : ctx.control = c :: outer
  stack : ctx.stack = (below ++ ops).toArray
  depth : c.stackDepth = below.length

/-- The operands that are left when some are taken from the top. In unreachable code there may be
fewer than are taken. -/
structure Control.Takes (c : Control) (ops taken rest : List Value) : Prop where
  length : rest.length = ops.length - taken.length
  kept : rest <+: ops
  exact : c.isUnreachable = false → ops = rest ++ taken

/-- A value passes for an expected type. In trusted mode every value does. -/
def Accepts (trusted : Bool) (expected : ValueType) (v : Value) : Prop :=
  trusted = true ∨ expected = .bottom ∨ v.ty.isSubtypeOf expected = true

theorem Control.Takes.refl (c : Control) (ops : List Value) : c.Takes ops [] ops :=
  ⟨rfl, prefix_rfl, fun _ => (append_nil ops).symm⟩

theorem Control.Takes.trans {c : Control} {ops taken rest taken' rest' : List Value}
    (h : c.Takes ops taken rest) (h' : c.Takes rest taken' rest') :
      c.Takes ops (taken' ++ taken) rest' := by
  refine ⟨?_, h'.kept.trans h.kept, fun hc => ?_⟩
  · rw [h'.length, h.length, length_append]
    omega
  · rw [h.exact hc, h'.exact hc, append_assoc]

variable {ctx ctx' : Context} {c : Control} {outer : List Control} {below ops ops' : List Value}

namespace Context

/-- The state with other operands of the innermost construct. -/
def withOperands (ctx : Context) (below ops : List Value) : Context :=
  ctx.withStack (below ++ ops).toArray

theorem sameSetting_withOperands (ctx : Context) (below ops : List Value) :
    ctx.SameSetting (ctx.withOperands below ops) := ⟨rfl, rfl, rfl, rfl, rfl, rfl⟩

@[simp] theorem control_withOperands (ctx : Context) (xs ys : List Value) :
    (ctx.withOperands xs ys).control = ctx.control := rfl

namespace Shows

section

variable (h : ctx.Shows c outer below ops)
include h

theorem current : ctx.current = c := by
  simp [Context.current, controlAt, h.control]

theorem size : ctx.stack.size = below.length + ops.length := by
  simp [h.stack]

theorem available : ctx.available = ops.length := by
  rw [Context.available, h.current, h.size, h.depth, Nat.add_sub_cancel_left]

theorem withOperands (ops' : List Value) : (ctx.withOperands below ops').Shows c outer below ops' :=
  ⟨h.control, rfl, h.depth⟩

theorem self_eq : ctx = ctx.withOperands below ops := by
  obtain ⟨-, hstack, -⟩ := h
  rw [Context.withOperands, withStack, ← hstack]

/-- Dropping the operands of the construct leaves those below. -/
theorem truncate : ctx.truncate c.stackDepth = ctx.withOperands below [] := by
  rw [Context.truncate, Context.withOperands, withStack, h.stack, h.depth]
  simp

end

end Shows

end Context

variable {u : Unit} {what : String}

namespace Check

variable {v : Value}

theorem popAny_ok (h : ctx.Shows c outer below ops) {index : Nat}
    (hpop : popAny index ctx = .ok (v, ctx')) :
    ∃ rest, ctx' = ctx.withOperands below rest ∧ c.Takes ops [v] rest := by
  rw [popAny_apply, h.current, h.size, h.depth] at hpop
  rcases eq_nil_or_concat' ops with rfl | ⟨rest, top, rfl⟩
  · rw [if_pos (by simp)] at hpop
    split at hpop
    next hunreachable =>
      cases hpop
      exact ⟨[], h.self_eq, rfl, prefix_rfl, by simp [hunreachable]⟩
    next => cases hpop
  · rw [if_neg (by simp)] at hpop
    have hback : ctx.stack.back? = some top := by
      rw [h.stack]
      simp [← append_assoc]
    rw [hback] at hpop
    cases hpop
    refine ⟨rest, ?_, by simp, prefix_append .., fun _ => rfl⟩
    simp only [Context.withOperands, Context.withStack, h.stack, ← append_assoc,
      pop_toArray, dropLast_concat]

theorem operand_ok {index : Nat} {ty : ValueType} (h : operand index ty v ctx = .ok (u, ctx')) :
    ctx' = ctx ∧ Accepts ctx.options.trusted ty v := by
  have heval : operand index ty v ctx =
      (if ctx.options.trusted || ty == .bottom || v.ty.isSubtypeOf ty then pure () else
        fault (.operandType ctx.opcode index ty (Opcode.nameAt ctx.reader.bytes v.pc) v.ty) :
          CheckM Unit) ctx := rfl
  rw [heval] at h
  split at h
  next hok =>
    cases h
    refine ⟨rfl, ?_⟩
    simpa [Accepts, or_assoc] using hok
  next => cases h

theorem exists_of_bind {α β : Type} {m : CheckM α} {k : α → CheckM β} {y : β}
    (h : (m >>= k) ctx = .ok (y, ctx')) : ∃ x ctx₁, m ctx = .ok (x, ctx₁) ∧
      k x ctx₁ = .ok (y, ctx') := by
  have hbind : (m >>= k) ctx = (m ctx).bind fun r => k r.1 r.2 := rfl
  rw [hbind] at h
  cases hm : m ctx with
  | error e =>
    rw [hm] at h
    cases h
  | ok r =>
    rw [hm] at h
    exact ⟨r.1, r.2, rfl, h⟩

section

variable (h : ctx.Shows c outer below ops)
include h

theorem pop_ok {index : Nat} {ty : ValueType} (hpop : pop index ty ctx = .ok (v, ctx')) :
    ∃ rest, ctx' = ctx.withOperands below rest ∧ c.Takes ops [v] rest ∧
      Accepts ctx.options.trusted ty v := by
  obtain ⟨v', ctx₁, hany, hpop⟩ := exists_of_bind hpop
  obtain ⟨u, ctx₂, hoperand, hpop⟩ := exists_of_bind hpop
  cases hpop
  obtain ⟨rest, rfl, htakes⟩ := popAny_ok h hany
  obtain ⟨rfl, haccepts⟩ := operand_ok hoperand
  exact ⟨rest, rfl, htakes, haccepts⟩

theorem popEach_ok {operands : List (ValueType × Nat)}
    {vs : List Value} (hpop : popEach operands ctx = .ok (vs, ctx')) :
    ∃ rest, ctx' = ctx.withOperands below rest ∧ c.Takes ops vs rest ∧
      Forall₂ (fun o v => Accepts ctx.options.trusted o.1 v) operands vs := by
  induction operands generalizing vs ctx' with
  | nil =>
    cases hpop
    exact ⟨ops, h.self_eq, .refl c ops, .nil⟩
  | cons o operands ih =>
    rw [popEach_cons] at hpop
    obtain ⟨later, ctx₁, hlater, hpop⟩ := exists_of_bind hpop
    obtain ⟨v, ctx₂, hfirst, hpop⟩ := exists_of_bind hpop
    cases hpop
    obtain ⟨rest, rfl, htakes, haccepts⟩ := ih hlater
    obtain ⟨rest', rfl, htakes', haccepts'⟩ := pop_ok (h.withOperands rest) hfirst
    exact ⟨rest', rfl, htakes.trans htakes', .cons haccepts' haccepts⟩

theorem push_eq (ty : ValueType) :
    push ty ctx = .ok (⟨ty, ctx.pc⟩, ctx.withOperands below (ops ++ [⟨ty, ctx.pc⟩])) := by
  have heval : push ty ctx =
    .ok (⟨ty, ctx.pc⟩, { ctx with stack := ctx.stack.push ⟨ty, ctx.pc⟩ }) := rfl
  rw [heval, h.stack]
  simp [Context.withOperands, Context.withStack]

end

/-- Values of the given types, pushed by the current instruction. -/
def fresh (ctx : Context) (types : List ValueType) : List Value := types.map (⟨·, ctx.pc⟩)

@[simp] theorem map_ty_fresh (ctx : Context) (types : List ValueType) :
    (fresh ctx types).map Value.ty = types := by
  simp [fresh, Function.comp_def]

@[simp] theorem length_fresh (ctx : Context) (types : List ValueType) :
    (fresh ctx types).length = types.length := by
  simp [fresh]

theorem pushAll_eq (h : ctx.Shows c outer below ops) (types : List ValueType) :
    pushAll types ctx = .ok (fresh ctx types, ctx.withOperands below (ops ++ fresh ctx types)) := by
  induction types generalizing ctx ops with
  | nil =>
    rw [pushAll_nil]
    show Except.ok ([], ctx) = _
    simp [fresh, ← h.self_eq]
  | cons ty types ih =>
    have hcons : pushAll (ty :: types) ctx = (push ty ctx).bind fun r =>
        (pushAll types r.2).bind fun r' => .ok (r.1 :: r'.1, r'.2) := by
      rw [pushAll_cons]
      rfl
    rw [hcons, push_eq h]
    simp only [Except.bind]
    rw [ih (h.withOperands _), List.append_assoc]
    rfl

theorem pushMergeValues_eq (h : ctx.Shows c outer below ops) (types : List ValueType) :
    pushMergeValues types ctx = .ok ((), ctx.withOperands below (types.map (⟨·, c.pc⟩))) := by
  have heval : pushMergeValues types ctx = .ok ((), { ctx.truncate ctx.current.stackDepth with
      stack := (ctx.truncate ctx.current.stackDepth).stack ++
        types.map fun ty => Value.mk ty ctx.current.pc }) := rfl
  rw [heval, h.current, h.truncate]
  simp [Context.withOperands, Context.withStack]

theorem firstMismatch?_eq_none {found expected : List ValueType}
    (h : found.length = expected.length) (hnone : firstMismatch? found expected = none) :
    Forall₂ (fun want have_ => have_.isSubtypeOf want = true) expected found := by
  rw [firstMismatch?, Option.map_eq_none_iff, find?_eq_none] at hnone
  refine forall₂_iff_get.2 ⟨h.symm, fun i hi hi' => ?_⟩
  have hmem : ((found.get ⟨i, hi'⟩, expected.get ⟨i, hi⟩), i) ∈ (found.zip expected).zipIdx := by
    rw [mem_zipIdx_iff_getElem?]
    simp [hi, hi']
  simpa using hnone _ hmem

theorem run_mergeTypes (types : List ValueType) (what : String) (ctx : Context) :
    mergeTypes types what ctx = (if ctx.options.trusted then pure () else
      match firstMismatch? ((ctx.stack.extract (ctx.stack.size - types.length)
        ctx.stack.size).toList.map Value.ty) types with
      | some (i, want, found) => fault (.mergeType what i want found)
      | none => pure () : CheckM Unit) ctx :=
  rfl

section

variable (h : ctx.Shows c outer below ops) {types : List ValueType}
include h

section

variable (hlength : types.length ≤ ops.length) (hmerge : mergeTypes types what ctx = .ok (u, ctx'))
include hlength hmerge

/-- The topmost operands are compared with the expected types, except in trusted mode. -/
theorem mergeTypes_fits : ctx' = ctx ∧ (ctx.options.trusted = true ∨
      Forall₂ (fun ty v => v.ty.isSubtypeOf ty = true)
        types (ops.drop (ops.length - types.length))) := by
  have htop : (ctx.stack.extract (ctx.stack.size - types.length) ctx.stack.size).toList =
      ops.drop (ops.length - types.length) := by
    have hsub : below.length + ops.length - types.length =
        below.length + (ops.length - types.length) := by omega
    simp only [h.stack, extract_toArray, size_toArray, length_append, hsub, extract_eq_drop_take']
    rw [take_of_length_le (Nat.le_of_eq length_append), drop_append,
      drop_eq_nil_of_le (by omega), nil_append, Nat.add_sub_cancel_left]
  have hlen : (ops.drop (ops.length - types.length)).length = types.length := by
    rw [length_drop]
    omega
  rw [run_mergeTypes, htop] at hmerge
  split at hmerge
  next htrusted =>
    cases hmerge
    exact ⟨rfl, .inl htrusted⟩
  next =>
    rcases hfirst : firstMismatch? ((ops.drop (ops.length - types.length)).map Value.ty) types with
      _ | ⟨i, want, found⟩ <;> rw [hfirst] at hmerge <;> cases hmerge
    have hall := firstMismatch?_eq_none (by simpa using hlen) hfirst
    rw [forall₂_map_right_iff] at hall
    exact ⟨rfl, .inr hall⟩

theorem mergeTypes_ok : ctx' = ctx ∧ Forall₂ (fun ty v => Accepts ctx.options.trusted ty v) types
      (ops.drop (ops.length - types.length)) := by
  obtain ⟨rfl, htrusted | hall⟩ := mergeTypes_fits h hlength hmerge
  · refine ⟨rfl, forall₂_iff_get.2 ⟨?_, fun i _ _ => .inl htrusted⟩⟩
    rw [length_drop]
    omega
  · exact ⟨rfl, hall.imp fun _ _ hsub => .inr (.inr hsub)⟩

end

theorem unreachableMerge_ok
    {conditional : Bool} (hmerge : unreachableMerge types conditional ctx = .ok (u, ctx')) :
    ∃ taken rest, ctx' = ctx.withOperands below (rest ++ fresh ctx types) ∧
      c.Takes ops taken rest ∧ taken.length = types.length := by
  obtain ⟨taken, ctx₁, hpop, hmerge⟩ := exists_of_bind hmerge
  rw [popTypes_eq_popEach] at hpop
  obtain ⟨rest, rfl, htakes, haccepts⟩ := popEach_ok h hpop
  obtain ⟨vs, ctx₂, hpush, hmerge⟩ := exists_of_bind hmerge
  rw [pushAll_eq (h.withOperands rest)] at hpush
  cases hpush
  cases hmerge
  refine ⟨taken, rest, rfl, htakes, ?_⟩
  rw [← haccepts.length_eq, length_zipIdx]

/-- At the end of a construct its operands are its results. In reachable code they were there,
elsewhere they are made. -/
theorem fallthrough_ok (hfall : fallthrough ctx = .ok (u, ctx')) :
    ∃ results, ctx' = ctx.withOperands below results ∧ results.length = c.endMerge.arity ∧
      (c.isReachable = true → results = ops ∧
        Forall₂ (fun ty v => Accepts ctx.options.trusted ty v) c.endMerge.types ops) ∧
      (c.isReachable = false → results = fresh ctx c.endMerge.types) := by
  have heval : fallthrough ctx = (if ctx.current.isReachable then
      if ctx.available ≠ ctx.current.endMerge.arity then
        fault (.fallthroughArity ctx.current.endMerge.arity ctx.current.pc ctx.available)
      else mergeTypes ctx.current.endMerge.types "merge"
    else if ctx.available > ctx.current.endMerge.arity then
      fault (.fallthroughArity ctx.current.endMerge.arity ctx.current.pc ctx.available)
    else unreachableMerge ctx.current.endMerge.types false : CheckM Unit) ctx := rfl
  rw [heval, h.current, h.available] at hfall
  cases hreach : c.isReachable with
  | true =>
    simp only [hreach, if_true] at hfall
    split at hfall
    next => cases hfall
    next harity =>
      have harity : ops.length = c.endMerge.types.length := not_not.1 harity
      obtain ⟨rfl, htypes⟩ := mergeTypes_ok h (Nat.le_of_eq harity.symm) hfall
      refine ⟨ops, h.self_eq, harity, fun _ => ⟨rfl, ?_⟩, nofun⟩
      simpa [harity] using htypes
  | false =>
    simp only [hreach, Bool.false_eq_true, if_false] at hfall
    split at hfall
    next => cases hfall
    next harity =>
      obtain ⟨taken, rest, rfl, htakes, hlength⟩ := unreachableMerge_ok h hfall
      have hrest : rest = [] := by
        rw [← length_eq_zero_iff, htakes.length, hlength]
        exact Nat.sub_eq_zero_of_le (Nat.not_lt.1 harity)
      subst hrest
      exact ⟨_, rfl, length_fresh .., nofun, fun _ => rfl⟩

/-- A branch from reachable code leaves the operands; elsewhere its payload is made. -/
theorem branch_ok {depth : Nat} {conditional answer : Bool}
    (hbranch : branch depth conditional ctx = .ok (answer, ctx')) :
    answer = c.isReachable ∧ ∃ ops', ctx' = ctx.withOperands below ops' ∧
        (c.isReachable = true → ops' = ops ∧ (ctx.controlAt depth).branchMerge.arity ≤ ops.length ∧
        Forall₂ (fun ty v => Accepts ctx.options.trusted ty v)
          (ctx.controlAt depth).branchMerge.types
          (ops.drop (ops.length - (ctx.controlAt depth).branchMerge.arity))) ∧
      (c.isReachable = false → ∃ rest, rest <+: ops ∧
        ops' = rest ++ fresh ctx (ctx.controlAt depth).branchMerge.types) := by
  have heval : branch depth conditional ctx = (if ctx.current.isReachable then
        if (ctx.controlAt depth).branchMerge.types.isEmpty then pure true
        else if ctx.available < (ctx.controlAt depth).branchMerge.types.length then
          fault (.branchArity (ctx.controlAt depth).branchMerge.types.length
            (ctx.controlAt depth).pc ctx.available)
        else do
          mergeTypes (ctx.controlAt depth).branchMerge.types "branch"
          return true
      else do
        unreachableMerge (ctx.controlAt depth).branchMerge.types conditional
        return false : CheckM Bool) ctx := rfl
  rw [heval, h.current, h.available] at hbranch
  cases hreach : c.isReachable with
  | true =>
    simp only [hreach, if_true] at hbranch
    split at hbranch
    next hempty =>
      cases hbranch
      have hnil := List.isEmpty_iff.1 hempty
      refine ⟨rfl, ops, h.self_eq, fun _ => ⟨rfl, ?_, ?_⟩, by rintro ⟨⟩⟩
      · simp [Merge.arity, hnil]
      · simp [Merge.arity, hnil]
    next =>
      split at hbranch
      next => cases hbranch
      next harity =>
        obtain ⟨u, ctx₁, hmerge, hbranch⟩ := exists_of_bind hbranch
        cases hbranch
        obtain ⟨rfl, htypes⟩ := mergeTypes_ok h (Nat.not_lt.1 harity) hmerge
        exact ⟨rfl, ops, h.self_eq, fun _ => ⟨rfl, Nat.not_lt.1 harity, htypes⟩, by rintro ⟨⟩⟩
  | false =>
    simp only [hreach, Bool.false_eq_true, if_false] at hbranch
    obtain ⟨u, ctx₁, hmerge, hbranch⟩ := exists_of_bind hbranch
    cases hbranch
    obtain ⟨taken, rest, rfl, htakes, -⟩ := unreachableMerge_ok h hmerge
    exact ⟨rfl, _, rfl, by rintro ⟨⟩, fun _ => ⟨rest, htakes.kept, rfl⟩⟩

/-- In code that is not unreachable the operands are compared with the folded types. -/
theorem branchTable_ok (htable : branchTable types ctx = .ok (u, ctx')) :
    ∃ ops', ctx' = ctx.withOperands below ops' ∧ ops' <+: ops ∧
      (c.isUnreachable = false → ops' = ops ∧ types.length ≤ ops.length ∧
          (ctx.options.trusted = true ∨ Forall₂ (fun ty v => v.ty.isSubtypeOf ty = true) types
            (ops.drop (ops.length - types.length)))) := by
  have heval : branchTable types ctx = (if !ctx.current.isUnreachable then
      if ctx.available < types.length then fault (.branchTableArity types.length ctx.available)
      else mergeTypes types "br_table"
    else do let _ ← popTypes 1 types : CheckM Unit) ctx := rfl
  rw [heval, h.current, h.available] at htable
  cases hunreachable : c.isUnreachable with
  | false =>
    simp only [hunreachable, Bool.not_false, if_true] at htable
    split at htable
    next => cases htable
    next harity =>
      obtain ⟨rfl, htypes⟩ := mergeTypes_fits h (Nat.not_lt.1 harity) htable
      exact ⟨ops, h.self_eq, prefix_rfl, fun _ => ⟨rfl, Nat.not_lt.1 harity, htypes⟩⟩
  | true =>
    simp only [hunreachable, Bool.not_true, Bool.false_eq_true, if_false] at htable
    obtain ⟨taken, ctx₁, hpop, htable⟩ := exists_of_bind htable
    cases htable
    rw [popTypes_eq_popEach] at hpop
    obtain ⟨rest, rfl, htakes, -⟩ := popEach_ok h hpop
    exact ⟨rest, rfl, htakes.kept, nofun⟩

theorem returnTypes_ok (hreturn : returnTypes ctx = .ok (u, ctx')) :
    ctx' = ctx ∧ ctx.sig.results.length ≤ ops.length := by
  have heval : returnTypes ctx = (if ctx.available < ctx.sig.results.length then
      fault (.returnArity ctx.sig.results.length ctx.available)
    else mergeTypes ctx.sig.results "return" : CheckM Unit) ctx := rfl
  rw [heval, h.available] at hreturn
  split at hreturn
  next => cases hreturn
  next harity =>
    exact ⟨(mergeTypes_fits h (Nat.not_lt.1 harity) hreturn).1, Nat.not_lt.1 harity⟩

end

theorem oneArmedIf_ok (hcheck : oneArmedIf c ctx = .ok (u, ctx')) : ctx' = ctx := by
  rw [Decode.oneArmedIf_apply] at hcheck
  split_ifs at hcheck
  · cases hcheck
  · cases hcheck
    rfl
  · rcases hfirst : firstMismatch? c.startMerge.types c.endMerge.types with _ | ⟨i, want, found⟩ <;>
      rw [hfirst] at hcheck <;> cases hcheck
    rfl

theorem scanTarget_ok {scan scan' : TableScan} {count target entry : Nat}
    (hsize : scan.seen.size = count)
    (hscan : scanTarget scan target entry ctx = .ok (scan', ctx')) :
    ctx' = ctx ∧ scan'.seen.size = count := by
  rw [Decode.scanTarget_apply] at hscan
  have hset : (scan.seen.setIfInBounds target true).size = count := by
    rw [Array.size_setIfInBounds, hsize]
  rcases hseen : scan.seen[target]? with _ | _ | _ <;> simp only [hseen] at hscan
  · cases hscan
  · rcases htypes : scan.types with _ | previous <;> simp only [htypes] at hscan
    · cases hscan
      exact ⟨rfl, hset⟩
    · split_ifs at hscan <;> cases hscan <;> exact ⟨rfl, hset⟩
  · cases hscan
    exact ⟨rfl, hsize⟩

/-- A new construct begins above all operands. -/
theorem pushControl_eq (ctx : Context) (kind : ControlKind) (type : BlockType) :
    ∃ block : Control, pushControl kind type ctx =
        .ok (block, { ctx with control := block :: ctx.control, live := block.isReachable }) ∧
      block.kind = kind ∧ block.stackDepth = ctx.stack.size ∧
      block.startMerge = ⟨type.params, false⟩ ∧ block.endMerge = ⟨type.results, false⟩ ∧
      block.reachability = (match ctx.control with
        | parent :: _ => parent.reachability.inner
        | [] => .reachable) :=
  ⟨_, rfl, rfl, rfl, rfl, rfl, rfl⟩

end Check

theorem Decode.requireTry_ok (h : ctx.Shows c outer below ops)
    (hr : requireTry what ctx = .ok (u, ctx')) : ctx' = ctx ∧ c.isTry = true := by
  rw [requireTry_apply, h.current] at hr
  split_ifs at hr with htry hlast
  · cases hr
  · cases hr
  · cases hr
    exact ⟨rfl, by simpa using htry⟩

end OnePass
