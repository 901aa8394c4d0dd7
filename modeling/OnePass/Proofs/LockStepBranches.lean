import OnePass.Proofs.LockStepEnds
import OnePass.Proofs.TableTypes

/-!
Branches keep the decoder and code generation in step: what the decoder notes of a branch is what
code generation decides about the label.
-/
namespace OnePass

open List

open Lowering

/-- Whether the instruction branches on its topmost operand, so that a test may be left to it. -/
def Instruction.usesTest : Instruction → Bool
  | brIf _ | ifThen _ => true
  | _ => false

variable {i : Instruction}

theorem Instruction.shape?_of_usesTest (h : i.usesTest = true) : i.shape? = none := by
  unfold usesTest at h
  split at h
  · rfl
  · rfl
  · cases h

/-- The outermost construct has the results of the function. -/
theorem Lowering.Mirrors.outermost {R : Regime} {e : Emitter}
    {locals stack results : List ValueType}
    {control : List Control} {ds : List ControlData}
      (h : Mirrors R e locals stack results control ds) :
    ∀ c ∈ control.getLast?, c.branchMerge.types = results := by
  induction h with
  | body hkind hresults =>
    intro c hc
    cases hc
    rw [Control.branchMerge, if_neg (by simp [Control.isLoop, hkind])]
    exact hresults
  | untold _ _ ih | told _ _ _ ih =>
    intro c hc
    rw [getLast?_cons_cons] at hc
    exact ih c hc

/-- The topmost operands are what a branch carries. -/
structure Payload (R : Regime) (ctx : Context) (ops : List Value) (depth : Nat) : Prop where
  inRange : depth < ctx.control.length
  length : (ctx.controlAt depth).branchMerge.types.length ≤ ops.length
  types : R.Agree ((ops.drop (ops.length - (ctx.controlAt depth).branchMerge.types.length)).map
    Value.ty) (ctx.controlAt depth).branchMerge.types

/-! ## Scanning a branch table -/

namespace Check

variable {ctx ctx' : Context} {scan scan' : TableScan} {targets : List Nat}

/-- The types that the operands are compared with. -/
def TableScan.folded (scan : TableScan) : List ValueType := scan.types.getD []

/-- What is known of a table after some of its targets. -/
structure Scanned (ctx : Context) (targets : List Nat) (scan : TableScan) : Prop where
  size : scan.seen.size = ctx.control.length
  seen : ∀ k, scan.seen[k]?.getD false = true ↔ k ∈ targets
  first : scan.types = none → targets = []
  length : ∀ k ∈ targets, (ctx.controlAt k).branchMerge.types.length = scan.folded.length
  below : ctx.options.trusted = false → ∀ k ∈ targets, ∀ found : List ValueType,
    Forall₂ (fun ty x => x.isSubtypeOf ty = true) scan.folded found →
    Forall₂ (fun ty x => x.isSubtypeOf ty = true) (ctx.controlAt k).branchMerge.types found

section

variable (h : Scanned ctx targets scan) {k target : Nat}
include h

theorem Scanned.inRange (hk : k ∈ targets) : k < ctx.control.length := by
  rw [← h.size]
  have hseen := (h.seen k).2 hk
  rcases hget : scan.seen[k]? with _ | b
  · rw [hget] at hseen
    cases hseen
  · exact (Array.getElem?_eq_some_iff.1 hget).1

/-- A target that was seen before. -/
theorem Scanned.again (hseen : target ∈ targets) : Scanned ctx (targets ++ [target]) scan := by
  have hmem : ∀ k, k ∈ targets ++ [target] ↔ k ∈ targets := by
    intro k
    rw [mem_append, mem_singleton, or_iff_left_of_imp]
    rintro rfl
    exact hseen
  refine ⟨h.size, fun k => (h.seen k).trans (hmem k).symm, fun hnone => ?_, fun k hk => ?_,
    fun ht k hk => ?_⟩
  · rw [h.first hnone] at hseen
    cases hseen
  · exact h.length k ((hmem k).1 hk)
  · exact h.below ht k ((hmem k).1 hk)

/-- A new target, whose types are folded into those of the others. -/
theorem Scanned.next {types : List ValueType} (hlt : target < scan.seen.size)
    (hlength : (ctx.controlAt target).branchMerge.types.length = types.length)
    (hlength' : ∀ k ∈ targets, scan.folded.length = types.length)
    (hbelow : ctx.options.trusted = false → ∀ found : List ValueType,
      Forall₂ (fun ty x => x.isSubtypeOf ty = true) types found →
      (targets ≠ [] → Forall₂ (fun ty x => x.isSubtypeOf ty = true) scan.folded found) ∧
      Forall₂ (fun ty x => x.isSubtypeOf ty = true)
        (ctx.controlAt target).branchMerge.types found) :
    Scanned ctx (targets ++ [target]) ⟨scan.seen.setIfInBounds target true, some types⟩ := by
  refine ⟨by rw [Array.size_setIfInBounds]; exact h.size, fun k => ?_, nofun, fun k hk => ?_,
    fun ht k hk found hfound => ?_⟩
  · rw [Array.getElem?_setIfInBounds, mem_append, mem_singleton]
    split
    next heq =>
      subst heq
      simp
    next hne =>
      rw [h.seen k]
      exact ⟨.inl, fun hk => hk.resolve_right fun heq => hne heq.symm⟩
  · rcases mem_append.1 hk with hk | hk
    · exact (h.length k hk).trans (hlength' k hk)
    · rw [mem_singleton.1 hk]
      exact hlength
  · rcases mem_append.1 hk with hk | hk
    · exact h.below ht k hk found ((hbelow ht found hfound).1 (ne_nil_of_mem hk))
    · rw [mem_singleton.1 hk]
      exact (hbelow ht found hfound).2

end

theorem forall₂_commonSubtype {xs ys found : List ValueType} (hlength : ys.length = xs.length)
    (h : Forall₂ (fun ty x => x.isSubtypeOf ty = true) (zipWith ValueType.commonSubtype xs ys)
      found) :
    Forall₂ (fun ty x => x.isSubtypeOf ty = true) xs found ∧
      Forall₂ (fun ty x => x.isSubtypeOf ty = true) ys found := by
  induction xs generalizing ys found with
  | nil =>
    obtain rfl := length_eq_zero_iff.1 hlength
    cases h
    exact ⟨.nil, .nil⟩
  | cons x xs ih =>
    cases ys with
    | nil => cases hlength
    | cons y ys =>
      cases h with
      | cons hhead htail =>
        rw [ValueType.isSubtypeOf_commonSubtype, Bool.and_eq_true] at hhead
        obtain ⟨hxs, hys⟩ := ih (Nat.succ.inj hlength) htail
        exact ⟨.cons hhead.1 hxs, .cons hhead.2 hys⟩

theorem Scanned.target {target entry : Nat} (h : Scanned ctx targets scan)
    (hr : scanTarget scan target entry ctx = .ok (scan', ctx')) :
    ctx' = ctx ∧ Scanned ctx (targets ++ [target]) scan' := by
  rw [Decode.scanTarget_apply] at hr
  rcases hseen : scan.seen[target]? with _ | _ | _ <;> simp only [hseen] at hr
  · cases hr
  · have hlt := (Array.getElem?_eq_some_iff.1 hseen).1
    rcases htypes : scan.types with _ | previous <;> simp only [htypes] at hr
    · cases hr
      have hnil := h.first htypes
      subst hnil
      exact ⟨rfl, h.next hlt rfl nofun fun _ found hfound => ⟨fun hne => (hne rfl).elim, hfound⟩⟩
    · have hfolded : scan.folded = previous := by rw [TableScan.folded, htypes]; rfl
      split_ifs at hr with hlength htrusted href heq
      · cases hr
      · cases hr
        refine ⟨rfl, h.next hlt (not_not.1 hlength) (fun _ _ => by rw [hfolded]) fun ht => ?_⟩
        rw [htrusted] at ht
        cases ht
      · cases hr
        have hlength := not_not.1 hlength
        have hzip : (zipWith ValueType.commonSubtype previous
            (ctx.controlAt target).branchMerge.types).length = previous.length := by
          rw [length_zipWith, hlength, Nat.min_self]
        refine ⟨rfl, h.next hlt (hlength.trans hzip.symm) (fun _ _ => by rw [hfolded, hzip])
          fun _ found hfound => ?_⟩
        obtain ⟨hprevious, htarget⟩ := forall₂_commonSubtype hlength hfound
        exact ⟨fun _ => hfolded ▸ hprevious, htarget⟩
      · cases hr
        exact ⟨rfl, h.next hlt (not_not.1 hlength) (fun _ _ => by rw [hfolded])
          fun _ found hfound => ⟨fun _ => hfolded ▸ hfound, heq ▸ hfound⟩⟩
      · cases hr
  · cases hr
    refine ⟨rfl, h.again ((h.seen target).1 ?_)⟩
    rw [hseen]
    rfl

theorem foldlM_scanned {entries : List (Nat × Nat)} {scan₀ : TableScan}
    (h : Scanned ctx targets scan₀)
    (hr : (entries.foldlM (fun scan (target, entry) => scanTarget scan target entry) scan₀ :
      CheckM TableScan) ctx = .ok (scan, ctx')) :
    ctx' = ctx ∧ Scanned ctx (targets ++ entries.map Prod.fst) scan := by
  induction entries generalizing scan₀ targets with
  | nil =>
    cases hr
    exact ⟨rfl, by simpa using h⟩
  | cons e entries ih =>
    rw [foldlM_cons] at hr
    obtain ⟨scan₁, ctx₁, hfirst, hrest⟩ := exists_of_bind hr
    obtain ⟨rfl, h₁⟩ := h.target hfirst
    have hmore := ih h₁ hrest
    rwa [append_assoc] at hmore

theorem scanTable_scanned {table : BranchTable} (hr : scanTable table ctx = .ok (scan, ctx')) :
    ctx' = ctx ∧ Scanned ctx table.targets scan := by
  have hstart : Scanned ctx [] ⟨Array.replicate ctx.controlDepth false, none⟩ := by
    refine ⟨by simp [Context.controlDepth], fun k => ?_, fun _ => rfl, by simp, by simp⟩
    rw [Array.getElem?_replicate]
    split <;> simp
  have hscan := foldlM_scanned hstart hr
  rwa [nil_append, zipIdx_map_fst] at hscan

end Check

section

variable {R : Regime} {ctx ctx' : Context} {c : Control} {outer : List Control}
  {below ops : List Value} {s s' : Lowering} {ts : List ValueType} {depth : Nat}

theorem Context.getElem?_control (h : depth < ctx.control.length) :
    ctx.control[depth]? = some (ctx.controlAt depth) := by
  rw [Context.controlAt, getD_eq_getElem?_getD, getElem?_eq_getElem h]
  rfl

section

variable (h : Facing R ctx c outer below ops s)
include h

theorem Facing.depth_le (hdepth : depth < ctx.control.length) :
    (ctx.controlAt depth).stackDepth ≤ below.length := by
  have hmem := mem_of_getElem? (Context.getElem?_control hdepth)
  rw [h.shows.control] at hmem
  rcases mem_cons.1 hmem with heq | hmem
  · rw [heq]
    exact Nat.le_of_eq h.shows.depth
  · exact h.inner.depth_le _ hmem

theorem Facing.isReachable_tail (hc : c.isReachable = true) :
    ∀ p ∈ ctx.control.tail, p.isReachable = true := by
  rw [h.shows.control]
  exact h.inner.isReachable (h.layer.reachable hc)

theorem Facing.canBranch (hc : c.isReachable = true)
    (hts : ts.length = ctx.locals.size + (below.length + ops.length))
      (hpayload : Payload R ctx ops depth) :
    CanBranch ctx s.emitter.numLocals s.control.length ts depth := by
  have hlength := h.mirrored.control.length (h.isReachable_tail hc)
  have hdepth := h.depth_le hpayload.inRange
  have hcount := hpayload.length
  refine ⟨hlength.symm, fun hlast => ?_, fun _ => ?_⟩
  · have hindex : depth = ctx.control.length - 1 := by
      have := hpayload.inRange
      omega
    have hresults := h.mirrored.control.outermost (ctx.controlAt depth) (by
      rw [getLast?_eq_getElem?, ← hindex]
      exact Context.getElem?_control hpayload.inRange)
    rw [← hresults]
    omega
  · rw [h.mirrored.locals, Merge.arity]
    omega

/-- Both note the same branches. -/
theorem Facing.mark {p : Nat → Prop} (marked : Nat → Bool) (hc : c.isReachable = true)
    (hslots : R.Agree ts (ctx.locals.toList ++ (below ++ ops).map Value.ty))
    (hpayload : ∀ k, p k → Payload R ctx ops k) (hmarked : ∀ k, marked k = true ↔ p k)
    (hbranched : Branched R ctx s [] ts p s') (hsame : ctx.SameSetting ctx')
    (hstack : ctx'.stack = ctx.stack) (hcontrol : ctx'.control =
      ctx.control.mapIdx fun k c => if marked k then c.markBranch else c) : Mirrored R ctx' s' := by
  obtain ⟨control, hdecides, hat⟩ := hbranched
  have hlater : ∀ l, s.emitter.isBound l = true → s'.emitter.isBound l = true := hat.later.bound
  have hlocals : s.emitter.numLocals = ctx.locals.toList.length := h.mirrored.locals
  refine ⟨?_, ?_⟩
  · rw [hsame.locals]
    exact hat.later.numLocals.trans h.mirrored.locals
  have hoperands : ctx'.operandTypes = (below ++ ops).map Value.ty := by
    rw [Context.operandTypes, hstack, h.shows.stack]
  have hbefore := h.mirrored.control.mono hlater
  rw [h.shows.operandTypes] at hbefore
  rw [hcontrol, hsame.locals, hsame.sig, hoperands, hat.control]
  refine hbefore.decide (h.isReachable_tail hc) hdecides hmarked fun k c' hk hget hlt => ?_
  have hpay := hpayload k hk
  obtain rfl : ctx.controlAt k = c' := by
    have hget' := (Context.getElem?_control hpay.inRange).symm.trans hget
    exact Option.some.inj hget'
  rw [branchTypes, Merge.arity, hlocals]
  refine hslots.merge ?_ ?_
  · have hsize : ((below ++ ops).map Value.ty).length - (ctx.controlAt k).branchMerge.types.length =
        (below.map Value.ty).length +
          (ops.length - (ctx.controlAt k).branchMerge.types.length) := by
      have := hpay.length
      simp only [length_map, length_append]
      omega
    rw [hsize, map_append, drop_length_add_append, ← map_drop]
    exact hpay.types
  · have := hpay.length
    simp only [length_map, length_append]
    omega

/-- The layers of a context with other marks. -/
theorem Facing.of_mark (marked : Nat → Bool)
    (hmirrored : Mirrored R ctx' s') (hsame : ctx.SameSetting ctx')
      (hstack : ctx'.stack = ctx.stack)
    (hcontrol : ctx'.control = ctx.control.mapIdx fun k c => if marked k then c.markBranch else c) :
    ∃ c' outer' below' ops', Facing R ctx' c' outer' below' ops' s' := by
  have hlayers : Layers R.allows ctx'.stack.toList ctx'.control := by
    rw [hstack, hcontrol, h.shows.stack, h.shows.control]
    exact (Layers.cons h.inner h.shows.depth h.layer).map_marks marked
  obtain ⟨outer', below', hbelow, c', ops', hshows, hlayer⟩ := hlayers.inside (by
    rw [hcontrol, h.shows.control]
    simp)
  exact ⟨c', outer', below', ops', h.fits.along hsame, hshows, hlayer, hbelow, hmirrored⟩

end

end

namespace Decode

variable {R : Regime} {ctx : Context} {c : Control} {outer : List Control}
  {below ops : List Value} {s : Lowering} {depth : Nat} {ctx' : Context}

theorem payload_of_accepts (h : Facing R ctx c outer below ops s) (hc : c.isReachable = true)
    (hdepth : depth < ctx.control.length)
    (hlength : (ctx.controlAt depth).branchMerge.types.length ≤ ops.length)
    (haccepts : Forall₂ (fun ty v => Accepts ctx.options.trusted ty v)
      (ctx.controlAt depth).branchMerge.types
      (ops.drop (ops.length - (ctx.controlAt depth).branchMerge.types.length))) :
    Payload R ctx ops depth := by
  have hunreachable := c.not_unreachable hc
  have hlayers : Layers R.allows (below ++ ops) (c :: outer) := .cons h.inner h.shows.depth h.layer
  have hmem := mem_of_getElem? (Context.getElem?_control hdepth)
  rw [h.shows.control] at hmem
  exact ⟨hdepth, hlength, .of_accepts h.fits.full (hlayers.branchMerge _ hmem)
    (fun v hv => h.layer.operands hunreachable v (drop_subset _ _ hv)) haccepts⟩

variable {conditional answer : Bool}

/-- A branch in dead code changes operands only. -/
theorem branch_dead (h : Poised R ctx c outer below ops s) (hdepth : depth < ctx.control.length)
    (hc : c.isReachable = false) (hr : Check.branch depth conditional ctx = .ok (answer, ctx')) :
    answer = false ∧ ∃ ops', Poised R ctx' c outer below ops' s := by
  obtain ⟨hanswer, ops', rfl, -, hdead⟩ := Check.branch_ok h.shows hr
  obtain ⟨rest, hrest, rfl⟩ := hdead hc
  have hlayers : Layers R.allows (below ++ ops) (c :: outer) := .cons h.inner h.shows.depth h.layer
  have hmem := mem_of_getElem? (Context.getElem?_control hdepth)
  rw [h.shows.control] at hmem
  exact ⟨hanswer.trans hc, _, h.withOperands_dead hc ((h.layer.of_prefix hrest).append
    (Guarded.Agrees.mem_fresh (hlayers.branchMerge _ hmem)))⟩

/-- In live code the operands stay, and are what the branch carries. -/
theorem branch_live (h : Facing R ctx c outer below ops s) (hdepth : depth < ctx.control.length)
    (hc : c.isReachable = true) (hr : Check.branch depth conditional ctx = .ok (answer, ctx')) :
    answer = true ∧ ctx' = ctx ∧ Payload R ctx ops depth := by
  obtain ⟨hanswer, ops', hctx', hlive, -⟩ := Check.branch_ok h.shows hr
  obtain ⟨rfl, hlength, haccepts⟩ := hlive hc
  exact ⟨hanswer.trans hc, hctx'.trans h.shows.self_eq.symm,
    payload_of_accepts h hc hdepth hlength haccepts⟩

theorem br_drives (h : Poised R ctx c outer below ops s) (htest : s.pendingTest = none)
    (hdepth : depth < ctx.control.length) :
    Drives R (br .compiler depth) ctx s fun _ => InStep R := by
  refine .check_bind fun answer ctx' hr => ?_
  cases hc : c.isReachable with
  | false =>
    obtain ⟨rfl, ops', h'⟩ := branch_dead h hdepth hc hr
    rw [if_neg Bool.false_ne_true]
    exact endControl_drives h'.toFacing (h'.closes hc).1 htest
  | true =>
    obtain ⟨rfl, rfl, hpayload⟩ := branch_live h.toFacing hdepth hc hr
    obtain ⟨ts, hat, hts, -⟩ := h.slots hc htest
    have hlength : ts.length = ctx'.locals.size + (below.length + ops.length) := by
      rw [hts.length]
      simp
    have hcan := h.toFacing.canBranch hc hlength hpayload
    rw [if_pos rfl]
    refine .bind (Q := fun _ ctx₁ s₁ => ctx₁ = ctx' ∧ Branched R ctx' s [] ts (· = depth) s₁ ∧
      Closes R [] s₁) (Drives.of_report (fun _ => handle_upholds rfl
        ((branch_upholds hat hcan).mono fun _ _ h' => ⟨rfl, h'⟩)) fun hno => ?_) ?_
    · cases (h.live.trans hc).symm.trans hno
    rintro _ ctx s₁ ⟨rfl, hbranched, hcloses⟩
    refine .modify_bind ?_
    have hcontrol := modify_eq_mapIdx ctx.control depth Control.markBranch
    have hsame : ctx.SameSetting (ctx.modifyControl depth Control.markBranch) :=
      ⟨rfl, rfl, rfl, rfl, rfl, rfl⟩
    have hmirrored := h.toFacing.mark (p := (· = depth)) (· == depth) hc hts
      (fun k hk => hk ▸ hpayload) (fun k => beq_iff_eq) hbranched hsame rfl hcontrol
    obtain ⟨c', outer', below', ops', h'⟩ := h.toFacing.of_mark (· == depth) hmirrored
      hsame rfl hcontrol
    refine endControl_drives h' hcloses ?_
    obtain ⟨control, -, hat'⟩ := hbranched
    exact hat'.test.trans htest

/-- Marks leave the innermost construct as reachable as it was. -/
theorem current_mark {marked : Nat → Bool} (h : ctx.Shows c outer below ops)
    (hcontrol : ctx'.control =
      ctx.control.mapIdx fun k c => if marked k then c.markBranch else c) :
    ctx'.current.isReachable = c.isReachable := by
  rw [h.control, mapIdx_cons] at hcontrol
  have hcurrent : ctx'.current = if marked 0 then c.markBranch else c := by
    rw [Context.current, Context.controlAt, hcontrol]
    rfl
  rw [hcurrent]
  split
  · rw [Control.isReachable, c.markBranch_types.2.2.2.2, Control.isReachable]
  · rfl

/-- A test may wait for the condition. -/
theorem brIf_drives (h : Poised R ctx c outer below ops s) (hdepth : depth < ctx.control.length) :
    Drives R (brIf .compiler depth) ctx s fun _ => InStep R := by
  refine .check_bind fun cond _ hr => ?_
  obtain ⟨rest, rfl, htakes, -⟩ := Check.pop_ok h.shows hr
  refine .check_bind fun answer ctx' hr => ?_
  have hlayer := h.layer.of_prefix htakes.kept
  cases hc : c.isReachable with
  | false =>
    obtain ⟨rfl, ops', h'⟩ := branch_dead (h.withOperands_dead hc hlayer) hdepth hc hr
    rw [if_neg Bool.false_ne_true]
    exact .of_pure (h'.settled (h.closes hc).2)
  | true =>
    have h₁ := h.toFacing.withOperands hlayer
    obtain ⟨rfl, rfl, hpayload⟩ := branch_live h₁ hdepth hc hr
    obtain rfl := htakes.exact (c.not_unreachable hc)
    obtain ⟨⟨is, hsound⟩, ts, ps, hts, hps, hslots⟩ := h.stands hc
    rw [← append_assoc, map_append, ← append_assoc] at hslots
    obtain ⟨ts, a, rfl, hslots, -⟩ := hslots.split_last
    have hlength : ts.length = (ctx.withOperands below rest).locals.size +
        (below.length + rest.length) := by
      rw [hslots.length, length_append, length_map, length_append]
      rfl
    have hcan := h₁.canBranch hc hlength hpayload
    rw [if_pos rfl]
    have htold := branchIf_upholds (.refl hsound hts) hps hcan
    refine .bind (Q := fun _ ctx₁ s₁ => ctx₁ = ctx.withOperands below rest ∧
      Branched R (ctx.withOperands below rest) { s with pendingTest := none } [] ts (· = depth) s₁)
      (Drives.of_report (fun _ => handle_upholds rfl (htold.mono fun _ _ h' => ⟨rfl, h'⟩))
        fun hno => ?_) ?_
    · cases (h.live.trans hc).symm.trans hno
    rintro _ _ s₁ ⟨rfl, hbranched⟩
    have hcontrol := modify_eq_mapIdx (ctx.withOperands below rest).control depth Control.markBranch
    have hlater : s.Later { s with pendingTest := none } := (Later.refl _).forget
    have h₂ : Facing R _ c outer below rest { s with pendingTest := none } := h₁.later rfl hlater
    have hsame : (ctx.withOperands below rest).SameSetting
        ((ctx.withOperands below rest).modifyControl depth Control.markBranch) :=
      ⟨rfl, rfl, rfl, rfl, rfl, rfl⟩
    have hmirrored := h₂.mark (p := (· = depth)) (· == depth) hc hslots
      (fun k hk => hk ▸ hpayload) (fun k => beq_iff_eq) hbranched hsame rfl hcontrol
    obtain ⟨control, -, hat⟩ := hbranched
    refine .of_modify (.inl ⟨?_, ⟨hmirrored, ?_, fun _ => ?_, fun hno => ?_⟩, fun hne =>
      (hne hat.test).elim⟩)
    · rw [Context.modifyControl, hcontrol, h₁.shows.control]
      simp
    · exact (h.live.trans (current_mark h₁.shows hcontrol).symm)
    · refine At.standing (s := s₁) hat.here hat.test ?_
      exact hslots
    · cases (h.live.trans hc).symm.trans hno

/-- The operands are what a branch to any of the targets carries. -/
theorem table_payload {targets : List Nat} {scan : Check.TableScan} {u : Unit}
    (h : Facing R ctx c outer below ops s) (hc : c.isUnreachable = false)
    (hscan : Check.Scanned ctx targets scan)
    (hr : Check.branchTable (scan.types.getD []) ctx = .ok (u, ctx')) :
    ∀ k ∈ targets, Payload R ctx ops k := by
  intro k hk
  obtain ⟨_, -, -, hfolded⟩ := Check.branchTable_ok h.shows hr
  obtain ⟨-, hlength, hfits⟩ := hfolded hc
  have hcount : (ctx.controlAt k).branchMerge.types.length = (scan.types.getD []).length :=
    hscan.length k hk
  refine ⟨hscan.inRange hk, hcount ▸ hlength, ?_⟩
  rw [hcount]
  refine .of_subtypes ?_ (fun ty hty => ?_) fun ht => hscan.below (h.fits.full ht) k hk _ ?_
  · rw [length_map, length_drop, hcount]
    omega
  · obtain ⟨v, hv, rfl⟩ := mem_map.1 hty
    exact h.layer.operands hc v (drop_subset _ _ hv)
  · rw [forall₂_map_right_iff]
    refine hfits.resolve_left fun htrusted => ?_
    rw [h.fits.full ht] at htrusted
    cases htrusted

section

variable (h : Poised R ctx c outer below ops s)
include h

section

variable (htest : s.pendingTest = none)
include htest

theorem brTable_drives {table : BranchTable} :
    Drives R (brTable .compiler table) ctx s fun _ => InStep R := by
  refine .check_bind fun key _ hr => ?_
  obtain ⟨rest, rfl, htakes, -⟩ := Check.pop_ok h.shows hr
  have h₁ := h.toFacing.withOperands (h.layer.of_prefix htakes.kept)
  refine .check_bind fun scan _ hr => ?_
  obtain ⟨rfl, hscan⟩ := Check.scanTable_scanned hr
  refine .check_bind fun u _ hr => ?_
  obtain ⟨ops', rfl, hprefix, hsame⟩ := Check.branchTable_ok h₁.shows hr
  have h₂ := h₁.withOperands (h₁.layer.of_prefix hprefix)
  refine .get_bind (.ite (fun hl => ?_) fun hl => ?_)
  · have hc : c.isReachable = true := h.live ▸ hl
    have hunreachable := c.not_unreachable hc
    obtain ⟨rfl, -⟩ := hsame hunreachable
    obtain rfl := htakes.exact hunreachable
    have hpayload := table_payload h₁ hunreachable hscan hr
    obtain ⟨ts, hat, hts, -⟩ := h.slots hc htest
    rw [← append_assoc, map_append, ← append_assoc] at hts
    obtain ⟨ts, a, rfl, hslots, -⟩ := hts.split_last
    have hcan : ∀ k ∈ table.targets, CanBranch (ctx.withOperands below ops') s.emitter.numLocals
        s.control.length ts k := fun k hk => h₁.canBranch hc (by
      rw [hslots.length, length_append, length_map, length_append]
      rfl) (hpayload k hk)
    refine .bind (Q := fun _ ctx₁ s₁ => ctx₁ = ctx.withOperands below ops' ∧
      Branched R (ctx.withOperands below ops') s [] ts (· ∈ table.targets) s₁ ∧ Closes R [] s₁)
      (Drives.of_tell (handle_upholds rfl
        ((branchTable_upholds hat hcan).mono fun _ _ h' => ⟨rfl, h'⟩))) ?_
    rintro _ _ s₁ ⟨rfl, hbranched, hcloses⟩
    refine .modify_bind ?_
    have hmark : (ctx.withOperands below ops').SameSetting
        (markSeen scan.seen (ctx.withOperands below ops')) := ⟨rfl, rfl, rfl, rfl, rfl, rfl⟩
    have hmirrored := h₁.mark (fun k => scan.seen[k]?.getD false) hc hslots hpayload
      hscan.seen hbranched hmark rfl rfl
    obtain ⟨c', outer', below', ops'', h'⟩ := h₁.of_mark
      (fun k => scan.seen[k]?.getD false) hmirrored hmark rfl rfl
    refine endControl_drives h' hcloses ?_
    obtain ⟨control, -, hat'⟩ := hbranched
    exact hat'.test.trans htest
  · have hc : c.isReachable = false := by
      rw [← h.live]
      exact Bool.eq_false_iff.2 hl
    exact endControl_drives h₂ (h.closes hc).1 htest

theorem ret_drives : Drives R (ret .compiler) ctx s fun _ => InStep R := by
  refine .get_bind (.ite (fun hl => ?_) fun hl => ?_)
  · refine .check_bind fun u _ hr => ?_
    obtain ⟨rfl, hlength⟩ := Check.returnTypes_ok h.shows hr
    obtain ⟨ts, hat, hts, -⟩ := h.slots (h.live ▸ hl) htest
    refine .bind (Q := fun _ ctx₁ s₁ => ctx₁ = _ ∧ At R s [] ts s₁ ∧ Closes R [] s₁)
      (Drives.of_tell (handle_upholds rfl ((ret_upholds hat ?_).mono fun _ _ h' => ⟨rfl, h'⟩))) ?_
    · rw [hts.length]
      simp only [length_append, length_map]
      omega
    rintro _ _ s₁ ⟨rfl, hat', hcloses⟩
    exact endControl_drives (h.toFacing.later hat'.control hat'.later)
      hcloses (hat'.test.trans htest)
  · have hc : c.isReachable = false := by
      rw [← h.live]
      simpa using hl
    rw [Check.popArgs, Check.popTypes_eq_popEach]
    refine .check_bind fun args _ hr => ?_
    obtain ⟨rest, rfl, htakes, -⟩ := Check.popEach_ok h.shows hr
    exact endControl_drives (h.toFacing.withOperands (h.layer.of_prefix htakes.kept))
      (h.closes hc).1 htest

/-- In live code exceptions are refused. -/
theorem rethrow_drives : Drives R (rethrow .compiler depth) ctx s fun _ => InStep R := by
  refine .get_bind (.guard fun _ => ?_)
  refine .bind (Q := fun _ ctx' s' => ctx' = ctx ∧ s' = s ∧ c.isReachable = false)
    (Drives.of_report (fun _ => handle_upholds rfl (.of_throw fun _ _ => by decide)) fun hl =>
      ⟨rfl, rfl, h.live ▸ hl⟩) ?_
  rintro _ ctx s ⟨rfl, rfl, hc⟩
  exact endControl_drives h.toFacing (h.closes hc).1 htest

end

/-- Every instruction keeps the decoder and code generation in step. -/
theorem instruction_drives (hnext : s.pendingTest ≠ none → i.usesTest = true)
    (hdecl : i.Declared ctx.module ctx.locals) (htypes : ∀ ty ∈ i.types, R.allows ty)
    (hdepth : ∀ d, i.depth? = some d → d < ctx.control.length) :
    Drives R (instruction .compiler i) ctx s fun _ => InStep R := by
  have htest : i.usesTest = false → s.pendingTest = none := by
    intro hno
    by_contra hne
    rw [hnext hne] at hno
    cases hno
  cases hshape : i.shape? with
  | some shape =>
    refine shape_drives h hshape (htest (Bool.eq_false_iff.2 fun hyes => ?_)) hdecl htypes
    rw [Instruction.shape?_of_usesTest hyes] at hshape
    cases hshape
  | none =>
    cases i with
    | nop => exact .of_pure (h.settled (htest rfl))
    | block type => exact block_drives h (htest rfl) htypes
    | loop type => exact loop_drives h (htest rfl) htypes
    | tryBlock type => exact tryBlock_drives h htypes
    | ifThen type => exact ifThen_drives h htypes
    | elseArm => exact elseArm_drives h (htest rfl)
    | endBlock => exact endBlock_drives h (htest rfl)
    | catchTag tag params => exact handler_drives h (htest rfl) _ htypes _
    | catchAll =>
      rw [instruction_catchAll]
      exact handler_drives h (htest rfl) _ (forall_mem_nil _) _
    | rethrow depth => exact rethrow_drives h (htest rfl)
    | br depth => exact br_drives h (htest rfl) (hdepth depth rfl)
    | brIf depth => exact brIf_drives h (hdepth depth rfl)
    | brTable table => exact brTable_drives h (htest rfl)
    | ret => exact ret_drives h (htest rfl)
    | select => exact select_drives h (htest rfl)
    | refIsNull => exact refIsNull_drives h (htest rfl)
    | _ => cases hshape

end

end Decode

end OnePass
