import OnePass.Proofs.OutlineOperands

/-!
Branches follow the frames. The scan of a branch table notes which depths it saw and skips them when
they come again; the fold over all targets does not, and joining a target twice changes nothing.
-/
namespace OnePass

open List

namespace ValueType

theorem commonSubtype_self (a : ValueType) : commonSubtype a a = a := by
  simp [commonSubtype, isSubtypeOf_refl]

theorem commonSubtype_self_right (a b : ValueType) :
    commonSubtype (commonSubtype a b) b = commonSubtype a b := by
  grind [commonSubtype, isSubtypeOf]

theorem commonSubtype_absorb {a b : ValueType} (h : commonSubtype a b = a) (c : ValueType) :
    commonSubtype (commonSubtype a c) b = commonSubtype a c := by
  grind [commonSubtype, isSubtypeOf]

theorem zipWith_commonSubtype_self_right (xs ys : List ValueType) :
    zipWith commonSubtype (zipWith commonSubtype xs ys) ys = zipWith commonSubtype xs ys := by
  induction xs generalizing ys with
  | nil => rfl
  | cons x xs ih =>
    cases ys with
    | nil => rfl
    | cons y ys => simp [commonSubtype_self_right, ih]

theorem zipWith_commonSubtype_absorb {xs ys : List ValueType}
    (h : zipWith commonSubtype xs ys = xs) (zs : List ValueType) :
    zipWith commonSubtype (zipWith commonSubtype xs zs) ys = zipWith commonSubtype xs zs := by
  induction xs generalizing ys zs with
  | nil => rfl
  | cons x xs ih =>
    cases ys with
    | nil => cases h
    | cons y ys =>
      cases zs with
      | nil => rfl
      | cons z zs =>
        obtain ⟨hx, hxs⟩ := List.cons.inj h
        simp [commonSubtype_absorb hx, ih hxs]

end ValueType

namespace TypeEnv

variable {env : TypeEnv} {types types' : Option (List ValueType)} {target depth : Nat}
  {previous label new other : List ValueType}

theorem meet_self (label : List ValueType) : env.meet label label = some label := by
  have hself : zipWith ValueType.commonSubtype label label = label := by
    rw [zipWith_self]
    simp [ValueType.commonSubtype_self]
  simp only [meet, hself]
  simp

theorem meet_idem (h : env.meet previous label = some new) : env.meet new label = some new := by
  have hself := ValueType.zipWith_commonSubtype_self_right previous label
  grind [meet]

theorem meet_absorb
    (hlabel : env.meet previous label = some previous) (h : env.meet previous other = some new) :
    env.meet new label = some new := by
  have habsorb := @ValueType.zipWith_commonSubtype_absorb previous label
  grind [meet]

/-- Joining a target a second time changes nothing. -/
theorem joinLabel_self (h : env.joinLabel types target = some types') :
    env.joinLabel types' target = some types' := by
  cases hlabel : env.labels[target]? with
  | none => simp [joinLabel, hlabel] at h
  | some label =>
    cases types with
    | none =>
      simp only [joinLabel, hlabel, Option.some.injEq] at h
      simp [joinLabel, hlabel, ← h, meet_self]
    | some previous =>
      simp only [joinLabel, hlabel, Option.map_eq_some_iff] at h
      obtain ⟨new, hnew, rfl⟩ := h
      simp [joinLabel, hlabel, meet_idem hnew]

/-- What was joined before is still joined. -/
theorem joinLabel_absorb (hdepth : env.joinLabel types depth = some types)
    (h : env.joinLabel types target = some types') : env.joinLabel types' depth = some types' := by
  cases hlabel : env.labels[depth]? with
  | none => simp [joinLabel, hlabel] at hdepth
  | some label =>
    cases types with
    | none => simp [joinLabel, hlabel] at hdepth
    | some previous =>
      have hmeet : env.meet previous label = some previous := by
        simpa [joinLabel, hlabel] using hdepth
      cases hother : env.labels[target]? with
      | none => simp [joinLabel, hother] at h
      | some other =>
        simp only [joinLabel, hother, Option.map_eq_some_iff] at h
        obtain ⟨new, hnew, rfl⟩ := h
        simp [joinLabel, hlabel, meet_absorb hmeet hnew]

end TypeEnv

theorem Framed.label_clean {trusted : Bool} {stack : List ValueType} {cs : List Control}
    {fs : List Frame} (h : Framed trusted stack cs fs) (depth : Nat) :
    .bottom ∉ (fs.map Frame.labelTypes).getD depth [] := by
  induction h generalizing depth with
  | nil => simp
  | @cons _ _ _ _ f _ _ _ clean _ _ ih =>
    cases depth with
    | zero =>
      rw [map_cons, getD_cons_zero, Frame.labelTypes]
      split
      · exact clean.params
      · exact clean.results
    | succ depth => exact ih depth

namespace Matches

variable {ctx : Context} {f : Frame} {fs : List Frame}

section

variable (hm : Matches ctx (f :: fs))
include hm

/-- Everything above the construct's own height goes. -/
theorem types_truncate :
    (ctx.truncate ctx.current.stackDepth).types = ctx.types.drop f.operands.length := by
  have hlength : ctx.stack.size - f.operands.length = ctx.current.stackDepth := by
    have havailable := hm.available
    have hdepth := hm.stackDepth_le
    unfold Context.available at havailable
    omega
  rw [Context.types, Context.types, drop_reverse]
  simp [Context.truncate, hlength, map_take]

theorem truncate : Matches (ctx.truncate ctx.current.stackDepth)
    ({ f with operands := [] } :: fs) :=
  hm.replaceOperands [] rfl rfl rfl (fun _ h => hm.types_truncate.trans h)
    ⟨rfl, fun _ => rfl⟩ fun _ _ => not_mem_nil

/-- The construct becomes unreachable. -/
theorem close :
    Matches { ctx.modifyCurrent fun c => { c with reachability := .unreachable } with
      live := false } ({ f with polymorphic := true } :: fs) := by
  obtain ⟨ops, below, c, cs, htypes, hcontrol, outlined, agree, clean, depth, rest⟩ := hm.split
  constructor
  · have hctl : ctx.control.modify 0 (fun c => { c with reachability := .unreachable }) =
        { c with reachability := .unreachable } :: cs := by rw [hcontrol]; rfl
    change Framed _ ctx.types (ctx.control.modify 0 _) _
    rw [hctl, htypes]
    exact .cons ⟨outlined.kind, outlined.params, outlined.results, outlined.pc, rfl⟩ agree
      ⟨clean.params, clean.results, fun _ h => by cases h⟩ depth rest
  · intro h
    cases h

end

end Matches

namespace Decode

open Check

variable {σ : Type} {b : Backend σ} {env : TypeEnv} {pre : Frame → Prop} {ctx : Context}

/-- The depths seen are among the targets joined so far. -/
structure Scanned (env : TypeEnv) (scan : TableScan) : Prop where
  size : scan.seen.size = env.labels.length
  joined : ∀ depth, scan.seen[depth]? = some true → env.joinLabel scan.types depth = some scan.types

theorem scanTarget_apply (scan : TableScan) (target entry : Nat) (ctx : Context) :
    scanTarget scan target entry ctx = (match scan.seen[target]? with
      | none => fault (.badTableEntry entry target)
      | some true => return scan
      | some false =>
        let seen := scan.seen.setIfInBounds target true
        let types := (ctx.controlAt target).branchMerge.types
        match scan.types with
        | none => return ⟨seen, some types⟩
        | some previous =>
          if types.length ≠ previous.length then
            fault (.branchTableEntryArity entry previous.length types.length)
          else if ctx.options.trusted then return ⟨seen, some previous⟩
          else if ctx.options.features.contains .referenceTypes then
            return ⟨seen, some (zipWith ValueType.commonSubtype previous types)⟩
          else if previous = types then return ⟨seen, some previous⟩
          else fault (.branchTableType entry) : CheckM TableScan) ctx := rfl

section

variable (hopt : ctx.options = env.options)
  (hlabels : env.labels = ctx.control.map fun c => c.branchMerge.types)
include hopt hlabels

/-- A target that was seen before is joined already. -/
theorem scanTarget_eq {scan : TableScan} (hscan : Scanned env scan) (target entry : Nat) :
    match env.joinLabel scan.types target with
    | some types => ∃ seen, scanTarget scan target entry ctx = .ok (⟨seen, types⟩, ctx) ∧
        Scanned env ⟨seen, types⟩
    | none => ∃ e, scanTarget scan target entry ctx = .error ⟨ctx.pc, e⟩ := by
  rw [scanTarget_apply]
  cases hseen : scan.seen[target]? with
  | none =>
    have hge : env.labels.length ≤ target := by
      rw [← hscan.size]
      exact Array.getElem?_eq_none_iff.1 hseen
    simp only [TypeEnv.joinLabel, getElem?_eq_none hge]
    exact ⟨_, rfl⟩
  | some seen =>
    cases seen with
    | true =>
      rw [hscan.joined target hseen]
      exact ⟨scan.seen, rfl, hscan⟩
    | false =>
      have hlt : target < env.labels.length := by
        rw [← hscan.size]
        exact (Array.getElem?_eq_some_iff.1 hseen).1
      have hlabel : env.labels[target]? = some (ctx.controlAt target).branchMerge.types := by
        rw [hlabels, length_map] at hlt
        rw [hlabels, getElem?_map, getElem?_eq_getElem hlt, Context.controlAt,
          getD_eq_getElem?_getD, getElem?_eq_getElem hlt]
        rfl
      have hjoined : ∀ types, env.joinLabel scan.types target = some types →
          Scanned env ⟨scan.seen.setIfInBounds target true, types⟩ := by
        intro types hjoin
        refine ⟨by simp [hscan.size], fun depth hdepth => ?_⟩
        by_cases heq : target = depth
        · exact heq ▸ TypeEnv.joinLabel_self hjoin
        · rw [Array.getElem?_setIfInBounds_ne heq] at hdepth
          exact TypeEnv.joinLabel_absorb (hscan.joined depth hdepth) hjoin
      simp only [TypeEnv.joinLabel, hlabel] at hjoined ⊢
      cases htypes : scan.types with
      | none =>
        rw [htypes] at hjoined
        exact ⟨_, rfl, hjoined _ rfl⟩
      | some previous =>
        rw [htypes] at hjoined
        simp only [TypeEnv.meet, ← hopt] at hjoined ⊢
        by_cases hlength : (ctx.controlAt target).branchMerge.types.length ≠ previous.length
        · simp only [if_pos hlength, Option.map_none]
          exact ⟨_, rfl⟩
        simp only [if_neg hlength] at hjoined ⊢
        generalize ctx.options.trusted = trusted at hjoined ⊢
        generalize ctx.options.features.contains .referenceTypes = references at hjoined ⊢
        cases trusted with
        | true => exact ⟨_, rfl, hjoined _ rfl⟩
        | false =>
          cases references with
          | true => exact ⟨_, rfl, hjoined _ rfl⟩
          | false =>
            by_cases heq : previous = (ctx.controlAt target).branchMerge.types
            · simp only [if_pos heq] at hjoined ⊢
              exact ⟨_, rfl, hjoined _ rfl⟩
            · simp only [if_neg heq]
              exact ⟨_, rfl⟩

theorem scanTargets_eq (targets : List Nat) (start : Nat) {scan : TableScan}
    (hscan : Scanned env scan) :
    match targets.foldlM env.joinLabel scan.types with
    | some types => ∃ seen, ((targets.zipIdx start).foldlM
        (fun scan (target, entry) => scanTarget scan target entry) scan : CheckM TableScan) ctx =
          .ok (⟨seen, types⟩, ctx)
    | none => ∃ e, ((targets.zipIdx start).foldlM
        (fun scan (target, entry) => scanTarget scan target entry) scan : CheckM TableScan) ctx =
          .error ⟨ctx.pc, e⟩ := by
  induction targets generalizing start scan with
  | nil => exact ⟨scan.seen, rfl⟩
  | cons target targets ih =>
    have htarget := scanTarget_eq hopt hlabels hscan target start
    have hbind : ((((target :: targets).zipIdx start).foldlM
        (fun scan (target, entry) => scanTarget scan target entry) scan : CheckM TableScan) ctx) =
        (scanTarget scan target start ctx).bind fun p => ((targets.zipIdx (start + 1)).foldlM
          (fun scan (target, entry) => scanTarget scan target entry) p.1 : CheckM TableScan)
            p.2 := by
      rw [zipIdx_cons, foldlM_cons]
      rfl
    rw [foldlM_cons, hbind]
    cases hjoin : env.joinLabel scan.types target with
    | none =>
      rw [hjoin] at htarget
      obtain ⟨e, he⟩ := htarget
      rw [he]
      exact ⟨e, rfl⟩
    | some types =>
      rw [hjoin] at htarget
      obtain ⟨seen, hok, hscan'⟩ := htarget
      rw [hok]
      exact ih (start + 1) hscan'

theorem scanTable_eq (table : BranchTable) : match env.tableTypes table.targets with
    | some types => ∃ scan, scanTable table ctx = .ok (scan, ctx) ∧ scan.types.getD [] = types
    | none => ∃ e, scanTable table ctx = .error ⟨ctx.pc, e⟩ := by
  have hsize : ctx.controlDepth = env.labels.length := by
    rw [hlabels, length_map, Context.controlDepth]
  have hinit : Scanned env ⟨Array.replicate ctx.controlDepth false, none⟩ := by
    refine ⟨by simp [hsize], fun depth hdepth => ?_⟩
    simp [Array.getElem?_replicate] at hdepth
  have heval : scanTable table ctx = (table.targets.zipIdx.foldlM
      (fun scan (target, entry) => scanTarget scan target entry)
      ⟨Array.replicate ctx.controlDepth false, none⟩ : CheckM TableScan) ctx := rfl
  have h := scanTargets_eq hopt hlabels table.targets 0 hinit
  rw [heval, TypeEnv.tableTypes]
  simp only at h
  cases hjoin : table.targets.foldlM env.joinLabel none with
  | none =>
    rw [hjoin] at h
    exact h
  | some types =>
    rw [hjoin] at h
    obtain ⟨seen, hok⟩ := h
    exact ⟨_, hok, rfl⟩

end

theorem tracks_scanTable (table : BranchTable) :
    Tracks (σ := σ) env pre (check (scanTable table)) (liftM (env.tableTypes table.targets))
      fun scan types f => scan.types.getD [] = types ∧ pre f := by
  intro ctx f fs hm henv hpre
  apply Ends.of_check
  have hopt : ctx.options = env.options := by rw [← henv]; rfl
  have hlabels : env.labels = ctx.control.map fun c => c.branchMerge.types := by
    rw [← henv, hm.framed.labels_eq]
    rfl
  have h := scanTable_eq hopt hlabels table
  have hlift : (liftM (env.tableTypes table.targets) : FrameM _) f =
      (env.tableTypes table.targets).map fun types => (types, f) := by
    cases env.tableTypes table.targets <;> rfl
  rw [hlift]
  cases htypes : env.tableTypes table.targets with
  | none =>
    rw [htypes] at h
    obtain ⟨e, he⟩ := h
    rw [he]
    exact rfl
  | some types =>
    rw [htypes] at h
    obtain ⟨scan, hok, heq⟩ := h
    rw [hok]
    exact ⟨⟨heq, hpre⟩, .refl f, hm, .refl ctx⟩

/-- In reachable code the operands of a branch stay, in other code they are popped and pushed. -/
theorem tracks_branch (depth : Nat) (conditional : Bool) :
    Tracks (σ := σ) env (fun _ => True) (check (Check.branch depth conditional))
      (do Frame.popTypes env (env.label depth); Frame.pushTypes (env.label depth))
      fun _ _ _ => True := by
  intro ctx f fs hm henv _ s
  have hclean : .bottom ∉ env.label depth := henv ▸ Framed.label_clean hm.framed depth
  simp only [Check.branch, check_bind, check_get, outcome_get_bind, hm.label,
    henv, hm.available, check_ite]
  split
  next hreach =>
    have hpoly := hm.polymorphic_of_isReachable hreach
    split
    next hempty =>
      rw [List.isEmpty_iff] at hempty
      rw [hempty]
      exact ⟨trivial, .refl f, hm, .refl ctx⟩
    next =>
      split
      next hlt =>
        rw [FrameM.bind_apply, Frame.popTypes_of_short hpoly hlt]
        exact rfl
      next hge =>
        exact (tracks_mergeTypes hclean "branch").andThen
          (fun _ _ => Tracks.pure fun _ _ => trivial) ctx f fs hm henv ⟨hpoly, by omega⟩ s
  next =>
    exact (tracks_unreachableMerge hclean conditional).andThen
      (fun _ _ => Tracks.pure fun _ _ => trivial) ctx f fs hm henv trivial s

/-- The operands of a branch table stay unless the stack is polymorphic. -/
theorem tracks_branchTable (types : List ValueType) :
    Tracks (σ := σ) env (fun _ => True) (check (Check.branchTable types))
      (Frame.branchTable env types) fun _ _ _ => True := by
  intro ctx f fs hm henv _ s
  simp only [Check.branchTable, check_bind, check_get, outcome_get_bind, check_ite, hm.available,
    hm.outlined.unreachable, Frame.branchTable, FrameM.get_bind_apply]
  cases hpoly : f.polymorphic with
  | false =>
    have hgoal : Agreement ctx.pc (fun _ ctx' _ f' => True ∧ f.SameShape f' ∧
        Matches ctx' (f' :: fs) ∧ ctx.SameSetting ctx')
        (outcome (σ := σ) (if f.operands.length < types.length
          then check (fault (.branchTableArity types.length f.operands.length))
          else check (mergeTypes types "br_table")) ctx s)
        (if f.hasOnTop env types then some ((), f) else none) := by
      split
      next hlt =>
        have htop : f.hasOnTop env types = false := by
          simp [Frame.hasOnTop, Nat.not_le.2 hlt]
        rw [htop]
        exact rfl
      next hge =>
        obtain ⟨e, hmerge⟩ := mergeTypes_eq hm henv (Nat.not_lt.1 hge) "br_table"
        rw [outcome_check, hmerge]
        cases f.hasOnTop env types with
        | false => exact rfl
        | true => exact ⟨trivial, .refl f, hm, .refl ctx⟩
    simpa [FrameM.guard_apply] using hgoal
  | true =>
    exact (tracks_popTypes 1 types).andThen (fun _ _ => Tracks.pure fun _ _ => trivial)
      ctx f fs hm henv trivial s

theorem tracks_endControl (hb : b.NeverBails) :
    Tracks env (fun _ => True) (endControl b) Frame.close fun _ _ _ => True := by
  intro ctx f fs hm henv _
  have hm' := hm.truncate
  refine Ends.modify_bind (Ends.get_bind (Ends.report_bind hb ?_ ?_))
  · exact Ends.of_modify ⟨trivial, ⟨rfl, rfl, rfl, rfl⟩, hm'.close, ⟨rfl, rfl, rfl, rfl, rfl, rfl⟩⟩
  · exact Ends.of_modify ⟨trivial, ⟨rfl, rfl, rfl, rfl⟩, hm'.markDead.close,
      ⟨rfl, rfl, rfl, rfl, rfl, rfl⟩⟩

end Decode

end OnePass
