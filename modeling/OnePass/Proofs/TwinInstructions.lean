import OnePass.Proofs.TwinConstructs

/-!
Single instructions in two runs side by side. Each ends in states that are twins again, or both runs
find a fault in it: the same fault if it is live for the second listener.
-/
namespace OnePass

open List

variable {trusted : Bool} {v c : Context} {vs cs : List Control} {g k : Nat → Control → Control}

theorem forall₂_modify {g k : Control → Control}
    (h : Forall₂ Control.Narrows vs cs) (hg : ∀ x y : Control, x.Narrows y → (g x).Narrows (k y))
    (depth : Nat) : Forall₂ Control.Narrows (vs.modify depth g) (cs.modify depth k) := by
  induction h generalizing depth with
  | nil => cases depth <;> exact .nil
  | cons hxy hrest ih =>
    cases depth with
    | zero => exact .cons (hg _ _ hxy) hrest
    | succ depth => exact .cons hxy (ih depth)

theorem forall₂_mapIdx (h : Forall₂ Control.Narrows vs cs)
    (hg : ∀ i (x y : Control), x.Narrows y → (g i x).Narrows (k i y)) :
    Forall₂ Control.Narrows (vs.mapIdx g) (cs.mapIdx k) := by
  induction h generalizing g k with
  | nil => exact .nil
  | cons hxy hrest ih =>
    rw [mapIdx_cons, mapIdx_cons]
    exact .cons (hg 0 _ _ hxy) (ih fun i => hg (i + 1))

theorem Control.heights_markBranch (c : Control) :
    (c.markBranch.stackDepth, c.markBranch.isReachable) = (c.stackDepth, c.isReachable) := by
  unfold Control.markBranch
  split <;> rfl

theorem sameHeights_mapIdx {cs : List Control}
    (hg : ∀ i (x : Control), ((g i x).stackDepth, (g i x).isReachable) =
      (x.stackDepth, x.isReachable)) :
    SameHeights cs (cs.mapIdx g) := by
  induction cs generalizing g with
  | nil => rfl
  | cons x cs ih =>
    rw [mapIdx_cons, SameHeights, map_cons, map_cons, hg]
    exact congrArg _ (ih fun i => hg (i + 1))

theorem sameHeights_modify (cs : List Control) (depth : Nat) :
    SameHeights cs (cs.modify depth Control.markBranch) := by
  induction cs generalizing depth with
  | nil => cases depth <;> rfl
  | cons x cs ih =>
    cases depth with
    | zero => exact congrArg (· :: _) x.heights_markBranch
    | succ depth => exact congrArg ((x.stackDepth, x.isReachable) :: ·) (ih depth)

section

variable (h : Kin trusted v c)
include h

/-- A branch is noted in both runs. -/
theorem Kin.markBranch (depth : Nat) :
    Kin trusted (v.modifyControl depth Control.markBranch)
      (c.modifyControl depth Control.markBranch) :=
  h.recontrol (forall₂_modify h.narrows (fun _ _ hxy => hxy.markBranch) depth)
    (sameHeights_modify c.control depth)

/-- A branch is noted in the first run; it is dead in the second. -/
theorem Kin.markBranch_left (depth : Nat) :
    Kin trusted (v.modifyControl depth Control.markBranch) c := by
  have hn := forall₂_modify (k := id) h.narrows (fun _ _ hxy => hxy.markBranch_left) depth
  rw [modify_id] at hn
  exact h.recontrol hn rfl

theorem Kin.markSeen (seen : Array Bool) :
    Kin trusted (Decode.markSeen seen v) (Decode.markSeen seen c) := by
  refine h.recontrol (forall₂_mapIdx h.narrows fun i x y hxy => ?_)
    (sameHeights_mapIdx fun i x => ?_)
  · split
    · exact hxy.markBranch
    · exact hxy
  · split
    · exact x.heights_markBranch
    · rfl

theorem Kin.markSeen_left (seen : Array Bool) : Kin trusted (Decode.markSeen seen v) c := by
  have hn := forall₂_mapIdx (g := fun i x => if seen[i]?.getD false then x.markBranch else x)
    (k := fun _ => id) h.narrows fun i x y hxy => by
      split
      · exact hxy.markBranch_left
      · exact hxy
  have hid : c.control.mapIdx (fun _ => id) = c.control := by
    rw [mapIdx_eq_iff]
    simp
  rw [hid] at hn
  exact h.recontrol hn rfl

end

theorem Twins.markBranch (h : Twins trusted v c) (depth : Nat) :
    Twins trusted (v.modifyControl depth Control.markBranch)
      (c.modifyControl depth Control.markBranch) :=
  ⟨h.toKin.markBranch depth, h.live.trans (sameHeights_modify v.control depth).head.2.symm,
    h.live'.trans (sameHeights_modify c.control depth).head.2.symm⟩

theorem Twins.markBranch_left (h : Twins trusted v c) (depth : Nat) :
    Twins trusted (v.modifyControl depth Control.markBranch) c :=
  ⟨h.toKin.markBranch_left depth, h.live.trans (sameHeights_modify v.control depth).head.2.symm,
    h.live'⟩

namespace Decode

variable {σ α β γ δ : Type} {b : Backend σ} {live : Prop} {i : Instruction}

namespace Checks

open Check

theorem scanTarget (scan : TableScan) (target entry : Nat) :
    Checks (σ := σ) live trusted Eq (check (scanTarget scan target entry))
      (check (scanTarget scan target entry)) := by
  intro v c h _
  have hdone : ∀ r : TableScan, Mirror (σ := σ) live
      (fun x y v' c' => x = y ∧ Kept trusted v c v' c') (Pure.pure r) (Pure.pure r) v c :=
    fun r => Mirror.pure ⟨rfl, .refl h⟩
  have hfault : ∀ f, Mirror (σ := σ) live
      (fun (x y : TableScan) v' c' => x = y ∧ Kept trusted v c v' c') (check (fault f))
      (check (fault f)) v c :=
    fun f => Mirror.fault (.inl (by rw [h.setting.pc]))
  simp only [Check.scanTarget, check_bind, check_get]
  refine Mirror.get_bind ?_
  rw [(h.controlAt target).label, h.setting.options]
  split
  · exact hfault _
  · exact hdone _
  · split
    · exact hdone _
    · simp only [check_ite]
      exact Mirror.ite .rfl (fun _ => hfault _) fun _ => Mirror.ite .rfl (fun _ => hdone _) fun _ =>
        Mirror.ite .rfl (fun _ => hdone _) fun _ => Mirror.ite .rfl (fun _ => hdone _) fun _ =>
          hfault _

theorem scanTable (table : BranchTable) :
    Checks (σ := σ) live trusted Eq (check (scanTable table)) (check (scanTable table)) := by
  have hfold : ∀ (targets : List (Nat × Nat)) (scan : TableScan), Checks (σ := σ) live trusted Eq
        (check (targets.foldlM (fun scan t => Check.scanTarget scan t.1 t.2) scan))
        (check (targets.foldlM (fun scan t => Check.scanTarget scan t.1 t.2) scan)) := by
    intro targets
    induction targets with
    | nil => exact fun scan => pure rfl
    | cons target targets ih =>
      intro scan
      simp only [foldlM_cons, check_bind]
      refine bind (scanTarget _ _ _) ?_
      rintro scan _ rfl
      exact ih scan
  intro v c h hlive
  simp only [Check.scanTable, check_bind, check_get]
  refine Mirror.get_bind ?_
  rw [Context.controlDepth, Context.controlDepth, h.narrows.length_eq]
  exact hfold _ _ v c h hlive

theorem branchTable (types : List ValueType) :
    Checks (σ := σ) live trusted (fun _ _ => True) (check (branchTable types))
      (check (branchTable types)) := by
  intro v c h hlive
  simp only [Check.branchTable, check_bind, check_get, check_ite]
  refine Mirror.get_bind ?_
  simp only [h.current.unreachable, h.available]
  refine Mirror.ite .rfl (fun _ => ?_) fun _ => ?_
  · exact Mirror.ite .rfl (fun _ => Mirror.fault (.inl (by rw [h.setting.pc]))) fun _ =>
      mergeTypes _ _ v c h hlive
  · exact (bind (popTypes 1 types) fun _ _ _ => pure trivial) v c h hlive

theorem returnTypes :
    Checks (σ := σ) live trusted (fun _ _ => True) (check returnTypes) (check returnTypes) := by
  intro v c h hlive
  simp only [Check.returnTypes, check_bind, check_get, check_ite]
  refine Mirror.get_bind ?_
  simp only [h.setting.sig, h.available]
  exact Mirror.ite .rfl (fun _ => Mirror.fault (.inl (by rw [h.setting.pc]))) fun _ =>
    mergeTypes _ _ v c h hlive

theorem tailCallReturns (sig : Signature) :
    Checks (σ := σ) live trusted (fun _ _ => True) (check (tailCallReturns sig))
      (check (tailCallReturns sig)) := by
  intro v c h _
  simp only [Check.tailCallReturns, check_bind, check_get, check_ite]
  refine Mirror.get_bind ?_
  simp only [h.setting.sig, h.setting.options]
  exact Mirror.ite .rfl (fun _ => Mirror.pure ⟨trivial, .refl h⟩) fun _ =>
    Mirror.fault (.inl (by rw [h.setting.pc]))

theorem elementTypes (src dst : ValueType) :
    Checks (σ := σ) live trusted (fun _ _ => True) (check (elementTypes src dst))
      (check (elementTypes src dst)) := by
  intro v c h _
  simp only [Check.elementTypes, check_bind, check_get, check_ite]
  refine Mirror.get_bind ?_
  simp only [h.setting.options]
  exact Mirror.ite .rfl (fun _ => Mirror.pure ⟨trivial, .refl h⟩) fun _ =>
    Mirror.fault (.inl (by rw [h.setting.pc, h.opcode]))

theorem requires {shape : Shape} (h : i.shape? = some shape) :
    Checks (σ := σ) live trusted (fun _ _ => True) (check shape.requires)
      (check shape.requires) := by
  obtain heq | ⟨sig, heq⟩ | ⟨src, dst, heq⟩ := i.requires_cases h <;> rw [heq]
  · exact pure trivial
  · exact tailCallReturns sig
  · exact elementTypes src dst

end Checks

/-- The states before an instruction, which is live for the second listener if `p` holds. -/
structure Paired (p : Prop) (trusted : Bool) (v c : Context) : Prop extends Twins trusted v c where
  reach : p ↔ c.current.isReachable = true

theorem Kept.paired {v' c' : Context} (kept : Kept trusted v c v' c')
    (h : Paired live trusted v c) : Paired live trusted v' c' :=
  ⟨kept.twins h.toTwins, kept.current_eq.2 ▸ h.reach⟩

/-- In the states after an instruction both runs go on, or both have closed the body. -/
def Joined (trusted : Bool) (_ _ : Unit) (v c : Context) : Prop := Twins trusted v c ∨ Ended v c

namespace Paired

variable {rel : α → β → Prop} {post : γ → δ → Context → Context → Prop}

theorem check (h : Paired live trusted v c) {m : LoggedM Unit α}
    {m' : LoggedM σ β} (hm : Checks live trusted rel m m')
    {k : α → LoggedM Unit γ} {k' : β → LoggedM σ δ}
    (hk : ∀ x y v c, rel x y → Paired live trusted v c → Mirror live post (k x) (k' y) v c) :
    Mirror live post (m >>= k) (m' >>= k') v c :=
  (hm v c h.toKin h.reach).bind fun x y _ _ ⟨hrel, kept⟩ => hk x y _ _ hrel (Kept.paired kept h)

variable {ev ec : Event}

theorem report (h : Paired live trusted v c) (hb : b.Calm) (he : live → ec.bare = ev.bare) :
    Mirror live (Joined trusted) (report Backend.validator.logged ev) (report b.logged ec) v c :=
  (Mirror.report hb h.toTwins fun hr => he (h.reach.2 hr)).mono fun _ _ _ _ => .inl

theorem endControl (h : Outer trusted v c) (hl : c.live = true → v.live = true) (hb : b.Calm) :
    Mirror live (Joined trusted) (endControl Backend.validator.logged) (endControl b.logged) v c :=
  (Mirror.endControl hb h hl).mono fun _ _ _ _ hpost => .inl hpost.1

section

variable (h : Paired live trusted v c)
include h

section

variable (hb : b.Calm)
include hb

/-- An instruction that ends in a report and leaves the rest of its construct unreachable. -/
theorem leave (he : live → ec.bare = ev.bare) (hplain : ec.isAccess = false) :
    Mirror live (Joined trusted)
      (do Decode.report Backend.validator.logged ev; Decode.endControl Backend.validator.logged)
      (do Decode.report b.logged ec; Decode.endControl b.logged) v c :=
  Mirror.reportThen hb h.setting.pc h.reports (fun hl => he (h.reach.2 (h.live' ▸ hl))) hplain
    (endControl h.toOuter h.reports hb)

section

variable (halign : v.current.isReachable = true → Aligned v c) (depth : Nat)
include halign

theorem br : Mirror live (Joined trusted) (br Backend.validator.logged depth)
    (br b.logged depth) v c := by
  refine (Checks.branch h.toKin h.reach halign depth false).bind ?_
  rintro x y v₁ c₁ ⟨rfl, rfl, kept⟩
  have h₁ := Kept.paired kept h
  by_cases hc : c.current.isReachable = true
  · rw [if_pos hc, if_pos (h.current.reachable hc)]
    refine Mirror.reportThen hb h₁.setting.pc h₁.reports (fun _ => rfl) rfl (Mirror.modify_bind ?_)
    exact endControl (h₁.toKin.markBranch depth).toOuter h₁.reports hb
  · rw [if_neg hc]
    split
    · exact Mirror.report_left (Mirror.modify_left
        (endControl (h₁.toKin.markBranch_left depth).toOuter h₁.reports hb))
    · exact endControl h₁.toOuter h₁.reports hb

theorem brIf :
    Mirror live (Joined trusted) (brIf Backend.validator.logged depth)
      (brIf b.logged depth) v c := by
  refine (Mirror.aligned (Checks.pop 0 .i32 v c h.toKin h.reach) h.setting halign
    (fun env => tracks_pop 0 .i32) fun env => tracks_pop 0 .i32).bind ?_
  rintro cond cond' v₁ c₁ ⟨⟨hcond, kept⟩, halign₁⟩
  have h₁ := Kept.paired kept h
  refine (Checks.branch h₁.toKin h₁.reach (kept.current_eq.1 ▸ halign₁) depth true).bind ?_
  rintro x y v₂ c₂ ⟨rfl, rfl, kept₂⟩
  have h₂ := Kept.paired kept₂ h₁
  by_cases hc : c₁.current.isReachable = true
  · rw [if_pos hc, if_pos (h₁.current.reachable hc)]
    refine Mirror.reportThen hb h₂.setting.pc h₂.reports (fun _ => ?_) rfl
      (Mirror.of_modify (.inl (h₂.toTwins.markBranch depth)))
    rw [hcond.1 (h₁.reach.2 hc)]
  · rw [if_neg hc]
    split
    · exact Mirror.report_left fun _ _ hs => .ok (.inl (h₂.toTwins.markBranch_left depth)) hs
    · exact Mirror.pure (.inl h₂.toTwins)

end

theorem brTable (table : BranchTable) :
    Mirror live (Joined trusted) (brTable Backend.validator.logged table)
      (brTable b.logged table) v c := by
  refine h.check (.pop 0 .i32) fun key key' v₁ c₁ hkey h₁ => ?_
  refine h₁.check (.scanTable table) ?_
  rintro scan _ v₂ c₂ rfl h₂
  refine h₂.check (.branchTable _) fun _ _ v₃ c₃ _ h₃ => Mirror.get_bind ?_
  by_cases hc : c₃.live = true
  · rw [if_pos hc, if_pos (h₃.reports hc)]
    have hbare : (Event.brTable table key').bare = (Event.brTable table key).bare := by
      rw [hkey.1 (h₃.reach.2 (h₃.live' ▸ hc))]
    refine Mirror.told hb h₃.setting.pc hbare (Mirror.modify_bind ?_)
      fun haccess => by cases haccess
    exact endControl (h₃.toKin.markSeen scan.seen).toOuter h₃.reports hb
  · rw [if_neg hc]
    split
    · exact Mirror.told_left (Mirror.modify_left
        (endControl (h₃.toKin.markSeen_left scan.seen).toOuter h₃.reports hb))
    · exact endControl h₃.toOuter h₃.reports hb

/-- In code that is live for the first listener only the results are compared in one run and popped
in the other. -/
theorem ret (halign : v.current.isReachable = true → Aligned v c)
    (hresults : .bottom ∉ v.sig.results) :
    Mirror live (Joined trusted) (ret Backend.validator.logged) (ret b.logged) v c := by
  refine Mirror.get_bind ?_
  by_cases hc : c.live = true
  · rw [if_pos hc, if_pos (h.reports hc)]
    refine h.check .returnTypes fun _ _ v₁ c₁ _ h₁ => ?_
    exact Mirror.told hb h₁.setting.pc rfl (endControl h₁.toOuter h₁.reports hb)
      fun haccess => by cases haccess
  · rw [if_neg hc]
    split
    next hv =>
      obtain ⟨f, fs, hfv, hfc⟩ := halign (h.live ▸ hv)
      have hdead : ¬ live := by
        rw [h.reach, ← h.live']
        exact hc
      have henv : TypeEnv.ofFrames c.options c.sig.results (f :: fs) =
          .ofFrames v.options v.sig.results (f :: fs) := by rw [h.setting.options, h.setting.sig]
      have hcases := (tracks_returnTypes hresults).check_cases hfv rfl (hfv.live hv f rfl)
      have hcases' := (tracks_popTypes 0 (TypeEnv.ofFrames v.options v.sig.results
        (f :: fs)).results).check_cases hfc henv trivial
      have hverdict : (∃ r, Check.returnTypes v = .ok r) ↔ ∃ r,
          Check.popArgs c.sig.results c = .ok r := by
        rw [h.setting.sig]
        obtain ⟨x, v₁, y, f₁, hr, ha, -⟩ | ⟨e, hr, ha⟩ := hcases <;>
          obtain ⟨x', c₁, y', f₂, hr', ha', -⟩ | ⟨e', hr', ha'⟩ := hcases' <;>
          rw [FrameM.bind_apply, ha'] at ha
        · exact ⟨fun _ => ⟨_, hr'⟩, fun _ => ⟨_, hr⟩⟩
        · cases ha
        · rw [Option.bind_some, Frame.pushTypes_eq] at ha
          cases ha
        · have hr' : Check.popArgs v.sig.results c = .error e' := hr'
          rw [hr, hr']
          exact ⟨fun ⟨_, h⟩ => (by cases h), fun ⟨_, h⟩ => (by cases h)⟩
      refine (Mirror.of_stays h.toOuter hdead (.returnTypes v) (.popTypes 0 _ c) hverdict).bind ?_
      rintro _ _ v₁ c₁ ⟨⟨ho, -, -, hlv, hlc⟩, -⟩
      refine Mirror.told_left (endControl ho ?_ hb)
      rw [hlv, hlc]
      exact h.reports
    next =>
      rw [h.setting.sig]
      exact h.check (.popTypes 0 _) fun _ _ v₁ c₁ _ h₁ => endControl h₁.toOuter h₁.reports hb

theorem rethrow (depth : Nat) :
    Mirror live (Joined trusted) (rethrow Backend.validator.logged depth)
      (rethrow b.logged depth) v c := by
  have hn := h.controlAt depth
  refine Mirror.get_bind (Mirror.when_fault (by rw [hn.kind]) h.setting.pc fun _ => ?_)
  exact h.leave hb (fun _ => congrArg Event.rethrow hn.bare) rfl

theorem select : Mirror live (Joined trusted) (select Backend.validator.logged)
    (select b.logged) v c := by
  refine h.check (.pop 2 .i32) fun cond cond' v₁ c₁ hcond h₁ => ?_
  refine h₁.check (.popAny 1) fun x x' v₂ c₂ hx h₂ => ?_
  refine h₂.check (.popAs 0 (fun hl => by rw [hx.1 hl]) hx.2) fun y y' v₃ c₃ hy h₃ => ?_
  have hty : trusted = false → (if y.ty = .bottom then x.ty else y.ty) =
      if y'.ty = .bottom then x'.ty else y'.ty := fun ht => by rw [hx.2 ht, hy.2 ht]
  refine Mirror.get_bind (Mirror.when_fault ?_ h₃.setting.pc fun _ => ?_)
  · rw [h₃.setting.options, h₃.mode]
    cases trusted with
    | true => simp
    | false => rw [hty rfl]
  refine h₃.check (.push (fun hl => by rw [hx.1 hl, hy.1 hl]) hty) fun r r' v₄ c₄ hr h₄ => ?_
  exact h₄.report hb fun hl => by rw [hcond.1 hl, hx.1 hl, hy.1 hl, hr hl]

theorem refIsNull :
    Mirror live (Joined trusted) (refIsNull Backend.validator.logged) (refIsNull b.logged) v c := by
  refine h.check (.popAny 0) fun x x' v₁ c₁ hx h₁ => Mirror.get_bind (Mirror.ite ?_ (fun _ => ?_)
    fun _ => h₁.check (.push (fun _ => rfl) fun _ => rfl) fun r r' v₂ c₂ hr h₂ =>
      h₂.report hb fun hl => by rw [hx.1 hl, hr hl])
  · rw [h₁.setting.options, h₁.mode]
    cases trusted with
    | true => simp
    | false => rw [hx.2 rfl]
  · refine Mirror.fault_bind ?_
    by_cases hl : live
    · exact .inl (by rw [hx.1 hl, h₁.setting.reader, h₁.setting.pc])
    · exact .inr ⟨hl, h₁.setting.pc.symm, .inr (.inr rfl), .inr (.inr rfl)⟩

end

end

theorem isAccess_of_exits {shape : Shape} (h : i.shape? = some shape)
    (hexits : shape.exits = true) (args results : List Value) :
    (shape.event args results).isAccess = false := by
  cases i <;> cases h <;> first | rfl | cases hexits

/-- An instruction that takes operands and leaves results. -/
theorem shape (h : Paired live trusted v c) (hb : b.Calm) {shape : Shape}
    (hshape : i.shape? = some shape) :
    Mirror live (Joined trusted) (instruction Backend.validator.logged i)
      (instruction b.logged i) v c := by
  rw [instruction_eq_shape _ hshape, instruction_eq_shape _ hshape]
  simp only [Shape.check, check_bind, check_pure, bind_assoc, pure_bind]
  refine h.check (.requires hshape) fun _ _ _ _ _ h => h.check (.popEach _) fun xs ys _ _ hxy h =>
    h.check (.pushAll _) fun rs _ _ _ hr h => ?_
  subst hr
  have hevent : live → (shape.event ys rs).bare = (shape.event xs rs).bare :=
    fun hl => by rw [hxy hl]
  cases hexits : shape.exits with
  | false =>
    refine (h.report hb hevent).bind fun _ _ _ _ hjoined => ?_
    exact Mirror.pure hjoined
  | true => exact h.leave hb hevent (isAccess_of_exits hshape hexits _ _)

/-- Whatever the instruction is, both runs go on alike, or find a fault in it. -/
theorem instruction (h : Paired live trusted v c) (hb : b.Calm)
    (halign : v.current.isReachable = true → Aligned v c) (hresults : .bottom ∉ v.sig.results)
    (i : Instruction) :
    Mirror live (Joined trusted) (instruction Backend.validator.logged i)
      (instruction b.logged i) v c := by
  have hopen : ∀ kind type (e : Control → Event), (∀ x y : Control, y.bare = x.bare →
      (e y).bare = (e x).bare) → (∀ y, (e y).isAccess = false) →
      Mirror live (Joined trusted) (openBlock Backend.validator.logged kind type e)
        (openBlock b.logged kind type e) v c :=
    fun kind type e he hplain => (Mirror.openBlock hb h.toKin h.reach kind type
      (fun x y hxy _ => he x y hxy) hplain).mono fun _ _ _ _ => .inl
  cases hshape : i.shape? with
  | some shape => exact h.shape hb hshape
  | none =>
    cases i
    all_goals simp only [Instruction.shape?, reduceCtorEq] at hshape
    case nop => exact Mirror.pure (.inl h.toTwins)
    case block => exact hopen _ _ _ (fun _ _ hxy => congrArg Event.block hxy) fun _ => rfl
    case loop => exact hopen _ _ _ (fun _ _ hxy => congrArg Event.loop hxy) fun _ => rfl
    case tryBlock => exact hopen _ _ _ (fun _ _ hxy => congrArg Event.tryBlock hxy) fun _ => rfl
    case ifThen type => exact (Mirror.openIf hb h.toKin h.reach type).mono fun _ _ _ _ => .inl
    case elseArm => exact (Mirror.elseArm hb h.toTwins h.reach halign).mono fun _ _ _ _ => .inl
    case endBlock => exact Mirror.endBlock hb h.toTwins h.reach halign
    case catchTag tag params =>
      rw [instruction_catchTag, instruction_catchTag]
      refine .mono (Mirror.handler hb h.toKin h.reach halign _ (by decide) _ ?_ fun _ _ => rfl)
        fun _ _ _ _ => .inl
      exact fun values hxy => congrArg (Event.catchTag tag · values) hxy
    case catchAll =>
      rw [instruction_catchAll, instruction_catchAll]
      refine .mono (Mirror.handler hb h.toKin h.reach halign _ (by decide) _ ?_ fun _ _ => rfl)
        fun _ _ _ _ => .inl
      exact fun _ hxy => congrArg Event.catchAll hxy
    case rethrow depth => exact h.rethrow hb depth
    case br depth => exact h.br hb halign depth
    case brIf depth => exact h.brIf hb halign depth
    case brTable table => exact h.brTable hb table
    case ret => exact h.ret hb halign hresults
    case select => exact h.select hb
    case refIsNull => exact h.refIsNull hb

end Paired

end Decode

end OnePass
