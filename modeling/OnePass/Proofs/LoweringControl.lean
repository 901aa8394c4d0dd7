import OnePass.Proofs.LoweringEntry

/-!
What code generation does for constructs and branches. A branch may decide where the values of its
target are left; a decision is never revised. At the end of a construct code goes on with the state
that was decided on, or with the current one if nothing branched there.
-/
namespace OnePass

open List

/-- The decision for the construct is as before, or it was open and has been made for values of the
given types. If `p` holds there is one afterwards. -/
structure ControlData.Decides (p : Prop) (types : List ValueType) (d d' : ControlData) : Prop where
  label : d'.label = d.label
  elseArm : d'.elseArm = d.elseArm
  state : (d'.labelState = d.labelState ∧ (p → d.labelState.isSome = true)) ∨
    (p ∧ d.labelState = none ∧ ∃ t, d'.labelState = some t ∧ t.types = types)

/-- The same for each construct. -/
inductive Decides : (Nat → Prop) → (Nat → List ValueType) → List ControlData →
    List ControlData → Prop
  | nil {p : Nat → Prop} {types : Nat → List ValueType} : Decides p types [] []
  | cons {p : Nat → Prop} {types : Nat → List ValueType} {d d' : ControlData}
    {rest rest' : List ControlData} (head : d.Decides (p 0) (types 0) d')
    (tail : Decides (fun k => p (k + 1)) (fun k => types (k + 1)) rest rest') :
    Decides p types (d :: rest) (d' :: rest')

variable {t : CacheState}

namespace Decides

variable {p q : Nat → Prop} {types : Nat → List ValueType}
    {control control' control'' : List ControlData}
  {d : ControlData}

theorem length (h : Decides p types control control') : control'.length = control.length := by
  induction h with
  | nil => rfl
  | cons _ _ ih => simp [ih]

theorem refl (hp : ∀ k, ¬p k) (types : Nat → List ValueType) (control : List ControlData) :
    Decides p types control control := by
  induction control generalizing p types with
  | nil => exact .nil
  | cons d rest ih =>
    exact .cons ⟨rfl, rfl, .inl ⟨rfl, fun h => (hp 0 h).elim⟩⟩ (ih (fun k => hp (k + 1)) _)

theorem trans (h : Decides p types control control') (h' : Decides q types control' control'') :
    Decides (fun k => p k ∨ q k) types control control'' := by
  induction h generalizing q control'' with
  | nil =>
    cases h'
    exact .nil
  | @cons p types d d' rest rest' head tail ih =>
    cases h' with
    | @cons _ _ _ d'' _ rest'' head' tail' =>
      refine .cons ⟨head'.label.trans head.label, head'.elseArm.trans head.elseArm, ?_⟩ (ih tail')
      rcases head.state with ⟨hsame, hp⟩ | ⟨hp, hnone, t, ht, htypes⟩ <;>
        rcases head'.state with ⟨hsame', hq⟩ | ⟨hq, hnone', t', ht', htypes'⟩
      · refine .inl ⟨hsame'.trans hsame, fun h => h.elim hp fun h => ?_⟩
        rw [← hsame]
        exact hq h
      · exact .inr ⟨.inr hq, hsame ▸ hnone', t', ht', htypes'⟩
      · exact .inr ⟨.inl hp, hnone, t, hsame'.trans ht, htypes⟩
      · rw [ht] at hnone'
        cases hnone'

theorem mono (h : Decides p types control control') (hpq : ∀ k, p k ↔ q k) :
    Decides q types control control' := by
  obtain rfl : p = q := funext fun k => propext (hpq k)
  exact h

/-- One construct. -/
theorem set {depth : Nat} (hd : control[depth]? = some d)
    (ht : d.labelState = some t ∨ (d.labelState = none ∧ t.types = types depth)) :
    Decides (· = depth) types control (control.set depth { d with labelState := some t }) := by
  induction control generalizing depth types with
  | nil => cases hd
  | cons d' rest ih =>
    cases depth with
    | zero =>
      cases hd
      refine .cons ⟨rfl, rfl, ?_⟩ (.refl (fun k hk => by cases hk) _ _)
      rcases ht with ht | ⟨hnone, ht⟩
      · exact .inl ⟨ht.symm, fun _ => by rw [ht]; rfl⟩
      · exact .inr ⟨rfl, hnone, t, rfl, ht⟩
    | succ depth =>
      refine .cons ⟨rfl, rfl, .inl ⟨rfl, nofun⟩⟩ ?_
      refine Decides.mono ?_ fun k => Nat.succ_inj.symm
      exact ih hd ht

end Decides

namespace Lowering

variable {R : Regime} {s s' base : Lowering} {is : List (Instr Label)} {ls ls' : List Label}
  {ts rest ps : List ValueType} {a ty : ValueType} {ctx : Context} {l : Label} {d : ControlData}
  {control : List ControlData} {depth arity stackDepth : Nat}

theorem At.recontrol (h : At R base ls ts s) {control : List ControlData}
    (hsound : ({ s with control } : Lowering).Sound R is ls') :
    At R { base with control } ls' ts { s with control } :=
  ⟨⟨is, hsound⟩, h.types, ⟨h.later.numLocals, h.later.room, h.later.bound, h.later.paths⟩,
    rfl, h.test⟩

/-! ## Conditions -/

/-- So many operands wait for the branch that follows, besides the condition. -/
def waiting (s : Lowering) : Nat :=
  match s.pendingTest with
  | some (.binary _) => 1
  | _ => 0

/-- If a test waits for the branch that follows, it is one of `i32` values, with these operands
besides the condition. -/
def Awaits (s : Lowering) (ps : List ValueType) : Prop :=
  match s.pendingTest with
  | none => ps = []
  | some op => op = .unary (.eqz .w32) ∧ ps = [] ∨
    (Cond.ofI32Comparison? op).isSome = true ∧ ps.length = 1

namespace Awaits

theorem nil (htest : s.pendingTest = none) : s.Awaits [] := by
  rw [Awaits, htest]

theorem eq_nil (h : s.Awaits ps) (htest : s.pendingTest = none) : ps = [] := by
  rwa [Awaits, htest] at h

theorem congr (h : s.Awaits ps) (htest : s'.pendingTest = s.pendingTest) : s'.Awaits ps := by
  rwa [Awaits, htest]

theorem length_eq (h : s.Awaits ps) : ps.length = s.waiting := by
  unfold Awaits at h
  unfold waiting
  split at h
  next hnone => rw [h, hnone]; rfl
  next op hop =>
    rw [hop]
    rcases h with ⟨rfl, rfl⟩ | ⟨hcond, hlength⟩
    · rfl
    · unfold Cond.ofI32Comparison? at hcond
      split at hcond
      · exact hlength
      · cases hcond

end Awaits

theorem jumpIfFalse_upholds (h : At R base ls (rest ++ [a] ++ ps) s) (hps : s.Awaits ps)
    (hl : l ∈ ls) :
    Upholds R (jumpIfFalse l) s fun _ => At R { base with pendingTest := none } ls rest := by
  have hi32 : R.allows .i32 := R.proper _ (by decide)
  refine .get_bind (.modify_bind ?_)
  have h₀ := h.setTest none
  have hjump : ∀ {s' : Lowering} {i : Instr Label}, i.target? = some l → i.type? = some .i32 →
      i.frameOffsets = [] → At R { base with pendingTest := none } ls rest s' →
      Upholds R (Lowering.emit i) s' fun _ => At R { base with pendingTest := none } ls rest :=
    fun htarget htype hframe h' => emitBranch_upholds h' (.of_type hi32 htype hframe) htarget
      (mem_targets_of_owed hl)
  unfold Awaits at hps
  split
  next htest =>
    rw [htest] at hps
    rw [hps, append_nil] at h₀
    exact .bind (popToReg_upholds h₀ atMost_none) fun _ s₁ h₁ => hjump rfl rfl rfl h₁
  next htest =>
    rw [htest] at hps
    obtain ⟨-, rfl⟩ := hps.resolve_right fun h => by cases h.1
    rw [append_nil] at h₀
    exact .bind (popToReg_upholds h₀ atMost_none) fun _ s₁ h₁ => hjump rfl rfl rfl h₁
  next op hne htest =>
    rw [htest] at hps
    obtain ⟨hcond, hlength⟩ := hps.resolve_left fun h => hne h.1
    obtain ⟨c, hc⟩ := Option.isSome_iff_exists.1 hcond
    obtain ⟨b, rfl⟩ := length_eq_one_iff.1 hlength
    rw [hc]
    refine .look (peekSlot_upholds h₀) fun top _ => ?_
    split
    · refine .bind (popSlot_upholds h₀) fun _ s₁ ⟨h₁, _⟩ => ?_
      exact .bind (popToReg_upholds h₁ atMost_none) fun _ s₂ h₂ => hjump rfl rfl rfl h₂
    · refine .bind (popToReg_upholds h₀ atMost_none) fun rhs s₁ h₁ => ?_
      exact .bind (popToReg_upholds h₁ (atMost_one rhs)) fun _ s₂ h₂ => hjump rfl rfl rfl h₂

/-! ## Opening constructs -/

theorem requireScalarBlock_upholds (b : Control) :
    Upholds R (requireScalarBlock b) s fun _ s' => s' = s :=
  requireScalars_upholds _ _

/-- A construct with a new label is opened. -/
theorem At.open (h : At R base (d.elseLabels ++ ls) ts s) (hlabel : d.label = s.emitter.nextLabel)
    (hd : d.labelState = none)
    (hstates : ∀ t ∈ d.states, t.Regular R ∧ t.maxOffset ≤ s.emitter.state.maxOffset) :
    At R { base with control := d :: base.control } ls ts
      { s.mapEmitter Emitter.addLabel with control := d :: s.control } := by
  obtain ⟨is, hsound⟩ := h.sound
  have hopen := h.newLabel.recontrol (hsound.openConstruct hlabel hd hstates)
  rwa [← h.control]

theorem block_upholds (h : At R base ls ts s) (b : Control) :
    Upholds R (block b) s fun _ s' => ∃ label,
      At R { base with control := { label } :: base.control } ls ts s' := by
  refine .bind (requireScalarBlock_upholds b) fun _ s' hs => ?_
  subst hs
  refine ⟨fun _ s'' hr => ?_, fun _ s'' hr => ?_⟩ <;> cases hr
  exact ⟨_, h.open (d := { label := s'.emitter.nextLabel }) rfl rfl nofun⟩

/-- The header of a loop is bound, and every branch to it leaves the values where they are now. -/
theorem loop_upholds (h : At R base ls ts s) (hlocals : base.emitter.numLocals ≤ ts.length)
    (b : Control) :
    Upholds R (loop ctx b) s fun _ s' => ∃ label state, state.types = ts ∧
      s'.emitter.isBound label = true ∧
      At R { base with control := { label, labelState := some state } :: base.control }
        ls ts s' := by
  refine .bind (requireScalarBlock_upholds b) fun _ s' hs => ?_
  subst hs
  refine .bind (emitting_upholds h
    (((h.emitter.spillWhere _ _).materializeConstants _).unshareRegs)) fun _ s₁ h₁ => ?_
  obtain ⟨is, hsound⟩ := h₁.sound
  have hnew := h₁.newLabel
  have hopen := hnew.bindLabel.recontrol (hsound.openLoop hsound.state (Nat.le_refl _))
  have hbound : (s₁.emitter.addLabel.bind s₁.emitter.nextLabel).isBound s₁.emitter.nextLabel =
      true := by
    obtain ⟨is', hsound'⟩ := hnew.sound
    exact (hsound'.isBound_bind _).trans (by simp)
  refine .bind (Q := fun label s' => label = s₁.emitter.nextLabel ∧
    s' = s₁.mapEmitter Emitter.addLabel) ?_ fun label s₂ ⟨hlabel, hs₂⟩ => ?_
  · refine ⟨fun _ s' hr => ?_, fun _ s' hr => ?_⟩ <;> cases hr
    exact ⟨rfl, rfl⟩
  subst hlabel hs₂
  refine .modify_bind (.get_bind (.modify_bind ?_))
  refine (stackCheck_upholds hopen.here (hopen.later.numLocals ▸ hlocals) ctx.pc).mono
    fun _ s' h' => ⟨s₁.emitter.nextLabel, s₁.emitter.state, h₁.types, h'.later.bound _ hbound, ?_⟩
  rw [← h₁.control]
  exact hopen.trans h'

/-- The arm that is entered if the condition is false begins with the slots as they are now. -/
theorem ifThen_upholds (h : At R base ls (rest ++ [a] ++ ps) s) (hps : s.Awaits ps) (b : Control) :
    Upholds R (ifThen b) s fun _ s' => ∃ label arm, arm.state.types = rest ∧ At R { base with
        control := { label, elseArm := some arm } :: base.control
        pendingTest := none } ls rest s' := by
  refine .bind (requireScalarBlock_upholds b) fun _ s' hs => ?_
  subst hs
  refine .bind (Q := fun label s₁ => At R base (label :: ls) (rest ++ [a] ++ ps) s₁ ∧
    s₁.pendingTest = s'.pendingTest) ?_ fun elseLabel s₁ ⟨h₁, htest⟩ => ?_
  · refine ⟨fun _ s'' hr => ?_, fun _ s'' hr => ?_⟩ <;> cases hr
    exact ⟨h.newLabel, rfl⟩
  refine .bind (jumpIfFalse_upholds h₁ (hps.congr htest) mem_cons_self) fun _ s₂ h₂ => ?_
  refine ⟨fun _ s'' hr => ?_, fun _ s'' hr => ?_⟩ <;> cases hr
  refine ⟨s₂.emitter.nextLabel, ⟨elseLabel, s₂.emitter.state⟩, h₂.types,
    h₂.open (d := { label := s₂.emitter.nextLabel, elseArm := some ⟨elseLabel, s₂.emitter.state⟩ })
      rfl rfl fun t ht => ?_⟩
  cases mem_singleton.1 (show t ∈ [s₂.emitter.state] from ht)
  exact ⟨h₂.regular, Nat.le_refl _⟩

/-! ## Branches -/

/-- The types that are left of `ts` if all but the topmost `arity` values are dropped above
`stackDepth` operands. -/
def mergeTypes (numLocals : Nat) (ts : List ValueType) (arity stackDepth : Nat) : List ValueType :=
  ts.take (numLocals + stackDepth) ++ ts.drop (ts.length - arity)

/-- Where a branch leaves the values is known afterwards. -/
theorem labelTarget_upholds (types : Nat → List ValueType)
    (h : At R base ls ts s) (hd : base.control[depth]? = some d)
    (hheight : base.emitter.numLocals + stackDepth + arity ≤ ts.length)
    (htypes : types depth = mergeTypes base.emitter.numLocals ts arity stackDepth) :
    Upholds R (labelTarget depth arity stackDepth) s fun r s' => r.1 = d.label ∧
      Decides (· = depth) types base.control
        (base.control.set depth { d with labelState := some r.2 }) ∧
      At R { base with control := base.control.set depth { d with labelState := some r.2 } }
        ls ts s' := by
  have hd' : s.control[depth]? = some d := by rw [h.control]; exact hd
  refine .get_bind ?_
  simp only [hd']
  split
  next state hstate =>
    have hset : base.control.set depth { d with labelState := some state } = base.control := by
      rw [← hstate]
      refine ext_getElem? fun k => ?_
      rw [getElem?_set]
      split
      next heq => rw [← heq, hd, if_pos (List.getElem?_eq_some_iff.1 hd).1]
      next => rfl
    refine .of_pure ⟨rfl, .set hd (.inl hstate), ?_⟩
    rw [hset]
    exact h
  next hnone =>
    obtain ⟨is, hsound⟩ := h.sound
    have hfits : s.emitter.numLocals + stackDepth + arity ≤ s.emitter.state.height := by
      rw [← CacheState.length_types, h.types, h.later.numLocals]
      exact hheight
    obtain ⟨hregular, hstate, hmax⟩ := hsound.state.mergeTarget hfits
    rw [← CacheState.length_types, h.types, h.later.numLocals] at hstate
    refine .modify_bind (.of_pure ⟨rfl, .set hd (.inr ⟨hnone, ?_⟩), ?_⟩)
    · rw [htypes, mergeTypes, ← hstate, h.later.numLocals]
    · rw [← h.control]
      exact h.recontrol (hsound.decide hd' hregular (Nat.le_of_eq hmax))

/-- The place that was decided on is in the frame, and code may branch to the label. -/
theorem At.decided (hd : base.control[depth]? = some d)
    (h : At R { base with control := base.control.set depth { d with labelState := some t } }
      ls ts s) :
    t.Regular R ∧ t.maxOffset ≤ s.emitter.state.maxOffset ∧ d.label ∈ ls ++ s.targets := by
  obtain ⟨is, hsound⟩ := h.sound
  have hmem : ({ d with labelState := some t } : ControlData) ∈ s.control := by
    rw [h.control]
    refine mem_of_getElem? (i := depth) ?_
    rw [getElem?_set_self (List.getElem?_eq_some_iff.1 hd).1]
  obtain ⟨hregular, hroom⟩ := hsound.saved _ hmem t (mem_append_left _ mem_cons_self)
  exact ⟨hregular, hroom, mem_append_right _ (mem_append_right _
    (mem_flatMap.2 ⟨_, hmem, mem_append_left _ mem_cons_self⟩))⟩

/-- The types of the values that a branch leaves. -/
def branchTypes (ctx : Context) (numLocals : Nat) (ts : List ValueType) (depth : Nat) :
    List ValueType :=
  mergeTypes numLocals ts (ctx.controlAt depth).branchMerge.arity (ctx.controlAt depth).stackDepth

/-- The slots suffice for a branch, whose target is one of `count` constructs. -/
structure CanBranch (ctx : Context) (numLocals count : Nat) (ts : List ValueType) (depth : Nat) :
    Prop where
  length : ctx.controlDepth = count
  results : count ≤ depth + 1 → ctx.sig.results.length ≤ ts.length
  payload : depth + 1 < count → numLocals + (ctx.controlAt depth).stackDepth +
    (ctx.controlAt depth).branchMerge.arity ≤ ts.length

/-- Branches were emitted to the constructs at the depths `p`. A branch to the outermost is a
return. -/
def Branched (R : Regime) (ctx : Context) (base : Lowering) (ls : List Label) (ts : List ValueType)
    (p : Nat → Prop) (s : Lowering) : Prop :=
  ∃ control, Decides (fun k => p k ∧ k + 1 < ctx.controlDepth)
      (branchTypes ctx base.emitter.numLocals ts) base.control control ∧
    At R { base with control } ls ts s

theorem branch_upholds (h : At R base ls ts s)
    (hcan : CanBranch ctx base.emitter.numLocals base.control.length ts depth) :
    Upholds R (branch ctx depth) s fun _ s' =>
      Branched R ctx base ls ts (· = depth) s' ∧ Closes R ls s' := by
  refine .ite (fun hge => ?_) fun hlt => ?_
  · refine (ret_upholds h (hcan.results (hcan.length ▸ hge))).mono fun _ s' ⟨h', hcloses⟩ =>
      ⟨⟨base.control, .refl (fun k hk => ?_) _ _, h'⟩, hcloses⟩
    obtain ⟨rfl, hk⟩ := hk
    exact Nat.not_le.2 hk hge
  · have hdepth : depth + 1 < base.control.length := by
      rw [← hcan.length]
      exact Nat.not_le.1 hlt
    have hd : base.control[depth]? = some (base.control[depth]) :=
      getElem?_eq_getElem (Nat.lt_of_succ_lt hdepth)
    refine .bind (labelTarget_upholds (branchTypes ctx base.emitter.numLocals ts) h hd
      (hcan.payload hdepth) rfl) fun r s₁ ⟨hlabel, hdecides, h₁⟩ => ?_
    obtain ⟨hregular, -, htarget⟩ := h₁.decided hd
    refine (emittingExit_upholds (f := fun e => e.mergeBranch r.2 _) h₁
      (h₁.emitter.mergeBranch hregular _) rfl (.of_none rfl rfl) fun l hl => ?_).mono
      fun _ s' ⟨h', hcloses⟩ => ⟨⟨_, hdecides.mono fun k => ?_, h'⟩, hcloses⟩
    · cases hl
      rw [hlabel]
      exact .inr htarget
    refine ⟨fun hk => ⟨hk, ?_⟩, fun hk => hk.1⟩
    rw [hk, hcan.length]
    exact hdepth

/-- If the condition is false, code goes on behind the branch. -/
theorem branchIf_upholds (h : At R base ls (rest ++ [a] ++ ps) s) (hps : s.Awaits ps)
    (hcan : CanBranch ctx base.emitter.numLocals base.control.length rest depth) :
    Upholds R (branchIf ctx depth) s fun _ =>
      Branched R ctx { base with pendingTest := none } ls rest (· = depth) := by
  refine .bind (Q := fun label s₁ => At R base (label :: ls) (rest ++ [a] ++ ps) s₁ ∧
    s₁.pendingTest = s.pendingTest) ?_ fun continuation s₁ ⟨h₁, htest⟩ => ?_
  · refine ⟨fun _ s' hr => ?_, fun _ s' hr => ?_⟩ <;> cases hr
    exact ⟨h.newLabel, rfl⟩
  refine .bind (jumpIfFalse_upholds h₁ (hps.congr htest) mem_cons_self) fun _ s₂ h₂ => ?_
  refine .bind (branch_upholds h₂ hcan) fun _ s₃ ⟨⟨control, hdecides, h₃⟩, _⟩ => ?_
  exact (bindLabel_upholds h₃).mono fun _ s' h' => ⟨control, hdecides, h'⟩

/-! ## Branch tables -/

section Tables

variable {p q : Nat → Prop} {cases : CaseLabels} {depth : Nat}

/-- The labels of a table are bound, in front of branches that were emitted. -/
def CaseLabels.Valid (p : Nat → Prop) (s : Lowering) (cases : CaseLabels) : Prop :=
  ∀ c ∈ cases, s.emitter.isBound c.2 = true ∧ p c.1

theorem CaseLabels.Valid.mono (h : CaseLabels.Valid p s cases) (hlater : s.Later s')
    (hpq : ∀ k, p k → q k) : CaseLabels.Valid q s' cases :=
  fun c hc => ⟨hlater.bound _ (h c hc).1, hpq _ (h c hc).2⟩

section

variable (h : Branched R ctx base ls ts p s)
include h

/-- Branches from a later state count as well. -/
theorem Branched.trans (h' : Branched R ctx s ls' ts q s') :
    Branched R ctx base ls' ts (fun k => p k ∨ q k) s' := by
  obtain ⟨control, hdecides, hat⟩ := h
  obtain ⟨control', hdecides', hat'⟩ := h'
  have hnum : s.emitter.numLocals = base.emitter.numLocals := hat.later.numLocals
  rw [hat.control, hnum] at hdecides'
  refine ⟨control', (hdecides.trans hdecides').mono fun k => by tauto, hat'.sound, hat'.types,
    .forget (hat.later.trans hat'.later.forget), hat'.control, hat'.test.trans hat.test⟩

theorem Branched.here : At R s ls ts s := by
  obtain ⟨control, -, hat⟩ := h
  exact hat.here

theorem Branched.congr (hpq : ∀ k, p k ↔ q k) : Branched R ctx base ls ts q s := by
  obtain rfl : p = q := funext fun k => propext (hpq k)
  exact h

/-- A step that leaves the constructs alone. -/
theorem Branched.step (h' : At R s ls' ts s') : Branched R ctx base ls' ts p s' :=
  (h.trans ⟨s.control, .refl (fun _ hk => hk.1) _ _, h'⟩).congr fun _ => or_iff_left id

theorem branchCase_upholds (hcases : CaseLabels.Valid p s cases)
    (hcan : CanBranch ctx base.emitter.numLocals base.control.length ts depth) :
    Upholds R (branchCase ctx cases depth) s fun cases' s' =>
      Branched R ctx base ls ts (fun k => p k ∨ k = depth) s' ∧ s.Later s' ∧
      CaseLabels.Valid (fun k => p k ∨ k = depth) s' cases' ∧ Closes R ls s' := by
  have hat := h.here
  unfold branchCase
  split
  next label hlookup =>
    obtain ⟨l₁, l₂, rfl, -⟩ := lookup_eq_some_iff.1 hlookup
    obtain ⟨hbound, hp⟩ := hcases (depth, label) (by simp)
    refine .bind (emitExit_upholds hat rfl (.of_none rfl rfl) fun l hl => ?_)
      fun _ s₁ ⟨h₁, hcloses⟩ => .of_pure ⟨?_, h₁.later, hcases.mono h₁.later fun _ => .inl, hcloses⟩
    · cases hl
      exact .inl hbound
    · refine (h.step h₁).congr fun k => (or_iff_left_of_imp ?_).symm
      rintro rfl
      exact hp
  next =>
    refine .bind (newLabel_upholds hat) fun label s₁ h₁ => ?_
    refine .bind (Q := fun _ s₂ => At R s ls ts s₂ ∧ s₂.emitter.isBound label = true)
      (.of_modify ⟨h₁.bindLabel, ?_⟩) fun _ s₂ ⟨h₂, hbound⟩ => ?_
    · obtain ⟨is, hsound⟩ := h₁.sound
      exact (hsound.isBound_bind label).trans (by simp)
    have hcan₂ : CanBranch ctx s₂.emitter.numLocals s₂.control.length ts depth := by
      obtain ⟨control, hdecides, hat⟩ := h.step h₂
      rw [hat.later.numLocals, hat.control, hdecides.length]
      exact hcan
    refine .bind (branch_upholds h₂.here hcan₂) fun _ s₃ ⟨h₃, hcloses⟩ => ?_
    have hlater : s₂.Later s₃ := by
      obtain ⟨control, -, hat⟩ := h₃
      exact hat.later.forget
    refine .of_pure ⟨(h.step h₂).trans h₃, h₂.later.trans hlater, fun c hc => ?_, hcloses⟩
    rcases mem_cons.1 hc with rfl | hc
    · exact ⟨hlater.bound _ hbound, .inr rfl⟩
    · exact hcases.mono (q := fun k => p k ∨ k = depth) (h₂.later.trans hlater) (fun _ => .inl) c hc

theorem searchTable_upholds {key : Reg} {first : Nat} {targets : List Nat}
    (hcases : CaseLabels.Valid p s cases)
    (hcan : ∀ depth ∈ targets, CanBranch ctx base.emitter.numLocals base.control.length ts depth) :
    Upholds R (searchTable ctx key first targets cases) s fun cases' s' =>
      Branched R ctx base ls ts (fun k => p k ∨ k ∈ targets) s' ∧ s.Later s' ∧
      CaseLabels.Valid (fun k => p k ∨ k ∈ targets) s' cases' ∧
        (targets ≠ [] → Closes R ls s') := by
  induction hn : targets.length using Nat.strong_induction_on generalizing targets
    first cases ls p s with
  | _ n ih =>
    rcases targets with _ | ⟨x, _ | ⟨y, rest⟩⟩
    · rw [searchTable]
      have hnil : ∀ k, p k ↔ p k ∨ k ∈ ([] : List Nat) := fun k => by simp
      exact .of_pure ⟨h.congr hnil, .refl s, hcases.mono (.refl s) fun k => (hnil k).1,
        fun hne => (hne rfl).elim⟩
    · rw [searchTable]
      have hone : ∀ k, p k ∨ k = x ↔ p k ∨ k ∈ [x] := fun k => by simp
      refine (branchCase_upholds h hcases (hcan x mem_cons_self)).mono ?_
      rintro cases' s' ⟨h', hlater, hcases', hcloses⟩
      exact ⟨h'.congr hone, hlater, hcases'.mono (.refl s') fun k => (hone k).1, fun _ => hcloses⟩
    · rw [searchTable]
      obtain ⟨half, hhalf⟩ : ∃ half, half = (x :: y :: rest).length / 2 := ⟨_, rfl⟩
      have hsize : half < n ∧ n - half < n ∧ 0 < half := by
        rw [length_cons, length_cons] at hn hhalf
        omega
      have hsplit : ∀ k, k ∈ x :: y :: rest ↔
          k ∈ (x :: y :: rest).take half ∨ k ∈ (x :: y :: rest).drop half := fun k => by
        rw [← mem_append, take_append_drop]
      refine .bind (newLabel_upholds h.here) fun upper s₁ h₁ => ?_
      refine .bind (emitBranch_upholds h₁ (.of_type (R.proper _ (by decide)) rfl rfl) rfl
        (mem_targets_of_owed mem_cons_self)) fun _ s₂ h₂ => ?_
      rw [← hhalf]
      refine .bind (ih _ ?_ (h.step h₂) (hcases.mono h₂.later fun _ => id)
        (fun depth hdepth => hcan depth ((hsplit depth).2 (.inl hdepth))) rfl) ?_
      · rw [length_take, hn]
        omega
      rintro cases₃ s₃ ⟨h₃, hlater₃, hcases₃, -⟩
      refine .bind (bindLabel_upholds h₃.here) fun _ s₄ h₄ => ?_
      refine (ih _ ?_ (h₃.step h₄) (hcases₃.mono h₄.later fun _ => id)
        (fun depth hdepth => hcan depth ((hsplit depth).2 (.inr hdepth))) rfl).mono ?_
      · rw [length_drop, hn]
        omega
      rintro cases₅ s₅ ⟨h₅, hlater₅, hcases₅, hcloses⟩
      have hall : ∀ k, (p k ∨ k ∈ (x :: y :: rest).take half) ∨ k ∈ (x :: y :: rest).drop half ↔
          p k ∨ k ∈ x :: y :: rest := fun k => by rw [hsplit, or_assoc]
      refine ⟨h₅.congr hall, ((h₂.later.trans hlater₃).trans h₄.later).trans hlater₅,
        hcases₅.mono (.refl s₅) fun k => (hall k).1, fun _ => hcloses fun hnil => ?_⟩
      have hzero := congrArg List.length hnil
      rw [length_drop, hn, length_nil] at hzero
      omega

end

theorem branchTable_upholds {table : BranchTable} (h : At R base ls (ts ++ [a]) s)
    (hcan : ∀ depth ∈ table.targets,
      CanBranch ctx base.emitter.numLocals base.control.length ts depth) :
    Upholds R (branchTable ctx table) s fun _ s' =>
      Branched R ctx base ls ts (· ∈ table.targets) s' ∧ Closes R ls s' := by
  have hdefault := hcan table.default (by simp [BranchTable.targets])
  refine .bind (popToReg_upholds h atMost_none) fun key s₁ h₁ => ?_
  have hstart : ∀ {ls s'}, At R base ls ts s' → Branched R ctx base ls ts (fun _ => False) s' :=
    fun h' => ⟨base.control, .refl (fun _ hk => hk.1) _ _, h'⟩
  refine .ite (fun hzero => ?_) fun _ => ?_
  · refine .bind (branchCase_upholds (hstart h₁) (fun _ hc => by cases hc) hdefault)
      fun _ s₂ ⟨h₂, _, _, hcloses⟩ => .of_pure ⟨h₂.congr fun k => ?_, hcloses⟩
    have hempty : table.entries.toList = [] := by simpa using hzero
    simp [BranchTable.targets, hempty]
  · refine .bind (newLabel_upholds h₁) fun defaultLabel s₂ h₂ => ?_
    refine .bind (emitBranch_upholds h₂ (.of_type (R.proper _ (by decide)) rfl rfl) rfl
      (mem_targets_of_owed mem_cons_self)) fun _ s₃ h₃ => ?_
    refine .bind (searchTable_upholds (hstart h₃) (fun _ hc => by cases hc)
      fun depth hdepth => hcan depth (by simp [BranchTable.targets, Array.mem_toList_iff.1 hdepth]))
      fun cases s₄ ⟨h₄, _, hcases, _⟩ => ?_
    refine .bind (bindLabel_upholds h₄.here) fun _ s₅ h₅ => ?_
    refine .bind (branchCase_upholds (h₄.step h₅) (hcases.mono h₅.later fun _ => id) hdefault)
      fun _ s₆ ⟨h₆, _, _, hcloses⟩ => .of_pure ⟨h₆.congr fun k => ?_, hcloses⟩
    simp [BranchTable.targets]

end Tables

/-! ## Arms and ends -/

section Ends

variable {b : Control} {arm : ElseArm} {outer : List ControlData}

theorem popData_upholds (hcontrol : s.control = d :: outer) :
    Upholds R popData s fun data s' => data = d ∧ s' = { s with control := outer } := by
  refine .get_bind ?_
  rw [hcontrol]
  exact .modify_bind (.of_pure ⟨rfl, rfl⟩)

theorem Sound.regular_arm (h : s.Sound R is ls) (hcontrol : s.control = d :: outer)
    (harm : d.elseArm = some arm) : arm.state.Regular R := by
  refine (h.saved d (hcontrol ▸ mem_cons_self) arm.state (mem_append_right _ ?_)).1
  rw [harm]
  exact mem_cons_self

/-- The other arm begins with the slots that it was left with. The arm before it decides where the
results are left, if it ends. -/
theorem reopen_upholds (harm : d.elseArm = some arm)
    (h : At R { base with control := d :: outer } ls ts s) : Upholds R (do
      let data ← popData
      match data.elseArm with
      | none => throw (.internal "else without if")
      | some arm =>
        pushControl { data with elseArm := none }
        emitting fun e => (e.bind arm.label).steal arm.state) s fun _ =>
      At R { base with control := { d with elseArm := none } :: outer } ls arm.state.types := by
  obtain ⟨is, hsound⟩ := h.sound
  refine .bind (popData_upholds h.control) ?_
  rintro data s₁ ⟨hdata, hs₁⟩
  subst hdata hs₁
  simp only [harm]
  have htaken := h.recontrol (hsound.takeElse h.control harm)
  exact .modify_bind (emittingBind_upholds (f := fun e => e.steal arm.state) htaken fun e he =>
    he.steal (hsound.regular_arm h.control harm))

theorem elseArm_upholds (h : At R base ls ts s) (hcontrol : base.control = d :: outer)
    (harm : d.elseArm = some arm)
    (hheight : b.isReachable = true → base.emitter.numLocals + b.stackDepth +
      b.endMerge.arity ≤ ts.length) :
    Upholds R (elseArm b) s fun _ s' => ∃ d', d.Decides (b.isReachable = true)
        (mergeTypes base.emitter.numLocals ts b.endMerge.arity b.stackDepth) d' ∧
      At R { base with control := { d' with elseArm := none } :: outer } ls arm.state.types s' := by
  refine .ite (fun hreach => ?_) fun hreach => ?_
  · have hd : base.control[0]? = some d := by rw [hcontrol]; rfl
    refine .bind (labelTarget_upholds (fun _ => _) h hd (hheight hreach) rfl) ?_
    rintro r s₁ ⟨hlabel, hdecides, h₁⟩
    obtain ⟨hregular, -, htarget⟩ := h₁.decided hd
    refine .bind (emittingExit_upholds (f := fun e => e.mergeFull r.2) h₁
      (h₁.emitter.mergeFull hregular) rfl (.of_none rfl rfl) fun l hl => ?_) ?_
    · cases hl
      rw [hlabel]
      exact .inr htarget
    rintro _ s₂ ⟨h₂, -⟩
    rw [hcontrol] at hdecides h₂
    cases hdecides with
    | cons head tail =>
      refine (reopen_upholds (d := { d with labelState := some r.2 }) harm h₂).mono fun _ s' h' =>
        ⟨_, ?_, h'⟩
      exact ⟨head.label, head.elseArm, head.state.imp (fun hs => ⟨hs.1, fun _ => hs.2 rfl⟩)
        fun hs => ⟨hreach, hs.2⟩⟩
  · refine (reopen_upholds harm (by rw [← hcontrol]; exact h)).mono fun _ s' h' =>
      ⟨d, ⟨rfl, rfl, .inl ⟨rfl, fun hr => (hreach hr).elim⟩⟩, h'⟩

/-- A label is bound unless it is already. -/
theorem settle_upholds (h : At R base ls' ts s)
    (hl : (s.emitter.isBound l = true ∧ ls' = ls) ∨ ls' = l :: ls) :
    Upholds R (emitting fun e => if e.isBound l then e else e.bind l) s fun _ =>
      At R base ls ts := by
  refine .of_modify ?_
  rcases hl with ⟨hbound, rfl⟩ | rfl
  · rw [mapEmitter_congr (f := fun e => if e.isBound l then e else e.bind l) (g := id)
      (if_pos hbound), mapEmitter_id]
    exact h
  · obtain ⟨is, hsound⟩ := h.sound
    have hnone := CodeBuffer.isBound_eq_false.2 (hsound.unbound l mem_cons_self)
    rw [mapEmitter_congr (f := fun e => if e.isBound l then e else e.bind l)
        (g := (·.bind l)) (if_neg (by
      rw [Emitter.isBound, hnone]
      exact Bool.false_ne_true))]
    exact h.bindLabel

section

variable (h : At R base ls ts s)
include h

section

variable (hcontrol : base.control = d :: outer)
include hcontrol

/-- The innermost construct is taken off; if its label is not bound yet it is owed. -/
theorem At.close (harm : d.elseArm = none) :
    ∃ ls', At R { base with control := outer } ls' ts { s with
      control := outer } ∧
        ((s.emitter.isBound d.label = true ∧ ls' = ls) ∨ ls' = d.label :: ls) := by
  obtain ⟨is, hsound⟩ := h.sound
  have hclosed := h.recontrol (hsound.closeConstruct (h.control.trans hcontrol) harm)
  refine ⟨_, hclosed, ?_⟩
  split
  next hbound => exact .inl ⟨hbound, rfl⟩
  next => exact .inr rfl

/-- A loop has no label at its end. -/
theorem popControl_loop (hloop : b.isLoop = true) :
    Upholds R (popControl b) s fun _ s' => s' = { s with control := outer } := by
  refine .bind (popData_upholds (h.control.trans hcontrol)) fun data s₁ ⟨_, hs₁⟩ => ?_
  rw [if_pos hloop]
  exact .of_pure hs₁

/-- Code goes on with the state that was decided on. -/
theorem popControl_decided
    (harm : d.elseArm = none) (hloop : b.isLoop = false) (hone : b.isOneArmedIf = false)
    {target : CacheState} (hstate : d.labelState = some target) :
    Upholds R (popControl b) s fun _ => At R { base with control := outer } ls target.types := by
  refine .bind (popData_upholds (h.control.trans hcontrol)) ?_
  rintro data s₁ ⟨hdata, hs₁⟩
  subst hdata hs₁
  rw [if_neg (by simp [hloop]), if_neg (by simp [hone])]
  simp only [hstate]
  obtain ⟨is, hsound⟩ := h.sound
  have hregular : target.Regular R := by
    refine (hsound.saved data (h.control.trans hcontrol ▸ mem_cons_self) target ?_).1
    rw [ControlData.states, hstate]
    exact mem_append_left _ mem_cons_self
  obtain ⟨ls', hclosed, howed⟩ := h.close hcontrol harm
  have hmerged : s.emitter.Onward R ts
      (if b.isReachable then s.emitter.mergeFull target else s.emitter) := by
    split
    · exact h.emitter.mergeFull hregular
    · exact h.emitter
  refine .bind (emitting_upholds hclosed.here (f := fun e => (if b.isReachable then
    e.mergeFull target else e).steal target) (hmerged.steal hregular)) fun _ s₁ h₁ => ?_
  refine settle_upholds (hclosed.trans h₁) (howed.imp_left fun hls => ⟨?_, hls.2⟩)
  exact h₁.later.bound _ hls.1

/-- Nothing branched to the end. -/
theorem popControl_undecided
    (hloop : b.isLoop = false) (hone : b.isOneArmedIf = false) (hstate : d.labelState = none) :
    Upholds R (popControl b) s fun _ s' =>
      s' = ({ s with control := outer } : Lowering).mapEmitter (·.bind d.label) := by
  refine .bind (popData_upholds (h.control.trans hcontrol)) fun data s₁ ⟨hdata, hs₁⟩ => ?_
  subst hdata hs₁
  rw [if_neg (by simp [hloop]), if_neg (by simp [hone])]
  simp only [hstate]
  obtain ⟨is, hsound⟩ := h.sound
  have hnone : s.emitter.isBound data.label = false := by
    refine CodeBuffer.isBound_eq_false.2 (hsound.unbound _ (mem_append_right _
      (mem_append_right _ (mem_flatMap.2 ⟨data, ?_, ?_⟩))))
    · rw [h.control, hcontrol]
      exact mem_cons_self
    · rw [ControlData.unbound, hstate]
      exact mem_append_left _ mem_cons_self
  exact .of_modify (mapEmitter_congr (if_neg (by
    rw [show ({ s with control := outer } : Lowering).emitter = s.emitter from rfl, hnone]
    exact Bool.false_ne_true)))

/-- The same for an `if` without another arm, which the step begins: it owes the label of that. -/
theorem At.closeArm
    (harm : d.elseArm = some arm) : ∃ ls', At R { base with control := outer } (arm.label :: ls') ts
      { s with control := outer } ∧
      ((s.emitter.isBound d.label = true ∧ ls' = ls) ∨ ls' = d.label :: ls) := by
  obtain ⟨is, hsound⟩ := h.sound
  have htaken := h.recontrol (hsound.takeElse (h.control.trans hcontrol) harm)
  obtain ⟨ls', hclosed, ⟨hbound, hls'⟩ | hls'⟩ :=
    htaken.close (d := { d with elseArm := none }) rfl rfl
  · exact ⟨ls, hls' ▸ hclosed, .inl ⟨hbound, rfl⟩⟩
  · exact ⟨d.label :: ls, hclosed.perm (hls' ▸ .swap _ _ _), .inr rfl⟩

end

end

/-- The missing arm leaves the parameters where the results are expected. -/
theorem finishOneArmedIf_upholds (h : At R base (arm.label :: ls') ts s)
    (hlabel : (s.emitter.isBound d.label = true ∧ ls' = ls) ∨ ls' = d.label :: ls)
    (harm : arm.state.Regular R) (hdecided : ∀ t, d.labelState = some t → t.Regular R)
    (hheight : s.emitter.numLocals + b.stackDepth + b.startMerge.arity = arm.state.height) :
    Upholds R (emitting (finishOneArmedIf b d arm)) s fun _ s' => s.Later s' ∧ ∃ ts',
      At R base ls' ts' s' ∧
        (ts' = arm.state.types ∨ ∃ t, d.labelState = some t ∧ ts' = t.types) := by
  refine .of_modify ?_
  obtain ⟨passing, hpassing⟩ : ∃ passing, passing =
      arm.state.mergeTarget s.emitter.numLocals b.startMerge.arity b.stackDepth := ⟨_, rfl⟩
  cases hselect : d.labelState.or (if b.isReachable then some passing else none) with
  | none =>
    rw [mapEmitter_congr (f := finishOneArmedIf b d arm)
      (g := fun e => (e.bind arm.label).steal arm.state)
      (by simp only [finishOneArmedIf, ← hpassing, hselect])]
    have hbegun := h.here.bindLabel
    have hstolen := hbegun.mapEmitter (f := (·.steal arm.state)) (hbegun.emitter.steal harm)
    rw [mapEmitter_mapEmitter] at hstolen
    exact ⟨hstolen.later, _, h.trans hstolen, .inl rfl⟩
  | some target =>
    obtain ⟨hregular, htypes⟩ : target.Regular R ∧
        (target.types = arm.state.types ∨ ∃ t, d.labelState = some t ∧ target.types = t.types) := by
      obtain ⟨hpass, hpasstypes, -⟩ := harm.mergeTarget (Nat.le_of_eq hheight)
      rw [← hpassing] at hpass hpasstypes
      cases hstate : d.labelState with
      | some t =>
        rw [hstate] at hselect
        cases hselect
        exact ⟨hdecided _ hstate, .inr ⟨_, rfl, rfl⟩⟩
      | none =>
        rw [hstate, Option.none_or] at hselect
        split at hselect
        · cases hselect
          refine ⟨hpass, .inl ?_⟩
          rw [hpasstypes, ← hheight, Nat.add_sub_cancel, take_append_drop]
        · cases hselect
    rw [mapEmitter_congr (f := finishOneArmedIf b d arm) (g := fun e =>
      ((((if b.isReachable then (e.mergeFull target).emit (.jump d.label) else e).bind
        arm.label).steal arm.state).mergeFull target).steal target)
      (by simp only [finishOneArmedIf, ← hpassing, hselect])]
    have hleft : At R s (arm.label :: ls') ts (s.mapEmitter fun e =>
        if b.isReachable then (e.mergeFull target).emit (.jump d.label) else e) := by
      by_cases hreach : b.isReachable = true
      · simp only [hreach, if_true]
        have hmerged := h.here.mapEmitter (f := (·.mergeFull target))
          (h.here.emitter.mergeFull hregular)
        have hjump := hmerged.emit (i := .jump d.label) (.of_none rfl rfl) rfl fun l hl => by
          cases hl
          rcases hlabel with ⟨hbound, -⟩ | rfl
          · exact .inl (hmerged.later.bound _ hbound)
          · exact .inr (mem_targets_of_owed (mem_cons_of_mem _ mem_cons_self))
        rwa [mapEmitter_mapEmitter] at hjump
      · simp only [hreach, if_false, Bool.false_eq_true]
        exact h.here
    have hbegun := hleft.bindLabel
    have hstolen := hbegun.mapEmitter
      (f := fun e => ((e.steal arm.state).mergeFull target).steal target)
      (((hbegun.emitter.steal harm).mergeFull hregular).steal hregular)
    rw [mapEmitter_mapEmitter, mapEmitter_mapEmitter] at hstolen
    exact ⟨hstolen.later, _, h.trans hstolen, htypes⟩

/-- Code goes on with the results of both arms. -/
theorem popControl_oneArmed (h : At R base ls ts s) (hcontrol : base.control = d :: outer)
    (harm : d.elseArm = some arm) (hloop : b.isLoop = false) (hone : b.isOneArmedIf = true)
    (hheight : base.emitter.numLocals + b.stackDepth + b.startMerge.arity = arm.state.height) :
    Upholds R (popControl b) s fun _ s' => ∃ ts', At R { base with control := outer } ls ts' s' ∧
      (ts' = arm.state.types ∨ ∃ t, d.labelState = some t ∧ ts' = t.types) := by
  refine .bind (popData_upholds (h.control.trans hcontrol)) ?_
  rintro data s₁ ⟨hdata, hs₁⟩
  subst hdata hs₁
  rw [if_neg (by simp [hloop]), if_pos hone]
  simp only [harm]
  obtain ⟨is, hsound⟩ := h.sound
  have hdecided : ∀ t, data.labelState = some t → t.Regular R := fun t ht => by
    refine (hsound.saved data (h.control.trans hcontrol ▸ mem_cons_self) t ?_).1
    rw [ControlData.states, ht]
    exact mem_append_left _ mem_cons_self
  obtain ⟨ls', hclosed, howed⟩ := h.closeArm hcontrol harm
  refine .bind (finishOneArmedIf_upholds hclosed howed
    (hsound.regular_arm (h.control.trans hcontrol) harm) hdecided ?_) ?_
  · rw [← hheight]
    exact congrArg (· + b.stackDepth + b.startMerge.arity) h.later.numLocals
  · rintro _ s₁ ⟨hlater, ts', h₁, htypes⟩
    exact (settle_upholds h₁ (howed.imp_left fun hls => ⟨hlater.bound _ hls.1, hls.2⟩)).mono
      fun _ s' h' => ⟨ts', h', htypes⟩

/-! ### Ends of dead code -/

section

variable (h : Closes R ls s)
include h

theorem Closes.at : At R s ls s.emitter.state.types s := by
  obtain ⟨is, hsound, -⟩ := h
  exact .refl hsound rfl

/-- A construct that nothing branched out of is taken off. -/
theorem Closes.close (hcontrol : s.control = d :: outer)
    (harm : d.elseArm = none) (hbound : s.emitter.isBound d.label = true) :
    Closes R ls { s with control := outer } := by
  obtain ⟨is, hsound, hclosed⟩ := h
  have hrest := hsound.closeConstruct hcontrol harm
  rw [if_pos hbound] at hrest
  exact ⟨is, hrest, hclosed.last, hclosed.targets, hclosed.resumes⟩

/-- The same if its label is bound only now. No branch leads to it. -/
theorem Closes.closeUndecided (hcontrol : s.control = d :: outer)
    (harm : d.elseArm = none) (hstate : d.labelState = none) :
    Closes R ls (({ s with control := outer } : Lowering).mapEmitter (·.bind d.label)) := by
  obtain ⟨is, hsound, hclosed⟩ := h
  have hmem : d ∈ s.control := hcontrol ▸ mem_cons_self
  have hnone : s.emitter.buffer.boundAt? d.label = none := by
    refine hsound.unbound _ (mem_append_right _ (mem_append_right _ (mem_flatMap.2 ⟨d, hmem, ?_⟩)))
    rw [ControlData.unbound, hstate]
    exact mem_append_left _ mem_cons_self
  have hunbound : s.emitter.isBound d.label = false := CodeBuffer.isBound_eq_false.2 hnone
  have hrest := hsound.closeConstruct hcontrol harm
  rw [if_neg (by rw [hunbound]; exact Bool.false_ne_true)] at hrest
  have hlt : d.label.index < s.emitter.buffer.labels.size := hrest.known d.label mem_cons_self
  have hkeep : ∀ l, l ≠ d.label → ∀ place, (s.emitter.buffer.bind d.label).boundAt? l = some place →
        s.emitter.buffer.boundAt? l = some place := by
    intro l hne place hplace
    rwa [CodeBuffer.boundAt?_bind hlt, if_neg hne] at hplace
  refine ⟨is, hrest.bindLabel, hclosed.last, fun i hi l hl place hplace => ?_,
    fun o ho l hl place hplace => ?_⟩
  · refine hclosed.targets i hi l hl place (hkeep l ?_ place hplace)
    rintro rfl
    -- A label that code branches to is bound, or one of those that may be branched to.
    rcases hsound.targets i hi d.label hl with hb | hb
    · rw [hunbound] at hb
      cases hb
    · have hnodup := hsound.distinct
      rw [Lowering.labels, hcontrol, flatMap_cons, ControlData.labels] at hnodup
      rw [Lowering.targets, hcontrol, flatMap_cons, ControlData.targets, hstate] at hb
      have helse : d.elseLabels = [] := by simp [ControlData.elseLabels, harm]
      simp only [helse] at hb hnodup
      have hsub : outer.flatMap ControlData.targets ⊆ outer.flatMap ControlData.labels :=
          fun x hx => by
        obtain ⟨d', hd', hx⟩ := mem_flatMap.1 hx
        exact mem_flatMap.2 ⟨d', hd', d'.targets_subset hx⟩
      have hfresh : d.label ∉ ls ++ (s.pathLabels ++ outer.flatMap ControlData.labels) := by
        have hperm : (ls ++ (s.pathLabels ++
            (d.label :: [] ++ outer.flatMap ControlData.labels))).Perm
            (d.label :: (ls ++ (s.pathLabels ++ outer.flatMap ControlData.labels))) := by
          refine perm_iff_count.2 fun x => ?_
          simp only [count_append, count_cons, count_nil]
          omega
        exact (nodup_cons.1 (hperm.nodup_iff.1 hnodup)).1
      refine hfresh ?_
      simp only [mem_append] at hb ⊢
      rcases hb with hb | hb | hb | hb
      · exact .inl hb
      · exact .inr (.inl hb)
      · rcases hb with hb | hb <;> cases hb
      · exact .inr (.inr (hsub hb))
  · refine hclosed.resumes o ho l hl place (hkeep l ?_ place hplace)
    rintro rfl
    have hb := (hsound.paths o ho).resumes d.label hl
    rw [hunbound] at hb
    cases hb

end

end Ends

end Lowering

end OnePass
