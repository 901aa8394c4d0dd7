import OnePass.Proofs.Listener
import OnePass.Proofs.Shape

/-!
What a listener hears of code that it called dead. Main statement: nothing, up to the next delimiter
of the construct that was innermost at the time; but what it answers at the head of an arm, at
`else` and at handlers, is lost.
-/
namespace OnePass

open List

/-- Whether the instruction ends an arm of the innermost construct. -/
def Instruction.isDelimiter : Instruction → Bool
  | .elseArm | .catchTag .. | .catchAll | .endBlock => true
  | _ => false

/-- Whether another arm of the construct follows. -/
def Instruction.beginsArm (i : Instruction) : Bool := i.isDelimiter && i != .endBlock

/-- The code is dead, and so are the innermost construct and the `k` constructs around it. Which of
the outer ones are reachable is given. -/
structure Context.Hushed (ctx : Context) (k : Nat) (outer : List Bool) : Prop where
  dead : ctx.live = false
  shut : ctx.control.map Control.isReachable = replicate (k + 1) false ++ outer

variable {ctx : Context} {k : Nat} {outer : List Bool} {ctx' : Context}

namespace Context.Hushed

theorem exists_cons (h : ctx.Hushed k outer) : ∃ c rest, ctx.control = c :: rest ∧
    c.isReachable = false ∧ rest.map Control.isReachable = replicate k false ++ outer := by
  have hshut := h.shut
  rw [replicate_succ, cons_append, map_eq_cons_iff] at hshut
  obtain ⟨c, rest, hcontrol, hc, hrest⟩ := hshut
  exact ⟨c, rest, hcontrol, hc, hrest⟩

theorem current (h : ctx.Hushed k outer) : ctx.current.isReachable = false := by
  obtain ⟨c, rest, hcontrol, hc, -⟩ := h.exists_cons
  simp [Context.current, Context.controlAt, hcontrol, hc]

theorem parent (h : ctx.Hushed (k + 1) outer) :
    ctx.parentReachable = false ∧ (ctx.controlAt 1).isReachable = false := by
  obtain ⟨c, rest, hcontrol, -, hrest⟩ := h.exists_cons
  rw [replicate_succ, cons_append, map_eq_cons_iff] at hrest
  obtain ⟨p, rest, rfl, hp, -⟩ := hrest
  simp [Context.parentReachable, Context.controlAt, hcontrol, hp]

section

variable (h : ctx.Hushed k outer)
include h

theorem length : ctx.control.length = k + 1 + outer.length := by
  have hlength := congrArg List.length h.shut
  simpa using hlength

theorem congr (hlive : ctx'.live = false)
    (hcontrol : ctx'.control.map Control.isReachable = ctx.control.map Control.isReachable) :
    ctx'.Hushed k outer :=
  ⟨hlive, hcontrol.trans h.shut⟩

theorem restack (stack : Array Value) : { ctx with stack }.Hushed k outer := h.congr h.dead rfl

theorem modifyCurrent {f : Control → Control}
    (hf : ∀ c, c.isReachable = false → (f c).isReachable = false) :
    (ctx.modifyCurrent f).Hushed k outer := by
  obtain ⟨c, rest, hcontrol, hc, -⟩ := h.exists_cons
  refine h.congr h.dead ?_
  simp [Context.modifyCurrent, Context.modifyControl, hcontrol, hf c hc, hc]

end

end Context.Hushed

/-- Dead from here on. -/
theorem Context.hushed_markDead (hopen : ctx.control ≠ []) :
    ∃ outer, ctx.markDead.Hushed 0 outer ∧ outer.length + 1 = ctx.control.length := by
  obtain ⟨c, rest, hcontrol⟩ := exists_cons_of_ne_nil hopen
  have hnarrow : (if c.isReachable = true then { c with reachability := .specOnly }
      else c).isReachable = false := by
    split
    · rfl
    · next hc => simpa using hc
  refine ⟨rest.map Control.isReachable, ⟨rfl, ?_⟩, by simp [hcontrol]⟩
  simp only [Context.markDead, Context.modifyCurrent, Context.modifyControl, hcontrol,
    modify_zero_cons, map_cons, hnarrow]
  rfl

theorem Control.isReachable_markBranch (c : Control) :
    c.markBranch.isReachable = c.isReachable := by
  unfold Control.markBranch
  split <;> rfl

/-- What a new arm is allowed is not more than what the construct around allows. -/
theorem armReachability_of_parent (h : (ctx.controlAt 1).isReachable = false) :
    Decode.armReachability ctx ≠ .reachable := by
  unfold Decode.armReachability
  rw [Control.isReachable] at h
  rcases hr : (ctx.controlAt 1).reachability with _ | _ | _
  · rw [hr] at h
    cases h
  · decide
  · decide

namespace Decode

variable {g : Context → Context} {i : Instruction} {p : Prop}

section Quiet

variable {σ α β : Type} {b : Backend σ}

/-- The listener hears nothing, and the step ends as told. -/
structure Quiet (ctx : Context) (m : DecodeM σ α) (post : α → Context → Prop) : Prop where
  unheard : ∀ s, ((m ctx).run s).2 = s
  ensures : ∀ s, Ensures m ctx s fun x ctx' _ => post x ctx'

namespace Quiet

variable {m : DecodeM σ α} {post : α → Context → Prop} {Q post' : α → Context → Prop}

theorem of_pure {x : α} (h : post x ctx) : Quiet (σ := σ) ctx (pure x) post :=
  ⟨fun _ => rfl, fun _ => .of_pure h⟩

theorem ends (h : Quiet ctx m post) (s : σ) (x : α) (ctx' : Context)
    (hr : outcome m ctx s = .ok (x, ctx')) : post x ctx' :=
  (h.ensures s).ends x ctx' _ (Prod.ext hr rfl)

theorem of_modify {post : Unit → Context → Prop} (h : post () (g ctx)) :
    Quiet (σ := σ) ctx (modify g) post :=
  ⟨fun _ => rfl, fun _ => .of_modify h⟩

theorem bind {k : α → DecodeM σ β} {post : β → Context → Prop}
    (hm : Quiet ctx m Q) (hk : ∀ x ctx', Q x ctx' → Quiet ctx' (k x) post) :
    Quiet ctx (m >>= k) post := by
  refine ⟨fun s => ?_, fun s => (hm.ensures s).bind fun x ctx' s' hq => (hk x ctx' hq).ensures s'⟩
  have hs := hm.unheard s
  rw [run_bind]
  rcases hr : (m ctx).run s with ⟨e | ⟨x, ctx₁⟩, s₁⟩ <;> rw [hr] at hs
  · exact hs
  · cases hs
    exact (hk x ctx₁ ((hm.ensures _).ends x ctx₁ _ hr)).unheard _

theorem get_bind {k : Context → DecodeM σ α} (h : Quiet ctx (k ctx) post) :
    Quiet ctx (get >>= k) post :=
  ⟨fun s => h.unheard s, fun s => .get_bind (h.ensures s)⟩

theorem modify_bind {k : Unit → DecodeM σ α}
    (h : Quiet (g ctx) (k ()) post) : Quiet ctx (modify g >>= k) post :=
  ⟨fun s => h.unheard s, fun s => .modify_bind (h.ensures s)⟩

theorem of_check {m : CheckM α} (h : ∀ x ctx', m ctx = .ok (x, ctx') → post x ctx') :
    Quiet (σ := σ) ctx (check m) post := by
  refine ⟨fun s => ?_, fun _ => .of_check h⟩
  simp only [check]
  cases m ctx <;> rfl

theorem of_read {m : ReadM α} (h : ∀ x r, post x { ctx with reader := r }) :
    Quiet (σ := σ) ctx (read m) post := by
  refine ⟨fun s => ?_, fun _ => .of_read fun x r _ => h x r⟩
  rw [run_read]
  split <;> rfl

/-- A check that changes only the operands leaves what is hushed so. -/
theorem of_operands {m : CheckM α} (h : ctx.Hushed k outer) (hm : Check.OnOperands m) :
    Quiet (σ := σ) ctx (check m) fun _ ctx' => ctx'.Hushed k outer := by
  refine of_check fun x ctx' hr => ?_
  obtain ⟨stack, rfl⟩ := hm.restacks _ _ _ hr
  exact h.restack stack

theorem ite [Decidable p] {m' : DecodeM σ α} (hm : p → Quiet ctx m post)
    (hm' : ¬p → Quiet ctx m' post) : Quiet ctx (if p then m else m') post := by
  split
  · exact hm ‹_›
  · exact hm' ‹_›

/-- A step that is left out unless the condition holds. -/
theorem when [Decidable p] {m : DecodeM σ Unit} {k : Unit → DecodeM σ α}
    {Q : Context → Prop} (hm : p → Quiet ctx m fun _ => Q) (hctx : Q ctx)
    (hk : ∀ ctx', Q ctx' → Quiet ctx' (k ()) post) :
    Quiet ctx (if p then m >>= k else k ()) post :=
  ite (fun hp => (hm hp).bind fun _ ctx' => hk ctx') fun _ => hk ctx hctx

/-- A step that is left out. -/
theorem left_out [Decidable p] {m : DecodeM σ Unit} {k : Unit → DecodeM σ α} (hp : ¬p)
    (hk : Quiet ctx (k ()) post) : Quiet ctx (if p then m >>= k else k ()) post := by
  rw [if_neg hp]
  exact hk

theorem mono (h : Quiet ctx m post) (hpost : ∀ x ctx', post x ctx' → post' x ctx') :
    Quiet ctx m post' :=
  ⟨h.unheard, fun s => (h.ensures s).mono fun x ctx' _ => hpost x ctx'⟩

theorem report (b : Backend σ) (e : Event) (h : ctx.Hushed k outer) :
    Quiet ctx (report b e) fun _ ctx' => ctx'.Hushed k outer := by
  refine get_bind ?_
  rw [h.dead]
  exact of_pure h

theorem endControl (b : Backend σ) (h : ctx.Hushed k outer) :
    Quiet ctx (endControl b) fun _ ctx' => ctx'.Hushed k outer := by
  refine modify_bind (get_bind ((report b _ ((h.restack _))).bind fun _ ctx₁ h₁ => of_modify ?_))
  exact (h₁.modifyCurrent fun _ _ => rfl).congr rfl rfl

theorem fallThru (b : Backend σ) (h : ctx.Hushed k outer) :
    Quiet ctx (fallThru b) fun _ ctx' => ctx'.Hushed k outer := by
  refine (of_operands h .fallthrough).bind fun _ ctx₁ h₁ => get_bind ?_
  dsimp only
  rw [h₁.current]
  exact of_pure h₁

theorem popControl (b : Backend σ) (h : ctx.Hushed (k + 1) outer) :
    Quiet ctx (popControl b) fun _ ctx' => ctx'.Hushed k outer := by
  refine get_bind (get_bind (left_out (by simp [h.parent.1])
    (when (fun _ => of_operands h (.pushMergeValues _)) h fun ctx₁ h₁ => of_modify ?_)))
  obtain ⟨c, rest, hcontrol, -, hrest⟩ := h₁.exists_cons
  have htail : { ctx₁ with control := ctx₁.control.tail, live := false }.Hushed k outer :=
    ⟨rfl, by rw [hcontrol]; exact hrest⟩
  dsimp only
  split
  · exact htail.congr htail.current rfl
  · have hdead := htail.modifyCurrent (f := fun c =>
      if c.isReachable then { c with reachability := .specOnly } else c)
      fun c hc => by rw [hc]; exact hc
    exact hdead.congr hdead.current rfl

/-- A new arm is as dead as the construct around it. -/
theorem elseArm (b : Backend σ) (h : ctx.Hushed (k + 1) outer) :
    Quiet ctx (elseArm b) fun _ ctx' => ctx'.Hushed (k + 1) outer := by
  refine get_bind (when (fun _ => of_operands h (.fault _)) h fun ctx h =>
    when (fun _ => of_operands h (.fault _)) h fun ctx h =>
    (of_operands h .fallthrough).bind fun _ ctx₁ h₁ => modify_bind (get_bind (get_bind ?_)))
  have h₂ : (ctx₁.modifyCurrent fun c => { c with kind := .ifElse }).Hushed (k + 1) outer :=
    h₁.modifyCurrent fun _ hc => hc
  have harm := armReachability_of_parent h₂.parent.2
  refine left_out (by simp [h₂.parent.1]) (get_bind (modify_bind
    ((of_operands ?_ (.pushMergeValues _)).bind fun _ ctx₃ h₃ =>
      of_modify (h₃.congr (by simpa using harm) rfl))))
  exact h₂.modifyCurrent fun c _ => by simpa [Control.isReachable] using harm

theorem beginArm (h : ctx.Hushed (k + 1) outer) :
    Quiet (σ := σ) ctx beginArm fun _ ctx' => ctx'.Hushed (k + 1) outer := by
  refine of_modify ((h.restack _).modifyCurrent fun c _ => ?_)
  simpa [Control.isReachable] using armReachability_of_parent h.parent.2

theorem handler (b : Backend σ) (what : String) (kind : ControlKind) (params : List ValueType)
    (event : Control → List Value → Event) (h : ctx.Hushed (k + 1) outer) :
    Quiet ctx (handler b what kind params event) fun _ ctx' => ctx'.Hushed (k + 1) outer := by
  refine (of_operands h (.requireTry _)).bind fun _ ctx₁ h₁ => modify_bind ?_
  have h₂ := h₁.modifyCurrent (f := fun c => { c with kind }) fun _ hc => hc
  refine (fallThru b h₂).bind fun _ ctx₃ h₃ => (beginArm h₃).bind fun _ ctx₄ h₄ =>
    (of_operands h₄ (.pushAll _)).bind fun _ ctx₅ h₅ => get_bind (get_bind ?_)
  exact left_out (by simp [h₅.parent.1]) (of_modify (h₅.congr h₅.current rfl))

theorem rethrowUncaught (b : Backend σ) (h : ctx.Hushed (k + 1) outer) :
    Quiet ctx (rethrowUncaught b) fun _ ctx' => ctx'.Hushed (k + 1) outer := by
  refine (fallThru b h).bind fun _ ctx₁ h₁ => modify_bind (get_bind (get_bind ?_))
  have h₂ : (ctx₁.modifyCurrent fun c => { c with reachability := armReachability ctx₁ }).Hushed
      (k + 1) outer :=
    h₁.modifyCurrent fun c _ => by
      simpa [Control.isReachable] using armReachability_of_parent h₁.parent.2
  refine left_out (by simp [h₂.parent.1])
    (modify_bind (bind (report b _ ?_) fun _ _ h₃ => endControl b h₃))
  exact h₂.congr h₂.current rfl

theorem endBlock (b : Backend σ) (h : ctx.Hushed (k + 1) outer) :
    Quiet ctx (endBlock b) fun _ ctx' => ctx'.Hushed k outer := by
  refine get_bind (when (fun _ => of_operands h (.fault _)) h fun ctx h =>
    when (fun _ => of_operands h (.oneArmedIf _)) h fun ctx h =>
    when (fun _ => rethrowUncaught b h) h fun ctx h =>
    (of_operands h .fallthrough).bind fun _ ctx₁ h₁ => get_bind ?_)
  have hinner : ctx₁.isOutermost = false := by
    have hlength := h₁.length
    unfold Context.isOutermost
    split
    · next hcontrol =>
      rw [hcontrol, length_singleton] at hlength
      omega
    · rfl
  rw [hinner]
  exact popControl b h₁

theorem delimiter (b : Backend σ) (hi : i.isDelimiter = true) (h : ctx.Hushed (k + 1) outer) :
    Quiet ctx (instruction b i) fun _ ctx' => ∃ k', ctx'.Hushed k' outer := by
  cases i <;> try cases hi
  case elseArm => exact (elseArm b h).mono fun _ _ h' => ⟨_, h'⟩
  case catchTag => exact (handler b _ _ _ _ h).mono fun _ _ h' => ⟨_, h'⟩
  case catchAll =>
    rw [instruction_catchAll]
    exact (handler b _ _ _ _ h).mono fun _ _ h' => ⟨_, h'⟩
  case endBlock => exact (endBlock b h).mono fun _ _ h' => ⟨_, h'⟩

end Quiet

end Quiet

section Obeys

variable {σ α β : Type} {b : Backend σ} {k : α → LoggedM σ β}
  {m : LoggedM σ α}

/-- Where the listener calls the code dead, the rest of the step is silent. -/
structure Heeds (m : DecodeM (σ × List Notice) α) : Prop where
  isOpen : ∀ ctx s x ctx', ctx.control ≠ [] → outcome m ctx s = .ok (x, ctx') → ctx'.control ≠ []
  heeds : ∀ ctx s, ctx.control ≠ [] → ∃ new, ((m ctx).run s).2.2 = s.2 ++ new ∧
    ∀ before n after, new = before ++ n :: after → n.reply = .ok .dead → after = [] ∧
      ∀ x ctx', outcome m ctx s = .ok (x, ctx') →
        ∃ k outer, ctx'.Hushed k outer ∧ outer.length + 1 = n.context.control.length

/-- The same, and in dead code the step is silent from the start. -/
structure Obeys (m : DecodeM (σ × List Notice) α) : Prop extends Heeds m where
  quiet : ∀ ctx k outer, ctx.Hushed k outer → Quiet ctx m fun _ ctx' => ∃ k',
    k ≤ k' ∧ ctx'.Hushed k' outer

/-- A step in which the listener is not told anything. -/
theorem Heeds.of_quiet (h : ∀ ctx, ctx.control ≠ [] → Quiet ctx m fun _ ctx' => ctx'.control ≠ []) :
    Heeds m := by
  refine ⟨fun ctx s x ctx' hopen => (h ctx hopen).ends s x ctx', fun ctx s hopen =>
    ⟨[], by rw [(h ctx hopen).unheard, append_nil], fun before n after hnew => ?_⟩⟩
  simp at hnew

theorem Heeds.tell (b : Backend σ) (e : Event) : Heeds (tell b.logged e) := by
  refine ⟨fun ctx s x ctx' hopen hr => ?_, fun ctx s hopen => ?_⟩
  · obtain ⟨bailout, hr'⟩ | hr' | hr' := outcome_tell b.logged e ctx s <;> rw [hr'] at hr <;>
      cases hr
    · exact hopen
    · simpa [Context.markDead, Context.modifyCurrent, Context.modifyControl] using hopen
  · rw [run_tell, outcome, run_tell]
    refine ⟨[⟨ctx.checked .full, e, (b.handle ctx e s.1).1⟩], rfl, ?_⟩
    intro before n after hnew hdead
    obtain ⟨rfl, rfl, rfl⟩ : before = [] ∧
        n = ⟨ctx.checked .full, e, (b.handle ctx e s.1).1⟩ ∧ after = [] := by
      cases before with
      | nil => simpa [eq_comm] using hnew
      | cons => simp at hnew
    refine ⟨rfl, fun x ctx' hr => ?_⟩
    have hreply : (b.logged.handle ctx e s).1 = .ok .dead := hdead
    rw [hreply] at hr
    cases hr
    obtain ⟨outer, hhushed, hlength⟩ := Context.hushed_markDead hopen
    exact ⟨0, outer, hhushed, hlength⟩

theorem Heeds.after {m : CheckM α}
    (hm : Check.OnOperands m) (hk : ∀ x, Heeds (k x)) : Heeds (check m >>= k) := by
  have hrun : ∀ ctx s, (∃ e, ((check m >>= k) ctx).run s = (.error e, s)) ∨
      ∃ x stack, ((check m >>= k) ctx).run s = (k x { ctx with stack }).run s := by
    intro ctx s
    rw [run_bind]
    simp only [check]
    cases hm' : m ctx with
    | error e => exact .inl ⟨.decode e, rfl⟩
    | ok r =>
      obtain ⟨stack, hstack⟩ := hm.restacks ctx r.1 r.2 hm'
      refine .inr ⟨r.1, stack, ?_⟩
      rw [← hstack]
      rfl
  refine ⟨fun ctx s y ctx' hopen hr => ?_, fun ctx s hopen => ?_⟩
  · rcases hrun ctx s with ⟨e, h⟩ | ⟨x, stack, h⟩ <;> rw [outcome, h] at hr
    · cases hr
    · exact (hk x).isOpen { ctx with stack } s y ctx' hopen hr
  · rcases hrun ctx s with ⟨e, h⟩ | ⟨x, stack, h⟩ <;> rw [outcome, h]
    · exact ⟨[], (append_nil _).symm, fun before n after hnew => by simp at hnew⟩
    · exact (hk x).heeds { ctx with stack } s hopen

theorem Heeds.bind (hm : Heeds m) (hk : ∀ x, Obeys (k x)) : Heeds (m >>= k) := by
  refine ⟨fun ctx s y ctx' hopen hr => ?_, fun ctx s hopen => ?_⟩
  · rw [outcome_bind] at hr
    rcases hm' : (m ctx).run s with ⟨e | ⟨x, ctx₁⟩, s₁⟩ <;> rw [hm'] at hr
    · cases hr
    · exact (hk x).isOpen ctx₁ s₁ y ctx' (hm.isOpen ctx s x ctx₁ hopen (congrArg Prod.fst hm')) hr
  · obtain ⟨new₁, hlog₁, hdead₁⟩ := hm.heeds ctx s hopen
    have hopen₁ := hm.isOpen ctx s
    rw [run_bind, outcome_bind]
    rw [outcome] at hdead₁ hopen₁
    rcases hm' : (m ctx).run s with ⟨e | ⟨x, ctx₁⟩, s₁⟩ <;> rw [hm'] at hlog₁ hdead₁ hopen₁
    · refine ⟨new₁, hlog₁, fun before n after hnew hn => ⟨(hdead₁ before n after hnew hn).1, ?_⟩⟩
      intro y ctx' hr
      cases hr
    · obtain ⟨new₂, hlog₂, hdead₂⟩ := (hk x).heeds ctx₁ s₁ (hopen₁ x ctx₁ hopen rfl)
      refine ⟨new₁ ++ new₂, by rw [hlog₂, hlog₁, append_assoc], fun before n after hnew hn =>
        ?_⟩
      rcases append_eq_append_iff.1 hnew with ⟨mid, hbefore, hnew₂⟩ | ⟨mid, hnew₁, hafter⟩
      · exact hdead₂ mid n after hnew₂ hn
      · cases mid with
        | nil => exact hdead₂ [] n after (by simpa using hafter.symm) hn
        | cons n' mid =>
          -- The listener called the code dead before: the rest is silent.
          obtain ⟨rfl, rfl⟩ : n = n' ∧ after = mid ++ new₂ := by simpa using hafter
          obtain ⟨rfl, hhushed⟩ := hdead₁ before n mid hnew₁ hn
          obtain ⟨j, outer, hhushed, hlength⟩ := hhushed x ctx₁ rfl
          have hquiet := (hk x).quiet ctx₁ j outer hhushed
          rw [hquiet.unheard] at hlog₂
          have hnone : new₂ = [] := by simpa using hlog₂
          subst hnone
          refine ⟨rfl, fun y ctx' hr => ?_⟩
          obtain ⟨j', -, hhushed'⟩ := hquiet.ends s₁ y ctx' hr
          exact ⟨j', outer, hhushed', hlength⟩

namespace Obeys

variable {k : α → LoggedM σ β}

theorem of_pure (x : α) : Obeys (σ := σ) (pure x) where
  toHeeds := .of_quiet fun _ hopen => .of_pure hopen
  quiet _ k _ h := .of_pure ⟨k, le_rfl, h⟩

theorem of_get : Obeys (σ := σ) get where
  toHeeds := .of_quiet fun _ hopen => .get_bind (k := pure) (.of_pure hopen)
  quiet _ k _ h := .get_bind (k := pure) (.of_pure ⟨k, le_rfl, h⟩)

theorem of_modify (hopen : ∀ ctx, ctx.control ≠ [] → (g ctx).control ≠ [])
    (h : ∀ ctx k outer, ctx.Hushed k outer → (g ctx).Hushed k outer) :
      Obeys (σ := σ) (modify g) where
  toHeeds := .of_quiet fun ctx hne => .of_modify (hopen ctx hne)
  quiet ctx k outer hctx := .of_modify ⟨k, le_rfl, h ctx k outer hctx⟩

theorem bind {m : LoggedM σ α} (hm : Obeys m) (hk : ∀ x, Obeys (k x)) : Obeys (m >>= k) where
  toHeeds := hm.toHeeds.bind hk
  quiet ctx j outer h := (hm.quiet ctx j outer h).bind fun x ctx₁ ⟨j₁, hle, h₁⟩ =>
    ((hk x).quiet ctx₁ j₁ outer h₁).mono fun _ _ ⟨j₂, hle', h₂⟩ => ⟨j₂, hle.trans hle', h₂⟩

theorem ite [Decidable p] {m k : LoggedM σ α} (hm : Obeys m) (hk : Obeys k) :
    Obeys (if p then m else k) := by
  split
  · exact hm
  · exact hk

/-- A step that is left out unless the condition holds. -/
theorem when [Decidable p] {m : LoggedM σ Unit}
    {k : Unit → LoggedM σ α} (hm : Obeys m) (hk : Obeys (k ())) :
    Obeys (if p then m >>= k else k ()) :=
  .ite (.bind hm fun _ => hk) hk

theorem checked {m : CheckM α} (hm : Check.OnOperands m) : Obeys (σ := σ) (check m) where
  toHeeds := .of_quiet fun ctx hopen => .of_check fun x ctx' hr => by
    obtain ⟨stack, rfl⟩ := hm.restacks _ _ _ hr
    exact hopen
  quiet ctx k outer h := (Quiet.of_operands h hm).mono fun _ _ h' => ⟨k, le_rfl, h'⟩

theorem after {m : CheckM α} (h : Check.OnOperands m) (hk : ∀ x, Obeys (k x)) :
    Obeys (check m >>= k) :=
  .bind (.checked h) hk

theorem read (m : ReadM α) : Obeys (σ := σ) (read m) where
  toHeeds := .of_quiet fun _ hopen => .of_read fun _ _ => hopen
  quiet _ k _ h := .of_read fun _ _ => ⟨k, le_rfl, h.congr h.dead rfl⟩

/-- What is done in live code only need not be silent in dead code. -/
theorem live {m k : Context → LoggedM σ α} (hm : ∀ ctx, Heeds (m ctx)) (hk : ∀ ctx, Obeys (k ctx)) :
    Obeys (get >>= fun ctx => if ctx.live then m ctx else k ctx) where
  isOpen ctx s x ctx' hopen hr := by
    rw [outcome_get_bind] at hr
    split at hr
    · exact (hm ctx).isOpen ctx s x ctx' hopen hr
    · exact (hk ctx).isOpen ctx s x ctx' hopen hr
  heeds ctx s hopen := by
    rw [run_get_bind, outcome_get_bind]
    split
    · exact (hm ctx).heeds ctx s hopen
    · exact (hk ctx).heeds ctx s hopen
  quiet ctx j outer h := by
    refine .get_bind ?_
    rw [h.dead]
    exact (hk ctx).quiet ctx j outer h

theorem report (b : Backend σ) (e : Event) : Obeys (report b.logged e) :=
  .live (fun _ => .tell b e) fun _ => .of_pure ()

theorem pushControl (kind : ControlKind) (type : BlockType) :
    Obeys (σ := σ) (check (Check.pushControl kind type)) := by
  have hrun : ∀ ctx, ∃ block : Control, Check.pushControl kind type ctx =
      .ok (block, { ctx with control := block :: ctx.control, live := block.isReachable }) ∧
      ∀ k outer, ctx.Hushed k outer → block.isReachable = false := by
    refine fun ctx => ⟨_, rfl, fun k outer h => ?_⟩
    obtain ⟨c, rest, hcontrol, hc, -⟩ := h.exists_cons
    rw [hcontrol]
    revert hc
    simp only [Control.isReachable]
    cases c.reachability <;> decide
  refine ⟨.of_quiet fun ctx _ => .of_check fun x ctx' hr => ?_, fun ctx k outer h =>
    .of_check fun x ctx' hr => ?_⟩
  · obtain ⟨block, hblock, -⟩ := hrun ctx
    rw [hblock] at hr
    cases hr
    exact cons_ne_nil _ _
  · obtain ⟨block, hblock, hdead⟩ := hrun ctx
    rw [hblock] at hr
    cases hr
    refine ⟨k + 1, Nat.le_succ k, hdead k outer h, ?_⟩
    rw [map_cons, hdead k outer h, h.shut]
    rfl

theorem endControl (b : Backend σ) : Obeys (endControl b.logged) :=
  .bind (.of_modify (fun _ h => h) fun _ _ _ h => h.restack _) fun _ => .bind .of_get fun _ =>
    .bind (.report b _) fun _ => .of_modify (fun ctx h => by
      simpa [Context.modifyCurrent, Context.modifyControl] using h) fun ctx k outer h =>
        (h.modifyCurrent fun _ _ => rfl).congr rfl rfl

theorem openBlock (b : Backend σ) (kind : ControlKind) (type : BlockType)
    (event : Control → Event) : Obeys (openBlock b.logged kind type event) :=
  .after (.popTypes ..) fun _ => .bind (.pushControl ..) fun _ => .bind (.report b _) fun _ =>
    .checked (.pushMergeValues _)

/-- Constructs note branches to them. -/
theorem marks (hlive : ∀ ctx, (g ctx).live = ctx.live)
    (hcontrol : ∀ ctx, (g ctx).control.map Control.isReachable =
      ctx.control.map Control.isReachable) : Obeys (σ := σ) (modify g) := by
  refine .of_modify (fun ctx hopen hnil => hopen ?_) fun ctx k outer h =>
    h.congr ((hlive ctx).trans h.dead) (hcontrol ctx)
  have hmap := hcontrol ctx
  rw [hnil] at hmap
  exact map_eq_nil_iff.1 hmap.symm

theorem markBranch (depth : Nat) :
    Obeys (σ := σ) (modify fun ctx => ctx.modifyControl depth Control.markBranch) := by
  refine .marks (fun _ => rfl) fun ctx => ext_getElem? fun i => ?_
  simp only [Context.modifyControl, getElem?_map, getElem?_modify]
  split
  · simp [Option.map_map, Function.comp_def, Control.isReachable_markBranch]
  · simp

theorem markSeen (seen : Array Bool) : Obeys (σ := σ) (modify (markSeen seen)) := by
  refine .marks (fun _ => rfl) fun ctx => ext_getElem? fun i => ?_
  simp only [Decode.markSeen, getElem?_map, getElem?_mapIdx, Option.map_map]
  congr 1
  funext c
  simp only [Function.comp_apply]
  split
  · exact c.isReachable_markBranch
  · rfl

theorem br (b : Backend σ) (depth : Nat) : Obeys (br b.logged depth) :=
  .after (.branch ..) fun _ => .ite (.bind (.report b _) fun _ =>
    .bind (.markBranch depth) fun _ => .endControl b) (.endControl b)

theorem brIf (b : Backend σ) (depth : Nat) : Obeys (brIf b.logged depth) :=
  .after (.pop ..) fun _ => .after (.branch ..) fun _ => .ite (.bind (.report b _) fun _ =>
    .markBranch depth) (.of_pure _)

theorem brTable (b : Backend σ) (table : BranchTable) : Obeys (brTable b.logged table) :=
  .after (.pop ..) fun _ => .after (.scanTable _) fun _ => .after (.branchTable _) fun _ =>
    .live (fun _ => .bind (.tell b _) fun _ => .bind (.markSeen _) fun _ => .endControl b)
      fun _ => .endControl b

theorem ret (b : Backend σ) : Obeys (ret b.logged) :=
  .live (fun _ => .after .returnTypes fun _ => .bind (.tell b _) fun _ => .endControl b)
    fun _ => .after (.popTypes ..) fun _ => .endControl b

theorem rethrow (b : Backend σ) (depth : Nat) : Obeys (rethrow b.logged depth) :=
  .bind .of_get fun _ => .when (.checked (.fault _)) (.bind (.report b _) fun _ => .endControl b)

theorem select (b : Backend σ) : Obeys (select b.logged) :=
  .after (.pop ..) fun _ => .after (.popAny _) fun _ => .after (.pop ..) fun _ =>
    .bind .of_get fun _ => .when (.checked (.fault _)) (.after (.push _) fun _ => .report b _)

theorem refIsNull (b : Backend σ) : Obeys (refIsNull b.logged) :=
  .after (.popAny _) fun _ => .bind .of_get fun _ => .when (.checked (.fault _))
    (.after (.push _) fun _ => .report b _)

theorem plain (b : Backend σ) (hi : i.isDelimiter = false) : Obeys (instruction b.logged i) := by
  cases hshape : i.shape? with
  | some shape =>
    rw [instruction_eq_shape b.logged hshape]
    exact .bind (.checked (i.onOperands_check hshape)) fun e => .bind (.report b e) fun _ =>
      .ite (.endControl b) (.of_pure ())
  | none =>
    cases i
    all_goals simp only [Instruction.shape?, reduceCtorEq] at hshape
    all_goals simp only [Instruction.isDelimiter, reduceCtorEq] at hi
    case nop => exact .of_pure ()
    case block | loop | tryBlock => exact .openBlock ..
    case ifThen => exact .after (.pop ..) fun _ => .openBlock ..
    case rethrow => exact .rethrow ..
    case br => exact .br ..
    case brIf => exact .brIf ..
    case brTable => exact .brTable ..
    case ret => exact .ret b
    case select => exact .select b
    case refIsNull => exact .refIsNull b

theorem fetch (b : Backend σ) : Obeys (fetch b.logged) :=
  .bind (.of_modify (fun _ h => h) fun _ _ _ h => h.congr h.dead rfl) fun _ =>
    .bind .of_get fun _ => .bind (.read _) fun _ =>
    .bind (.of_modify (fun _ h => h) fun _ _ _ h => h.congr h.dead rfl) fun _ =>
    .bind (.report b _) fun _ => .bind .of_get fun _ => .read _

end Obeys

end Obeys

section Arms

variable {σ : Type} {b : Backend σ}

theorem isReachable_of_arm (ctx : Context) :
    (armReachability ctx == .reachable) = (ctx.controlAt 1).isReachable := by
  rw [armReachability, Control.isReachable]
  cases (ctx.controlAt 1).reachability <;> rfl

/-- Only the innermost construct changes. -/
theorem controlAt_one_modifyCurrent (ctx : Context) (f : Control → Control) :
    (ctx.modifyCurrent f).controlAt 1 = ctx.controlAt 1 := by
  unfold Context.modifyCurrent Context.modifyControl Context.controlAt
  cases ctx.control <;> simp

theorem controlAt_one_markDead (ctx : Context) : ctx.markDead.controlAt 1 = ctx.controlAt 1 :=
  controlAt_one_modifyCurrent ctx _

theorem current_beginArm (ctx : Context) : (ctx.modifyCurrent fun c =>
      { c with reachability := armReachability ctx }).current.isReachable =
      (ctx.controlAt 1).isReachable := by
  rw [← isReachable_of_arm]
  unfold Context.modifyCurrent Context.modifyControl Context.current Context.controlAt
  rcases h : ctx.control with _ | ⟨c, rest⟩
  · simp [armReachability, Context.controlAt, h, Control.isReachable]
    rfl
  · rfl

/-- Whatever the listener says at the head of the other arm, the arm is live if the construct around
is reachable. -/
theorem Ensures.elseArm_live (ctx : Context) (s : σ) :
    Ensures (elseArm b) ctx s fun _ ctx' _ => ctx'.live = (ctx'.controlAt 1).isReachable := by
  refine .get_bind (.when (Q := fun _ _ => True) (fun _ => .of_check fun _ _ _ => trivial)
    (fun _ => trivial) fun ctx s _ => .when (Q := fun _ _ => True)
    (fun _ => .of_check fun _ _ _ => trivial) (fun _ => trivial) fun ctx s _ =>
    .bind (Q := fun _ _ _ => True) (.of_check fun _ _ _ => trivial) fun _ ctx s _ =>
    .modify_bind (.get_bind (.get_bind (.when (Q := fun _ _ => True)
      (fun _ => .of_tell (fun _ _ => trivial) (fun _ _ => trivial) fun _ _ _ => trivial)
      (fun _ => trivial)
      fun ctx s _ => .get_bind (.modify_bind ?_)))))
  refine .bind (Q := fun _ ctx' _ => ctx'.controlAt 1 = ctx.controlAt 1)
    (.of_check fun u ctx' hr => ?_) fun _ ctx' _ hone => .of_modify ?_
  · obtain ⟨stack, rfl⟩ := (Check.OnOperands.pushMergeValues _).restacks _ _ _ hr
    exact controlAt_one_modifyCurrent ctx _
  · show _ = (ctx'.controlAt 1).isReachable
    rw [hone]
    exact isReachable_of_arm ctx

theorem Ensures.handler_live (what : String) (kind : ControlKind) (params : List ValueType)
    (event : Control → List Value → Event) (ctx : Context) (s : σ) :
    Ensures (handler b what kind params event) ctx s
      fun _ ctx' _ => ctx'.live = (ctx'.controlAt 1).isReachable := by
  refine .bind (Q := fun _ _ _ => True) (.of_check fun _ _ _ => trivial) fun _ ctx s _ =>
    .modify_bind (.bind (Q := fun _ _ _ => True) ⟨fun _ _ _ _ => trivial, fun _ _ _ => trivial⟩
    fun _ ctx s _ =>
    .modify_bind (.bind (Q := fun _ ctx' _ => ctx'.current.isReachable =
      (ctx'.controlAt 1).isReachable) (.of_check fun _ ctx' hr => ?_) fun _ ctx' s' hc =>
      .get_bind (.get_bind ?_)))
  · obtain ⟨stack, rfl⟩ := (Check.OnOperands.pushAll _).restacks _ _ _ hr
    exact (current_beginArm _).trans (congrArg _ (controlAt_one_modifyCurrent _ _).symm)
  · refine .when (Q := fun ctx₂ _ => ctx₂.controlAt 1 = ctx'.controlAt 1)
      (fun _ => .of_tell (fun _ _ => rfl) (fun _ _ => controlAt_one_markDead ctx')
        fun _ _ _ => trivial) (fun _ => rfl)
      fun ctx₂ _ hone => .of_modify ?_
    show ctx'.current.isReachable = (ctx₂.controlAt 1).isReachable
    rw [hone, hc]

theorem Ensures.arm_live (hi : i.beginsArm = true) (ctx : Context) (s : σ) :
    Ensures (instruction b i) ctx s
      fun _ ctx' _ => ctx'.live = (ctx'.controlAt 1).isReachable := by
  cases i <;> try cases hi
  case elseArm => exact .elseArm_live ctx s
  case catchTag => exact .handler_live _ _ _ _ ctx s
  case catchAll =>
    rw [instruction_catchAll]
    exact .handler_live _ _ _ _ ctx s

end Arms

section Runs

variable {σ : Type} {b : Backend σ}

/-- No instruction in dead code is heard of, but for the delimiters of the outermost construct that
is dead. -/
theorem Quiet.instruction (h : ctx.Hushed k outer)
    (hi : i.isDelimiter = true → ctx.control.length ≠ outer.length + 1) :
    Quiet ctx (instruction b.logged i) fun _ ctx' => ∃ k', ctx'.Hushed k' outer := by
  cases hdelimiter : i.isDelimiter with
  | false =>
    exact ((Obeys.plain b hdelimiter).quiet ctx k outer h).mono fun _ _ ⟨k', _, h'⟩ => ⟨k', h'⟩
  | true =>
    have hlength := hi hdelimiter
    rw [h.length] at hlength
    obtain ⟨k', rfl⟩ : ∃ k', k = k' + 1 := Nat.exists_eq_succ_of_ne_zero (by omega)
    exact .delimiter b.logged hdelimiter h

/-- The run goes on from one state to another without coming to a delimiter of the construct that is
the `d`-th from the outside. -/
inductive Passes (b : Backend σ) (d : Nat) (ctx : Context) (s : σ) : Context → σ → Prop
  | refl : Passes b d ctx s ctx s
  | step {ctx₁ ctx₂ ctx₃ : Context} {s₁ s₂ s₃ : σ} {i : Instruction}
    (before : Passes b d ctx s ctx₁ s₁) (hfetch : (fetch b ctx₁).run s₁ = (.ok (i, ctx₂), s₂))
    (hi : i.isDelimiter = true → ctx₂.control.length ≠ d)
    (h : (instruction b i ctx₂).run s₂ = (.ok ((), ctx₃), s₃)) : Passes b d ctx s ctx₃ s₃

/-- The listener hears nothing until a delimiter of the construct that is the `d`-th from the
outside has been read. -/
def Silent (b : Backend σ) (d : Nat) (ctx : Context) (s : σ) : Prop :=
  ∀ ctx₁ s₁, Passes b d ctx s ctx₁ s₁ → s₁ = s ∧ ((fetch b ctx₁).run s₁).2 = s ∧
    ∀ i ctx₂, (fetch b ctx₁).run s₁ = (.ok (i, ctx₂), s) →
      (i.isDelimiter = true → ctx₂.control.length ≠ d) → ((instruction b i ctx₂).run s).2 = s

theorem Passes.hushed (h : ctx.Hushed k outer) {s s' : σ × List Notice}
    (hpasses : Passes b.logged (outer.length + 1) ctx s ctx' s') :
      s' = s ∧ ∃ k', ctx'.Hushed k' outer := by
  induction hpasses with
  | refl => exact ⟨rfl, k, h⟩
  | @step ctx₁ ctx₂ ctx₃ s₁ s₂ s₃ i _ hfetch hi hrun ih =>
    obtain ⟨rfl, k₁, h₁⟩ := ih
    have hquiet := (Obeys.fetch b).quiet ctx₁ k₁ outer h₁
    obtain ⟨k₂, -, h₂⟩ := hquiet.ends s₁ i ctx₂ (congrArg Prod.fst hfetch)
    obtain rfl : s₂ = s₁ := by
      have := hquiet.unheard s₁
      rwa [hfetch] at this
    have hquiet' := Quiet.instruction (b := b) h₂ hi
    obtain rfl : s₃ = s₂ := by
      have := hquiet'.unheard s₂
      rwa [hrun] at this
    exact ⟨rfl, hquiet'.ends s₃ () ctx₃ (congrArg Prod.fst hrun)⟩

theorem Silent.of_hushed (h : ctx.Hushed k outer) (s : σ × List Notice) :
    Silent b.logged (outer.length + 1) ctx s := by
  intro ctx₁ s₁ hpasses
  obtain ⟨rfl, k₁, h₁⟩ := hpasses.hushed h
  have hquiet := (Obeys.fetch b).quiet ctx₁ k₁ outer h₁
  refine ⟨rfl, hquiet.unheard s₁, fun i ctx₂ hfetch hi => ?_⟩
  obtain ⟨k₂, -, h₂⟩ := hquiet.ends s₁ i ctx₂ (congrArg Prod.fst hfetch)
  exact (Quiet.instruction h₂ hi).unheard s₁

/-- The listener may call the whole body dead. -/
theorem Ensures.enter_dead (hclosed : ctx.control = []) (s : σ × List Notice) :
    Ensures (enter b.logged) ctx s fun _ ctx' s' =>
      ∀ n, s'.2.getLast? = some n → n.reply = .ok .dead → ctx'.Hushed 0 [] := by
  refine .get_bind (.bind (Q := fun _ ctx' _ => ctx'.control = []) (.of_read fun _ _ _ => hclosed)
    fun _ ctx s hclosed => .modify_bind (.bind (Q := fun _ ctx' _ => ctx'.control = [])
    (.of_tell (fun _ _ => hclosed) (fun _ _ => ?_) fun _ _ _ => trivial) fun _ ctx s hclosed =>
      .modify_bind
    (.bind (Q := fun _ ctx' _ => ctx'.control.length = 1) (.of_check fun block ctx' hr => ?_)
    fun block ctx s hone => ?_)))
  · simp [Context.markDead, Context.modifyCurrent, Context.modifyControl, hclosed]
  · cases hr
    simp [hclosed]
  · refine .of_tell (fun s' h n hlast hdead => ?_) (fun s' h n hlast hdead => ?_) fun _ _ _ =>
      trivial
    · have hreply : (b.handle ctx (.startBody block) s.1).1 = .ok .proceed := congrArg Prod.fst h
      have hlog : s.2 ++ [⟨ctx.checked .full, .startBody block, .ok .proceed⟩] = s'.2 := by
        rw [← hreply]
        exact congrArg (fun r => r.2.2) h
      rw [← hlog, getLast?_append] at hlast
      cases hlast
      cases hdead
    · have hopen : ctx.control ≠ [] := ne_nil_of_length_eq_add_one hone
      obtain ⟨outer, hhushed, hlength⟩ := Context.hushed_markDead hopen
      obtain rfl : outer = [] := eq_nil_of_length_eq_zero (by omega)
      exact hhushed

end Runs

end Decode

/-- Where a listener calls the code dead, it hears nothing until a delimiter of the construct that
is innermost there has been read; at the start of the body, and within every instruction that is not
a delimiter itself. What it says at the head of an arm has no effect: the arm is live if the
construct around is reachable. -/
theorem dead_code_is_silent {σ : Type} (b : Backend σ) (s₀ : σ) (module : Module) (sig : Signature)
    (body : Array UInt8) (options : DecoderOptions) :
    (∀ ctx s n, (Decode.enter b.logged (.initial module sig body options)).run (s₀, []) =
        (.ok ((), ctx), s) → s.2.getLast? = some n → n.reply = .ok .dead →
          Decode.Silent b.logged 1 ctx s) ∧
    ∀ ctx s i ctx₁ s₁ r s₂,
      Decode.Reached b.logged (.initial module sig body options) (s₀, []) ctx s →
      ctx.control ≠ [] → (Decode.fetch b.logged ctx).run s = (.ok (i, ctx₁), s₁) →
      (Decode.instruction b.logged i ctx₁).run s₁ = (r, s₂) →
      (i.isDelimiter = false → ∃ new, s₂.2 = s.2 ++ new ∧
        ∀ before n after, new = before ++ n :: after → n.reply = .ok .dead → after = [] ∧
          ∀ ctx₂, r = .ok ((), ctx₂) → Decode.Silent b.logged n.context.control.length ctx₂ s₂) ∧
      (i.beginsArm = true → ∀ ctx₂, r = .ok ((), ctx₂) →
        ctx₂.live = (ctx₂.controlAt 1).isReachable) := by
  refine ⟨fun ctx s n henter hlast hdead => ?_, fun ctx s i ctx₁ s₁ r s₂ _ hopen hfetch hrun =>
    ⟨fun hi => ?_, fun hi ctx₂ hr => ?_⟩⟩
  · exact .of_hushed ((Decode.Ensures.enter_dead rfl _).ends () ctx s henter n hlast hdead) s
  · -- The step as a whole, were the instruction a delimiter nothing would be done.
    let step := Decode.fetch b.logged >>= fun j =>
      if j.isDelimiter = false then Decode.instruction b.logged j else pure ()
    have hobeys : Decode.Obeys step := (Decode.Obeys.fetch b).bind fun j => by
      split
      · next hj => exact .plain b hj
      · exact .of_pure ()
    have hstep : (step ctx).run s = (r, s₂) := by
      rw [Decode.run_bind, hfetch]
      simp only [hi, if_true]
      exact hrun
    obtain ⟨new, hnew, hheeds⟩ := hobeys.heeds ctx s hopen
    rw [hstep] at hnew
    refine ⟨new, hnew, fun before n after heq hn => ?_⟩
    obtain ⟨hlast, hends⟩ := hheeds before n after heq hn
    refine ⟨hlast, fun ctx₂ hr => ?_⟩
    obtain ⟨k, outer, hhushed, hlength⟩ := hends () ctx₂ ((congrArg Prod.fst hstep).trans hr)
    rw [← hlength]
    exact .of_hushed hhushed s₂
  · subst hr
    exact (Decode.Ensures.arm_live hi ctx₁ s₁).ends () ctx₂ s₂ hrun

/-- A listener that calls the other arm of every `if` dead still hears of the `drop` in the arm. -/
example : let b : Backend Unit := ⟨fun _ e s => (.ok (match e with
      | .elseArm _ => .dead
      | _ => .proceed), s)⟩
    (decodeBody b.logged ((), []) {} ⟨[], []⟩
      #[0x00, 0x41, 0x00, 0x04, 0x40, 0x05, 0x41, 0x07, 0x1A, 0x0B, 0x0B] {}).2.2.any (fun n =>
        n.event == .drop ⟨.i32, 6⟩) = true := by
  decide +kernel

end OnePass
