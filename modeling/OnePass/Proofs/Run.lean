import OnePass.Proofs.OutlineBody

/-!
The instructions that a run of the decoder visits. No step leaves the function, and what happens at
one instruction decides the run: a fault there is the verdict on the body.
-/
namespace OnePass

/-- Nothing that is fixed for the function differs. -/
structure Context.SameFunction (ctx ctx' : Context) : Prop where
  module : ctx'.module = ctx.module
  sig : ctx'.sig = ctx.sig
  options : ctx'.options = ctx.options

theorem Context.SameFunction.refl (ctx : Context) : ctx.SameFunction ctx := ⟨rfl, rfl, rfl⟩

theorem Context.SameFunction.trans {a b c : Context} (h : a.SameFunction b)
    (h' : b.SameFunction c) : a.SameFunction c :=
  ⟨h'.1.trans h.1, h'.2.trans h.2, h'.3.trans h.3⟩

variable {g : Context → Context} {p : Prop}

namespace Check

variable {α β : Type}

/-- The check changes nothing but the operands. -/
structure OnOperands (m : CheckM α) : Prop where
  restacks : ∀ ctx x ctx', m ctx = .ok (x, ctx') → ∃ stack, ctx' = { ctx with stack }

namespace OnOperands

theorem pure (x : α) : OnOperands (pure x) := by
  refine ⟨fun ctx y ctx' h => ?_⟩
  cases h
  exact ⟨ctx.stack, rfl⟩

theorem get : OnOperands get := by
  refine ⟨fun ctx y ctx' h => ?_⟩
  cases h
  exact ⟨ctx.stack, rfl⟩

theorem restack (h : ∀ ctx : Context, ∃ stack, g ctx = { ctx with stack }) :
    OnOperands (modify g) := by
  refine ⟨fun ctx y ctx' hg => ?_⟩
  cases hg
  exact h ctx

theorem bind {m : CheckM α} {k : α → CheckM β} (hm : OnOperands m) (hk : ∀ x, OnOperands (k x)) :
    OnOperands (m >>= k) := by
  refine ⟨fun ctx y ctx' h => ?_⟩
  obtain ⟨⟨x, ctx₁⟩, h₁, h₂⟩ := Except.bind_eq_ok_iff.1 h
  obtain ⟨stack₁, rfl⟩ := hm.restacks ctx x ctx₁ h₁
  obtain ⟨stack₂, rfl⟩ := (hk x).restacks _ y ctx' h₂
  exact ⟨stack₂, rfl⟩

theorem ite [Decidable p] {m k : CheckM α} (hm : OnOperands m) (hk : OnOperands k) :
    OnOperands (if p then m else k) := by
  split
  · exact hm
  · exact hk

theorem throw (e : DecodeError) : OnOperands (throw e : CheckM α) := by
  refine ⟨fun ctx y ctx' h => ?_⟩
  cases h

theorem fault (e : DecodeFault) : OnOperands (fault e : CheckM α) := .bind .get fun _ => .throw _

theorem push (ty : ValueType) : OnOperands (push ty) :=
  .bind .get fun _ => .bind (.restack fun _ => ⟨_, rfl⟩) fun _ => .pure _

theorem pushAll (types : List ValueType) : OnOperands (pushAll types) := by
  induction types with
  | nil => exact .pure []
  | cons ty types ih =>
    simp only [Check.pushAll, List.mapM_cons]
    exact .bind (.push ty) fun _ => .bind ih fun _ => .pure _

theorem popAny (index : Nat) : OnOperands (popAny index) := by
  refine .bind .get fun ctx => .ite (.ite (.pure _) (.fault _)) ?_
  split
  · exact .bind (.restack fun _ => ⟨_, rfl⟩) fun _ => .pure _
  · exact .fault _

theorem operand (index : Nat) (ty : ValueType) (value : Value) :
    OnOperands (operand index ty value) :=
  .bind .get fun _ => .ite (.pure _) (.fault _)

theorem pop (index : Nat) (ty : ValueType) : OnOperands (pop index ty) :=
  .bind (.popAny index) fun _ => .bind (.operand ..) fun _ => .pure _

theorem popEach (operands : List (ValueType × Nat)) : OnOperands (popEach operands) := by
  induction operands with
  | nil => exact .pure []
  | cons operand operands ih =>
    rw [popEach_cons]
    exact .bind ih fun _ => .bind (.pop ..) fun _ => .pure _

theorem popTypes (shift : Nat) (types : List ValueType) : OnOperands (popTypes shift types) := by
  rw [popTypes_eq_popEach]
  exact .popEach _

section

variable (types : List ValueType)

theorem pushMergeValues : OnOperands (pushMergeValues types) := .restack fun _ => ⟨_, rfl⟩

theorem mergeTypes (what : String) : OnOperands (mergeTypes types what) := by
  refine .bind .get fun ctx => .ite (.pure _) ?_
  dsimp only
  split
  · exact .fault _
  · exact .pure _

theorem unreachableMerge (conditional : Bool) : OnOperands (unreachableMerge types conditional) :=
  .bind (.popTypes ..) fun _ => .bind (.pushAll _) fun _ => .pure _

end

theorem fallthrough : OnOperands fallthrough :=
  .bind .get fun _ => .ite (.ite (.fault _) (.mergeTypes ..))
    (.ite (.fault _) (.unreachableMerge ..))

theorem branch (depth : Nat) (conditional : Bool) : OnOperands (branch depth conditional) :=
  .bind .get fun _ => .ite
    (.ite (.pure _) (.ite (.fault _) (.bind (.mergeTypes ..) fun _ => .pure _)))
    (.bind (.unreachableMerge ..) fun _ => .pure _)

theorem branchTable (types : List ValueType) : OnOperands (branchTable types) :=
  .bind .get fun _ => .ite (.ite (.fault _) (.mergeTypes ..))
    (.bind (.popTypes ..) fun _ => .pure _)

theorem returnTypes : OnOperands returnTypes := .bind .get fun _ => .ite (.fault _) (.mergeTypes ..)

theorem oneArmedIf (c : Control) : OnOperands (oneArmedIf c) := by
  refine .ite (.throw _) (.bind .get fun _ => .ite (.pure _) ?_)
  split
  · exact .throw _
  · exact .pure _

theorem scanTarget (scan : TableScan) (target entry : Nat) :
    OnOperands (scanTarget scan target entry) := by
  refine .bind .get fun ctx => ?_
  split
  · exact .fault _
  · exact .pure _
  · dsimp only
    split
    · exact .pure _
    · exact .ite (.fault _) (.ite (.pure _) (.ite (.pure _) (.ite (.pure _) (.fault _))))

theorem scanTable (table : BranchTable) : OnOperands (scanTable table) := by
  refine .bind .get fun ctx => ?_
  dsimp only
  generalize table.targets.zipIdx = entries
  generalize TableScan.mk _ _ = scan
  induction entries generalizing scan with
  | nil => exact .pure _
  | cons entry entries ih =>
    rw [List.foldlM_cons]
    exact .bind (.scanTarget ..) fun scan => ih scan

theorem requireTry (what : String) : OnOperands (Decode.requireTry what) :=
  .bind .get fun _ => .ite (.fault _) (.ite (.fault _) (.pure _))

end OnOperands

end Check

variable {i : Instruction}

theorem Instruction.onOperands_check {shape : Shape}
    (h : i.shape? = some shape) : Check.OnOperands shape.check :=
  .bind ⟨fun ctx _ _ hr => ⟨ctx.stack, requires_ok h hr⟩⟩ fun _ => .bind (.popEach _) fun _ =>
    .bind (.pushAll _) fun _ => .pure _

namespace Decode

variable {σ α β : Type} {b : Backend σ} {ctx ctx' start : Context} {s s' s₀ : σ}

/-- The listener bails out, or nothing changes, or the code is dead from here on. -/
theorem outcome_tell (b : Backend σ) (e : Event) (ctx : Context) (s : σ) :
    (∃ bailout, outcome (tell b e) ctx s = .error (.unsupported bailout)) ∨
      outcome (tell b e) ctx s = .ok ((), ctx) ∨
        outcome (tell b e) ctx s = .ok ((), ctx.markDead) := by
  rw [outcome, run_tell]
  rcases (b.handle ctx e s).1 with bailout | _ | _
  · exact .inl ⟨bailout, rfl⟩
  · exact .inr (.inl rfl)
  · exact .inr (.inr rfl)

/-- Everything before the first instruction. -/
def enter (b : Backend σ) : DecodeM σ Unit := do
  let ctx ← get
  let locals ← read (readLocals ctx.options.features ctx.sig)
  modify fun ctx => { ctx with locals }
  tell b .startFunction
  modify fun ctx => { ctx with pc := ctx.reader.pos }
  let block ← check (Check.pushControl .block ⟨[], ctx.sig.results⟩)
  tell b (.startBody block)

/-- Read the next instruction. -/
def fetch (b : Backend σ) : DecodeM σ Instruction := do
  modify fun ctx => { ctx with pc := ctx.reader.pos }
  let op ← read (Opcode.read (← get).options.features)
  modify fun ctx => { ctx with opcode := op }
  report b (.nextInstruction op)
  read (Instruction.read (← get).scope op)

theorem step_eq (b : Backend σ) : step b = fetch b >>= instruction b := by
  simp [step, fetch]

theorem run_get_bind (k : Context → DecodeM σ α) (ctx : Context) (s : σ) :
    ((get >>= k) ctx).run s = (k ctx ctx).run s := rfl

theorem run_body (b : Backend σ) (ctx : Context) (s : σ) : (body b ctx).run s =
      ((enter b >>= fun _ => do steps b ctx.bodySize; tell b .finishFunction) ctx).run s := by
  simp only [body, enter, bind_assoc, run_get_bind]

theorem outcome_body (b : Backend σ) (ctx : Context) (s : σ) : outcome (body b) ctx s =
      outcome (enter b >>= fun _ => do steps b ctx.bodySize; tell b .finishFunction) ctx s :=
  congrArg Prod.fst (run_body b ctx s)

/-- The states in which a run reads an instruction or stops. -/
inductive Reached (b : Backend σ) (start : Context) (s₀ : σ) : Context → σ → Prop
  | enter {ctx : Context} {s : σ} (h : (enter b start).run s₀ = (.ok ((), ctx), s)) :
    Reached b start s₀ ctx s
  | step {ctx ctx' : Context} {s s' : σ} (before : Reached b start s₀ ctx s)
    (hopen : ctx.control.isEmpty = false) (hleft : ctx.reader.isAtEnd = false)
    (h : (step b ctx).run s = (.ok ((), ctx'), s')) : Reached b start s₀ ctx' s'

/-- The run comes to the instruction; its operands are still on the stack. -/
def Visits (b : Backend σ) (start : Context) (s₀ : σ) (ctx : Context) (s : σ) (i : Instruction) :
    Prop :=
  ∃ ctx₀ s₁, Reached b start s₀ ctx₀ s₁ ∧ ctx₀.control.isEmpty = false ∧
    ctx₀.reader.isAtEnd = false ∧ (fetch b ctx₀).run s₁ = (.ok (i, ctx), s)

theorem exists_of_run_bind {m : DecodeM σ α} {k : α → DecodeM σ β}
    {y : β} (h : ((m >>= k) ctx).run s = (.ok (y, ctx'), s')) :
    ∃ x ctx₁ s₁, (m ctx).run s = (.ok (x, ctx₁), s₁) ∧ (k x ctx₁).run s₁ = (.ok (y, ctx'), s') := by
  rw [run_bind] at h
  rcases hr : (m ctx).run s with ⟨e | ⟨x, ctx₁⟩, s₁⟩ <;> rw [hr] at h
  · cases h
  · exact ⟨x, ctx₁, s₁, rfl, h⟩

/-- If the step succeeds, then with such a result and in such states; if the listener refuses it,
then for such a reason. -/
structure Meets (fail : Bailout → Prop) (m : DecodeM σ α) (ctx : Context) (s : σ)
    (post : α → Context → σ → Prop) : Prop where
  ends : ∀ x ctx' s', (m ctx).run s = (.ok (x, ctx'), s') → post x ctx' s'
  refused : ∀ b s', (m ctx).run s = (.error (.unsupported b), s') → fail b

/-- If the step succeeds, then with such a result and in such states. -/
abbrev Ensures (m : DecodeM σ α) (ctx : Context) (s : σ) (post : α → Context → σ → Prop) : Prop :=
  Meets (fun _ => True) m ctx s post

namespace Meets

variable {fail : Bailout → Prop} {m : DecodeM σ α} {ctx : Context} {s : σ}
  {post : α → Context → σ → Prop} {Q post' : α → Context → σ → Prop}

theorem of_pure {x : α} (h : post x ctx s) : Meets fail (pure x) ctx s post := by
  refine ⟨fun y ctx' s' hr => ?_, fun b s' hr => ?_⟩ <;> cases hr
  exact h

theorem of_throw (e : DecodeError) : Meets fail (throw (.decode e)) ctx s post := by
  refine ⟨fun y ctx' s' hr => ?_, fun b s' hr => ?_⟩ <;> cases hr

theorem bind {k : α → DecodeM σ β} {post : β → Context → σ → Prop} (hm : Meets fail m ctx s Q)
    (hk : ∀ x ctx' s', Q x ctx' s' → Meets fail (k x) ctx' s' post) :
    Meets fail (m >>= k) ctx s post := by
  rcases hr : (m ctx).run s with ⟨e | ⟨x, ctx₁⟩, s₁⟩
  · refine ⟨fun y ctx' s' h => ?_, fun b s' h => ?_⟩ <;> rw [run_bind, hr] at h <;> cases h
    exact hm.refused _ _ hr
  · have hk' := hk x ctx₁ s₁ (hm.ends x ctx₁ s₁ hr)
    refine ⟨fun y ctx' s' h => ?_, fun b s' h => ?_⟩ <;> rw [run_bind, hr] at h
    · exact hk'.ends y ctx' s' h
    · exact hk'.refused b s' h

theorem get_bind {k : Context → DecodeM σ α} (h : Meets fail (k ctx) ctx s post) :
    Meets fail (get >>= k) ctx s post :=
  ⟨fun x ctx' s' hr => h.ends x ctx' s' hr, fun b s' hr => h.refused b s' hr⟩

theorem of_modify {post : Unit → Context → σ → Prop} (h : post () (g ctx) s) :
    Meets fail (modify g) ctx s post := by
  refine ⟨fun y ctx' s' hr => ?_, fun b s' hr => ?_⟩ <;> cases hr
  exact h

variable {k : Unit → DecodeM σ α}

theorem modify_bind (h : Meets fail (k ()) (g ctx) s post) :
    Meets fail (modify g >>= k) ctx s post :=
  ⟨fun x ctx' s' hr => h.ends x ctx' s' hr, fun b s' hr => h.refused b s' hr⟩

theorem of_check {m : CheckM α} (h : ∀ x ctx', m ctx = .ok (x, ctx') → post x ctx' s) :
    Meets fail (check m) ctx s post := by
  refine ⟨fun y ctx' s' hr => ?_, fun b s' hr => ?_⟩ <;> simp only [check] at hr <;>
    cases hm : m ctx <;> rw [hm] at hr <;> cases hr
  exact h _ _ hm

theorem of_read {m : ReadM α}
    (h : ∀ x r, Reader.Reads m ctx.reader x r → post x { ctx with reader := r } s) :
    Meets fail (read m) ctx s post := by
  refine ⟨fun y ctx' s' hr => ?_, fun b s' hr => ?_⟩ <;> rw [run_read] at hr <;>
    rcases hm : m.run.run ctx.reader with ⟨e | a, r⟩ <;> rw [hm] at hr <;> cases hr
  exact h _ _ hm

/-- A check does not speak to the listener. -/
theorem check_bind {m : CheckM β} {k : β → DecodeM σ α}
    (h : ∀ x ctx', m ctx = .ok (x, ctx') → Meets fail (k x) ctx' s post) :
    Meets fail (check m >>= k) ctx s post := by
  refine .bind (Q := fun x ctx' s' => m ctx = .ok (x, ctx') ∧ s' = s)
    (.of_check fun x ctx' hr => ⟨hr, rfl⟩) ?_
  rintro x ctx' _ ⟨hr, rfl⟩
  exact h x ctx' hr

theorem read_bind {m : ReadM β} {k : β → DecodeM σ α}
    (h : ∀ x r, Reader.Reads m ctx.reader x r → Meets fail (k x) { ctx with reader := r } s post) :
    Meets fail (read m >>= k) ctx s post := by
  refine .bind (Q := fun x ctx' s' => ∃ r, Reader.Reads m ctx.reader x r ∧
    ctx' = { ctx with reader := r } ∧ s' = s) (.of_read fun x r hr => ⟨r, hr, rfl, rfl⟩) ?_
  rintro x _ _ ⟨r, hr, rfl, rfl⟩
  exact h x r hr

theorem ite [Decidable p] {m' : DecodeM σ α} (hm : p → Meets fail m ctx s post)
    (hm' : ¬p → Meets fail m' ctx s post) : Meets fail (if p then m else m') ctx s post := by
  split
  · next hp => exact hm hp
  · next hp => exact hm' hp

/-- A step that is left out unless the condition holds. -/
theorem when [Decidable p] {m : DecodeM σ Unit} {Q : Context → σ → Prop}
    (hm : p → Meets fail m ctx s fun _ => Q) (hm' : ¬p → Q ctx s)
    (hk : ∀ ctx' s', Q ctx' s' → Meets fail (k ()) ctx' s' post) :
    Meets fail (if p then m >>= k else k ()) ctx s post :=
  ite (fun hp => (hm hp).bind fun _ ctx' s' => hk ctx' s') fun hp => hk ctx s (hm' hp)

/-- A check that refuses what it finds. -/
theorem guard [Decidable p] {f : DecodeFault} (hk : ¬p → Meets fail (k ()) ctx s post) :
    Meets fail (if p then check (Check.fault f) >>= k else k ()) ctx s post :=
  ite (fun _ => .check_bind fun _ _ hr => by cases hr) hk

theorem mono (h : Meets fail m ctx s post)
    (hpost : ∀ x ctx' s', post x ctx' s' → post' x ctx' s') : Meets fail m ctx s post' :=
  ⟨fun x ctx' s' hr => hpost x ctx' s' (h.ends x ctx' s' hr), h.refused⟩

theorem of_tell {e : Event} {post : Unit → Context → σ → Prop}
    (hproceed : ∀ s', b.handle ctx e s = (.ok .proceed, s') → post () ctx s')
    (hdead : ∀ s', b.handle ctx e s = (.ok .dead, s') → post () ctx.markDead s')
    (hrefused : ∀ bailout s', b.handle ctx e s = (.error bailout, s') → fail bailout) :
    Meets fail (tell b e) ctx s post := by
  refine ⟨fun y ctx' s' hr => ?_, fun bailout s' hr => ?_⟩ <;> rw [run_tell] at hr <;>
    rcases h : b.handle ctx e s with ⟨bailout | _ | _, s₁⟩ <;> rw [h] at hr <;> cases hr
  · exact hproceed _ h
  · exact hdead _ h
  · exact hrefused _ _ h

end Meets

/-- A visited instruction was read in the scope of the state that it finds. -/
theorem Visits.reads (h : Visits b start s₀ ctx s i) :
    ∃ op r, Reader.Reads (Instruction.read ctx.scope op) r i ctx.reader := by
  obtain ⟨ctx₀, s₁, -, -, -, hfetch⟩ := h
  obtain ⟨_, ctx₁, s₂, -, hfetch⟩ := exists_of_run_bind hfetch
  obtain ⟨_, ctx₂, s₃, -, hfetch⟩ := exists_of_run_bind hfetch
  obtain ⟨op, ctx₃, s₄, -, hfetch⟩ := exists_of_run_bind hfetch
  obtain ⟨_, ctx₄, s₅, -, hfetch⟩ := exists_of_run_bind hfetch
  obtain ⟨_, ctx₅, s₆, -, hfetch⟩ := exists_of_run_bind hfetch
  obtain ⟨_, ctx₆, s₇, hget, hread⟩ := exists_of_run_bind hfetch
  cases hget
  simp only [Decode.read] at hread
  rcases hr : (Instruction.read ctx₅.scope op).run.run ctx₅.reader with ⟨e | i', r⟩ <;>
    rw [hr] at hread <;> cases hread
  exact ⟨op, ctx₅.reader, hr⟩

/-- What is left of a run decides its outcome. -/
theorem Reached.rest (h : Reached b start s₀ ctx s) : (∃ fuel, outcome (body b) start s₀ =
      outcome (do steps b fuel; tell b .finishFunction) ctx s) ∨
    ∃ e, outcome (body b) start s₀ = .error (.decode e) := by
  induction h with
  | enter h =>
    refine .inl ⟨start.bodySize, ?_⟩
    rw [outcome_body, outcome_bind, h]
  | @step ctx ctx' s s' _ hopen hleft h ih =>
    obtain ⟨fuel, hrest⟩ | hfault := ih
    · cases fuel with
      | zero =>
        refine .inr ⟨⟨ctx.reader.pos, .missingEnd⟩, ?_⟩
        rw [hrest, steps, bind_assoc, outcome_get_bind, hopen]
        rfl
      | succ fuel =>
        refine .inl ⟨fuel, ?_⟩
        rw [hrest, steps, bind_assoc, outcome_get_bind, hopen, hleft]
        simp only [Bool.false_eq_true, if_false, bind_assoc]
        rw [outcome_bind, h]
    · exact .inr hfault

/-- A fault at a visited instruction is the verdict, unless the run was at its end already. -/
theorem Visits.fault {e : DecodeError}
    (h : Visits b start s₀ ctx s i) (hi : outcome (instruction b i) ctx s = .error (.decode e)) :
    ∃ e, outcome (body b) start s₀ = .error (.decode e) := by
  obtain ⟨ctx₀, s₁, hreached, hopen, hleft, hfetch⟩ := h
  obtain ⟨fuel, hrest⟩ | hfault := hreached.rest
  · cases fuel with
    | zero =>
      refine ⟨⟨ctx₀.reader.pos, .missingEnd⟩, ?_⟩
      rw [hrest, steps, bind_assoc, outcome_get_bind, hopen]
      rfl
    | succ fuel =>
      refine ⟨e, ?_⟩
      rw [hrest, steps, bind_assoc, outcome_get_bind, hopen, hleft]
      simp only [Bool.false_eq_true, if_false, bind_assoc, step_eq]
      rw [outcome_bind, hfetch]
      simp only [outcome_bind]
      simp only [outcome] at hi
      rcases hr : (instruction b i ctx).run s with ⟨r, s'⟩
      rw [hr] at hi
      cases hi
      rfl
  · exact hfault

end Decode

end OnePass
