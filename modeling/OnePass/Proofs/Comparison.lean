import OnePass.Proofs.Run

/-!
Two runs over one body, compared step by step. They differ in the way of checking, or in who listens
as long as the listeners answer alike. A trusted run skips comparisons of types; until a comparison
fails in the other run, nothing else sets the two apart. A listener that bails out ends its run, and
one that answers like it otherwise goes on.
-/
namespace OnePass

open List

/-- The state with another way of checking. -/
def Context.checked (ctx : Context) (mode : ValidationMode) : Context :=
  { ctx with options := { ctx.options with validation := mode } }

/-- Whether the event announces an instruction. -/
def Event.announces : Event → Bool
  | .nextInstruction _ => true
  | _ => false

/-- The local that the event assigns to. -/
def Event.assigned? : Event → Option Nat
  | .localSet _ index | .localTee _ _ index => some index
  | _ => none

/-- Whether the event begins or ends a function. -/
def Event.delimits : Event → Bool
  | .startFunction | .startBody _ | .finishFunction => true
  | _ => false

/-- The type of the null reference that the event pushes. -/
def Event.nullType? : Event → Option ValueType
  | .refNull ty _ => some ty
  | _ => none

/-- The event announces nothing, assigns nothing and pushes no null reference, inside a function. -/
def Event.isOrdinary (e : Event) : Bool :=
  !e.announces && e.assigned?.isNone && e.nullType?.isNone && !e.delimits

/-- How two runs are compared: the modes they check in, what is known of the listeners' states, and
the errors with which the first run may stop `alone`. `past` relates the state in which it stopped
to what the second run came to after it. The listeners are only told what they are meant to hear,
and of bodies from certain modules. -/
structure Comparison {σ σ' : Type} (b : Backend σ) (b' : Backend σ') where
  mode : ValidationMode
  mode' : ValidationMode
  same : σ → σ' → Prop
  past : σ → σ' → Prop
  alone : CompileError → Prop
  hears : Event → Prop := fun _ => True
  within : Module → Prop := fun _ => True
  ordinary : ∀ {e : Event}, e.isOrdinary = true → hears e := by exact fun _ => trivial
  modes : mode = mode' ∨ (mode = .full ∧ mode' = .trusted) ∧
    ∀ e : DecodeError, e.kind = .typeMismatch → alone (.decode e)
  told : ∀ (ctx : Context) e s s', within ctx.module → hears e → same s s' →
    let r := b.handle (ctx.checked mode) e s
    let r' := b'.handle (ctx.checked mode') e s'
    r.1 = r'.1 ∧ same r.2 r'.2 ∨
      ∃ bailout, r.1 = .error bailout ∧ alone (.unsupported bailout) ∧ past r.2 r'.2
  past_same : mode ≠ mode' → ∀ s s', same s s' → past s s'
  past_told : ∀ (ctx : Context) e s s', past s s' → past s (b'.handle (ctx.checked mode') e s').2

namespace Comparison

variable {σ σ' : Type} {b : Backend σ} {b' : Backend σ'}

/-- Two listeners to runs that check alike. Only where the first bails out may they answer
differently. -/
def ofListeners (b : Backend σ) (b' : Backend σ') (mode : ValidationMode)
    (same past : σ → σ' → Prop)
    (told : ∀ (ctx : Context) e s s', same s s' → let r := b.handle (ctx.checked mode) e s
      let r' := b'.handle (ctx.checked mode) e s'
      r.1 = r'.1 ∧ same r.2 r'.2 ∨ ∃ bailout, r.1 = .error bailout ∧ past r.2 r'.2)
    (past_told : ∀ (ctx : Context) e s s', past s s' →
      past s (b'.handle (ctx.checked mode) e s').2) : Comparison b b' where
  mode := mode
  mode' := mode
  same := same
  past := past
  alone e := ∃ bailout, e = .unsupported bailout
  modes := .inl rfl
  told ctx e s s' _ _ hs := (told ctx e s s' hs).imp_right
    (.imp fun bailout h => ⟨h.1, ⟨bailout, rfl⟩, h.2⟩)
  past_same h := (h rfl).elim
  past_told := past_told

/-- Only the first run compares types. -/
def Lax (R : Comparison b b') : Prop :=
  R.mode ≠ R.mode' ∧ ∀ e : DecodeError, e.kind = .typeMismatch → R.alone (.decode e)

/-- The modes agree, or the second run is the trusted one. -/
theorem trusted (R : Comparison b b') (ctx : Context) :
    (ctx.checked R.mode).options.trusted = (ctx.checked R.mode').options.trusted ∧
      R.mode = R.mode' ∨ R.Lax ∧ (ctx.checked R.mode').options.trusted = true := by
  obtain hmode | ⟨⟨hmode, hmode'⟩, halone⟩ := R.modes
  · exact .inl ⟨by rw [hmode], hmode⟩
  · exact .inr ⟨⟨by simp [hmode, hmode'], halone⟩,
      by simp [Context.checked, DecoderOptions.trusted, hmode']⟩

end Comparison

namespace Decode

variable {σ σ' α β γ δ : Type} {b : Backend σ} {b' : Backend σ'} {R : Comparison b b'}
  {r : Except CompileError (α × Context) × σ} {s' : σ'} {start ctx : Context} {s : σ}

/-- Where the second run can be after the first one stopped in state `s`. -/
def Outlasts (R : Comparison b b') (s : σ) (r : Except CompileError (α × Context) × σ') : Prop :=
  R.past s r.2 ∧ ∀ x ctx, r.1 = .ok (x, ctx) → ∃ ctx₀ : Context, ctx = ctx₀.checked R.mode'

theorem Outlasts.error (e : CompileError) (h : R.past s s') :
    Outlasts (α := α) R s (.error e, s') :=
  ⟨h, fun _ _ hr => by cases hr⟩

theorem Outlasts.ok {x : α} (ctx : Context) (h : R.past s s') :
    Outlasts R s (.ok (x, ctx.checked R.mode'), s') :=
  ⟨h, fun _ _ hr => by cases hr; exact ⟨ctx, rfl⟩⟩

/-- The runs of a step end in states that differ in their modes only, or with the same error, or the
first stops alone. No step leaves the function. -/
inductive SameEnd (R : Comparison b b') (start : Context) (rel : α → β → Prop) :
    Except CompileError (α × Context) × σ → Except CompileError (β × Context) × σ' → Prop
  | ok {x : α} {y : β} {s : σ} {s' : σ'} (ctx : Context) (hctx : start.SameFunction ctx)
    (hrel : rel x y) (hs : R.same s s') :
    SameEnd R start rel (.ok (x, ctx.checked R.mode), s) (.ok (y, ctx.checked R.mode'), s')
  | error {s : σ} {s' : σ'} (e : CompileError) (hs : R.same s s') :
    SameEnd R start rel (.error e, s) (.error e, s')
  | alone {s : σ} {e : CompileError} {r : Except CompileError (β × Context) × σ'}
    (halone : R.alone e) (hlast : Outlasts R s r) : SameEnd R start rel (.error e, s) r

theorem SameEnd.cases
    {r' : Except CompileError (α × Context) × σ'} (h : SameEnd R start Eq r r') :
    (r.1.map Prod.fst = r'.1.map Prod.fst ∧ R.same r.2 r'.2) ∨
      ∃ e, r.1.map Prod.fst = .error e ∧ R.alone e ∧ R.past r.2 r'.2 := by
  cases h with
  | ok ctx _ hrel hs => exact .inl ⟨hrel ▸ rfl, hs⟩
  | error e hs => exact .inl ⟨rfl, hs⟩
  | alone halone hlast => exact .inr ⟨_, rfl, halone, hlast.1⟩

theorem SameEnd.after {rel : α → β → Prop}
    {r' : Except CompileError (β × Context) × σ'}
    (h : SameEnd R ctx rel r r') (hctx : start.SameFunction ctx) : SameEnd R start rel r r' := by
  cases h with
  | ok ctx' hctx' hrel hs => exact .ok ctx' (hctx.trans hctx') hrel hs
  | error e hs => exact .error e hs
  | alone halone hlast => exact .alone halone hlast

/-- From states that differ in their modes only, the steps end alike. -/
structure Compares (R : Comparison b b') (rel : α → β → Prop) (m : DecodeM σ α)
    (m' : DecodeM σ' β) : Prop where
  ends : ∀ (ctx : Context) s s', R.within ctx.module → R.same s s' →
    SameEnd R ctx rel ((m (ctx.checked R.mode)).run s) ((m' (ctx.checked R.mode')).run s')
  outlasts : ∀ (ctx : Context) s s', R.past s s' → Outlasts R s ((m' (ctx.checked R.mode')).run s')

/-- The step fails with a type mismatch. -/
def Mismatches (m : DecodeM σ α) : Prop :=
  ∀ ctx s, ∃ e, (m ctx).run s = (.error (.decode e), s) ∧ e.kind = .typeMismatch

theorem Mismatches.fault {f : DecodeFault} (hkind : f.kind = .typeMismatch) :
    Mismatches (check (Check.fault f) : DecodeM σ α) :=
  fun ctx _ => ⟨⟨ctx.pc, f⟩, rfl, hkind⟩

theorem Mismatches.throw {e : DecodeError} (hkind : e.kind = .typeMismatch) :
    Mismatches (throw (.decode e) : DecodeM σ α) :=
  fun _ _ => ⟨e, rfl, hkind⟩

theorem Outlasts.bind {m : DecodeM σ' α} {k : α → DecodeM σ' β}
    (hm : Outlasts R s ((m ctx).run s')) (hk : ∀ x (ctx : Context) s', R.past s s' →
      Outlasts R s ((k x (ctx.checked R.mode')).run s')) : Outlasts R s
        (((m >>= k) ctx).run s') := by
  rw [run_bind]
  rcases hr : (m ctx).run s' with ⟨e | ⟨y, ctx₁⟩, s₁⟩ <;> rw [hr] at hm
  · exact .error e hm.1
  · obtain ⟨ctx₀, rfl⟩ := hm.2 y ctx₁ rfl
    exact hk y ctx₀ s₁ hm.1

namespace Compares

variable {rel : α → β → Prop} {m : DecodeM σ α} {k' : Unit → DecodeM σ' β} {k : Unit → DecodeM σ α}
  {m' : DecodeM σ' Unit}

theorem pure {x : α} {y : β} (h : rel x y) : Compares R rel (pure x) (pure y) where
  ends ctx _ _ _ hs := .ok ctx (.refl ctx) h hs
  outlasts ctx _ _ hs := .ok ctx hs

/-- Every answer of the second run is one that the first could have given. -/
theorem bindRel {rel' : γ → δ → Prop} {m' : DecodeM σ' β}
    {k : α → DecodeM σ γ} {k' : β → DecodeM σ' δ} (hm : Compares R rel m m')
    (htotal : ∀ y, ∃ x, rel x y) (hk : ∀ x y, rel x y → Compares R rel' (k x) (k' y)) :
    Compares R rel' (m >>= k) (m' >>= k') := by
  have hlater : ∀ (s : σ) y (ctx : Context) s', R.past s s' →
      Outlasts R s ((k' y (ctx.checked R.mode')).run s') := by
    intro s y ctx s' hpast
    obtain ⟨x, hx⟩ := htotal y
    exact (hk x y hx).outlasts ctx s s' hpast
  refine ⟨fun ctx s s' hctx hs => ?_, fun ctx s s' hs => (hm.outlasts ctx s s' hs).bind (hlater s)⟩
  have h := hm.ends ctx s s' hctx hs
  rw [run_bind]
  generalize (m (ctx.checked R.mode)).run s = r at h
  generalize hr' : (m' (ctx.checked R.mode')).run s' = r' at h
  cases h with
  | ok ctx₁ hctx₁ hrel hs₁ =>
    rw [run_bind, hr']
    exact ((hk _ _ hrel).ends ctx₁ _ _ (hctx₁.module ▸ hctx) hs₁).after hctx₁
  | error e hs₁ =>
    rw [run_bind, hr']
    exact .error e hs₁
  | alone halone hlast => exact .alone halone (Outlasts.bind (hr' ▸ hlast) (hlater _))

theorem bind {rel : γ → δ → Prop} {m' : DecodeM σ' α} {k : α → DecodeM σ γ}
    {k' : α → DecodeM σ' δ} (hm : Compares R Eq m m') (hk : ∀ x, Compares R rel (k x) (k' x)) :
    Compares R rel (m >>= k) (m' >>= k') :=
  hm.bindRel (fun y => ⟨y, rfl⟩) fun x _ hxy => hxy ▸ hk x

theorem get {k : Context → DecodeM σ α} {k' : Context → DecodeM σ' β}
    (h : ∀ ctx : Context, Compares R rel (k (ctx.checked R.mode)) (k' (ctx.checked R.mode'))) :
    Compares R rel (get >>= k) (get >>= k') where
  ends ctx := (h ctx).ends ctx
  outlasts ctx := (h ctx).outlasts ctx

theorem modify {g : Context → Context}
    (h : ∀ (ctx : Context) mode, g (ctx.checked mode) = (g ctx).checked mode ∧
      ctx.SameFunction (g ctx)) :
    Compares R Eq (modify g) (modify g) where
  ends ctx s s' _ hs := by
    change SameEnd R ctx Eq (.ok ((), g (ctx.checked R.mode)), s)
      (.ok ((), g (ctx.checked R.mode')), s')
    rw [(h ctx _).1, (h ctx _).1]
    exact .ok (g ctx) (h ctx R.mode).2 rfl hs
  outlasts ctx s s' hs := by
    change Outlasts R s (.ok ((), g (ctx.checked R.mode')), s')
    rw [(h ctx _).1]
    exact .ok (g ctx) hs

section

variable {p : Prop} {m k : DecodeM σ α} {m' k' : DecodeM σ' β}

theorem cases [Decidable p] (hm : p → Compares R rel m m') (hk : ¬ p → Compares R rel k k') :
    Compares R rel (if p then m else k) (if p then m' else k') := by
  split
  next h => exact hm h
  next h => exact hk h

theorem ite [Decidable p] (hm : Compares R rel m m') (hk : Compares R rel k k') :
    Compares R rel (if p then m else k) (if p then m' else k') :=
  cases (fun _ => hm) fun _ => hk

end

/-- A step that is left out unless the condition holds. -/
theorem when {p : Prop} [Decidable p] {m : DecodeM σ Unit} (hm : Compares R Eq m m')
    (hk : Compares R rel (k ()) (k' ())) :
    Compares R rel (if p then m >>= k else k ()) (if p then m' >>= k' else k' ()) :=
  ite (bind hm fun _ => hk) hk

theorem throw (e : CompileError) : Compares R rel (throw e) (throw e) where
  ends _ _ _ _ hs := .error e hs
  outlasts _ _ _ hs := .error e hs

theorem fault (f : DecodeFault) :
    Compares R rel (check (Check.fault f)) (check (Check.fault f)) where
  ends ctx _ _ _ hs := .error (.decode ⟨ctx.pc, f⟩) hs
  outlasts ctx _ _ hs := .error (.decode ⟨ctx.pc, f⟩) hs

/-- A comparison of types that only the first run makes has failed. -/
theorem skipped {y : β} (hm : Mismatches m) (hlax : R.Lax) : Compares R rel m (Pure.pure y) where
  ends ctx s s' _ hs := by
    obtain ⟨e, hrun, hkind⟩ := hm (ctx.checked R.mode) s
    rw [hrun]
    exact .alone (hlax.2 e hkind) (.ok ctx (R.past_same hlax.1 s s' hs))
  outlasts ctx _ _ hs := .ok ctx hs

/-- A condition that holds in trusted mode, with a type mismatch where it fails. -/
theorem require {p p' : Bool} {m : DecodeM σ Unit} (hm : Mismatches m)
    (hsame : R.mode = R.mode' → Compares R Eq m m')
    (hp : p = p' ∧ R.mode = R.mode' ∨ R.Lax ∧ p' = true) :
    Compares R Eq (if p then Pure.pure () else m) (if p' then Pure.pure () else m') := by
  obtain ⟨rfl, hmode⟩ | ⟨hlax, rfl⟩ := hp
  · exact ite (pure rfl) (hsame hmode)
  · cases p with
    | true => exact pure rfl
    | false => exact skipped hm hlax

/-- A type mismatch under a condition that does not hold in trusted mode. -/
theorem reject {p p' : Bool} {f : DecodeFault}
    (hkind : f.kind = .typeMismatch) (hp : p = p' ∨ R.Lax ∧ p' = false)
    (hk : Compares R rel (k ()) (k' ())) :
    Compares R rel (if p then check (Check.fault f) >>= k else k ())
      (if p' then check (Check.fault f) >>= k' else k' ()) := by
  obtain rfl | ⟨hlax, rfl⟩ := hp
  · exact when (fault f) hk
  · cases p with
    | true =>
      have hrest : (k' () : DecodeM σ' β) = Pure.pure () >>= k' := (pure_bind () k').symm
      simp only [if_true, Bool.false_eq_true, if_false, hrest]
      exact bind (skipped (.fault hkind) hlax) fun _ => hk
    | false => exact hk

theorem read (m : ReadM α) : Compares R Eq (read m) (read m) := by
  have hreader : ∀ (ctx : Context) mode, (ctx.checked mode).reader = ctx.reader := fun _ _ => rfl
  refine ⟨fun ctx s s' _ hs => ?_, fun ctx s s' hs => ?_⟩
  · rw [run_read, run_read, hreader, hreader]
    rcases m.run.run ctx.reader with ⟨e | a, r⟩
    · exact .error _ hs
    · exact .ok { ctx with reader := r } ⟨rfl, rfl, rfl⟩ rfl hs
  · rw [run_read, hreader]
    rcases m.run.run ctx.reader with ⟨e | a, r⟩
    · exact .error _ hs
    · exact .ok { ctx with reader := r } hs

end Compares

/-- Whatever the second listener answers, its run goes on in its mode. -/
theorem outlasts_tell (e : Event) (ctx : Context)
    (h : R.past s (b'.handle (ctx.checked R.mode') e s').2) :
    Outlasts R s ((tell b' e (ctx.checked R.mode')).run s') := by
  rw [run_tell]
  rcases (b'.handle (ctx.checked R.mode') e s').1 with bailout | _ | _
  · exact .error _ h
  · exact .ok ctx h
  · exact .ok ctx.markDead h

namespace Compares

variable {rel : α → β → Prop} {types types' : List ValueType}

theorem tell {e : Event} (he : R.hears e) : Compares R Eq (tell b e) (tell b' e) := by
  refine ⟨fun ctx s s' hctx hs => ?_, fun ctx s s' hs => ?_⟩
  · rw [run_tell]
    obtain ⟨hreply, hs₁⟩ | ⟨bailout, hbail, halone, hpast⟩ := R.told ctx e s s' hctx he hs
    · rw [run_tell, hreply]
      rcases (b'.handle (ctx.checked R.mode') e s').1 with bailout | _ | _
      · exact .error _ hs₁
      · exact .ok ctx (.refl ctx) rfl hs₁
      · exact .ok ctx.markDead ⟨rfl, rfl, rfl⟩ rfl hs₁
    · rw [hbail]
      exact .alone halone (outlasts_tell e ctx hpast)
  · exact outlasts_tell e ctx (R.past_told ctx e s s' hs)

theorem report {e : Event} (he : R.hears e) : Compares R Eq (report b e) (report b' e) :=
  get fun _ => ite (tell he) (pure rfl)

open Check

theorem push (ty : ValueType) : Compares R Eq (check (push ty)) (check (push ty)) := by
  simp only [Check.push, check_bind]
  exact get fun _ => bind (modify fun _ _ => ⟨rfl, rfl, rfl, rfl⟩) fun _ => pure rfl

theorem pushAll (types : List ValueType) :
    Compares R Eq (check (pushAll types)) (check (pushAll types)) := by
  induction types with
  | nil => exact pure rfl
  | cons ty types ih =>
    simp only [Check.pushAll, mapM_cons, check_bind]
    exact bind (push ty) fun _ => bind ih fun _ => pure rfl

theorem popAny (index : Nat) : Compares R Eq (check (popAny index)) (check (popAny index)) := by
  simp only [Check.popAny, check_bind, check_ite]
  refine get fun ctx => ite (ite (pure rfl) (fault _)) ?_
  simp only [Context.checked]
  cases ctx.stack.back? with
  | none => exact fault _
  | some value =>
    simp only [check_bind]
    exact bind (modify fun _ _ => ⟨rfl, rfl, rfl, rfl⟩) fun _ => pure rfl

/-- What is expected may differ where only the first run looks at it. -/
theorem operand (index : Nat) {ty ty' : ValueType} (value : Value)
    (h : R.mode = R.mode' → ty = ty') :
    Compares R Eq (check (operand index ty value)) (check (operand index ty' value)) := by
  simp only [Check.operand, check_bind, check_ite]
  refine get fun ctx => require (.fault rfl) (fun hmode => h hmode ▸ fault _) ?_
  obtain ⟨ht, hmode⟩ | ⟨hlax, ht⟩ := R.trusted ctx
  · exact .inl ⟨by rw [ht, h hmode], hmode⟩
  · exact .inr ⟨hlax, by simp [ht]⟩

theorem popAs (index : Nat) {ty ty' : ValueType} (h : R.mode = R.mode' → ty = ty') :
    Compares R Eq (check (pop index ty)) (check (pop index ty')) := by
  simp only [Check.pop, check_bind]
  exact bind (popAny index) fun _ => bind (operand _ _ h) fun _ => pure rfl

theorem pop (index : Nat) (ty : ValueType) :
    Compares R Eq (check (pop index ty)) (check (pop index ty)) :=
  popAs index fun _ => rfl

theorem popEach (operands : List (ValueType × Nat)) :
    Compares R Eq (check (popEach operands)) (check (popEach operands)) := by
  induction operands with
  | nil => exact pure rfl
  | cons operand operands ih =>
    rw [popEach_cons]
    simp only [check_bind]
    exact bind ih fun _ => bind (pop ..) fun _ => pure rfl

theorem popTypesAs (shift : Nat)
    (hlength : types.length = types'.length) (h : R.mode = R.mode' → types = types') :
    Compares R Eq (check (popTypes shift types)) (check (popTypes shift types')) := by
  unfold Check.popTypes
  generalize 0 = start
  induction types generalizing types' start with
  | nil =>
    obtain rfl : types' = [] := length_eq_zero_iff.1 hlength.symm
    exact pure rfl
  | cons ty types ih =>
    obtain ⟨ty', types', rfl⟩ := exists_cons_of_length_eq_add_one hlength.symm
    simp only [zipIdx_cons, foldrM_cons, check_bind]
    exact bind (ih (Nat.succ.inj hlength) (fun hmode => (List.cons.inj (h hmode)).2) _) fun _ =>
      bind (popAs _ fun hmode => (List.cons.inj (h hmode)).1) fun _ => pure rfl

theorem popTypes (shift : Nat) (types : List ValueType) :
    Compares R Eq (check (popTypes shift types)) (check (popTypes shift types)) :=
  popTypesAs shift rfl fun _ => rfl

theorem mergeTypesAs (h : R.mode = R.mode' → types = types') (what : String) :
    Compares R Eq (check (mergeTypes types what)) (check (mergeTypes types' what)) := by
  simp only [Check.mergeTypes, check_bind, check_ite]
  refine get fun ctx => ?_
  obtain ⟨ht, hmode⟩ | ⟨hlax, ht⟩ := R.trusted ctx
  · obtain rfl := h hmode
    rw [ht]
    refine ite (pure rfl) ?_
    simp only [Context.checked]
    split
    · exact fault _
    · exact pure rfl
  · rw [ht, if_pos rfl]
    split
    · exact pure rfl
    · split
      · exact skipped (.fault rfl) hlax
      · exact pure rfl

theorem mergeTypes (types : List ValueType) (what : String) :
    Compares R Eq (check (mergeTypes types what)) (check (mergeTypes types what)) :=
  mergeTypesAs (fun _ => rfl) what

theorem unreachableMerge (types : List ValueType) (conditional : Bool) :
    Compares R Eq (check (unreachableMerge types conditional))
      (check (unreachableMerge types conditional)) := by
  simp only [Check.unreachableMerge, check_bind]
  exact bind (popTypes ..) fun _ => bind (pushAll _) fun _ => pure rfl

theorem fallthrough : Compares R Eq (check fallthrough) (check fallthrough) := by
  simp only [Check.fallthrough, check_bind, check_ite]
  exact get fun _ => ite (ite (fault _) (mergeTypes ..)) (ite (fault _) (unreachableMerge ..))

theorem branch (depth : Nat) (conditional : Bool) :
    Compares R Eq (check (branch depth conditional)) (check (branch depth conditional)) := by
  simp only [Check.branch, check_bind, check_ite]
  exact get fun _ => ite (ite (pure rfl) (ite (fault _) (bind (mergeTypes ..) fun _ => pure rfl)))
    (bind (unreachableMerge ..) fun _ => pure rfl)

theorem branchTable (hlength : types.length = types'.length)
    (h : R.mode = R.mode' → types = types') :
    Compares R Eq (check (branchTable types)) (check (branchTable types')) := by
  simp only [Check.branchTable, check_bind, check_ite, hlength]
  exact get fun _ => ite (ite (fault _) (mergeTypesAs h _))
    (bind (popTypesAs 1 hlength h) fun _ => pure rfl)

theorem pushControl (kind : ControlKind) (type : BlockType) :
    Compares R Eq (check (pushControl kind type)) (check (pushControl kind type)) := by
  simp only [Check.pushControl, check_bind]
  exact get fun _ => bind (modify fun _ _ => ⟨rfl, rfl, rfl, rfl⟩) fun _ => pure rfl

theorem pushMergeValues (types : List ValueType) :
    Compares R Eq (check (pushMergeValues types)) (check (pushMergeValues types)) :=
  modify fun _ _ => ⟨rfl, rfl, rfl, rfl⟩

theorem endControl : Compares R Eq (endControl b) (endControl b') :=
  bind (modify fun _ _ => ⟨rfl, rfl, rfl, rfl⟩) fun _ => get fun _ =>
    bind (report (R.ordinary rfl)) fun _ => modify fun _ _ => ⟨rfl, rfl, rfl, rfl⟩

theorem fallThru : Compares R Eq (fallThru b) (fallThru b') :=
  bind fallthrough fun _ => get fun _ =>
    ite (when (tell (R.ordinary rfl)) (modify fun _ _ => ⟨rfl, rfl, rfl, rfl⟩)) (pure rfl)

theorem popControl : Compares R Eq (popControl b) (popControl b') := by
  refine get fun c => get fun _ => when (tell (R.ordinary rfl)) (when (pushMergeValues _)
    (modify fun ctx mode => ?_))
  dsimp only
  split <;> exact ⟨rfl, rfl, rfl, rfl⟩

theorem openBlock (kind : ControlKind) (type : BlockType) {event : Control → Event}
    (hevent : ∀ c, (event c).isOrdinary = true) :
    Compares R Eq (openBlock b kind type event) (openBlock b' kind type event) :=
  bind (popTypes ..) fun _ => bind (pushControl ..) fun c =>
    bind (report (R.ordinary (hevent c))) fun _ => pushMergeValues _

theorem elseArm : Compares R Eq (elseArm b) (elseArm b') :=
  get fun _ => when (fault _) (when (fault _) (bind fallthrough fun _ =>
    bind (modify fun _ _ => ⟨rfl, rfl, rfl, rfl⟩) fun _ => get fun _ => get fun _ =>
    when (tell (R.ordinary rfl)) (get fun _ =>
    bind (modify fun _ _ => ⟨rfl, rfl, rfl, rfl⟩) fun _ => bind (pushMergeValues _) fun _ =>
    modify fun _ _ => ⟨rfl, rfl, rfl, rfl⟩)))

theorem requireTry (what : String) :
    Compares R Eq (check (requireTry what)) (check (requireTry what)) := by
  simp only [Decode.requireTry, check_bind, check_ite]
  exact get fun _ => ite (fault _) (ite (fault _) (pure rfl))

theorem beginArm : Compares R Eq beginArm beginArm := modify fun _ _ => ⟨rfl, rfl, rfl, rfl⟩

theorem handler (what : String) (kind : ControlKind) (params : List ValueType)
    {event : Control → List Value → Event}
      (hevent : ∀ c values, (event c values).isOrdinary = true) :
    Compares R Eq (handler b what kind params event) (handler b' what kind params event) :=
  bind (requireTry _) fun _ => bind (modify fun _ _ => ⟨rfl, rfl, rfl, rfl⟩) fun _ =>
    bind fallThru fun _ => bind beginArm fun _ => bind (pushAll _) fun _ => get fun _ =>
    get fun _ => when (tell (R.ordinary (hevent _ _))) (modify fun _ _ => ⟨rfl, rfl, rfl, rfl⟩)

theorem rethrowUncaught : Compares R Eq (rethrowUncaught b) (rethrowUncaught b') :=
  bind fallThru fun _ => bind (modify fun _ _ => ⟨rfl, rfl, rfl, rfl⟩) fun _ => get fun _ =>
    get fun _ => when (tell (R.ordinary rfl))
    (bind (modify fun _ _ => ⟨rfl, rfl, rfl, rfl⟩) fun _ => bind (report (R.ordinary rfl)) fun _ =>
    endControl)

theorem endBody : Compares R Eq (endBody b) (endBody b') :=
  get fun _ => when (throw _) (bind (report (R.ordinary rfl)) fun _ =>
    modify fun _ _ => ⟨rfl, rfl, rfl, rfl⟩)

theorem oneArmedIf (c : Control) : Compares R Eq (check (oneArmedIf c)) (check (oneArmedIf c)) := by
  simp only [Check.oneArmedIf, check_bind, check_ite]
  refine ite (throw _) (get fun ctx => ?_)
  obtain ⟨ht, hmode⟩ | ⟨hlax, ht⟩ := R.trusted ctx
  · rw [ht]
    refine ite (pure rfl) ?_
    split
    · exact throw _
    · exact pure rfl
  · rw [ht, if_pos rfl]
    split
    · exact pure rfl
    · split
      · exact skipped (.throw rfl) hlax
      · exact pure rfl

theorem endBlock : Compares R Eq (endBlock b) (endBlock b') :=
  get fun _ => when (fault _) (when (oneArmedIf _) (when rethrowUncaught
    (bind fallthrough fun _ => get fun _ => ite endBody popControl)))

theorem br (depth : Nat) : Compares R Eq (br b depth) (br b' depth) :=
  bind (branch ..) fun _ => ite (bind (report (R.ordinary rfl)) fun _ =>
    bind (modify fun _ _ => ⟨rfl, rfl, rfl, rfl⟩) fun _ => endControl) endControl

theorem brIf (depth : Nat) : Compares R Eq (brIf b depth) (brIf b' depth) :=
  bind (pop ..) fun _ => bind (branch ..) fun _ => ite (bind (report (R.ordinary rfl)) fun _ =>
    modify fun _ _ => ⟨rfl, rfl, rfl, rfl⟩) (pure rfl)

/-- The scans saw the same depths and found equally many types. -/
def SameScan (R : Comparison b b') (scan scan' : TableScan) : Prop :=
  scan.seen = scan'.seen ∧ scan.types.map List.length = scan'.types.map List.length ∧
    (R.mode = R.mode' → scan.types = scan'.types)

theorem SameScan.refl (scan : TableScan) : SameScan R scan scan := ⟨rfl, rfl, fun _ => rfl⟩

theorem scanTarget {scan scan' : TableScan} (h : SameScan R scan scan') (target entry : Nat) :
    Compares R (SameScan R) (check (scanTarget scan target entry))
      (check (scanTarget scan' target entry)) := by
  obtain ⟨seen, types⟩ := scan
  obtain ⟨seen', types'⟩ := scan'
  obtain ⟨rfl, hlength, htypes⟩ := h
  simp only [Check.scanTarget, check_bind]
  refine get fun ctx => ?_
  match hseen : seen[target]? with
  | none => exact fault _
  | some true => exact pure ⟨rfl, hlength, htypes⟩
  | some false =>
    match types, types', hlength with
    | none, none, _ => exact pure (.refl _)
    | some previous, some previous', hlength =>
      have hlength : previous.length = previous'.length := by simpa using hlength
      simp only [check_ite, hlength]
      refine cases (fun _ => fault _) fun harity => ?_
      rw [ne_eq, Decidable.not_not] at harity
      obtain ⟨ht, hmode⟩ | ⟨hlax, ht⟩ := R.trusted ctx
      · obtain rfl : previous = previous' := Option.some.inj (htypes hmode)
        rw [ht]
        exact ite (pure (.refl _)) (ite (pure (.refl _)) (ite (pure (.refl _)) (fault _)))
      · rw [ht, if_pos rfl]
        split
        · exact pure ⟨rfl, by simpa using hlength, fun h => (hlax.1 h).elim⟩
        · split
          · refine pure ⟨rfl, ?_, fun h => (hlax.1 h).elim⟩
            simp [hlength, harity]
          · split
            · exact pure ⟨rfl, by simpa using hlength, fun h => (hlax.1 h).elim⟩
            · exact skipped (.fault rfl) hlax

theorem scanTable (table : BranchTable) :
    Compares R (SameScan R) (check (scanTable table)) (check (scanTable table)) := by
  simp only [Check.scanTable, check_bind]
  refine get fun ctx => ?_
  have hfold : ∀ (targets : List (Nat × Nat)) (scan scan' : TableScan), SameScan R scan scan' →
      Compares R (SameScan R)
        (check (targets.foldlM (fun scan t => Check.scanTarget scan t.1 t.2) scan))
        (check (targets.foldlM (fun scan t => Check.scanTarget scan t.1 t.2) scan')) := by
    intro targets
    induction targets with
    | nil => exact fun _ _ h => pure h
    | cons t targets ih =>
      intro scan scan' h
      simp only [foldlM_cons, check_bind]
      exact bindRel (scanTarget h _ _) (fun y => ⟨y, .refl y⟩) ih
  exact hfold _ _ _ (.refl _)

theorem brTable (table : BranchTable) : Compares R Eq (brTable b table) (brTable b' table) := by
  refine bind (pop ..) fun _ => bindRel (scanTable table) (fun y => ⟨y, .refl y⟩) ?_
  rintro ⟨seen, types⟩ ⟨seen', types'⟩ ⟨rfl, hlength, htypes⟩
  have hlength : (types.getD []).length = (types'.getD []).length := by
    cases types <;> cases types' <;> simp_all
  exact bind (branchTable hlength fun hmode => htypes hmode ▸ rfl) fun _ =>
    get fun _ => ite (bind (tell (R.ordinary rfl)) fun _ =>
      bind (modify fun _ _ => ⟨rfl, rfl, rfl, rfl⟩) fun _ => endControl) endControl

theorem returnTypes : Compares R Eq (check returnTypes) (check returnTypes) := by
  simp only [Check.returnTypes, check_bind, check_ite]
  exact get fun _ => ite (fault _) (mergeTypes ..)

theorem ret : Compares R Eq (ret b) (ret b') :=
  get fun _ => ite (bind returnTypes fun _ => bind (tell (R.ordinary rfl)) fun _ => endControl)
    (bind (popTypes ..) fun _ => endControl)

theorem rethrow (depth : Nat) : Compares R Eq (rethrow b depth) (rethrow b' depth) :=
  get fun _ => when (fault _) (bind (report (R.ordinary rfl)) fun _ => endControl)

theorem tailCallReturns (sig : Signature) :
    Compares R Eq (check (tailCallReturns sig)) (check (tailCallReturns sig)) := by
  simp only [Check.tailCallReturns, check_bind, check_ite]
  refine get fun ctx => require (.fault rfl) (fun _ => fault _) ?_
  obtain ⟨ht, hmode⟩ | ⟨hlax, ht⟩ := R.trusted ctx
  · exact .inl ⟨by rw [ht]; rfl, hmode⟩
  · exact .inr ⟨hlax, by simp [ht]⟩

theorem elementTypes (src dst : ValueType) :
    Compares R Eq (check (elementTypes src dst)) (check (elementTypes src dst)) := by
  simp only [Check.elementTypes, check_bind, check_ite]
  refine get fun ctx => require (.fault rfl) (fun _ => fault _) ?_
  obtain ⟨ht, hmode⟩ | ⟨hlax, ht⟩ := R.trusted ctx
  · exact .inl ⟨by rw [ht], hmode⟩
  · exact .inr ⟨hlax, by simp [ht]⟩

theorem select : Compares R Eq (select b) (select b') := by
  refine bind (pop ..) fun _ => bind (popAny _) fun _ => bind (pop ..) fun _ => get fun ctx =>
    reject rfl ?_ (bind (push _) fun _ => report (R.ordinary rfl))
  obtain ⟨ht, -⟩ | ⟨hlax, ht⟩ := R.trusted ctx
  · exact .inl (by rw [ht])
  · exact .inr ⟨hlax, by simp [ht]⟩

theorem refIsNull : Compares R Eq (refIsNull b) (refIsNull b') := by
  refine bind (popAny _) fun _ => get fun ctx => reject rfl ?_ (bind (push _) fun _ =>
    report (R.ordinary rfl))
  obtain ⟨ht, -⟩ | ⟨hlax, ht⟩ := R.trusted ctx
  · exact .inl (by rw [ht])
  · exact .inr ⟨hlax, by simp [ht]⟩

theorem shape {i : Instruction} {shape : Shape} (h : i.shape? = some shape)
    (hevent : ∀ args results, R.hears (shape.event args results)) :
    Compares R Eq (instruction b i) (instruction b' i) := by
  have hrequires : Compares R Eq (check shape.requires) (check shape.requires) := by
    obtain heq | ⟨sig, heq⟩ | ⟨src, dst, heq⟩ := i.requires_cases h <;> rw [heq]
    · exact pure rfl
    · exact tailCallReturns sig
    · exact elementTypes src dst
  rw [instruction_eq_shape b h, instruction_eq_shape b' h]
  simp only [Shape.check, check_bind, check_pure, bind_assoc, pure_bind]
  exact bind hrequires fun _ => bind (popEach _) fun _ => bind (pushAll _) fun _ =>
    bind (report (hevent _ _)) fun _ => ite endControl (pure rfl)

/-- Every instruction runs alike, up to a comparison of types. -/
theorem instruction {i : Instruction} (hevent : ∀ shape, i.shape? = some shape →
    ∀ args results, R.hears (shape.event args results)) :
    Compares R Eq (instruction b i) (instruction b' i) := by
  cases hshape : i.shape? with
  | some => exact shape hshape (hevent _ hshape)
  | none =>
    cases i
    all_goals simp only [Instruction.shape?, reduceCtorEq] at hshape
    case nop => exact pure rfl
    case block | loop | tryBlock => exact openBlock _ _ fun _ => rfl
    case ifThen => exact bind (pop ..) fun _ => openBlock _ _ fun _ => rfl
    case elseArm => exact elseArm
    case endBlock => exact endBlock
    case catchTag => exact handler _ _ _ fun _ _ => rfl
    case catchAll =>
      rw [instruction_catchAll, instruction_catchAll]
      exact handler _ _ _ fun _ _ => rfl
    case rethrow => exact rethrow _
    case br => exact br _
    case brIf => exact brIf _
    case brTable => exact brTable _
    case ret => exact ret
    case select => exact select
    case refIsNull => exact refIsNull

section Hearing

variable (hall : ∀ e, R.hears e)
include hall

theorem enter : Compares R Eq (enter b) (enter b') :=
  get fun _ => bind (read _) fun _ => bind (modify fun _ _ => ⟨rfl, rfl, rfl, rfl⟩) fun _ =>
    bind (tell (hall _)) fun _ => bind (modify fun _ _ => ⟨rfl, rfl, rfl, rfl⟩) fun _ =>
    bind (pushControl ..) fun _ => tell (hall _)

theorem fetch : Compares R Eq (fetch b) (fetch b') :=
  bind (modify fun _ _ => ⟨rfl, rfl, rfl, rfl⟩) fun _ => get fun _ => bind (read _) fun _ =>
    bind (modify fun _ _ => ⟨rfl, rfl, rfl, rfl⟩) fun _ => bind (report (hall _)) fun _ =>
    get fun _ => read _

theorem step : Compares R Eq (step b) (step b') := by
  rw [step_eq, step_eq]
  exact bind (fetch hall) fun _ => instruction fun _ _ _ _ => hall _

theorem steps (fuel : Nat) : Compares R Eq (steps b fuel) (steps b' fuel) := by
  induction fuel with
  | zero => exact get fun _ => ite (throw _) (pure rfl)
  | succ fuel ih =>
    exact get fun _ => ite (pure rfl) (ite (throw _) (bind (step hall) fun _ => ih))

theorem body (ctx : Context) {s : σ} {s' : σ'} (hctx : R.within ctx.module) (hs : R.same s s') :
    SameEnd R ctx Eq ((body b (ctx.checked R.mode)).run s)
      ((body b' (ctx.checked R.mode')).run s') := by
  rw [run_body, run_body]
  exact ((enter hall).bind fun _ => (steps hall ctx.bodySize).bind fun _ =>
    tell (hall _)).ends ctx s s' hctx hs

end Hearing

end Compares

end Decode

namespace Comparison

variable {σ σ' : Type} {b : Backend σ} {b' : Backend σ'}

/-- The runs over a whole body. -/
theorem decodeBody (R : Comparison b b') {s : σ} {t : σ'} (hs : R.same s t) (module : Module)
    (sig : Signature) (bytes : Array UInt8) (features : FeatureSet)
    (hall : ∀ e, R.hears e := by exact fun _ => trivial)
      (hmodule : R.within module := by exact trivial) :
    let r := OnePass.decodeBody b s module sig bytes ⟨features, R.mode⟩
    let r' := OnePass.decodeBody b' t module sig bytes ⟨features, R.mode'⟩
    (r.1 = r'.1 ∧ R.same r.2 r'.2) ∨ ∃ e, r.1 = .error e ∧ R.alone e ∧ R.past r.2 r'.2 :=
  (Decode.Compares.body hall (.initial module sig bytes ⟨features, R.mode⟩) hmodule hs).cases

theorem modes_self (mode : ValidationMode) : mode = mode ∨ (mode = .full ∧ mode = .trusted) ∧
    ∀ e : DecodeError, e.kind = .typeMismatch → False :=
  .inl rfl

/-- A listener against itself. -/
def self (b : Backend σ) (mode : ValidationMode) : Comparison b b where
  mode := mode
  mode' := mode
  same := Eq
  past _ _ := False
  alone _ := False
  modes := modes_self mode
  told _ _ _ _ _ _ hs := .inl (by rw [hs]; exact ⟨rfl, rfl⟩)
  past_same h := (h rfl).elim
  past_told _ _ _ _ := False.elim

end Comparison

namespace Decode

variable {σ α : Type} {b : Backend σ} {ctx ctx' start : Context} {s₀ s : σ}

theorem Compares.sameFunction {m : DecodeM σ α} {x : α}
    (h : Compares (.self b ctx.options.validation) Eq m m)
    (hr : outcome m ctx s = .ok (x, ctx')) : ctx.SameFunction ctx' := by
  have hends : SameEnd _ ctx Eq ((m ctx).run s) ((m ctx).run s) := h.ends ctx s s trivial rfl
  rcases hrun : (m ctx).run s with ⟨r, s'⟩
  rw [outcome, hrun] at hr
  subst hr
  rw [hrun] at hends
  cases hends with
  | ok ctx₁ hctx =>
    refine ⟨hctx.module, hctx.sig, ?_⟩
    show { ctx₁.options with validation := ctx.options.validation } = ctx.options
    rw [hctx.options]

/-- No instruction leaves the function. -/
theorem sameFunction_of_step (hr : outcome (step b) ctx s = .ok ((), ctx')) :
    ctx.SameFunction ctx' :=
  (Compares.step fun _ => trivial).sameFunction hr

theorem Reached.sameFunction (h : Reached b start s₀ ctx s) : start.SameFunction ctx := by
  induction h with
  | enter h => exact (Compares.enter fun _ => trivial).sameFunction (congrArg Prod.fst h)
  | step _ _ _ h ih => exact ih.trans (sameFunction_of_step (congrArg Prod.fst h))

theorem Visits.sameFunction {i : Instruction} (h : Visits b start s₀ ctx s i) :
    start.SameFunction ctx := by
  obtain ⟨ctx₀, s₁, hreached, -, -, hfetch⟩ := h
  exact hreached.sameFunction.trans
    ((Compares.fetch fun _ => trivial).sameFunction (congrArg Prod.fst hfetch))

end Decode

end OnePass
