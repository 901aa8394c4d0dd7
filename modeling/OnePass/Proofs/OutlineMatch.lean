import OnePass.Proofs.Outline

/-!
When frames outline the stacks of a decoding state, and what it means that a decoding step does to
the stacks what a step of the innermost frame does. In trusted mode the types of operands are
ignored, so there only their number has to agree.
-/
namespace OnePass

/-- The types of the operands, the topmost first. -/
def Context.types (ctx : Context) : List ValueType := (ctx.stack.toList.map Value.ty).reverse

@[simp] theorem Context.length_types (ctx : Context) : ctx.types.length = ctx.stack.size := by
  simp [types]

/-- The frame has the types, the offset and the polymorphism of the construct. -/
structure Control.Outlined (c : Control) (f : Frame) : Prop where
  kind : c.kind = f.kind
  params : c.startMerge.types = f.params
  results : c.endMerge.types = f.results
  pc : c.pc = f.pc
  unreachable : c.isUnreachable = f.polymorphic

/-- The two constructs differ at most in what a frame does not see. -/
structure Control.Alike (c c' : Control) : Prop where
  kind : c'.kind = c.kind
  stackDepth : c'.stackDepth = c.stackDepth
  params : c'.startMerge.types = c.startMerge.types
  results : c'.endMerge.types = c.endMerge.types
  pc : c'.pc = c.pc
  unreachable : c'.isUnreachable = c.isUnreachable

theorem Control.Alike.refl (c : Control) : c.Alike c := ⟨rfl, rfl, rfl, rfl, rfl, rfl⟩

theorem Control.Outlined.congr {c c' : Control} {f : Frame} (h : c.Outlined f)
    (alike : c.Alike c') : c'.Outlined f :=
  ⟨alike.kind.trans h.kind, alike.params.trans h.params, alike.results.trans h.results,
    alike.pc.trans h.pc, alike.unreachable.trans h.unreachable⟩

/-- Operands with equal types, or equally many in trusted mode. -/
def Agree (trusted : Bool) (xs ys : List ValueType) : Prop :=
  xs.length = ys.length ∧ (trusted = false → xs = ys)

/-- No declared type is `bottom`, and unless the stack is polymorphic no operand has it. -/
structure Frame.Clean (trusted : Bool) (f : Frame) : Prop where
  params : .bottom ∉ f.params
  results : .bottom ∉ f.results
  operands : trusted = false → f.polymorphic = false → .bottom ∉ f.operands

/-- The operands split into those of each construct. What lies below the outermost one, or is left
when it has ended, does not matter. -/
inductive Framed (trusted : Bool) : List ValueType → List Control → List Frame → Prop
  | nil (stack : List ValueType) : Framed trusted stack [] []
  | cons {ops below : List ValueType} {c : Control} {cs : List Control} {f : Frame}
      {fs : List Frame} (outlined : c.Outlined f) (agree : Agree trusted ops f.operands)
      (clean : f.Clean trusted) (depth : c.stackDepth = below.length)
      (rest : Framed trusted below cs fs) : Framed trusted (ops ++ below) (c :: cs) (f :: fs)

/-- The frames outline the decoding state. Live code is never polymorphic. -/
structure Matches (ctx : Context) (frames : List Frame) : Prop where
  framed : Framed ctx.options.trusted ctx.types ctx.control frames
  live : ctx.live = true → ∀ f ∈ frames.head?, f.polymorphic = false

/-- Nothing but the stacks and the liveness differs. -/
structure Context.SameSetting (ctx ctx' : Context) : Prop where
  module : ctx'.module = ctx.module
  sig : ctx'.sig = ctx.sig
  options : ctx'.options = ctx.options
  reader : ctx'.reader = ctx.reader
  locals : ctx'.locals = ctx.locals
  pc : ctx'.pc = ctx.pc

theorem Context.SameSetting.refl (ctx : Context) :
    ctx.SameSetting ctx := ⟨rfl, rfl, rfl, rfl, rfl, rfl⟩

theorem Context.SameSetting.trans {a b c : Context} (h : a.SameSetting b) (h' : b.SameSetting c) :
    a.SameSetting c :=
  ⟨h'.1.trans h.1, h'.2.trans h.2, h'.3.trans h.3, h'.4.trans h.4, h'.5.trans h.5, h'.6.trans h.6⟩

/-- Nothing but the operands differs. -/
structure Frame.SameShape (f f' : Frame) : Prop where
  kind : f'.kind = f.kind
  params : f'.params = f.params
  results : f'.results = f.results
  pc : f'.pc = f.pc

theorem Frame.SameShape.refl (f : Frame) : f.SameShape f := ⟨rfl, rfl, rfl, rfl⟩

theorem Frame.SameShape.trans {a b c : Frame} (h : a.SameShape b) (h' : b.SameShape c) :
    a.SameShape c :=
  ⟨h'.1.trans h.1, h'.2.trans h.2, h'.3.trans h.3, h'.4.trans h.4⟩

variable {f f' : Frame}

theorem Frame.SameShape.labelTypes (h : f.SameShape f') : f'.labelTypes = f.labelTypes := by
  simp [Frame.labelTypes, h.kind, h.params, h.results]

theorem TypeEnv.ofFrames_congr {options : DecoderOptions} {results : List ValueType}
    {fs : List Frame} (h : f.SameShape f') :
    ofFrames options results (f' :: fs) = ofFrames options results (f :: fs) := by
  simp [ofFrames, h.labelTypes, h.kind]

namespace Framed

variable {trusted : Bool} {stack : List ValueType} {cs : List Control} {fs : List Frame}

section

variable (h : Framed trusted stack cs fs)
include h

theorem length_eq : cs.length = fs.length := by
  induction h with
  | nil => rfl
  | cons _ _ _ _ _ ih => simp [ih]

/-- Constructs may change in what the frames do not see. -/
theorem modify {g : Control → Control} (hg : ∀ c : Control, c.Alike (g c))
    (depth : Nat) : Framed trusted stack (cs.modify depth g) fs := by
  induction h generalizing depth with
  | nil stack =>
    rw [List.modify_nil]
    exact .nil stack
  | @cons ops below c cs f fs outlined agree clean base rest ih =>
    cases depth with
    | zero =>
      exact .cons (outlined.congr (hg c)) agree clean ((hg c).stackDepth.trans base) rest
    | succ depth => exact .cons outlined agree clean base (ih depth)

theorem mapIdx {g : Nat → Control → Control}
    (hg : ∀ (i : Nat) (c : Control), c.Alike (g i c)) : Framed trusted stack (cs.mapIdx g) fs := by
  induction h generalizing g with
  | nil stack => exact .nil stack
  | @cons ops below c cs f fs outlined agree clean base rest ih =>
    rw [List.mapIdx_cons]
    exact .cons (outlined.congr (hg 0 c)) agree clean ((hg 0 c).stackDepth.trans base)
      (ih fun i c => hg (i + 1) c)

/-- What branches to the constructs carry are the label types of the frames. -/
theorem labels_eq : cs.map (fun c => c.branchMerge.types) = fs.map Frame.labelTypes := by
  induction h with
  | nil => rfl
  | @cons _ _ c _ f _ outlined _ _ _ _ ih =>
    have hlabel : c.branchMerge.types = f.labelTypes := by
      simp only [Control.branchMerge, Control.isLoop, Frame.labelTypes, outlined.kind,
        ← outlined.params, ← outlined.results, beq_iff_eq]
      split <;> rfl
    rw [List.map_cons, List.map_cons, hlabel, ih]

theorem kind_getD (depth : Nat) :
    (cs.getD depth default).kind = (fs.map Frame.kind).getD depth .block := by
  induction h generalizing depth with
  | nil => rfl
  | cons outlined _ _ _ _ ih =>
    cases depth with
    | zero => simpa using outlined.kind
    | succ depth => simpa using ih depth

end

end Framed

namespace Decode

variable {σ α β γ δ : Type} {post post' : α → Context → β → Frame → Prop} {k : α → DecodeM σ β}

/-- How a step ends, the listener's state left out. -/
def outcome (m : DecodeM σ α) (ctx : Context) (s : σ) : Except CompileError (α × Context) :=
  ((m ctx).run s).1

/-- A step succeeds together with a frame step, in states that agree, or both fail, at `pc`. -/
def Agreement (pc : Nat) (post : α → Context → β → Frame → Prop) :
    Except CompileError (α × Context) → Option (β × Frame) → Prop
  | .ok (x, ctx), some (y, f) => post x ctx y f
  | .error (.decode e), none => e.offset = pc
  | _, _ => False

variable {r : Except CompileError (α × Context)} {q : Option (β × Frame)}

theorem Agreement.cases {pc : Nat} (h : Agreement pc post r q) :
    (∃ x ctx y f, r = .ok (x, ctx) ∧ q = some (y, f) ∧ post x ctx y f) ∨
      ∃ e, r = .error (.decode e) ∧ q = none ∧ e.offset = pc := by
  unfold Agreement at h
  split at h
  next x ctx y f => exact .inl ⟨x, ctx, y, f, rfl, rfl, h⟩
  next e => exact .inr ⟨e, rfl, rfl, h⟩
  next => exact h.elim

theorem Agreement.mono {pc : Nat} (h : Agreement pc post r q)
    (hpost : ∀ x ctx y f, q = some (y, f) → post x ctx y f → post' x ctx y f) :
      Agreement pc post' r q := by
  obtain ⟨x, ctx, y, f, rfl, rfl, h⟩ | ⟨e, rfl, rfl, h⟩ := h.cases
  · exact hpost x ctx y f rfl h
  · exact h

theorem run_bind {ε : Type} (m : StateT Context (ExceptT ε (StateM σ)) α)
    (k : α → StateT Context (ExceptT ε (StateM σ)) β) (ctx : Context) (s : σ) :
    ((m >>= k) ctx).run s = match (m ctx).run s with
      | (.ok (x, ctx'), s') => (k x ctx').run s'
      | (.error e, s') => (.error e, s') := by
  simp only [bind, StateT.bind, ExceptT.bind, ExceptT.mk, ExceptT.run]
  rcases m ctx s with ⟨_ | ⟨x, ctx'⟩, s'⟩ <;> rfl

theorem run_read (m : ReadM α) (ctx : Context) (s : σ) :
    (read m ctx).run s = match m.run.run ctx.reader with
      | (.ok a, r) => (.ok (a, { ctx with reader := r }), s)
      | (.error e, _) => (.error (.decode e), s) := by
  simp only [read]
  rcases m.run.run ctx.reader with ⟨_ | a, r⟩ <;> rfl

theorem run_getThe_bind (k : σ → ExceptT CompileError (StateM σ) α) (s : σ) :
    (getThe σ >>= k).run s = (k s).run s := rfl

theorem run_tell (b : Backend σ) (e : Event) (ctx : Context) (s : σ) : (tell b e ctx).run s =
      (match (b.handle ctx e s).1 with
        | .ok .proceed => .ok ((), ctx)
        | .ok .dead => .ok ((), ctx.markDead)
        | .error bailout => .error (.unsupported bailout), (b.handle ctx e s).2) := by
  rw [tell, run_getThe_bind]
  rcases b.handle ctx e s with ⟨_ | _ | _, _⟩ <;> rfl

theorem outcome_bind (m : DecodeM σ α) (k : α → DecodeM σ β) (ctx : Context) (s : σ) :
    outcome (m >>= k) ctx s = match (m ctx).run s with
      | (.ok (x, ctx'), s') => outcome (k x) ctx' s'
      | (.error e, _) => .error e := by
  rw [outcome, run_bind]
  rcases (m ctx).run s with ⟨_ | ⟨x, ctx'⟩, s'⟩ <;> rfl

@[simp] theorem outcome_pure (x : α) (ctx : Context) (s : σ) :
    outcome (pure x) ctx s = .ok (x, ctx) := rfl

@[simp] theorem outcome_get_bind (k : Context → DecodeM σ α) (ctx : Context) (s : σ) :
    outcome (get >>= k) ctx s = outcome (k ctx) ctx s := by
  rw [outcome_bind]
  rfl

@[simp] theorem outcome_modify_bind (g : Context → Context) (k : Unit → DecodeM σ α)
    (ctx : Context) (s : σ) : outcome (modify g >>= k) ctx s = outcome (k ()) (g ctx) s := rfl

theorem outcome_check (m : CheckM α) (ctx : Context) (s : σ) :
    outcome (check m) ctx s = match m ctx with
      | .ok r => .ok r
      | .error e => .error (.decode e) := by
  simp only [outcome, check]
  cases m ctx <;> rfl

theorem ok_of_outcome_check {m : CheckM α} {ctx : Context} {s : σ} {r : α × Context}
    (h : outcome (check m) ctx s = .ok r) : m ctx = .ok r := by
  rw [outcome_check] at h
  cases hm : m ctx <;> rw [hm] at h <;> cases h
  rfl

@[simp] theorem check_bind (m : CheckM α) (k : α → CheckM β) :
    (check (m >>= k) : DecodeM σ β) = check m >>= fun x => check (k x) := by
  funext ctx
  simp only [check, bind, StateT.bind, Except.bind]
  cases m ctx <;> rfl

@[simp] theorem check_pure (x : α) : (check (pure x) : DecodeM σ α) = pure x := rfl

@[simp] theorem check_get : (check get : DecodeM σ Context) = get := rfl

@[simp] theorem check_modify (g : Context → Context) :
    (check (modify g) : DecodeM σ Unit) = modify g := rfl

theorem check_ite (p : Prop) [Decidable p] (m k : CheckM α) :
    (check (if p then m else k) : DecodeM σ α) = if p then check m else check k := by
  split <;> rfl

/-- However the listener answers, the step ends in this way. -/
def Ends (m : DecodeM σ α) (ctx : Context) (post : Except CompileError (α × Context) → Prop) :
    Prop :=
  ∀ s, post (outcome m ctx s)

variable {m : DecodeM σ α} {ctx : Context}

theorem Ends.bind {post : Except CompileError (β × Context) → Prop}
    (h : Ends m ctx fun r => match r with
      | .ok (x, ctx') => Ends (k x) ctx' post
      | .error e => post (.error e)) : Ends (m >>= k) ctx post := by
  intro s
  have h := h s
  rw [outcome_bind]
  simp only [outcome] at h
  rcases hr : (m ctx).run s with ⟨e | ⟨x, ctx'⟩, s'⟩ <;> rw [hr] at h
  · exact h
  · exact h s'

variable {post : Except CompileError (α × Context) → Prop} {x : α}

theorem Ends.of_pure (h : post (.ok (x, ctx))) : Ends (σ := σ) (pure x) ctx post :=
  fun _ => h

theorem Ends.get_bind {k : Context → DecodeM σ α} (h : Ends (k ctx) ctx post) :
    Ends (get >>= k) ctx post := h

variable {g : Context → Context}

theorem Ends.of_modify {post : Except CompileError (Unit × Context) → Prop}
    (h : post (.ok ((), g ctx))) : Ends (σ := σ) (modify g) ctx post :=
  fun _ => h

theorem Ends.modify_bind {k : Unit → DecodeM σ α} (h : Ends (k ()) (g ctx) post) :
    Ends (modify g >>= k) ctx post := h

theorem Ends.of_check {m : CheckM α} (h : post (match m ctx with
      | .ok r => .ok r
      | .error e => .error (.decode e))) : Ends (σ := σ) (check m) ctx post := by
  intro s
  rw [outcome_check]
  exact h

/-- A step that succeeds without the listener. -/
theorem Ends.check_bind {m : CheckM α} {ctx ctx' : Context}
    {post : Except CompileError (β × Context) → Prop} (hm : m ctx = .ok (x, ctx'))
    (h : Ends (k x) ctx' post) : Ends (check m >>= k) ctx post := by
  apply Ends.bind
  apply Ends.of_check
  rw [hm]
  exact h

/-- The step does to the stacks what `a` does to the innermost frame. -/
def Tracks (env : TypeEnv) (pre : Frame → Prop) (m : DecodeM σ α) (a : FrameM β)
    (post : α → β → Frame → Prop) : Prop :=
  ∀ (ctx : Context) (f : Frame) (fs : List Frame), Matches ctx (f :: fs) →
    .ofFrames ctx.options ctx.sig.results (f :: fs) = env → pre f →
    Ends m ctx fun r => Agreement ctx.pc (fun x ctx' y f' => post x y f' ∧ f.SameShape f' ∧
      Matches ctx' (f' :: fs) ∧ ctx.SameSetting ctx') r (a f)

section Rules

variable {env : TypeEnv} {pre : Frame → Prop} {post post' : α → β → Frame → Prop}

theorem Tracks.pure {y : β} (h : ∀ f, pre f → post x y f) :
    Tracks (σ := σ) env pre (pure x) (pure y) post := by
  intro ctx f fs hm _ hpre s
  exact ⟨h f hpre, .refl f, hm, .refl ctx⟩

variable {a : FrameM β} {k : α → DecodeM σ γ} {mid : α → β → Frame → Prop}

theorem Tracks.bind {l : β → FrameM δ} {post : γ → δ → Frame → Prop}
    (h : Tracks env pre m a mid) (hk : ∀ x y, Tracks env (mid x y) (k x) (l y) post) :
    Tracks env pre (m >>= k) (a >>= l) post := by
  intro ctx f fs hm henv hpre
  apply Ends.bind
  intro s
  have h := h ctx f fs hm henv hpre s
  have hbind : (a >>= l) f = (a f).bind fun p => l p.1 p.2 := rfl
  rw [hbind]
  obtain ⟨x, ctx', y, f', hr, ha, hmid, shape, hm', same⟩ | ⟨e, hr, ha, he⟩ := h.cases
  · have henv' : TypeEnv.ofFrames ctx'.options ctx'.sig.results (f' :: fs) = env := by
      rw [same.options, same.sig, TypeEnv.ofFrames_congr shape, henv]
    rw [hr, ha]
    intro s'
    have h' := hk x y ctx' f' fs hm' henv' hmid s'
    rw [same.pc] at h'
    exact h'.mono fun _ _ _ _ _ ⟨hp, shape', hm'', same'⟩ =>
      ⟨hp, shape.trans shape', hm'', same.trans same'⟩
  · rw [hr, ha]
    exact he

/-- Go on with a step that the frame does not see. -/
theorem Tracks.andThen {post : γ → β → Frame → Prop} (h : Tracks env pre m a mid)
    (hk : ∀ x y, Tracks env (mid x y) (k x) (Pure.pure y) post) :
      Tracks env pre (m >>= k) a post := by
  rw [← bind_pure a]
  exact h.bind hk

/-- Begin with a step that the frame does not see. -/
theorem Tracks.before {a : FrameM δ} {mid : Frame → Prop} {post : γ → δ → Frame → Prop}
    (h : Tracks env pre m (Pure.pure ()) fun _ _ => mid)
    (hk : ∀ x, Tracks env mid (k x) a post) : Tracks env pre (m >>= k) a post := by
  rw [← pure_bind () fun _ => a]
  exact h.bind fun x _ => hk x

variable {pre' : Frame → Prop}

theorem Tracks.weaken (h : Tracks env pre m a post)
    (hpre : ∀ f, pre' f → pre f) (hpost : ∀ x y f, post x y f → post' x y f) :
      Tracks env pre' m a post' := by
  intro ctx f fs hm henv hp s
  exact (h ctx f fs hm henv (hpre f hp) s).mono fun _ _ _ _ _ ⟨hp, rest⟩ =>
    ⟨hpost _ _ _ hp, rest⟩

/-- The frame after a step is what the frame step left. -/
theorem Tracks.tracing (h : Tracks env pre m a post) :
    Tracks env pre m a fun x y f' => post x y f' ∧ ∃ f, pre f ∧ a f = some (y, f') := by
  intro ctx f fs hm henv hpre s
  exact (h ctx f fs hm henv hpre s).mono fun _ _ _ _ ha ⟨hp, rest⟩ => ⟨⟨hp, f, hpre, ha⟩, rest⟩

/-- What is known of the state may be used as a fact. -/
theorem Tracks.assuming {p : Prop} (hp : ∀ f, pre f → p ∧ pre' f)
    (h : p → Tracks env pre' m a post) : Tracks env pre m a post := by
  intro ctx f fs hm henv hpre
  exact h (hp f hpre).1 ctx f fs hm henv (hp f hpre).2

end Rules

end Decode

end OnePass
