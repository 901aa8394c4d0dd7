import OnePass.Proofs.GuardedDecoding
import OnePass.Proofs.OperandStack

/-!
The stacks of the decoder stay well nested, whatever the body and whatever the listener answers: the
operands split into layers, one for each open construct. Main statement: at every instruction the
layers are in order, and no lookup of the decoder is ever out of range.

The layers are described for types with a property `P`. No operand of a construct lacks the property
unless the construct is unreachable, where operands are made up.
-/
namespace OnePass

open List

theorem Control.not_unreachable (c : Control) (h : c.isReachable = true) :
    c.isUnreachable = false := by
  simp_all [Control.isReachable, Control.isUnreachable]

/-- A construct inside others, with operands of its own. -/
structure Control.Fits (P : ValueType → Prop) (c : Control) (outer : List Control)
    (ops : List Value) : Prop where
  reachable : c.isReachable = true → ∀ parent ∈ outer.head?, parent.isReachable = true
  outermost : outer = [] → c.kind = .block
  start : ∀ ty ∈ c.startMerge.types, P ty
  results : ∀ ty ∈ c.endMerge.types, P ty
  operands : c.isUnreachable = false → ∀ v ∈ ops, P v.ty

/-- The operands in layers, one for each construct. -/
inductive Layers (P : ValueType → Prop) : List Value → List Control → Prop
  | nil : Layers P [] []
  | cons {c : Control} {outer : List Control} {below ops : List Value}
    (inner : Layers P below outer) (depth : c.stackDepth = below.length)
    (fits : c.Fits P outer ops) :
    Layers P (below ++ ops) (c :: outer)

/-- Inside given constructs, above given operands. -/
def Context.Inside (P : ValueType → Prop) (ctx : Context) (outer : List Control)
    (below : List Value) : Prop :=
  ∃ c ops, ctx.Shows c outer below ops ∧ c.Fits P outer ops

/-- The same, and no operand of the innermost construct was made up. -/
def Context.Tidy (P : ValueType → Prop) (ctx : Context) (outer : List Control)
    (below : List Value) : Prop :=
  ∃ c ops, ctx.Shows c outer below ops ∧ c.Fits P outer ops ∧ ∀ v ∈ ops, P v.ty

/-- The constructs are nested and some are open, or the last one was closed at the end. -/
def Context.Orderly (P : ValueType → Prop) (ctx : Context) : Prop :=
  (ctx.control ≠ [] ∧ Layers P ctx.stack.toList ctx.control) ∨
    (ctx.control = [] ∧ ctx.reader.isAtEnd = true)

variable {P : ValueType → Prop} {ctx ctx' : Context} {c : Control} {outer : List Control}
  {below ops : List Value}

theorem Context.Tidy.inside (h : ctx.Tidy P outer below) : ctx.Inside P outer below := by
  obtain ⟨c, ops, hshows, hfits, -⟩ := h
  exact ⟨c, ops, hshows, hfits⟩

theorem Context.Inside.layers (h : ctx.Inside P outer below) (hbelow : Layers P below outer) :
    ctx.control ≠ [] ∧ Layers P ctx.stack.toList ctx.control := by
  obtain ⟨c, ops, hshows, hfits⟩ := h
  rw [hshows.control, hshows.stack]
  exact ⟨nofun, .cons hbelow hshows.depth hfits⟩

theorem Layers.inside (hopen : ctx.control ≠ []) (h : Layers P ctx.stack.toList ctx.control) :
    ∃ outer below, Layers P below outer ∧ ctx.Inside P outer below := by
  generalize hstack : ctx.stack.toList = stack at h
  generalize hcontrol : ctx.control = control at h
  cases h with
  | nil => exact (hopen hcontrol).elim
  | @cons c outer below ops inner depth fits =>
    refine ⟨outer, below, inner, c, ops, ⟨hcontrol, ?_, depth⟩, fits⟩
    rw [← hstack]

section

variable (h : c.Fits P outer ops)
include h

/-- Changing what no layer depends on. -/
theorem Control.Fits.congr {c' : Control} {ops' : List Value}
    (hreach : c'.isReachable = true → c.isReachable = true) (hkind : outer = [] → c'.kind = .block)
    (hstart : c'.startMerge.types = c.startMerge.types)
      (hend : c'.endMerge.types = c.endMerge.types)
    (hops : c'.isUnreachable = false → ∀ v ∈ ops', P v.ty) : c'.Fits P outer ops' :=
  ⟨fun hc => h.reachable (hreach hc), hkind, by rw [hstart]; exact h.start,
    by rw [hend]; exact h.results, hops⟩

/-- Fewer operands. -/
theorem Control.Fits.of_prefix {rest : List Value} (hrest : rest <+: ops) : c.Fits P outer rest :=
  h.congr id h.outermost rfl rfl fun hc v hv => h.operands hc v (hrest.subset hv)

/-- More operands. -/
theorem Control.Fits.append {more : List Value} (hmore : ∀ v ∈ more, P v.ty) :
    c.Fits P outer (ops ++ more) :=
  h.congr id h.outermost rfl rfl fun hc v hv =>
    (mem_append.1 hv).elim (h.operands hc v) (hmore v)

end

theorem Control.markBranch_types (c : Control) :
    c.markBranch.startMerge.types = c.startMerge.types ∧
      c.markBranch.endMerge.types = c.endMerge.types ∧ c.markBranch.kind = c.kind ∧
      c.markBranch.stackDepth = c.stackDepth ∧ c.markBranch.reachability = c.reachability := by
  unfold Control.markBranch
  split <;> exact ⟨rfl, rfl, rfl, rfl, rfl⟩

/-- Constructs may note branches to them. -/
theorem Layers.map_marks {stack : List Value} {control : List Control} (h : Layers P stack control)
    (marked : Nat → Bool) :
    Layers P stack (control.mapIdx fun d c => if marked d then c.markBranch else c) := by
  induction h generalizing marked with
  | nil => exact .nil
  | @cons c outer below ops inner depth fits ih =>
    have hrest := ih fun d => marked (d + 1)
    have hhead : ∀ parent ∈ (outer.mapIdx fun d c =>
        if marked (d + 1) then c.markBranch else c).head?,
        ∃ p ∈ outer.head?, parent.isReachable = p.isReachable := by
      intro parent hparent
      cases outer with
      | nil => simp at hparent
      | cons p outer =>
        refine ⟨p, rfl, ?_⟩
        simp only [mapIdx_cons, head?_cons, Option.mem_def, Option.some.injEq] at hparent
        rw [← hparent]
        split
        · rw [Control.isReachable, (Control.markBranch_types p).2.2.2.2, Control.isReachable]
        · rfl
    have hc : ∀ b : Bool, (if b then c.markBranch else c).Fits P
        (outer.mapIdx fun d c => if marked (d + 1) then c.markBranch else c) ops := by
      intro b
      have hsame : (if b then c.markBranch else c).startMerge.types = c.startMerge.types ∧
          (if b then c.markBranch else c).endMerge.types = c.endMerge.types ∧
          (if b then c.markBranch else c).kind = c.kind ∧
          (if b then c.markBranch else c).reachability = c.reachability := by
        obtain ⟨hstart, hend, hkind, -, hreach⟩ := c.markBranch_types
        cases b
        · exact ⟨rfl, rfl, rfl, rfl⟩
        · exact ⟨hstart, hend, hkind, hreach⟩
      obtain ⟨hstart, hend, hkind, hreach⟩ := hsame
      refine ⟨fun hr parent hparent => ?_, fun hnil => ?_, by rw [hstart]; exact fits.start,
        by rw [hend]; exact fits.results, fun hu => fits.operands ?_⟩
      · obtain ⟨p, hp, heq⟩ := hhead parent hparent
        rw [heq]
        refine fits.reachable ?_ p hp
        rwa [Control.isReachable, hreach] at hr
      · rw [hkind]
        refine fits.outermost ?_
        simpa using hnil
      · rwa [Control.isUnreachable, hreach] at hu
    rw [mapIdx_cons]
    refine .cons hrest ?_ (hc _)
    split
    · rw [c.markBranch_types.2.2.2.1, depth]
    · exact depth

/-- The labels of open constructs have types with the property. -/
theorem Layers.branchMerge {stack : List Value} {control : List Control}
    (h : Layers P stack control) : ∀ c ∈ control, ∀ ty ∈ c.branchMerge.types, P ty := by
  induction h with
  | nil => nofun
  | @cons c outer below ops inner depth fits ih =>
    intro c' hc'
    rcases mem_cons.1 hc' with rfl | hc'
    · unfold Control.branchMerge
      split
      · exact fits.start
      · exact fits.results
    · exact ih c' hc'

theorem modify_eq_mapIdx (control : List Control) (depth : Nat) (f : Control → Control) :
    control.modify depth f = control.mapIdx fun d c => if d == depth then f c else c := by
  refine ext_getElem? fun d => ?_
  rw [getElem?_modify, getElem?_mapIdx]
  cases control[d]? with
  | none => rfl
  | some c => by_cases h : depth = d <;> simp [h, Ne.symm]

variable {f : Control → Control}

theorem Context.Shows.modifyCurrent (h : ctx.Shows c outer below ops)
    (hf : (f c).stackDepth = c.stackDepth) : (ctx.modifyCurrent f).Shows (f c) outer below ops := by
  refine ⟨?_, h.stack, hf.trans h.depth⟩
  simp [Context.modifyCurrent, Context.modifyControl, h.control]

/-- What `markDead` does to the innermost construct. -/
def Control.narrow (c : Control) : Control :=
  if c.isReachable then { c with reachability := .specOnly } else c

theorem Control.narrow_same (c : Control) : c.narrow.kind = c.kind ∧
    c.narrow.stackDepth = c.stackDepth ∧
      c.narrow.startMerge = c.startMerge ∧ c.narrow.endMerge = c.endMerge ∧ c.narrow.pc = c.pc ∧
      c.narrow.isReachable = false ∧ c.narrow.isUnreachable = c.isUnreachable := by
  unfold Control.narrow Control.isReachable Control.isUnreachable
  rcases c with ⟨_, _, _ | _ | _, _, _, _⟩ <;> exact ⟨rfl, rfl, rfl, rfl, rfl, rfl, rfl⟩

theorem Context.Shows.markDead (h : ctx.Shows c outer below ops) :
    ctx.markDead.Shows c.narrow outer below ops := by
  obtain ⟨-, hdepth, -⟩ := c.narrow_same
  have hshows := h.modifyCurrent (f := Control.narrow) hdepth
  exact ⟨hshows.control, hshows.stack, hshows.depth⟩

theorem Control.Fits.narrow (h : c.Fits P outer ops) : c.narrow.Fits P outer ops := by
  obtain ⟨hkind, -, hstart, hend, -, hreach, hunreachable⟩ := c.narrow_same
  refine h.congr (fun hc => ?_) (fun hnil => hkind.trans (h.outermost hnil)) (by rw [hstart])
    (by rw [hend]) fun hc => h.operands (hunreachable ▸ hc)
  rw [hreach] at hc
  cases hc

theorem Layers.markDead (hopen : ctx.control ≠ []) (h : Layers P ctx.stack.toList ctx.control) :
    Layers P ctx.markDead.stack.toList ctx.markDead.control := by
  obtain ⟨outer, below, hbelow, c, ops, hshows, hfits⟩ := h.inside hopen
  have hinside : ctx.markDead.Inside P outer below := ⟨_, _, hshows.markDead, hfits.narrow⟩
  exact (hinside.layers hbelow).2

namespace Decode

variable {σ : Type} {b : Backend σ} {e : Event} {s : σ} {u : Unit}

theorem tell_ok (h : outcome (tell b e) ctx s = .ok (u, ctx')) :
    ctx' = ctx ∨ ctx' = ctx.markDead := by
  obtain ⟨bailout, hr⟩ | hr | hr := outcome_tell b e ctx s <;> rw [hr] at h <;> cases h
  · exact .inl rfl
  · exact .inr rfl

theorem report_ok (h : outcome (report b e) ctx s = .ok (u, ctx')) :
    ctx' = ctx ∨ ctx' = ctx.markDead := by
  have heval : report b e ctx = (if ctx.live then tell b e else pure ()) ctx := rfl
  rw [outcome, heval] at h
  split at h
  · exact tell_ok h
  · cases h
    exact .inl rfl

end Decode

variable {i : Instruction} {v : Value}

namespace Guarded

variable {σ α β : Type}

/-- The outcome of the decoder as that of a guarded run. -/
def embed (r : Except CompileError α × σ) : Except Halt α × σ := (r.1.mapError .error, r.2)

/-- The guarded step does what the step of the decoder does, and that ends as told. -/
def Agrees (ctx : Context) (g : GuardedM σ α) (m : DecodeM σ α) (post : α → Context → Prop) :
    Prop :=
  ∀ s, (g ctx).run s = embed ((m ctx).run s) ∧ ∀ x ctx', Decode.outcome m ctx s = .ok (x, ctx') →
    post x ctx'

namespace Agrees

variable {g : GuardedM σ α} {m : DecodeM σ α} {post : α → Context → Prop}

theorem bind {k : α → GuardedM σ β} {l : α → DecodeM σ β} {Q : α → Context → Prop}
    {post : β → Context → Prop} (h : Agrees ctx g m Q)
    (hk : ∀ x ctx', Q x ctx' → Agrees ctx' (k x) (l x) post) :
      Agrees ctx (g >>= k) (m >>= l) post := by
  intro s
  obtain ⟨hrun, hmid⟩ := h s
  rw [Decode.run_bind, Decode.run_bind, Decode.outcome_bind, hrun]
  simp only [Decode.outcome] at hmid
  rcases hm : (m ctx).run s with ⟨e | ⟨x, ctx₁⟩, s₁⟩
  · refine ⟨rfl, fun y ctx' hr => ?_⟩
    cases hr
  · rw [hm] at hmid
    exact hk x ctx₁ (hmid x ctx₁ rfl) s₁

theorem of_lift (h : ∀ s x ctx', Decode.outcome m ctx s = .ok (x, ctx') → post x ctx') :
    Agrees ctx (lift m) m post :=
  fun s => ⟨rfl, h s⟩

variable {post' : α → Context → Prop}

/-- What a check does can be said apart from the agreement. -/
theorem check_post {m : CheckM α} (h : Agrees ctx g (Decode.check m) fun _ _ => True)
    (hpost : ∀ x ctx', m ctx = .ok (x, ctx') → post x ctx') :
      Agrees ctx g (Decode.check m) post := by
  exact fun s => ⟨(h s).1, fun x ctx' hr => hpost x ctx' (Decode.ok_of_outcome_check hr)⟩

theorem of_check {m : CheckM α} (h : ∀ x ctx', m ctx = .ok (x, ctx') → post x ctx') :
    Agrees (σ := σ) ctx (check m) (Decode.check m) post :=
  check_post (of_lift fun _ _ _ _ => trivial) h

theorem of_pure {x : α} (h : post x ctx) : Agrees (σ := σ) ctx (pure x) (pure x) post := by
  refine fun s => ⟨rfl, fun y ctx' hr => ?_⟩
  cases hr
  exact h

theorem of_fault (e : DecodeFault) :
    Agrees (σ := σ) ctx (check (Check.fault e)) (Decode.check (Check.fault e)) post :=
  of_check fun _ _ hr => by cases hr

theorem of_throw (e : CompileError) :
    Agrees (σ := σ) ctx (throw (Halt.error e) : GuardedM σ α) (throw e) post := by
  refine fun s => ⟨rfl, fun y ctx' hr => ?_⟩
  cases hr

theorem mono (h : Agrees ctx g m post)
    (hpost : ∀ x ctx', post x ctx' → post' x ctx') : Agrees ctx g m post' :=
  fun s => ⟨(h s).1, fun x ctx' hr => hpost x ctx' ((h s).2 x ctx' hr)⟩

theorem get_left {k : Context → GuardedM σ α} (h : Agrees ctx (k ctx) m post) :
    Agrees ctx (get >>= k) m post := h

theorem get_right {l : Context → DecodeM σ α} (h : Agrees ctx g (l ctx) post) :
    Agrees ctx g (get >>= l) post := h

variable {l : Unit → DecodeM σ α}

theorem modify_bind {f : Context → Context} {k : Unit → GuardedM σ α}
    (h : Agrees (f ctx) (k ()) (l ()) post) : Agrees ctx (modify f >>= k) (modify f >>= l) post := h

theorem of_modify {f : Context → Context} {post : Unit → Context → Prop} (h : post () (f ctx)) :
    Agrees (σ := σ) ctx (modify f) (modify f) post := by
  refine fun s => ⟨rfl, fun y ctx' hr => ?_⟩
  cases hr
  exact h

variable {p : Prop}

theorem ite [Decidable p] {g' : GuardedM σ α} {m' : DecodeM σ α}
    (h : p → Agrees ctx g m post) (h' : ¬p → Agrees ctx g' m' post) :
    Agrees ctx (if p then g else g') (if p then m else m') post := by
  split
  next hp => exact h hp
  next hp => exact h' hp

variable {Q : Context → Prop}

/-- A step that is left out unless the condition holds. -/
theorem when [Decidable p] {g : GuardedM σ Unit} {m : DecodeM σ Unit}
    {k : Unit → GuardedM σ β} {l : Unit → DecodeM σ β}
    {post : β → Context → Prop} (h : p → Agrees ctx g m fun _ => Q) (h' : ¬p → Q ctx)
    (hk : ∀ ctx', Q ctx' → Agrees ctx' (k ()) (l ()) post) :
    Agrees ctx (if p then g >>= k else k ()) (if p then m >>= l else l ()) post :=
  ite (fun hp => bind (h hp) fun _ => hk) fun hp => hk ctx (h' hp)

/-- A check that refuses what it finds. -/
theorem guard [Decidable p] {e : DecodeFault} {k : Unit → GuardedM σ α}
    (hk : ¬p → Agrees ctx (k ()) (l ()) post) :
    Agrees ctx (if p then check (Check.fault e) >>= k else k ())
      (if p then Decode.check (Check.fault e) >>= l else l ()) post :=
  ite (fun _ => bind (Q := fun _ _ => False) (of_fault e) fun _ _ => False.elim) hk

section Lookups

variable {k : Control → GuardedM σ α} {depth : Nat}

/-- A guarded lookup that succeeds does nothing else. -/
theorem of_run {g : GuardedM σ β} {k : β → GuardedM σ α} {x : β}
    (hg : ∀ s, (g ctx).run s = (.ok (x, ctx), s)) (h : Agrees ctx (k x) m post) :
    Agrees ctx (g >>= k) m post := by
  refine fun s => ⟨?_, (h s).2⟩
  rw [Decode.run_bind, hg]
  exact (h s).1

theorem controlAt_eq (depth : Nat) (ctx : Context) :
    (Guarded.controlAt depth : GuardedM σ Control) ctx = (match ctx.control[depth]? with
      | some c => (pure c : GuardedM σ Control)
      | none => throw Halt.outOfRange) ctx :=
  rfl

theorem run_controlAt (hd : depth < ctx.control.length) (s : σ) :
    ((Guarded.controlAt depth : GuardedM σ Control) ctx).run s =
      (.ok (ctx.controlAt depth, ctx), s) := by
  have hget : ctx.control[depth]? = some (ctx.controlAt depth) := by
    simp [Context.controlAt, hd]
  rw [controlAt_eq, hget]
  rfl

theorem controlAt (hd : depth < ctx.control.length)
    (h : Agrees ctx (k (ctx.controlAt depth)) m post) :
    Agrees ctx (Guarded.controlAt depth >>= k) m post :=
  of_run (run_controlAt hd) h

theorem current (hopen : ctx.control ≠ []) (h : Agrees ctx (k ctx.current) m post) :
    Agrees ctx (Guarded.current >>= k) m post :=
  controlAt (length_pos_iff.2 hopen) h

theorem heightAbove {base : Nat} {k : Nat → GuardedM σ α} (hbase : base ≤ ctx.stack.size)
    (h : Agrees ctx (k (ctx.stack.size - base)) m post) :
    Agrees ctx (Guarded.heightAbove base >>= k) m post := by
  refine of_run (fun s => ?_) h
  have heval : (Guarded.heightAbove base : GuardedM σ Nat) ctx =
      (if base ≤ ctx.stack.size then pure (ctx.stack.size - base)
        else throw Halt.outOfRange : GuardedM σ Nat) ctx := rfl
  rw [heval, if_pos hbase]
  rfl

theorem available {k : Nat → GuardedM σ α} (hshows : ctx.Shows c outer below ops)
    (h : Agrees ctx (k ctx.available) m post) : Agrees ctx (Guarded.available >>= k) m post := by
  have hopen : ctx.control ≠ [] := by simp [hshows.control]
  have hdepth : ctx.current.stackDepth ≤ ctx.stack.size := by
    rw [hshows.current, hshows.depth, hshows.size]
    exact Nat.le_add_right _ _
  rw [Guarded.available, bind_assoc]
  exact current hopen (heightAbove hdepth h)

theorem parentReachable {k : Bool → GuardedM σ α} (hopen : ctx.control ≠ [])
    (h : Agrees ctx (k ctx.parentReachable) m post) :
      Agrees ctx (Guarded.parentReachable >>= k) m post := by
  rw [Guarded.parentReachable, bind_assoc]
  apply get_left
  rcases hcontrol : ctx.control with _ | ⟨c, _ | ⟨parent, outer⟩⟩
  · exact (hopen hcontrol).elim
  · have hparent : ctx.parentReachable = true := by simp [Context.parentReachable, hcontrol]
    have hlast : ctx.isOutermost = true := by simp [Context.isOutermost, hcontrol]
    rw [if_pos hlast]
    rw [hparent] at h
    exact h
  · have hparent : ctx.parentReachable = (ctx.controlAt 1).isReachable := by
      simp [Context.parentReachable, Context.controlAt, hcontrol]
    have hlast : ctx.isOutermost = false := by simp [Context.isOutermost, hcontrol]
    rw [if_neg (by simp [hlast]), bind_assoc]
    refine controlAt (by simp [hcontrol]) ?_
    rw [← hparent]
    exact h

end Lookups

section Operands

section

variable (h : ctx.Shows c outer below ops)
include h

theorem popAny (index : Nat) :
    Agrees (σ := σ) ctx (Guarded.popAny index) (Decode.check (Check.popAny index))
      fun v ctx' => ∃ rest, ctx' = ctx.withOperands below rest ∧ c.Takes ops [v] rest :=
  current (by simp [h.control]) (of_check fun _ _ hr => Check.popAny_ok h hr)

theorem pop (index : Nat) (ty : ValueType) :
    Agrees (σ := σ) ctx (Guarded.pop index ty) (Decode.check (Check.pop index ty))
      fun v ctx' => ∃ rest, ctx' = ctx.withOperands below rest ∧ c.Takes ops [v] rest := by
  refine check_post ?_ fun v ctx' hr => ?_
  · simp only [Guarded.pop, Check.pop, Decode.check_bind, Decode.check_pure]
    exact bind (popAny h index) fun _ _ _ =>
      bind (Q := fun _ _ => True) (of_check fun _ _ _ => trivial) fun _ _ _ => of_pure trivial
  · obtain ⟨rest, hctx, htakes, -⟩ := Check.pop_ok h hr
    exact ⟨rest, hctx, htakes⟩

theorem popEach (operands : List (ValueType × Nat)) :
    Agrees (σ := σ) ctx (Guarded.popEach operands) (Decode.check (Check.popEach operands))
      fun vs ctx' => ∃ rest, ctx' = ctx.withOperands below rest ∧ c.Takes ops vs rest := by
  have hagrees : Agrees (σ := σ) ctx (Guarded.popEach operands)
      (Decode.check (Check.popEach operands)) fun _ ctx' =>
        ∃ rest, ctx'.Shows c outer below rest := by
    induction operands with
    | nil => exact of_pure ⟨ops, h⟩
    | cons o operands ih =>
      have hcons : (Guarded.popEach (o :: operands) : GuardedM σ (List Value)) =
          Guarded.popEach operands >>= fun values => Guarded.pop o.2 o.1 >>= fun v =>
            pure (v :: values) := by
        simp [Guarded.popEach]
      rw [hcons, Check.popEach_cons]
      simp only [Decode.check_bind, Decode.check_pure]
      refine bind ih fun _ ctx₁ ⟨rest, h₁⟩ => bind (pop h₁ _ _) fun _ ctx₂ ⟨rest', hctx₂, _⟩ => ?_
      subst hctx₂
      exact of_pure ⟨rest', h₁.withOperands rest'⟩
  refine (hagrees.mono fun _ _ _ => trivial).check_post fun vs ctx' hr => ?_
  obtain ⟨rest, hctx, htakes, -⟩ := Check.popEach_ok h hr
  exact ⟨rest, hctx, htakes⟩

theorem mergeTypes {types : List ValueType} (hlength : types.length ≤ ops.length) (what : String) :
    Agrees (σ := σ) ctx (Guarded.mergeTypes types what) (Decode.check (Check.mergeTypes types what))
      fun _ ctx' => ctx' = ctx := by
  have hcheck : Agrees (σ := σ) ctx (check (Check.mergeTypes types what))
      (Decode.check (Check.mergeTypes types what)) fun _ ctx' => ctx' = ctx :=
    of_check fun _ _ hr => (Check.mergeTypes_ok h hlength hr).1
  refine get_left ?_
  split
  · refine heightAbove ?_ hcheck
    rw [h.size]
    omega
  · exact hcheck

theorem unreachableMerge (types : List ValueType) (conditional : Bool) :
    Agrees (σ := σ) ctx (Guarded.unreachableMerge types conditional)
      (Decode.check (Check.unreachableMerge types conditional)) fun _ _ => True := by
  simp only [Guarded.unreachableMerge, Check.unreachableMerge, Check.popTypes_eq_popEach,
    Decode.check_bind, Decode.check_pure]
  exact bind (popEach h _) fun _ _ _ =>
    bind (Q := fun _ _ => True) (of_check fun _ _ _ => trivial) fun _ _ _ => of_pure trivial

theorem fallthrough :
    Agrees (σ := σ) ctx Guarded.fallthrough (Decode.check Check.fallthrough) fun _ ctx' =>
      ∃ results, ctx' = ctx.withOperands below results ∧ results.length = c.endMerge.arity ∧
        (c.isReachable = true → results = ops) ∧
        (c.isReachable = false → results = Check.fresh ctx c.endMerge.types) := by
  have hopen : ctx.control ≠ [] := by simp [h.control]
  refine check_post ?_ fun u ctx' hr => ?_
  · simp only [Check.fallthrough, Decode.check_bind, Decode.check_ite]
    refine current hopen (available h (get_right (ite (fun _ => ite (fun _ => of_fault _)
      fun harity => ?_) fun _ => ite (fun _ => of_fault _) fun _ => unreachableMerge h _ _)))
    have harity : ops.length = ctx.current.endMerge.types.length := by
      rw [← h.available]
      exact not_not.1 harity
    exact (mergeTypes h (Nat.le_of_eq harity.symm) _).mono fun _ _ _ => trivial
  · obtain ⟨results, hctx, hlength, hreach, hdead⟩ := Check.fallthrough_ok h hr
    exact ⟨results, hctx, hlength, fun hc => (hreach hc).1, hdead⟩

theorem branch {depth : Nat} (hd : depth < ctx.control.length) (conditional : Bool) :
    Agrees (σ := σ) ctx (Guarded.branch depth conditional)
      (Decode.check (Check.branch depth conditional)) fun answer ctx' =>
        answer = c.isReachable ∧ ∃ ops', ctx' = ctx.withOperands below ops' ∧
          (c.isReachable = true → ops' = ops) ∧
          (c.isReachable = false → ∃ rest, rest <+: ops ∧
            ops' = rest ++ Check.fresh ctx (ctx.controlAt depth).branchMerge.types) := by
  have hopen : ctx.control ≠ [] := by simp [h.control]
  refine check_post ?_ fun answer ctx' hr => ?_
  · simp only [Check.branch, Decode.check_bind, Decode.check_ite, Decode.check_pure]
    refine controlAt hd (current hopen (get_right (ite (fun _ => ite (fun _ => of_pure trivial)
      fun _ => available h (ite (fun _ => of_fault _) fun harity => ?_)) fun _ =>
        bind (unreachableMerge h _ _) fun _ _ _ => of_pure trivial)))
    rw [h.available] at harity
    exact bind (mergeTypes h (Nat.not_lt.1 harity) _) fun _ _ _ => of_pure trivial
  · obtain ⟨hanswer, ops', hctx, hreach, hdead⟩ := Check.branch_ok h hr
    exact ⟨hanswer, ops', hctx, fun hc => (hreach hc).1, hdead⟩

theorem branchTable (types : List ValueType) :
    Agrees (σ := σ) ctx (Guarded.branchTable types) (Decode.check (Check.branchTable types))
      fun _ ctx' => ∃ ops', ctx' = ctx.withOperands below ops' ∧ ops' <+: ops := by
  have hopen : ctx.control ≠ [] := by simp [h.control]
  refine check_post ?_ fun u ctx' hr => ?_
  · simp only [Check.branchTable, Check.popTypes_eq_popEach, Decode.check_bind, Decode.check_ite,
      Decode.check_pure]
    refine current hopen (get_right (ite (fun _ => available h (ite (fun _ => of_fault _)
      fun harity => ?_)) fun _ => bind (popEach h _) fun _ _ _ => of_pure trivial))
    rw [h.available] at harity
    exact (mergeTypes h (Nat.not_lt.1 harity) _).mono fun _ _ _ => trivial
  · obtain ⟨ops', hctx, hprefix, -⟩ := Check.branchTable_ok h hr
    exact ⟨ops', hctx, hprefix⟩

theorem returnTypes : Agrees (σ := σ) ctx Guarded.returnTypes (Decode.check Check.returnTypes)
      fun _ ctx' => ctx' = ctx := by
  refine check_post ?_ fun u ctx' hr => (Check.returnTypes_ok h hr).1
  simp only [Check.returnTypes, Decode.check_bind, Decode.check_ite]
  refine get_left (available h (get_right (ite (fun _ => of_fault _) fun harity => ?_)))
  rw [h.available] at harity
  exact (mergeTypes h (Nat.not_lt.1 harity) _).mono fun _ _ _ => trivial

end

theorem scanTarget {scan : Check.TableScan} (hsize : scan.seen.size = ctx.control.length)
    (target entry : Nat) : Agrees (σ := σ) ctx (Guarded.scanTarget scan target entry)
      (Decode.check (Check.scanTarget scan target entry))
      fun scan' ctx' => ctx' = ctx ∧ scan'.seen.size = ctx.control.length := by
  have hcheck : Agrees (σ := σ) ctx (check (Check.scanTarget scan target entry))
      (Decode.check (Check.scanTarget scan target entry))
      fun scan' ctx' => ctx' = ctx ∧ scan'.seen.size = ctx.control.length := by
    refine of_check fun scan' ctx' hr => ?_
    exact Check.scanTarget_ok hsize hr
  unfold Guarded.scanTarget
  split
  next hseen =>
    have hlt : target < scan.seen.size := (Array.getElem?_eq_some_iff.1 hseen).1
    exact controlAt (hsize ▸ hlt) hcheck
  next => exact hcheck

theorem foldlM_scanTarget (targets : List (Nat × Nat)) {scan : Check.TableScan}
    (hsize : scan.seen.size = ctx.control.length) :
    Agrees (σ := σ) ctx
      (targets.foldlM (fun scan (target, entry) => Guarded.scanTarget scan target entry) scan)
      (Decode.check (targets.foldlM (fun scan (target, entry) => Check.scanTarget scan target entry)
        scan))
      fun _ ctx' => ctx' = ctx := by
  induction targets generalizing scan with
  | nil => exact of_pure rfl
  | cons t targets ih =>
    rw [foldlM_cons, foldlM_cons, Decode.check_bind]
    refine bind (scanTarget hsize t.1 t.2) ?_
    rintro scan' _ ⟨rfl, hsize'⟩
    exact ih hsize'

theorem scanTable (table : BranchTable) :
    Agrees (σ := σ) ctx (Guarded.scanTable table) (Decode.check (Check.scanTable table))
      fun _ ctx' => ctx' = ctx := by
  simp only [Check.scanTable, Decode.check_bind]
  refine get_left (get_right (foldlM_scanTarget _ ?_))
  simp [Context.controlDepth]

end Operands

/-- Within the function of `base`, inside given constructs and above given operands. -/
structure Within (P : ValueType → Prop) (base : Context) (outer : List Control)
    (below : List Value) (ctx : Context) : Prop where
  same : base.SameSetting ctx
  inside : ctx.Inside P outer below

/-- The same, and no operand was made up. -/
structure Neat (P : ValueType → Prop) (base : Context) (outer : List Control)
    (below : List Value) (ctx : Context) : Prop where
  same : base.SameSetting ctx
  tidy : ctx.Tidy P outer below

/-- After an instruction. -/
structure Ready (P : ValueType → Prop) (base ctx : Context) : Prop where
  same : base.SameSetting ctx
  orderly : ctx.Orderly P

section Constructs

variable {base : Context} {b : Backend σ}

theorem Within.isOpen (h : Within P base outer below ctx) : ctx.control ≠ [] := by
  obtain ⟨c, ops, hshows, -⟩ := h.inside
  simp [hshows.control]

theorem Neat.within (h : Neat P base outer below ctx) : Within P base outer below ctx :=
  ⟨h.same, h.tidy.inside⟩

theorem Within.ready (h : Within P base outer below ctx) (hbelow : Layers P below outer) :
    Ready P base ctx :=
  ⟨h.same, .inl (h.inside.layers hbelow)⟩

theorem Within.of_operands {c : Control} {ops ops' : List Value} (hsame : base.SameSetting ctx)
    (hshows : ctx.Shows c outer below ops) (hfits : c.Fits P outer ops') :
    Within P base outer below (ctx.withOperands below ops') :=
  ⟨hsame.trans (ctx.sameSetting_withOperands ..), c, ops', hshows.withOperands ops', hfits⟩

theorem Neat.of_operands {c : Control} {ops ops' : List Value} (hsame : base.SameSetting ctx)
    (hshows : ctx.Shows c outer below ops) (hfits : c.Fits P outer ops')
      (hops : ∀ v ∈ ops', P v.ty) :
    Neat P base outer below (ctx.withOperands below ops') :=
  ⟨hsame.trans (ctx.sameSetting_withOperands ..), c, ops', hshows.withOperands ops', hfits, hops⟩

theorem Within.setLive (h : Within P base outer below ctx) (live : Bool) :
    Within P base outer below { ctx with live } := by
  obtain ⟨c, ops, hshows, hfits⟩ := h.inside
  exact ⟨h.same.trans ⟨rfl, rfl, rfl, rfl, rfl, rfl⟩, c, ops,
    ⟨hshows.control, hshows.stack, hshows.depth⟩, hfits⟩

theorem Within.markDead (h : Within P base outer below ctx) :
    Within P base outer below ctx.markDead := by
  obtain ⟨c, ops, hshows, hfits⟩ := h.inside
  exact ⟨h.same.trans (.markDead ctx), _, _, hshows.markDead, hfits.narrow⟩

theorem Neat.markDead (h : Neat P base outer below ctx) : Neat P base outer below ctx.markDead := by
  obtain ⟨c, ops, hshows, hfits, hops⟩ := h.tidy
  exact ⟨h.same.trans (.markDead ctx), _, _, hshows.markDead, hfits.narrow, hops⟩

theorem tell_post (h : Q ctx) (hdead : Q ctx.markDead) (e : Event) :
    Agrees ctx (tell b e) (Decode.tell b e) fun _ => Q := by
  refine of_lift fun s x ctx' hr => ?_
  rcases Decode.tell_ok hr with rfl | rfl
  · exact h
  · exact hdead

theorem report_post (h : Q ctx) (hdead : Q ctx.markDead) (e : Event) :
    Agrees ctx (report b e) (Decode.report b e) fun _ => Q := by
  refine of_lift fun s x ctx' hr => ?_
  rcases Decode.report_ok hr with rfl | rfl
  · exact h
  · exact hdead

section

variable (h : Within P base outer below ctx)
include h

theorem tell (e : Event) :
    Agrees ctx (Guarded.tell b e) (Decode.tell b e) fun _ => Within P base outer below :=
  tell_post h h.markDead e

theorem report (e : Event) :
    Agrees ctx (Guarded.report b e) (Decode.report b e) fun _ => Within P base outer below :=
  report_post h h.markDead e

theorem endControl : Agrees ctx (Guarded.endControl b) (Decode.endControl b) fun _ =>
      Within P base outer below := by
  obtain ⟨c, ops, hshows, hfits⟩ := h.inside
  have htruncated : Within P base outer below (ctx.truncate ctx.current.stackDepth) := by
    rw [hshows.current, hshows.truncate]
    exact .of_operands h.same hshows (hfits.of_prefix nil_prefix)
  refine current h.isOpen (modify_bind (current htruncated.isOpen (get_right
    (bind (report htruncated _) fun _ ctx' h' => current h'.isOpen (of_modify ?_)))))
  obtain ⟨c', ops', hshows', hfits'⟩ := h'.inside
  have hended := hshows'.modifyCurrent (f := fun c => { c with reachability := .unreachable }) rfl
  refine ⟨h'.same.trans ⟨rfl, rfl, rfl, rfl, rfl, rfl⟩, _, ops',
    ⟨hended.control, hended.stack, hended.depth⟩, ?_⟩
  exact hfits'.congr nofun hfits'.outermost rfl rfl nofun

theorem endControl_ready (hbelow : Layers P below outer) :
    Agrees ctx (Guarded.endControl b) (Decode.endControl b) fun _ => Ready P base :=
  (endControl h).mono fun _ _ h' => h'.ready hbelow

end

theorem mem_values {types : List ValueType} {pc : Nat} (h : ∀ ty ∈ types, P ty) :
    ∀ v ∈ types.map (Value.mk · pc), P v.ty := by
  intro v hv
  obtain ⟨ty, hty, rfl⟩ := mem_map.1 hv
  exact h ty hty

theorem mem_fresh {types : List ValueType} (h : ∀ ty ∈ types, P ty) :
    ∀ v ∈ Check.fresh ctx types, P v.ty := mem_values h

theorem closing (h : Within P base outer below ctx) :
    Agrees (σ := σ) ctx Guarded.fallthrough (Decode.check Check.fallthrough) fun _ =>
      Neat P base outer below := by
  obtain ⟨c, ops, hshows, hfits⟩ := h.inside
  refine (fallthrough hshows).mono fun _ ctx' ⟨results, hctx, _, hreach, hdead⟩ => ?_
  subst hctx
  have hresults : ∀ v ∈ results, P v.ty := by
    cases hc : c.isReachable with
    | true =>
      rw [hreach hc]
      exact hfits.operands (c.not_unreachable hc)
    | false =>
      rw [hdead hc]
      exact mem_fresh hfits.results
  exact .of_operands h.same hshows (hfits.congr id hfits.outermost rfl rfl fun _ => hresults)
    hresults

section

variable (h : Neat P base outer below ctx)
include h

/-- A change of the innermost construct that leaves its layer in place. -/
theorem Neat.modifyCurrent (hf : ∀ c, ctx.control = c :: outer → (f c).stackDepth = c.stackDepth ∧
      ((f c).isReachable = true → ∀ parent ∈ outer.head?, parent.isReachable = true) ∧
      (outer = [] → (f c).kind = .block) ∧ (f c).startMerge.types = c.startMerge.types ∧
      (f c).endMerge.types = c.endMerge.types) : Neat P base outer below (ctx.modifyCurrent f) := by
  obtain ⟨c, ops, hshows, hfits, hops⟩ := h.tidy
  obtain ⟨hdepth, hreach, hkind, hstart, hend⟩ := hf c hshows.control
  refine ⟨h.same.trans ⟨rfl, rfl, rfl, rfl, rfl, rfl⟩, f c, ops, hshows.modifyCurrent hdepth,
    ⟨hreach, hkind, by rw [hstart]; exact hfits.start, by rw [hend]; exact hfits.results,
      fun _ => hops⟩, hops⟩

theorem Neat.fits (hc : ctx.control = c :: outer) : c.Fits P outer [] := by
  obtain ⟨c', ops, hshows, hfits, -⟩ := h.tidy
  obtain rfl : c' = c := by
    have := hshows.control.symm.trans hc
    simpa using this
  exact hfits.of_prefix nil_prefix

end

theorem fallThru (h : Within P base outer below ctx) :
    Agrees ctx (Guarded.fallThru b) (Decode.fallThru b) fun _ => Neat P base outer below := by
  refine bind (closing h) fun _ ctx₁ h₁ => current h₁.within.isOpen (get_right
    (ite (fun _ => when (Q := Neat P base outer below) (fun _ => tell_post h₁ h₁.markDead _)
      (fun _ => h₁) fun ctx₂ h₂ => current h₂.within.isOpen (of_modify ?_)) fun _ => of_pure h₁))
  exact h₂.modifyCurrent fun c hc => ⟨rfl, (h₂.fits hc).reachable, (h₂.fits hc).outermost, rfl, rfl⟩

/-- Closing a construct hands its operands to the construct around it. -/
theorem Neat.two_le (h : Neat P base outer below ctx) (hne : outer ≠ []) :
    1 < ctx.control.length := by
  obtain ⟨c, ops, hshows, -⟩ := h.tidy
  rw [hshows.control, length_cons]
  exact Nat.succ_lt_succ (length_pos_iff.2 hne)

theorem Neat.layers_outer (h : Neat P base outer below ctx) (hbelow : Layers P below outer)
    (hne : outer ≠ []) : Layers P ctx.stack.toList outer := by
  obtain ⟨c, ops, hshows, hfits, hops⟩ := h.tidy
  rw [hshows.stack]
  cases hbelow with
  | nil => exact (hne rfl).elim
  | @cons parent rest below' ops' inner depth fits =>
    show Layers P ((below' ++ ops') ++ ops) (parent :: rest)
    rw [append_assoc]
    exact .cons inner depth (fits.append hops)

theorem popControl (h : Neat P base outer below ctx) (hbelow : Layers P below outer)
    (hne : outer ≠ []) :
    Agrees ctx (Guarded.popControl b) (Decode.popControl b) fun _ => Ready P base := by
  have hopen := h.within.isOpen
  refine current hopen (get_right (parentReachable hopen (get_right
    (when (Q := Neat P base outer below) (fun _ => tell_post h h.markDead _) (fun _ => h)
      fun ctx₁ h₁ => when (Q := Neat P base outer below) (fun _ => ?_) (fun _ => h₁) fun ctx₂ h₂ =>
        ?_))))
  · obtain ⟨c, ops, hshows, hfits, -⟩ := h.tidy
    obtain ⟨c₁, ops₁, hshows₁, hfits₁, -⟩ := h₁.tidy
    refine current h₁.within.isOpen (of_check fun u ctx' hr => ?_)
    rw [Check.pushMergeValues_eq hshows₁, hshows.current] at hr
    cases hr
    have hresults : ∀ v ∈ c.endMerge.types.map (Value.mk · c₁.pc), P v.ty :=
      mem_values hfits.results
    exact .of_operands h₁.same hshows₁ (hfits₁.congr id hfits₁.outermost rfl rfl fun _ => hresults)
      hresults
  · obtain ⟨c₂, ops₂, hshows₂, -⟩ := h₂.tidy
    refine controlAt (h₂.two_le hne) (of_modify ?_)
    have hlayers := h₂.layers_outer hbelow hne
    have htail : ctx₂.control.tail = outer := by rw [hshows₂.control]; rfl
    dsimp only
    refine ⟨h₂.same.trans ?_, .inl ?_⟩
    · split <;> exact ⟨rfl, rfl, rfl, rfl, rfl, rfl⟩
    · split
      · rw [htail]
        exact ⟨hne, hlayers⟩
      · let popped : Context := { ctx₂ with control := ctx₂.control.tail }
        have hpopped : popped.control = outer := htail
        have hlayers' : Layers P popped.stack.toList popped.control := hpopped ▸ hlayers
        refine ⟨?_, hlayers'.markDead (hpopped ▸ hne)⟩
        simp [Context.markDead, Context.modifyCurrent, Context.modifyControl, htail, hne]

theorem openBlock (h : Within P base outer below ctx) (hbelow : Layers P below outer)
    (kind : ControlKind) {type : BlockType} (hparams : ∀ ty ∈ type.params, P ty)
    (hresults : ∀ ty ∈ type.results, P ty) (event : Control → Event) :
    Agrees ctx (Guarded.openBlock b kind type event) (Decode.openBlock b kind type event) fun _ =>
      Ready P base := by
  obtain ⟨c, ops, hshows, hfits⟩ := h.inside
  rw [Guarded.openBlock, Decode.openBlock, Check.popArgs, Check.popTypes_eq_popEach]
  refine bind (popEach hshows _) ?_
  rintro _ ctx₁ ⟨rest, hctx₁, htakes⟩
  have hsame₁ : base.SameSetting ctx₁ := by
    rw [hctx₁]
    exact h.same.trans (ctx.sameSetting_withOperands ..)
  have hshows₁ : ctx₁.Shows c outer below rest := by
    rw [hctx₁]
    exact hshows.withOperands rest
  obtain ⟨block, hpush, hkind, hdepth, hstart, hend, hreach⟩ := Check.pushControl_eq ctx₁ kind type
  refine bind (Q := fun block' ctx₂ => block' = block ∧
    Within P base (c :: outer) (below ++ rest) ctx₂) (of_check fun block' ctx₂ hr => ?_) ?_
  · rw [hpush] at hr
    cases hr
    refine ⟨rfl, hsame₁.trans ⟨rfl, rfl, rfl, rfl, rfl, rfl⟩, block, [], ⟨?_, ?_, ?_⟩, ?_⟩
    · exact congrArg (block :: ·) hshows₁.control
    · simpa using hshows₁.stack
    · rw [hdepth, hshows₁.size, length_append]
    · refine ⟨fun hr parent hparent => ?_, by rintro ⟨⟩, by rw [hstart]; exact hparams,
        by rw [hend]; exact hresults, by simp⟩
      cases hparent
      rw [hshows₁.control] at hreach
      rw [Control.isReachable, hreach] at hr
      rcases hc : c.reachability <;> simp_all [Reachability.inner, Control.isReachable]
  · rintro _ ctx₂ ⟨rfl, h₂⟩
    refine bind (report h₂ _) fun _ ctx₃ h₃ => current h₃.isOpen (of_check fun u ctx' hr => ?_)
    obtain ⟨c₃, ops₃, hshows₃, hfits₃⟩ := h₃.inside
    rw [Check.pushMergeValues_eq hshows₃] at hr
    cases hr
    have hopened : Within P base (c :: outer) (below ++ rest) (ctx₃.withOperands (below ++ rest)
        (type.params.map (Value.mk · c₃.pc))) :=
      .of_operands h₃.same hshows₃
        (hfits₃.congr id hfits₃.outermost rfl rfl fun _ => mem_values hparams)
    exact hopened.ready (.cons hbelow hshows.depth (hfits.of_prefix htakes.kept))

/-- A new arm is reachable only if the construct around it is. -/
theorem arm_reachable {c : Control} (hc : ctx.control = c :: outer) (hne : outer ≠ []) :
    (Decode.armReachability ctx == .reachable) = true →
      ∀ parent ∈ outer.head?, parent.isReachable = true := by
  intro harm parent hparent
  cases outer with
  | nil => exact (hne rfl).elim
  | cons p outer =>
    cases hparent
    simp only [Decode.armReachability, Context.controlAt, hc] at harm
    rcases hp : parent.reachability <;>
      simp_all [Reachability.inner, Control.isReachable]

theorem elseArm (h : Within P base outer below ctx) (hbelow : Layers P below outer) :
    Agrees ctx (Guarded.elseArm b) (Decode.elseArm b) fun _ => Ready P base := by
  obtain ⟨c, ops, hshows, hfits⟩ := h.inside
  refine current h.isOpen (get_right (guard fun hif => guard fun _ => ?_))
  have hne : outer ≠ [] := by
    intro hnil
    rw [hshows.current] at hif
    simp [Control.isIf, hfits.outermost hnil] at hif
  refine bind (closing h) fun _ ctx₁ h₁ => current h₁.within.isOpen (modify_bind ?_)
  have h₂ := h₁.modifyCurrent (f := fun c => { c with kind := .ifElse })
    fun c hc => ⟨rfl, (h₁.fits hc).reachable, fun hnil => (hne hnil).elim, rfl, rfl⟩
  obtain ⟨c₂, ops₂, hshows₂, hfits₂, -⟩ := h₂.tidy
  refine current h₂.within.isOpen (get_right (parentReachable h₂.within.isOpen (get_right
    (when (Q := Neat P base outer below) (fun _ => tell_post h₂ h₂.markDead _) (fun _ => h₂)
      fun ctx₃ h₃ => ?_))))
  rw [Guarded.armReachability, bind_assoc]
  refine controlAt (h₃.two_le hne) ?_
  rw [pure_bind]
  refine get_right (current h₃.within.isOpen (modify_bind ?_))
  have harm : (ctx₃.controlAt 1).reachability.inner = Decode.armReachability ctx₃ := rfl
  rw [harm]
  have h₄ := h₃.modifyCurrent (f := fun c => { (if c.isReachable then c.markEnd else c) with
      reachability := Decode.armReachability ctx₃ })
    fun c hc => by
      refine ⟨?_, arm_reachable hc hne, fun hnil => (hne hnil).elim, ?_, ?_⟩ <;>
        dsimp only <;> split <;> rfl
  obtain ⟨c₄, ops₄, hshows₄, hfits₄, -⟩ := h₄.tidy
  refine bind (Q := fun _ => Within P base outer below)
    (current h₄.within.isOpen (of_check fun u ctx' hr => ?_)) fun _ ctx₅ h₅ => of_modify ?_
  · rw [Check.pushMergeValues_eq hshows₄, hshows₂.current] at hr
    cases hr
    exact .of_operands h₄.same hshows₄
      (hfits₄.congr id hfits₄.outermost rfl rfl fun _ => mem_values hfits₂.start)
  · exact (h₅.setLive _).ready hbelow

theorem beginArm (h : Neat P base outer below ctx) (hne : outer ≠ []) :
    Agrees (σ := σ) ctx Guarded.beginArm Decode.beginArm fun _ => Neat P base outer below := by
  refine current h.within.isOpen (controlAt (h.two_le hne) (of_lift fun s x ctx' hr => ?_))
  cases hr
  obtain ⟨c, ops, hshows, hfits, -⟩ := h.tidy
  have htruncated : Neat P base outer below (ctx.truncate ctx.current.stackDepth) := by
    rw [hshows.current, hshows.truncate]
    exact .of_operands h.same hshows (hfits.of_prefix nil_prefix) (forall_mem_nil _)
  exact htruncated.modifyCurrent fun c' hc =>
    ⟨rfl, arm_reachable hshows.control hne, fun hnil => (hne hnil).elim, rfl, rfl⟩

section

variable (h : Within P base outer below ctx)
include h

/-- Only a `try` has handlers, and the outermost construct is none. -/
theorem requireTry (what : String) :
    Agrees (σ := σ) ctx (check (Decode.requireTry what)) (Decode.check (Decode.requireTry what))
      fun _ ctx' => ctx' = ctx ∧ outer ≠ [] := by
  obtain ⟨c, ops, hshows, hfits⟩ := h.inside
  refine of_check fun u ctx' hr => ?_
  obtain ⟨rfl, htry⟩ := Decode.requireTry_ok hshows hr
  refine ⟨rfl, fun hnil => ?_⟩
  simp [Control.isTry, hfits.outermost hnil] at htry

theorem beginHandler (hbelow : Layers P below outer)
    (what : String) (kind : ControlKind) {params : List ValueType} (hparams : ∀ ty ∈ params, P ty)
    (event : Control → List Value → Event) :
    Agrees ctx (Guarded.beginHandler b what kind params event)
      (Decode.handler b what kind params event) fun _ => Ready P base := by
  refine current h.isOpen (bind (requireTry h what) ?_)
  rintro _ ctx ⟨rfl, hne⟩
  obtain ⟨c, ops, hshows, hfits⟩ := h.inside
  have h₁ : Within P base outer below (ctx.modifyCurrent fun c => { c with kind }) :=
    ⟨h.same.trans ⟨rfl, rfl, rfl, rfl, rfl, rfl⟩, _, ops, hshows.modifyCurrent rfl,
      hfits.congr id (fun hnil => (hne hnil).elim) rfl rfl hfits.operands⟩
  refine current h.isOpen (modify_bind (bind (fallThru h₁) fun _ ctx₂ h₂ =>
    bind (beginArm h₂ hne) fun _ ctx₃ h₃ => ?_))
  obtain ⟨c₃, ops₃, hshows₃, hfits₃, hops₃⟩ := h₃.tidy
  refine bind (Q := fun _ => Within P base outer below) (of_check fun values ctx₄ hr => ?_)
    fun values ctx₄ h₄ => ?_
  · rw [Check.pushAll_eq hshows₃] at hr
    cases hr
    exact .of_operands h₃.same hshows₃ (hfits₃.append (mem_fresh hparams))
  · refine current h₄.isOpen (get_right (parentReachable h₄.isOpen (get_right
      (when (Q := Within P base outer below) (fun _ => tell h₄ _) (fun _ => h₄)
        fun ctx₅ h₅ => of_modify ((h₅.setLive _).ready hbelow)))))

theorem rethrowUncaught (hne : outer ≠ []) :
    Agrees ctx (Guarded.rethrowUncaught b) (Decode.rethrowUncaught b) fun _ =>
      Within P base outer below := by
  refine bind (fallThru h) fun _ ctx₁ h₁ => current h₁.within.isOpen
    (controlAt (h₁.two_le hne) (modify_bind ?_))
  have h₂ := h₁.modifyCurrent (f := fun c => { c with reachability := Decode.armReachability ctx₁ })
    fun c hc => ⟨rfl, arm_reachable hc hne, fun hnil => (hne hnil).elim, rfl, rfl⟩
  refine current h₂.within.isOpen (get_right (parentReachable h₂.within.isOpen (get_right
    (when (Q := Within P base outer below) (fun _ => tell h₂.within _) (fun _ => h₂.within)
      fun ctx₃ h₃ => modify_bind (bind (report (h₃.setLive _) _) fun _ _ h₄ => endControl h₄)))))

/-- The last `end` leaves no construct, and no byte behind it. -/
theorem endBody : Agrees ctx (lift (Decode.endBody b)) (Decode.endBody b) fun _ =>
    Ready P base := by
  refine of_lift fun s x ctx' hr => ?_
  have heval : Decode.endBody b ctx = (do
      if !ctx.reader.isAtEnd then throw (.decode ⟨ctx.reader.pos, .trailingCode⟩)
      Decode.report b .ret
      modify fun ctx => { ctx with control := [] } : DecodeM σ Unit) ctx := rfl
  rw [Decode.outcome, heval] at hr
  cases hend : ctx.reader.isAtEnd with
  | false =>
    simp only [hend] at hr
    cases hr
  | true =>
    simp only [hend, Bool.not_true, Bool.false_eq_true, if_false] at hr
    have hagrees : Agrees ctx (do
        Guarded.report b .ret
        modify fun ctx => { ctx with control := [] }) (do
        Decode.report b .ret
        modify fun ctx => { ctx with control := [] }) fun _ => Ready P base := by
      refine bind (report h .ret) fun _ ctx₁ h₁ => of_modify
        ⟨h₁.same.trans ⟨rfl, rfl, rfl, rfl, rfl, rfl⟩, .inr ⟨rfl, ?_⟩⟩
      show ctx₁.reader.isAtEnd = true
      rw [h₁.same.reader, ← h.same.reader, hend]
    exact (hagrees s).2 x ctx' hr

theorem endBlock (hbelow : Layers P below outer) :
    Agrees ctx (Guarded.endBlock b) (Decode.endBlock b) fun _ => Ready P base := by
  obtain ⟨c, ops, hshows, hfits⟩ := h.inside
  refine current h.isOpen (get_right (guard fun _ => ?_))
  refine when (Q := fun ctx' => ctx' = _) (fun _ => of_check fun u ctx' hr => ?_) (fun _ => rfl) ?_
  · exact Check.oneArmedIf_ok hr
  rintro _ rfl
  refine when (Q := Within P base outer below) (fun hcatch => rethrowUncaught h ?_)
    (fun _ => h) fun ctx₁ h₁ => ?_
  · intro hnil
    rw [hshows.current, hfits.outermost hnil] at hcatch
    cases hcatch
  refine bind (closing h₁) fun _ ctx₂ h₂ => get_left (get_right (ite (fun _ => endBody h₂.within)
    fun hinner => popControl h₂ hbelow ?_))
  rintro rfl
  obtain ⟨c₂, ops₂, hshows₂, -⟩ := h₂.tidy
  exact hinner (by simp [Context.isOutermost, hshows₂.control])

end

end Constructs

section Instructions

variable {base : Context} {b : Backend σ}

section

variable (h : Within P base outer below ctx)
include h

/-- Constructs note branches to them. -/
theorem Within.marks (hbelow : Layers P below outer)
    {marked : Context} (hsame : ctx.SameSetting marked) (hstack : marked.stack = ctx.stack)
    (marks : Nat → Bool) (hmarks : marked.control =
      ctx.control.mapIdx fun d c => if marks d then c.markBranch else c) :
    ∃ outer' below', Layers P below' outer' ∧ Within P base outer' below' marked := by
  obtain ⟨hopen, hlayers⟩ := h.inside.layers hbelow
  have hmarked : Layers P marked.stack.toList marked.control := by
    rw [hstack, hmarks]
    exact hlayers.map_marks marks
  have hopen' : marked.control ≠ [] := by
    rw [hmarks]
    simpa using hopen
  obtain ⟨outer', below', hbelow', hinside⟩ := hmarked.inside hopen'
  exact ⟨outer', below', hbelow', h.same.trans hsame, hinside⟩

theorem branching (hbelow : Layers P below outer) {depth : Nat}
    (hd : depth < ctx.control.length) (conditional : Bool) :
    Agrees (σ := σ) ctx (Guarded.branch depth conditional)
      (Decode.check (Check.branch depth conditional)) fun _ ctx' =>
        ctx'.control = ctx.control ∧ Within P base outer below ctx' := by
  obtain ⟨c, ops, hshows, hfits⟩ := h.inside
  refine (branch hshows hd conditional).mono fun _ ctx' ⟨_, ops', hctx, hreach, hdead⟩ => ?_
  subst hctx
  have hpayload : ∀ ty ∈ (ctx.controlAt depth).branchMerge.types, P ty := by
    refine (h.inside.layers hbelow).2.branchMerge _ ?_
    simp [Context.controlAt, hd]
  refine ⟨rfl, .of_operands h.same hshows ?_⟩
  cases hc : c.isReachable with
  | true =>
    rw [hreach hc]
    exact hfits
  | false =>
    obtain ⟨rest, hrest, rfl⟩ := hdead hc
    exact (hfits.of_prefix hrest).append (mem_fresh hpayload)

/-- A listener is told; the number of open constructs stays. -/
theorem report_length (e : Event) :
    Agrees ctx (Guarded.report b e) (Decode.report b e) fun _ ctx' =>
      ctx'.control.length = ctx.control.length ∧ Within P base outer below ctx' := by
  refine report_post (Q := fun ctx' => ctx'.control.length = ctx.control.length ∧
    Within P base outer below ctx') ⟨rfl, h⟩ ⟨?_, h.markDead⟩ e
  simp [Context.markDead, Context.modifyCurrent, Context.modifyControl]

/-- A branch that is taken: the listener is told and the target notes it. -/
theorem takeBranch (hbelow : Layers P below outer) {depth : Nat}
    (hd : depth < ctx.control.length) (e : Event) {k : Unit → GuardedM σ α} {Q : α → Context → Prop}
    (hk : ∀ outer' below' ctx', Layers P below' outer' → Within P base outer' below' ctx' →
      Agrees ctx' (k ()) (l ()) Q) :
    Agrees ctx (do
      Guarded.report b e
      let _ ← Guarded.controlAt depth
      modify fun ctx => ctx.modifyControl depth Control.markBranch
      k ()) (do
      Decode.report b e
      modify fun ctx => ctx.modifyControl depth Control.markBranch
      l ()) Q := by
  refine bind (report_length h e) fun _ ctx₁ ⟨hlength, h₁⟩ =>
    controlAt (hlength ▸ hd) (modify_bind ?_)
  have hsame : ctx₁.SameSetting (ctx₁.modifyControl depth Control.markBranch) :=
    ⟨rfl, rfl, rfl, rfl, rfl, rfl⟩
  obtain ⟨outer', below', hbelow', h'⟩ :=
    h₁.marks hbelow hsame rfl (· == depth) (modify_eq_mapIdx ..)
  exact hk outer' below' _ hbelow' h'

theorem br (hbelow : Layers P below outer) {depth : Nat} (hd : depth < ctx.control.length) :
    Agrees ctx (Guarded.br b depth) (Decode.br b depth) fun _ => Ready P base := by
  refine bind (branching h hbelow hd false) fun _ ctx₁ ⟨hcontrol, h₁⟩ => ite (fun _ => ?_)
    fun _ => endControl_ready h₁ hbelow
  exact takeBranch h₁ hbelow (hcontrol ▸ hd) _ (k := fun _ => Guarded.endControl b)
    (l := fun _ => Decode.endControl b) fun _ _ _ hb h => endControl_ready h hb

theorem popping (index : Nat) (ty : ValueType) :
    Agrees (σ := σ) ctx (Guarded.pop index ty) (Decode.check (Check.pop index ty)) fun _ ctx' =>
      ctx'.control = ctx.control ∧ Within P base outer below ctx' := by
  obtain ⟨c, ops, hshows, hfits⟩ := h.inside
  refine (pop hshows index ty).mono fun _ ctx' ⟨rest, hctx, htakes⟩ => ?_
  subst hctx
  exact ⟨rfl, .of_operands h.same hshows (hfits.of_prefix htakes.kept)⟩

theorem brIf (hbelow : Layers P below outer) {depth : Nat} (hd : depth < ctx.control.length) :
    Agrees ctx (Guarded.brIf b depth) (Decode.brIf b depth) fun _ => Ready P base := by
  refine bind (popping h 0 .i32) fun _ ctx₁ ⟨hcontrol₁, h₁⟩ =>
    bind (branching h₁ hbelow (hcontrol₁ ▸ hd) true) fun _ ctx₂ ⟨hcontrol₂, h₂⟩ =>
      ite (fun _ => ?_) fun _ => of_pure (h₂.ready hbelow)
  have hd₂ : depth < ctx₂.control.length := by rw [hcontrol₂, hcontrol₁]; exact hd
  have hmark := takeBranch (b := b) h₂ hbelow hd₂ (.brIf ‹_› depth) (k := fun _ => pure ())
    (l := fun _ => pure ()) (Q := fun _ => Ready P base) fun _ _ _ hb h => of_pure (h.ready hb)
  simpa using hmark

theorem brTable (hbelow : Layers P below outer) (table : BranchTable) :
    Agrees ctx (Guarded.brTable b table) (Decode.brTable b table) fun _ => Ready P base := by
  refine bind (popping h 0 .i32) fun _ ctx₁ ⟨_, h₁⟩ => bind (scanTable table) ?_
  rintro scan ctx₁ rfl
  obtain ⟨c, ops, hshows, hfits⟩ := h₁.inside
  refine bind (branchTable hshows _) fun _ ctx₂ ⟨ops', hctx₂, hprefix⟩ => ?_
  subst hctx₂
  have h₂ : Within P base outer below (ctx₁.withOperands below ops') :=
    .of_operands h₁.same hshows (hfits.of_prefix hprefix)
  refine get_left (get_right (ite (fun _ => bind (tell h₂ _) fun _ ctx₃ h₃ => modify_bind ?_)
    fun _ => endControl_ready h₂ hbelow))
  have hsame : ctx₃.SameSetting (Decode.markSeen scan.seen ctx₃) := ⟨rfl, rfl, rfl, rfl, rfl, rfl⟩
  obtain ⟨outer', below', hbelow', h'⟩ :=
    h₃.marks hbelow hsame rfl (fun d => scan.seen[d]?.getD false) rfl
  exact endControl_ready h' hbelow'

theorem popEach_within (operands : List (ValueType × Nat)) :
    Agrees (σ := σ) ctx (Guarded.popEach operands) (Decode.check (Check.popEach operands))
      fun _ => Within P base outer below := by
  obtain ⟨c, ops, hshows, hfits⟩ := h.inside
  refine (popEach hshows operands).mono fun _ ctx' ⟨rest, hctx, htakes⟩ => ?_
  subst hctx
  exact .of_operands h.same hshows (hfits.of_prefix htakes.kept)

theorem ret (hbelow : Layers P below outer) :
    Agrees ctx (Guarded.ret b) (Decode.ret b) fun _ => Ready P base := by
  obtain ⟨c, ops, hshows, hfits⟩ := h.inside
  refine get_left (get_right (ite (fun _ => bind (returnTypes hshows) ?_) fun _ => ?_))
  · rintro _ ctx rfl
    exact bind (tell h _) fun _ _ h₁ => endControl_ready h₁ hbelow
  · rw [Check.popArgs, Check.popTypes_eq_popEach]
    exact bind (popEach_within h _) fun _ _ h₁ => endControl_ready h₁ hbelow

theorem rethrow (hbelow : Layers P below outer) {depth : Nat} (hd : depth < ctx.control.length) :
    Agrees ctx (Guarded.rethrow b depth) (Decode.rethrow b depth) fun _ => Ready P base := by
  exact controlAt hd (get_right (guard fun _ => bind (report h _) fun _ _ h₁ =>
    endControl_ready h₁ hbelow))

theorem pushing {types : List ValueType} (htypes : ∀ ty ∈ types, P ty) :
    Agrees (σ := σ) ctx (check (Check.pushAll types)) (Decode.check (Check.pushAll types))
      fun _ => Within P base outer below := by
  obtain ⟨c, ops, hshows, hfits⟩ := h.inside
  refine of_check fun vs ctx' hr => ?_
  rw [Check.pushAll_eq hshows] at hr
  cases hr
  exact .of_operands h.same hshows (hfits.append (mem_fresh htypes))

theorem shape {shape : Shape} (hshape : i.shape? = some shape) (hgives : ∀ ty ∈ shape.gives, P ty) :
    Agrees (σ := σ) ctx (Guarded.shape shape) (Decode.check shape.check) fun _ =>
      Within P base outer below := by
  simp only [Guarded.shape, Shape.check, Decode.check_bind, Decode.check_pure]
  refine bind (Q := fun _ ctx' => ctx' = ctx)
    (of_check fun _ _ hr => Instruction.requires_ok hshape hr) ?_
  rintro _ ctx rfl
  exact bind (popEach_within h _) fun _ ctx₁ h₁ => bind (pushing h₁ hgives) fun _ ctx₂ h₂ =>
    of_pure h₂

end

/-- The operand that is taken has the property unless it was made up. -/
theorem taken_property {rest : List Value} (h : c.Fits P outer ops)
    (htakes : c.Takes ops [v] rest) : c.isUnreachable = true ∨ P v.ty := by
  cases hc : c.isUnreachable with
  | true => exact .inl rfl
  | false =>
    refine .inr (h.operands hc v ?_)
    rw [htakes.exact hc]
    exact mem_append_right _ mem_cons_self

theorem push_result (hshows : ctx.Shows c outer below ops) (hfits : c.Fits P outer ops)
    (hsame : base.SameSetting ctx) {ty : ValueType} (hty : c.isUnreachable = true ∨ P ty) :
    Agrees (σ := σ) ctx (check (Check.push ty)) (Decode.check (Check.push ty)) fun _ =>
      Within P base outer below := by
  refine of_check fun v ctx' hr => ?_
  rw [Check.push_eq hshows] at hr
  cases hr
  refine .of_operands hsame hshows (hfits.congr id hfits.outermost rfl rfl fun hc v hv => ?_)
  rcases mem_append.1 hv with hv | hv
  · exact hfits.operands hc v hv
  · obtain rfl := mem_singleton.1 hv
    exact hty.resolve_left (by simp [hc])

section

variable (h : Within P base outer below ctx)
include h

/-- The form of `select` without a type. Of the two values one may be made up. -/
theorem select : Agrees ctx (Guarded.select b) (Decode.select b) fun _ =>
    Within P base outer below := by
  obtain ⟨c, ops, hshows, hfits⟩ := h.inside
  refine bind (pop hshows 2 .i32) fun cond _ ⟨ops₁, hctx₁, htakes₁⟩ => ?_
  subst hctx₁
  refine bind (popAny (hshows.withOperands ops₁) 1) fun falseValue _ ⟨ops₂, hctx₂, htakes₂⟩ => ?_
  subst hctx₂
  refine bind (pop (hshows.withOperands ops₂) 0 _) fun trueValue _ ⟨ops₃, hctx₃, htakes₃⟩ => ?_
  subst hctx₃
  have hfits₁ := hfits.of_prefix htakes₁.kept
  have hfits₂ := hfits₁.of_prefix htakes₂.kept
  have hfits₃ := hfits₂.of_prefix htakes₃.kept
  have hty : c.isUnreachable = true ∨
      P (if trueValue.ty = .bottom then falseValue.ty else trueValue.ty) := by
    split
    · exact taken_property hfits₁ htakes₂
    · exact taken_property hfits₂ htakes₃
  refine get_left (get_right (guard fun _ => ?_))
  exact bind (push_result (hshows.withOperands ops₃) hfits₃
    (h.same.trans (ctx.sameSetting_withOperands ..)) hty) fun _ _ h' => report h' _

theorem refIsNull (hi32 : P .i32) :
    Agrees ctx (Guarded.refIsNull b) (Decode.refIsNull b) fun _ => Within P base outer below := by
  obtain ⟨c, ops, hshows, hfits⟩ := h.inside
  refine bind (popAny hshows 0) fun value _ ⟨rest, hctx, htakes⟩ => ?_
  subst hctx
  refine get_left (get_right (guard fun _ => ?_))
  exact bind (push_result (hshows.withOperands rest) (hfits.of_prefix htakes.kept)
    (h.same.trans (ctx.sameSetting_withOperands ..)) (.inr hi32)) fun _ _ h' => report h' _

/-- Every instruction keeps the layers in order and looks nothing up that is not there. -/
theorem instruction (hbelow : Layers P below outer)
    (hproper : ∀ ty, ty ≠ .bottom → P ty) (htypes : ∀ ty ∈ i.types, P ty)
    (hdepth : ∀ d, i.depth? = some d → d < ctx.control.length) :
    Agrees ctx (Guarded.instruction b i) (Decode.instruction b i) fun _ => Ready P base := by
  unfold Guarded.instruction
  cases hshape : i.shape? with
  | some s =>
    have hgives : ∀ ty ∈ s.gives, P ty := fun ty hty =>
      (Instruction.gives_types hshape ty hty).elim (htypes ty) (hproper ty)
    rw [Decode.instruction_eq_shape b hshape]
    exact bind (shape h hshape hgives) fun e ctx₁ h₁ => bind (report h₁ e) fun _ ctx₂ h₂ =>
      ite (fun _ => endControl_ready h₂ hbelow) fun _ => of_pure (h₂.ready hbelow)
  | none =>
    have hblock : ∀ type : BlockType, i.types = type.params ++ type.results →
        (∀ ty ∈ type.params, P ty) ∧ ∀ ty ∈ type.results, P ty := by
      intro type heq
      rw [heq] at htypes
      exact ⟨fun ty hty => htypes ty (mem_append_left _ hty),
        fun ty hty => htypes ty (mem_append_right _ hty)⟩
    cases i with
    | nop => exact of_pure (h.ready hbelow)
    | block type | loop type | tryBlock type =>
      exact openBlock h hbelow _ (hblock type rfl).1 (hblock type rfl).2 _
    | ifThen type =>
      exact bind (popping h 0 .i32) fun _ ctx₁ ⟨_, h₁⟩ =>
        openBlock h₁ hbelow _ (hblock type rfl).1 (hblock type rfl).2 _
    | elseArm => exact elseArm h hbelow
    | endBlock => exact endBlock h hbelow
    | catchTag tag params => exact beginHandler h hbelow _ _ htypes _
    | catchAll => exact beginHandler h hbelow _ _ (forall_mem_nil _) _
    | rethrow depth => exact rethrow h hbelow (hdepth depth rfl)
    | br depth => exact br h hbelow (hdepth depth rfl)
    | brIf depth => exact brIf h hbelow (hdepth depth rfl)
    | brTable table => exact brTable h hbelow table
    | ret => exact ret h hbelow
    | select => exact (select h).mono fun _ _ h' => h'.ready hbelow
    | refIsNull => exact (refIsNull h (hproper _ nofun)).mono fun _ _ h' => h'.ready hbelow
    | _ => cases hshape

end

end Instructions

end Agrees

end Guarded

/-- Instructions of the function stand for types with the property. -/
def Promises (P : ValueType → Prop) (module : Module) (locals : Array ValueType) : Prop :=
  ∀ (scope : Scope) (op : Opcode) (r r' : Reader) (i : Instruction), scope.module = module →
    scope.locals = locals → Reader.Reads (Instruction.read scope op) r i r' → ∀ ty ∈ i.types, P ty

namespace Decode

variable {σ : Type} {b : Backend σ}

/-- Reading an instruction leaves the stacks, up to what the listener says. -/
theorem fetch_ok {s s' : σ} (h : (fetch b ctx).run s = (.ok (i, ctx'), s')) :
    (∃ op r, Reader.Reads (Instruction.read ctx'.scope op) r i ctx'.reader) ∧
      ctx'.module = ctx.module ∧ ctx'.locals = ctx.locals ∧ ctx'.stack = ctx.stack ∧
      (ctx'.control = ctx.control ∨ ctx'.control = ctx.markDead.control) := by
  obtain ⟨_, ctx₁, s₁, h₁, h⟩ := exists_of_run_bind h
  cases h₁
  obtain ⟨_, ctx₂, s₂, h₂, h⟩ := exists_of_run_bind h
  cases h₂
  obtain ⟨op, ctx₃, s₃, h₃, h⟩ := exists_of_run_bind h
  rw [run_read] at h₃
  split at h₃
  next r hop =>
    cases h₃
    obtain ⟨_, ctx₄, s₄, h₄, h⟩ := exists_of_run_bind h
    cases h₄
    obtain ⟨_, ctx₅, s₅, h₅, h⟩ := exists_of_run_bind h
    obtain ⟨_, ctx₆, s₆, h₆, h⟩ := exists_of_run_bind h
    cases h₆
    rw [run_read] at h
    split at h
    next i r' hread =>
      cases h
      obtain ⟨hmodule, hlocals, hstack, hcontrol⟩ : ctx₅.module = ctx.module ∧
          ctx₅.locals = ctx.locals ∧ ctx₅.stack = ctx.stack ∧
          (ctx₅.control = ctx.control ∨ ctx₅.control = ctx.markDead.control) := by
        rcases report_ok (congrArg Prod.fst h₅) with rfl | rfl
        · exact ⟨rfl, rfl, rfl, .inl rfl⟩
        · exact ⟨rfl, rfl, rfl, .inr rfl⟩
      exact ⟨⟨op, ctx₅.reader, hread⟩, hmodule, hlocals, hstack, hcontrol⟩
    next => cases h
  next => cases h₃

/-- The construct that stands for the body is open. -/
theorem enter_ok (hcontrol : ctx.control = []) (hstack : ctx.stack = #[])
    (hresults : ∀ ty ∈ ctx.sig.results, P ty) {s s' : σ}
      (h : (enter b ctx).run s = (.ok ((), ctx'), s')) :
    ctx'.module = ctx.module ∧ ctx'.Orderly P ∧
      ∃ r, Reader.Reads (readLocals ctx.options.features ctx.sig) ctx.reader ctx'.locals r := by
  obtain ⟨_, ctx₁, s₁, h₁, h⟩ := exists_of_run_bind h
  cases h₁
  obtain ⟨locals, ctx₂, s₂, h₂, h⟩ := exists_of_run_bind h
  rw [run_read] at h₂
  split at h₂
  next r hread =>
    cases h₂
    obtain ⟨_, ctx₃, s₃, h₃, h⟩ := exists_of_run_bind h
    cases h₃
    obtain ⟨_, ctx₄, s₄, h₄, h⟩ := exists_of_run_bind h
    obtain ⟨hmodule₄, hlocals₄, hstack₄, hcontrol₄⟩ : ctx₄.module = ctx.module ∧
        ctx₄.locals = locals ∧ ctx₄.stack = #[] ∧ ctx₄.control = [] := by
      rcases tell_ok (congrArg Prod.fst h₄) with rfl | rfl
      · exact ⟨rfl, rfl, hstack, hcontrol⟩
      · refine ⟨rfl, rfl, hstack, ?_⟩
        simp [Context.markDead, Context.modifyCurrent, Context.modifyControl, hcontrol]
    obtain ⟨_, ctx₅, s₅, h₅, h⟩ := exists_of_run_bind h
    cases h₅
    obtain ⟨block, ctx₆, s₆, h₆, h⟩ := exists_of_run_bind h
    obtain ⟨block', hpush, hkind, hdepth, hstart, hend, -⟩ := Check.pushControl_eq
      { ctx₄ with pc := ctx₄.reader.pos } .block ⟨[], ctx.sig.results⟩
    have hr := congrArg Prod.fst h₆
    change outcome _ _ _ = _ at hr
    rw [outcome_check, hpush] at hr
    cases hr
    have hlayers : Layers P ctx₄.stack.toList (block :: ctx₄.control) := by
      rw [hstack₄, hcontrol₄]
      show Layers P ([] ++ []) [block]
      exact .cons .nil (by simp [hdepth, hstack₄])
        ⟨fun _ => by rintro _ ⟨⟩, fun _ => hkind, by simp [hstart], by rw [hend]; exact hresults,
          by simp⟩
    rcases tell_ok (congrArg Prod.fst h) with rfl | rfl
    · exact ⟨hmodule₄, .inl ⟨cons_ne_nil _ _, hlayers⟩, r, hlocals₄ ▸ hread⟩
    · exact ⟨hmodule₄, .inl ⟨cons_ne_nil _ _, Layers.markDead (cons_ne_nil _ _) hlayers⟩,
        r, hlocals₄ ▸ hread⟩
  next => cases h₂

end Decode

namespace Guarded

variable {σ : Type} {b : Backend σ}

/-- One instruction, read and checked. -/
theorem Agrees.step (hopen : ctx.control ≠ []) (h : ctx.Orderly P)
    (hproper : ∀ ty, ty ≠ .bottom → P ty) (hpromises : Promises P ctx.module ctx.locals) :
    Agrees ctx (do let i ← lift (Decode.fetch b); Guarded.instruction b i) (Decode.step b)
      fun _ ctx' => ctx'.Orderly P ∧ ctx'.module = ctx.module ∧ ctx'.locals = ctx.locals := by
  obtain ⟨-, hlayers⟩ := h.resolve_right fun hclosed => hopen hclosed.1
  rw [Decode.step_eq]
  refine bind (Q := fun i ctx' => (ctx'.control ≠ [] ∧
      Layers P ctx'.stack.toList ctx'.control) ∧ ctx'.module = ctx.module ∧
      ctx'.locals = ctx.locals ∧ (∀ ty ∈ i.types, P ty) ∧
      ∀ d, i.depth? = some d → d < ctx'.control.length) (of_lift fun s i ctx' hr => ?_)
    fun i ctx' ⟨⟨hopen', hlayers'⟩, hmodule, hlocals, htypes, hdepth⟩ => ?_
  · have hrun : (Decode.fetch b ctx).run s = (.ok (i, ctx'), ((Decode.fetch b ctx).run s).2) :=
      Prod.ext hr rfl
    obtain ⟨⟨op, r, hread⟩, hmodule, hlocals, hstack, hcontrol⟩ := Decode.fetch_ok hrun
    refine ⟨?_, hmodule, hlocals, hpromises _ op r _ i hmodule hlocals hread,
      fun d hd => Instruction.lt_of_read_depth hread hd⟩
    rw [hstack]
    rcases hcontrol with hcontrol | hcontrol <;> rw [hcontrol]
    · exact ⟨hopen, hlayers⟩
    · refine ⟨?_, Layers.markDead hopen hlayers⟩
      simp [Context.markDead, Context.modifyCurrent, Context.modifyControl, hopen]
  · obtain ⟨outer, below, hbelow, hinside⟩ := hlayers'.inside hopen'
    have hwithin : Within P ctx' outer below ctx' := ⟨.refl ctx', hinside⟩
    exact (instruction hwithin hbelow hproper htypes hdepth).mono fun _ ctx₁ h₁ =>
      ⟨h₁.orderly, h₁.same.module.trans hmodule, h₁.same.locals.trans hlocals⟩

theorem Agrees.steps (h : ctx.Orderly P) (hproper : ∀ ty, ty ≠ .bottom → P ty)
    (hpromises : Promises P ctx.module ctx.locals) (fuel : Nat) :
    Agrees ctx (Guarded.steps b fuel) (Decode.steps b fuel) fun _ _ => True := by
  induction fuel generalizing ctx with
  | zero => exact get_left (get_right (ite (fun _ => of_throw _) fun _ => of_pure trivial))
  | succ fuel ih =>
    refine get_left (get_right (ite (fun _ => of_pure trivial) fun hopen => ite
      (fun _ => of_throw _) fun _ => ?_))
    rw [← bind_assoc]
    refine bind (step ?_ h hproper hpromises) fun _ ctx' ⟨h', hmodule, hlocals⟩ =>
      ih h' (by rw [hmodule, hlocals]; exact hpromises)
    simpa using hopen

end Guarded

/-- What the function refers to has types with the property. -/
structure Admits (P : ValueType → Prop) (module : Module) (sig : Signature)
    (options : DecoderOptions) : Prop where
  proper : ∀ ty, ty ≠ .bottom → P ty
  results : ∀ ty ∈ sig.results, P ty
  promises : ∀ (locals : Array ValueType) (r r' : Reader),
    Reader.Reads (readLocals options.features sig) r locals r' → Promises P module locals

theorem admits_noBottom {module : Module} {sig : Signature} (hmodule : module.NoBottom)
    (hsig : sig.NoBottom) (options : DecoderOptions) : Admits (· ≠ .bottom) module sig options := by
  refine ⟨fun ty h => h, fun ty hty heq => hsig.results (heq ▸ hty), ?_⟩
  rintro locals r r' hlocals scope op r₁ r₂ i rfl rfl hread ty hty rfl
  exact Instruction.bottom_not_mem_types hmodule (bottom_not_mem_locals hsig hlocals) hread hty

section Runs

variable {σ : Type} {b : Backend σ} {module : Module} {sig : Signature} {body : Array UInt8}
  {options : DecoderOptions} {s₀ s : σ}

/-- The layers are in order in every state that a run comes to. -/
theorem Decode.Reached.orderly (hadmits : Admits P module sig options)
    (h : Reached b (.initial module sig body options) s₀ ctx s) :
    ctx.Orderly P ∧ Promises P ctx.module ctx.locals := by
  induction h with
  | enter h =>
    obtain ⟨hmodule, horderly, r, hlocals⟩ := enter_ok rfl rfl hadmits.results h
    refine ⟨horderly, ?_⟩
    rw [hmodule]
    exact hadmits.promises _ _ r hlocals
  | @step ctx ctx' s s' _ hopen _ h ih =>
    obtain ⟨horderly, hpromises⟩ := ih
    have hstep := (Guarded.Agrees.step (b := b) (by simpa using hopen) horderly hadmits.proper
      hpromises s).2 () ctx' (congrArg Prod.fst h)
    obtain ⟨horderly', hmodule, hlocals⟩ := hstep
    refine ⟨horderly', ?_⟩
    rw [hmodule, hlocals]
    exact hpromises

/-- Guards never make a difference. -/
theorem guardedDecodeBody_eq (hadmits : Admits P module sig options) (b : Backend σ) (s : σ)
    (body : Array UInt8) : guardedDecodeBody b s module sig body options =
      Guarded.embed (decodeBody b s module sig body options) := by
  have hagrees : Guarded.Agrees (.initial module sig body options) (do
        Guarded.lift (Decode.enter b)
        Guarded.steps b body.size
        Guarded.tell b .finishFunction) (do
        Decode.enter b
        Decode.steps b body.size
        Decode.tell b .finishFunction) fun _ _ => True := by
    refine .bind (Q := fun _ ctx => ctx.Orderly P ∧ Promises P ctx.module ctx.locals)
      (.of_lift fun s x ctx' hr => ?_) fun _ ctx ⟨horderly, hpromises⟩ =>
        .bind (.steps horderly hadmits.proper hpromises body.size) fun _ _ _ =>
          .of_lift fun _ _ _ _ => trivial
    have hreached : Decode.Reached b (.initial module sig body options) s ctx' _ :=
      .enter (Prod.ext hr rfl)
    exact hreached.orderly hadmits
  have hrun := (hagrees s).1.trans
    (congrArg Guarded.embed (Decode.run_body b (.initial module sig body options) s).symm)
  have hguarded : (Guarded.body b (.initial module sig body options)).run s =
      Guarded.embed ((Decode.body b (.initial module sig body options)).run s) := hrun
  show (((Guarded.body b (.initial module sig body options)).run s).1.map Prod.fst,
    ((Guarded.body b (.initial module sig body options)).run s).2) =
    Guarded.embed (((Decode.body b (.initial module sig body options)).run s).1.map Prod.fst,
      ((Decode.body b (.initial module sig body options)).run s).2)
  rw [hguarded]
  rcases (Decode.body b (.initial module sig body options)).run s with ⟨_ | _, _⟩ <;> rfl

end Runs

/-- The operands of the construct `depth` levels out: from its entry to the entry of the next
construct inside, or to the top. -/
def layer (stack : List Value) (control : List Control) (depth : Nat) : List Value :=
  let top := match depth with
    | 0 => stack.length
    | inner + 1 => (control.getD inner default).stackDepth
  (stack.take top).drop (control.getD depth default).stackDepth

namespace Layers

variable {stack : List Value} {control : List Control}

section

variable (h : Layers P stack control)
include h

theorem stackDepth_le : ∀ c ∈ control, c.stackDepth ≤ stack.length := by
  induction h with
  | nil => nofun
  | cons inner depth fits ih =>
    intro c hc
    rw [length_append]
    rcases mem_cons.1 hc with rfl | hc
    · omega
    · have := ih c hc
      omega

theorem pairwise_stackDepth :
    control.Pairwise fun inner outer => outer.stackDepth ≤ inner.stackDepth := by
  induction h with
  | nil => exact .nil
  | cons inner depth fits ih =>
    exact .cons (fun c hc => depth ▸ inner.stackDepth_le c hc) ih

theorem pairwise_reachable :
    control.Pairwise fun inner outer => inner.isReachable = true → outer.isReachable = true := by
  induction h with
  | nil => exact .nil
  | @cons c outer below ops inner depth fits ih =>
    refine .cons (fun p hp hc => ?_) ih
    -- The construct just around is reachable, and so are those around it.
    cases outer with
    | nil => cases hp
    | cons parent outer =>
      have hparent := fits.reachable hc parent rfl
      rcases mem_cons.1 hp with rfl | hp
      · exact hparent
      · exact (pairwise_cons.1 ih).1 p hp hparent

/-- Only unreachable constructs have operands without the property. -/
theorem of_mem_layer {depth : Nat} {c : Control}
    (hc : control[depth]? = some c) (hv : v ∈ layer stack control depth)
    (hreach : c.isUnreachable = false) : P v.ty := by
  induction h generalizing depth with
  | nil => cases hc
  | @cons c' outer below ops inner hdepth fits ih =>
    cases depth with
    | zero =>
      cases hc
      have hlayer : layer (below ++ ops) (c :: outer) 0 = ops := by
        simp only [layer, getD_cons_zero, hdepth, take_length, drop_left]
      exact fits.operands hreach v (hlayer ▸ hv)
    | succ depth =>
      refine ih hc ?_
      cases depth with
      | zero => simpa [layer, hdepth] using hv
      | succ depth =>
        have hlt : depth < outer.length := by
          have := (List.getElem?_eq_some_iff.1 hc).1
          simp only [length_cons] at this
          omega
        have hle := inner.stackDepth_le outer[depth] (getElem_mem hlt)
        have htop : (outer.getD depth default).stackDepth ≤ below.length := by
          rw [getD_eq_getElem _ _ hlt]
          exact hle
        simpa only [layer, getD_cons_succ, take_append_of_le_length htop] using hv

end

end Layers

/-- Whatever the body and the listener, the stacks are well nested at every instruction: something
is open while bytes are left, the constructs start one above the other and none above the top, a
reachable construct lies in reachable ones, and an operand of no type is in an unreachable construct
only. No lookup made on the way is out of range. -/
theorem stacks_well_nested {σ : Type} {module : Module} {sig : Signature}
    (hmodule : module.NoBottom) (hsig : sig.NoBottom) (options : DecoderOptions) (b : Backend σ)
    (s₀ : σ) (body : Array UInt8) :
    (∀ ctx s, Decode.Reached b (.initial module sig body options) s₀ ctx s →
      (ctx.reader.isAtEnd = false → ctx.control ≠ []) ∧
      ctx.control.Pairwise (fun inner outer => outer.stackDepth ≤ inner.stackDepth) ∧
      (∀ c ∈ ctx.control.head?, c.stackDepth ≤ ctx.stack.size) ∧
      ctx.control.Pairwise (fun inner outer =>
        inner.isReachable = true → outer.isReachable = true) ∧
      ∀ depth c, ctx.control[depth]? = some c →
        ∀ v ∈ layer ctx.stack.toList ctx.control depth, v.ty = .bottom → c.isUnreachable = true) ∧
    guardedDecodeBody b s₀ module sig body options =
      Guarded.embed (decodeBody b s₀ module sig body options) := by
  have hadmits := admits_noBottom hmodule hsig options
  refine ⟨fun ctx s hreached => ?_, guardedDecodeBody_eq hadmits b s₀ body⟩
  rcases (hreached.orderly hadmits).1 with ⟨hopen, hlayers⟩ | ⟨hclosed, hend⟩
  · refine ⟨fun _ => hopen, hlayers.pairwise_stackDepth, fun c hc => ?_, hlayers.pairwise_reachable,
      fun depth c hc v hv hbottom => ?_⟩
    · rw [← Array.length_toList]
      exact hlayers.stackDepth_le c (mem_of_mem_head? hc)
    · by_contra hreach
      exact hlayers.of_mem_layer hc hv (by simpa using hreach) hbottom
  · simp [hclosed, hend]

/-- A loop with operands made up after `unreachable`. -/
theorem stacks_well_nested_polymorphicLoop : Module.NoBottom {} ∧ Signature.NoBottom ⟨[], []⟩ ∧
    (guardedDecodeBody .validator () {} ⟨[], []⟩ #[0x00, 0x03, 0x40, 0x00, 0x6A, 0x1A, 0x0B, 0x0B]
      {}).1 = .ok () := by
  have hmodule : Module.NoBottom {} := ⟨by simp, by simp, by simp, by simp⟩
  have hsig : Signature.NoBottom ⟨[], []⟩ := ⟨by simp, by simp⟩
  refine ⟨hmodule, hsig, ?_⟩
  rw [(stacks_well_nested hmodule hsig {} .validator () _).2]
  decide +kernel

end OnePass
