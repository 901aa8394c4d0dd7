import OnePass.Proofs.Shape

/-!
The checks on operands follow the frames: popping, pushing, and the comparison of the topmost
operands with the types of a merge. In reachable code a merge compares and leaves the operands, in
other code it pops and pushes them; with no `bottom` about, both leave the same types.
-/
namespace OnePass

open List

/-- The backend answers every event. -/
def Backend.NeverBails {σ : Type} (b : Backend σ) : Prop :=
  ∀ ctx e s, ∃ reply, (b.handle ctx e s).1 = .ok reply

/-- The operands of the innermost construct, the topmost first. -/
def Context.operands (ctx : Context) : List ValueType := ctx.types.take ctx.available

/-- What the type rules know of the innermost construct. -/
def Context.frame (ctx : Context) : Frame :=
  ⟨ctx.current.kind, ctx.current.startMerge.types, ctx.current.endMerge.types, ctx.operands,
    ctx.current.isUnreachable, ctx.current.pc⟩

def Context.env (ctx : Context) : TypeEnv :=
  ⟨ctx.options, ctx.sig.results, ctx.control.map fun c => c.branchMerge.types,
    ctx.control.map Control.kind⟩

namespace Matches

variable {ctx : Context} {f : Frame} {fs : List Frame}

section

variable (h : Matches ctx (f :: fs))
include h

/-- The innermost construct apart from the others. -/
theorem split : ∃ ops below c cs, ctx.types = ops ++ below ∧ ctx.control = c :: cs ∧ c.Outlined f ∧
      Agree ctx.options.trusted ops f.operands ∧ f.Clean ctx.options.trusted ∧
      c.stackDepth = below.length ∧ Framed ctx.options.trusted below cs fs := by
  have framed := h.framed
  generalize hstack : ctx.types = stack at framed
  generalize hcontrol : ctx.control = control at framed
  cases framed with
  | @cons ops below c cs _ _ outlined agree clean depth rest =>
    exact ⟨ops, below, c, cs, rfl, rfl, outlined, agree, clean, depth, rest⟩

theorem outlined : ctx.current.Outlined f := by
  obtain ⟨ops, below, c, cs, htypes, hcontrol, outlined, -⟩ := h.split
  simpa [Context.current, Context.controlAt, hcontrol] using outlined

theorem clean : f.Clean ctx.options.trusted := by
  obtain ⟨ops, below, c, cs, htypes, hcontrol, outlined, agree, clean, -⟩ := h.split
  exact clean

theorem available : ctx.available = f.operands.length := by
  obtain ⟨ops, below, c, cs, htypes, hcontrol, outlined, agree, clean, depth, rest⟩ := h.split
  have hsize := congrArg List.length htypes
  rw [Context.length_types, length_append] at hsize
  simp only [Context.available, Context.current, Context.controlAt, hcontrol,
    getD_cons_zero, depth, hsize, ← agree.1]
  omega

theorem operands : Agree ctx.options.trusted ctx.operands f.operands := by
  obtain ⟨ops, below, c, cs, htypes, hcontrol, outlined, agree, -⟩ := h.split
  have hops : ctx.operands = ops := by
    rw [Context.operands, h.available, htypes, ← agree.1, take_left]
  rw [hops]
  exact agree

theorem stackDepth_le : ctx.current.stackDepth ≤ ctx.stack.size := by
  obtain ⟨ops, below, c, cs, htypes, hcontrol, outlined, agree, clean, depth, rest⟩ := h.split
  have hsize := congrArg List.length htypes
  rw [Context.length_types, length_append] at hsize
  simp only [Context.current, Context.controlAt, hcontrol, getD_cons_zero, depth, hsize]
  omega

theorem label (depth : Nat) : (ctx.controlAt depth).branchMerge.types =
      (TypeEnv.ofFrames ctx.options ctx.sig.results (f :: fs)).label depth := by
  rw [TypeEnv.label, TypeEnv.ofFrames, ← h.framed.labels_eq, Context.controlAt,
    getD_eq_getElem?_getD, getD_eq_getElem?_getD, getElem?_map]
  cases ctx.control[depth]? <;> rfl

end

/-- Reachable code is not polymorphic. -/
theorem polymorphic_of_isReachable (hm : Matches ctx (f :: fs))
    (h : ctx.current.isReachable = true) : f.polymorphic = false := by
  have hr : ctx.current.reachability = .reachable := by simpa [Control.isReachable] using h
  rw [← hm.outlined.unreachable, Control.isUnreachable, hr]
  rfl

/-- Other operands on top of what lies below the innermost construct. -/
theorem replaceOperands {ctx' : Context} {operands : List ValueType}
    (h : Matches ctx (f :: fs)) (ops : List ValueType) (hopt : ctx'.options = ctx.options)
    (hcontrol : ctx'.control = ctx.control) (hlive : ctx'.live = ctx.live)
    (htypes : ∀ below, ctx.types.drop f.operands.length = below → ctx'.types = ops ++ below)
    (hagree : Agree ctx.options.trusted ops operands)
    (hclean : ctx.options.trusted = false → f.polymorphic = false → .bottom ∉ operands) :
    Matches ctx' ({ f with operands } :: fs) := by
  obtain ⟨old, below, c, cs, holdTypes, hctl, outlined, agree, clean, depth, rest⟩ := h.split
  have hbelow : ctx.types.drop f.operands.length = below := by
    rw [holdTypes, ← agree.1, drop_left]
  constructor
  · rw [hopt, htypes below hbelow, hcontrol, hctl]
    exact .cons ⟨outlined.kind, outlined.params, outlined.results, outlined.pc,
      outlined.unreachable⟩ hagree ⟨clean.params, clean.results, hclean⟩ depth rest
  · intro hl g hg
    simp only [head?_cons, Option.mem_some_iff] at hg
    subst hg
    exact h.live (hlive ▸ hl) f rfl

end Matches

namespace Frame

variable {env : TypeEnv} {f : Frame} {types : List ValueType}

theorem takes_nil : f.takes env [] = true := by
  simp [takes]

/-- One more type is expected below the others. -/
theorem takes_cons {ty found : ValueType} {rest : List ValueType}
    (h : f.operands.drop types.length = found :: rest) :
    f.takes env (ty :: types) = (f.takes env types && env.accepts ty found) := by
  obtain ⟨top, hlength, hops⟩ : ∃ top : List ValueType, top.length = types.length ∧
      f.operands = top ++ found :: rest := by
    refine ⟨f.operands.take types.length, ?_, by rw [← h, take_append_drop]⟩
    have hlen := congrArg List.length h
    rw [length_drop, length_cons] at hlen
    rw [length_take]
    omega
  have hshort : (top ++ found :: rest).zip types.reverse = top.zip types.reverse := by
    have happend : (top ++ found :: rest).zip (types.reverse ++ []) =
        top.zip types.reverse ++ (found :: rest).zip [] := zip_append (by simp [hlength])
    simpa using happend
  have hlong : (top ++ found :: rest).zip (types.reverse ++ [ty]) =
      top.zip types.reverse ++ [(found, ty)] := by
    rw [zip_append (by simp [hlength])]
    simp
  simp only [takes, hops, reverse_cons, hshort, hlong, all_append, length_append,
    length_cons, hlength]
  cases f.polymorphic <;> simp

theorem takes_cons_of_drop_eq_nil {ty : ValueType} (h : f.operands.drop types.length = []) :
    f.takes env (ty :: types) = (f.takes env types && f.polymorphic) := by
  have hlen := congrArg List.length h
  rw [length_drop, length_nil] at hlen
  have hshort : ¬ types.length + 1 ≤ f.operands.length := by omega
  have hzip : f.operands.zip (types.reverse ++ [ty]) = f.operands.zip types.reverse := by
    have happend : (f.operands ++ []).zip (types.reverse.take f.operands.length ++
        (types.reverse.drop f.operands.length ++ [ty])) =
        f.operands.zip (types.reverse.take f.operands.length) ++
          [].zip (types.reverse.drop f.operands.length ++ [ty]) :=
      zip_append (by rw [length_take, length_reverse]; omega)
    have happend' : (f.operands ++ []).zip (types.reverse.take f.operands.length ++
        types.reverse.drop f.operands.length) =
        f.operands.zip (types.reverse.take f.operands.length) ++
          [].zip (types.reverse.drop f.operands.length) :=
      zip_append (by rw [length_take, length_reverse]; omega)
    rw [← append_assoc, take_append_drop, append_nil] at happend
    rw [take_append_drop, append_nil] at happend'
    rw [happend, happend', zip_nil_left, zip_nil_left]
  simp only [takes, reverse_cons, hzip, length_cons, hshort]
  cases f.polymorphic <;> simp

/-- Types are popped exactly if the operands are accepted where they are expected. -/
theorem popTypes_eq_takes (env : TypeEnv) (types : List ValueType) (f : Frame) :
    popTypes env types f =
      if f.takes env types then some ((), { f with operands := f.operands.drop types.length })
      else none := by
  induction types with
  | nil => rw [takes_nil]; rfl
  | cons ty types ih =>
    have hbind : popTypes env (ty :: types) f = (popTypes env types f).bind fun p =>
      pop env ty p.2 := rfl
    rw [hbind, ih, length_cons, ← drop_drop]
    cases hdrop : f.operands.drop types.length with
    | nil =>
      rw [takes_cons_of_drop_eq_nil hdrop]
      cases f.takes env types <;> cases hpoly : f.polymorphic <;>
        simp [pop, popAny, bind, StateT.bind, FrameM.guard_apply]
    | cons found rest =>
      rw [takes_cons hdrop]
      cases f.takes env types <;> cases haccepts : env.accepts ty found <;>
        simp [pop, popAny, bind, StateT.bind, haccepts, FrameM.guard_apply]

/-- Where `bottom` is not expected, a type is accepted if it is a subtype. -/
theorem all_accepts_eq (htypes : .bottom ∉ types) :
    ((f.operands.zip types.reverse).all fun (found, want) => env.accepts want found) =
      (env.options.trusted || (f.operands.zip types.reverse).all fun (found, want) =>
        found.isSubtypeOf want) := by
  cases htrusted : env.options.trusted with
  | true => simp [TypeEnv.accepts, htrusted]
  | false =>
    rw [Bool.false_or, Bool.eq_iff_iff, all_eq_true, all_eq_true]
    refine forall_congr' fun p => forall_congr' fun hp => ?_
    have hwant : (p.2 == .bottom) = false := by
      refine beq_eq_false_iff_ne.2 fun heq => htypes ?_
      exact mem_reverse.1 (heq ▸ (of_mem_zip hp).2)
    simp only [TypeEnv.accepts, htrusted, hwant, Bool.false_or]

section

variable (hpoly : f.polymorphic = false)
include hpoly

/-- Where the operands may run out and `bottom` is not expected, types are accepted if they are on
top. -/
theorem takes_eq_hasOnTop (htypes : .bottom ∉ types) :
    f.takes env types = f.hasOnTop env types := by
  simp only [takes, hasOnTop, hpoly, Bool.false_or, all_accepts_eq htypes]

theorem popTypes_eq (htypes : .bottom ∉ types) : popTypes env types f =
      if f.hasOnTop env types then some ((), { f with operands := f.operands.drop types.length })
      else none := by
  rw [popTypes_eq_takes, takes_eq_hasOnTop hpoly htypes]

theorem popTypes_of_short (hlength : f.operands.length < types.length) :
    popTypes env types f = none := by
  have htakes : f.takes env types = false := by
    simp [takes, hpoly, Nat.not_le.2 hlength]
  rw [popTypes_eq_takes, htakes]
  rfl

end

/-- Popping takes what is there. -/
theorem operands_of_popTypes {f' : Frame} {u : Unit} (h : popTypes env types f = some (u, f')) :
    f' = { f with operands := f.operands.drop types.length } := by
  rw [popTypes_eq_takes] at h
  split at h
  · cases h
    rfl
  · cases h

theorem pushTypes_eq (types : List ValueType) (f : Frame) :
    pushTypes types f = some ((), { f with operands := types.reverse ++ f.operands }) := by
  induction types generalizing f with
  | nil => rfl
  | cons ty types ih =>
    change pushTypes types { f with operands := ty :: f.operands } = _
    rw [ih]
    simp

/-- Without `bottom` the operands on top are just those asked for. -/
theorem take_of_hasOnTop (htrusted : env.options.trusted = false) (hops : .bottom ∉ f.operands)
    (h : f.hasOnTop env types = true) : f.operands.take types.length = types.reverse := by
  simp only [hasOnTop, htrusted, Bool.false_or, Bool.and_eq_true, decide_eq_true_eq,
    all_eq_true] at h
  obtain ⟨hlength, hall⟩ := h
  apply ext_getElem
  · simp [hlength]
  · intro i hi hi'
    have hops_i : i < f.operands.length := by rw [length_take] at hi; omega
    have hmem : (f.operands[i], types.reverse[i]) ∈ f.operands.zip types.reverse := by
      rw [← getElem_zip (h := by rw [length_zip]; omega)]
      exact getElem_mem _
    have hsub : f.operands[i].isSubtypeOf types.reverse[i] = true := hall _ hmem
    have hne : f.operands[i] ≠ .bottom := fun heq => hops (heq ▸ getElem_mem hops_i)
    rw [getElem_take]
    simpa [ValueType.isSubtypeOf, hne] using hsub

end Frame

theorem Control.Alike.of_narrowed (c : Control) :
    c.Alike (if c.isReachable then { c with reachability := .specOnly } else c) := by
  split
  next h =>
    have hr : c.reachability = .reachable := by simpa [Control.isReachable] using h
    exact ⟨rfl, rfl, rfl, rfl, rfl, by simp only [Control.isUnreachable, hr]; rfl⟩
  next => exact .refl c

theorem Control.Alike.markBranch (c : Control) : c.Alike c.markBranch := by
  unfold Control.markBranch
  split <;> exact ⟨rfl, rfl, rfl, rfl, rfl, rfl⟩

theorem Control.Alike.markEnd (c : Control) : c.Alike c.markEnd := ⟨rfl, rfl, rfl, rfl, rfl, rfl⟩

variable {frames : List Frame}

theorem Matches.markDead {ctx : Context} (h : Matches ctx frames) : Matches ctx.markDead frames :=
  ⟨h.framed.modify Control.Alike.of_narrowed 0, fun hl => by simp [Context.markDead] at hl⟩

theorem Context.SameSetting.markDead (ctx : Context) : ctx.SameSetting ctx.markDead :=
  ⟨rfl, rfl, rfl, rfl, rfl, rfl⟩

theorem Matches.modifyControl {ctx : Context} {g : Control → Control}
    (h : Matches ctx frames) (hg : ∀ c : Control, c.Alike (g c)) (depth : Nat) :
    Matches (ctx.modifyControl depth g) frames :=
  ⟨h.framed.modify hg depth, h.live⟩

namespace Decode

variable {σ : Type} {b : Backend σ} {env : TypeEnv} {pre : Frame → Prop}
  {post : Except CompileError (Unit × Context) → Prop} {e : Event} {types : List ValueType}
  {x y expected want : ValueType}

section

variable (hb : b.NeverBails) {ctx : Context}
include hb

section

variable (h : post (.ok ((), ctx))) (hdead : post (.ok ((), ctx.markDead)))
include h hdead

/-- A report changes nothing, or the code is dead from here on. -/
theorem Ends.of_tell : Ends (tell b e) ctx post := by
  intro s
  obtain ⟨reply, hreply⟩ := hb ctx e s
  rw [outcome, run_tell, hreply]
  cases reply with
  | proceed => exact h
  | dead => exact hdead

theorem Ends.of_report : Ends (report b e) ctx post := by
  intro s
  rw [report, outcome_get_bind]
  split
  · exact Ends.of_tell hb h hdead s
  · exact h

end

section

variable {α : Type} {k : Unit → DecodeM σ α} {post : Except CompileError (α × Context) → Prop}
  (h : Ends (k ()) ctx post) (hdead : Ends (k ()) ctx.markDead post)
include h hdead

theorem Ends.report_bind : Ends (report b e >>= k) ctx post := Ends.bind (Ends.of_report hb h hdead)

theorem Ends.when_told {p : Prop} [Decidable p] :
    Ends (if p then tell b e >>= k else k ()) ctx post := by
  split
  · exact Ends.bind (Ends.of_tell hb h hdead)
  · exact h

end

theorem tracks_tell (e : Event) : Tracks env pre (tell b e) (pure ()) fun _ _ => pre := by
  intro ctx f fs hm _ hpre
  exact Ends.of_tell hb ⟨hpre, .refl f, hm, .refl ctx⟩ ⟨hpre, .refl f, hm.markDead, .markDead ctx⟩

theorem tracks_report (e : Event) : Tracks env pre (report b e) (pure ()) fun _ _ => pre := by
  intro ctx f fs hm _ hpre
  exact Ends.of_report hb ⟨hpre, .refl f, hm, .refl ctx⟩ ⟨hpre, .refl f, hm.markDead, .markDead ctx⟩

end

theorem tracks_guard {p q : Bool} {e : DecodeFault} (h : p = q) :
    Tracks (σ := σ) env pre (check (if p then pure () else Check.fault e)) (guard q) fun _ _ =>
      pre := by
  subst h
  intro ctx f fs hm _ hpre s
  cases p with
  | false => exact rfl
  | true => exact ⟨hpre, .refl f, hm, .refl ctx⟩

theorem tracks_push (hxy : env.options.trusted = false → x = y) : Tracks (σ := σ) env
      (fun f => env.options.trusted = false → f.polymorphic = false → y ≠ .bottom)
      (check (Check.push x)) (Frame.push y) fun _ _ _ => True := by
  intro ctx f fs hm henv hpre s
  have hopt : ctx.options = env.options := by rw [← henv]; rfl
  refine ⟨trivial, ⟨rfl, rfl, rfl, rfl⟩, ?_, ⟨rfl, rfl, rfl, rfl, rfl, rfl⟩⟩
  obtain ⟨ops, below, c, cs, htypes, -, -, agree, clean, -⟩ := hm.split
  refine hm.replaceOperands (x :: ops) rfl rfl rfl ?_ ?_ ?_
  · intro rest hrest
    rw [htypes, ← agree.1, drop_left] at hrest
    rw [← hrest, cons_append, ← htypes]
    simp [Context.types]
  · exact ⟨by simp [agree.1], fun ht => by rw [hxy (hopt ▸ ht), agree.2 ht]⟩
  · intro ht hp hmem
    rcases mem_cons.1 hmem with heq | hmem
    · exact hpre (hopt ▸ ht) hp heq.symm
    · exact clean.operands ht hp hmem

theorem tracks_pushTypes (h : .bottom ∉ types) :
    Tracks (σ := σ) env (fun _ => True) (check (Check.pushAll types)) (Frame.pushTypes types)
      fun _ _ _ => True := by
  induction types with
  | nil => exact Tracks.pure fun _ _ => trivial
  | cons ty types ih =>
    rw [mem_cons, not_or] at h
    simp only [Check.pushAll, mapM_cons, check_bind, Frame.pushTypes]
    refine Tracks.bind ((tracks_push fun _ => rfl).weaken (fun _ _ _ _ => Ne.symm h.1)
      fun _ _ _ => id) fun _ _ => ?_
    exact (ih h.2).andThen fun _ _ => Tracks.pure fun _ _ => trivial

/-- The operand popped is the frame's, and `bottom` comes from a polymorphic stack only. -/
theorem tracks_popAny (index : Nat) :
    Tracks (σ := σ) env (fun _ => True) (check (Check.popAny index)) Frame.popAny
      fun x y f => env.options.trusted = false → x.ty = y ∧
        (f.polymorphic = false → y ≠ .bottom) := by
  intro ctx f fs hm henv _ s
  have hopt : ctx.options = env.options := by rw [← henv]; rfl
  obtain ⟨ops, below, c, cs, htypes, -, -, agree, clean, -⟩ := hm.split
  have havailable := hm.available
  have hdepth := hm.stackDepth_le
  unfold Context.available at havailable
  simp only [Check.popAny, check_bind, check_get, outcome_get_bind]
  cases hops : f.operands with
  | nil =>
    have hsize : ctx.stack.size ≤ ctx.current.stackDepth := by
      rw [hops, length_nil] at havailable
      omega
    rw [if_pos hsize, hm.outlined.unreachable, check_ite]
    simp only [Frame.popAny, hops]
    cases hpoly : f.polymorphic with
    | true => exact ⟨fun _ => ⟨rfl, fun h => by simp [hpoly] at h⟩, .refl f, hm, .refl ctx⟩
    | false => exact rfl
  | cons ty rest =>
    have hsize : ¬ ctx.stack.size ≤ ctx.current.stackDepth := by
      rw [hops, length_cons] at havailable
      omega
    obtain ⟨found, ops, rfl⟩ : ∃ found ops', ops = found :: ops' := by
      cases ops with
      | nil => simp [Agree, hops] at agree
      | cons found ops => exact ⟨found, ops, rfl⟩
    obtain ⟨stack, value, hstack⟩ : ∃ (stack : Array Value) (value : Value),
        ctx.stack = stack.push value :=
      Array.eq_push_of_size_ne_zero (by omega)
    have hvalue : value.ty = found ∧ (stack.toList.map Value.ty).reverse = ops ++ below := by
      simpa [Context.types, hstack] using htypes
    rw [if_neg hsize, hstack, Array.back?_push]
    simp only [Frame.popAny, hops, check_bind, check_modify, outcome_modify_bind, check_pure,
      outcome_pure, hstack, Array.pop_push]
    rw [hops] at agree
    have hclean : ctx.options.trusted = false → f.polymorphic = false → .bottom ∉ ty :: rest :=
      hops ▸ clean.operands
    refine ⟨fun ht => ⟨?_, fun hp heq => ?_⟩, ⟨rfl, rfl, rfl, rfl⟩, ?_,
      ⟨rfl, rfl, rfl, rfl, rfl, rfl⟩⟩
    · rw [hvalue.1]
      exact (List.cons.inj (agree.2 (hopt ▸ ht))).1
    · exact hclean (hopt ▸ ht) hp (heq ▸ mem_cons_self)
    · refine hm.replaceOperands ops rfl rfl rfl ?_ ?_ ?_
      · intro rest' hrest
        rw [htypes, hops, ← agree.1, drop_left] at hrest
        rw [← hrest, ← hvalue.2]
        rfl
      · exact ⟨Nat.succ.inj agree.1, fun ht => (List.cons.inj (agree.2 ht)).2⟩
      · exact fun ht hp hmem => hclean ht hp (mem_cons_of_mem _ hmem)

theorem tracks_operand {index : Nat} {x : Value}
    (hwant : env.options.trusted = false → expected = want)
    (h : env.options.trusted = false → x.ty = y) :
    Tracks (σ := σ) env pre (check (Check.operand index expected x)) (guard (env.accepts want y))
      fun _ _ => pre := by
  intro ctx f fs hm henv hpre s
  have hopt : ctx.options = env.options := by rw [← henv]; rfl
  simp only [Check.operand, check_bind, check_get, outcome_get_bind]
  have haccepts : (ctx.options.trusted || expected == .bottom || x.ty.isSubtypeOf expected) =
      env.accepts want y := by
    cases ht : env.options.trusted with
    | true => simp [TypeEnv.accepts, hopt, ht]
    | false => simp [TypeEnv.accepts, hopt, ht, hwant ht, h ht]
  exact tracks_guard haccepts ctx f fs hm henv hpre s

theorem tracks_pop (index : Nat) (ty : ValueType) :
    Tracks (σ := σ) env (fun _ => True) (check (Check.pop index ty)) (Frame.pop env ty)
      fun _ _ _ => True := by
  simp only [Check.pop, check_bind, Frame.pop]
  refine (tracks_popAny index).bind fun x y => ?_
  intro ctx f fs hm henv hpop
  have hcheck : Tracks (σ := σ) env (fun _ => True) (check (Check.operand index ty x))
      (guard (env.accepts ty y)) fun _ _ _ => True :=
    tracks_operand (fun _ => rfl) fun ht => (hpop ht).1
  exact hcheck.andThen (fun _ _ => Tracks.pure fun _ _ => trivial) ctx f fs hm henv trivial

theorem tracks_popEach (operands : List (ValueType × Nat)) :
    Tracks (σ := σ) env (fun _ => True) (check (Check.popEach operands))
      (Frame.popTypes env (operands.map Prod.fst)) fun _ _ _ => True := by
  induction operands with
  | nil => exact Tracks.pure fun _ _ => trivial
  | cons operand operands ih =>
    rw [Check.popEach_cons]
    simp only [check_bind, check_pure]
    exact ih.bind fun _ _ => (tracks_pop _ _).andThen fun _ _ => Tracks.pure fun _ _ => trivial

theorem tracks_popTypes (shift : Nat) (types : List ValueType) :
    Tracks (σ := σ) env (fun _ => True) (check (Check.popTypes shift types))
      (Frame.popTypes env types) fun _ _ _ => True := by
  rw [Check.popTypes_eq_popEach]
  have hpops : Tracks (σ := σ) env _ _ _ _ := tracks_popEach (types.zipIdx shift)
  simpa using hpops

theorem firstMismatch?_eq_none_iff (found want : List ValueType) :
    Check.firstMismatch? found want = none ↔
      ((found.zip want).all fun (x, y) => x.isSubtypeOf y) = true := by
  simp only [Check.firstMismatch?, Option.map_eq_none_iff, find?_eq_none, all_eq_true,
    Bool.not_eq_true', Bool.not_eq_false]
  constructor
  · intro h p hp
    obtain ⟨i, hi, hget⟩ := getElem_of_mem hp
    exact h (p, i) (mem_zipIdx_iff_getElem?.2 (hget ▸ getElem?_eq_getElem hi))
  · intro h p hp
    exact h p.1 (fst_mem_of_mem_zipIdx hp)

/-- The operands compared at a merge, the topmost first. -/
theorem types_extract (ctx : Context) (count : Nat) :
    (ctx.stack.extract (ctx.stack.size - count) ctx.stack.size).toList.map Value.ty =
      (ctx.types.take count).reverse := by
  rw [Context.types, take_reverse, reverse_reverse]
  simp only [Array.toList_extract, extract_eq_take_drop, map_take, map_drop,
    length_map, Array.length_toList]
  exact take_of_length_le (by simp)

/-- A merge compares the operands of the innermost construct and leaves them. -/
theorem mergeTypes_frame {ctx : Context} (hlength : types.length ≤ ctx.operands.length)
    (what : String) : ∃ e, Check.mergeTypes types what ctx =
      if ctx.frame.hasOnTop ctx.env types then .ok ((), ctx) else .error ⟨ctx.pc, e⟩ := by
  have htop : ctx.frame.hasOnTop ctx.env types = (decide (types.length ≤ ctx.operands.length) &&
    (ctx.options.trusted || (ctx.operands.zip types.reverse).all fun (found, want) =>
      found.isSubtypeOf want)) := rfl
  cases htrusted : ctx.options.trusted with
  | true =>
    refine ⟨.missingEnd, ?_⟩
    rw [htop, decide_eq_true hlength, htrusted]
    change (if ctx.options.trusted then (pure () : CheckM Unit) else _) ctx = _
    rw [htrusted]
    rfl
  | false =>
    have hops : ctx.types.take types.length = ctx.operands.take types.length := by
      rw [Context.operands, take_take, Nat.min_eq_left]
      rw [Context.operands, length_take] at hlength
      omega
    have htake : (ctx.operands.take types.length).length = types.reverse.length := by
      simp [hlength]
    have hzip : ctx.operands.zip types.reverse =
        (ctx.operands.take types.length).zip types.reverse := by
      have happend : (ctx.operands.take types.length ++ ctx.operands.drop types.length).zip
          (types.reverse ++ []) = (ctx.operands.take types.length).zip types.reverse ++
            (ctx.operands.drop types.length).zip [] := zip_append htake
      simpa using happend
    have hiff : Check.firstMismatch? ((ctx.operands.take types.length).reverse) types = none ↔
        ctx.frame.hasOnTop ctx.env types = true := by
      have hreverse : (ctx.operands.take types.length).reverse.zip types =
          ((ctx.operands.take types.length).zip types.reverse).reverse := by
        rw [zip_eq_zipWith, zip_eq_zipWith, reverse_zipWith htake, reverse_reverse]
      rw [firstMismatch?_eq_none_iff, hreverse, all_reverse, ← hzip, htop,
        decide_eq_true hlength, htrusted, Bool.true_and, Bool.false_or]
    change ∃ e, (if ctx.options.trusted then (pure () : CheckM Unit) else _) ctx = _
    rw [htrusted, types_extract, hops]
    cases hfirst : Check.firstMismatch? ((ctx.operands.take types.length).reverse) types with
    | none =>
      refine ⟨.missingEnd, ?_⟩
      rw [if_pos (hiff.1 hfirst)]
      rfl
    | some m =>
      have hfalse : ctx.frame.hasOnTop ctx.env types = false := by
        rw [← Bool.not_eq_true, ← hiff, hfirst]
        exact Option.some_ne_none m
      refine ⟨.mergeType what m.1 m.2.1 m.2.2, ?_⟩
      rw [hfalse]
      rfl

theorem mergeTypes_eq {ctx : Context} {f : Frame} {fs : List Frame} (hm : Matches ctx (f :: fs))
    (henv : .ofFrames ctx.options ctx.sig.results (f :: fs) = env)
    (hlength : types.length ≤ f.operands.length) (what : String) :
    ∃ e, Check.mergeTypes types what ctx =
      if f.hasOnTop env types then .ok ((), ctx) else .error ⟨ctx.pc, e⟩ := by
  have hagree := hm.operands
  have htop : ctx.frame.hasOnTop ctx.env types = f.hasOnTop env types := by
    have hopt : env.options = ctx.options := by rw [← henv]; rfl
    change (decide (types.length ≤ ctx.operands.length) && (ctx.options.trusted || _)) =
      (decide _ && (env.options.trusted || _))
    rw [hagree.1, hopt]
    cases htrusted : ctx.options.trusted with
    | true => rfl
    | false => rw [← hagree.2 htrusted]; rfl
  rw [← htop]
  exact mergeTypes_frame (hagree.1 ▸ hlength) what

/-- Comparing operands with the types of a merge is popping and pushing them. -/
theorem tracks_mergeTypes (htypes : .bottom ∉ types) (what : String) :
    Tracks (σ := σ) env (fun f => f.polymorphic = false ∧ types.length ≤ f.operands.length)
      (check (Check.mergeTypes types what))
      (do Frame.popTypes env types; Frame.pushTypes types) fun _ _ _ => True := by
  rintro ctx f fs hm henv ⟨hpoly, hlength⟩
  have hopt : ctx.options = env.options := by rw [← henv]; rfl
  obtain ⟨e, hmerge⟩ := mergeTypes_eq hm henv hlength what
  apply Ends.of_check
  rw [hmerge, FrameM.bind_apply, Frame.popTypes_eq hpoly htypes]
  cases htop : f.hasOnTop env types with
  | false => exact rfl
  | true =>
    simp only [if_pos, Option.bind_some, Frame.pushTypes_eq]
    refine ⟨trivial, ⟨rfl, rfl, rfl, rfl⟩, ?_, .refl ctx⟩
    obtain ⟨ops, below, c, cs, hstack, -, -, agree, clean, -⟩ := hm.split
    have hrestored : ctx.options.trusted = false →
        types.reverse ++ f.operands.drop types.length = f.operands := by
      intro ht
      rw [← Frame.take_of_hasOnTop (hopt ▸ ht) (clean.operands ht hpoly) htop, take_append_drop]
    refine hm.replaceOperands ops rfl rfl rfl ?_ ?_ ?_
    · intro rest hrest
      rw [hstack, ← agree.1, drop_left] at hrest
      rw [hstack, hrest]
    · refine ⟨?_, fun ht => ?_⟩
      · rw [length_append, length_reverse, length_drop, agree.1]
        omega
      · rw [hrestored ht, agree.2 ht]
    · intro ht hp
      rw [hrestored ht]
      exact clean.operands ht hp

theorem tracks_unreachableMerge (htypes : .bottom ∉ types) (conditional : Bool) :
    Tracks (σ := σ) env (fun _ => True) (check (Check.unreachableMerge types conditional))
      (do Frame.popTypes env types; Frame.pushTypes types) fun _ _ _ => True := by
  simp only [Check.unreachableMerge, check_bind]
  exact (tracks_popTypes _ _).bind fun _ _ =>
    (tracks_pushTypes htypes).andThen fun _ _ => Tracks.pure fun _ _ => trivial

theorem tracks_fallthrough :
    Tracks (σ := σ) env (fun _ => True) (check Check.fallthrough) (Frame.fallthrough env)
      fun _ _ _ => True := by
  intro ctx f fs hm henv _
  have hresults : .bottom ∉ f.results := hm.clean.results
  have habstract : Frame.fallthrough env f = if f.operands.length ≤ f.results.length then
      (do Frame.popTypes env f.results; Frame.pushTypes f.results : FrameM Unit) f else none := by
    rw [Frame.fallthrough, FrameM.get_bind_apply, FrameM.bind_apply, FrameM.guard_apply]
    split <;> rfl
  intro s
  simp only [Check.fallthrough, check_bind, check_get, outcome_get_bind, Merge.arity,
    hm.outlined.results, hm.available]
  rw [habstract, check_ite]
  split
  next hreach =>
    have hpoly := hm.polymorphic_of_isReachable hreach
    rw [check_ite]
    split
    next hne =>
      split
      next hle =>
        rw [FrameM.bind_apply, Frame.popTypes_of_short hpoly (by omega)]
        exact rfl
      next => exact rfl
    next heq =>
      rw [if_pos (by omega)]
      exact tracks_mergeTypes hresults "merge" ctx f fs hm henv ⟨hpoly, by omega⟩ s
  next =>
    rw [check_ite]
    split
    next hgt =>
      rw [if_neg (by omega)]
      exact rfl
    next hle =>
      rw [if_pos (by omega)]
      exact tracks_unreachableMerge hresults false ctx f fs hm henv trivial s

end Decode

end OnePass
