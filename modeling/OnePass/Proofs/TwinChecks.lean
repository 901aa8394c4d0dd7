import OnePass.Proofs.Twins

/-!
The checks of the decoder in two runs side by side. Where the second run is live both look at the
same operands and find the same fault. In dead code the outline of the states gives the verdict, and
faults may be put differently.
-/
namespace OnePass

open List

variable {trusted : Bool} {v c : Context}

namespace Decode

variable {σ α β γ δ : Type}

/-- Everything that the second listener was told the first was told, in the same order. -/
def Covers (s : Unit × List Notice) (t : σ × List Notice) : Prop :=
  Sublist (t.2.map Notice.gist) (s.2.map Notice.gist)

/-- The runs of a step end well, or with faults that `same` relates, given the last state of the
second listener. -/
inductive SideBySide (same : DecodeError → DecodeError → σ × List Notice → Prop)
    (post : α → β → Context → Context → Prop) :
    Except CompileError (α × Context) × (Unit × List Notice) →
    Except CompileError (β × Context) × (σ × List Notice) → Prop
  | ok {x : α} {y : β} {v c : Context} {s : Unit × List Notice} {t : σ × List Notice}
    (h : post x y v c) (hs : Covers s t) : SideBySide same post (.ok (x, v), s) (.ok (y, c), t)
  | fault {e e' : DecodeError} {s : Unit × List Notice} {t : σ × List Notice}
    (h : same e e' t) (hs : Covers s t) :
    SideBySide same post (.error (.decode e), s) (.error (.decode e'), t)

/-- From the states `v` and `c` the runs of a step end alike. -/
def Mirror (live : Prop) (post : α → β → Context → Context → Prop)
    (m : DecodeM (Unit × List Notice) α) (m' : DecodeM (σ × List Notice) β) (v c : Context) :
    Prop :=
  ∀ s t, Covers s t → SideBySide (fun e e' _ => SameFault live e e')
    post ((m v).run s) ((m' c).run t)

namespace Mirror

variable {live : Prop} {post : α → β → Context → Context → Prop} {k : Unit → LoggedM Unit α}
  {k' : δ → LoggedM σ β} {g g' : Context → Context}

theorem pure {x : α} {y : β} (h : post x y v c) : Mirror (σ := σ) live post (pure x) (pure y) v c :=
  fun _ _ hs => .ok h hs

theorem bind {mid : γ → δ → Context → Context → Prop} {m : LoggedM Unit γ}
    {m' : LoggedM σ δ} {k : γ → LoggedM Unit α}
    (hm : Mirror live mid m m' v c)
    (hk : ∀ x y v c, mid x y v c → Mirror live post (k x) (k' y) v c) :
    Mirror live post (m >>= k) (m' >>= k') v c := by
  intro s t hs
  have h := hm s t hs
  rw [run_bind, run_bind]
  generalize (m v).run s = r at h
  generalize (m' c).run t = r' at h
  cases h with
  | ok h hs => exact hk _ _ _ _ h _ _ hs
  | fault h hs => exact .fault h hs

theorem mono {post' : α → β → Context → Context → Prop} {m : LoggedM Unit α}
    {m' : LoggedM σ β} (h : Mirror live post m m' v c)
    (hpost : ∀ x y v c, post x y v c → post' x y v c) : Mirror live post' m m' v c := by
  intro s t hs
  have h := h s t hs
  generalize (m v).run s = r at h
  generalize (m' c).run t = r' at h
  cases h with
  | ok h hs => exact .ok (hpost _ _ _ _ h) hs
  | fault h hs => exact .fault h hs

theorem get_bind {k : Context → LoggedM Unit α}
    {k' : Context → LoggedM σ β} (h : Mirror live post (k v) (k' c) v c) :
    Mirror live post (get >>= k) (get >>= k') v c := h

theorem modify_bind
    {k' : Unit → LoggedM σ β} (h : Mirror live post (k ()) (k' ()) (g v) (g' c)) :
    Mirror live post (modify g >>= k) (modify g' >>= k') v c := h

theorem modify_left
    {k' : LoggedM σ β} (h : Mirror live post (k ()) k' (g v) c) :
    Mirror live post (modify g >>= k) k' v c := h

theorem of_modify {post : Unit → Unit → Context → Context → Prop}
    (h : post () () (g v) (g' c)) : Mirror (σ := σ) live post (modify g) (modify g') v c :=
  fun _ _ hs => .ok h hs

section

variable {f f' : DecodeFault} (h : SameFault live ⟨v.pc, f⟩ ⟨c.pc, f'⟩)
include h

theorem fault : Mirror (σ := σ) live post (check (Check.fault f)) (check (Check.fault f')) v c :=
  fun _ _ hs => .fault h hs

theorem fault_bind
    {k : γ → LoggedM Unit α} :
    Mirror live post (check (Check.fault f) >>= k) (check (Check.fault f') >>= k') v c :=
  fun _ _ hs => .fault h hs

end

theorem check_ok {m : CheckM α} {m' : CheckM β} {x : α} {y : β} {v' c' : Context}
    (hm : m v = .ok (x, v')) (hm' : m' c = .ok (y, c')) (h : post x y v' c') :
    Mirror (σ := σ) live post (check m) (check m') v c := by
  intro s t hs
  simp only [check, hm, hm']
  exact .ok h hs

theorem check_error {m : CheckM α} {m' : CheckM β} {e e' : DecodeError} (hm : m v = .error e)
    (hm' : m' c = .error e') (h : SameFault live e e') :
    Mirror (σ := σ) live post (check m) (check m') v c := by
  intro s t hs
  simp only [check, hm, hm']
  exact .fault h hs

theorem ite {p p' : Prop} [Decidable p] [Decidable p'] {m k : LoggedM Unit α}
    {m' k' : LoggedM σ β} (hp : p ↔ p') (hm : p → Mirror live post m m' v c)
    (hk : ¬ p → Mirror live post k k' v c) :
    Mirror live post (if p then m else k) (if p' then m' else k') v c := by
  by_cases h : p
  · rw [if_pos h, if_pos (hp.1 h)]
    exact hm h
  · rw [if_neg h, if_neg fun h' => h (hp.2 h')]
    exact hk h

section Listening

variable {b : Backend σ} {ev ec : Event} {k : Unit → LoggedM Unit α}
  {k' : Unit → LoggedM σ β}

theorem run_tell_validator (e : Event) (ctx : Context) (s : Unit × List Notice) :
    (tell Backend.validator.logged e ctx).run s =
      (.ok ((), ctx), ((), s.2 ++ [⟨ctx.checked .full, e, .ok .proceed⟩])) := rfl

theorem run_tell_logged (hb : b.Calm) (e : Event) (ctx : Context) (t : σ × List Notice) :
    ∃ ctx' t', (tell b.logged e ctx).run t = (.ok ((), ctx'), t') ∧
      (ctx' = ctx ∨ ctx' = ctx.markDead ∧ e.isAccess = true) ∧
      t'.2.map Notice.gist = t.2.map Notice.gist ++ [(ctx.pc, e.bare)] := by
  obtain ⟨reply, hreply⟩ := hb.neverBails ctx e t.1
  have hlogged : (b.logged.handle ctx e t).1 = .ok reply := hreply
  have hlog : (b.logged.handle ctx e t).2.2.map Notice.gist = t.2.map Notice.gist ++
      [(ctx.pc, e.bare)] := by
    simp only [Backend.logged, map_append]
    rfl
  rw [run_tell, hlogged]
  cases reply with
  | proceed => exact ⟨ctx, _, rfl, .inl rfl, hlog⟩
  | dead => exact ⟨ctx.markDead, _, rfl, .inr ⟨rfl, hb.dead ctx e t.1 hreply⟩, hlog⟩

theorem told_left {k' : LoggedM σ β} (hk : Mirror live post (k ()) k' v c) :
    Mirror live post (tell Backend.validator.logged ev >>= k) k' v c := by
  intro s t hs
  rw [run_bind, run_tell_validator]
  refine hk _ _ ?_
  simp only [Covers, map_append]
  exact hs.trans (sublist_append_left ..)

/-- Both listeners are told. -/
theorem told (hb : b.Calm) (hpc : c.pc = v.pc) (he : ec.bare = ev.bare)
    (hk : Mirror live post (k ()) (k' ()) v c)
    (hdead : ec.isAccess = true → Mirror live post (k ()) (k' ()) v c.markDead) :
    Mirror live post (tell Backend.validator.logged ev >>= k) (tell b.logged ec >>= k') v c := by
  intro s t hs
  obtain ⟨c', t', hrun, hc', ht'⟩ := run_tell_logged hb ec c t
  have hs' : Covers ((), s.2 ++ [⟨v.checked .full, ev, .ok .proceed⟩]) t' := by
    simp only [Covers, ht', map_append, he, hpc]
    exact hs.append (Sublist.refl _)
  rw [run_bind, run_bind, run_tell_validator, hrun]
  obtain rfl | ⟨rfl, haccess⟩ := hc'
  · exact hk _ _ hs'
  · exact hdead haccess _ _ hs'

theorem report_bind {τ : Type} (b : Backend τ) (e : Event) (k : Unit → DecodeM τ α) :
    (report b e >>= k) = get >>= fun ctx => if ctx.live then tell b e >>= k else k () := by
  simp only [report, bind_assoc]
  congr 1
  funext ctx
  split <;> simp

/-- Where the second listener is told, the first one is told, too. -/
theorem when_told {p p' : Bool} (hb : b.Calm) (hp : p' = true → p = true) (hpc : c.pc = v.pc)
    (he : p' = true → ec.bare = ev.bare)
    (hk : Mirror live post (k ()) (k' ()) v c)
    (hdead : ec.isAccess = true → Mirror live post (k ()) (k' ()) v c.markDead) :
    Mirror live post (if p then tell Backend.validator.logged ev >>= k else k ())
      (if p' then tell b.logged ec >>= k' else k' ()) v c := by
  cases p' with
  | true =>
    rw [hp rfl]
    exact told hb hpc (he rfl) hk hdead
  | false =>
    cases p with
    | true => exact told_left hk
    | false => exact hk

theorem report_left
    {k' : LoggedM σ β} (hk : Mirror live post (k ()) k' v c) :
    Mirror live post (report Backend.validator.logged ev >>= k) k' v c := by
  rw [report_bind]
  change Mirror live post (if v.live then _ else _) k' v c
  split
  · exact told_left hk
  · exact hk

theorem reportThen (hb : b.Calm) (hpc : c.pc = v.pc) (hl : c.live = true → v.live = true)
    (he : c.live = true → ec.bare = ev.bare) (hplain : ec.isAccess = false)
    (hk : Mirror live post (k ()) (k' ()) v c) :
    Mirror live post (report Backend.validator.logged ev >>= k) (report b.logged ec >>= k')
      v c := by
  rw [report_bind, report_bind]
  refine get_bind (when_told hb hl hpc he hk fun haccess => ?_)
  rw [hplain] at haccess
  cases haccess

/-- The report at the end of an instruction. -/
theorem report (hb : b.Calm) (h : Twins trusted v c)
    (he : c.current.isReachable = true → ec.bare = ev.bare) :
    Mirror live (fun _ _ v' c' => Twins trusted v' c') (report Backend.validator.logged ev)
      (report b.logged ec) v c := by
  rw [← bind_pure (Decode.report Backend.validator.logged ev),
    ← bind_pure (Decode.report b.logged ec), report_bind, report_bind]
  exact get_bind (when_told hb h.reports h.setting.pc (fun hl => he (h.live' ▸ hl)) (pure h)
    fun _ => pure h.markDead)

end Listening

end Mirror

/-- A check of two states side by side. It changes operands only; `rel` holds of its answers. -/
def Checks (live : Prop) (trusted : Bool) (rel : α → β → Prop)
    (m : DecodeM (Unit × List Notice) α) (m' : DecodeM (σ × List Notice) β) : Prop :=
  ∀ v c, Kin trusted v c → (live ↔ c.current.isReachable = true) →
    Mirror live (fun x y v' c' => rel x y ∧ Kept trusted v c v' c') m m' v c

namespace Checks

variable {live : Prop} {rel : α → β → Prop} {ty ty' : ValueType}

theorem pure {x : α} {y : β} (h : rel x y) : Checks (σ := σ) live trusted rel (pure x) (pure y) :=
  fun _ _ hk _ => .pure ⟨h, .refl hk⟩

theorem bind {rel' : γ → δ → Prop} {m : LoggedM Unit α}
    {m' : LoggedM σ β} {k : α → LoggedM Unit γ}
    {k' : β → LoggedM σ δ} (hm : Checks live trusted rel m m')
    (hk : ∀ x y, rel x y → Checks live trusted rel' (k x) (k' y)) :
    Checks live trusted rel' (m >>= k) (m' >>= k') := by
  intro v c h hlive
  refine (hm v c h hlive).bind ?_
  rintro x y v' c' ⟨hrel, kept⟩
  exact (hk x y hrel v' c' kept.toKin (kept.current_eq.2 ▸ hlive)).mono fun _ _ _ _ ⟨h, kept'⟩ =>
    ⟨h, kept.trans kept'⟩

open Check

/-- Operands that differ at most in where they come from, and not even so in live code. -/
def Akin (live : Prop) (trusted : Bool) (x y : Value) : Prop :=
  (live → x = y) ∧ (trusted = false → x.ty = y.ty)

theorem push (hlive : live → ty = ty') (hty : trusted = false → ty = ty') :
    Checks (σ := σ) live trusted (fun x y => live → x = y) (check (push ty))
      (check (push ty')) := by
  intro v c h hcur
  exact Mirror.check_ok (x := ⟨ty, v.pc⟩) (y := ⟨ty', c.pc⟩) rfl rfl
    ⟨fun hl => by rw [hlive hl, h.setting.pc], h.push (fun hr => hlive (hcur.2 hr)) hty⟩

theorem popAny (index : Nat) :
    Checks (σ := σ) live trusted (Akin live trusted) (check (popAny index))
      (check (popAny index)) := by
  intro v c h hcur
  simp only [Check.popAny, check_bind, check_get]
  refine Mirror.get_bind ?_
  simp only [check_ite]
  refine Mirror.ite (by rw [h.size, h.current.stackDepth]) (fun hsize => ?_) fun hsize => ?_
  · refine Mirror.ite (by rw [h.current.unreachable]) (fun _ => ?_) fun _ => ?_
    · exact Mirror.pure ⟨⟨fun _ => by rw [h.setting.pc], fun _ => rfl⟩, .refl h⟩
    · exact Mirror.fault (.inl (by rw [h.setting.pc, h.opcode]))
  · obtain ⟨vs, x, hvs⟩ : ∃ (vs : Array Value) (x : Value), v.stack = vs.push x :=
      Array.eq_push_of_size_ne_zero (by omega)
    obtain ⟨cs, y, hcs⟩ : ∃ (cs : Array Value) (y : Value), c.stack = cs.push y :=
      Array.eq_push_of_size_ne_zero (by have := h.size; omega)
    have hsizes : cs.size = vs.size := by
      have := h.size
      rw [hvs, hcs, Array.size_push, Array.size_push] at this
      exact Nat.succ.inj this
    have hdepth : c.current.stackDepth ≤ cs.size := by
      rw [h.current.stackDepth]
      rw [hvs, Array.size_push] at hsize
      omega
    have hlast : live → x = y := by
      intro hl
      have := h.innerValues (hcur.1 hl) _ hdepth
      rw [hvs, hcs, Array.getElem?_push, Array.getElem?_push, hsizes] at this
      simpa using this.symm
    have hlastType : trusted = false → x.ty = y.ty := by
      intro ht
      have := h.innerTypes ht _ hdepth
      rw [hvs, hcs, Array.getElem?_push, Array.getElem?_push, hsizes] at this
      simpa using this.symm
    have hkin : Kin trusted { v with stack := vs } { c with stack := cs } := by
      refine Kin.restack h.toOuter hdepth hsizes ?_ ?_ ?_
      · intro i hi
        have hlt : i < cs.size := Nat.lt_of_lt_of_le hi hdepth
        have hlt' : i < vs.size := hsizes ▸ hlt
        simp [hvs, hcs, Array.getElem?_push, Nat.ne_of_lt hlt, Nat.ne_of_lt hlt']
      · intro ht i hi
        have := h.innerTypes ht i hi
        rw [hvs, hcs, Array.getElem?_push, Array.getElem?_push, hsizes] at this
        by_cases hlt : i = vs.size
        · rw [Array.getElem?_eq_none (by omega), Array.getElem?_eq_none (by omega)]
        · simpa [hlt] using this
      · intro hr i hi
        have := h.innerValues hr i hi
        rw [hvs, hcs, Array.getElem?_push, Array.getElem?_push, hsizes] at this
        by_cases hlt : i = vs.size
        · rw [Array.getElem?_eq_none (by omega), Array.getElem?_eq_none (by omega)]
        · simpa [hlt] using this
    rw [hvs, hcs, Array.back?_push, Array.back?_push]
    simp only [check_bind, check_modify, check_pure]
    refine Mirror.modify_bind (Mirror.pure ⟨⟨hlast, hlastType⟩, ?_, rfl, rfl, rfl, rfl⟩)
    simpa [hvs, hcs] using hkin

theorem operand {index : Nat} {x y : Value} (hlive : live → ty = ty')
    (hty : trusted = false → ty = ty') (hxy : Akin live trusted x y) :
    Checks (σ := σ) live trusted (fun _ _ => True) (check (operand index ty x))
      (check (operand index ty' y)) := by
  intro v c h hcur
  simp only [Check.operand, check_bind, check_get]
  refine Mirror.get_bind ?_
  simp only [check_ite]
  refine Mirror.ite ?_ (fun _ => Mirror.pure ⟨trivial, .refl h⟩) fun _ => Mirror.fault ?_
  · rw [h.setting.options, h.mode]
    cases trusted with
    | true => simp
    | false => rw [hty rfl, hxy.2 rfl]
  · by_cases hl : live
    · exact .inl (by rw [hlive hl, hxy.1 hl, h.setting.reader, h.setting.pc, h.opcode])
    · exact .inr ⟨hl, h.setting.pc.symm, .inr (.inr rfl), .inr (.inr rfl)⟩

theorem popAs (index : Nat) (hlive : live → ty = ty') (hty : trusted = false → ty = ty') :
    Checks (σ := σ) live trusted (Akin live trusted) (check (pop index ty))
      (check (pop index ty')) := by
  simp only [Check.pop, check_bind]
  exact bind (popAny index) fun _ _ hxy => bind (operand hlive hty hxy) fun _ _ _ => pure hxy

theorem pop (index : Nat) (ty : ValueType) :
    Checks (σ := σ) live trusted (Akin live trusted) (check (pop index ty))
      (check (pop index ty)) :=
  popAs index (fun _ => rfl) fun _ => rfl

theorem popEach (operands : List (ValueType × Nat)) :
    Checks (σ := σ) live trusted (fun xs ys => live → xs = ys) (check (popEach operands))
      (check (popEach operands)) := by
  induction operands with
  | nil => exact pure fun _ => rfl
  | cons operand operands ih =>
    rw [popEach_cons]
    simp only [check_bind]
    exact bind ih fun _ _ hrest => bind (pop _ _) fun _ _ hxy =>
      pure fun hl => by rw [hrest hl, hxy.1 hl]

theorem popTypes (shift : Nat) (types : List ValueType) :
    Checks (σ := σ) live trusted (fun xs ys => live → xs = ys) (check (popTypes shift types))
      (check (popTypes shift types)) := by
  rw [popTypes_eq_popEach]
  exact popEach _

section

variable (types : List ValueType)

theorem pushAll : Checks (σ := σ) live trusted Eq (check (pushAll types))
    (check (pushAll types)) := by
  intro v c h _
  obtain ⟨xs, v', c', hv, hc, kept⟩ := h.pushAll types
  exact Mirror.check_ok hv hc ⟨rfl, kept⟩

theorem unreachableMerge (conditional : Bool) :
    Checks (σ := σ) live trusted (fun _ _ => True) (check (unreachableMerge types conditional))
      (check (unreachableMerge types conditional)) := by
  simp only [Check.unreachableMerge, check_bind]
  exact bind (popTypes _ _) fun _ _ _ => bind (pushAll _) fun _ _ _ => pure trivial

theorem mergeTypes (what : String) :
    Checks (σ := σ) live trusted (fun _ _ => True) (check (mergeTypes types what))
      (check (mergeTypes types what)) := by
  intro v c h _
  simp only [Check.mergeTypes, check_bind, check_get]
  refine Mirror.get_bind ?_
  simp only [check_ite]
  have hdone : Mirror (σ := σ) live (fun _ _ v' c' => True ∧ Kept trusted v c v' c')
      (Pure.pure ()) (Pure.pure ()) v c :=
    Mirror.pure ⟨trivial, .refl h⟩
  refine Mirror.ite (by rw [h.setting.options]) (fun _ => hdone) fun ht => ?_
  rw [types_extract, types_extract, h.types_eq (by simpa [h.mode] using ht)]
  split
  · exact Mirror.fault (.inl (by rw [h.setting.pc]))
  · exact hdone

end

end Checks

end Decode

namespace Check

variable {α β : Type} {ctx ctx' a b c : Context}

/-- Only operands of the innermost construct differ. -/
structure Local (ctx ctx' : Context) : Prop where
  rest : ctx' = { ctx with stack := ctx'.stack }
  below : ∀ i < ctx.current.stackDepth, ctx'.stack[i]? = ctx.stack[i]?
  base : ctx.current.stackDepth ≤ ctx'.stack.size

theorem Local.control (h : Local ctx ctx') : ctx'.control = ctx.control := by
  rw [h.rest]

theorem Local.current (h : Local ctx ctx') : ctx'.current = ctx.current := by
  rw [Context.current, Context.controlAt, h.control]
  rfl

theorem Local.trans (h : Local a b) (h' : Local b c) : Local a c := by
  refine ⟨?_, ?_, ?_⟩
  · rw [h'.rest, h.rest]
  · intro i hi
    rw [h'.below i (h.current ▸ hi), h.below i hi]
  · exact h.current ▸ h'.base

/-- The check looks for faults in the operands and touches nothing else. -/
def Stays (m : CheckM α) (ctx : Context) : Prop :=
  ctx.current.stackDepth ≤ ctx.stack.size → match m ctx with
    | .ok (_, ctx') => Local ctx ctx'
    | .error e => e.offset = ctx.pc ∧ e.IsOperandFault

namespace Stays

variable {ctx : Context}

theorem pure (x : α) (ctx : Context) : Stays (pure x) ctx := fun h => ⟨rfl, fun _ _ => rfl, h⟩

theorem fault {f : DecodeFault} (h : DecodeError.IsOperandFault ⟨ctx.pc, f⟩) :
    Stays (fault f : CheckM α) ctx :=
  fun _ => ⟨rfl, h⟩

theorem bind {m : CheckM α} {k : α → CheckM β} (hm : Stays m ctx)
    (hk : ∀ x ctx', Stays (k x) ctx') : Stays (m >>= k) ctx := by
  intro hbase
  have hm := hm hbase
  have hbind : (m >>= k) ctx = match m ctx with
      | .ok (x, ctx') => k x ctx'
      | .error e => .error e := by
    simp only [Bind.bind, StateT.bind, Except.bind]
    cases m ctx <;> rfl
  rw [hbind]
  cases hr : m ctx with
  | error e =>
    rw [hr] at hm
    exact hm
  | ok p =>
    obtain ⟨x, ctx'⟩ := p
    rw [hr] at hm
    have hk := hk x ctx' (hm.current ▸ hm.base)
    dsimp only
    cases hr' : k x ctx' with
    | error e =>
      rw [hr'] at hk
      exact ⟨hk.1.trans (by rw [hm.rest]), hk.2⟩
    | ok p =>
      rw [hr'] at hk
      exact hm.trans hk

theorem get_bind {k : Context → CheckM α} (h : Stays (k ctx) ctx) : Stays (get >>= k) ctx := h

theorem ite {p : Prop} [Decidable p] {m k : CheckM α} (hm : p → Stays m ctx)
    (hk : ¬ p → Stays k ctx) : Stays (if p then m else k) ctx := by
  split
  next h => exact hm h
  next h => exact hk h

theorem push (ty : ValueType) (ctx : Context) : Stays (push ty) ctx := by
  intro hbase
  refine ⟨rfl, ?_, Nat.le_trans hbase (by simp)⟩
  intro i hi
  have hne : i ≠ ctx.stack.size := Nat.ne_of_lt (Nat.lt_of_lt_of_le hi hbase)
  change (ctx.stack.push _)[i]? = _
  rw [Array.getElem?_push, if_neg hne]

theorem pushAll (types : List ValueType) (ctx : Context) : Stays (pushAll types) ctx := by
  induction types generalizing ctx with
  | nil => exact pure _ ctx
  | cons ty types ih =>
    unfold Check.pushAll at ih ⊢
    rw [mapM_cons]
    exact bind (push ty ctx) fun _ ctx' => bind (ih ctx') fun _ => pure _

theorem popAny (index : Nat) (ctx : Context) : Stays (popAny index) ctx := by
  refine get_bind (ite (fun _ => ite (fun _ => pure _ ctx) fun _ => fault (.inl rfl)) fun hsize =>
    ?_)
  obtain ⟨stack, x, hstack⟩ : ∃ (stack : Array Value) (x : Value), ctx.stack = stack.push x :=
    Array.eq_push_of_size_ne_zero (by omega)
  rw [hstack, Array.back?_push]
  rw [hstack, Array.size_push] at hsize
  intro _
  refine ⟨rfl, ?_, ?_⟩
  · intro i hi
    change ctx.stack.pop[i]? = ctx.stack[i]?
    rw [hstack, Array.pop_push, Array.getElem?_push, if_neg (by omega)]
  · change _ ≤ ctx.stack.pop.size
    rw [hstack, Array.pop_push]
    omega

theorem operand (index : Nat) (ty : ValueType) (x : Value) (ctx : Context) :
    Stays (operand index ty x) ctx :=
  get_bind (ite (fun _ => pure _ ctx) fun _ => fault (.inr (.inr rfl)))

theorem pop (index : Nat) (ty : ValueType) (ctx : Context) : Stays (pop index ty) ctx :=
  bind (popAny index ctx) fun x ctx' => bind (operand index ty x ctx') fun _ => pure _

theorem popTypes (shift : Nat) (types : List ValueType) (ctx : Context) :
    Stays (popTypes shift types) ctx := by
  unfold Check.popTypes
  generalize 0 = start
  induction types generalizing start ctx with
  | nil => exact pure _ ctx
  | cons ty types ih =>
    rw [zipIdx_cons, foldrM_cons]
    exact bind (ih _ _) fun _ ctx' => bind (pop _ _ ctx') fun _ => pure _

theorem mergeTypes (types : List ValueType) (what : String) (ctx : Context) :
    Stays (mergeTypes types what) ctx := by
  refine get_bind (ite (fun _ => pure _ ctx) fun _ => ?_)
  dsimp only
  split
  · exact fault (.inr (.inr rfl))
  · exact pure _ ctx

theorem unreachableMerge (types : List ValueType) (conditional : Bool) (ctx : Context) :
    Stays (unreachableMerge types conditional) ctx :=
  bind (popTypes _ _ ctx) fun _ ctx' => bind (pushAll _ ctx') fun _ => pure _

theorem fallthrough (ctx : Context) : Stays fallthrough ctx :=
  get_bind (ite (fun _ => ite (fun _ => fault (.inr (.inl rfl))) fun _ => mergeTypes _ _ ctx)
    fun _ => ite (fun _ => fault (.inr (.inl rfl))) fun _ => unreachableMerge _ _ ctx)

theorem branch (depth : Nat) (conditional : Bool) (ctx : Context) :
    Stays (branch depth conditional) ctx :=
  get_bind (ite (fun _ => ite (fun _ => pure _ ctx) fun _ =>
      ite (fun _ => fault (.inr (.inl rfl))) fun _ => bind (mergeTypes _ _ ctx) fun _ => pure _)
    fun _ => bind (unreachableMerge _ _ ctx) fun _ => pure _)

theorem returnTypes (ctx : Context) : Stays returnTypes ctx :=
  get_bind (ite (fun _ => fault (.inr (.inl rfl))) fun _ => mergeTypes _ _ ctx)

end Stays

end Check

/-- Checks of the operands do not reach what is outside the innermost construct. -/
theorem Outer.checked (h : Outer trusted v c) {v' c' : Context} (hv : Check.Local v v')
    (hc : Check.Local c c') : Outer trusted v' c' := by
  have hdepth : v.current.stackDepth = c.current.stackDepth := h.current.stackDepth.symm
  have ho := h.update (g := id) (k := id) (s := v'.stack) (t := c'.stack) v.live c.live h.current
    rfl hc.base (hdepth ▸ hv.base) fun i hi => ⟨hc.below i hi, hv.below i (hdepth ▸ hi)⟩
  rw [Context.modifyCurrent_id, Context.modifyCurrent_id] at ho
  rw [hv.rest, hc.rest]
  exact ho

theorem Context.operands_eq (ctx : Context) (h : ctx.current.stackDepth ≤ ctx.stack.size) :
    ctx.operands = ((ctx.stack.toList.map Value.ty).drop ctx.current.stackDepth).reverse := by
  rw [Context.operands, Context.types, take_reverse, length_map, Array.length_toList,
    Context.available, Nat.sub_sub_self h]

/-- In dead code it is enough that both states have the same outline. -/
theorem Outer.kin (h : Outer trusted v c) (hdead : c.current.isReachable = false) {f : Frame}
    {fs : List Frame} (hv : Matches v (f :: fs)) (hc : Matches c (f :: fs)) : Kin trusted v c := by
  have hdepth := h.current.stackDepth
  have hsize : c.stack.size = v.stack.size := by
    have hav := hv.available
    have hac := hc.available
    have hbase := h.base
    have hbase' := h.base'
    simp only [Context.available] at hav hac
    omega
  refine ⟨h, hsize, ?_, fun hr => by rw [hdead] at hr; cases hr⟩
  intro ht i hi
  have htv : v.options.trusted = false := h.mode.trans ht
  have htc : c.options.trusted = false := by rw [h.setting.options, htv]
  have hops : c.operands = v.operands := (hc.operands.2 htc).trans (hv.operands.2 htv).symm
  rw [c.operands_eq h.base, v.operands_eq (hdepth ▸ h.base'), reverse_inj, hdepth] at hops
  have hget := congrArg (·[i - v.current.stackDepth]?) hops
  simp only [getElem?_drop, getElem?_map, Array.getElem?_toList] at hget
  rwa [Nat.add_sub_cancel' (hdepth ▸ hi)] at hget

namespace Decode

variable {σ α β γ δ : Type} {live : Prop} {m : CheckM α} {m' : CheckM β} {pre : Frame → Prop}

/-- In dead code operands may be checked in different ways with the same verdict. -/
theorem Mirror.of_stays (h : Outer trusted v c) (hdead : ¬ live)
    (hm : Check.Stays m v) (hm' : Check.Stays m' c)
    (hverdict : (∃ r, m v = .ok r) ↔ ∃ r, m' c = .ok r) :
    Mirror (σ := σ) live (fun x y v' c' => (Outer trusted v' c' ∧ v'.control = v.control ∧
      c'.control = c.control ∧ v'.live = v.live ∧ c'.live = c.live) ∧
      m v = .ok (x, v') ∧ m' c = .ok (y, c')) (check m) (check m') v c := by
  have hm := hm (h.current.stackDepth ▸ h.base')
  have hm' := hm' h.base
  cases hr : m v with
  | error e =>
    have hr' : ∃ e', m' c = .error e' := by
      cases hr' : m' c with
      | error e' => exact ⟨e', rfl⟩
      | ok r =>
        obtain ⟨r, hok⟩ := hverdict.2 ⟨r, hr'⟩
        rw [hr] at hok
        cases hok
    obtain ⟨e', hr'⟩ := hr'
    rw [hr] at hm
    rw [hr'] at hm'
    refine Mirror.check_error hr hr' (.inr ⟨hdead, ?_, hm.2, hm'.2⟩)
    rw [hm.1, hm'.1, h.setting.pc]
  | ok p =>
    obtain ⟨⟨y, c'⟩, hr'⟩ := hverdict.1 ⟨p, hr⟩
    obtain ⟨x, v'⟩ := p
    rw [hr] at hm
    rw [hr'] at hm'
    have hrest : v'.live = v.live ∧ c'.live = c.live := by
      rw [hm.rest, hm'.rest]
      exact ⟨rfl, rfl⟩
    refine Mirror.check_ok hr hr' ⟨⟨h.checked hm hm', hm.control, hm'.control, hrest⟩,
      hr.symm ▸ rfl, ?_⟩
    exact hr' ▸ rfl

theorem Tracks.check_cases {env : TypeEnv} {post : α → β → Frame → Prop}
    {a : FrameM β} (h : Tracks (σ := Unit) env pre (check m) a post) {ctx : Context}
    {f : Frame} {fs : List Frame} (hm : Matches ctx (f :: fs))
    (henv : .ofFrames ctx.options ctx.sig.results (f :: fs) = env) (hpre : pre f) :
    (∃ x ctx' y f', m ctx = .ok (x, ctx') ∧ a f = some (y, f') ∧ Matches ctx' (f' :: fs)) ∨
      ∃ e, m ctx = .error e ∧ a f = none := by
  obtain ⟨x, ctx', y, f', hr, ha, -, -, hm', -⟩ | ⟨e, hr, ha, -⟩ :=
    (h ctx f fs hm henv hpre ()).cases
  · exact .inl ⟨x, ctx', y, f', ok_of_outcome_check hr, ha, hm'⟩
  · rw [outcome_check] at hr
    cases hc : m ctx with
    | error e => exact .inr ⟨e, rfl, ha⟩
    | ok p => rw [hc] at hr; cases hr

/-- In dead code the same is checked in both runs if the frames say so. -/
theorem Mirror.of_tracks {env : TypeEnv} {post : α → γ → Frame → Prop}
    {post' : β → γ → Frame → Prop} {a : FrameM γ}
    (h : Kin trusted v c) (hlive : live ↔ c.current.isReachable = true)
    (hdead : c.current.isReachable = false) {f : Frame} {fs : List Frame}
    (hv : Matches v (f :: fs)) (hc : Matches c (f :: fs))
    (henv : .ofFrames v.options v.sig.results (f :: fs) = env) (hpre : pre f)
    (ht : Tracks (σ := Unit) env pre (check m) a post)
    (ht' : Tracks (σ := Unit) env pre (check m') a post') (hm : Check.Stays m v)
    (hm' : Check.Stays m' c) :
    Mirror (σ := σ) live (fun x y v' c' => Kept trusted v c v' c' ∧ m v = .ok (x, v') ∧
      m' c = .ok (y, c')) (check m) (check m') v c := by
  have hnot : ¬ live := fun hl => by simp [hlive.1 hl] at hdead
  have hcases := ht.check_cases hv henv hpre
  have henv' : .ofFrames c.options c.sig.results (f :: fs) = env := by
    rw [h.setting.options, h.setting.sig, henv]
  have hcases' := ht'.check_cases hc henv' hpre
  have hverdict : (∃ r, m v = .ok r) ↔ ∃ r, m' c = .ok r := by
    obtain ⟨x, v', y, f', hr, ha, -⟩ | ⟨e, hr, ha⟩ := hcases <;>
      obtain ⟨x', c', y', f'', hr', ha', -⟩ | ⟨e', hr', ha'⟩ := hcases' <;>
      rw [ha] at ha' <;> cases ha'
    · exact ⟨fun _ => ⟨_, hr'⟩, fun _ => ⟨_, hr⟩⟩
    · rw [hr, hr']
      exact ⟨fun ⟨_, h⟩ => (by cases h), fun ⟨_, h⟩ => (by cases h)⟩
  refine (Mirror.of_stays h.toOuter hnot hm hm' hverdict).mono ?_
  rintro x y v' c' ⟨⟨ho, hvc, hcc, hvl, hcl⟩, hr, hr'⟩
  have hcur : ∀ {a b : Context}, a.control = b.control → a.current = b.current := by
    intro a b hab
    rw [Context.current, Context.controlAt, hab]
    rfl
  obtain ⟨x₁, v₁, y₁, f₁, hr₁, ha₁, hv₁⟩ | ⟨e, hr₁, ha₁⟩ := hcases
  · obtain ⟨x₂, c₂, y₂, f₂, hr₂, ha₂, hc₂⟩ | ⟨e, hr₂, ha₂⟩ := hcases'
    · rw [hr] at hr₁
      rw [hr'] at hr₂
      rw [ha₁] at ha₂
      cases hr₁
      cases hr₂
      cases ha₂
      have hk := ho.kin (by rw [hcur hcc, hdead]) hv₁ hc₂
      exact ⟨⟨hk, hvc, hcc, hvl, hcl⟩, hr, hr'⟩
    · rw [hr'] at hr₂
      cases hr₂
  · rw [hr] at hr₁
    cases hr₁

/-- The states have one outline. -/
def Aligned (v c : Context) : Prop := ∃ f fs, Matches v (f :: fs) ∧ Matches c (f :: fs)

/-- A check that does the same to the outline leaves the states aligned. -/
theorem Mirror.aligned {post : α → β → Context → Context → Prop}
    {pre : TypeEnv → α → γ → Frame → Prop}
    {pre' : TypeEnv → β → γ → Frame → Prop} {a : TypeEnv → FrameM γ}
    (hm : Mirror (σ := σ) live post (check m) (check m') v c) (hset : v.SameSetting c)
    (halign : v.current.isReachable = true → Aligned v c)
    (ht : ∀ env, Tracks (σ := Unit) env (fun _ => True) (check m) (a env) (pre env))
    (ht' : ∀ env, Tracks (σ := Unit) env (fun _ => True) (check m') (a env) (pre' env)) :
    Mirror (σ := σ) live (fun x y v' c' => post x y v' c' ∧
      (v.current.isReachable = true → Aligned v' c')) (check m) (check m') v c := by
  intro s t hs
  have hm := hm s t hs
  simp only [check] at hm ⊢
  cases hv : m v with
  | error e =>
    rw [hv] at hm
    cases hc : m' c with
    | error e' =>
      rw [hc] at hm
      cases hm with
      | fault h hs => exact .fault h hs
    | ok p' => rw [hc] at hm; cases hm
  | ok p =>
    rw [hv] at hm
    cases hc : m' c with
    | error e' => rw [hc] at hm; cases hm
    | ok p' =>
      rw [hc] at hm
      cases hm with
      | ok h hs =>
        refine .ok ⟨h, fun hr => ?_⟩ hs
        obtain ⟨f, fs, hfv, hfc⟩ := halign hr
        have henv : TypeEnv.ofFrames c.options c.sig.results (f :: fs) =
            .ofFrames v.options v.sig.results (f :: fs) := by rw [hset.options, hset.sig]
        obtain ⟨x, v', y, f', hv', ha, hmv⟩ | ⟨e, hv', -⟩ := (ht _).check_cases hfv rfl trivial <;>
          rw [hv] at hv' <;> cases hv'
        obtain ⟨x', c', y', f'', hc', ha', hmc⟩ | ⟨e, hc', -⟩ :=
          (ht' _).check_cases hfc henv trivial <;> rw [hc] at hc' <;> cases hc'
        rw [ha] at ha'
        cases ha'
        exact ⟨f', fs, hmv, hmc⟩

theorem Checks.fallthrough (h : Kin trusted v c) (hlive : live ↔ c.current.isReachable = true)
    (halign : v.current.isReachable = true → Aligned v c) :
    Mirror (σ := σ) live (fun _ _ v' c' => Kept trusted v c v' c') (check Check.fallthrough)
      (check Check.fallthrough) v c := by
  have hn := h.current
  by_cases hsame : v.current.isReachable = c.current.isReachable
  · simp only [Check.fallthrough, check_bind, check_get, check_ite]
    refine Mirror.get_bind ?_
    simp only [Merge.arity, hn.results, hn.pc, h.available, hsame]
    refine Mirror.ite .rfl (fun _ => ?_) fun _ => ?_
    · exact Mirror.ite .rfl (fun _ => Mirror.fault (.inl (by rw [h.setting.pc]))) fun _ =>
        (Checks.mergeTypes _ _ v c h hlive).mono fun _ _ _ _ => And.right
    · exact Mirror.ite .rfl (fun _ => Mirror.fault (.inl (by rw [h.setting.pc]))) fun _ =>
        (Checks.unreachableMerge _ _ v c h hlive).mono fun _ _ _ _ => And.right
  · have hdead : c.current.isReachable = false := by
      rw [← Bool.not_eq_true]
      exact fun hr => hsame (by rw [hn.reachable hr, hr])
    obtain ⟨f, fs, hv, hc⟩ := halign (by simpa [hdead] using hsame)
    exact (Mirror.of_tracks h hlive hdead hv hc rfl trivial tracks_fallthrough tracks_fallthrough
      (.fallthrough v) (.fallthrough c)).mono fun _ _ _ _ => And.left

theorem branch_eq_ok {depth : Nat} {conditional : Bool} {ctx ctx' : Context} {r : Bool}
    (h : Check.branch depth conditional ctx = .ok (r, ctx')) : r = ctx.current.isReachable := by
  have hret : ∀ {m : CheckM Unit} {x : Bool}, (do m; return x : CheckM Bool) ctx = .ok (r, ctx') →
      r = x := by
    intro m x hm
    obtain ⟨p, -, hp⟩ := Except.bind_eq_ok_iff.1 hm
    cases hp
    rfl
  simp only [Check.branch] at h
  change (if ctx.current.isReachable = true then _ else _ : CheckM Bool) ctx = _ at h
  split at h
  next hr =>
    rw [hr]
    split at h
    · cases h
      rfl
    · split at h
      · cases h
      · exact hret h
  next hr => exact (hret h).trans (by simpa using hr)

/-- A branch is reachable where the code is. -/
theorem Checks.branch (h : Kin trusted v c) (hlive : live ↔ c.current.isReachable = true)
    (halign : v.current.isReachable = true → Aligned v c) (depth : Nat) (conditional : Bool) :
    Mirror (σ := σ) live (fun x y v' c' => x = v.current.isReachable ∧ y = c.current.isReachable ∧
      Kept trusted v c v' c')
      (check (Check.branch depth conditional)) (check (Check.branch depth conditional)) v c := by
  have hn := h.current
  have htypes := (h.controlAt depth).label
  by_cases hsame : v.current.isReachable = c.current.isReachable
  · simp only [Check.branch, check_bind, check_get, check_ite]
    refine Mirror.get_bind ?_
    simp only [htypes, (h.controlAt depth).pc, h.available, hsame]
    refine Mirror.ite .rfl (fun hr => ?_) fun hr => ?_
    · refine Mirror.ite .rfl (fun _ => Mirror.pure ⟨hr.symm, hr.symm, .refl h⟩) fun _ => ?_
      refine Mirror.ite .rfl (fun _ => Mirror.fault (.inl (by rw [h.setting.pc]))) fun _ => ?_
      refine (Checks.mergeTypes _ _ v c h hlive).bind ?_
      exact fun _ _ _ _ hpost => Mirror.pure ⟨hr.symm, hr.symm, hpost.2⟩
    · refine (Checks.unreachableMerge _ _ v c h hlive).bind ?_
      exact fun _ _ _ _ hpost =>
        Mirror.pure ⟨(by simpa using hr), (by simpa using hr), hpost.2⟩
  · have hdead : c.current.isReachable = false := by
      rw [← Bool.not_eq_true]
      exact fun hr => hsame (by rw [hn.reachable hr, hr])
    obtain ⟨f, fs, hv, hc⟩ := halign (by simpa [hdead] using hsame)
    refine (Mirror.of_tracks h hlive hdead hv hc rfl trivial (tracks_branch depth conditional)
      (tracks_branch depth conditional) (.branch depth conditional v)
      (.branch depth conditional c)).mono ?_
    rintro x y v' c' ⟨hpost, hr, hr'⟩
    exact ⟨branch_eq_ok hr, branch_eq_ok hr', hpost⟩

end Decode

end OnePass
