import OnePass.Proofs.TwinChecks

/-!
Constructs that open, change arms and close in two runs side by side. A construct opened in dead
code is reported to neither listener; one that the second listener calls dead is still reported to
the first.
-/
namespace OnePass

open List

variable {trusted : Bool} {v c : Context} {α : Type}

theorem getElem?_take (xs : Array α) (d i : Nat) :
    (xs.take d)[i]? = if i < d then xs[i]? else none := by
  rw [Array.take_eq_extract, Array.getElem?_extract]
  by_cases hi : i < d
  · by_cases hx : i < xs.size
    · rw [if_pos (by omega), if_pos hi, Nat.zero_add]
    · rw [if_neg (by omega), if_pos hi, Array.getElem?_eq_none (by omega)]
  · rw [if_neg (by omega), if_neg hi]

variable {d : Nat}

theorem size_take {xs : Array α} (hd : d ≤ xs.size) : (xs.take d).size = d := by
  simp [hd]

theorem getElem?_take_append {xs : Array α} (hd : d ≤ xs.size) (ys : List α)
    (i : Nat) : (xs.take d ++ ys)[i]? = if i < d then xs[i]? else ys[i - d]? := by
  rw [← Array.getElem?_toList, Array.toList_appendList, getElem?_append, Array.length_toList,
    size_take hd, Array.getElem?_toList, getElem?_take]
  split <;> rfl

section

variable (h : Outer trusted v c)
include h

/-- The operands of the innermost construct are dropped. -/
theorem Outer.clear {g k : Control → Control} (hnarrows : (g v.current).Narrows (k c.current))
    (hdepth : (k c.current).stackDepth = c.current.stackDepth) :
    Kin trusted ((v.truncate v.current.stackDepth).modifyCurrent g)
      ((c.truncate c.current.stackDepth).modifyCurrent k) := by
  have hempty : ∀ i, c.current.stackDepth ≤ i →
      (c.stack.take c.current.stackDepth)[i]? = (v.stack.take c.current.stackDepth)[i]? := by
    intro i hi
    rw [getElem?_take, getElem?_take, if_neg (Nat.not_lt.2 hi), if_neg (Nat.not_lt.2 hi)]
  rw [← h.current.stackDepth]
  refine Kin.update (s := v.stack.take c.current.stackDepth)
    (t := c.stack.take c.current.stackDepth)
    h v.live c.live hnarrows hdepth ?_ ?_ ?_ (fun _ i hi => congrArg _ (hempty i hi))
    fun _ => hempty
  · exact Nat.le_of_eq (size_take h.base).symm
  · rw [size_take h.base, size_take h.base']
  · intro i hi
    rw [getElem?_take, getElem?_take, if_pos hi, if_pos hi]
    exact ⟨rfl, rfl⟩

/-- The operands of the innermost construct become the same in both. -/
theorem Outer.pushMergeValues {types types' : List ValueType} (htypes : types' = types) :
    ∃ v' c', Check.pushMergeValues types v = .ok ((), v') ∧
      Check.pushMergeValues types' c = .ok ((), c') ∧ Kept trusted v c v' c' ∧
      ∀ i, c.current.stackDepth ≤ i → c'.stack[i]? = v'.stack[i]? := by
  subst htypes
  have hinner : ∀ i, c.current.stackDepth ≤ i → (c.stack.take c.current.stackDepth ++
          types'.map fun ty => Value.mk ty c.current.pc)[i]? =
        (v.stack.take c.current.stackDepth ++ types'.map fun ty =>
          Value.mk ty c.current.pc)[i]? := by
    intro i hi
    rw [getElem?_take_append h.base, getElem?_take_append h.base', if_neg (Nat.not_lt.2 hi),
      if_neg (Nat.not_lt.2 hi)]
  refine ⟨_, _, rfl, rfl, ?_⟩
  dsimp only [Context.truncate]
  rw [← h.current.stackDepth, ← h.current.pc]
  refine ⟨⟨?_, rfl, rfl, rfl, rfl⟩, hinner⟩
  have hsize : ∀ {xs : Array Value} {ys : List Value}, (xs ++ ys).size = xs.size + ys.length := by
    intro xs ys
    rw [← Array.length_toList, Array.toList_appendList, length_append, Array.length_toList]
  refine Kin.restack h ?_ ?_ ?_ (fun _ i hi => congrArg _ (hinner i hi)) fun _ => hinner
  · rw [hsize, size_take h.base]
    exact Nat.le_add_right ..
  · rw [hsize, hsize, size_take h.base, size_take h.base']
  · intro i hi
    rw [getElem?_take_append h.base, getElem?_take_append h.base', if_pos hi, if_pos hi]
    exact ⟨rfl, rfl⟩

theorem Outer.parentReachable : c.parentReachable = true → v.parentReachable = true := by
  obtain ⟨x, xs, y, ys, hv, hc, -, hrest, -⟩ := h.split
  unfold Context.parentReachable
  rw [hv, hc]
  cases hrest with
  | nil => exact id
  | cons hd _ => exact hd.reachable

end

theorem Reachability.inner_eq_reachable {r : Reachability} :
    r.inner = .reachable ↔ r = .reachable := by
  cases r <;> decide

theorem Outer.armReachability (h : Outer trusted v c) :
    Decode.armReachability c = .reachable → Decode.armReachability v = .reachable := by
  simp only [Decode.armReachability, Reachability.inner_eq_reachable]
  simpa [Control.isReachable] using (h.controlAt 1).reachable

variable {x y : Control}

/-- Another arm starts from what the enclosing construct allows. -/
theorem Outer.narrows_arm (h : Outer trusted v c) (hxy : x.Narrows y) :
    Control.Narrows { x with reachability := Decode.armReachability v }
      { y with reachability := Decode.armReachability c } :=
  hxy.setReachability h.armReachability
    ⟨fun hu => absurd hu (Decode.armReachability_ne c),
      fun hu => absurd hu (Decode.armReachability_ne v)⟩

theorem Control.Narrows.setKind (h : x.Narrows y) {kind : ControlKind}
    (hkind : kind ≠ .loop) : Control.Narrows { x with kind } { y with kind } :=
  ⟨congrArg (fun z : Control => { z with kind }) h.bare, h.unreachable, h.reachable, h.ended,
    fun hloop => absurd (eq_of_beq hloop) hkind⟩

/-- The end is reached where the code before it is. -/
theorem Control.Narrows.arrive (h : x.Narrows y) (hloop : y.isLoop = false) :
    (if x.isReachable then x.markEnd else x).Narrows (if y.isReachable then y.markEnd else y) := by
  by_cases hy : y.isReachable = true
  · rw [if_pos hy, if_pos (h.reachable hy)]
    exact h.markEnd hloop
  · rw [if_neg hy]
    split
    · exact h.markEnd_left
    · exact h

section

variable (h : Kin trusted v c)
include h

theorem Kin.typesAt (ht : trusted = false) (i : Nat) :
    c.stack[i]?.map Value.ty = v.stack[i]?.map Value.ty := by
  by_cases hi : i < c.current.stackDepth
  · exact h.types ht i hi
  · exact h.innerTypes ht i (Nat.not_lt.1 hi)

theorem Kin.setKind {kind : ControlKind} (hkind : kind ≠ .loop) :
    Kin trusted (v.modifyCurrent fun x => { x with kind })
      (c.modifyCurrent fun x => { x with kind }) :=
  h.rehead v.live c.live (h.current.setKind hkind) rfl id

/-- A construct opens with no operands of its own. -/
theorem Kin.enter (hxy : x.Narrows y) (hdepth : y.stackDepth = c.stack.size) (l l' : Bool) :
    Kin trusted { v with control := x :: v.control, live := l }
      { c with control := y :: c.control, live := l' } := by
  have hcurrent : Context.current { c with control := y :: c.control, live := l' } = y := rfl
  obtain ⟨-, -, q, qs, -, hc, -, -, -, hq⟩ := h.split
  constructor
  case size => exact h.size
  case innerTypes =>
    intro _ i hi
    rw [hcurrent, hdepth] at hi
    rw [Array.getElem?_eq_none hi, Array.getElem?_eq_none (h.size ▸ hi)]
  case innerValues =>
    intro _ i hi
    rw [hcurrent, hdepth] at hi
    rw [Array.getElem?_eq_none hi, Array.getElem?_eq_none (h.size ▸ hi)]
  constructor
  case mode => exact h.mode
  case setting =>
    exact ⟨h.setting.1, h.setting.2, h.setting.3, h.setting.4, h.setting.5, h.setting.6⟩
  case opcode => exact h.opcode
  case opened => exact cons_ne_nil _ _
  case narrows => exact .cons hxy h.narrows
  case nested =>
    refine pairwise_cons.2 ⟨fun d hd => ?_, h.nested⟩
    have hnested := h.nested
    have hbase := h.base
    rw [hc, pairwise_cons] at hnested
    rw [hq] at hbase
    rw [hdepth]
    rcases mem_cons.1 (hc ▸ hd) with rfl | hd
    · exact hbase
    · exact Nat.le_trans (hnested.1 d hd) hbase
  case base => exact Nat.le_of_eq hdepth
  case base' => exact Nat.le_of_eq (hdepth.trans h.size)
  case types => exact fun ht i _ => h.typesAt ht i
  case values =>
    intro i hi hr
    rw [hcurrent] at hi
    rw [reachableAt_cons, if_neg (Nat.not_le.2 hi)] at hr
    by_cases hlt : i < c.current.stackDepth
    · exact h.values i hlt hr
    · have hle := Nat.not_lt.1 hlt
      rw [hc, reachableAt_cons, ← hq, if_pos hle] at hr
      exact h.innerValues hr i hle

theorem Kin.pushControl (kind : ControlKind) (type : BlockType) :
    ∃ x y v' c', Check.pushControl kind type v = .ok (x, v') ∧
      Check.pushControl kind type c = .ok (y, c') ∧ Twins trusted v' c' ∧ y.bare = x.bare ∧
      (y.isReachable = true → c.current.isReachable = true) := by
  obtain ⟨p, ps, q, qs, hv, hc, hpq, -, -, hq⟩ := h.split
  have hbare : ∀ r r', (Control.mk kind c.stack.size r' ⟨type.params, false⟩ ⟨type.results, false⟩
      c.pc).bare = (Control.mk kind v.stack.size r ⟨type.params, false⟩ ⟨type.results, false⟩
      v.pc).bare := by
    intro r r'
    simp [Control.bare, h.size, h.setting.pc]
  refine ⟨_, _, _, _, rfl, rfl, ⟨h.enter ⟨hbare _ _, ?_, ?_, id, fun _ => rfl⟩ rfl _ _, rfl, rfl⟩,
    hbare _ _, ?_⟩
  · simp only [hv, hc, Control.isUnreachable]
    cases p.reachability <;> cases q.reachability <;> rfl
  · simpa [hv, hc, Control.isReachable, Reachability.inner_eq_reachable] using hpq.reachable
  · rw [hc, hq]
    simp [Control.isReachable, Reachability.inner_eq_reachable]

end

theorem Outer.isOutermost (h : Outer trusted v c) : c.isOutermost = v.isOutermost := by
  obtain ⟨x, xs, y, ys, hv, hc, -, hrest, -⟩ := h.split
  unfold Context.isOutermost
  rw [hv, hc]
  cases hrest <;> rfl

/-- What is around the innermost construct. -/
theorem Outer.tail (h : Outer trusted v c) (hout : c.isOutermost = false) :
    Outer trusted { v with control := v.control.tail } { c with control := c.control.tail } ∧
      (Context.current { c with control := c.control.tail }).stackDepth ≤ c.current.stackDepth ∧
      ∀ i < c.current.stackDepth, ReachableAt c.control.tail i → c.stack[i]? = v.stack[i]? := by
  obtain ⟨x, xs, y, ys, hv, hc, -, hrest, hx, hy⟩ := h.split
  obtain ⟨p, ps, q, qs, rfl, rfl, hpq⟩ : ∃ p ps q qs, xs = p :: ps ∧
      ys = q :: qs ∧ p.Narrows q := by
    cases hrest with
    | nil => simp [Context.isOutermost, hc] at hout
    | cons hpq _ => exact ⟨_, _, _, _, rfl, rfl, hpq⟩
  have hnested := h.nested
  rw [hc, pairwise_cons] at hnested
  have hle : q.stackDepth ≤ y.stackDepth := hnested.1 q mem_cons_self
  have hvalues : ∀ i < y.stackDepth, ReachableAt (q :: qs) i → c.stack[i]? = v.stack[i]? := by
    intro i hi hr
    refine h.values i (hy ▸ hi) ?_
    rwa [hc, reachableAt_cons, if_neg (Nat.not_le.2 hi)]
  have hbase := h.base
  have hbase' := h.base'
  rw [hy] at hbase hbase' ⊢
  rw [hv, hc]
  refine ⟨?_, hle, hvalues⟩
  constructor
  case mode => exact h.mode
  case setting =>
    exact ⟨h.setting.1, h.setting.2, h.setting.3, h.setting.4, h.setting.5, h.setting.6⟩
  case opcode => exact h.opcode
  case opened => exact cons_ne_nil q qs
  case narrows => exact hrest
  case nested => exact hnested.2
  case base => exact Nat.le_trans hle hbase
  case base' => exact Nat.le_trans hle hbase'
  case types => exact fun ht i hi => h.types ht i (hy ▸ Nat.lt_of_lt_of_le hi hle)
  case values => exact fun i hi hr => hvalues i (Nat.lt_of_lt_of_le hi hle) hr

theorem Kin.leave (h : Kin trusted v c) (hout : c.isOutermost = false) (hxy : x.Narrows y)
    (hinner : (y.isReachable || y.endMerge.reached || y.isOneArmedIf) = true →
      ∀ i, c.current.stackDepth ≤ i → c.stack[i]? = v.stack[i]?) :
    Twins trusted (v.leave x) (c.leave y) := by
  obtain ⟨htail, hle, hvalues⟩ := h.toOuter.tail hout
  have hkeep : (y.isReachable || y.endMerge.reached || y.isOneArmedIf) = true →
      (x.isReachable || x.endMerge.reached || x.isOneArmedIf) = true := by
    simp only [Bool.or_eq_true, Control.isOneArmedIf, hxy.kind]
    exact Or.imp_left (Or.imp hxy.reachable hxy.ended)
  unfold Context.leave
  dsimp only
  by_cases hy : (y.isReachable || y.endMerge.reached || y.isOneArmedIf) = true
  · rw [if_pos hy, if_pos (hkeep hy)]
    refine Kin.wake ⟨htail, h.size, fun ht i _ => h.typesAt ht i, fun hr i hi => ?_⟩ rfl rfl
    by_cases hlt : i < c.current.stackDepth
    · refine hvalues i hlt ?_
      obtain ⟨-, -, q, qs, -, hc, -, -, -, hq⟩ := htail.split
      rw [hq] at hr hi
      change c.control.tail = _ at hc
      rwa [hc, reachableAt_cons, if_pos hi]
    · exact hinner hy i (Nat.not_lt.1 hlt)
  · have hdead : ∀ {g : Control → Control} (l : Bool),
        (g (Context.current { v with control := v.control.tail })).Narrows
          (Context.current { c with control := c.control.tail }).deadened →
        Kin trusted { Context.modifyCurrent { v with control := v.control.tail } g with live := l }
          (Context.markDead { c with control := c.control.tail }) := by
      intro g l hn
      exact Kin.update (k := Control.deadened) (s := v.stack) (t := c.stack) htail l false hn
        (Control.stackDepth_deadened _) htail.base h.size (fun _ _ => ⟨rfl, rfl⟩)
        (fun ht i _ => h.typesAt ht i) fun hr => by simp at hr
    rw [if_neg hy]
    split
    · have hk := hdead (g := id) v.live htail.current.deadened
      rw [Context.modifyCurrent_id] at hk
      exact hk.wake rfl rfl
    · exact (hdead (g := Control.deadened) false htail.current.deadened_both).wake rfl rfl

namespace Check

variable {ctx ctx' : Context}

theorem bind_of_ok {α β : Type} {m : CheckM α} {k : α → CheckM β} {x : α}
    (h : m ctx = .ok (x, ctx')) : (m >>= k) ctx = k x ctx' := by
  simp only [bind, StateT.bind, h, Except.bind]

/-- The operands of a polymorphic stack never run out. -/
theorem popTypes_closed {ctx : Context} (hu : ctx.current.isUnreachable = true)
    (hsize : ctx.stack.size ≤ ctx.current.stackDepth) (shift : Nat) (types : List ValueType) :
    ∃ xs, popTypes shift types ctx = .ok (xs, ctx) := by
  have hpop : ∀ index ty, pop index ty ctx = .ok (⟨.bottom, ctx.pc⟩, ctx) := by
    intro index ty
    have hany : popAny index ctx = .ok (⟨.bottom, ctx.pc⟩, ctx) := by
      simp only [popAny]
      change (if _ then _ else _ : CheckM Value) ctx = _
      rw [if_pos hsize, if_pos hu]
      rfl
    have hoperand : operand index ty ⟨.bottom, ctx.pc⟩ ctx = .ok ((), ctx) := by
      simp only [operand]
      change (if _ then _ else _ : CheckM Unit) ctx = _
      rw [if_pos (by simp [ValueType.isSubtypeOf])]
      rfl
    rw [pop, bind_of_ok hany, bind_of_ok hoperand]
    rfl
  unfold popTypes
  generalize 0 = start
  induction types generalizing start with
  | nil => exact ⟨[], rfl⟩
  | cons ty types ih =>
    obtain ⟨xs, hxs⟩ := ih (start + 1)
    refine ⟨⟨.bottom, ctx.pc⟩ :: xs, ?_⟩
    rw [zipIdx_cons, foldrM_cons, bind_of_ok hxs]
    exact bind_of_ok (hpop _ _)

/-- Where nothing is left of the operands, the results are pushed. -/
theorem fallthrough_closed {xs : List Value}
    (hu : ctx.current.isUnreachable = true) (hsize : ctx.stack.size = ctx.current.stackDepth)
    (hpush : pushAll ctx.current.endMerge.types ctx = .ok (xs, ctx')) :
      fallthrough ctx = .ok ((), ctx') := by
  obtain ⟨ys, hpop⟩ := popTypes_closed hu (Nat.le_of_eq hsize) 0 ctx.current.endMerge.types
  have hreach : ctx.current.isReachable = false := by
    simp only [Control.isUnreachable, beq_iff_eq] at hu
    simp [Control.isReachable, hu]
  have havailable : ctx.available = 0 := by simp [Context.available, hsize]
  simp only [fallthrough]
  change (if _ then _ else if _ then _ else _ : CheckM Unit) ctx = _
  rw [if_neg (by simp [hreach]), if_neg (by simp [havailable]), unreachableMerge]
  simp only [Bool.false_eq_true, if_false]
  rw [bind_of_ok hpop, bind_of_ok hpush]
  rfl

end Check

namespace Decode

variable {σ : Type} {b : Backend σ} {live : Prop}

namespace Mirror

/-- The rest of the construct is unreachable in both runs. -/
theorem endControl (hb : b.Calm) (h : Outer trusted v c) (hl : c.live = true → v.live = true) :
    Mirror live (fun _ _ v' c' => Twins trusted v' c' ∧ v'.current.isUnreachable = true ∧
      v'.stack.size = v'.current.stackDepth) (endControl Backend.validator.logged)
      (endControl b.logged) v c := by
  have hk : Kin trusted (v.truncate v.current.stackDepth) (c.truncate c.current.stackDepth) := by
    simpa using h.clear (g := id) (k := id) h.current rfl
  refine modify_bind (get_bind (reportThen hb hk.setting.pc hl (fun _ => ?_) rfl (of_modify ?_)))
  · exact congrArg Event.endControl hk.current.bare
  · have hk' := hk.rehead (g := fun x => { x with reachability := .unreachable })
      (k := fun x => { x with reachability := .unreachable }) false false
      (hk.current.setReachability (by simp) Iff.rfl) rfl (fun hr => by cases hr)
    have hcur := Context.current_modifyCurrent hk.opened' fun x =>
      { x with reachability := .unreachable }
    have hcur' := Context.current_modifyCurrent hk.opened fun x =>
      { x with reachability := .unreachable }
    refine ⟨⟨hk', ?_, ?_⟩, ?_, ?_⟩
    · exact (congrArg Control.isReachable hcur).symm
    · exact (congrArg Control.isReachable hcur').symm
    · exact congrArg Control.isUnreachable hcur
    · refine Eq.trans ?_ (congrArg Control.stackDepth hcur).symm
      exact size_take (h.current.stackDepth ▸ h.base')

section Rules

variable {α β : Type} {post : α → β → Context → Context → Prop}

theorem check_ok_bind {γ δ : Type} {m : CheckM γ} {m' : CheckM δ} {x : γ} {y : δ} {v' c' : Context}
    {k : γ → LoggedM Unit α} {k' : δ → LoggedM σ β}
    (hm : m v = .ok (x, v')) (hm' : m' c = .ok (y, c')) (hk : Mirror live post (k x) (k' y) v' c') :
    Mirror live post (check m >>= k) (check m' >>= k') v c := by
  have h : Mirror (σ := σ) live (fun x₁ y₁ v₁ c₁ => x₁ = x ∧ y₁ = y ∧ v₁ = v' ∧ c₁ = c') (check m)
      (check m') v c := check_ok hm hm' ⟨rfl, rfl, rfl, rfl⟩
  refine h.bind ?_
  rintro _ _ _ _ ⟨rfl, rfl, rfl, rfl⟩
  exact hk

variable {k : Unit → LoggedM Unit α} {k' : Unit → LoggedM σ β}

theorem when_fault {p p' : Prop} [Decidable p] [Decidable p'] (hp : p ↔ p') {f : DecodeFault}
    (hpc : c.pc = v.pc) (hk : ¬ p → Mirror live post (k ()) (k' ()) v c) :
    Mirror live post (if p then check (Check.fault f) >>= k else k ())
      (if p' then check (Check.fault f) >>= k' else k' ()) v c := by
  exact ite hp (fun _ => fault_bind (.inl (by rw [hpc]))) hk

theorem when_plain_told {p p' : Bool} {ev ec : Event} (hb : b.Calm) (hp : p' = true → p = true)
    (hpc : c.pc = v.pc) (he : ec.bare = ev.bare) (hplain : ec.isAccess = false)
    (hk : Mirror live post (k ()) (k' ()) v c) :
    Mirror live post (if p then tell Backend.validator.logged ev >>= k else k ())
      (if p' then tell b.logged ec >>= k' else k' ()) v c := by
  refine when_told hb hp hpc (fun _ => he) hk fun haccess => ?_
  rw [hplain] at haccess
  cases haccess

end Rules

theorem requireTry (h : Outer trusted v c) (what : String) :
    Mirror (σ := σ) live (fun _ _ v' c' => v' = v ∧ c' = c) (check (requireTry what))
      (check (requireTry what)) v c := by
  simp only [Decode.requireTry, check_bind, check_get, check_ite]
  refine get_bind ?_
  simp only [Control.isTry, h.current.kind]
  have hfault : ∀ f, SameFault live ⟨v.pc, f⟩ ⟨c.pc, f⟩ := fun f => .inl (by rw [h.setting.pc])
  exact ite .rfl (fun _ => fault (hfault _)) fun _ =>
    ite .rfl (fun _ => fault (hfault _)) fun _ => pure ⟨rfl, rfl⟩

section

variable (hb : b.Calm)
include hb

/-- An arm of a `try` ends. -/
theorem fallThru (h : Kin trusted v c) (hlive : live ↔ c.current.isReachable = true)
    (halign : v.current.isReachable = true → Aligned v c) (hloop : c.current.isLoop = false) :
    Mirror live (fun _ _ v' c' => Outer trusted v' c') (fallThru Backend.validator.logged)
      (fallThru b.logged) v c := by
  refine (Checks.fallthrough h hlive halign).bind ?_
  intro _ _ v' c' kept
  refine get_bind ?_
  rw [kept.current_eq.1, kept.current_eq.2]
  have hn := h.current
  have hmark := kept.toKin.current
  dsimp only
  rw [hloop, hn.isLoop.symm.trans hloop]
  by_cases hc : c.current.isReachable = true
  · rw [if_pos hc, if_pos (hn.reachable hc)]
    refine when_plain_told hb id kept.setting.pc ?_ rfl (of_modify ?_)
    · exact congrArg Event.fallThru hn.bare
    · exact kept.toOuter.rehead (hmark.markEnd (kept.current_eq.2 ▸ hloop)) rfl
  · rw [if_neg hc]
    split
    · refine told_left fun s t hs => .ok ?_ hs
      have ho := kept.toOuter.rehead (g := Control.markEnd) (k := id) hmark.markEnd_left rfl
      rwa [Context.modifyCurrent_id] at ho
    · exact pure kept.toOuter

theorem elseArm (h : Twins trusted v c) (hlive : live ↔ c.current.isReachable = true)
    (halign : v.current.isReachable = true → Aligned v c) :
    Mirror live (fun _ _ v' c' => Twins trusted v' c') (elseArm Backend.validator.logged)
      (elseArm b.logged) v c := by
  have hkind := h.current.kind
  refine get_bind (when_fault ?_ h.setting.pc fun _ => when_fault ?_ h.setting.pc fun _ => ?_)
  · rw [Control.isIf, Control.isIf, hkind]
  · rw [hkind]
  refine (Checks.fallthrough h.toKin hlive halign).bind ?_
  intro _ _ v₁ c₁ kept
  have ho := kept.toOuter.rehead (g := fun x => { x with kind := .ifElse })
    (k := fun x => { x with kind := .ifElse }) (kept.toKin.current.setKind (by decide)) rfl
  have hloop := congrArg Control.isLoop
    (Context.current_modifyCurrent kept.opened fun x => { x with kind := .ifElse })
  refine modify_bind (get_bind (get_bind (when_plain_told hb ho.parentReachable ho.setting.pc ?_ rfl
    (get_bind (modify_bind ?_)))))
  · exact congrArg Event.elseArm ho.current.bare
  generalize (v₁.modifyCurrent _ : Context) = v₂ at ho ⊢
  generalize (c₁.modifyCurrent _ : Context) = c₂ at ho hloop ⊢
  have harm := ho.rehead
    (g := fun x => { (if x.isReachable then x.markEnd else x) with
      reachability := armReachability v₂ })
    (k := fun x => { (if x.isReachable then x.markEnd else x) with
      reachability := armReachability c₂ })
    (ho.narrows_arm (ho.current.arrive hloop)) (by dsimp only; split <;> rfl)
  obtain ⟨v₃, c₃, hv, hc, kept, -⟩ := harm.pushMergeValues ho.current.params
  refine check_ok_bind hv hc (of_modify (kept.wake ?_ ?_))
  · rw [kept.current_eq.1, Context.current_modifyCurrent ho.opened']
    rfl
  · rw [kept.current_eq.2, Context.current_modifyCurrent ho.opened]
    rfl

theorem handler (h : Kin trusted v c) (hlive : live ↔ c.current.isReachable = true)
    (halign : v.current.isReachable = true → Aligned v c) (what : String) {kind : ControlKind}
    (hkind : kind ≠ .loop) (params : List ValueType) {event : Control → List Value → Event}
    (hbare : ∀ {x y : Control} values, y.bare = x.bare →
      (event y values).bare = (event x values).bare)
    (haccess : ∀ x values, (event x values).isAccess = false) :
    Mirror live (fun _ _ v' c' => Twins trusted v' c')
      (handler Backend.validator.logged what kind params event)
      (handler b.logged what kind params event) v c := by
  refine (requireTry h.toOuter what).bind ?_
  rintro _ _ _ _ ⟨rfl, rfl⟩
  have hset := h.setKind hkind
  have hcur := Context.current_modifyCurrent h.opened fun x => { x with kind }
  have hcur' := Context.current_modifyCurrent h.opened' fun x => { x with kind }
  refine modify_bind (bind (fallThru hb hset ?_ ?_ ?_) ?_)
  · rw [hcur]
    exact hlive
  · rw [hcur']
    intro hr
    obtain ⟨f, fs, hv, hc⟩ := halign hr
    exact ⟨_, fs, hv.setKind, hc.setKind⟩
  · rw [hcur]
    exact beq_eq_false_iff_ne.2 hkind
  · intro _ _ v₁ c₁ ho
    refine modify_bind ((show ∀ v c, Kin trusted v c → Mirror live _ _ _ v c from
      fun v c hk => ?_) _ _ (ho.clear (ho.narrows_arm ho.current) rfl))
    obtain ⟨xs, v', c', hv, hc, kept⟩ := hk.pushAll params
    refine check_ok_bind hv hc (get_bind (get_bind (when_plain_told hb kept.parentReachable
      kept.setting.pc ?_ (haccess _ _) (of_modify (kept.wake rfl rfl)))))
    exact hbare xs kept.toKin.current.bare

/-- What no handler took is thrown again. -/
theorem rethrowUncaught (h : Twins trusted v c) (hlive : live ↔ c.current.isReachable = true)
    (halign : v.current.isReachable = true → Aligned v c) (hloop : c.current.isLoop = false) :
    Mirror live (fun _ _ v' c' => Twins trusted v' c' ∧ v'.current.isUnreachable = true ∧
      v'.stack.size = v'.current.stackDepth) (rethrowUncaught Backend.validator.logged)
      (rethrowUncaught b.logged) v c := by
  refine (fallThru hb h.toKin hlive halign hloop).bind ?_
  intro _ _ v₁ c₁ ho
  have harm := ho.rehead (g := fun x => { x with reachability := armReachability v₁ })
    (k := fun x => { x with reachability := armReachability c₁ }) (ho.narrows_arm ho.current) rfl
  refine modify_bind (get_bind (get_bind (when_plain_told hb harm.parentReachable harm.setting.pc
    ?_ rfl (modify_bind (reportThen hb ?_ harm.current.reachable (fun _ => ?_) rfl
      (endControl hb (harm.setLive _ _) harm.current.reachable))))))
  · exact congrArg Event.catchAll harm.current.bare
  · exact harm.setting.pc
  · exact congrArg Event.rethrow harm.current.bare

theorem endBody (h : Twins trusted v c) :
    Mirror live (fun _ _ v' c' => Ended v' c') (endBody Backend.validator.logged)
      (endBody b.logged) v c := by
  refine get_bind ?_
  rw [h.setting.reader]
  refine ite .rfl (fun _ => ?_) fun _ => ?_
  · exact fun _ _ hs => .fault (.inl rfl) hs
  · exact reportThen hb h.setting.pc h.reports (fun _ => rfl)
      rfl (of_modify ⟨rfl, rfl, h.setting.pc⟩)

theorem popControl (h : Twins trusted v c) (hout : c.isOutermost = false) :
    Mirror live (fun _ _ v' c' => Twins trusted v' c') (popControl Backend.validator.logged)
      (popControl b.logged) v c := by
  have hn := h.current
  refine get_bind (get_bind (when_plain_told hb h.parentReachable h.setting.pc ?_ rfl ?_))
  · exact congrArg Event.popControl hn.bare
  rw [hn.isLoop]
  cases hloop : v.current.isLoop with
  | true =>
    refine of_modify (h.toKin.leave hout hn fun hkeep => h.innerValues ?_)
    have hloop' := hn.isLoop.trans hloop
    have hkind : c.current.isOneArmedIf = false := by
      simp only [Control.isLoop, beq_iff_eq] at hloop'
      rw [Control.isOneArmedIf, hloop']
      rfl
    simpa [hn.loop hloop', hkind] using hkeep
  | false =>
    obtain ⟨v', c', hv, hc, kept, hinner⟩ := h.toOuter.pushMergeValues hn.results
    refine check_ok_bind hv hc (of_modify (kept.toKin.leave ?_ hn fun _ => ?_))
    · rw [Context.isOutermost, kept.control']
      exact hout
    · rw [kept.current_eq.2]
      exact hinner

end

theorem oneArmedIf (h : Outer trusted v c) (hxy : x.Narrows y) :
    Mirror (σ := σ) live (fun _ _ v' c' => v' = v ∧ c' = c) (check (Check.oneArmedIf x))
      (check (Check.oneArmedIf y)) v c := by
  have hthrow : ∀ {f : DecodeFault} {u : Context}, (MonadExcept.throw ⟨x.pc, f⟩ : CheckM Unit) u =
      .error ⟨x.pc, f⟩ := rfl
  rw [Check.oneArmedIf, Check.oneArmedIf, hxy.params, hxy.results, hxy.pc, check_ite, check_ite]
  refine ite (by simp only [Merge.arity, hxy.params, hxy.results])
    (fun _ => check_error hthrow hthrow (.inl rfl)) fun _ => ?_
  rw [check_bind, check_bind]
  refine get_bind ?_
  rw [check_ite, check_ite]
  refine ite (by rw [h.setting.options]) (fun _ => pure ⟨rfl, rfl⟩) fun _ => ?_
  split
  · exact check_error hthrow hthrow (.inl rfl)
  · exact pure ⟨rfl, rfl⟩

/-- Results are on the stack, and the construct is closed. -/
def closeBlock {σ : Type} (b : Backend σ) : DecodeM σ Unit := do
  if (← get).isOutermost then Decode.endBody b else Decode.popControl b

theorem endBlock (hb : b.Calm) (h : Twins trusted v c) (hlive : live ↔ c.current.isReachable = true)
    (halign : v.current.isReachable = true → Aligned v c) :
    Mirror live (fun _ _ v' c' => Twins trusted v' c' ∨ Ended v' c')
      (endBlock Backend.validator.logged) (endBlock b.logged) v c := by
  have hn := h.current
  have hclose : ∀ v c, Twins trusted v c →
        Mirror live (fun _ _ v' c' => Twins trusted v' c' ∨ Ended v' c')
        (closeBlock Backend.validator.logged) (closeBlock b.logged) v c := by
    intro v c h
    refine get_bind ?_
    rw [h.isOutermost.symm]
    cases hout : c.isOutermost with
    | true => exact (endBody hb h).mono fun _ _ _ _ => .inr
    | false => exact (popControl hb h hout).mono fun _ _ _ _ => .inl
  have hrest : Mirror live (fun _ _ v' c' => Twins trusted v' c' ∨ Ended v' c')
      (if v.current.kind = .tryCatch then do
        Decode.rethrowUncaught Backend.validator.logged
        check Check.fallthrough
        closeBlock Backend.validator.logged
      else do
        check Check.fallthrough
        closeBlock Backend.validator.logged)
      (if c.current.kind = .tryCatch then do
        Decode.rethrowUncaught b.logged
        check Check.fallthrough
        closeBlock b.logged
      else do
        check Check.fallthrough
        closeBlock b.logged) v c := by
    refine ite (by rw [hn.kind]) (fun hkind => ?_) fun _ => ?_
    · have hloop : c.current.isLoop = false := by
        rw [Control.isLoop, hn.kind, hkind]
        rfl
      refine (rethrowUncaught hb h hlive halign hloop).bind ?_
      rintro _ _ v₁ c₁ ⟨h₁, hu, hsize⟩
      obtain ⟨xs, v₂, c₂, hv, hc, kept⟩ := h₁.toKin.pushAll v₁.current.endMerge.types
      have hn₁ := h₁.current
      refine check_ok_bind (Check.fallthrough_closed hu hsize hv)
        (Check.fallthrough_closed (hn₁.unreachable.trans hu) ?_ (hn₁.results ▸ hc))
        (hclose v₂ c₂ (kept.twins h₁))
      rw [h₁.size, hsize, hn₁.stackDepth]
    · exact (Checks.fallthrough h.toKin hlive halign).bind fun _ _ v₁ c₁ kept =>
        hclose v₁ c₁ (kept.twins h)
  refine get_bind (when_fault (by rw [hn.kind]) h.setting.pc fun _ => ?_)
  refine ite (by rw [Control.isOneArmedIf, Control.isOneArmedIf, hn.kind]) (fun _ => ?_) fun _ =>
    hrest
  refine (oneArmedIf h.toOuter hn).bind ?_
  rintro _ _ _ _ ⟨rfl, rfl⟩
  exact hrest

section

variable (hb : b.Calm) (h : Kin trusted v c) (hlive : live ↔ c.current.isReachable = true)
include hb h hlive

theorem openBlock (kind : ControlKind) (type : BlockType) {ev ec : Control → Event}
    (he : ∀ x y, y.bare = x.bare → live → (ec y).bare = (ev x).bare)
    (hplain : ∀ y, (ec y).isAccess = false) :
    Mirror live (fun _ _ v' c' => Twins trusted v' c')
      (openBlock Backend.validator.logged kind type ev) (openBlock b.logged kind type ec) v c := by
  refine (Checks.popTypes 0 type.params v c h hlive).bind ?_
  rintro _ _ v₁ c₁ ⟨-, kept⟩
  obtain ⟨x, y, v₂, c₂, hv, hc, h₂, hbare, hreach⟩ := kept.toKin.pushControl kind type
  have hcur : c₂.current = y := by cases hc; rfl
  refine check_ok_bind hv hc (reportThen hb h₂.setting.pc h₂.reports (fun hl => he x y hbare ?_)
    (hplain y) ?_)
  · rw [hlive, ← kept.current_eq.2]
    refine hreach ?_
    rw [← hcur, ← h₂.live', hl]
  · obtain ⟨v₃, c₃, hv₃, hc₃, kept₃, -⟩ := h₂.toOuter.pushMergeValues (@rfl _ type.params)
    exact check_ok hv₃ hc₃ (kept₃.twins h₂)

theorem openIf (type : BlockType) :
    Mirror live (fun _ _ v' c' => Twins trusted v' c') (openIf Backend.validator.logged type)
      (openIf b.logged type) v c := by
  refine (Checks.pop 0 .i32 v c h hlive).bind ?_
  rintro cond cond' v₁ c₁ ⟨hcond, kept⟩
  refine openBlock hb kept.toKin (kept.current_eq.2 ▸ hlive) .ifThen type ?_ fun _ => rfl
  intro x y hxy hl
  rw [hcond.1 hl]
  exact congrArg (Event.ifThen cond') hxy

end

end Mirror

end Decode

end OnePass
