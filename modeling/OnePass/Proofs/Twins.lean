import OnePass.Proofs.Listener

/-!
Two runs over one body whose listeners disagree about dead code: validation, for which nothing is
dead that the type rules call reachable, and a listener that may call any code dead. The runs see
the same constructs and equally many operands. Where the second run is live, the operands are the
same, too, and with them every fault.
-/
namespace OnePass

open List

/-- A fault found in the operands of an instruction. -/
def DecodeError.IsOperandFault (e : DecodeError) : Prop :=
  e.kind = .stackUnderflow ∨ e.kind = .arityMismatch ∨ e.kind = .typeMismatch

/-- The fault is the same, or where `live` fails it is another one of the same operands. -/
def SameFault (live : Prop) (e e' : DecodeError) : Prop :=
  e = e' ∨ ¬ live ∧ e.offset = e'.offset ∧ e.IsOperandFault ∧ e'.IsOperandFault

/-- The construct as its rest never executes. -/
def Control.deadened (c : Control) : Control :=
  if c.isReachable then { c with reachability := .specOnly } else c

@[simp] theorem Control.isReachable_deadened (c : Control) : c.deadened.isReachable = false := by
  unfold Control.deadened
  split
  · rfl
  next h => exact Bool.not_eq_true _ ▸ h

@[simp] theorem Control.stackDepth_deadened (c : Control) :
    c.deadened.stackDepth = c.stackDepth := by
  unfold Control.deadened
  split <;> rfl

theorem Context.markDead_eq (ctx : Context) :
    ctx.markDead = { ctx.modifyCurrent Control.deadened with live := false } := rfl

/-- The construct `c` is what a listener that calls more code dead leaves of `v`. -/
structure Control.Narrows (v c : Control) : Prop where
  bare : c.bare = v.bare
  unreachable : c.isUnreachable = v.isUnreachable
  reachable : c.isReachable = true → v.isReachable = true
  ended : c.endMerge.reached = true → v.endMerge.reached = true
  loop : c.isLoop = true → c.endMerge.reached = false

namespace Control.Narrows

variable {v c : Control}

section

variable (h : v.Narrows c)
include h

theorem kind : c.kind = v.kind := congrArg (·.kind) h.bare

theorem stackDepth : c.stackDepth = v.stackDepth := congrArg (·.stackDepth) h.bare

theorem params : c.startMerge.types = v.startMerge.types := congrArg (·.startMerge.types) h.bare

theorem results : c.endMerge.types = v.endMerge.types := congrArg (·.endMerge.types) h.bare

theorem pc : c.pc = v.pc := congrArg (·.pc) h.bare

theorem isLoop : c.isLoop = v.isLoop := by simp [Control.isLoop, h.kind]

theorem label : c.branchMerge.types = v.branchMerge.types := by
  simp only [Control.branchMerge, h.isLoop]
  split
  · exact h.params
  · exact h.results

end

/-- A new construct. -/
theorem refl (hloop : c.isLoop = true → c.endMerge.reached = false) :
    c.Narrows c := ⟨rfl, rfl, id, id, hloop⟩

section

variable (h : v.Narrows c)
include h

theorem markBranch_left : v.markBranch.Narrows c := by
  unfold Control.markBranch
  split
  · exact ⟨h.bare, h.unreachable, h.reachable, h.ended, h.loop⟩
  · exact ⟨h.bare, h.unreachable, h.reachable, fun _ => rfl, h.loop⟩

theorem markBranch : v.markBranch.Narrows c.markBranch := by
  unfold Control.markBranch
  rw [h.isLoop]
  split
  next hl => exact ⟨h.bare, h.unreachable, h.reachable, h.ended, h.loop⟩
  next hl =>
    exact ⟨h.bare, h.unreachable, h.reachable, fun _ => rfl, fun hc => absurd (h.isLoop ▸ hc) hl⟩

theorem markEnd_left :
    v.markEnd.Narrows c := ⟨h.bare, h.unreachable, h.reachable, fun _ => rfl, h.loop⟩

theorem markEnd (hloop : c.isLoop = false) : v.markEnd.Narrows c.markEnd :=
  ⟨h.bare, h.unreachable, h.reachable, fun _ => rfl, fun hc => by
    have : c.isLoop = true := hc
    rw [hloop] at this
    cases this⟩

/-- The second listener calls the construct dead. -/
theorem deadened : v.Narrows c.deadened := by
  unfold Control.deadened
  split
  next hr =>
    have hv := h.reachable hr
    refine ⟨h.bare, ?_, fun hc => by simp [Control.isReachable] at hc, h.ended, h.loop⟩
    simp only [Control.isReachable, beq_iff_eq] at hv
    simp [Control.isUnreachable, hv]
  next => exact h

/-- Both listeners call the construct dead. -/
theorem deadened_both : v.deadened.Narrows c.deadened := by
  have hc := h.deadened
  rcases hr : v.reachability <;>
    simp only [Control.deadened, Control.isReachable, hr, beq_self_eq_true, if_true,
      reduceCtorEq, beq_iff_eq, if_false] at hc ⊢
  · refine ⟨hc.bare, ?_, ?_, hc.ended, hc.loop⟩
    · rw [hc.unreachable]
      simp [Control.isUnreachable, hr]
    · intro hreach
      split at hreach
      · cases hreach
      next hnot => simp [Control.isReachable, hnot] at hreach
  · exact hc
  · exact hc

theorem setReachability {r r' : Reachability}
    (hr : r' = .reachable → r = .reachable) (hu : r' = .unreachable ↔ r = .unreachable) :
    Narrows { v with reachability := r } { c with reachability := r' } := by
  refine ⟨h.bare, ?_, ?_, h.ended, h.loop⟩
  · rw [Bool.eq_iff_iff]
    simpa [Control.isUnreachable] using hu
  · simpa [Control.isReachable] using hr

end

end Control.Narrows

/-- Whether the operand at a height belongs to a reachable construct. -/
def ReachableAt (control : List Control) (i : Nat) : Prop :=
  ∃ d, control.find? (fun d => d.stackDepth ≤ i) = some d ∧ d.isReachable = true

variable {i : Nat}

theorem reachableAt_cons {d : Control} {ds : List Control} : ReachableAt (d :: ds) i ↔
      if d.stackDepth ≤ i then d.isReachable = true else ReachableAt ds i := by
  by_cases h : d.stackDepth ≤ i <;> simp [ReachableAt, h]

/-- The constructs have the same heights, and the same ones are reachable. -/
def SameHeights (cs ds : List Control) : Prop :=
  ds.map (fun d => (d.stackDepth, d.isReachable)) = cs.map fun c => (c.stackDepth, c.isReachable)

variable {cs ds : List Control}

theorem SameHeights.reachableAt (h : SameHeights cs ds) (hr : ReachableAt ds i) :
    ReachableAt cs i := by
  induction cs generalizing ds with
  | nil =>
    rw [map_eq_nil_iff.1 h] at hr
    exact hr
  | cons c cs ih =>
    obtain ⟨d, ds, rfl, hd, hds⟩ := map_eq_cons_iff.1 h
    obtain ⟨hdepth, hreach⟩ := Prod.mk.inj hd
    rw [reachableAt_cons, hdepth, hreach] at hr
    rw [reachableAt_cons]
    split at hr
    next hle => rwa [if_pos hle]
    next hle =>
      rw [if_neg hle]
      exact ih hds hr

theorem SameHeights.head (h : SameHeights cs ds) :
    (ds.getD 0 default).stackDepth = (cs.getD 0 default).stackDepth ∧
      (ds.getD 0 default).isReachable = (cs.getD 0 default).isReachable := by
  cases cs with
  | nil =>
    rw [map_eq_nil_iff.1 h]
    exact ⟨rfl, rfl⟩
  | cons c cs =>
    obtain ⟨d, ds, rfl, hd, -⟩ := map_eq_cons_iff.1 h
    exact Prod.mk.inj hd

/-- The state `c` of a run whose listener calls more code dead than that of `v`, the operands of the
innermost construct aside. -/
structure Outer (trusted : Bool) (v c : Context) : Prop where
  mode : v.options.trusted = trusted
  setting : v.SameSetting c
  opcode : c.opcode = v.opcode
  opened : c.control ≠ []
  narrows : Forall₂ Control.Narrows v.control c.control
  nested : c.control.Pairwise fun inner outer => outer.stackDepth ≤ inner.stackDepth
  base : c.current.stackDepth ≤ c.stack.size
  base' : c.current.stackDepth ≤ v.stack.size
  types : trusted = false → ∀ i < c.current.stackDepth,
    c.stack[i]?.map Value.ty = v.stack[i]?.map Value.ty
  /-- The operands of reachable constructs are the same. -/
  values : ∀ i < c.current.stackDepth, ReachableAt c.control i → c.stack[i]? = v.stack[i]?

/-- The same with the operands of the innermost construct. -/
structure Kin (trusted : Bool) (v c : Context) : Prop extends Outer trusted v c where
  size : c.stack.size = v.stack.size
  innerTypes : trusted = false → ∀ i, c.current.stackDepth ≤ i →
    c.stack[i]?.map Value.ty = v.stack[i]?.map Value.ty
  innerValues : c.current.isReachable = true → ∀ i, c.current.stackDepth ≤ i →
    c.stack[i]? = v.stack[i]?

/-- Both runs have closed the body. -/
structure Ended (v c : Context) : Prop where
  control : v.control = []
  control' : c.control = []
  pc : c.pc = v.pc

/-- Between instructions code is live where it is reachable. -/
structure Twins (trusted : Bool) (v c : Context) : Prop extends Kin trusted v c where
  live : v.live = v.current.isReachable
  live' : c.live = c.current.isReachable

theorem Context.current_modifyCurrent {ctx : Context} (h : ctx.control ≠ [])
    (g : Control → Control) : (ctx.modifyCurrent g).current = g ctx.current := by
  unfold Context.modifyCurrent Context.modifyControl Context.current Context.controlAt
  cases hc : ctx.control with
  | nil => exact absurd hc h
  | cons d ds => rfl

@[simp] theorem Context.modifyCurrent_id (ctx : Context) : ctx.modifyCurrent id = ctx := by
  simp [Context.modifyCurrent, Context.modifyControl]

variable {trusted : Bool} {v c : Context} {g k : Control → Control} {s t : Array Value}

namespace Outer

section

variable (h : Outer trusted v c)
include h

theorem split : ∃ x xs y ys, v.control = x :: xs ∧ c.control = y :: ys ∧ x.Narrows y ∧
      Forall₂ Control.Narrows xs ys ∧ v.current = x ∧ c.current = y := by
  have hn := h.narrows
  cases hv : v.control with
  | nil =>
    rw [hv, forall₂_nil_left_iff] at hn
    exact absurd hn h.opened
  | cons x xs =>
    rw [hv] at hn
    obtain ⟨y, ys, hxy, hrest, hc⟩ := forall₂_cons_left_iff.1 hn
    exact ⟨x, xs, y, ys, rfl, hc, hxy, hrest, by simp [Context.current, Context.controlAt, hv],
      by simp [Context.current, Context.controlAt, hc]⟩

theorem opened' : v.control ≠ [] := by
  obtain ⟨x, xs, y, ys, hv, -⟩ := h.split
  exact hv ▸ cons_ne_nil x xs

theorem controlAt (depth : Nat) : (v.controlAt depth).Narrows (c.controlAt depth) := by
  unfold Context.controlAt
  have hn := h.narrows
  generalize v.control = vs at hn
  generalize c.control = cs at hn
  induction hn generalizing depth with
  | nil => exact .refl fun h => by cases h
  | cons hd _ ih =>
    cases depth with
    | zero => exact hd
    | succ depth => exact ih depth

theorem current : v.current.Narrows c.current := h.controlAt 0

/-- What happens to the innermost construct and its operands leaves all else alone. -/
theorem update (l l' : Bool) (hnarrows : (g v.current).Narrows (k c.current))
    (hdepth : (k c.current).stackDepth = c.current.stackDepth)
    (hbase : c.current.stackDepth ≤ t.size) (hbase' : c.current.stackDepth ≤ s.size)
    (hbelow : ∀ i < c.current.stackDepth, t[i]? = c.stack[i]? ∧ s[i]? = v.stack[i]?) :
    Outer trusted { v.modifyCurrent g with stack := s, live := l }
      { c.modifyCurrent k with stack := t, live := l' } := by
  obtain ⟨x, xs, y, ys, hv, hc, -, hrest, hx, hy⟩ := h.split
  have hv' : (v.modifyCurrent g).control = g x :: xs := by
    simp [Context.modifyCurrent, Context.modifyControl, hv]
  have hc' : (c.modifyCurrent k).control = k y :: ys := by
    simp [Context.modifyCurrent, Context.modifyControl, hc]
  have hcurrent : Context.current { c.modifyCurrent k with stack := t, live := l' } =
      k c.current := Context.current_modifyCurrent h.opened k
  constructor
  case mode => exact h.mode
  case setting =>
    exact ⟨h.setting.1, h.setting.2, h.setting.3, h.setting.4, h.setting.5, h.setting.6⟩
  case opcode => exact h.opcode
  case opened => exact hc' ▸ cons_ne_nil _ _
  case narrows =>
    simp only [hv', hc']
    exact .cons (hx ▸ hy ▸ hnarrows) hrest
  case nested =>
    have := h.nested
    rw [hc, pairwise_cons] at this
    simp only [hc', pairwise_cons]
    rw [hy] at hdepth
    exact ⟨hdepth ▸ this.1, this.2⟩
  case base => rwa [hcurrent, hdepth]
  case base' => rwa [hcurrent, hdepth]
  case types =>
    intro ht i hi
    rw [hcurrent, hdepth] at hi
    change t[i]?.map _ = s[i]?.map _
    rw [(hbelow i hi).1, (hbelow i hi).2]
    exact h.types ht i hi
  case values =>
    intro i hi hr
    rw [hcurrent, hdepth] at hi
    change t[i]? = s[i]?
    rw [(hbelow i hi).1, (hbelow i hi).2]
    refine h.values i hi ?_
    rw [hy] at hi hdepth
    simp only [hc', reachableAt_cons, hdepth, Nat.not_le.2 hi, if_false] at hr
    simpa only [hc, reachableAt_cons, Nat.not_le.2 hi, if_false] using hr

/-- Constructs change in what they say of branches to them. -/
theorem recontrol {vs cs : List Control} (hnarrows : Forall₂ Control.Narrows vs cs)
    (hsame : SameHeights c.control cs) :
      Outer trusted { v with control := vs } { c with control := cs } := by
  have hdepth : (Context.current { c with control := cs }).stackDepth = c.current.stackDepth :=
    hsame.head.1
  constructor
  case mode => exact h.mode
  case setting =>
    exact ⟨h.setting.1, h.setting.2, h.setting.3, h.setting.4, h.setting.5, h.setting.6⟩
  case opcode => exact h.opcode
  case opened =>
    intro hnil
    have hmap : cs = [] := hnil
    rw [hmap, SameHeights] at hsame
    exact h.opened (map_eq_nil_iff.1 hsame.symm)
  case narrows => exact hnarrows
  case nested =>
    have hp := h.nested
    have hdepths := congrArg (List.map Prod.fst) hsame
    rw [map_map, map_map] at hdepths
    have hpair : (c.control.map Control.stackDepth).Pairwise fun a b => b ≤ a := pairwise_map.2 hp
    exact pairwise_map.1 (hdepths ▸ hpair : (cs.map Control.stackDepth).Pairwise _)
  case base => exact hdepth ▸ h.base
  case base' => exact hdepth ▸ h.base'
  case types =>
    rw [hdepth]
    exact h.types
  case values =>
    rw [hdepth]
    exact fun i hi hr => h.values i hi (hsame.reachableAt hr)

theorem setLive (l l' : Bool) : Outer trusted { v with live := l } { c with live := l' } :=
  ⟨h.mode, ⟨h.setting.1, h.setting.2, h.setting.3, h.setting.4, h.setting.5, h.setting.6⟩, h.opcode,
    h.opened, h.narrows, h.nested, h.base, h.base', h.types, h.values⟩

end

end Outer

namespace Kin

theorem available (h : Kin trusted v c) : c.available = v.available := by
  simp only [Context.available, h.size, h.current.stackDepth]

theorem types_eq (h : Kin trusted v c) (ht : trusted = false) : c.types = v.types := by
  unfold Context.types
  rw [reverse_inj]
  apply ext_getElem?
  intro i
  by_cases hi : c.current.stackDepth ≤ i
  · simpa using h.innerTypes ht i hi
  · simpa using h.types ht i (Nat.lt_of_not_le hi)

theorem update (h : Outer trusted v c) (l l' : Bool)
    (hnarrows : (g v.current).Narrows (k c.current))
    (hdepth : (k c.current).stackDepth = c.current.stackDepth)
    (hbase : c.current.stackDepth ≤ t.size) (hsize : t.size = s.size)
    (hbelow : ∀ i < c.current.stackDepth, t[i]? = c.stack[i]? ∧ s[i]? = v.stack[i]?)
    (htypes : trusted = false → ∀ i, c.current.stackDepth ≤ i →
      t[i]?.map Value.ty = s[i]?.map Value.ty)
    (hvalues : (k c.current).isReachable = true → ∀ i, c.current.stackDepth ≤ i → t[i]? = s[i]?) :
    Kin trusted { v.modifyCurrent g with stack := s, live := l }
      { c.modifyCurrent k with stack := t, live := l' } := by
  have hcurrent : Context.current { c.modifyCurrent k with stack := t, live := l' } =
      k c.current := Context.current_modifyCurrent h.opened k
  refine ⟨h.update l l' hnarrows hdepth hbase (hsize ▸ hbase) hbelow, hsize, ?_, ?_⟩
  · rw [hcurrent, hdepth]
    exact htypes
  · rw [hcurrent, hdepth]
    exact hvalues

/-- The operands of the innermost construct change. -/
theorem restack (h : Outer trusted v c) (hbase : c.current.stackDepth ≤ t.size)
    (hsize : t.size = s.size)
    (hbelow : ∀ i < c.current.stackDepth, t[i]? = c.stack[i]? ∧ s[i]? = v.stack[i]?)
    (htypes : trusted = false → ∀ i, c.current.stackDepth ≤ i →
      t[i]?.map Value.ty = s[i]?.map Value.ty)
    (hvalues : c.current.isReachable = true → ∀ i, c.current.stackDepth ≤ i → t[i]? = s[i]?) :
    Kin trusted { v with stack := s } { c with stack := t } := by
  have hk := update h (g := id) (k := id) v.live c.live h.current rfl hbase hsize hbelow htypes
    hvalues
  rwa [Context.modifyCurrent_id, Context.modifyCurrent_id] at hk

section

variable (h : Kin trusted v c)
include h

/-- The innermost construct changes. -/
theorem rehead (l l' : Bool) (hnarrows : (g v.current).Narrows (k c.current))
    (hdepth : (k c.current).stackDepth = c.current.stackDepth)
    (hvalues : (k c.current).isReachable = true → c.current.isReachable = true) :
    Kin trusted { v.modifyCurrent g with live := l } { c.modifyCurrent k with live := l' } :=
  update (s := v.stack) (t := c.stack) h.toOuter l l' hnarrows hdepth h.base h.size
    (fun _ _ => ⟨rfl, rfl⟩) h.innerTypes fun hr => h.innerValues (hvalues hr)

theorem recontrol {vs cs : List Control}
    (hnarrows : Forall₂ Control.Narrows vs cs) (hsame : SameHeights c.control cs) :
    Kin trusted { v with control := vs } { c with control := cs } := by
  have hhead : (Context.current { c with control := cs }).stackDepth = c.current.stackDepth ∧
      (Context.current { c with control := cs }).isReachable = c.current.isReachable := hsame.head
  refine ⟨h.toOuter.recontrol hnarrows hsame, h.size, ?_, ?_⟩
  · rw [hhead.1]
    exact h.innerTypes
  · rw [hhead.1, hhead.2]
    exact h.innerValues

theorem setLive (l l' : Bool) : Kin trusted { v with live := l } { c with live := l' } :=
  ⟨h.toOuter.setLive l l', h.size, h.innerTypes, h.innerValues⟩

/-- Code is live again where it is reachable. -/
theorem wake {l l' : Bool} (hl : l = v.current.isReachable)
    (hl' : l' = c.current.isReachable) : Twins trusted { v with live := l } { c with live := l' } :=
  ⟨h.setLive l l', hl, hl'⟩

end

end Kin

theorem Outer.rehead (h : Outer trusted v c) (hnarrows : (g v.current).Narrows (k c.current))
    (hdepth : (k c.current).stackDepth = c.current.stackDepth) :
    Outer trusted (v.modifyCurrent g) (c.modifyCurrent k) :=
  h.update (s := v.stack) (t := c.stack) v.live c.live hnarrows hdepth h.base h.base' fun _ _ =>
    ⟨rfl, rfl⟩

theorem Kin.markDead (h : Kin trusted v c) : Kin trusted v c.markDead := by
  have hk := h.rehead (g := id) v.live false h.current.deadened (Control.stackDepth_deadened _)
    fun hr => by simp at hr
  rwa [Context.modifyCurrent_id] at hk

namespace Twins

theorem reports (h : Twins trusted v c) : c.live = true → v.live = true := by
  rw [h.live, h.live']
  exact h.current.reachable

theorem markDead (h : Twins trusted v c) : Twins trusted v c.markDead := by
  refine ⟨h.toKin.markDead, h.live, ?_⟩
  rw [Context.markDead_eq]
  change false = (c.modifyCurrent Control.deadened).current.isReachable
  rw [Context.current_modifyCurrent h.opened, Control.isReachable_deadened]

end Twins

/-- The states `v'` and `c'` come from `v` and `c` by a change of operands. -/
structure Kept (trusted : Bool) (v c v' c' : Context) : Prop extends Kin trusted v' c' where
  control : v'.control = v.control
  control' : c'.control = c.control
  live : v'.live = v.live
  live' : c'.live = c.live

namespace Kept

variable {v' c' : Context}

theorem refl (h : Kin trusted v c) : Kept trusted v c v c := ⟨h, rfl, rfl, rfl, rfl⟩

section

variable (h : Kept trusted v c v' c')
include h

theorem trans {v'' c'' : Context} (h' : Kept trusted v' c' v'' c'') : Kept trusted v c v'' c'' :=
  ⟨h'.toKin, h'.control.trans h.control, h'.control'.trans h.control', h'.live.trans h.live,
    h'.live'.trans h.live'⟩

theorem current_eq : v'.current = v.current ∧ c'.current = c.current := by
  simp only [Context.current, Context.controlAt, h.control, h.control', and_self]

theorem twins (ht : Twins trusted v c) : Twins trusted v' c' :=
  ⟨h.toKin, by rw [h.live, h.current_eq.1, ht.live], by rw [h.live', h.current_eq.2, ht.live']⟩

end

end Kept

namespace Kin

/-- The same operand is pushed. -/
theorem push (h : Kin trusted v c) {ty ty' : ValueType}
    (hreach : c.current.isReachable = true → ty = ty') (hty : trusted = false → ty = ty') :
    Kept trusted v c { v with stack := v.stack.push ⟨ty, v.pc⟩ }
      { c with stack := c.stack.push ⟨ty', c.pc⟩ } := by
  refine ⟨Kin.restack h.toOuter ?_ ?_ ?_ ?_ ?_, rfl, rfl, rfl, rfl⟩
  · rw [Array.size_push]
    exact Nat.le_succ_of_le h.base
  · simp [h.size]
  · intro i hi
    have hlt := Nat.lt_of_lt_of_le hi h.base
    have hlt' := Nat.lt_of_lt_of_le hi h.base'
    simp [Array.getElem?_push, Nat.ne_of_lt hlt, Nat.ne_of_lt hlt']
  · intro ht i hi
    rw [Array.getElem?_push, Array.getElem?_push, h.size, hty ht]
    split
    · rfl
    · exact h.innerTypes ht i hi
  · intro hr i hi
    rw [Array.getElem?_push, Array.getElem?_push, h.size, h.setting.pc, hreach hr]
    split
    · rfl
    · exact h.innerValues hr i hi

theorem pushAll (h : Kin trusted v c) (types : List ValueType) :
    ∃ xs v' c', Check.pushAll types v = .ok (xs, v') ∧ Check.pushAll types c = .ok (xs, c') ∧
      Kept trusted v c v' c' := by
  induction types generalizing v c with
  | nil => exact ⟨[], v, c, rfl, rfl, .refl h⟩
  | cons ty types ih =>
    have kept := h.push (fun _ => @rfl _ ty) fun _ => rfl
    obtain ⟨xs, v', c', hv, hc, kept'⟩ := ih kept.toKin
    have hcons : ∀ {ctx ctx' : Context} {xs : List Value},
        Check.pushAll types { ctx with stack := ctx.stack.push ⟨ty, ctx.pc⟩ } = .ok (xs, ctx') →
        Check.pushAll (ty :: types) ctx = .ok (⟨ty, ctx.pc⟩ :: xs, ctx') := by
      intro ctx ctx' xs hrest
      unfold Check.pushAll at hrest ⊢
      rw [mapM_cons]
      change (mapM Check.push types { ctx with stack := ctx.stack.push ⟨ty, ctx.pc⟩ } >>=
        fun p => (.ok (⟨ty, ctx.pc⟩ :: p.1, p.2) : Except DecodeError _)) = _
      rw [hrest]
      rfl
    exact ⟨⟨ty, v.pc⟩ :: xs, v', c', hcons hv, h.setting.pc ▸ hcons hc, kept.trans kept'⟩

end Kin

end OnePass
