import OnePass.Proofs.LoweringFinish
import OnePass.Proofs.StackDiscipline

/-!
The decoder and code generation side by side. The slots are the locals and the decoder's operands,
apart from operands that wait for a branch. Code generation knows of the constructs that were opened
in live code: those whose enclosing construct is reachable.
-/
namespace OnePass

open List

/-- As many types, and the same ones where operands are well typed. -/
structure Regime.Agree (R : Regime) (ts us : List ValueType) : Prop where
  length : ts.length = us.length
  same : R.typed → ts = us

namespace Regime.Agree

variable {R : Regime} {ts ts' us us' vs : List ValueType} {u : ValueType}

theorem refl (R : Regime) (ts : List ValueType) : R.Agree ts ts := ⟨rfl, fun _ => rfl⟩

theorem trans (h : R.Agree ts us) (h' : R.Agree us vs) : R.Agree ts vs :=
  ⟨h.length.trans h'.length, fun ht => (h.same ht).trans (h'.same ht)⟩

theorem append (h : R.Agree ts us) (h' : R.Agree ts' us') : R.Agree (ts ++ ts') (us ++ us') :=
  ⟨by simp [h.length, h'.length], fun ht => by rw [h.same ht, h'.same ht]⟩

theorem single {t : ValueType} (h : R.typed → t = u) :
    R.Agree [t] [u] := ⟨rfl, fun ht => by rw [h ht]⟩

theorem take (h : R.Agree ts us) (n : Nat) : R.Agree (ts.take n) (us.take n) :=
  ⟨by simp [h.length], fun ht => by rw [h.same ht]⟩

theorem drop (h : R.Agree ts us) (n : Nat) : R.Agree (ts.drop n) (us.drop n) :=
  ⟨by simp [h.length], fun ht => by rw [h.same ht]⟩

theorem split (h : R.Agree ts (us ++ vs)) : ∃ ts₁ ts₂, ts = ts₁ ++ ts₂ ∧ R.Agree ts₁ us ∧
    R.Agree ts₂ vs := by
  refine ⟨ts.take us.length, ts.drop us.length, (take_append_drop ..).symm, ?_, ?_⟩
  · have htake := h.take us.length
    rwa [take_left] at htake
  · have hdrop := h.drop us.length
    rwa [drop_left] at hdrop

theorem split_last (h : R.Agree ts (us ++ [u])) :
    ∃ ts' t, ts = ts' ++ [t] ∧ R.Agree ts' us ∧ (R.typed → t = u) := by
  obtain ⟨ts', top, rfl, hrest, htop⟩ := h.split
  obtain ⟨t, rfl⟩ := length_eq_one_iff.1 htop.length
  exact ⟨ts', t, rfl, hrest, fun ht => by simpa using htop.same ht⟩

/-- A branch leaves what the label asks for. -/
theorem merge {locals stack types : List ValueType} {depth : Nat} (h : R.Agree ts (locals ++ stack))
    (htop : R.Agree (stack.drop (stack.length - types.length)) types)
    (hlength : types.length ≤ stack.length) :
    R.Agree (Lowering.mergeTypes locals.length ts types.length depth)
      (locals ++ stack.take depth ++ types) := by
  have hunder := h.take (locals.length + depth)
  have hover := h.drop (ts.length - types.length)
  rw [take_length_add_append] at hunder
  have hsize : ts.length - types.length = locals.length + (stack.length - types.length) := by
    rw [h.length, length_append]
    omega
  rw [hsize, drop_length_add_append] at hover
  rw [Lowering.mergeTypes, hsize]
  exact hunder.append (hover.trans htop)

end Regime.Agree

/-- The types of operands that pass for expected ones. -/
theorem Accepts.same {R : Regime} {trusted : Bool} {expected : ValueType} {v : Value}
    (h : Accepts trusted expected v) (hfull : R.typed → trusted = false)
    (hexpected : R.allows expected) (hv : R.allows v.ty) : R.typed → v.ty = expected := by
  intro ht
  rcases h with h | h | h
  · rw [hfull ht] at h
    cases h
  · exact (R.strict ht _ hexpected h).elim
  · simpa [ValueType.isSubtypeOf, R.strict ht _ hv] using h

variable {p : Prop}

namespace Lowering

/-- What code generation knows of a construct that was opened above slots of the types `under`. -/
structure Tracks (R : Regime) (e : Emitter) (under : List ValueType) (c : Control)
    (d : ControlData) : Prop where
  kind : c.isTry = false
  /-- It is decided where values are left once something branches there. -/
  decided : d.labelState.isSome = (c.isLoop || c.endMerge.reached)
  state : ∀ t, d.labelState = some t → R.Agree t.types (under ++ c.branchMerge.types)
  loop : c.isLoop = true → e.isBound d.label = true ∧ c.endMerge.reached = false
  arm : d.elseArm.isSome = c.isOneArmedIf
  armState : ∀ arm, d.elseArm = some arm → R.Agree arm.state.types (under ++ c.startMerge.types)

/-- The open constructs of the decoder and those of code generation. The outermost one has no label
that code branches to. -/
inductive Mirrors (R : Regime) (e : Emitter) (locals stack results : List ValueType) :
    List Control → List ControlData → Prop
  | body {c : Control} {label : Label} (hkind : c.kind = .block)
    (hresults : c.endMerge.types = results) :
    Mirrors R e locals stack results [c] [{ label }]
  | untold {c p : Control} {outer : List Control} {ds : List ControlData}
    (hparent : p.isReachable = false) (h : Mirrors R e locals stack results (p :: outer) ds) :
    Mirrors R e locals stack results (c :: p :: outer) ds
  | told {c p : Control} {outer : List Control} {d : ControlData} {ds : List ControlData}
    (hparent : p.isReachable = true) (hd : Tracks R e (locals ++ stack.take c.stackDepth) c d)
    (h : Mirrors R e locals stack results (p :: outer) ds) :
    Mirrors R e locals stack results (c :: p :: outer) (d :: ds)

variable {R : Regime} {e e' : Emitter} {under locals stack stack' results : List ValueType}
  {c c' : Control} {d : ControlData} {control outer : List Control} {ds ds' : List ControlData}

/-- Only kinds, heights and types matter. -/
theorem Tracks.congr (h : Tracks R e under c d) (hkind : c'.kind = c.kind)
    (hstart : c'.startMerge.types = c.startMerge.types) (hend : c'.endMerge = c.endMerge) :
    Tracks R e under c' d := by
  have hloop : c'.isLoop = c.isLoop := by rw [Control.isLoop, hkind, Control.isLoop]
  refine ⟨?_, ?_, fun t ht => ?_, fun hl => ?_, ?_, fun arm harm => ?_⟩
  · simpa only [Control.isTry, hkind] using h.kind
  · rw [hloop, hend]
    exact h.decided
  · have hmerge : c'.branchMerge.types = c.branchMerge.types := by
      rw [Control.branchMerge, hloop, hend, Control.branchMerge]
      split
      · exact hstart
      · rfl
    rw [hmerge]
    exact h.state t ht
  · rw [hend]
    exact h.loop (hloop ▸ hl)
  · rw [h.arm, Control.isOneArmedIf, Control.isOneArmedIf, hkind]
  · rw [hstart]
    exact h.armState arm harm

theorem Tracks.mono (h : Tracks R e under c d)
    (hbound : ∀ l, e.isBound l = true → e'.isBound l = true) : Tracks R e' under c d :=
  ⟨h.kind, h.decided, h.state, fun hl => ⟨hbound _ (h.loop hl).1, (h.loop hl).2⟩, h.arm, h.armState⟩

namespace Mirrors

theorem mono (h : Mirrors R e locals stack results control ds)
    (hbound : ∀ l, e.isBound l = true → e'.isBound l = true) :
    Mirrors R e' locals stack results control ds := by
  induction h with
  | body hkind hresults => exact .body hkind hresults
  | untold hparent _ ih => exact .untold hparent ih
  | told hparent hd _ ih => exact .told hparent (hd.mono hbound) ih

/-- What lies above the open constructs does not matter. -/
theorem restack (h : Mirrors R e locals stack results control ds)
    (hstack : ∀ c ∈ control, stack'.take c.stackDepth = stack.take c.stackDepth) :
    Mirrors R e locals stack' results control ds := by
  induction h with
  | body hkind hresults => exact .body hkind hresults
  | untold hparent _ ih => exact .untold hparent (ih fun c hc => hstack c (mem_cons_of_mem _ hc))
  | told hparent hd _ ih =>
    refine .told hparent ?_ (ih fun c hc => hstack c (mem_cons_of_mem _ hc))
    rw [hstack _ mem_cons_self]
    exact hd

/-- The innermost construct may become unreachable. -/
theorem head (h : Mirrors R e locals stack results (c :: outer) ds) (hkind : c'.kind = c.kind)
    (hdepth : c'.stackDepth = c.stackDepth) (hstart : c'.startMerge.types = c.startMerge.types)
    (hend : c'.endMerge = c.endMerge) : Mirrors R e locals stack results (c' :: outer) ds := by
  cases h with
  | body hbody hresults => exact .body (hkind.trans hbody) (by rw [hend]; exact hresults)
  | untold hparent h => exact .untold hparent h
  | told hparent hd h =>
    refine .told hparent ?_ h
    rw [hdepth]
    exact hd.congr hkind hstart hend

theorem length (h : Mirrors R e locals stack results control ds)
    (hreach : ∀ p ∈ control.tail, p.isReachable = true) : ds.length = control.length := by
  induction h with
  | body => rfl
  | untold hparent _ _ =>
    rw [hreach _ mem_cons_self] at hparent
    cases hparent
  | told _ _ _ ih => exact congrArg (· + 1) (ih fun p hp => hreach p (mem_cons_of_mem _ hp))

end Mirrors

/-- Branches to a construct are noted on both sides. -/
theorem Tracks.decide {types : List ValueType} {d' : ControlData} {marked : Bool}
    (h : Tracks R e under c d) (hd : d.Decides p types d') (hmarked : marked = true ↔ p)
    (htypes : p → R.Agree types (under ++ c.branchMerge.types)) :
    Tracks R e under (if marked then c.markBranch else c) d' := by
  obtain ⟨hstart, hend, hkind, -, -⟩ := c.markBranch_types
  obtain ⟨c', hc'⟩ : ∃ c', c' = if marked then c.markBranch else c := ⟨_, rfl⟩
  have hsame : c'.kind = c.kind ∧ c'.startMerge.types = c.startMerge.types ∧
      c'.endMerge.types = c.endMerge.types := by
    rw [hc']
    split
    · exact ⟨hkind, hstart, hend⟩
    · exact ⟨rfl, rfl, rfl⟩
  have hloop : c'.isLoop = c.isLoop := by rw [Control.isLoop, hsame.1, Control.isLoop]
  have hreached : (c'.isLoop || c'.endMerge.reached) =
      (c.isLoop || c.endMerge.reached || marked) := by
    rw [hloop, hc']
    cases marked <;> cases hl : c.isLoop <;> simp [Control.markBranch, hl]
  have hmerge : c'.branchMerge.types = c.branchMerge.types := by
    rw [Control.branchMerge, hloop, Control.branchMerge]
    split
    · exact hsame.2.1
    · exact hsame.2.2
  rw [← hc']
  refine ⟨?_, ?_, fun t ht => ?_, fun hl => ?_, ?_, fun arm harm => ?_⟩
  · simpa only [Control.isTry, hsame.1] using h.kind
  · rw [hreached, ← h.decided]
    rcases hd.state with ⟨hstate, hsome⟩ | ⟨hp, -, t, ht, -⟩
    · rw [hstate]
      cases hm : marked with
      | false => rw [Bool.or_false]
      | true => rw [hsome (hmarked.1 hm), Bool.or_true]
    · rw [ht, hmarked.2 hp, Bool.or_true]
      rfl
  · rw [hmerge]
    rcases hd.state with ⟨hstate, -⟩ | ⟨hp, -, t', ht', htypes'⟩
    · exact h.state t (hstate ▸ ht)
    · cases ht'.symm.trans ht
      rw [htypes']
      exact htypes hp
  · rw [hd.label, hc']
    refine ⟨(h.loop (hloop ▸ hl)).1, ?_⟩
    split
    · rw [Control.markBranch, if_pos (hloop ▸ hl)]
      exact (h.loop (hloop ▸ hl)).2
    · exact (h.loop (hloop ▸ hl)).2
  · rw [hd.elseArm, h.arm, Control.isOneArmedIf, Control.isOneArmedIf, hsame.1]
  · rw [hsame.2.1]
    exact h.armState arm (hd.elseArm ▸ harm)

/-- The same for all constructs at once. -/
theorem Mirrors.decide {p : Nat → Prop} {types : Nat → List ValueType} {marked : Nat → Bool}
    (h : Mirrors R e locals stack results control ds)
    (hreach : ∀ q ∈ control.tail, q.isReachable = true)
    (hds : Decides (fun k => p k ∧ k + 1 < control.length) types ds ds')
    (hmarked : ∀ k, marked k = true ↔ p k)
    (htypes : ∀ k c, p k → control[k]? = some c → k + 1 < control.length →
      R.Agree (types k) (locals ++ stack.take c.stackDepth ++ c.branchMerge.types)) :
    Mirrors R e locals stack results
      (control.mapIdx fun k c => if marked k then c.markBranch else c) ds' := by
  induction h generalizing p types marked ds' with
  | @body c label hkind hresults =>
    cases hds with
    | cons head tail =>
      cases tail
      obtain ⟨-, hend, hkind', -, -⟩ := c.markBranch_types
      rename_i d'
      have hd' : d' = { label } := by
        obtain ⟨label', state, arm⟩ := d'
        have hstate : state = none := by
          rcases head.state with ⟨hsame, -⟩ | ⟨⟨-, hlt⟩, -⟩
          · exact hsame
          · exact absurd hlt (by simp)
        have hlabel : label' = label := head.label
        have harm : arm = none := head.elseArm
        rw [hstate, hlabel, harm]
      rw [hd']
      simp only [mapIdx_cons, mapIdx_nil]
      split
      · exact .body (hkind'.trans hkind) (hend.trans hresults)
      · exact .body hkind hresults
  | untold hparent _ _ =>
    rw [hreach _ mem_cons_self] at hparent
    cases hparent
  | @told c q outer d ds hparent hd _ ih =>
    cases hds with
    | cons head tail =>
      rw [mapIdx_cons, mapIdx_cons]
      obtain ⟨-, -, -, hdepth, hreachability⟩ := q.markBranch_types
      obtain ⟨-, -, -, hdepth', -⟩ := c.markBranch_types
      have hlength : 0 + 1 < (c :: q :: outer).length := by simp
      refine .told ?_ ?_ ?_
      · split
        · rw [Control.isReachable, hreachability]
          exact hparent
        · exact hparent
      · have hstay : (if marked 0 then c.markBranch else c).stackDepth = c.stackDepth := by
          split
          · exact hdepth'
          · rfl
        rw [hstay]
        exact hd.decide head ((hmarked 0).trans (and_iff_left hlength).symm)
          fun hp => htypes 0 c hp.1 rfl hlength
      · have hrest := @ih _ (fun k => p (k + 1)) (fun k => types (k + 1)) (fun k => marked (k + 1))
          (fun r hr => hreach r (mem_cons_of_mem _ hr)) (tail.mono fun k => by simp)
            (fun k => hmarked (k + 1))
          fun k r hp hr hlt => htypes (k + 1) r hp hr (by simpa using hlt)
        rwa [mapIdx_cons] at hrest

/-! ## States in lock step -/

/-- The types of the slots, up to operands that wait for a branch. -/
structure Standing (R : Regime) (us : List ValueType) (s : Lowering) : Prop where
  sound : ∃ is, s.Sound R is []
  slots : ∃ ts ps, s.emitter.state.types = ts ++ ps ∧ s.Awaits ps ∧ R.Agree ts us

end Lowering

/-- The types of the operands, the topmost last. -/
def Context.operandTypes (ctx : Context) : List ValueType := ctx.stack.toList.map Value.ty

open Lowering

/-- Both know of the same locals and constructs. -/
structure Mirrored (R : Regime) (ctx : Context) (s : Lowering) : Prop where
  locals : s.emitter.numLocals = ctx.locals.size
  control : Mirrors R s.emitter ctx.locals.toList ctx.operandTypes ctx.sig.results ctx.control
    s.control

/-- Between the decoder and code generation. In live code the slots stand for the locals and the
operands; in dead code nothing runs over the end of what was emitted. -/
structure LockStep (R : Regime) (ctx : Context) (s : Lowering) : Prop extends Mirrored R ctx s where
  live : ctx.live = ctx.current.isReachable
  stands : ctx.live = true → Standing R (ctx.locals.toList ++ ctx.operandTypes) s
  closes : ctx.live = false → Closes R [] s ∧ s.pendingTest = none

/-- After the last instruction nothing is left but to emit the slow paths. -/
structure Concluded (R : Regime) (s : Lowering) : Prop where
  closes : Closes R [] s
  control : ∃ label, s.control = [{ label }]

/-- After an instruction: a test waits only if a branch follows that uses it. -/
def InStep (R : Regime) (ctx : Context) (s : Lowering) : Prop :=
  (ctx.control ≠ [] ∧ LockStep R ctx s ∧ (s.pendingTest ≠ none → ctx.BranchesNext)) ∨
    (ctx.control = [] ∧ Concluded R s)

namespace Decode

variable {α β : Type} {R : Regime}

/-- The step with code generation listening: how it ends, and that it refuses nothing that it should
not. -/
abbrev Drives (R : Regime) (m : DecodeM Lowering α) (ctx : Context) (s : Lowering)
    (post : α → Context → Lowering → Prop) : Prop :=
  Meets R.Tolerates m ctx s post

namespace Drives

variable {ctx : Context} {s : Lowering} {e : Event} {post : Unit → Context → Lowering → Prop}

theorem of_tell (h : Upholds R (Lowering.handle ctx e) s fun reply s' =>
      post () (if reply = .dead then ctx.markDead else ctx) s') :
    Drives R (tell .compiler e) ctx s post :=
  Meets.of_tell (fun s' hr => h.ends .proceed s' hr) (fun s' hr => h.ends .dead s' hr)
    fun b s' hr => h.refused b s' hr

/-- The listener is told if the code is live. -/
theorem of_report (hlive : ctx.live = true → Upholds R (Lowering.handle ctx e) s fun reply s' =>
      post () (if reply = .dead then ctx.markDead else ctx) s')
    (hdead : ctx.live = false → post () ctx s) :
    Drives R (report .compiler e) ctx s post :=
  .get_bind (.ite (fun hl => of_tell (hlive hl)) fun hl => .of_pure (hdead (by simpa using hl)))

end Drives

end Decode

end OnePass
