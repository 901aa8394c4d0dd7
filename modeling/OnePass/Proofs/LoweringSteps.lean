import OnePass.Proofs.LoweringInvariant

/-!
The steps that every kind of instruction shares. Each is specified by the types of the slots and the
labels that are owed, before and after; everything else that a step keeps is said once, by `At`.
-/
namespace OnePass

open List

/-- The instruction neither branches nor calls, has no type and leaves the frame alone. -/
def Instr.isOperation {τ : Type} (i : Instr τ) : Bool :=
  i.isStraight && i.type?.isNone && i.frameOffsets.isEmpty

/-- Control never goes on to the next instruction. -/
def Instr.isExit {τ : Type} : Instr τ → Bool
  | jump _ | ret => true
  | _ => false

theorem Instr.isCall_of_isExit {τ : Type} {i : Instr τ} (h : i.isExit = true) :
    i.isCall = false := by
  cases i <;> first | rfl | cases h

namespace Lowering

variable {R : Regime} {s s' base : Lowering} {is : List (Instr Label)} {ls ls' : List Label}
  {l : Label} {i : Instr Label} {ts ts' as : List ValueType} {ty : ValueType} {pinned : RegSet}
  {n : Nat} {c : RegClass} {r : Reg}

/-- Code generation went on: what was handed out, bound or put off stays so. -/
structure Later (base s : Lowering) : Prop where
  numLocals : s.emitter.numLocals = base.emitter.numLocals
  room : base.emitter.state.maxOffset ≤ s.emitter.state.maxOffset
  bound : ∀ l, base.emitter.isBound l = true → s.emitter.isBound l = true
  paths : base.pathLabels ⊆ s.pathLabels

theorem Later.refl (s : Lowering) : s.Later s := ⟨rfl, Nat.le_refl _, fun _ => id, fun _ => id⟩

theorem Later.trans (h : base.Later s) (h' : s.Later s') : base.Later s' :=
  ⟨h'.numLocals.trans h.numLocals, Nat.le_trans h.room h'.room,
    fun l hl => h'.bound l (h.bound l hl), fun _ hl => h'.paths (h.paths hl)⟩

/-- What constructs are open and whether a test waits does not matter. -/
theorem Later.forget {control : List ControlData} {test : Option Opcode}
    (h : Later { base with control, pendingTest := test } s) : base.Later s :=
  ⟨h.numLocals, h.room, h.bound, h.paths⟩

/-- Code generation went on inside the same constructs. The slots have the types `ts`, and the
labels `ls` are owed. -/
structure At (R : Regime) (base : Lowering) (ls : List Label) (ts : List ValueType) (s : Lowering) :
    Prop where
  sound : ∃ is, s.Sound R is ls
  types : s.emitter.state.types = ts
  later : base.Later s
  control : s.control = base.control
  test : s.pendingTest = base.pendingTest

variable {f : Emitter → Emitter}

namespace At

theorem refl (h : s.Sound R is ls) (htypes : s.emitter.state.types = ts) : At R s ls ts s :=
  ⟨⟨is, h⟩, htypes, .refl s, rfl, rfl⟩

section

variable (h : At R base ls ts s)
include h

/-- Start anew from here. -/
theorem here : At R s ls ts s := ⟨h.sound, h.types, .refl s, rfl, rfl⟩

theorem trans (h' : At R s ls' ts' s') : At R base ls' ts' s' :=
  ⟨h'.sound, h'.types, h.later.trans h'.later, h'.control.trans h.control, h'.test.trans h.test⟩

theorem regular : s.emitter.state.Regular R := by
  obtain ⟨is, hsound⟩ := h.sound
  exact hsound.state

theorem perm (hperm : ls.Perm ls') : At R base ls' ts s := by
  obtain ⟨is, hsound⟩ := h.sound
  exact ⟨⟨is, hsound.perm hperm⟩, h.types, h.later, h.control, h.test⟩

theorem onward {e : Emitter} (hon : s.emitter.Onward R ts' e) :
    At R base ls ts' (s.mapEmitter fun _ => e) := by
  obtain ⟨is, hsound⟩ := h.sound
  obtain ⟨new, hnew⟩ := hsound.onward hon
  have hlater : s.Later (s.mapEmitter fun _ => e) :=
    ⟨hon.numLocals, hon.room, fun l hl => (hon.isBound l).trans hl, fun _ => id⟩
  exact ⟨⟨_, hnew⟩, hon.types, h.later.trans hlater, h.control, h.test⟩

theorem mapEmitter (hf : s.emitter.Onward R ts' (f s.emitter)) :
    At R base ls ts' (s.mapEmitter f) :=
  h.onward hf

/-- The emitter, for steps that change nothing else. -/
theorem emitter : s.emitter.Onward R ts s.emitter := .refl h.regular h.types

theorem emit (hfine : i.Fine R s.emitter.state.maxOffset) (hcall : i.isCall = false)
    (htarget : ∀ l, i.target? = some l → s.emitter.isBound l = true ∨ l ∈ ls ++ s.targets) :
    At R base ls ts (s.mapEmitter (·.emit i)) := by
  obtain ⟨is, hsound⟩ := h.sound
  have hlater : s.Later (s.mapEmitter (·.emit i)) :=
    ⟨rfl, Nat.le_refl _, fun l hl => (Emitter.isBound_emit s.emitter i l).trans hl, fun _ => id⟩
  exact ⟨⟨_, hsound.emit hfine hcall htarget⟩, h.types, h.later.trans hlater, h.control, h.test⟩

/-- There are slots for the locals. -/
theorem le_height (hlocals : base.emitter.numLocals ≤ ts.length) :
    s.emitter.numLocals ≤ s.emitter.state.height := by
  rw [h.later.numLocals, ← CacheState.length_types, h.types]
  exact hlocals

theorem newLabel : At R base (s.emitter.nextLabel :: ls) ts (s.mapEmitter Emitter.addLabel) := by
  obtain ⟨is, hsound⟩ := h.sound
  have hlater : s.Later (s.mapEmitter Emitter.addLabel) :=
    ⟨rfl, Nat.le_refl _, fun l hl => (Emitter.isBound_addLabel s.emitter l).trans hl, fun _ => id⟩
  exact ⟨⟨_, hsound.newLabel⟩, h.types, h.later.trans hlater, h.control, h.test⟩

end

theorem bindLabel (h : At R base (l :: ls) ts s) : At R base ls ts (s.mapEmitter (·.bind l)) := by
  obtain ⟨is, hsound⟩ := h.sound
  have hlater : s.Later (s.mapEmitter (·.bind l)) := by
    refine ⟨rfl, Nat.le_refl _, fun q hq => ?_, fun _ => id⟩
    show (s.emitter.bind l).isBound q = true
    rw [hsound.isBound_bind, hq, Bool.true_or]
  exact ⟨⟨_, hsound.bindLabel⟩, h.types, h.later.trans hlater, h.control, h.test⟩

theorem addPath (h : At R base (l :: ls) ts s) {path : OutOfLine} (hlabel : path.label = l)
    (hpath : path.Fine R s.emitter) (hentry : path.entry = s.entryIndex?)
    (hlocals : base.emitter.numLocals ≤ ts.length) (pc : Nat) (view : RegisterView) :
    At R base ls ts { s.withEntry pc view with outOfLine := s.outOfLine.push path } := by
  obtain ⟨is, hsound⟩ := h.sound
  have hlater : s.Later { s.withEntry pc view with outOfLine := s.outOfLine.push path } := by
    refine ⟨rfl, Nat.le_refl _, fun _ => id, fun q hq => ?_⟩
    show q ∈ (s.outOfLine.push path).toList.map OutOfLine.label
    rw [Array.toList_push, map_append]
    exact mem_append_left _ hq
  exact ⟨⟨_, hsound.addPath hlabel hpath hentry (h.le_height hlocals) pc view⟩, h.types,
    h.later.trans hlater, h.control, h.test⟩

/-- A call was emitted, and the tables were brought up to date. -/
theorem call (h : At R base ls ts s) (hfine : i.Fine R s.emitter.state.maxOffset)
    (htarget : i.target? = none) {work : Assembly} (hemitter : work.emitter = s.emitter.emit i)
    (htables : ∀ is, s.Sound R is ls →
      work.Describes s.emitter.numLocals s.outOfLine.toList (is ++ [i])) :
    At R base ls ts { s with work } := by
  obtain ⟨is, hsound⟩ := h.sound
  have hcalled := hsound.emit_tables hemitter hfine (fun l hl => by rw [htarget] at hl; cases hl)
    (htables is hsound)
  have hlater : s.Later { s with work } := by
    refine ⟨?_, ?_, fun l hl => ?_, fun _ => id⟩ <;> rw [show ({ s with work } : Lowering).emitter =
      s.emitter.emit i from hemitter]
    · rfl
    · exact Nat.le_refl _
    · rw [Emitter.isBound_emit]
      exact hl
  refine ⟨⟨_, hcalled⟩, ?_, h.later.trans hlater, h.control, h.test⟩
  rw [show ({ s with work } : Lowering).emitter = s.emitter.emit i from hemitter]
  exact h.types

end At

theorem mapEmitter_congr {f g : Emitter → Emitter} (h : f s.emitter = g s.emitter) :
    s.mapEmitter f = s.mapEmitter g := by
  unfold mapEmitter
  rw [show f s.work.emitter = g s.work.emitter from h]

theorem mapEmitter_id (s : Lowering) : s.mapEmitter id = s := rfl

theorem mapEmitter_mapEmitter (s : Lowering) (f g : Emitter → Emitter) :
    (s.mapEmitter f).mapEmitter g = s.mapEmitter fun e => g (f e) := rfl

theorem mem_targets_of_path (h : l ∈ s.pathLabels) : l ∈ ls ++ s.targets :=
  mem_append_right _ (mem_append_left _ h)

theorem mem_targets_of_owed (h : l ∈ ls) : l ∈ ls ++ s.targets := mem_append_left _ h

/-! ## Steps of the emitter -/

variable {α : Type}

theorem run_liftEmit (m : EmitM α) (s : Lowering) : (liftEmit m).run.run s =
      ((m.run.run s.emitter).1, s.mapEmitter fun _ => (m.run.run s.emitter).2) := by
  rcases s with ⟨_, ⟨_, _, _, _⟩, _, _, _, _⟩
  rfl

section

variable (h : At R base ls ts s)
include h

theorem liftEmit_upholds {m : EmitM α} {Q : α → Emitter → Prop}
    (hm : Upholds R m s.emitter fun a e => s.emitter.Onward R ts' e ∧ Q a e) :
    Upholds R (liftEmit m) s fun a s' => At R base ls ts' s' ∧ Q a s'.emitter := by
  rcases hr : m.run.run s.emitter with ⟨b | a, e⟩
  · refine ⟨fun a s' hs => ?_, fun b' s' hs => ?_⟩ <;> rw [run_liftEmit, hr] at hs <;> cases hs
    exact hm.refused _ _ hr
  · refine ⟨fun a s' hs => ?_, fun b' s' hs => ?_⟩ <;> rw [run_liftEmit, hr] at hs <;> cases hs
    obtain ⟨hon, hq⟩ := hm.ends _ _ hr
    exact ⟨h.onward hon, hq⟩

/-- The same, for a step whose result does not matter. -/
theorem liftEmit_at {m : EmitM α} (hm : Upholds R m s.emitter fun _ e => s.emitter.Onward R ts' e) :
    Upholds R (liftEmit m) s fun _ => At R base ls ts' :=
  (liftEmit_upholds (Q := fun _ _ => True) h (hm.mono fun _ _ hon => ⟨hon, trivial⟩)).mono
    fun _ _ => And.left

theorem emitting_upholds (hf : s.emitter.Onward R ts' (f s.emitter)) :
    Upholds R (emitting f) s fun _ => At R base ls ts' :=
  .of_modify (h.mapEmitter hf)

end

section

variable (h : At R base ls (ts ++ [ty]) s)
include h

theorem popSlot_upholds : Upholds R popSlot s fun slot s' => At R base ls ts s' ∧
      slot.Fine R s'.emitter.state.maxOffset ∧ slot.ty = ty :=
  liftEmit_upholds h (Emitter.popSlot_upholds h.emitter)

theorem peekSlot_upholds :
    Upholds R peekSlot s fun slot s' => s' = s ∧ slot ∈ s.emitter.state.slots ∧ slot.ty = ty := by
  obtain ⟨slot, hpeek, hty, hmem⟩ := CacheState.peek?_of_types h.types
  have hs : (s.mapEmitter fun _ => s.emitter) = s := rfl
  refine ⟨fun a s' hr => ?_, fun b s' hr => ?_⟩ <;>
    rw [peekSlot, run_liftEmit, Emitter.run_peekSlot hpeek, hs] at hr <;> cases hr
  exact ⟨rfl, hmem, hty⟩

theorem popToReg_upholds (hpinned : pinned.AtMost 7) :
    Upholds R (popToReg pinned) s fun _ => At R base ls ts :=
  liftEmit_at h (Emitter.popToReg_upholds h.emitter hpinned)

theorem popToModifiableReg_upholds (hpinned : pinned.AtMost 6) :
    Upholds R (popToModifiableReg pinned) s fun _ => At R base ls ts :=
  liftEmit_at h (Emitter.popToModifiableReg_upholds h.emitter hpinned)

end

section

variable (h : At R base ls ts s)
include h

theorem unusedReg_upholds (hpinned : pinned.AtMost 7) (c : RegClass) :
    Upholds R (unusedReg c pinned) s fun r s' => At R base ls ts s' ∧ r.regClass = c :=
  liftEmit_upholds h (Emitter.unusedReg_upholds h.emitter hpinned c)

theorem unusedRegFrom_upholds (hpinned : pinned.AtMost 7) (c : RegClass) (candidates : RegSet) :
    Upholds R (unusedRegFrom c candidates pinned) s fun r s' =>
      At R base ls ts s' ∧ r.regClass = c :=
  liftEmit_upholds h (Emitter.unusedRegFrom_upholds h.emitter hpinned c candidates)

theorem pushReg_upholds (hty : R.allows ty) (hclass : R.typed → r.regClass = .ofType ty) :
    Upholds R (pushReg ty r) s fun _ => At R base ls (ts ++ [ty]) :=
  liftEmit_at h (Emitter.pushReg_upholds h.emitter hty hclass)

theorem pushAt_upholds (hty : R.allows ty) {loc : Location} (hloc : R.typed → loc.Suits ty) :
    Upholds R (pushAt ty loc) s fun _ => At R base ls (ts ++ [ty]) :=
  emitting_upholds h (h.emitter.push hty hloc)

end

/-! ## Labels and branches -/

theorem newLabel_upholds (h : At R base ls ts s) :
    Upholds R newLabel s fun l => At R base (l :: ls) ts := by
  refine ⟨fun a s' hr => ?_, fun b s' hr => ?_⟩ <;> cases hr
  exact h.newLabel

theorem bindLabel_upholds (h : At R base (l :: ls) ts s) :
    Upholds R (Lowering.bindLabel l) s fun _ => At R base ls ts :=
  .of_modify h.bindLabel

section

variable (h : At R base ls ts s)
include h

/-- An instruction that neither branches nor calls. -/
theorem emit_upholds (hfine : i.Fine R s.emitter.state.maxOffset)
    (hstraight : i.isStraight = true) : Upholds R (Lowering.emit i) s fun _ => At R base ls ts :=
  .of_modify (h.emit hfine (Instr.isCall_of_isStraight hstraight) fun l hl => by
    rw [Instr.target?_of_isStraight hstraight] at hl
    cases hl)

theorem emitOp_upholds (hop : i.isOperation = true) :
    Upholds R (Lowering.emit i) s fun _ => At R base ls ts := by
  simp only [Instr.isOperation, Bool.and_eq_true, Option.isNone_iff_eq_none, List.isEmpty_iff]
    at hop
  exact emit_upholds h (.of_none hop.1.2 hop.2) hop.1.1

/-- A branch to a label that is owed. -/
theorem emitBranch_upholds (hfine : i.Fine R s.emitter.state.maxOffset)
    (htarget : i.target? = some l) (hl : l ∈ ls ++ s.targets) :
    Upholds R (Lowering.emit i) s fun _ => At R base ls ts :=
  .of_modify (h.emit hfine (Instr.isCall_of_target htarget) fun l' hl' => by
    rw [htarget] at hl'
    cases hl'
    exact .inr hl)

end

/-! ## The end of the code -/

/-- Control does not run over the end of the code, and no branch leads there. -/
structure Closed (s : Lowering) (is : List (Instr Label)) : Prop where
  last : ∃ init i, is = init ++ [i] ∧ i.isExit = true
  targets : ∀ i ∈ is, ∀ l, i.target? = some l → ∀ place,
    s.emitter.buffer.boundAt? l = some place → place < Instr.codeSize is
  resumes : ∀ o ∈ s.outOfLine, ∀ l, o.continuation = some l → ∀ place,
    s.emitter.buffer.boundAt? l = some place → place < Instr.codeSize is

/-- The code is sound and closed. -/
def Closes (R : Regime) (ls : List Label) (s : Lowering) :
    Prop := ∃ is, s.Sound R is ls ∧ s.Closed is

/-- Every label that is bound was bound before the last instruction. -/
theorem Sound.closes_emit (h : s.Sound R is ls) (hexit : i.isExit = true)
    (hfine : i.Fine R s.emitter.state.maxOffset)
    (htarget : ∀ l, i.target? = some l → s.emitter.isBound l = true ∨ l ∈ ls ++ s.targets) :
    Closes R ls (s.mapEmitter (·.emit i)) := by
  have hplace : ∀ l place, (s.emitter.buffer.emit i).boundAt? l = some place →
      place < Instr.codeSize (is ++ [i]) := by
    intro l place hl
    rw [CodeBuffer.boundAt?_emit] at hl
    have hle := h.code.place_le hl
    have hpos := i.size_pos
    rw [h.code.size] at hle
    simp only [Instr.codeSize_append, Instr.codeSize_cons, Instr.codeSize_nil]
    omega
  exact ⟨is ++ [i], h.emit hfine (Instr.isCall_of_isExit hexit) htarget, ⟨is, i, rfl, hexit⟩,
    fun _ _ l _ => hplace l, fun _ _ l _ => hplace l⟩

theorem emitExit_upholds (h : At R base ls ts s) (hexit : i.isExit = true)
    (hfine : i.Fine R s.emitter.state.maxOffset)
    (htarget : ∀ l, i.target? = some l → s.emitter.isBound l = true ∨ l ∈ ls ++ s.targets) :
    Upholds R (Lowering.emit i) s fun _ s' => At R base ls ts s' ∧ Closes R ls s' := by
  obtain ⟨is, hsound⟩ := h.sound
  exact .of_modify ⟨h.emit hfine (Instr.isCall_of_isExit hexit) htarget,
    hsound.closes_emit hexit hfine htarget⟩

/-- The same, after a step of the emitter. -/
theorem emittingExit_upholds (h : At R base ls ts s)
    (hf : s.emitter.Onward R ts' (f s.emitter)) (hexit : i.isExit = true)
    (hfine : i.Fine R (f s.emitter).state.maxOffset)
    (htarget : ∀ l, i.target? = some l → s.emitter.isBound l = true ∨ l ∈ ls ++ s.targets) :
    Upholds R (emitting fun e => (f e).emit i) s fun _ s' => At R base ls ts' s' ∧
      Closes R ls s' := by
  have hon := h.onward hf
  obtain ⟨is, hsound⟩ := hon.sound
  have htarget' : ∀ l, i.target? = some l →
      (s.mapEmitter fun _ => f s.emitter).emitter.isBound l = true ∨
      l ∈ ls ++ (s.mapEmitter fun _ => f s.emitter).targets :=
    fun l hl => (htarget l hl).imp_left (hf.isBound l).trans
  exact .of_modify ⟨hon.emit hfine (Instr.isCall_of_isExit hexit) htarget',
    hsound.closes_emit hexit hfine htarget'⟩

/-- A label is bound, and the emitter goes on. -/
theorem emittingBind_upholds (h : At R base (l :: ls) ts s)
    (hf : ∀ e : Emitter, e.Onward R ts e → e.Onward R ts' (f e)) :
    Upholds R (emitting fun e => f (e.bind l)) s fun _ => At R base ls ts' :=
  .of_modify (h.bindLabel.onward (hf _ h.bindLabel.emitter))

/-! ## Tables and slow paths -/

theorem requireScalar_upholds (what : String) (ty : ValueType) :
    Upholds R (requireScalar what ty) s fun _ s' => s' = s ∧ ty ≠ .v128 :=
  .ite (fun _ => .of_throw fun _ => nofun) fun hne => .of_pure ⟨rfl, hne⟩

theorem run_recordEntry (s : Lowering) (pc : Nat) (view : RegisterView) :
    (recordEntry pc view).run.run s = (.ok s.entryIndex?, s.withEntry pc view) := by
  obtain ⟨options, ⟨emitter, positions, protections, _ | record⟩, control, outOfLine, pendingTest,
    frameSetup⟩ := s <;> rfl

theorem recordEntry_bind {k : Option Nat → LowerM α} {post : α → Lowering → Prop}
    {pc : Nat} {view : RegisterView} (h : Upholds R (k s.entryIndex?) (s.withEntry pc view) post) :
    Upholds R (recordEntry pc view >>= k) s post := by
  refine .bind (Q := fun a s' => a = s.entryIndex? ∧ s' = s.withEntry pc view)
    ?_ fun a s' ⟨ha, hs⟩ => ?_
  · refine ⟨fun a s' hr => ?_, fun b s' hr => ?_⟩ <;> rw [run_recordEntry] at hr <;> cases hr
    exact ⟨rfl, rfl⟩
  · subst ha hs
    exact h

/-- A call with its position and an entry for the place that it returns to. -/
theorem site_upholds {k : LowerM α} {post : α → Lowering → Prop} (h : At R base ls ts s)
    (htarget : i.target? = none) (htype : i.type? = none) (hframe : i.frameOffsets = [])
    (hcall : i.isCall = true) (hstop : i.isStop = true)
    (hlocals : base.emitter.numLocals ≤ ts.length) (source : Nat) (view : RegisterView)
    (hk : ∀ s', At R base ls ts s' → Upholds R k s' post) :
    Upholds R (do
      recordPosition source
      Lowering.emit i
      let _ ← recordEntry (← get).emitter.pc view
      k) s post := by
  refine .modify_bind (.modify_bind (.get_bind (recordEntry_bind (hk _ ?_))))
  refine h.call (i := i) (.of_none htype hframe) htarget rfl fun is hsound => ?_
  refine hsound.tables.call hcall hstop source (h.le_height hlocals) view ?_ ?_
  · rw [← hsound.code.size]
    rfl
  · have hsize := (hsound.code.emit (i := i) fun l hl => by rw [htarget] at hl; cases hl).size
    rw [← hsize]
    rfl

theorem fine_savedRegs (h : s.emitter.state.Regular R) :
    ∀ r ∈ s.savedRegs, R.allows r.ty ∧ 0 < r.offset ∧ r.offset ≤ s.emitter.state.maxOffset := by
  intro r hr
  unfold savedRegs at hr
  split at hr
  next => cases hr
  next =>
    obtain ⟨slot, hslot, hr⟩ := mem_filterMap.1 hr
    obtain ⟨reg, -, rfl⟩ := Option.map_eq_some_iff.1 hr
    have hfine := h.fine (Array.mem_toList_iff.1 hslot)
    exact ⟨hfine.type, hfine.pos, hfine.le⟩

section

variable (h : At R base ls ts s)
include h

theorem addTrap_upholds {stub : RuntimeStub} (hstub : stub.isTrap = true)
    (hlocals : base.emitter.numLocals ≤ ts.length) (position : Nat) (trappingPc : Option Nat) :
    Upholds R (addTrap stub position trappingPc) s fun l s' =>
      At R base ls ts s' ∧ l ∈ s'.pathLabels := by
  refine .bind (newLabel_upholds h) fun l s₁ h₁ => ?_
  refine recordEntry_bind (.get_bind (.modify_bind (.of_pure ⟨?_, ?_⟩)))
  · have hsaved := fine_savedRegs (s := s₁.withEntry 0 .assumeSpilled) h₁.regular
    refine At.addPath h₁ rfl ⟨hsaved, ?_, fun _ => hstub, ?_⟩ rfl hlocals 0 .assumeSpilled <;>
      exact nofun
  show l ∈ (s₁.outOfLine.push _).toList.map OutOfLine.label
  rw [Array.toList_push, map_append]
  exact mem_append_right _ mem_cons_self

section

variable (hlocals : base.emitter.numLocals ≤ ts.length) (position : Nat)
include hlocals

/-- The path goes on at a label that is bound after the branch to it. -/
theorem stackCheck_upholds : Upholds R (stackCheck position) s fun _ => At R base ls ts := by
  refine .get_bind (.ite (fun _ => .of_pure h) fun _ => ?_)
  refine .bind (newLabel_upholds h.here) fun label s₁ h₁ => ?_
  refine .bind (newLabel_upholds h₁) fun continuation s₂ h₂ => ?_
  refine recordEntry_bind (.modify_bind (.modify_bind (.modify_bind (.of_modify ?_))))
  have hload := h₂.emit (i := .loadInstanceField (.scratch .gp) .stackLimitAddress)
    (.of_none rfl rfl) rfl nofun
  have hcheck := hload.emit (i := .stackCheck (.scratch .gp) label) (.of_none rfl rfl)
        rfl fun l hl => by
      cases hl
      exact .inr (mem_targets_of_owed (mem_cons_of_mem _ mem_cons_self))
  have hbound := hcheck.bindLabel
  refine h.trans (At.addPath hbound rfl ⟨fun r hr => ?_, fun l hl => ?_, fun hno => ?_,
    fun _ _ => rfl⟩ rfl (h.later.numLocals ▸ hlocals) 0 .assumeSpilled)
  · obtain ⟨hty, hpos, hle⟩ := fine_savedRegs h.regular r hr
    exact ⟨hty, hpos, Nat.le_trans hle hbound.later.room⟩
  · cases hl
    obtain ⟨is, hsound⟩ := hcheck.sound
    exact (hsound.isBound_bind continuation).trans (by simp)
  · cases hno

theorem breakpoint_upholds : Upholds R (breakpoint position) s fun _ => At R base ls ts :=
  site_upholds h rfl rfl rfl rfl rfl hlocals position .allowRegs fun _ h' => .of_pure h'

end

end

end Lowering

end OnePass
