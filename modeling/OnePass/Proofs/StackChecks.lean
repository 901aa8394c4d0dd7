import OnePass.Proofs.ScalarSlots

/-!
The slow path of a stack check. The guard that it calls may leave anything in the registers. Without
a debugger they are pushed around the call. For a debugger they are written to their slots and read
back, which restores every value since no register backs two slots where a stack is checked.
-/
namespace OnePass

open List

/-! ## Running a slow path -/

/-- Registers, the frame, and the words pushed below it, the last one first. -/
structure PathState extends DataState where
  pushed : List UInt64

namespace PathState

variable {guard : PathState → Reg → UInt64} {m : PathState}

/-- Take words for the registers from the top of what was pushed. -/
def popRegs? (m : PathState) (rs : List Reg) : Option PathState :=
  if m.pushed.length < rs.length then none
  else some { m with
    regs := fun r => ((rs.zip m.pushed).lookup r).getD (m.regs r)
    pushed := m.pushed.drop rs.length }

/-- What one instruction does. A stub leaves in the registers what `guard` says, and touches neither
the frame nor what was pushed. -/
def step? (guard : PathState → Reg → UInt64) : Instr Label → PathState → Option PathState
  | .callStub _, m => some { m with regs := guard m }
  | .pushRegs rs, m => some { m with pushed := rs.toList.map m.regs ++ m.pushed }
  | .popRegs rs, m => m.popRegs? rs.toList
  | i, m => (i.moveData? m.toDataState).map fun d => { m with toDataState := d }

/-- Run code up to its first jump: where it leads to, and what holds then. -/
def run? (guard : PathState → Reg → UInt64) : List (Instr Label) → PathState →
    Option (Label × PathState)
  | [], _ => none
  | .jump l :: _, m => some (l, m)
  | i :: rest, m => (step? guard i m).bind (run? guard rest)

/-- Data is moved first. -/
theorem run?_moves {is rest : List (Instr Label)} {d : DataState}
    (h : Instr.moveAll? is m.toDataState = some d) :
    run? guard (is ++ rest) m = run? guard rest { m with toDataState := d } := by
  induction is generalizing m with
  | nil =>
    cases h
    rfl
  | cons i is ih =>
    rw [Instr.moveAll?, Option.bind_eq_some_iff] at h
    obtain ⟨d₁, hi, his⟩ := h
    rw [cons_append, run?, step?, hi, Option.map_some, Option.bind_some, ih his]
    all_goals
      rintro _ rfl
      cases hi

/-- What was pushed comes back, whatever the registers hold. -/
theorem popRegs?_pushed (rs : List Reg) (f : Reg → UInt64) (m : PathState) :
    ∃ m', ({ m with pushed := rs.map f ++ m.pushed } : PathState).popRegs? rs = some m' ∧
      m'.frame = m.frame ∧ m'.pushed = m.pushed ∧ ∀ r ∈ rs, m'.regs r = f r := by
  have hlookup : ∀ (rs : List Reg), ∀ r ∈ rs,
      (rs.zip (rs.map f ++ m.pushed)).lookup r = some (f r) := by
    intro rs
    induction rs with
    | nil => exact fun r hr => (not_mem_nil hr).elim
    | cons q rs ih =>
      intro r hr
      rw [map_cons, cons_append, zip_cons_cons, lookup_cons]
      by_cases heq : r = q
      · rw [heq, beq_self_eq_true]
      · rw [beq_false_of_ne heq]
        exact ih r ((mem_cons.1 hr).resolve_left heq)
  refine ⟨_, if_neg (by simp), rfl, by simp, fun r hr => ?_⟩
  dsimp only
  rw [hlookup rs r hr, Option.getD_some]

/-- For the state of the slots nothing happened: values, the instance and what was pushed are the
same, and only the slots of values in registers were written to. -/
structure Resumes (m m' : PathState) (t : CacheState) : Prop where
  values : ∀ slot ∈ t.slots, m'.value slot = m.value slot
  self : m'.regs .instanceReg = m.regs .instanceReg
  pushed : m'.pushed = m.pushed
  frame : ∀ offset, (∀ slot ∈ t.slots, ∀ r, slot.loc = .reg r →
    slot.offset + 8 ≤ offset ∨ offset + 8 ≤ slot.offset) →
      m'.frame.slot offset = m.frame.slot offset

end PathState

/-! ## Saving and bringing back -/

/-- Slots are read into different registers. -/
theorem moveAll?_fills {saved : List SavedReg} {d : DataState}
    (hapart : saved.Pairwise fun a b => a.reg ≠ b.reg)
    (hscalar : ∀ r ∈ saved, r.ty ≠ .v128 ∧ r.offset < UInt32.size) :
    ∃ d', Instr.moveAll? (saved.map fun r => (.fill r.ty r.reg (.ofNat r.offset) : Instr Label)) d =
        some d' ∧ d'.frame = d.frame ∧
      (∀ r ∈ saved, d'.regs r.reg = r.ty.narrow (d.frame.slot r.offset)) ∧
      ∀ q, (∀ r ∈ saved, r.reg ≠ q) → d'.regs q = d.regs q := by
  induction saved generalizing d with
  | nil => exact ⟨d, rfl, rfl, fun _ hr => (not_mem_nil hr).elim, fun _ _ => rfl⟩
  | cons r rest ih =>
    obtain ⟨hfirst, hrest⟩ := pairwise_cons.1 hapart
    obtain ⟨hty, hsmall⟩ := hscalar r mem_cons_self
    obtain ⟨d', hrun, hframe, hread, hkept⟩ :=
      ih (d := d.setReg r.ty r.reg (d.frame.slot r.offset)) hrest
      fun r' hr' => hscalar r' (mem_cons_of_mem _ hr')
    have hoffset : (UInt32.ofNat r.offset).toNat = r.offset := UInt32.toNat_ofNat_of_lt' hsmall
    refine ⟨d', ?_, hframe, fun r' hr' => ?_, fun q hq => ?_⟩
    · rw [map_cons, Instr.moveAll?, Instr.moveData?, if_neg hty, Option.bind_some, hoffset]
      exact hrun
    · rcases mem_cons.1 hr' with rfl | hr'
      · rw [hkept _ fun q hq => (hfirst q hq).symm]
        exact Function.update_self ..
      · exact hread r' hr'
    · rw [hkept q fun r' hr' => hq r' (mem_cons_of_mem _ hr')]
      exact Function.update_of_ne (hq r mem_cons_self).symm ..

theorem CacheState.Unshared.savedRegs {t : CacheState} (h : t.Unshared) :
    t.savedRegs.Pairwise fun a b => a.reg ≠ b.reg := by
  unfold CacheState.savedRegs
  rw [pairwise_filterMap]
  refine List.Pairwise.imp (fun {a b} hne r hr q hq => ?_) h
  obtain ⟨ra, ha, rfl⟩ := Option.map_eq_some_iff.1 hr
  obtain ⟨rb, hb, rfl⟩ := Option.map_eq_some_iff.1 hq
  rintro rfl
  exact hne ra (Location.reg?_eq_some.1 ha) (Location.reg?_eq_some.1 hb)

theorem CacheState.Placed.isUsed_of_mem {t : CacheState} (h : t.Placed) {slot : Slot}
    (hslot : slot ∈ t.slots) {r : Reg} (hr : slot.loc = .reg r) : t.isUsed r = true := by
  rw [h.tracks.used, ← h.tracks.count]
  exact decide_eq_true (h.useCount_pos hslot hr)

namespace OutOfLine

variable {o : OutOfLine} {l : Label} {t : CacheState} {guard : PathState → Reg → UInt64}

/-- Registers are pushed around the call. -/
theorem resumes_of_pushed (hpushed : o.pushed = t.used.insert .instanceReg)
    (hl : o.continuation = some l) (ht : t.Placed) (m : PathState) :
    ∃ m', PathState.run? guard o.code m = some (l, m') ∧ m.Resumes m' t := by
  have hmem {r : Reg} (hr : o.pushed.contains r = true) :
    r ∈ o.pushed.toList := mem_filter.2 ⟨r.mem_all, hr⟩
  have hself : o.pushed.contains .instanceReg = true := by simp [hpushed, RegSet.contains_insert]
  have hsome : ¬o.pushed.isEmpty = true := by
    intro hempty
    rw [RegSet.contains, LawfulBEq.eq_of_beq hempty] at hself
    simp at hself
  have hcode : o.code = [.pushRegs o.pushed, .callStub o.stub, .popRegs o.pushed, .jump l] := by
    simp [code, saveCode, resumeCode, hl, if_neg hsome]
  obtain ⟨m', hpop, hframe, hrest, hregs⟩ := PathState.popRegs?_pushed o.pushed.toList m.regs
    { m with regs := guard { m with pushed := o.pushed.toList.map m.regs ++ m.pushed } }
  refine ⟨m', ?_, fun slot hslot => ?_, hregs _ (hmem hself), hrest, fun _ _ => by rw [hframe]⟩
  · rw [hcode]
    show (PathState.popRegs? _ o.pushed.toList).bind _ = _
    rw [hpop]
    rfl
  · unfold DataState.value
    cases hloc : slot.loc with
    | const value => rfl
    | stack => rw [hframe]
    | reg r =>
      have hused : t.used.contains r = true := ht.isUsed_of_mem hslot hloc
      dsimp only
      rw [hregs r (hmem (by rw [hpushed, RegSet.contains_insert, hused, Bool.true_or]))]

/-- Registers are written to their slots and read back. The slot of the instance is none of
these. -/
theorem resumes_of_saved (hpushed : o.pushed.isEmpty = true) (hsaved : o.saved = t.savedRegs)
    (hl : o.continuation = some l) (ht : t.Placed) (hunshared : t.Unshared) (hcode : t.Encodable)
    (m : PathState) (hself : m.frame.slot instanceOffset = m.regs .instanceReg) :
    ∃ m', PathState.run? guard o.code m = some (l, m') ∧ m.Resumes m' t := by
  have hscalar : ∀ r ∈ t.savedRegs, r.ty ≠ .v128 ∧ r.offset < UInt32.size := by
    intro r hr
    obtain ⟨slot, hslot, -, hty, hoffset⟩ := CacheState.mem_savedRegs.1 hr
    exact hty ▸ hoffset ▸ hcode slot hslot
  obtain ⟨d₁, hsave, -, hwritten, hkept⟩ :=
    moveAll?_spills (d := m.toDataState) ht.slots_apart.savedRegs hscalar
  obtain ⟨d₂, hfill, hframe, hread, -⟩ :=
    moveAll?_fills (d := { d₁ with regs := guard { m with toDataState := d₁ } })
      hunshared.savedRegs hscalar
  -- the instance comes last
  have hinstance : d₂.frame.slot instanceOffset = m.regs .instanceReg := by
    rw [hframe, ← hself]
    refine hkept _ fun r hr => .inr ?_
    obtain ⟨slot, hslot, -, -, hoffset⟩ := CacheState.mem_savedRegs.1 hr
    have habove := ht.above_static hslot
    have hsize := CacheState.eight_le_slotSize slot.ty
    rw [← hoffset]
    exact Nat.le_trans (Nat.add_le_add_left hsize _) habove
  obtain ⟨d₃, hd₃⟩ : ∃ d₃, d₂.setReg .i64 .instanceReg (d₂.frame.slot instanceOffset) = d₃ :=
    ⟨_, rfl⟩
  have hframe₃ : d₃.frame = d₁.frame := by
    rw [← hd₃, ← show _ = d₁.frame from hframe]
    rfl
  have hregs₃ : ∀ r, d₃.regs r = if r = .instanceReg then m.regs .instanceReg else d₂.regs r := by
    intro r
    rw [← hd₃, DataState.setReg, hinstance]
    exact Function.update_apply ..
  have hall : Instr.moveAll?
      (t.savedRegs.map (fun r => (.fill r.ty r.reg (.ofNat r.offset) : Instr Label)) ++
      [.fill .i64 .instanceReg (.ofNat instanceOffset)])
        { d₁ with regs := guard { m with toDataState := d₁ } } = some d₃ := by
    rw [Instr.moveAll?_append hfill, ← hd₃]
    rfl
  have hpath : o.code = t.savedRegs.map (fun r => .spill r.ty (.ofNat r.offset) r.reg) ++
      .callStub o.stub :: (t.savedRegs.map (fun r => .fill r.ty r.reg (.ofNat r.offset)) ++
        [.fill .i64 .instanceReg (.ofNat instanceOffset)] ++ [.jump l]) := by
    simp [code, saveCode, resumeCode, hl, if_pos hpushed, hsaved]
  refine ⟨{ m with toDataState := d₃ }, ?_, fun slot hslot => ?_, ?_, rfl, fun offset hoffset => ?_⟩
  · rw [hpath, PathState.run?_moves hsave]
    exact PathState.run?_moves (m := { m with regs := _, frame := d₁.frame }) hall
  · unfold DataState.value
    cases hloc : slot.loc with
    | const value => rfl
    | stack =>
      have hsame : d₃.frame.slot slot.offset = m.frame.slot slot.offset := by
        rw [hframe₃]
        refine hkept _ fun r hr => ?_
        obtain ⟨other, hother, hreg, -, hoffset⟩ := CacheState.mem_savedRegs.1 hr
        rw [← hoffset]
        refine ht.slots_apart.of_ne hother hslot ?_
        rintro rfl
        rw [hloc] at hreg
        cases hreg
      exact congrArg slot.ty.narrow hsame
    | reg r =>
      have hmem := CacheState.mem_savedRegs (r := ⟨slot.ty, r, slot.offset⟩).2
        ⟨slot, hslot, hloc, rfl, rfl⟩
      dsimp only
      rw [hregs₃]
      split
      next hr => rw [hr]
      next hr =>
        have hback : d₂.regs r = slot.ty.narrow (d₁.frame.slot slot.offset) := hread _ hmem
        rw [hback, hwritten _ hmem, ValueType.narrow_narrow, ValueType.narrow_narrow]
  · exact (hregs₃ _).trans (if_pos rfl)
  · dsimp only
    rw [hframe₃]
    refine hkept _ fun r hr => ?_
    obtain ⟨slot, hslot, hreg, -, hat⟩ := CacheState.mem_savedRegs.1 hr
    exact hat ▸ hoffset slot hslot r.reg hreg

end OutOfLine

/-! ## Where the stack is checked -/

namespace CacheState

variable {s : CacheState} {ty : ValueType} {loc : Location}

theorem Unshared.push (h : s.Unshared) (hs : s.Placed)
    (hloc : ∀ r, loc = .reg r → s.isUsed r = false) : (s.push ty loc).Unshared := by
  rw [Unshared, slots_push, Array.toList_push, pairwise_append]
  refine ⟨h, pairwise_singleton _ _, fun a ha b hb r hr hr' => ?_⟩
  rw [mem_singleton.1 hb] at hr'
  cases (hs.isUsed_of_mem (Array.mem_toList_iff.1 ha) hr).symm.trans (hloc r hr')

theorem isUsed_push (s : CacheState) (ty : ValueType) (loc : Location) (q : Reg) :
    (s.push ty loc).isUsed q = (s.isUsed q || decide (loc = .reg q)) := by
  cases loc <;> simp [push, acquire, acquireReg, recordOffset, isUsed, RegSet.contains_insert]

/-- Every slot has its register to itself, and those for further arguments are not in use. -/
structure Awaits (s : CacheState) (gps fps : List Reg) : Prop where
  placed : s.Placed
  unshared : s.Unshared
  free : ∀ r ∈ gps ++ fps, s.isUsed r = false

theorem Awaits.push {gps fps gps' fps' : List Reg} (h : s.Awaits gps fps)
    (hloc : ∀ r, loc = .reg r → s.isUsed r = false)
    (hrest : ∀ r ∈ gps' ++ fps', r ∈ gps ++ fps ∧ loc ≠ .reg r) :
      (s.push ty loc).Awaits gps' fps' := by
  refine ⟨h.placed.push _ _, h.unshared.push h.placed hloc, fun r hr => ?_⟩
  rw [isUsed_push, h.free r (hrest r hr).1, decide_eq_false (hrest r hr).2]
  rfl

end CacheState

namespace Lowering

variable {s s' : Lowering}

theorem pushReg_ends {ty : ValueType} {r : Reg} (h : (pushReg ty r).run.run s = (.ok (), s')) :
    s'.emitter.state = s.emitter.state.push ty (.reg r) := by
  rw [pushReg, run_liftEmit, Emitter.pushReg] at h
  split at h <;> cases h
  rfl

/-- A parameter from the stack gets a register of its class that was free, or none. -/
theorem stackParam_ends {ty : ValueType} {index : Nat}
    (h : (stackParam ty index).run.run s = (.ok (), s')) :
    ∃ loc, s'.emitter.state = s.emitter.state.push ty loc ∧
      ∀ r, loc = .reg r → s.emitter.state.isUsed r = false ∧ r.regClass = .ofType ty := by
  obtain ⟨_, _, hget, h⟩ := run_bind_ok h
  cases hget
  split at h
  next r hr =>
    obtain ⟨_, _, hemit, h⟩ := run_bind_ok h
    cases hemit
    have hpush := pushReg_ends h
    refine ⟨.reg r, hpush, ?_⟩
    rintro _ ⟨⟩
    exact ⟨(CacheState.unused?_eq_some hr).2.1, CacheState.regClass_of_unused? hr⟩
  next =>
    cases h
    exact ⟨.stack, rfl, by rintro _ ⟨⟩⟩

section

variable {types : List ValueType}

/-- Parameters take different registers. A parameter on the stack comes when all argument registers
of its class are taken. -/
theorem params_unshared {f : ValueType × ArgPlace → LowerM PUnit}
    (hreg : ∀ ty r, f (ty, .reg r) = pushReg ty r)
    (hstack : ∀ ty index, f (ty, .stack index) = stackParam ty index)
    {gps fps : List Reg} {stacked : Nat} (h : s.emitter.state.Awaits gps fps)
    (hgps : ∀ r ∈ gps, r.regClass = .gp) (hfps : ∀ r ∈ fps, r.regClass = .fp)
      (hnodup : (gps ++ fps).Nodup)
    (hrun : ((types.zip (ArgPlace.assign gps fps stacked types)).forM f).run.run s = (.ok (), s')) :
    s'.emitter.state.Placed ∧ s'.emitter.state.Unshared := by
  induction types generalizing gps fps stacked s with
  | nil =>
    cases hrun
    exact ⟨h.placed, h.unshared⟩
  | cons ty types ih =>
    unfold ArgPlace.assign at hrun
    split at hrun
    next r gps hclass =>
      obtain ⟨_, s₁, hone, hrun⟩ := run_bind_ok hrun
      have hone := pushReg_ends (hreg ty r ▸ hone)
      obtain ⟨hr, hnodup⟩ := nodup_cons.1 hnodup
      refine ih (hone ▸ h.push ?_ fun q hq => ⟨mem_cons_of_mem _ hq, ?_⟩)
        (fun q hq => hgps q (mem_cons_of_mem _ hq)) hfps hnodup hrun
      · rintro _ ⟨⟩
        exact h.free r mem_cons_self
      · rintro ⟨⟩
        exact hr hq
    next r fps hclass =>
      obtain ⟨_, s₁, hone, hrun⟩ := run_bind_ok hrun
      have hone := pushReg_ends (hreg ty r ▸ hone)
      obtain ⟨hr, hnodup⟩ := nodup_cons.1 (nodup_middle.1 hnodup)
      refine ih (hone ▸ h.push ?_ fun q hq => ⟨(mem_append.1 hq).elim (mem_append_left _)
          fun hq => mem_append_right _ (mem_cons_of_mem _ hq), ?_⟩) hgps
        (fun q hq => hfps q (mem_cons_of_mem _ hq)) hnodup hrun
      · rintro _ ⟨⟩
        exact h.free r (mem_append_right _ mem_cons_self)
      · rintro ⟨⟩
        exact hr hq
    next hgp hfp =>
      obtain ⟨_, s₁, hone, hrun⟩ := run_bind_ok hrun
      obtain ⟨loc, hone, hloc⟩ := stackParam_ends (hstack ty stacked ▸ hone)
      refine ih (hone ▸ h.push (fun r hr => (hloc r hr).1) fun q hq => ⟨hq, fun hr => ?_⟩) hgps hfps
        hnodup hrun
      have hclass := (hloc q hr).2
      rcases mem_append.1 hq with hq | hq
      · obtain ⟨r, rest, rfl⟩ := exists_cons_of_ne_nil (ne_nil_of_mem hq)
        exact hgp r rest (hclass.symm.trans (hgps q hq)) rfl
      · obtain ⟨r, rest, rfl⟩ := exists_cons_of_ne_nil (ne_nil_of_mem hq)
        exact hfp r rest (hclass.symm.trans (hfps q hq)) rfl

theorem params_ends (hrun : (params types).run.run s = (.ok (), s'))
    (h : s.emitter.state = {}) : s'.emitter.state.Placed ∧ s'.emitter.state.Unshared := by
  have hempty : s.emitter.state.Awaits (Reg.params .gp) (Reg.params .fp) := by
    rw [h]
    exact ⟨CacheState.placed_empty _, List.Pairwise.nil, fun r _ => RegSet.contains_empty r⟩
  unfold params ArgPlace.ofTypes at hrun
  exact params_unshared (fun _ _ => rfl) (fun _ _ => rfl) hempty (by decide)
    (by decide) (by decide) hrun

theorem declareLocals_ends (h : (declareLocals types).run.run s = (.ok (), s')) :
    s'.emitter.state = pushLocals types s.emitter.state := by
  cases h
  unfold mapEmitter emitter
  dsimp only
  split <;> rfl

end

theorem unshared_pushLocals {t : CacheState} (ht : t.Placed) (h : t.Unshared)
    (types : List ValueType) : (pushLocals types t).Placed ∧ (pushLocals types t).Unshared := by
  unfold pushLocals
  generalize decide (types.length ≤ maxConstantLocals) = few
  dsimp only
  induction types generalizing t with
  | nil => exact ⟨ht, h⟩
  | cons ty types ih =>
    refine ih (ht.push _ _) (h.push ht fun r hr => ?_)
    split at hr <;> cases hr

/-- The states in which a stack check is emitted, with the body offset that it is for: behind the
parameters and locals of a function, and behind the label of a loop. -/
inductive ChecksStack (options : CompileOptions) : Lowering → Nat → Prop
  | entry {module : Module} {sig : Signature} {body : Array UInt8}
      {decoderOptions : DecoderOptions} {c : Call Lowering} {s : Lowering} (b : Control) :
      c ∈ compileCalls module sig body decoderOptions options → c.event = .startBody b →
      (openFrame c.context).run.run c.state = (.ok (), s) → ChecksStack options s c.context.pc
  | header {module : Module} {sig : Signature} {body : Array UInt8}
      {decoderOptions : DecoderOptions} {c : Call Lowering} {s : Lowering} (b : Control) :
      c ∈ compileCalls module sig body decoderOptions options → c.event = .loop b →
      (openLoop b).run.run c.state = (.ok (), s) → ChecksStack options s c.context.pc

variable {options : CompileOptions} {position : Nat}

/-- What all changes keep is known where a stack is checked. -/
theorem ChecksStack.holds {fits : Location → ValueType → Prop} {C L J : CacheState → Prop}
    (h : ChecksStack options s position) (hstable : Stable fits C L J True)
    (hloc : ∀ loc ty, fits .stack ty → fits loc ty) (hstart : C {}) : C s.emitter.state := by
  cases h with
  | @entry module sig body decoderOptions c s b hc hbody hrun =>
    have hgiven := (given_of_mem_compileCalls hc).scalar
    rw [hbody] at hgiven
    have halways := (hstable.steady.openFrame (fun ty hty => hstable.stack ty (hgiven ty hty))
      c.state (holds_of_mem_compileCalls hc hstable hloc hstart)).always
    rw [hrun] at halways
    exact halways.state
  | @header module sig body decoderOptions c s b hc hloop hrun =>
    have halways := (hstable.steady.openLoop trivial b c.state
      (holds_of_mem_compileCalls hc hstable hloc hstart)).always
    rw [hrun] at halways
    exact halways.state

theorem ChecksStack.unshared (h : ChecksStack options s position) : s.emitter.state.Unshared := by
  cases h with
  | @entry module sig body decoderOptions c s b hc hbody hrun =>
    have hblank := (given_of_mem_compileCalls hc).blank b hbody
    obtain ⟨_, s₁, hget, hrun⟩ := run_bind_ok hrun
    cases hget
    obtain ⟨_, s₂, hsetup, hrun⟩ := run_bind_ok hrun
    cases hsetup
    obtain ⟨_, s₃, henter, hrun⟩ := run_bind_ok hrun
    cases henter
    obtain ⟨_, s₄, hspill, hrun⟩ := run_bind_ok hrun
    cases hspill
    obtain ⟨_, s₅, hparams, hrun⟩ := run_bind_ok hrun
    obtain ⟨hplaced, hunshared⟩ := params_ends hparams hblank.state
    dsimp only at hrun
    split at hrun
    · obtain ⟨_, s₆, hthrow, -⟩ := run_bind_ok hrun
      cases hthrow
    · rw [declareLocals_ends hrun]
      exact (unshared_pushLocals hplaced hunshared _).2
  | @header module sig body decoderOptions c s b hc hloop hrun =>
    obtain ⟨_, s₁, -, hrun⟩ := run_bind_ok hrun
    obtain ⟨_, s₂, hemitting, hrun⟩ := run_bind_ok hrun
    cases hemitting
    cases hrun
    exact Emitter.unshared_unshareRegs _

/-- The slow path of a stack check is invisible, for a debugger or not. Wherever the check is
emitted, it leads to a path that goes on right behind it. Whatever the guard leaves in the
registers, the values of all slots, the instance and what was pushed are then as before, and nothing
in the frame was written to but the slots of values in registers. For a debugger slots are of use if
instructions can name them, and the instance has to be in its slot. -/
theorem stack_check_is_invisible (hsite : ChecksStack options s position)
    (hchecks : s.options.stackChecks = true) :
    (∀ ctx, startBody ctx = do openFrame ctx; stackCheck ctx.pc; openBody ctx) ∧
    (∀ ctx b, loop ctx b = do openLoop b; stackCheck ctx.pc) ∧
    ∃ o l s', (stackCheck position).run.run s = (.ok (), s') ∧ s'.outOfLine = s.outOfLine.push o ∧
      o.stub = .stackGuard ∧ o.position = position ∧ o.continuation = some l ∧
      s'.emitter = ((s.emitter.addLabel.addLabel.emit
        (.loadInstanceField (.scratch .gp) .stackLimitAddress)).emit
          (.stackCheck (.scratch .gp) o.label)).bind l ∧
      (∀ a, (o.generate a).emitter = (a.emitter.bind o.label).emitAll o.code) ∧
      ∀ guard m, (s.work.sideRecord.isSome = true → s.emitter.state.Addressable ∧
          m.frame.slot instanceOffset = m.regs .instanceReg) →
        ∃ m', PathState.run? guard o.code m = some (l, m') ∧ m.Resumes m' s.emitter.state := by
  have hplaced := hsite.holds stable_placed (fun _ _ _ => trivial) (CacheState.placed_empty _)
  have hscalar := hsite.holds CacheState.stable_scalar (fun _ _ hty => hty) (forall_mem_nil _)
  obtain ⟨o, l, s', hrun, -, hmade, hstub, hposition, hl, hemitter, hpushed⟩ :=
    stackCheck_run hchecks position
  have hsaved := hmade.saved
  refine ⟨startBody_eq, loop_eq, o, l, s', hrun, hmade.paths, hstub, hposition,
    hl, hemitter, fun a => ?_, fun guard m hm => ?_⟩
  · rw [OutOfLine.emitter_generate, Emitter.emitAll_eq]
    rfl
  · cases hrecord : s.work.sideRecord with
    | none =>
      rw [hrecord] at hpushed
      exact OutOfLine.resumes_of_pushed hpushed hl hplaced m
    | some record =>
      rw [hrecord] at hpushed hm
      rw [savedRegs, hrecord] at hsaved
      obtain ⟨haddressable, hself⟩ := hm rfl
      exact OutOfLine.resumes_of_saved (hpushed ▸ rfl) hsaved hl hplaced hsite.unshared
        (hscalar.encodable haddressable) m hself

/-- A function with a parameter of either class and a local, for a debugger. -/
theorem stack_check_of_entry :
    let options : CompileOptions := { sideTable := true }
    let body : Array UInt8 := #[0x01, 0x01, 0x7E, 0x0B]
    ∃ c ∈ compileCalls {} ⟨[.i32, .f64], []⟩ body {} options, ∃ b s, c.event = .startBody b ∧
      (openFrame c.context).run.run c.state = (.ok (), s) ∧ s.options.stackChecks = true ∧
      s.emitter.state.savedRegs = [⟨.i32, .gp 0, 24⟩, ⟨.f64, .fp 0, 32⟩] ∧
      ∃ o l s', (stackCheck c.context.pc).run.run s = (.ok (), s') ∧
        s'.outOfLine = s.outOfLine.push o ∧
        ∀ guard m, m.frame.slot instanceOffset = m.regs .instanceReg →
          ∃ m', PathState.run? guard o.code m = some (l, m') ∧ m.Resumes m' s.emitter.state := by
  intro options body
  let opened (c : Call Lowering) : Except Bailout Unit × Lowering :=
    (openFrame c.context).run.run c.state
  have hfind : (compileCalls {} ⟨[.i32, .f64], []⟩ body {} options).any (fun c =>
      c.event.delimits && c.event.makesPaths && (opened c).1.toOption.isSome &&
        (opened c).2.options.stackChecks &&
        decide ((opened c).2.emitter.state.savedRegs = [⟨.i32, .gp 0, 24⟩, ⟨.f64, .fp 0, 32⟩]) &&
        (opened c).2.emitter.state.slots.all fun slot => decide (slot.offset < UInt32.size)) =
      true := by
    decide +kernel
  obtain ⟨c, hc, hcond⟩ := any_eq_true.1 hfind
  simp only [Bool.and_eq_true, decide_eq_true_eq, Array.all_eq_true_iff_forall_mem] at hcond
  obtain ⟨⟨⟨⟨⟨hdelimits, hpaths⟩, hok⟩, hchecks⟩, hsaved⟩, hoffsets⟩ := hcond
  obtain ⟨b, hbody⟩ : ∃ b, c.event = .startBody b := by
    cases he : c.event with
    | startBody b => exact ⟨b, rfl⟩
    | startFunction | finishFunction => rw [he] at hpaths; cases hpaths
    | _ => rw [he] at hdelimits; cases hdelimits
  rcases hrun : opened c with ⟨_ | _, s⟩ <;> rw [hrun] at hok hchecks hsaved hoffsets
  · cases hok
  · obtain ⟨-, -, o, l, s', hcheck, hpath, -, -, -, -, -, hresumes⟩ :=
      stack_check_is_invisible (.entry b hc hbody hrun) hchecks
    exact ⟨c, hc, b, s, hbody, hrun, hchecks, hsaved, o, l, s', hcheck, hpath, fun guard m hm =>
      hresumes guard m fun _ => ⟨hoffsets, hm⟩⟩

end Lowering

end OnePass
