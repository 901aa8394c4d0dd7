import OnePass.Proofs.Emission

/-!
One specification for each step of the emitter: the types of the slots afterwards, in terms of those
before. Everything else that a step keeps is said once, by `Onward`.
-/
namespace OnePass

open List

namespace Emitter

variable {R : Regime} {base e : Emitter} {ts as : List ValueType} {ty : ValueType} {i : Instr Label}
  {slot : Slot} {r : Reg} {index : Nat}

/-- The emitter went on from another one: straight code was appended, and the slots have
the given types. -/
structure Onward (R : Regime) (base : Emitter) (ts : List ValueType) (e : Emitter) : Prop where
  code : ∃ new : List (Instr Label), e.buffer = new.foldl CodeBuffer.emit base.buffer ∧
    ∀ i ∈ new, i.isStraight = true ∧ i.Fine R e.state.maxOffset
  state : e.state.Regular R
  types : e.state.types = ts
  numLocals : e.numLocals = base.numLocals
  room : base.state.maxOffset ≤ e.state.maxOffset

theorem Onward.refl (h : e.state.Regular R) (htypes : e.state.types = ts) : e.Onward R ts e :=
  ⟨⟨[], rfl, fun _ h => (not_mem_nil h).elim⟩, h, htypes, rfl, Nat.le_refl _⟩

section

variable (h : base.Onward R ts e)
include h

theorem Onward.trans {e' : Emitter} {ts' : List ValueType}
    (h' : e.Onward R ts' e') : base.Onward R ts' e' := by
  obtain ⟨new, hbuffer, hnew⟩ := h.code
  obtain ⟨new', hbuffer', hnew'⟩ := h'.code
  refine ⟨⟨new ++ new', by rw [hbuffer', hbuffer, foldl_append], fun i hi => ?_⟩, h'.state,
    h'.types, h'.numLocals.trans h.numLocals, Nat.le_trans h.room h'.room⟩
  rcases mem_append.1 hi with hi | hi
  · exact ⟨(hnew i hi).1, (hnew i hi).2.mono h'.room⟩
  · exact hnew' i hi

theorem Onward.emit (hstraight : i.isStraight = true)
    (hfine : i.Fine R e.state.maxOffset) : base.Onward R ts (e.emit i) := by
  obtain ⟨new, hbuffer, hnew⟩ := h.code
  refine ⟨⟨new ++ [i], by simp [Emitter.emit, hbuffer], fun j hj => ?_⟩, h.state, h.types,
    h.numLocals, h.room⟩
  rcases mem_append.1 hj with hj | hj
  · exact hnew j hj
  · cases mem_singleton.1 hj
    exact ⟨hstraight, hfine⟩

theorem Onward.emitAll {code : List (Instr Label)}
    (hcode : ∀ i ∈ code, i.isStraight = true ∧ i.Fine R e.state.maxOffset) :
    base.Onward R ts (e.emitAll code) ∧ (e.emitAll code).state = e.state := by
  induction code generalizing e with
  | nil => exact ⟨h, rfl⟩
  | cons i code ih =>
    obtain ⟨hstraight, hfine⟩ := hcode i mem_cons_self
    exact ih (h.emit hstraight hfine) fun j hj => hcode j (mem_cons_of_mem _ hj)

theorem Onward.setState {s : CacheState} (hs : s.Regular R)
    (hroom : e.state.maxOffset ≤ s.maxOffset) : base.Onward R s.types { e with state := s } := by
  obtain ⟨new, hbuffer, hnew⟩ := h.code
  exact ⟨⟨new, hbuffer, fun i hi => ⟨(hnew i hi).1, (hnew i hi).2.mono hroom⟩⟩, hs, rfl,
    h.numLocals, Nat.le_trans h.room hroom⟩

variable {loc : Location}

theorem Onward.push (hty : R.allows ty) (hloc : R.typed → loc.Suits ty) :
    base.Onward R (ts ++ [ty]) (e.modifyState (·.push ty loc)) := by
  have hpush := h.setState (h.state.push hty hloc)
    (by rw [CacheState.maxOffset_push]; exact Nat.le_max_left _ _)
  rwa [CacheState.types_push, h.types] at hpush

theorem Onward.relocate (hslot : e.state.slots[index]? = some slot)
    (hloc : R.typed → loc.Suits slot.ty) :
    base.Onward R ts (e.modifyState (·.relocate index loc)) := by
  have hrelocate := h.setState (h.state.relocate hslot hloc) (by simp)
  rwa [CacheState.types_relocate, h.types] at hrelocate

theorem Onward.fine (hslot : slot ∈ e.state.slots) :
    slot.Fine R e.state.maxOffset := h.state.fine hslot

end

/-! ## Moving values between places -/

section

variable (h : base.Onward R ts e)
include h

theorem Onward.moveReg (hty : R.allows ty) (dst src : Reg) :
    base.Onward R ts (e.moveReg ty dst src) := by
  unfold Emitter.moveReg
  split
  · exact h
  · exact h.emit rfl (.of_type hty rfl rfl)

theorem Onward.loadBits (hty : R.allows ty) (dst : Reg) (bits : UInt64) :
    base.Onward R ts (e.loadBits ty dst bits) :=
  h.emit rfl (.of_type hty rfl rfl)

theorem Onward.spill (hslot : slot.Fine R e.state.maxOffset) (src : Reg) :
    base.Onward R ts (e.spill slot.ty slot.offset src) :=
  h.emit rfl (.of_place hslot.type hslot.pos hslot.le rfl rfl)

theorem Onward.fill {offset : Nat} (hty : R.allows ty)
    (hpos : 0 < offset) (hle : offset ≤ e.state.maxOffset) (dst : Reg) :
    base.Onward R ts (e.fill ty dst offset) :=
  h.emit rfl (.of_place hty hpos hle rfl rfl)

/-- Bring the instance back. -/
theorem Onward.fillInstance : base.Onward R ts (e.fill .i64 .instanceReg instanceOffset) :=
  h.fill (R.proper .i64 (by decide)) (by decide) h.state.staticFrameSize_le _

theorem Onward.loadSlot (hslot : slot.Fine R e.state.maxOffset)
    (dst : Reg) : base.Onward R ts (e.loadSlot slot dst) := by
  unfold Emitter.loadSlot
  split
  · exact h.moveReg hslot.type _ _
  · exact h.emit rfl (.of_type hslot.type rfl rfl)
  · exact h.fill hslot.type hslot.pos hslot.le _

end

theorem state_loadSlot (e : Emitter) (slot : Slot) (dst : Reg) :
    (e.loadSlot slot dst).state = e.state := by
  cases hloc : slot.loc with
  | const value => simp only [Emitter.loadSlot, hloc, loadConstant, Emitter.emit]
  | stack => simp only [Emitter.loadSlot, hloc, Emitter.fill, Emitter.emit]
  | reg r =>
    simp only [Emitter.loadSlot, hloc, Emitter.moveReg, Emitter.emit]
    split <;> rfl

section

variable (h : base.Onward R ts e)
include h

theorem Onward.spillSlot (index : Nat) : base.Onward R ts (e.spillSlot index) := by
  unfold Emitter.spillSlot
  split
  next => exact h
  next slot hslot =>
    have hfine := h.fine (Array.mem_of_getElem? hslot)
    have hstack : R.typed → Location.stack.Suits slot.ty := fun _ => Location.suits_stack _
    split
    · exact h
    · exact (h.spill hfine _).relocate hslot hstack
    · exact (h.emit rfl (.of_place hfine.type hfine.pos hfine.le rfl rfl)).relocate hslot hstack

theorem Onward.spillWhere (p : Slot → Bool) (indices : List Nat) :
    base.Onward R ts (e.spillWhere p indices) := by
  unfold Emitter.spillWhere
  induction indices generalizing e with
  | nil => exact h
  | cons index indices ih =>
    refine ih ?_
    dsimp only
    split
    · exact h.spillSlot index
    · exact h

theorem Onward.unshareRegs : base.Onward R ts e.unshareRegs := by
  unfold Emitter.unshareRegs
  generalize range e.state.height = indices
  generalize RegSet.empty = seen
  dsimp only
  induction indices generalizing e seen with
  | nil => exact h
  | cons index indices ih =>
    rw [foldl_cons]
    split
    · split
      · exact ih (h.spillSlot index) _
      · exact ih h _
    · exact ih h _

theorem Onward.materializeSlot (index : Nat) : base.Onward R ts (e.materializeSlot index) := by
  unfold Emitter.materializeSlot
  split
  next => exact h
  next slot hslot =>
    have hfine := h.fine (Array.mem_of_getElem? hslot)
    split
    · split
      next r hr =>
        exact (h.emit rfl (.of_type hfine.type rfl rfl)).relocate hslot fun _ =>
          Location.suits_reg (CacheState.regClass_of_unused? hr)
      next => exact h.spillSlot index
    · exact h

theorem Onward.materializeConstants (count : Nat) :
    base.Onward R ts (e.materializeConstants count) := by
  unfold Emitter.materializeConstants
  generalize (range e.state.height).drop (e.state.height - count) = indices
  induction indices generalizing e with
  | nil => exact h
  | cons index indices ih => exact ih (h.materializeSlot index)

end

/-! ## Transfers -/

variable {t : Transfer}

theorem Onward.transfer (h : base.Onward R ts e) (ht : t.Fine R)
    (hdeepest : e.state.maxOffset ≤ t.deepest) : base.Onward R ts (e.transfer t) := by
  obtain ⟨hgrows, hcode⟩ := ht.code
  have hroom : e.state.maxOffset ≤ (t.code : List (Instr Label) × Nat).2 :=
    Nat.le_trans hdeepest hgrows
  -- The code may use places that are recorded after it only.
  have hrecorded := h.setState (h.state.recordOffset (t.code : List (Instr Label) × Nat).2)
    (Nat.le_max_left _ _)
  have hall := (hrecorded.emitAll fun i hi => ⟨(hcode i hi).1, (hcode i hi).2.mono
    (Nat.le_max_right e.state.maxOffset _)⟩).1
  have htypes : (e.state.recordOffset (t.code : List (Instr Label) × Nat).2).types = ts := h.types
  have hcomm : ∀ (code : List (Instr Label)) (e : Emitter) (s : CacheState),
      ({ e with state := s } : Emitter).emitAll code = { e.emitAll code with state := s } := by
    intro code
    induction code with
    | nil => exact fun _ _ => rfl
    | cons i code ih => exact fun e s => ih (e.emit i) s
  have hstate : ∀ (code : List (Instr Label)) (e : Emitter), (e.emitAll code).state = e.state := by
    intro code
    induction code with
    | nil => exact fun _ => rfl
    | cons i code ih => exact fun e => ih (e.emit i)
  rw [htypes, hcomm] at hall
  have heq : e.transfer t = { e.emitAll (t.code : List (Instr Label) × Nat).1 with
      state := e.state.recordOffset (t.code : List (Instr Label) × Nat).2 } := by
    simp only [Emitter.transfer, modifyState, hstate]
  rw [heq]
  exact hall

theorem le_scratchBase {target : CacheState} (htarget : target.Regular R) (e : Emitter) :
    e.state.maxOffset ≤ e.scratchBase target ∧ frameTop target.types ≤ e.scratchBase target := by
  rw [scratchBase, htarget.placed.topOffset_eq]
  omega

section

variable (h : base.Onward R ts e) {target state : CacheState}
include h

/-- Slots of a state and of a target are at places above the scratch area. -/
theorem Onward.transferSlots
    (htarget : target.Regular R) {slots : List Slot} (hslots : slots ⊆ e.state.slots.toList) :
    base.Onward R ts (e.transfer
      (.ofSlots (e.scratchBase target) (target.slots.toList.zip slots))) := by
  obtain ⟨hmax, htop⟩ := le_scratchBase htarget e
  have hpairs : ∀ p ∈ target.slots.toList.zip slots, p.1.Fine R (e.scratchBase target) ∧
      p.2.Fine R (e.scratchBase target) := by
    intro p hp
    obtain ⟨hdst, hsrc⟩ := of_mem_zip (show (p.1, p.2) ∈ _ from hp)
    rw [Array.mem_toList_iff] at hdst
    refine ⟨⟨htarget.allows_ty hdst, htarget.offset_pos hdst,
      Nat.le_trans (htarget.offset_mem hdst).2 htop⟩, ?_⟩
    exact (h.fine (Array.mem_toList_iff.1 (hslots hsrc))).mono hmax
  obtain ⟨hfine, hdeepest⟩ := Transfer.fine_ofSlots hpairs
  exact h.transfer hfine (Nat.le_trans hmax (Nat.le_of_eq hdeepest.symm))

theorem Onward.mergeFull (htarget : target.Regular R) : base.Onward R ts (e.mergeFull target) :=
  h.transferSlots htarget (List.Subset.refl _)

theorem Onward.mergeBranch
    (htarget : target.Regular R) (arity : Nat) : base.Onward R ts (e.mergeBranch target arity) :=
  h.transferSlots htarget (append_subset.2 ⟨take_subset _ _, drop_subset _ _⟩)

theorem Onward.steal (hstate : state.Regular R) : base.Onward R state.types (e.steal state) :=
  h.setState (hstate.recordOffset _) (Nat.le_max_right _ _)

end

/-! ## Registers for operands and results -/

section Registers

variable {pinned : RegSet} {n : Nat} {c : RegClass}

section

variable (h : base.Onward R ts e)
include h

section

variable (hpinned : pinned.AtMost 7) (c : RegClass)
include hpinned

theorem spillOneReg_upholds :
    Upholds R (spillOneReg c pinned) e fun r e' => base.Onward R ts e' ∧ r.regClass = c := by
  obtain ⟨r, recent, hnext, hclass⟩ := e.state.nextSpill?_eq (c.exists_unpinned hpinned)
  refine .get_bind ?_
  simp only [hnext]
  have hrecent : ({ e.state with lastSpilled := recent } : CacheState).Regular R :=
    ⟨⟨h.state.tracks.count, h.state.tracks.used⟩, h.state.place, h.state.room,
      h.state.allows, h.state.suits⟩
  have hset := h.setState hrecent (Nat.le_refl _)
  have htypes : ({ e.state with lastSpilled := recent } : CacheState).types = ts := h.types
  rw [htypes] at hset
  exact .modify_bind (.modify_bind (.of_pure ⟨hset.spillWhere _ _, hclass⟩))

theorem unusedReg_upholds :
    Upholds R (unusedReg c pinned) e fun r e' => base.Onward R ts e' ∧ r.regClass = c := by
  refine .get_bind ?_
  split
  next r hr => exact .of_pure ⟨h, CacheState.regClass_of_unused? hr⟩
  next => exact spillOneReg_upholds h hpinned c

theorem unusedRegFrom_upholds (candidates : RegSet) :
    Upholds R (unusedRegFrom c candidates pinned) e fun r e' =>
      base.Onward R ts e' ∧ r.regClass = c := by
  refine .get_bind ?_
  dsimp only
  split
  next r hr =>
    have hfits := find?_some hr
    simp only [Bool.and_eq_true, beq_iff_eq] at hfits
    exact .of_pure ⟨h, hfits.1.1⟩
  next => exact unusedReg_upholds h hpinned c

end

end

theorem peekSlot_eq (depth : Nat) (e : Emitter) :
    (peekSlot depth).run.run e = (match e.state.peek? depth with
      | some slot => pure slot
      | none => throw .underflow : EmitM Slot).run.run e :=
  rfl

theorem run_peekSlot {depth : Nat} {slot : Slot} (hpeek : e.state.peek? depth = some slot) :
    (peekSlot depth).run.run e = (.ok slot, e) := by
  rw [peekSlot_eq, hpeek]
  rfl

section

variable (h : base.Onward R (ts ++ [ty]) e)
include h

theorem popSlot_upholds :
    Upholds R popSlot e fun slot e' => base.Onward R ts e' ∧ slot.Fine R e'.state.maxOffset ∧
      slot.ty = ty := by
  obtain ⟨slot, s', hpop, hty, htypes⟩ := CacheState.pop?_of_types h.types
  obtain ⟨hslots, hmax, -⟩ := CacheState.pop?_eq_some hpop
  have hmem : slot ∈ e.state.slots := by
    rw [hslots]
    exact Array.mem_push_self
  have hfine := h.fine hmem
  have hset := h.setState (h.state.pop hpop) (Nat.le_of_eq hmax.symm)
  rw [htypes] at hset
  refine .get_bind ?_
  simp only [hpop]
  exact .modify_bind (.of_pure ⟨hset, hmax ▸ hfine, hty⟩)

theorem peekSlot_upholds :
    Upholds R (peekSlot 0) e fun slot e' => e' = e ∧ slot ∈ e.state.slots ∧ slot.ty = ty := by
  obtain ⟨slot, hpeek, hty, hmem⟩ := CacheState.peek?_of_types h.types
  refine .get_bind ?_
  simp only [hpeek]
  exact .of_pure ⟨rfl, hmem, hty⟩

theorem popToReg_upholds (hpinned : pinned.AtMost 7) :
    Upholds R (popToReg pinned) e fun _ e' => base.Onward R ts e' := by
  refine .bind (popSlot_upholds h) fun slot e₁ ⟨h₁, hslot, _⟩ => ?_
  split
  · exact .of_pure h₁
  · refine .bind (unusedReg_upholds (.refl h₁.state h₁.types) hpinned _)
      fun r e₂ ⟨h₂, _⟩ => .modify_bind (.of_pure ?_)
    exact (h₁.trans h₂).loadSlot (hslot.mono h₂.room) r

theorem popToModifiableReg_upholds (hpinned : pinned.AtMost 6) :
    Upholds R (popToModifiableReg pinned) e fun _ e' => base.Onward R ts e' := by
  refine .bind (peekSlot_upholds h) fun slot e' ⟨he', hslot, _⟩ => ?_
  subst he'
  have hfine := h.fine hslot
  have hpop := popToReg_upholds h (hpinned.mono (by decide))
  split
  next r hr =>
    refine .get_bind (.ite (fun _ => ?_) fun _ => hpop)
    refine .bind (popSlot_upholds (.refl h.state h.types)) fun _ e₁ ⟨h₁, _⟩ => ?_
    refine .bind (unusedReg_upholds h₁ (hpinned.insert r) _) fun copy e₂ ⟨h₂, _⟩ => ?_
    exact .modify_bind (.of_pure ((h.trans h₂).moveReg hfine.type _ _))
  next => exact hpop

end

/-- A register of the class of a type takes a value of it. -/
theorem pushReg_upholds (h : base.Onward R ts e) (hty : R.allows ty)
    (hclass : R.typed → r.regClass = .ofType ty) :
    Upholds R (pushReg ty r) e fun _ e' => base.Onward R (ts ++ [ty]) e' := by
  refine .ite (fun hr => .of_modify (h.push hty fun _ => Location.suits_reg hr)) fun hr => ?_
  exact .of_throw fun htyped => (hr (hclass htyped)).elim

end Registers

/-! ## Calls -/

theorem Onward.storeArg (h : base.Onward R ts e) (hslot : slot.Fine R e.state.maxOffset)
    (hty : R.allows ty) (place : ArgPlace) : base.Onward R ts (e.storeArg slot ty place) ∧
      (e.storeArg slot ty place).state = e.state := by
  cases place with
  | reg r => exact ⟨h, rfl⟩
  | stack index =>
    rw [Emitter.storeArg]
    dsimp only
    split
    · exact ⟨h.emit rfl (.of_type hty rfl rfl), rfl⟩
    · exact ⟨(h.loadSlot hslot _).emit rfl (.of_type hty rfl rfl), state_loadSlot ..⟩

theorem fine_loadArg (h : t.Fine R) (hslot : slot.Fine R t.deepest) (place : ArgPlace) :
    (loadArg t slot place).Fine R ∧ (loadArg t slot place).deepest = t.deepest := by
  cases place with
  | reg r => exact h.load r hslot
  | stack index => exact ⟨h, rfl⟩

theorem prepareCall_upholds {params : List ValueType} (h : base.Onward R (ts ++ as) e)
    (hlength : as.length = params.length) (hparams : ∀ ty ∈ params, R.allows ty) :
    Upholds R (prepareCall params) e fun _ e' => base.Onward R ts e' := by
  have hheight : ¬e.state.height < params.length := by
    rw [← CacheState.length_types, h.types, length_append]
    omega
  refine .get_bind (.when (Q := (· = e)) (fun hlt => (hheight hlt).elim) (fun _ => rfl)
    fun e' he' => .modify_bind (.get_bind ?_))
  subst he'
  have hspilled := h.spillWhere (·.reg?.isSome) (range (e'.state.height - params.length))
  generalize e'.spillWhere (·.reg?.isSome) (range (e'.state.height - params.length)) = e₁
    at hspilled
  generalize hargs : (e₁.state.slots.toList.drop (e'.state.height - params.length)).zip
    (params.zip (ArgPlace.passed params)) = args
  have hfine : ∀ a ∈ args, a.1.Fine R e₁.state.maxOffset ∧ R.allows a.2.1 := by
    intro a ha
    rw [← hargs] at ha
    obtain ⟨hslot, hrest⟩ := of_mem_zip (show (a.1, a.2) ∈ _ from ha)
    obtain ⟨hty, -⟩ := of_mem_zip (show (a.2.1, a.2.2) ∈ _ from hrest)
    exact ⟨hspilled.fine (Array.mem_toList_iff.1 (mem_of_mem_drop hslot)), hparams _ hty⟩
  -- Arguments on the stack are written first, then the others are moved to their registers.
  have hstores : ∀ (args : List (Slot × ValueType × ArgPlace)) (e : Emitter),
      base.Onward R (ts ++ as) e → e.state = e₁.state →
      (∀ a ∈ args, a.1.Fine R e₁.state.maxOffset ∧ R.allows a.2.1) →
      base.Onward R (ts ++ as) (args.foldl (fun e a => e.storeArg a.1 a.2.1 a.2.2) e) ∧
        (args.foldl (fun e a => e.storeArg a.1 a.2.1 a.2.2) e).state = e₁.state := by
    intro args
    induction args with
    | nil => exact fun e he hstate _ => ⟨he, hstate⟩
    | cons a args ih =>
      intro e he hstate hall
      obtain ⟨hslot, hty⟩ := hall a mem_cons_self
      obtain ⟨hnext, hsame⟩ := he.storeArg (hstate ▸ hslot) hty a.2.2
      exact ih _ hnext (hsame.trans hstate) fun a ha => hall a (mem_cons_of_mem _ ha)
  have hloads : ∀ (args : List (Slot × ValueType × ArgPlace)) (t : Transfer), t.Fine R →
      e₁.state.maxOffset ≤ t.deepest →
      (∀ a ∈ args, a.1.Fine R e₁.state.maxOffset ∧ R.allows a.2.1) →
      (args.foldl (fun t a => loadArg t a.1 a.2.2) t).Fine R ∧ e₁.state.maxOffset ≤
          (args.foldl (fun t a => loadArg t a.1 a.2.2) t).deepest := by
    intro args
    induction args with
    | nil => exact fun t ht hdeepest _ => ⟨ht, hdeepest⟩
    | cons a args ih =>
      intro t ht hdeepest hall
      obtain ⟨hnext, hsame⟩ := fine_loadArg ht ((hall a mem_cons_self).1.mono hdeepest) a.2.2
      exact ih _ hnext (hsame ▸ hdeepest) fun a ha => hall a (mem_cons_of_mem _ ha)
  obtain ⟨hstored, hstate⟩ := hstores args e₁ hspilled rfl hfine
  obtain ⟨hfineT, hdeepest⟩ := hloads args
    { deepest := max e₁.state.maxOffset e₁.state.topOffset } (Transfer.fine_empty R _)
    (Nat.le_max_left _ _) hfine
  have htransfer := hstored.transfer hfineT (hstate ▸ hdeepest)
  refine .modify_bind (.of_modify ?_)
  obtain ⟨hregular, htypes, hmax⟩ := htransfer.state.dropValues htransfer.types
  have hset := htransfer.setState hregular (Nat.le_of_eq hmax.symm)
  rw [htypes] at hset
  rw [hlength] at hset
  exact hset

theorem regClass_result (ty : ValueType) : (Reg.result ty).regClass = .ofType ty := by
  cases ty <;> rfl

theorem finishCall_upholds (h : base.Onward R ts e) {result : Option ValueType}
    (hresult : ∀ ty ∈ result, R.allows ty) :
    Upholds R (finishCall result) e fun _ e' => base.Onward R (ts ++ result.toList) e' := by
  refine .modify_bind ?_
  cases result with
  | none => exact .of_pure (by simpa using h.fillInstance)
  | some ty =>
    exact pushReg_upholds h.fillInstance (hresult ty rfl) fun _ => regClass_result ty

end Emitter

end OnePass
