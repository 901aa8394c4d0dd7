import OnePass.Proofs.Joins

/-!
What the code does that finds registers and takes operands. All of it moves data, and where a step
of the emitter changes the state of the slots, the moves that it emits bring the values along.
Registers that are pinned or back a slot keep their values, so they can be counted on while others
are found.
-/
namespace OnePass

open List

open Instr

/-! ## Steps that succeed -/

/-- The step succeeds, with such a result and state. -/
abbrev Succeeds {σ α : Type} (m : ExceptT Bailout (StateM σ) α) (s : σ) (post : α → σ → Prop) :
    Prop :=
  Settles (fun _ _ => False) m s post

theorem Succeeds.exists_run {σ α : Type} {m : StepM σ α} {s : σ} {post : α → σ → Prop}
    (h : Succeeds m s post) : ∃ a s', m.run.run s = (.ok a, s') ∧ post a s' := by
  rcases hr : m.run.run s with ⟨b | a, s'⟩
  · exact (h.refused b s' hr).elim
  · exact ⟨a, s', rfl, h.ends a s' hr⟩

/-- The step succeeds under a condition, with such a result and state, and fails otherwise. -/
structure SucceedsIff {σ α : Type} (P : Prop) (m : ExceptT Bailout (StateM σ) α) (s : σ)
    (post : α → σ → Prop) : Prop where
  succeeds : P → Succeeds m s post
  fails : ¬P → ∃ b s', m.run.run s = (.error b, s')

namespace SucceedsIff

variable {σ α β : Type} {P : Prop} {m : StepM σ α} {s : σ}
  {k : α → StepM σ β} {Q : α → σ → Prop} {post : β → σ → Prop}

/-- What comes after the step always succeeds. -/
theorem next (hm : SucceedsIff P m s Q) (hk : ∀ a s', Q a s' → Succeeds (k a) s' post) :
    SucceedsIff P (m >>= k) s post := by
  refine ⟨fun hP => (hm.succeeds hP).bind hk, fun hP => ?_⟩
  obtain ⟨b, s', hr⟩ := hm.fails hP
  exact ⟨b, s', by rw [Settles.run_run_bind, hr]⟩

/-- What comes before the step always succeeds. -/
theorem after (hm : Succeeds m s Q) (hk : ∀ a s', Q a s' → SucceedsIff P (k a) s' post) :
    SucceedsIff P (m >>= k) s post := by
  refine ⟨fun hP => hm.bind fun a s' h => (hk a s' h).succeeds hP, fun hP => ?_⟩
  obtain ⟨a, s₁, hr, hQ⟩ := hm.exists_run
  obtain ⟨b, s', hr'⟩ := (hk a s₁ hQ).fails hP
  exact ⟨b, s', by rw [Settles.run_run_bind, hr]; exact hr'⟩

theorem get_bind {k : σ → StepM σ α} (h : SucceedsIff P (k s) s Q) :
    SucceedsIff P (get >>= k) s Q := ⟨fun hP => .get_bind (h.succeeds hP), h.fails⟩

theorem of_succeeds (hP : P) (h : Succeeds m s Q) : SucceedsIff P m s Q :=
  ⟨fun _ => h, fun hn => (hn hP).elim⟩

theorem mono {Q' : α → σ → Prop} (h : SucceedsIff P m s Q) (hpost : ∀ a s', Q a s' → Q' a s') :
    SucceedsIff P m s Q' := ⟨fun hP => (h.succeeds hP).mono hpost, h.fails⟩

end SucceedsIff

/-! ## States in use -/

/-- A register of the class is not pinned. -/
def RegClass.Available (c : RegClass) (pinned : RegSet) : Prop :=
  ∃ r, c.cacheRegs.contains r = true ∧ pinned.contains r = false

namespace CacheState

variable {s s' : CacheState} {slot : Slot} {r : Reg}

/-- Offsets fit the instructions. -/
structure Ready (s : CacheState) : Prop extends s.Plain where
  small : s.maxOffset < UInt32.size

section

variable (h : s.Ready)
include h

theorem Ready.offset_lt (hslot : slot ∈ s.slots) : slot.offset < UInt32.size :=
  Nat.lt_of_le_of_lt (h.toPlain.offset_le hslot) h.small

theorem Ready.pop (hpop : s.pop? = some (slot, s')) : s'.Ready :=
  ⟨h.toPlain.pop hpop, (pop?_eq_some hpop).2.1 ▸ h.small⟩

theorem Ready.relocate (i : Nat) (loc : Location) : (s.relocate i loc).Ready :=
  ⟨h.toPlain.relocate i loc, by rw [maxOffset_relocate]; exact h.small⟩

end

/-- A register is in use if it backs a slot. -/
theorem Plain.isUsed_iff (h : s.Plain) : s.isUsed r = true ↔ ∃ slot ∈ s.slots,
    slot.loc = .reg r := by
  rw [h.tracks.used, decide_eq_true_iff, countUses, Array.countP_pos_iff]
  simp only [beq_iff_eq, Slot.reg?, Location.reg?_eq_some]

theorem Plain.isUsed_eq_false (h : s.Plain) : s.isUsed r = false ↔ ∀ slot ∈ s.slots,
    slot.loc ≠ .reg r := by
  rw [← Bool.not_eq_true, h.isUsed_iff]
  simp only [not_exists, not_and, ne_eq]

end CacheState

variable {loc : Location}

namespace DataState

variable {d d' : DataState} {s s' : CacheState} {words : List UInt64} {slot : Slot} {i : Nat}
  {r : Reg} {ty : ValueType}

@[simp] theorem regs_setReg (d : DataState) (ty : ValueType) (r : Reg) (bits : UInt64) :
    (d.setReg ty r bits).regs r = ty.narrow bits := Function.update_self ..

theorem regs_setReg_of_ne {q : Reg} (h : q ≠ r) (ty : ValueType) (bits : UInt64) :
    (d.setReg ty r bits).regs q = d.regs q := Function.update_of_ne h _ _

@[simp] theorem narrow_value (d : DataState) (slot : Slot) :
    slot.ty.narrow (d.value slot) = d.value slot :=
  ValueType.narrow_narrow ..

/-- The value of a slot is where the slot is. -/
theorem value_congr (hregs : ∀ r, slot.loc = .reg r → d'.regs r = d.regs r)
    (hframe : d'.frame.slot slot.offset = d.frame.slot slot.offset) :
      d'.value slot = d.value slot := by
  unfold DataState.value
  cases hloc : slot.loc with
  | reg r => simp only [hregs r hloc]
  | const value => simp only
  | stack => simp only [hframe]

/-- Registers and frame hold these values where the state has them. -/
structure Carries (d : DataState) (s : CacheState) (words : List UInt64) : Prop where
  realizes : d.Realizes s words
  zeroExtends : d.ZeroExtends s

section

variable (h : d.Carries s words)
include h

theorem Carries.value (hi : s.slots[i]? = some slot) : words[i]? = some (d.value slot) := by
  have hrealizes : s.slots.toList.map d.value = words := h.realizes
  rw [← hrealizes, getElem?_map, Array.getElem?_toList, hi, Option.map_some]

theorem Carries.length : words.length = s.height := by
  have hrealizes : s.slots.toList.map d.value = words := h.realizes
  rw [← hrealizes, length_map, Array.length_toList, CacheState.height]

/-- A register holds the value that it backs. -/
theorem Carries.reg (hi : s.slots[i]? = some slot) (hloc : slot.loc = .reg r) :
    words[i]? = some (d.regs r) := by
  rw [h.value hi, DataState.value, hloc]
  exact congrArg some (h.zeroExtends slot (Array.mem_of_getElem? hi) r hloc)

/-- It is enough to look at the slots and what they are backed by. -/
theorem Carries.congr (hslots : s'.slots = s.slots)
    (hregs : ∀ slot ∈ s.slots, ∀ r, slot.loc = .reg r → d'.regs r = d.regs r)
    (hframe : ∀ slot ∈ s.slots, d'.frame.slot slot.offset = d.frame.slot slot.offset) :
    d'.Carries s' words := by
  refine ⟨?_, fun slot hslot r hr => ?_⟩
  · have hrealizes : s.slots.toList.map d.value = words := h.realizes
    rw [Realizes, hslots, ← hrealizes]
    refine map_congr_left fun slot hslot => ?_
    have hmem := Array.mem_toList_iff.1 hslot
    exact value_congr (hregs slot hmem) (hframe slot hmem)
  · rw [hslots] at hslot
    rw [hregs slot hslot r hr]
    exact h.zeroExtends slot hslot r hr

/-- Registers that back no slot may change. -/
theorem Carries.setReg (hs : s.Plain) (hr : s.isUsed r = false)
    (ty : ValueType) (bits : UInt64) : (d.setReg ty r bits).Carries s words := by
  refine h.congr rfl (fun slot hslot q hq => regs_setReg_of_ne ?_ _ _) fun _ _ => rfl
  rintro rfl
  exact hs.isUsed_eq_false.1 hr slot hslot hq

theorem Carries.pop (hpop : s.pop? = some (slot, s')) : d.Carries s' (words.take s'.height) := by
  obtain ⟨hslots, -⟩ := CacheState.pop?_eq_some hpop
  refine ⟨?_, fun slot' hslot' => h.zeroExtends slot' ?_⟩
  · have hrealizes : s.slots.toList.map d.value = words := h.realizes
    rw [Realizes, ← hrealizes, hslots, Array.toList_push, map_append, CacheState.height,
      ← Array.length_toList, take_left' (length_map _)]
  · rw [hslots]
    exact Array.mem_push_of_mem _ hslot'

/-- A slot is relocated when its value is there. -/
theorem Carries.relocate (hi : s.slots[i]? = some slot)
    (hregs : ∀ slot ∈ s.slots, ∀ r, slot.loc = .reg r → d'.regs r = d.regs r)
    (hframe : ∀ (j : Nat) (slot' : Slot), s.slots[j]? = some slot' → i ≠ j →
      d'.frame.slot slot'.offset = d.frame.slot slot'.offset)
    (hvalue : d'.value { slot with loc } = d.value slot)
    (hzero : ∀ r, loc = .reg r → slot.ty.narrow (d'.regs r) = d'.regs r) :
    d'.Carries (s.relocate i loc) words := by
  have hslots := CacheState.slots_relocate hi loc
  refine ⟨ext_getElem? fun j => ?_, fun slot' hslot' r hr => ?_⟩
  · have hwords : words[j]? = (s.slots[j]?).map d.value := by
      have hrealizes : s.slots.toList.map d.value = words := h.realizes
      rw [← hrealizes, getElem?_map, Array.getElem?_toList]
    rw [getElem?_map, Array.getElem?_toList, hslots, Array.getElem?_setIfInBounds, hwords]
    by_cases hij : i = j
    · subst hij
      rw [if_pos rfl, if_pos (Array.getElem?_eq_some_iff.1 hi).1, hi,
        Option.map_some, Option.map_some, hvalue]
    · rw [if_neg hij]
      cases hj : s.slots[j]? with
      | none => rw [Option.map_none, Option.map_none]
      | some slot' =>
        rw [Option.map_some, Option.map_some]
        exact congrArg some (value_congr (hregs slot' (Array.mem_of_getElem? hj))
          (hframe j slot' hj hij))
  · rw [hslots] at hslot'
    rcases Array.mem_or_eq_of_mem_setIfInBounds hslot' with hslot' | rfl
    · rw [hregs slot' hslot' r hr]
      exact h.zeroExtends slot' hslot' r hr
    · exact hzero r hr

/-- The value of a slot is written to its place in the frame. -/
theorem Carries.spill (hs : s.Plain) (hi : s.slots[i]? = some slot)
    {bits : UInt64} (hbits : slot.ty.narrow bits = d.value slot) :
    (d.setSlot slot.ty slot.offset bits).Carries (s.relocate i .stack) words := by
  refine h.relocate hi (fun _ _ _ _ => rfl) (fun j slot' hj hne => ?_) ?_ nofun
  · refine FrameMemory.slot_setSlot_apart _ _ _ _ ?_
    rw [hs.place i slot hi, hs.place j slot' hj]
    omega
  · rw [DataState.value]
    simp only [setSlot, FrameMemory.slot_setSlot, hbits, narrow_value]

end

end DataState

/-! ## Code of the emitter -/

/-- So much was emitted in between. -/
structure Emitter.Extends (e e' : Emitter) (code : List (Instr Label)) : Prop where
  buffer : e'.buffer = code.foldl CodeBuffer.emit e.buffer
  numLocals : e'.numLocals = e.numLocals

namespace Emitter.Extends

variable {e e' e'' : Emitter} {code code' : List (Instr Label)}

theorem refl (e : Emitter) : e.Extends e [] := ⟨rfl, rfl⟩

theorem trans (h : e.Extends e' code) (h' : e'.Extends e'' code') : e.Extends e'' (code ++ code') :=
  ⟨by rw [foldl_append, ← h.buffer, h'.buffer], h'.numLocals.trans h.numLocals⟩

theorem modifyState (h : e.Extends e' code) (f : CacheState → CacheState) :
    e.Extends (e'.modifyState f) code := ⟨h.buffer, h.numLocals⟩

theorem emit (e : Emitter) (i : Instr Label) : e.Extends (e.emit i) [i] := ⟨rfl, rfl⟩

end Emitter.Extends

theorem moveAll?_singleton {i : Instr Label} {d d' : DataState} (h : i.moveData? d = some d') :
    moveAll? [i] d = some d' := by
  rw [moveAll?, h, Option.bind_some, moveAll?]

/-- The code brings the values from where `s` has them to where `s'` has the first of them. Of the
frame only slots are written. -/
def Brings (code : List (Instr Label)) (s s' : CacheState)
    (post : List UInt64 → DataState → DataState → Prop) : Prop :=
  ∀ (d : DataState) (words : List UInt64), d.Carries s words →
    ∃ d', moveAll? code d = some d' ∧ d'.Carries s' (words.take s'.height) ∧
      (∀ a : Int, -staticFrameSize ≤ a ∨ a < -(staticFrameSize + 8 * s.height : Nat) →
        d'.frame a = d.frame a) ∧ post words d d'

/-- No register changes. -/
def SameRegs (_ : List UInt64) (d d' : DataState) : Prop := d'.regs = d.regs

namespace Brings

variable {code code' : List (Instr Label)} {s s' s'' : CacheState}
  {P Q R : List UInt64 → DataState → DataState → Prop}

theorem nil (s : CacheState) : Brings [] s s SameRegs := by
  intro d words h
  refine ⟨d, rfl, ?_, fun _ _ => rfl, rfl⟩
  rwa [take_of_length_le (Nat.le_of_eq h.length)]

theorem append (h : Brings code s s' P) (h' : Brings code' s' s'' Q)
    (hheight : s''.height ≤ s'.height)
    (hpost : ∀ words d d' d'', P words d d' → Q (words.take s'.height) d' d'' → R words d d'') :
    Brings (code ++ code') s s'' R := by
  intro d words hd
  obtain ⟨d₁, hrun₁, hcarries₁, hframe₁, hP⟩ := h d words hd
  obtain ⟨d₂, hrun₂, hcarries₂, hframe₂, hQ⟩ := h' d₁ _ hcarries₁
  rw [take_take, Nat.min_eq_left hheight] at hcarries₂
  have hlength := hcarries₁.length
  rw [length_take, hd.length] at hlength
  refine ⟨d₂, ?_, hcarries₂, fun a ha => (hframe₂ a (by omega)).trans (hframe₁ a ha),
    hpost _ _ _ _ hP hQ⟩
  rw [moveAll?_append hrun₁, hrun₂]

/-- What is not in the slots does not matter. -/
theorem congr_left (h : Brings code s s' P) (hslots : s''.slots = s.slots) :
    Brings code s'' s' P := by
  intro d words hd
  have hheight : s''.height = s.height := congrArg Array.size hslots
  rw [hheight]
  exact h d words (hd.congr hslots.symm (fun _ _ _ _ => rfl) fun _ _ => rfl)

end Brings

/-- Code was emitted that brings the values along, all but those of the slots that were popped. -/
structure Emitter.Brought (e e' : Emitter) (popped : List ValueType)
    (post : List UInt64 → DataState → DataState → Prop) : Prop where
  ready : e'.state.Ready
  types : e.state.types = e'.state.types ++ popped
  maxOffset : e'.state.maxOffset = e.state.maxOffset
  code : ∃ code, e.Extends e' code ∧ Brings code e.state e'.state post

namespace Emitter

variable {e e' e'' : Emitter} {slot : Slot} {i : Nat} {r : Reg} {c : RegClass} {pinned : RegSet}
  {post P Q R : List UInt64 → DataState → DataState → Prop}

theorem Brought.refl (h : e.state.Ready) : e.Brought e [] SameRegs :=
  ⟨h, (append_nil _).symm, rfl, [], .refl e, .nil _⟩

theorem Brought.height (h : e.Brought e' [] post) : e'.state.height = e.state.height := by
  rw [← CacheState.length_types, ← CacheState.length_types, h.types, append_nil]

theorem Brought.append (h : e.Brought e' [] P)
    (h' : e'.Brought e'' [] Q)
      (hpost : ∀ words words' d d' d'', P words d d' → Q words' d' d'' → R words d d'') :
    e.Brought e'' [] R := by
  obtain ⟨code, hextends, hbrings⟩ := h.code
  obtain ⟨code', hextends', hbrings'⟩ := h'.code
  exact ⟨h'.ready, by rw [h.types, h'.types,
    append_nil], h'.maxOffset.trans h.maxOffset, code ++ code',
    hextends.trans hextends', hbrings.append hbrings' (Nat.le_of_eq h'.height) fun _ _ _ _ =>
      hpost _ _ _ _ _⟩

theorem Brought.trans (h : e.Brought e' [] SameRegs) (h' : e'.Brought e'' [] SameRegs) :
    e.Brought e'' [] SameRegs := h.append h' fun _ _ _ _ _ hregs hregs' => hregs'.trans hregs

section

variable (h : e.state.Ready)
include h

/-- The value of a slot goes where the slot is relocated to. -/
theorem brought_relocate {instr : Instr Label} {post : List UInt64 → DataState → DataState → Prop}
    (hinstr : ∀ (d : DataState) (words : List UInt64), d.Carries e.state words →
      ∃ d', instr.moveData? d = some d' ∧ d'.Carries (e.state.relocate i loc) words ∧
        (∀ a : Int, -staticFrameSize ≤ a ∨ a < -(staticFrameSize + 8 * e.state.height : Nat) →
          d'.frame a = d.frame a) ∧ post words d d') :
    e.Brought ((e.emit instr).modifyState (·.relocate i loc)) [] post := by
  refine ⟨h.relocate i loc, ?_, CacheState.maxOffset_relocate _ _ _, [instr],
    (Extends.emit e instr).modifyState _, fun d words hd => ?_⟩
  · rw [append_nil]
    exact (CacheState.types_relocate _ _ _).symm
  · obtain ⟨d', hdata, hcarries, hframe, hpost⟩ := hinstr d words hd
    have hheight : (e.state.relocate i loc).height = e.state.height := by
      rw [← CacheState.length_types, CacheState.types_relocate, CacheState.length_types]
    refine ⟨d', moveAll?_singleton hdata, ?_, hframe, hpost⟩
    rwa [modifyState, emit, hheight, take_of_length_le (Nat.le_of_eq hd.length)]

/-- The value of a slot goes to its place in the frame. -/
theorem spillSlot_brings (i : Nat) : e.Brought (e.spillSlot i) [] SameRegs := by
  have hmove {slot : Slot} {instr : Instr Label} (hslot : e.state.slots[i]? = some slot)
      (hinstr : ∀ d : DataState, ∃ bits,
        instr.moveData? d = some (d.setSlot slot.ty slot.offset bits) ∧
        slot.ty.narrow bits = d.value slot) :
      e.Brought ((e.emit instr).modifyState (·.relocate i .stack)) [] SameRegs := by
    refine brought_relocate h fun d words hd => ?_
    obtain ⟨bits, hdata, hbits⟩ := hinstr d
    obtain ⟨-, hlow, hhigh⟩ := h.toPlain.offset_mem (Array.mem_of_getElem? hslot)
    exact ⟨_, hdata, hd.spill h.toPlain hslot hbits,
      fun a ha => FrameMemory.setSlot_apply _ _ _ (by omega), rfl⟩
  unfold spillSlot
  split
  next => exact .refl h
  next slot hslot =>
    have hmem := Array.mem_of_getElem? hslot
    have hty := h.toPlain.scalar_slot hmem
    have hoffset : (UInt32.ofNat slot.offset).toNat = slot.offset :=
      UInt32.toNat_ofNat_of_lt' (h.offset_lt hmem)
    split
    next => exact .refl h
    next r hloc =>
      refine hmove hslot fun d => ⟨d.regs r, ?_, by rw [DataState.value, hloc]⟩
      rw [moveData?, if_neg hty, hoffset]
    next value hloc =>
      refine hmove hslot fun d => ⟨value.toInt64.toUInt64, ?_, ?_⟩
      · rw [moveData?, if_neg hty, hoffset]
      · rw [DataState.value, hloc]
        exact (ValueType.narrow_constBits _ _).symm

theorem spillWhere_brings (p : Slot → Bool) (indices : List Nat) :
    e.Brought (e.spillWhere p indices) [] SameRegs := by
  induction indices generalizing e with
  | nil => exact .refl h
  | cons i indices ih =>
    rw [spillWhere, foldl_cons, ← spillWhere]
    split
    next =>
      have hfirst := spillSlot_brings h i
      exact hfirst.trans (ih hfirst.ready)
    next => exact ih h

/-- Slots are spilled whose register was seen before. -/
theorem unshareRegs_brings : e.Brought e.unshareRegs [] SameRegs := by
  unfold unshareRegs
  dsimp only
  generalize range e.state.height = indices
  generalize RegSet.empty = seen
  induction indices generalizing e seen with
  | nil => exact .refl h
  | cons i indices ih =>
    rw [foldl_cons]
    split
    next =>
      split
      next =>
        have hfirst := spillSlot_brings h i
        exact hfirst.trans (ih hfirst.ready _)
      next => exact ih h _
    next => exact ih h _

end

/-! ## Constants -/

/-- Only registers are written that backed no slot, and those do now. -/
def FillsUnused (e e' : Emitter) (_ : List UInt64) (d d' : DataState) : Prop :=
  ∀ r, d'.regs r ≠ d.regs r → r.regClass.cacheRegs.contains r = true ∧
    e.state.isUsed r = false ∧ e'.state.isUsed r = true

/-- Slots got registers, and none lost its own. -/
structure Filled (e e' : Emitter) : Prop extends e.Brought e' [] (e.FillsUnused e') where
  used : ∀ r, e.state.isUsed r = true → e'.state.isUsed r = true

theorem Brought.fillsUnused (h : e.Brought e' [] SameRegs) (e'' : Emitter) :
    e.Brought e' [] (e.FillsUnused e'') :=
  h.append (.refl h.ready) fun _ _ _ _ _ hregs hregs' r hr =>
    (hr (congrFun (hregs'.trans hregs) r)).elim

theorem Filled.trans (h : e.Filled e') (h' : e'.Filled e'') : e.Filled e'' := by
  refine ⟨h.append h'.toBrought fun _ _ d d' d'' hregs hregs' r hr => ?_,
    fun r hr => h'.used r (h.used r hr)⟩
  by_cases hfirst : d'.regs r = d.regs r
  · obtain ⟨hcache, hfree, hused⟩ := hregs' r (by rwa [hfirst])
    refine ⟨hcache, ?_, hused⟩
    by_contra hr
    rw [Bool.not_eq_false] at hr
    rw [h.used r hr] at hfree
    cases hfree
  · obtain ⟨hcache, hfree, hused⟩ := hregs r hfirst
    exact ⟨hcache, hfree, h'.used r hused⟩

/-- Only constants are moved. -/
theorem mem_materializeSlot (hslot : slot ∈ e.state.slots) (hloc : slot.loc = .reg r) (i : Nat) :
    slot ∈ (e.materializeSlot i).state.slots := by
  obtain ⟨j, hj⟩ := Array.getElem?_of_mem hslot
  unfold materializeSlot
  split
  next => exact hslot
  next slot' hi =>
    split
    next value hvalue =>
      have hne : i ≠ j := by
        rintro rfl
        cases hi.symm.trans hj
        cases hvalue.symm.trans hloc
      refine Array.mem_of_getElem? (i := j) ?_
      split
      next q _ =>
        show (e.state.relocate i (.reg q)).slots[j]? = some slot
        rw [CacheState.slots_relocate hi, Array.getElem?_setIfInBounds_ne hne, hj]
      next => rw [slots_spillSlot, if_neg hne, hj]
    next => exact hslot

/-- A constant gets a register that backs no slot, or its place in the frame. -/
theorem materializeSlot_brings (h : e.state.Ready) (i : Nat) :
    e.Brought (e.materializeSlot i) [] (e.FillsUnused (e.materializeSlot i)) := by
  unfold materializeSlot
  split
  next => exact (Brought.refl h).fillsUnused _
  next slot hslot =>
    split
    next value hloc =>
      split
      next r hr =>
        obtain ⟨hcache, hfree, -⟩ := CacheState.unused?_eq_some hr
        have hunused := h.toPlain.isUsed_eq_false.1 hfree
        refine brought_relocate h fun d words hd =>
          ⟨d.setReg slot.ty r (constBits slot.ty value), ?_, ?_, fun _ _ => rfl, fun q hq => ?_⟩
        · rw [moveData?, if_neg (h.toPlain.scalar_slot (Array.mem_of_getElem? hslot))]
        · refine hd.relocate hslot (fun slot' hslot' q hq => DataState.regs_setReg_of_ne ?_ _ _)
            (fun _ _ _ _ => rfl) ?_ ?_
          · rintro rfl
            exact hunused slot' hslot' hq
          · rw [DataState.value, DataState.value, hloc]
            simp only [DataState.regs_setReg, ValueType.narrow_narrow]
          · rintro _ ⟨⟩
            rw [DataState.regs_setReg, ValueType.narrow_narrow]
        · obtain rfl : q = r := by
            by_contra hne
            exact hq (DataState.regs_setReg_of_ne hne _ _)
          refine ⟨?_, hfree, (h.relocate i (.reg q)).toPlain.isUsed_iff.2
            ⟨_, Array.mem_of_getElem? (CacheState.slot_relocate hslot _), rfl⟩⟩
          rwa [CacheState.regClass_of_unused? hr]
      next => exact (spillSlot_brings h i).fillsUnused _
    next => exact (Brought.refl h).fillsUnused _

theorem materializeSlot_fills (h : e.state.Ready) (i : Nat) : e.Filled (e.materializeSlot i) := by
  have hbrought := materializeSlot_brings h i
  refine ⟨hbrought, fun r hr => ?_⟩
  obtain ⟨slot, hslot, hloc⟩ := h.toPlain.isUsed_iff.1 hr
  exact hbrought.ready.toPlain.isUsed_iff.2 ⟨slot, mem_materializeSlot hslot hloc i, hloc⟩

theorem materializeConstants_fills (h : e.state.Ready) (count : Nat) :
    e.Filled (e.materializeConstants count) := by
  unfold materializeConstants
  generalize (range e.state.height).drop (e.state.height - count) = indices
  induction indices generalizing e with
  | nil => exact ⟨(Brought.refl h).fillsUnused e, fun _ hr => hr⟩
  | cons i indices ih =>
    have hfirst := materializeSlot_fills h i
    exact hfirst.trans (ih hfirst.ready)

/-! ## Registers -/

/-- Spilling puts no register into use. -/
theorem loc_spillWhere {e : Emitter} {p : Slot → Bool} {indices : List Nat}
    (hslot : slot ∈ (e.spillWhere p indices).state.slots) (hloc : slot.loc = .reg r) :
    slot ∈ e.state.slots ∧ ∃ i, e.state.slots[i]? = some slot ∧ ¬(i ∈ indices ∧ p slot) := by
  obtain ⟨i, hi⟩ := Array.getElem?_of_mem hslot
  rw [slots_spillWhere, Option.map_eq_some_iff] at hi
  obtain ⟨slot', hslot', rfl⟩ := hi
  split at hloc
  next => cases hloc
  next hkept =>
    rw [if_neg hkept]
    exact ⟨Array.mem_of_getElem? hslot', i, hslot', hkept⟩

/-- A register is no longer in use once what it backs is spilled. -/
theorem isUsed_spillReg (h : e.state.Ready) (r : Reg) : (e.spillReg r).state.isUsed r = false := by
  have hafter := (spillWhere_brings h (·.reg? == some r) (range e.state.height).reverse).ready
  refine hafter.toPlain.isUsed_eq_false.2 fun slot hslot hloc => ?_
  obtain ⟨-, i, hi, hkept⟩ := loc_spillWhere hslot hloc
  refine hkept ⟨?_, ?_⟩
  · rw [mem_reverse, mem_range]
    exact (Array.getElem?_eq_some_iff.1 hi).1
  · rw [Slot.reg?, hloc]
    exact beq_self_eq_true _

/-- A register was found that backs no slot; others were at most taken out of use. -/
structure Found (e e' : Emitter) (pinned : RegSet) (r : Reg) :
    Prop extends e.Brought e' [] SameRegs where
  kept : ∀ slot ∈ e'.state.slots, ∀ r, slot.loc = .reg r → slot ∈ e.state.slots
  unpinned : pinned.contains r = false
  free : e'.state.isUsed r = false

section

variable (h : e.state.Ready)
include h

theorem Found.of_free (hunpinned : pinned.contains r = false)
    (hfree : e.state.isUsed r = false) : e.Found e pinned r :=
  ⟨.refl h, fun _ hslot _ _ => hslot, hunpinned, hfree⟩

/-- The steps that find a register fail only if all of them are pinned. -/
theorem spillOneReg_succeeds (c : RegClass) (pinned : RegSet) :
    SucceedsIff (c.Available pinned) (spillOneReg c pinned) e fun r e' =>
      e.Found e' pinned r ∧ c.cacheRegs.contains r = true := by
  refine ⟨fun havailable => ?_, fun hnone => ?_⟩
  · obtain ⟨r, recent, hnext, -⟩ := e.state.nextSpill?_eq havailable
    obtain ⟨hcache, hunpinned⟩ := CacheState.contains_of_nextSpill? hnext
    refine .get_bind ?_
    simp only [hnext]
    refine .modify_bind (.modify_bind (.of_pure ⟨?_, hcache⟩))
    have hrecent : ({ e.state with lastSpilled := recent } : CacheState).Ready :=
      ⟨spillable_plain.recent _ _ h.toPlain, h.small⟩
    obtain ⟨hready, htypes, hmax, code, hextends, hbrings⟩ := spillWhere_brings
      (e := { e with state := { e.state with lastSpilled := recent } }) hrecent (·.reg? == some r)
      (range e.state.height).reverse
    exact ⟨⟨hready, htypes, hmax, code, ⟨hextends.buffer, hextends.numLocals⟩,
      hbrings.congr_left rfl⟩,
      fun slot hslot q hq => (loc_spillWhere hslot hq).1, hunpinned, isUsed_spillReg hrecent r⟩
  · cases hnext : e.state.nextSpill? c pinned with
    | mk found state =>
      cases found with
      | some r => exact (hnone ⟨r, CacheState.contains_of_nextSpill? hnext⟩).elim
      | none =>
        refine ⟨.internal s!"every {c.ident} register is pinned", { e with state }, ?_⟩
        have hget (k : Emitter → EmitM Reg) : (get >>= k).run.run e = (k e).run.run e := rfl
        rw [spillOneReg, hget, hnext]
        rfl

theorem unusedReg_succeeds (c : RegClass) (pinned : RegSet) :
    SucceedsIff (c.Available pinned) (unusedReg c pinned) e fun r e' =>
      e.Found e' pinned r ∧ c.cacheRegs.contains r = true := by
  refine .get_bind ?_
  split
  next r hr =>
    obtain ⟨hcache, hfree, hunpinned⟩ := CacheState.unused?_eq_some hr
    exact .of_succeeds ⟨r, hcache, hunpinned⟩ (.of_pure ⟨.of_free h hunpinned hfree, hcache⟩)
  next => exact spillOneReg_succeeds h c pinned

/-- Candidates come first if they fit. -/
theorem unusedRegFrom_succeeds (c : RegClass) (candidates pinned : RegSet) :
    SucceedsIff ((∃ r, candidates.contains r = true ∧ r.regClass = c ∧ e.state.isUsed r = false ∧
        pinned.contains r = false) ∨ c.Available pinned)
      (unusedRegFrom c candidates pinned) e fun r e' => e.Found e' pinned r ∧ r.regClass = c ∧
        (c.cacheRegs.contains r = true ∨ candidates.contains r = true) := by
  refine .get_bind ?_
  dsimp only
  split
  next r hr =>
    have hfits := find?_some hr
    have hmem := (mem_filter.1 (mem_of_find?_eq_some hr)).2
    simp only [Bool.and_eq_true, beq_iff_eq, Bool.not_eq_true'] at hfits
    obtain ⟨⟨hclass, hfree⟩, hunpinned⟩ := hfits
    exact .of_succeeds (.inl ⟨r, hmem, hclass, hfree, hunpinned⟩)
      (.of_pure ⟨.of_free h hunpinned hfree, hclass, .inr hmem⟩)
  next hr =>
    have hnone : ¬∃ r, candidates.contains r = true ∧ r.regClass = c ∧ e.state.isUsed r = false ∧
        pinned.contains r = false := by
      rintro ⟨r, hmem, hclass, hfree, hunpinned⟩
      have := find?_eq_none.1 hr r (mem_filter.2 ⟨Reg.mem_all r, hmem⟩)
      simp [hclass, hfree, hunpinned] at this
    rw [or_iff_right hnone]
    exact (unusedReg_succeeds h c pinned).mono fun r e' hr =>
      ⟨hr.1, RegClass.regClass_of_contains hr.2, .inl hr.2⟩

end

/-! ## Operands -/

/-- The register holds the value with that index; others, and pinned ones, keep theirs. -/
def Taken (index : Nat) (r : Reg) (pinned : RegSet) (words : List UInt64) (d d' : DataState) :
    Prop :=
  words[index]? = some (d'.regs r) ∧ ∀ q, q ≠ r ∨ pinned.contains q = true → d'.regs q = d.regs q

/-- The topmost value was popped into a register. -/
structure Popped (e e' : Emitter) (slot : Slot) (pinned : RegSet) (r : Reg) : Prop
    extends e.Brought e' [slot.ty] (Taken e'.state.height r pinned) where
  kept : ∀ slot ∈ e'.state.slots, ∀ r, slot.loc = .reg r → slot ∈ e.state.slots
  cache : slot.loc = .reg r ∨ slot.regClass.cacheRegs.contains r = true

/-- A slot is loaded into a register. -/
theorem loadSlot_extends (e : Emitter) (hty : slot.ty ≠ .v128) (hoffset : slot.offset < UInt32.size)
    (r : Reg) : ∃ code, e.Extends (e.loadSlot slot r) code ∧ ∀ d : DataState,
      moveAll? code d = some (d.setReg slot.ty r (d.value slot)) ∨
        moveAll? code d = some d ∧ slot.loc = .reg r := by
  have hone {i : Instr Label} {word : DataState → UInt64}
      (hi : ∀ d, i.moveData? d = some (d.setReg slot.ty r (word d)))
      (hword : ∀ d : DataState, d.value slot = slot.ty.narrow (word d)) :
        ∃ code, e.Extends (e.emit i) code ∧
        ∀ d, moveAll? code d = some (d.setReg slot.ty r (d.value slot)) ∨ moveAll? code d = some d ∧
          slot.loc = .reg r := by
    refine ⟨[i], .emit e i, fun d => .inl (moveAll?_singleton ?_)⟩
    rw [hi, hword, DataState.setReg, DataState.setReg, ValueType.narrow_narrow]
  unfold loadSlot
  split
  next q hloc =>
    unfold moveReg
    split
    next heq => exact ⟨[], .refl e, fun d => .inr ⟨rfl, by rw [hloc, heq]⟩⟩
    next => exact hone (fun d => if_neg hty) fun d => by rw [DataState.value, hloc]
  next value hloc => exact hone (fun d => if_neg hty) fun d => by rw [DataState.value, hloc]
  next hloc =>
    refine hone (fun d => if_neg hty) fun d => ?_
    rw [DataState.value, hloc, UInt32.toNat_ofNat_of_lt' hoffset]

section

variable {s' : CacheState}

section

variable (hpop : e.state.pop? = some (slot, s'))
include hpop

theorem popSlot_succeeds : Succeeds popSlot e fun slot' e' => slot' = slot ∧
    e' = { e with state := s' } := by
  refine .get_bind ?_
  simp only [hpop]
  exact .modify_bind (.of_pure ⟨rfl, rfl⟩)

theorem peekSlot_succeeds : Succeeds peekSlot e fun slot' e' => slot' = slot ∧ e' = e := by
  have hpeek : e.state.peek? 0 = some slot := by
    have hslots := (CacheState.pop?_eq_some hpop).1
    rw [CacheState.peek?, CacheState.height, hslots, Array.size_push,
      if_pos (by omega), Nat.sub_zero, Nat.add_sub_cancel, Array.getElem?_push_size]
  refine .get_bind ?_
  simp only [hpeek]
  exact .of_pure ⟨rfl, rfl⟩

theorem types_of_pop? : e.state.types = s'.types ++ [slot.ty] := by
  rw [CacheState.types, (CacheState.pop?_eq_some hpop).1, Array.toList_push,
    map_append, CacheState.types, map_singleton]

theorem getElem?_of_pop? : e.state.slots[s'.height]? = some slot := by
  rw [(CacheState.pop?_eq_some hpop).1, CacheState.height, Array.getElem?_push_size]

theorem mem_of_pop? {slot' : Slot} (h : slot' ∈ s'.slots) : slot' ∈ e.state.slots := by
  rw [(CacheState.pop?_eq_some hpop).1]
  exact Array.mem_push_of_mem _ h

end

section

variable (h : e.state.Ready)
include h

section

variable (hpop : e.state.pop? = some (slot, s'))
include hpop

/-- The register of a slot is taken as it is. -/
theorem popped_of_reg
    (hloc : slot.loc = .reg r) (pinned : RegSet) :
      e.Popped { e with state := s' } slot pinned r := by
  refine ⟨⟨h.pop hpop, types_of_pop? hpop, (CacheState.pop?_eq_some hpop).2.1, [], ⟨rfl, rfl⟩,
    fun d words hd => ⟨d, rfl, hd.pop hpop, fun _ _ => rfl, ?_, fun _ _ => rfl⟩⟩,
    fun slot' hslot' _ _ => mem_of_pop? hpop hslot', .inl hloc⟩
  exact hd.reg (getElem?_of_pop? hpop) hloc

/-- Any other slot is loaded into a register that was found for it. -/
theorem popped_of_found (hfound : ({ e with state := s' } : Emitter).Found e' pinned r)
    (hcache : slot.regClass.cacheRegs.contains r = true) (hloc : ∀ q, slot.loc = .reg q → q ≠ r) :
    e.Popped (e'.loadSlot slot r) slot pinned r := by
  have hmem := Array.mem_of_getElem? (getElem?_of_pop? hpop)
  have hstate : (e'.loadSlot slot r).state = e'.state := state_loadSlot e' slot r
  obtain ⟨code, hextends, hbrings⟩ := hfound.code
  obtain ⟨code', hextends', hload⟩ :=
    e'.loadSlot_extends (h.toPlain.scalar_slot hmem) (h.offset_lt hmem) r
  have hheight : e'.state.height = s'.height := hfound.height
  have htypes : s'.types = e'.state.types ++ [] := hfound.types
  refine ⟨⟨hstate ▸ hfound.ready, ?_, ?_, code ++ code',
    (⟨hextends.buffer, hextends.numLocals⟩ : e.Extends e' code).trans hextends',
      fun d words hd => ?_⟩,
    fun slot' hslot' q hq => mem_of_pop? hpop (hfound.kept slot' (hstate ▸ hslot') q hq),
      .inr hcache⟩
  · rw [hstate, types_of_pop? hpop, htypes, append_nil]
  · rw [hstate, hfound.maxOffset]
    exact (CacheState.pop?_eq_some hpop).2.1
  · obtain ⟨d₁, hrun₁, hcarries₁, hframe₁, hregs₁⟩ := hbrings d _ (hd.pop hpop)
    have hregs₁ : d₁.regs = d.regs := hregs₁
    have hload₁ : moveAll? code' d₁ = some (d₁.setReg slot.ty r (d₁.value slot)) :=
      (hload d₁).resolve_right fun hr => hloc r hr.2 rfl
    have hvalue : d₁.value slot = d.value slot := by
      refine DataState.value_congr (fun q _ => congrFun hregs₁ q)
        (FrameMemory.slot_congr fun a hle hlt => ?_)
      have hplace := h.toPlain.place s'.height slot (getElem?_of_pop? hpop)
      exact hframe₁ a (.inr (by dsimp only; omega))
    have hlength := (hd.pop hpop).length
    rw [hheight, take_of_length_le (Nat.le_of_eq hlength)] at hcarries₁
    refine ⟨d₁.setReg slot.ty r (d₁.value slot), ?_, ?_, fun a ha => ?_, ?_, fun q hq => ?_⟩
    · rw [moveAll?_append hrun₁, hload₁]
    · rw [hstate, hheight]
      exact hcarries₁.setReg hfound.ready.toPlain hfound.free _ _
    · refine hframe₁ a (ha.imp id fun ha => ?_)
      have hle : s'.height ≤ e.state.height := by
        rw [CacheState.height, CacheState.height, (CacheState.pop?_eq_some hpop).1, Array.size_push]
        omega
      dsimp only
      omega
    · rw [hstate, hheight, hd.value (getElem?_of_pop? hpop), DataState.regs_setReg, hvalue,
        DataState.narrow_value]
    · rw [DataState.regs_setReg_of_ne, hregs₁]
      rintro rfl
      rcases hq with hq | hq
      · exact hq rfl
      · rw [hfound.unpinned] at hq
        cases hq

/-- A register is found unless all are pinned; none is needed if the value is in one. -/
theorem popToReg_succeeds (pinned : RegSet) :
    SucceedsIff ((∃ r, slot.loc = .reg r) ∨ slot.regClass.Available pinned) (popToReg pinned) e
      fun r e' => e.Popped e' slot pinned r ∧
        ((∀ q, slot.loc = .reg q → e.state.useCount q ≤ 1) → e'.state.isUsed r = false) := by
  refine .after (popSlot_succeeds hpop) fun slot' e₁ hpopped => ?_
  rw [hpopped.1, hpopped.2]
  split
  next r hloc =>
    refine .of_succeeds (.inl ⟨r, hloc⟩)
      (.of_pure ⟨popped_of_reg h hpop hloc pinned, fun hcount => ?_⟩)
    -- The slot was the only one that the register backed.
    have huses : CacheState.countUses e.state.slots r = CacheState.countUses s'.slots r + 1 := by
      rw [(CacheState.pop?_eq_some hpop).1, CacheState.countUses_push, Location.uses, hloc,
        if_pos (Location.reg?_eq_some.2 rfl)]
    have hone := hcount r hloc
    rw [h.tracks.count, huses] at hone
    show s'.isUsed r = false
    rw [(h.pop hpop).tracks.used, decide_eq_false_iff_not]
    omega
  next hloc =>
    rw [or_iff_right (by rintro ⟨r, hr⟩; exact hloc r hr)]
    refine (unusedReg_succeeds (h.pop hpop) slot.regClass pinned).next fun r e' hfound => ?_
    refine .modify_bind (.of_pure
      ⟨popped_of_found h hpop hfound.1 hfound.2 fun q hq => (hloc q hq).elim, fun _ => ?_⟩)
    rw [state_loadSlot]
    exact hfound.1.free

end

end

/-- What has to be left for a value to be popped into a register that may be overwritten: a value
that shares its register with another slot is copied. -/
def CanModify (e : Emitter) (slot : Slot) (pinned : RegSet) : Prop :=
  match slot.loc with
  | .reg r => e.state.useCount r ≤ 1 ∨ slot.regClass.Available (pinned.insert r)
  | _ => slot.regClass.Available pinned

/-- The register may be overwritten. -/
theorem popToModifiableReg_succeeds (h : e.state.Ready) (hpop : e.state.pop? = some (slot, s'))
    (pinned : RegSet) : SucceedsIff (e.CanModify slot pinned) (popToModifiableReg pinned) e
      fun r e' => e.Popped e' slot pinned r ∧ e'.state.isUsed r = false := by
  refine .after (peekSlot_succeeds hpop) fun slot' e₁ hpeeked => ?_
  rw [hpeeked.1, hpeeked.2, CanModify]
  have hother (hloc : ∀ r, slot.loc ≠ .reg r) :
      SucceedsIff (slot.regClass.Available pinned) (popToReg pinned) e
      fun r e' => e.Popped e' slot pinned r ∧ e'.state.isUsed r = false := by
    have hpopped := popToReg_succeeds h hpop pinned
    rw [or_iff_right (not_exists.2 hloc)] at hpopped
    exact hpopped.mono fun r e' hr => ⟨hr.1, hr.2 fun q hq => (hloc q hq).elim⟩
  cases hloc : slot.loc with
  | reg r =>
    simp only [Slot.reg?, hloc, Location.reg?]
    refine .get_bind ?_
    split
    next hshared =>
      rw [or_iff_right (by omega)]
      refine .after (popSlot_succeeds hpop) fun slot' e₁ hpopped => ?_
      rw [hpopped.2]
      refine (unusedReg_succeeds (h.pop hpop) slot.regClass (pinned.insert r)).next
        fun copy e' hfound => ?_
      have hcopy : e'.moveReg slot.ty copy r = e'.loadSlot slot copy := by rw [loadSlot, hloc]
      have hunpinned := hfound.1.unpinned
      rw [RegSet.contains_insert, Bool.or_eq_false_iff, decide_eq_false_iff_not] at hunpinned
      refine .modify_bind (.of_pure ⟨?_, ?_⟩)
      · rw [hcopy]
        refine popped_of_found h hpop { hfound.1 with unpinned := hunpinned.1 } hfound.2 fun q hq =>
          ?_
        cases hloc.symm.trans hq
        exact hunpinned.2
      · rw [hcopy, state_loadSlot]
        exact hfound.1.free
    next hcount =>
      refine .of_succeeds (.inl (by omega)) (((popToReg_succeeds h hpop pinned).succeeds
        (.inl ⟨r, hloc⟩)).mono fun r' e' hr => ⟨hr.1, hr.2 fun q hq => ?_⟩)
      cases hloc.symm.trans hq
      omega
  | const value =>
    simp only [Slot.reg?, hloc, Location.reg?]
    exact hother fun r hr => by cases hloc.symm.trans hr
  | stack =>
    simp only [Slot.reg?, hloc, Location.reg?]
    exact hother fun r hr => by cases hloc.symm.trans hr

end

/-- Finding registers, spilling and popping lose no value. A register is found unless all of its
class are pinned, the code for it writes none, and a value that is popped is in the register that is
returned. Constants are loaded into registers that back no slot, pinned or not. -/
theorem allocation_loses_no_value (e : Emitter) (h : e.state.Ready) (pinned : RegSet) :
    (∀ c, SucceedsIff (c.Available pinned) (unusedReg c pinned) e fun r e' =>
      e.Found e' pinned r ∧ c.cacheRegs.contains r = true) ∧
    (∀ c candidates, SucceedsIff ((∃ r, candidates.contains r = true ∧ r.regClass = c ∧
        e.state.isUsed r = false ∧ pinned.contains r = false) ∨ c.Available pinned)
      (unusedRegFrom c candidates pinned) e fun r e' => e.Found e' pinned r ∧ r.regClass = c ∧
        (c.cacheRegs.contains r = true ∨ candidates.contains r = true)) ∧
    (∀ r, e.Brought (e.spillReg r) [] SameRegs ∧ (e.spillReg r).state.isUsed r = false) ∧
    (∀ i, e.Brought (e.spillSlot i) [] SameRegs) ∧ e.Brought e.spillLocals [] SameRegs ∧
    e.Brought e.spillAllRegs [] SameRegs ∧ e.Brought e.unshareRegs [] SameRegs ∧
    (∀ count, e.Filled (e.materializeConstants count)) ∧
    ∀ slot s', e.state.pop? = some (slot, s') →
      (SucceedsIff ((∃ r, slot.loc = .reg r) ∨ slot.regClass.Available pinned) (popToReg pinned) e
        fun r e' => e.Popped e' slot pinned r) ∧
      SucceedsIff (e.CanModify slot pinned) (popToModifiableReg pinned) e
        fun r e' => e.Popped e' slot pinned r ∧ e'.state.isUsed r = false :=
  ⟨fun c => unusedReg_succeeds h c pinned,
    fun c candidates => unusedRegFrom_succeeds h c candidates pinned,
    fun r => ⟨spillWhere_brings h _ _, isUsed_spillReg h r⟩, fun i => spillSlot_brings h i,
    spillWhere_brings h _ _, spillWhere_brings h _ _, unshareRegs_brings h,
    materializeConstants_fills h, fun _ _ hpop =>
      ⟨(popToReg_succeeds h hpop pinned).mono fun _ _ hr => hr.1,
        popToModifiableReg_succeeds h hpop pinned⟩⟩

/-- No register can be kept from being loaded with a constant: here it is the lowest one. -/
theorem materializeConstants_writes_pinned :
    let state := ({} : CacheState).push .i32 (.const 7)
    let pinned := RegSet.empty.insert (.gp 0)
    state.Ready ∧ ∃ code d d',
      ({ state } : Emitter).Extends (materializeConstants { state } 1) code ∧
      d.Carries state [7] ∧ moveAll? code d = some d' ∧
      pinned.contains (.gp 0) = true ∧ d'.regs (.gp 0) ≠ d.regs (.gp 0) := by
  intro state pinned
  have hready : state.Ready := ⟨CacheState.plain_empty.push (by decide) _, by decide⟩
  have hslots : state.slots = #[⟨.i32, .const 7, 24⟩] := rfl
  have hfree : state.unused? (RegClass.ofType .i32) .empty = some (.gp 0) := by decide
  have hemitted : materializeConstants { state } 1 =
      (loadConstant { state } .i32 (.gp 0) 7).modifyState (·.relocate 0 (.reg (.gp 0))) := by
    show materializeSlot { state } 0 = _
    simp only [materializeSlot, hslots, List.getElem?_toArray, getElem?_cons_zero,
      Slot.regClass, hfree]
  let d : DataState := ⟨fun _ => 0, fun _ => 0⟩
  refine ⟨hready, [.loadConst .i32 (.gp 0) 7], d, d.setReg .i32 (.gp 0) 7, ?_, ⟨rfl, ?_⟩, rfl,
    by decide, by decide⟩
  · rw [hemitted]
    exact (Extends.emit _ _).modifyState _
  · intro slot hslot r hloc
    rw [hslots, List.mem_toArray, mem_singleton] at hslot
    subst hslot
    cases hloc

/-- A value that shares its register is copied, and another register is pinned. -/
theorem allocation_copies_shared_value :
    let state := (({} : CacheState).push .i32 (.reg (.gp 0))).push .i32 (.reg (.gp 0))
    let pinned := RegSet.empty.insert (.gp 1)
    Succeeds (popToModifiableReg pinned) { state } fun r e' =>
      ({ state } : Emitter).Popped e' ⟨.i32, .reg (.gp 0), 32⟩ pinned r ∧
        e'.state.isUsed r = false := by
  intro state pinned
  have hready : state.Ready :=
    ⟨(CacheState.plain_empty.push (by decide) _).push (by decide) _, by decide⟩
  obtain ⟨-, -, -, -, -, -, -, -, hpops⟩ := allocation_loses_no_value { state } hready pinned
  exact (hpops _ _ rfl).2.succeeds (.inr ⟨.gp 2, by decide, by decide⟩)

end Emitter

end OnePass
