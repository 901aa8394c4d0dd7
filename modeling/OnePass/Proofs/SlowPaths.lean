import OnePass.Proofs.CompiledTables
import OnePass.Proofs.DataMoves
import OnePass.Proofs.EventChanges

/-!
What a debugger sees while a slow path calls the runtime. The path first writes registers to the
slots that they back; the entry recorded for it shows all slots in the frame. Both are made in the
same cache state, so the entry shows the values of this state, if it is still in force where the
code branches to the path. A bounds check may free registers in between.
-/
namespace OnePass

open List

/-! ## Slots that are apart -/

namespace CacheState

variable {s : CacheState}

/-- No slot reaches into another one. -/
def Apart (s : CacheState) : Prop := s.slots.toList.Pairwise fun a b => a.offset + 8 ≤ b.offset

theorem eight_le_slotSize (ty : ValueType) : 8 ≤ slotSize ty := by
  unfold slotSize
  split <;> decide

theorem Placed.slots_apart (h : s.Placed) : s.Apart :=
  h.apart.imp fun hle => Nat.le_trans (Nat.add_le_add_left (eight_le_slotSize _) _) hle

end CacheState

/-! ## Paths and entries -/

/-- The entry lists the slots of a state. After a call they are in no registers. -/
def SideEntry.Lists (e : SideEntry) (t : CacheState) (view : RegisterView) : Prop :=
  e.values = t.slots.toList.map (.ofSlot view) ∧ (view = .didSpill → t.Unbacked)

/-- The slow path saves the registers that back slots in the state, if there is a debugger, and the
entry that it has then shows these slots. -/
structure OutOfLine.Tells (o : OutOfLine) (s : CacheState) (record : Option SideRecord) : Prop where
  saved : o.saved = if record.isNone then [] else s.savedRegs
  pushed : record.isSome = true → o.pushed.isEmpty = true
  entry : ∀ r, record = some r → ∃ index e, o.entry = some index ∧ r.entries[index]? = some e ∧
    e.values = s.slots.toList.map (.ofSlot .assumeSpilled)

variable {o : OutOfLine}

theorem OutOfLine.Tells.mono {t : CacheState} {record record' : Option SideRecord}
    (h : o.Tells t record) (hnone : record'.isNone = record.isNone)
    (hentries : ∀ r r', record = some r → record' = some r' → ∀ (i : Nat) (e : SideEntry),
      r.entries[i]? = some e → ∃ e' : SideEntry, r'.entries[i]? = some e' ∧ e'.values = e.values) :
        o.Tells t record' := by
  have hsome : record'.isSome =
    record.isSome := by rw [← Option.not_isNone, hnone, Option.not_isNone]
  refine ⟨by rw [h.saved, hnone], fun hr => h.pushed (hsome ▸ hr), fun r' hr' => ?_⟩
  obtain ⟨r, hr⟩ := Option.isSome_iff_exists.1 (hsome ▸ hr' ▸ rfl : record.isSome = true)
  obtain ⟨index, e, hindex, he, hvalues⟩ := h.entry r hr
  obtain ⟨e', he', hvalues'⟩ := hentries r r' hr hr' index e he
  exact ⟨index, e', hindex, he', hvalues'.trans hvalues⟩

theorem stable_placed :
    Stable (fun _ _ => True) CacheState.Placed CacheState.Placed CacheState.Placed True where
  stack _ _ := trivial
  const _ _ _ := trivial
  reg _ _ _ _ := trivial
  typed _ _ _ _ := trivial
  push _ ty loc h _ := h.push ty loc
  pop _ _ _ h := h.pop
  relocate _ i loc h _ := h.relocate i loc
  recent _ _ h := ⟨⟨h.tracks.count, h.tracks.used⟩, h.place⟩
  record _ offset h := h.recordOffset offset
  keep _ h := h
  header _ _ h := h
  merge _ _ _ _ _ := CacheState.placed_mergeTarget _ _ _ _
  pass _ _ _ _ _ := CacheState.placed_mergeTarget _ _ _ _
  label _ h := h
  steal s _ _ h := h.recordOffset s.maxOffset

/-! ## What the saved registers come to -/

namespace DataState

/-- The value that a debugger reads. -/
def shown (d : DataState) (v : DebugValue) : UInt64 :=
  v.ty.narrow <| match v.place with
    | .const value => constBits v.ty value
    | .reg r => d.regs r
    | .stack offset => d.frame.slot offset

end DataState

/-- Registers are written to slots that are apart. What is not among these slots stays. -/
theorem moveAll?_spills {saved : List SavedReg} {d : DataState}
    (hapart : saved.Pairwise fun a b => a.offset + 8 ≤ b.offset)
    (hscalar : ∀ r ∈ saved, r.ty ≠ .v128 ∧ r.offset < UInt32.size) :
    ∃ d', Instr.moveAll? (saved.map fun r => (.spill r.ty (.ofNat r.offset) r.reg : Instr Label))
        d = some d' ∧ d'.regs = d.regs ∧
      (∀ r ∈ saved, d'.frame.slot r.offset = r.ty.narrow (d.regs r.reg)) ∧
      ∀ o, (∀ r ∈ saved, r.offset + 8 ≤ o ∨ o + 8 ≤ r.offset) →
        d'.frame.slot o = d.frame.slot o := by
  induction saved generalizing d with
  | nil => exact ⟨d, rfl, rfl, nofun, fun _ _ => rfl⟩
  | cons r rest ih =>
    obtain ⟨hfirst, hrest⟩ := pairwise_cons.1 hapart
    obtain ⟨hty, hsmall⟩ := hscalar r mem_cons_self
    obtain ⟨d', hrun, hregs, hwritten, hkept⟩ :=
      ih (d := d.setSlot r.ty r.offset (d.regs r.reg)) hrest
      fun r' hr' => hscalar r' (mem_cons_of_mem _ hr')
    have hoffset : (UInt32.ofNat r.offset).toNat = r.offset := UInt32.toNat_ofNat_of_lt' hsmall
    refine ⟨d', ?_, hregs, fun r' hr' => ?_, fun o ho => ?_⟩
    · rw [map_cons, Instr.moveAll?, Instr.moveData?, if_neg hty, Option.bind_some, hoffset]
      exact hrun
    · rcases mem_cons.1 hr' with rfl | hr'
      · rw [hkept _ fun q hq => .inr (hfirst q hq)]
        exact FrameMemory.slot_setSlot _ _ _
      · exact hwritten r' hr'
    · rw [hkept o fun q hq => ho q (mem_cons_of_mem _ hq)]
      exact FrameMemory.slot_setSlot_apart _ _ _ _ (ho r mem_cons_self)

namespace CacheState

variable {t : CacheState}

theorem mem_savedRegs {r : SavedReg} : r ∈ t.savedRegs ↔
    ∃ slot ∈ t.slots, slot.loc = .reg r.reg ∧ slot.ty = r.ty ∧ slot.offset = r.offset := by
  unfold savedRegs
  rw [mem_filterMap]
  constructor
  · rintro ⟨slot, hslot, hr⟩
    obtain ⟨reg, hreg, rfl⟩ := Option.map_eq_some_iff.1 hr
    refine ⟨slot, Array.mem_toList_iff.1 hslot, ?_, rfl, rfl⟩
    rcases hloc : slot.loc <;> simp_all [Slot.reg?, Location.reg?]
  · rintro ⟨slot, hslot, hloc, hty, hoffset⟩
    refine ⟨slot, Array.mem_toList_iff.2 hslot, ?_⟩
    rw [Slot.reg?, hloc, Location.reg?, Option.map_some, hty, hoffset]

theorem Apart.savedRegs (h : t.Apart) :
    t.savedRegs.Pairwise fun a b => a.offset + 8 ≤ b.offset := by
  unfold CacheState.savedRegs
  rw [pairwise_filterMap]
  refine List.Pairwise.imp (fun hle r hr q hq => ?_) h
  obtain ⟨_, -, rfl⟩ := Option.map_eq_some_iff.1 hr
  obtain ⟨_, -, rfl⟩ := Option.map_eq_some_iff.1 hq
  exact hle

theorem Apart.of_ne (h : t.Apart) {a b : Slot} (ha : a ∈ t.slots) (hb : b ∈ t.slots) (hne : a ≠ b) :
    a.offset + 8 ≤ b.offset ∨ b.offset + 8 ≤ a.offset := by
  have hsymm : t.slots.toList.Pairwise fun a b =>
      a.offset + 8 ≤ b.offset ∨ b.offset + 8 ≤ a.offset := List.Pairwise.imp .inl h
  have : Std.Symm fun a b : Slot => a.offset + 8 ≤ b.offset ∨ b.offset + 8 ≤ a.offset :=
    ⟨fun _ _ => Or.symm⟩
  exact hsymm.forall (Array.mem_toList_iff.2 ha) (Array.mem_toList_iff.2 hb) hne

end CacheState

/-- A debugger reads from an entry the values that the slots of the state stood for. -/
def SideEntry.Shows (e : SideEntry) (t : CacheState) (d d' : DataState) : Prop :=
  e.values.map d'.shown = t.slots.toList.map d.value

variable {e : SideEntry}

/-- At breakpoints and after calls. -/
theorem SideEntry.Lists.shows {t : CacheState} {view : RegisterView}
    (h : e.Lists t view) (hview : view ≠ .assumeSpilled) (d : DataState) : e.Shows t d d := by
  rw [SideEntry.Shows, h.1, map_map]
  refine map_congr_left fun slot hslot => ?_
  rw [Function.comp_apply, DataState.shown, DataState.value, DebugValue.ofSlot]
  cases hloc : slot.loc with
  | const value => rfl
  | stack => rfl
  | reg r =>
    cases view with
    | allowRegs => rfl
    | assumeSpilled => exact (hview rfl).elim
    | didSpill =>
      have hnone := h.2 rfl slot (Array.mem_toList_iff.1 hslot)
      rw [Slot.reg?, hloc] at hnone
      cases hnone

/-- The places of the slots can be written in instructions that move one register. -/
def CacheState.Encodable (t : CacheState) : Prop :=
  ∀ slot ∈ t.slots, slot.ty ≠ .v128 ∧ slot.offset < UInt32.size

/-- A path that tells of a state shows its values: after its registers are saved, a debugger reads
from the entry what the slots stood for when the path was entered. -/
theorem OutOfLine.Tells.shows {t : CacheState} {record : SideRecord}
    (h : o.Tells t (some record)) (hplaced : t.Placed) (hcode : t.Encodable)
    (he : e.values = t.slots.toList.map (.ofSlot .assumeSpilled)) (d : DataState) :
    ∃ d', Instr.moveAll? o.saveCode d = some d' ∧ e.Shows t d d' := by
  have ht : t.Apart := hplaced.slots_apart
  have hsaved : o.saved = t.savedRegs := h.saved
  have hsave : o.saveCode = t.savedRegs.map fun r => .spill r.ty (.ofNat r.offset) r.reg := by
    rw [OutOfLine.saveCode, if_pos (h.pushed rfl), hsaved]
  obtain ⟨d', hrun, -, hwritten, hkept⟩ := moveAll?_spills (d := d) ht.savedRegs fun r hr => by
    obtain ⟨slot, hslot, -, hty, hoffset⟩ := CacheState.mem_savedRegs.1 hr
    exact hty ▸ hoffset ▸ hcode slot hslot
  refine ⟨d', hsave ▸ hrun, ?_⟩
  rw [SideEntry.Shows, he, map_map]
  refine map_congr_left fun slot hmem => ?_
  have hslot := Array.mem_toList_iff.1 hmem
  rw [Function.comp_apply]
  cases hloc : slot.loc with
  | const value => simp [DataState.shown, DataState.value, DebugValue.ofSlot, hloc]
  | reg r =>
    have hslotr := hwritten ⟨slot.ty, r, slot.offset⟩
      (CacheState.mem_savedRegs.2 ⟨slot, hslot, hloc, rfl, rfl⟩)
    simp only [DataState.shown, DataState.value, DebugValue.ofSlot, hloc]
    rw [if_neg (by decide)]
    simp only [hslotr, ValueType.narrow_narrow]
  | stack =>
    have hsame : d'.frame.slot slot.offset = d.frame.slot slot.offset := by
      refine hkept _ fun r hr => ?_
      obtain ⟨other, hother, hreg, -, hoffset⟩ := CacheState.mem_savedRegs.1 hr
      rw [← hoffset]
      refine ht.of_ne hother hslot ?_
      rintro rfl
      rw [hloc] at hreg
      cases hreg
    simp only [DataState.shown, DataState.value, DebugValue.ofSlot, hloc, hsame]

namespace Lowering

/-- The comparisons of a bounds check. -/
def boundsCompare (ctx : Context) (index : Reg) (lastByte : Nat) (trap : Label) (size limit : Reg) :
    LowerM Unit := do
  emit (.loadInstanceField size .memorySize)
  emitting (·.loadBits .i64 limit (.ofNat lastByte))
  if lastByte ≥ ctx.module.minMemorySize then
    emit (.condJump .aboveEqual .i64 limit (some size) trap)
  emit (.binary (.binary (.int .w64 .sub)) limit size limit)
  emit (.condJump .aboveEqual .i64 index (some limit) trap)
  if (← get).options.indexMasking then
    emit (.loadInstanceField size .memoryMask)
    emit (.binary (.binary (.int .w64 .and)) index index size)

theorem boundsCheck_eq (ctx : Context) (index : Reg) (lastByte : Nat) (pinned : RegSet) :
    boundsCheck ctx index lastByte pinned = (do
      let trap ← addTrap .trapMemOutOfBounds ctx.pc
      let size ← unusedReg .gp (pinned.insert index)
      let limit ← unusedReg .gp ((pinned.insert index).insert size)
      boundsCompare ctx index lastByte trap size limit) := rfl

end Lowering

/-! ## Steps that keep to one state -/

namespace Lowering

variable {t : CacheState} {T : CompileOptions → Array OutOfLine → Option SideRecord → Prop}
  {f : Emitter → Emitter}

/-- The cache state is `t`, and something is known of the slow paths and entries so far. -/
def Rests (t : CacheState) (T : CompileOptions → Array OutOfLine → Option SideRecord → Prop)
    (s : Lowering) : Prop :=
  s.emitter.state = t ∧ T s.options s.outOfLine s.work.sideRecord

namespace Rests

theorem emitting (hf : ∀ e, (f e).state = e.state) : Preserves (Rests t T) (emitting f) :=
  .modify fun _ hs => ⟨(hf _).trans hs.1, hs.2⟩

theorem emit (i : Instr Label) : Preserves (Rests t T) (emit i) := emitting fun _ => rfl

theorem bindLabel (l : Label) : Preserves (Rests t T) (bindLabel l) := emitting fun _ => rfl

theorem newLabel : Preserves (Rests t T) newLabel := fun _ hs => ⟨hs, fun _ _ _ => trivial⟩

theorem maskIndex (index size mask : Reg) : Preserves (Rests t T) (maskIndex index size mask) :=
  (emit _).next fun _ => (emit _).next fun _ => (emit _).next fun _ => (emit _).next fun _ => emit _

/-- The comparisons of a bounds check. -/
theorem boundsCompare (ctx : Context) (index : Reg) (lastByte : Nat) (trap : Label)
    (size limit : Reg) :
    Preserves (Rests t T) (boundsCompare ctx index lastByte trap size limit) := by
  refine (emit _).next fun _ => .next (emitting fun _ => rfl) fun _ => .when (fun _ => emit _) ?_
  exact (emit _).next fun _ => (emit _).next fun _ => .bind .get fun _ _ =>
    .ite (fun _ => (emit _).next fun _ => emit _) fun _ => .done

section

variable {position : Nat}
  (h : ∀ s s' o, Rests t T s → s.Made s' o → o.position = position →
    T s.options s'.outOfLine s'.work.sideRecord)
include h

theorem addTrap (stub : RuntimeStub) (trappingPc : Option Nat) :
    Preserves (Rests t T) (addTrap stub position trappingPc) := by
  intro s hs
  obtain ⟨o, l, s', hrun, hoptions, -, hemitter, hmade, -, hposition, -⟩ :=
    addTrap_run stub position trappingPc s
  refine ⟨?_, fun _ _ _ => trivial⟩
  rw [hrun]
  refine ⟨?_, hoptions ▸ h s s' o hs hmade hposition⟩
  rw [hemitter]
  exact hs.1

theorem stackCheck : Preserves (Rests t T) (stackCheck position) := by
  intro s hs
  cases hchecks : s.options.stackChecks with
  | false =>
    refine .get_bind ?_
    rw [if_pos (by simp [hchecks])]
    exact Preserves.done s hs
  | true =>
    obtain ⟨o, l, s', hrun, hoptions, hmade, -, hposition, -, hemitter, -⟩ :=
      stackCheck_run hchecks position
    refine ⟨?_, fun _ _ _ => trivial⟩
    rw [hrun]
    refine ⟨?_, hoptions ▸ h s s' o hs hmade hposition⟩
    rw [hemitter]
    exact hs.1

end

end Rests

end Lowering

/-! ## Bounds checks -/

variable {pinned : RegSet} {r : Reg}

namespace Emitter

/-- No slot is left with the register. -/
theorem savedRegs_spillReg (e : Emitter) (r : Reg) :
    (e.spillReg r).state.savedRegs = e.state.savedRegs.filter (·.reg ≠ r) := by
  have hslots : (e.spillReg r).state.slots.toList = e.state.slots.toList.map fun slot =>
      if slot.reg? = some r then { slot with loc := .stack } else slot := by
    refine ext_getElem? fun j => ?_
    rw [Array.getElem?_toList, spillReg, slots_spillWhere, getElem?_map, Array.getElem?_toList]
    cases hslot : e.state.slots[j]? with
    | none => rfl
    | some slot =>
      have hj : j < e.state.height := (Array.getElem?_eq_some_iff.1 hslot).1
      simp [hj]
  rw [CacheState.savedRegs, CacheState.savedRegs, hslots, filterMap_map, filter_filterMap]
  refine congrArg (filterMap · _) (funext fun slot => ?_)
  rw [Function.comp_apply]
  by_cases hr : slot.reg? = some r
  · rw [if_pos hr, hr]
    simp [Slot.reg?, Location.reg?, Option.filter]
  · rw [if_neg hr]
    cases hreg : slot.reg? with
    | none => rfl
    | some r' =>
      have hne : r' ≠ r := fun h => hr (h ▸ hreg)
      simp [hne, Option.filter]

/-- When no register is free, one is taken from the slots that it backs. -/
theorem unusedReg_ends {e e' : Emitter} {c : RegClass}
    (h : (unusedReg c pinned).run.run e = (.ok r, e')) :
    (e.state.unused? c pinned = some r ∧ e' = e) ∨ (e.state.unused? c pinned = none ∧
        e'.state.savedRegs = e.state.savedRegs.filter (·.reg ≠ r)) := by
  have hends : Maintains (fun _ => True) (unusedReg c pinned) e fun r e' =>
      (e.state.unused? c pinned = some r ∧ e' = e) ∨ (e.state.unused? c pinned = none ∧
          e'.state.savedRegs = e.state.savedRegs.filter (·.reg ≠ r)) := by
    refine .get_bind ?_
    split
    next r hr =>
      refine ⟨trivial, fun _ _ hrun => .inl ?_⟩
      cases hrun
      exact ⟨hr, rfl⟩
    next hnone =>
      refine .get_bind ?_
      obtain ⟨recent, hstate⟩ := e.state.nextSpill?_state c pinned
      rcases hspill : e.state.nextSpill? c pinned with ⟨r, state⟩
      rw [hspill] at hstate
      dsimp only at hstate ⊢
      subst hstate
      refine .bind (Q := fun _ e' => e'.state = { e.state with lastSpilled := recent })
        (.of_modify trivial rfl) fun _ e₁ _ he₁ => ?_
      cases r with
      | none => exact ⟨trivial, nofun⟩
      | some r =>
        refine ⟨trivial, fun _ _ hrun => .inr ⟨hnone, ?_⟩⟩
        cases hrun
        rw [savedRegs_spillReg, he₁]
        rfl
  exact hends.ends r e' h

end Emitter

namespace Lowering

/-- There are registers for a bounds check. -/
def RoomForCheck (t : CacheState) (pinned : RegSet) : Prop :=
  ∃ size limit, t.unused? .gp pinned = some size ∧ t.unused? .gp (pinned.insert size) = some limit

/-- A register for a check may be taken from the slots that it backs. -/
theorem unusedReg_ends {s s' : Lowering} (h : (unusedReg .gp pinned).run.run s = (.ok r, s')) :
    (s.emitter.state.unused? .gp pinned = some r ∧ s'.emitter.state = s.emitter.state) ∨
      (s.emitter.state.unused? .gp pinned = none ∧
        s'.emitter.state.savedRegs = s.emitter.state.savedRegs.filter (·.reg ≠ r)) := by
  rw [unusedReg, run_liftEmit] at h
  obtain ⟨hr, rfl⟩ := Prod.mk.inj h
  obtain ⟨hfree, he⟩ | htaken := Emitter.unusedReg_ends (Prod.ext hr rfl)
  · exact .inl ⟨hfree, congrArg Emitter.state he⟩
  · exact .inr htaken

/-- Where the code of a bounds check branches, the registers that the check took for itself no
longer back slots. If there were free ones, the state is the one in which the check began. -/
theorem boundsCheck_ends {ctx : Context} {index : Reg} {lastByte : Nat}
    {s s' : Lowering} (h : (boundsCheck ctx index lastByte pinned).run.run s = (.ok (), s')) :
    ∃ taken : List Reg, taken.length ≤ 2 ∧
      s'.emitter.state.savedRegs = s.emitter.state.savedRegs.filter (·.reg ∉ taken) ∧
      (RoomForCheck s.emitter.state (pinned.insert index) →
        s'.emitter.state = s.emitter.state) := by
  obtain ⟨trap, s₁, htrap, h⟩ := run_bind_ok (boundsCheck_eq ctx index lastByte pinned ▸ h)
  obtain ⟨size, s₂, hsize, h⟩ := run_bind_ok h
  obtain ⟨limit, s₃, hlimit, h⟩ := run_bind_ok h
  have hstate₁ : s₁.emitter.state = s.emitter.state := by
    obtain ⟨_, _, _, hrun, -, -, hemitter, -⟩ := addTrap_run .trapMemOutOfBounds ctx.pc none s
    cases htrap.symm.trans hrun
    rw [hemitter]
    rfl
  have hstate' : s'.emitter.state = s₃.emitter.state := by
    have hkept := (Rests.boundsCompare (T := fun _ _ _ => True)
      ctx index lastByte trap size limit s₃ ⟨rfl, trivial⟩).always
    rw [h] at hkept
    exact hkept.1
  have htaken₂ := unusedReg_ends hsize
  have htaken₃ := unusedReg_ends hlimit
  rw [hstate₁] at htaken₂
  rw [hstate']
  obtain ⟨hfree₂, hstate₂⟩ | ⟨hnone₂, hsaved₂⟩ := htaken₂ <;>
    obtain ⟨hfree₃, hstate₃⟩ | ⟨hnone₃, hsaved₃⟩ := htaken₃
  · exact ⟨[], by simp, by simp [hstate₃, hstate₂], fun _ => hstate₃.trans hstate₂⟩
  · refine ⟨[limit], by simp, by simpa [hstate₂] using hsaved₃, ?_⟩
    rintro ⟨size', limit', hsize', hlimit'⟩
    cases hfree₂.symm.trans hsize'
    rw [hstate₂] at hnone₃
    cases hnone₃.symm.trans hlimit'
  · refine ⟨[size], by simp, by simpa [hstate₃] using hsaved₂, ?_⟩
    rintro ⟨size', limit', hsize', -⟩
    cases hnone₂.symm.trans hsize'
  · refine ⟨[limit, size], by simp, ?_, ?_⟩
    · rw [hsaved₃, hsaved₂, filter_filter]
      simp
    · rintro ⟨size', limit', hsize', -⟩
      cases hnone₂.symm.trans hsize'

end Lowering

end OnePass
