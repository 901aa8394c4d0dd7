import OnePass.Proofs.Joins

/-!
What all operations on a cache state keep in order. A history says how a state came about and which
places of the frame were handed out on the way. A copy of a state has the same history, and a state
that is gone on with has the history of both states behind it.
-/
namespace OnePass

/-- The bytes of the frame that a slot takes, counted downwards as its offset is. -/
def Slot.bytes (slot : Slot) : Finset Nat := Finset.Ioc (slot.offset - slotSize slot.ty) slot.offset

namespace CacheState

variable {R : Regime} {s : CacheState} {slot : Slot} {offsets : List Nat}

theorem Placed.slotSize_dvd (h : s.Placed) (hslot : slot ∈ s.slots) :
    slotSize slot.ty ∣ slot.offset := by
  obtain ⟨i, hi⟩ := Array.getElem?_of_mem hslot
  have hty : s.types[i]? = some slot.ty := by
    rw [types, List.getElem?_map, Array.getElem?_toList, hi, Option.map_some]
  rw [h.place i slot hi, List.take_add_one, hty, Option.toList_some, frameTop_concat]
  exact dvd_roundUp _ _

theorem Placed.disjoint_bytes (h : s.Placed) :
    s.slots.toList.Pairwise fun a b => Disjoint a.bytes b.bytes := by
  refine h.apart.imp fun hle => Finset.disjoint_left.2 fun byte ha hb => ?_
  rw [Slot.bytes, Finset.mem_Ioc] at ha hb
  omega

theorem Regular.dropAny (h : s.Regular R) (count : Nat) :
    (s.dropValues count).Regular R ∧ (s.dropValues count).maxOffset = s.maxOffset := by
  induction count generalizing s with
  | zero => exact ⟨h, rfl⟩
  | succ count ih =>
    rw [CacheState.dropValues]
    split
    next slot rest hpop =>
      rw [← (pop?_eq_some hpop).2.1]
      exact ih (h.pop hpop)
    next => exact ⟨h, rfl⟩

/-! ## Histories -/

/-- The state can come about, and these places were handed out until then. -/
inductive History : CacheState → List Nat → Prop
  | new : History {} []
  | push {s : CacheState} {os : List Nat} (ty : ValueType) (loc : Location) : History s os →
      History (s.push ty loc) (s.nextOffset ty :: os)
  | pop {s s' : CacheState} {slot : Slot} {os : List Nat} :
      History s os → s.pop? = some (slot, s') → History s' os
  | dropValues {s : CacheState} {os : List Nat} (count : Nat) : History s os →
      History (s.dropValues count) os
  | relocate {s : CacheState} {os : List Nat} {i : Nat} (loc : Location) :
      History s os → i < s.height → History (s.relocate i loc) os
  | nextSpill {s : CacheState} {os : List Nat} (c : RegClass) (pinned : RegSet) : History s os →
      History (s.nextSpill? c pinned).2 os
  | steal {s other : CacheState} {os os' : List Nat} : History s os → History other os' →
      History (s.steal other) (os ++ os')
  | mergeTarget {s : CacheState} {os : List Nat} {numLocals arity stackDepth : Nat} : History s os →
      numLocals + stackDepth + arity ≤ s.height →
      History (s.mergeTarget numLocals arity stackDepth)
        (os ++ (s.mergeTarget numLocals arity stackDepth).slots.toList.map Slot.offset)

/-- Every operation keeps the invariant, and none forgets how deep the frame has been. -/
theorem History.regular (h : History s offsets) :
    s.Regular .lax ∧ ∀ o ∈ offsets, o ≤ s.maxOffset := by
  induction h with
  | new => exact ⟨regular_empty _ (Nat.le_refl _), fun _ ho => (List.not_mem_nil ho).elim⟩
  | @push s offsets ty loc _ ih =>
    refine ⟨ih.1.push trivial False.elim, fun o ho => ?_⟩
    rw [maxOffset_push]
    rcases List.mem_cons.1 ho with rfl | ho
    · exact Nat.le_max_right _ _
    · exact Nat.le_trans (ih.2 o ho) (Nat.le_max_left _ _)
  | pop _ hpop ih => exact ⟨ih.1.pop hpop, fun o ho => (pop?_eq_some hpop).2.1 ▸ ih.2 o ho⟩
  | dropValues count _ ih =>
    exact ⟨(ih.1.dropAny count).1, fun o ho => (ih.1.dropAny count).2 ▸ ih.2 o ho⟩
  | relocate loc _ hi ih =>
    refine ⟨ih.1.relocate (Array.getElem?_eq_getElem hi) False.elim, ?_⟩
    rw [maxOffset_relocate]
    exact ih.2
  | @nextSpill s offsets c pinned _ ih =>
    obtain ⟨recent, hrecent⟩ := s.nextSpill?_state c pinned
    rw [hrecent]
    exact ⟨⟨⟨ih.1.tracks.count, ih.1.tracks.used⟩, ih.1.place, ih.1.room, ih.1.allows, ih.1.suits⟩,
      ih.2⟩
  | steal _ _ ih ih' =>
    refine ⟨ih'.1.recordOffset _, fun o ho => ?_⟩
    rcases List.mem_append.1 ho with ho | ho
    · exact Nat.le_trans (ih.2 o ho) (Nat.le_max_right _ _)
    · exact Nat.le_trans (ih'.2 o ho) (Nat.le_max_left _ _)
  | mergeTarget _ hheight ih =>
    obtain ⟨hregular, -, hmax⟩ := ih.1.mergeTarget hheight
    refine ⟨hregular, fun o ho => ?_⟩
    rcases List.mem_append.1 ho with ho | ho
    · exact hmax ▸ ih.2 o ho
    · obtain ⟨slot, hslot, rfl⟩ := List.mem_map.1 ho
      exact hregular.offset_le (Array.mem_toList_iff.1 hslot)

/-- However a state came about, its bookkeeping is right. The counts and the set of used registers
are those of the slots, so that a register that is given up is counted. Slots are aligned, lie apart
and below the fixed part of the frame; where they lie is a matter of their types alone, and no place
that was ever handed out is deeper than the frame is known to be. -/
theorem bookkeeping_is_invariant (h : History s offsets) :
    s.isConsistent = true ∧
    (∀ r, s.useCount r = countUses s.slots r ∧ s.isUsed r = decide (0 < countUses s.slots r)) ∧
    (∀ slot ∈ s.slots, ∀ r, slot.loc = .reg r → 0 < s.useCount r) ∧
    (∀ slot ∈ s.slots, slotSize slot.ty ∣ slot.offset ∧
      staticFrameSize + slotSize slot.ty ≤ slot.offset) ∧
    (s.slots.toList.Pairwise fun a b => Disjoint a.bytes b.bytes) ∧
    (∀ s' offsets', History s' offsets' → s'.types = s.types →
      s'.slots.toList.map Slot.offset = s.slots.toList.map Slot.offset) ∧
    ∀ o ∈ offsets, o ≤ s.maxOffset := by
  obtain ⟨hregular, hoffsets⟩ := h.regular
  have hplaced := hregular.placed
  refine ⟨hregular.isConsistent, fun r => ⟨hplaced.tracks.count r, hplaced.tracks.used r⟩,
    fun slot hslot r hr => hplaced.useCount_pos hslot hr,
    fun slot hslot => ⟨hplaced.slotSize_dvd hslot, hplaced.above_static hslot⟩,
    hplaced.disjoint_bytes, fun s' offsets' h' htypes => ?_, hoffsets⟩
  rw [hplaced.offsets_eq, h'.regular.1.placed.offsets_eq, htypes]

/-- A vector above an integer that shares its register with another: the slot of the vector is
aligned to its size. The copy without the vector is gone on with, and how deep the vector lay is not
forgotten. -/
theorem bookkeeping_of_shared_register :
    let copy := (({} : CacheState).push .i32 (.reg (.gp 0))).push .i32 (.reg (.gp 0))
    let full := ((copy.push .f32 .stack).push .v128 (.reg (.fp 1))).relocate 1 (.const 7)
    full.isConsistent = true ∧ (full.steal copy).isConsistent = true ∧
      full.slots.toList.map Slot.offset = [24, 32, 40, 64] ∧
      ∀ o ∈ [64, 40, 32, 24], o ≤ (full.steal copy).maxOffset := by
  intro copy full
  have hcopy := (History.new.push .i32 (.reg (.gp 0))).push .i32 (.reg (.gp 0))
  have hfull := ((hcopy.push .f32 .stack).push .v128 (.reg (.fp 1))).relocate (i := 1)
    (.const 7) (by decide)
  have hplaces : [(copy.push .f32 .stack).nextOffset .v128, copy.nextOffset .f32, 32, 24] =
      [64, 40, 32, 24] := by
    decide
  have hboth := bookkeeping_is_invariant (hfull.steal hcopy)
  exact ⟨(bookkeeping_is_invariant hfull).1, hboth.1, by decide, fun o ho =>
    hboth.2.2.2.2.2.2 o (List.mem_append_left _ (hplaces ▸ ho))⟩

end CacheState

end OnePass
