import OnePass.Proofs.Joins
import OnePass.Proofs.RegisterClasses

/-!
The state that is made for a join. It has the locals, the values below the construct and the merge
values of its source, in this order and in slots of its own; each in a register that no other slot
has, in the frame, or, below the construct, still as a constant.
-/
namespace OnePass

open List

namespace CacheState

variable {source : CacheState} {slot : Slot} {taken : RegSet} {keepConst : Bool}

/-- Constants stay only where they may. What is in the frame stays there. -/
theorem mergeLocation_cases (source : CacheState) (keepConst : Bool)
    (taken : RegSet) (slot : Slot) :
    (∀ value, (source.mergeLocation keepConst taken slot).1 = .const value →
      keepConst = true ∧ slot.loc = .const value) ∧
      (slot.loc = .stack → (source.mergeLocation keepConst taken slot).1 = .stack) := by
  unfold mergeLocation
  dsimp only
  split
  next r hloc =>
    refine ⟨fun value hvalue => ?_, fun hstack => by rw [hloc] at hstack; cases hstack⟩
    split at hvalue
    · split at hvalue <;> cases hvalue
    · cases hvalue
  next value hloc =>
    refine ⟨fun value' hvalue => ?_, fun hstack => by rw [hloc] at hstack; cases hstack⟩
    split at hvalue
    next hkeep =>
      cases hvalue
      exact ⟨hkeep, hloc⟩
    next => split at hvalue <;> cases hvalue
  next hloc => exact ⟨nofun, fun _ => rfl⟩

variable {i : Nat}

theorem getElem?_mergeLocations {slots : List Slot} {p : ValueType × Location}
    (h : (source.mergeLocations keepConst taken slots).1[i]? = some p) : ∃ slot taken',
      slots[i]? = some slot ∧ p = (slot.ty, (source.mergeLocation keepConst taken' slot).1) := by
  induction slots generalizing taken i with
  | nil => cases h
  | cons slot rest ih =>
    cases i with
    | zero =>
      cases h
      exact ⟨slot, taken, rfl, rfl⟩
    | succ i => exact ih h

theorem length_mergeLocations (source : CacheState) (keepConst : Bool) (taken : RegSet)
    (slots : List Slot) :
    (source.mergeLocations keepConst taken slots).1.length = slots.length := by
  rw [← length_map (f := Prod.fst), mergeLocations_types, length_map]

/-- Where the value of a slot of a join comes from: the slots between are dropped. -/
def joinSource (source : CacheState) (numLocals arity stackDepth i : Nat) : Nat :=
  if i < numLocals + stackDepth then i else i + (source.height - (numLocals + stackDepth + arity))

/-- Slot by slot, the locations of a join are those of its source, merged. -/
theorem getElem?_mergeTarget {numLocals arity stackDepth : Nat}
    (hheight : numLocals + stackDepth + arity ≤ source.height) {t : Slot}
    (h : (source.mergeTarget numLocals arity stackDepth).slots[i]? = some t) : ∃ slot taken,
      source.slots[source.joinSource numLocals arity stackDepth i]? = some slot ∧
      t.loc = (source.mergeLocation (decide (numLocals ≤ i ∧ i < numLocals + stackDepth))
        taken slot).1 := by
  have hlength : source.slots.toList.length = source.height := Array.length_toList
  obtain ⟨taken, taken', htarget⟩ := source.mergeTarget_eq numLocals arity stackDepth
  have hpushed (slots : List (ValueType × Location))
      (h : (({ maxOffset := source.maxOffset } : CacheState).pushAll slots).slots[i]? = some t) :
      slots[i]? = some (t.ty, t.loc) := by
    have hslots := slots_pushAll { maxOffset := source.maxOffset } slots
    rw [map_nil, nil_append] at hslots
    rw [← hslots, getElem?_map, Array.getElem?_toList, h, Option.map_some]
  rw [htarget] at h
  have hi := hpushed _ h
  rw [mergeSlots, append_assoc, getElem?_append, getElem?_append] at hi
  simp only [length_mergeLocations, length_take, length_drop, hlength] at hi
  simp only [← Array.getElem?_toList, joinSource]
  split at hi
  next hlocal =>
    obtain ⟨slot, taken, hslot, hp⟩ := getElem?_mergeLocations hi
    rw [getElem?_take_of_lt (by omega)] at hslot
    refine ⟨slot, taken, by rw [if_pos (by omega), hslot], ?_⟩
    rw [decide_eq_false (by omega)]
    exact congrArg Prod.snd hp
  split at hi
  next hlocal hbelow =>
    obtain ⟨slot, taken, hslot, hp⟩ := getElem?_mergeLocations hi
    rw [getElem?_take_of_lt (by omega), getElem?_drop] at hslot
    refine ⟨slot, taken, ?_, ?_⟩
    · rw [if_pos (by omega), ← hslot]
      congr 1
      omega
    · rw [decide_eq_true (by omega)]
      exact congrArg Prod.snd hp
  next hlocal hbelow =>
    obtain ⟨slot, taken, hslot, hp⟩ := getElem?_mergeLocations hi
    rw [getElem?_drop] at hslot
    refine ⟨slot, taken, ?_, ?_⟩
    · rw [if_neg (by omega), ← hslot]
      congr 1
      omega
    · rw [decide_eq_false (by omega)]
      exact congrArg Prod.snd hp

/-! ## Pushed slots -/

/-- Use counts and offsets are those of slots that were pushed one after another. -/
structure Fresh (s : CacheState) : Prop where
  tracks : s.Tracks (countUses s.slots)
  offsets : s.slots.toList.map Slot.offset =
    (({} : CacheState).pushAll (s.types.map fun ty => (ty, .stack))).slots.toList.map Slot.offset

theorem topOffset_eq_of_offsets {s s' : CacheState}
    (h : s.slots.toList.map Slot.offset = s'.slots.toList.map Slot.offset) :
      s.topOffset = s'.topOffset := by
  have hlast := congrArg getLast? h
  rw [getLast?_map, getLast?_map, Array.getLast?_toList, Array.getLast?_toList] at hlast
  unfold topOffset
  rcases hs : s.slots.back? with _ | a <;> rcases hs' : s'.slots.back? with _ | b <;>
    rw [hs, hs'] at hlast
  · cases hlast
  · cases hlast
  · exact Option.some.inj hlast

variable {s : CacheState}

theorem Fresh.push (h : s.Fresh) (ty : ValueType) (loc : Location) : (s.push ty loc).Fresh := by
  refine ⟨h.tracks.push ty loc, ?_⟩
  rw [types_push, map_append, pushAll, foldl_append, ← pushAll]
  show _ = ((pushAll _ _).push ty .stack).slots.toList.map Slot.offset
  rw [slots_push, slots_push, Array.toList_push, Array.toList_push, map_append, map_append,
    h.offsets, map_singleton, map_singleton]
  rw [nextOffset, nextOffset, topOffset_eq_of_offsets h.offsets]

theorem Fresh.pushAll (h : s.Fresh) (slots : List (ValueType × Location)) :
    (s.pushAll slots).Fresh ∧ s.maxOffset ≤ (s.pushAll slots).maxOffset := by
  induction slots generalizing s with
  | nil => exact ⟨h, Nat.le_refl _⟩
  | cons p slots ih =>
    obtain ⟨hfresh, hmax⟩ := ih (h.push p.1 p.2)
    refine ⟨hfresh, Nat.le_trans ?_ hmax⟩
    rw [maxOffset_push]
    exact Nat.le_max_left _ _

/-! ## Joins -/

/-- A state that paths from the source, and others like it, can join in. -/
structure JoinsIn (source target : CacheState) (numLocals arity stackDepth : Nat) : Prop where
  consistent : target.isConsistent = true
  height : target.height = numLocals + stackDepth + arity
  types : target.types = source.types.take numLocals ++
    (source.types.drop numLocals).take stackDepth ++ source.types.drop (source.height - arity)
  offsets : target.slots.toList.map Slot.offset =
    (({} : CacheState).pushAll (target.types.map fun ty => (ty, .stack))).slots.toList.map
      Slot.offset
  unshared : target.Unshared
  suits : (∀ slot ∈ source.slots, slot.loc.Suits slot.ty) → ∀ slot ∈ target.slots,
    slot.loc.Suits slot.ty
  /-- Locals and merge values are not constants, and other constants are those of the source. -/
  const : ∀ i t value, target.slots[i]? = some t → t.loc = .const value →
    numLocals ≤ i ∧ i < numLocals + stackDepth ∧ ∃ slot, source.slots[i]? = some slot ∧
      slot.loc = .const value
  /-- What is in the frame stays there. -/
  spilled : ∀ i slot, i < numLocals + stackDepth + arity →
    source.slots[source.joinSource numLocals arity stackDepth i]? = some slot → slot.loc = .stack →
    ∃ t, target.slots[i]? = some t ∧ t.loc = .stack
  maxOffset : source.maxOffset ≤ target.maxOffset

theorem types_mergeTarget (source : CacheState) (numLocals arity stackDepth : Nat) :
    (source.mergeTarget numLocals arity stackDepth).types = source.types.take numLocals ++
      (source.types.drop numLocals).take stackDepth ++
        source.types.drop (source.height - arity) := by
  obtain ⟨taken, taken', htarget⟩ := source.mergeTarget_eq numLocals arity stackDepth
  have hslots := congrArg (List.map Prod.fst) (slots_pushAll { maxOffset := source.maxOffset }
    (source.mergeSlots taken taken' numLocals arity stackDepth))
  rw [map_map, map_nil, nil_append, ← htarget, mergeSlots_types, take_add] at hslots
  exact hslots

/-- The state made for a merge is a valid state to join in, whatever its source. -/
theorem merge_state_is_valid_join (source : CacheState) (numLocals arity stackDepth : Nat)
    (hheight : numLocals + stackDepth + arity ≤ source.height) :
    source.JoinsIn (source.mergeTarget numLocals arity stackDepth) numLocals arity stackDepth := by
  have hempty : ({ maxOffset := source.maxOffset } : CacheState).Fresh :=
    ⟨⟨fun r => by simp [useCount, countUses], fun r => by simp [isUsed, countUses]⟩, rfl⟩
  have hfresh : (source.mergeTarget numLocals arity stackDepth).Fresh := (hempty.pushAll _).1
  have htypes := source.types_mergeTarget numLocals arity stackDepth
  have hsize : (source.mergeTarget numLocals arity stackDepth).height = numLocals +
      stackDepth + arity := by
    rw [← length_types, htypes]
    simp only [length_append, length_take, length_drop, length_types]
    omega
  refine ⟨hfresh.tracks.isConsistent, hsize, htypes, hfresh.offsets, unshared_mergeTarget _ _ _ _,
    fun hsuits slot hslot => ?_, fun i t value ht hconst => ?_, fun i slot hi hslot hstack => ?_,
    (hempty.pushAll _).2⟩
  · exact Suited.mergeTarget hsuits _ _ _ slot hslot
  · obtain ⟨slot, taken, hslot, hloc⟩ := getElem?_mergeTarget hheight ht
    obtain ⟨hkeep, hvalue⟩ := (source.mergeLocation_cases _ taken slot).1 value (hloc ▸ hconst)
    obtain ⟨hlow, hhigh⟩ := of_decide_eq_true hkeep
    rw [joinSource, if_pos hhigh] at hslot
    exact ⟨hlow, hhigh, slot, hslot, hvalue⟩
  · obtain ⟨t, ht⟩ : ∃ t, (source.mergeTarget numLocals arity stackDepth).slots[i]? = some t :=
      ⟨_, Array.getElem?_eq_getElem (Nat.lt_of_lt_of_eq hi hsize.symm)⟩
    obtain ⟨slot', taken, hslot', hloc⟩ := getElem?_mergeTarget hheight ht
    cases hslot.symm.trans hslot'
    exact ⟨t, ht, hloc.trans ((source.mergeLocation_cases _ taken slot).2 hstack)⟩

/-- A constant stays below the construct, but not as a local or merge value. -/
theorem merge_state_of_constants :
    let source := ((((({} : CacheState).push .i32 (.const 0)).push .i32 (.const 5)).push
      .i64 .stack).push .i32 (.const 9))
    1 + 1 + 1 ≤ source.height ∧ source.JoinsIn (source.mergeTarget 1 1 1) 1 1 1 :=
  ⟨by decide, merge_state_is_valid_join _ 1 1 1 (by decide)⟩

end CacheState

end OnePass
