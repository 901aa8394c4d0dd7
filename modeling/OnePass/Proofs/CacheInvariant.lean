import Mathlib
import OnePass.Cache.Merge

/-!
The invariant of the cache state. The use counts and the set of used registers are those of the
slots, and a slot lies in the frame where the types of the slots up to it put it. So the frame of a
merge target, which keeps some of the slots of its source, is never deeper than that of the source.

What is known of the types is a parameter: they have a property, and, where the body has been
checked in full, a register backs slots of its class only.
-/
namespace OnePass

open List

/-- What is known of the types of a function. -/
structure Regime where
  /-- Every type has this property. -/
  allows : ValueType → Prop
  /-- Operands have the types that the type rules ask for. -/
  typed : Prop
  /-- Pointers to imports are within reach, and signatures have ids. -/
  linked : Prop
  /-- At most `bottom` lacks the property. -/
  proper : ∀ ty, ty ≠ .bottom → allows ty
  /-- The type rules are of no use for `bottom`. -/
  strict : typed → ∀ ty, allows ty → ty ≠ .bottom

theorem Reg.mem_all (r : Reg) : r ∈ Reg.all := mem_map.2 ⟨r.code, mem_finRange _, rfl⟩

namespace RegSet

variable {s t : RegSet} {r q : Reg} {n : Nat}

theorem contains_erase : (s.erase r).contains q = (s.contains q && decide (r ≠ q)) := by
  simp only [contains, erase, BitVec.getLsbD_and, BitVec.getLsbD_not, BitVec.getLsbD_twoPow]
  simp [Reg.ext_iff, Fin.ext_iff]

theorem contains_sdiff :
    (s.sdiff t).contains q = (s.contains q && !t.contains q) := by simp [contains, sdiff]

theorem contains_of_first? (h : s.first? = some r) : s.contains r = true := find?_some h

theorem first?_eq_none : s.first? = none ↔ ∀ r, s.contains r = false := by
  simp [first?, find?_eq_none, Reg.mem_all]

/-- The set has at most so many members. -/
def AtMost (s : RegSet) (n : Nat) : Prop :=
  ∃ rs : List Reg, rs.length ≤ n ∧ ∀ r, s.contains r = true → r ∈ rs

theorem atMost_empty : empty.AtMost n := ⟨[], Nat.zero_le _, by simp⟩

theorem AtMost.mono {m : Nat} (h : s.AtMost n) (hle : n ≤ m) : s.AtMost m := by
  obtain ⟨rs, hlength, hmem⟩ := h
  exact ⟨rs, Nat.le_trans hlength hle, hmem⟩

theorem AtMost.insert (h : s.AtMost n) (r : Reg) : (s.insert r).AtMost (n + 1) := by
  obtain ⟨rs, hlength, hmem⟩ := h
  refine ⟨r :: rs, Nat.succ_le_succ hlength, fun q hq => ?_⟩
  rw [contains_insert, Bool.or_eq_true, decide_eq_true_iff] at hq
  rcases hq with hq | rfl
  · exact mem_cons_of_mem _ (hmem q hq)
  · exact mem_cons_self

theorem atMost_ofList (rs : List Reg) : (ofList rs).AtMost rs.length := by
  have hfold : ∀ (rs : List Reg) (s : RegSet) (n : Nat), s.AtMost n →
      (rs.foldl RegSet.insert s).AtMost (n + rs.length) := by
    intro rs
    induction rs with
    | nil => exact fun _ _ h => h
    | cons r rs ih =>
      intro s n h
      rw [foldl_cons, length_cons, Nat.add_comm rs.length, ← Nat.add_assoc]
      exact ih _ _ (h.insert r)
  have hall := hfold rs empty 0 atMost_empty
  rwa [Nat.zero_add] at hall

end RegSet

variable {c : RegClass}

theorem RegClass.regClass_of_contains {r : Reg} (h : c.cacheRegs.contains r = true) :
    r.regClass = c := by
  revert h
  obtain ⟨r⟩ := r
  revert r
  cases c <;> decide

variable {pinned : RegSet}

/-- Fewer than eight pinned registers leave a register of every class. -/
theorem RegClass.exists_unpinned (c : RegClass) (h : pinned.AtMost 7) :
    ∃ r, c.cacheRegs.contains r = true ∧ pinned.contains r = false := by
  obtain ⟨rs, hlength, hmem⟩ := h
  have hsize : c.cacheRegs.toList.Nodup ∧ c.cacheRegs.toList.length = 8 := by
    cases c <;> decide
  by_contra hnone
  have hsub : c.cacheRegs.toList ⊆ rs := by
    intro r hr
    have hcache : c.cacheRegs.contains r = true := (mem_filter.1 hr).2
    refine hmem r ?_
    by_contra hpinned
    exact hnone ⟨r, hcache, by simpa using hpinned⟩
  have hle := (hsize.1.subperm hsub).length_le
  omega

/-- A register that backs a value of the type is of its class. -/
def Location.Suits (loc : Location) (ty : ValueType) : Prop :=
  ∀ r, loc = .reg r → r.regClass = .ofType ty

theorem Location.suits_stack (ty : ValueType) : Location.stack.Suits ty := nofun

theorem Location.suits_const (value : Int32) (ty : ValueType) :
    (Location.const value).Suits ty := nofun

theorem Location.suits_reg {r : Reg} {ty : ValueType} (h : r.regClass = .ofType ty) :
    (Location.reg r).Suits ty := by
  rintro _ ⟨⟩
  exact h

/-- How often a location uses a register. -/
def Location.uses (loc : Location) (r : Reg) : Nat := if loc.reg? = some r then 1 else 0

/-! ## The frame of a list of types -/

/-- Where a slot lies whose predecessor lies at `base`. -/
def nextPlace (base : Nat) (ty : ValueType) : Nat := roundUp (base + slotSize ty) (slotSize ty)

/-- Where the last of the slots lies. -/
def frameTop (types : List ValueType) : Nat := types.foldl nextPlace staticFrameSize

theorem slotSize_pos (ty : ValueType) : 0 < slotSize ty := by
  unfold slotSize
  split <;> decide

theorem lt_nextPlace (base : Nat) (ty : ValueType) : base < nextPlace base ty :=
  Nat.lt_of_lt_of_le (Nat.lt_add_of_pos_right (slotSize_pos ty)) (le_roundUp _ (slotSize_pos ty))

theorem nextPlace_mono {base base' : Nat} (h : base ≤ base') (ty : ValueType) :
    nextPlace base ty ≤ nextPlace base' ty :=
  Nat.mul_le_mul_right _ (Nat.div_le_div_right (by omega))

theorem frameTop_concat (types : List ValueType) (ty : ValueType) :
    frameTop (types ++ [ty]) = nextPlace (frameTop types) ty := by
  simp [frameTop]

/-- Fewer slots need no deeper frame. -/
theorem frameTop_le_of_sublist {xs ys : List ValueType} (h : xs.Sublist ys) :
    frameTop xs ≤ frameTop ys := by
  have hfold : ∀ base base', base ≤ base' → xs.foldl nextPlace base ≤ ys.foldl nextPlace base' := by
    induction h with
    | slnil => exact fun _ _ h => h
    | cons ty _ ih => exact fun base base' h => ih _ _ (Nat.le_of_lt (Nat.lt_of_le_of_lt h
        (lt_nextPlace base' ty)))
    | cons_cons ty _ ih => exact fun base base' h => ih _ _ (nextPlace_mono h ty)
  exact hfold _ _ (Nat.le_refl _)

theorem staticFrameSize_le_frameTop (types : List ValueType) : staticFrameSize ≤ frameTop types :=
  frameTop_le_of_sublist (nil_sublist types)

namespace CacheState

variable {R : Regime} {s s' : CacheState} {ty : ValueType} {loc : Location} {slot : Slot}
  {r q : Reg} {i : Nat} {f : Reg → Nat} {ts : List ValueType}

/-- The types of the slots. -/
def types (s : CacheState) : List ValueType := s.slots.toList.map Slot.ty

@[simp] theorem length_types (s : CacheState) : s.types.length = s.height := by simp [types, height]

/-! ## Use counts -/

/-- The counts and the set of used registers are those of a count of uses. -/
structure Tracks (s : CacheState) (f : Reg → Nat) : Prop where
  count : ∀ r, s.useCount r = f r
  used : ∀ r, s.isUsed r = decide (0 < f r)

theorem Tracks.isConsistent (h : s.Tracks (countUses s.slots)) : s.isConsistent = true := by
  simp only [CacheState.isConsistent, all_eq_true, Bool.and_eq_true, beq_iff_eq]
  intro r _
  refine ⟨h.count r, ?_⟩
  rw [h.used]
  cases countUses s.slots r <;> rfl

theorem Tracks.acquire (h : s.Tracks f) (loc : Location) :
    (s.acquire loc).Tracks fun r => f r + loc.uses r := by
  cases loc with
  | const value => exact h
  | stack => exact h
  | reg r =>
    refine ⟨fun q => ?_, fun q => ?_⟩
    · rw [← h.count q]
      simp only [CacheState.acquire, acquireReg, useCount, Fin.getElem_fin, Vector.getElem_set,
        Location.uses, Location.reg?, Option.some.injEq, Reg.ext_iff, Fin.ext_iff]
      split
      next heq => simp only [heq]
      next => rfl
    · have hq := h.used q
      simp only [isUsed] at hq ⊢
      simp only [CacheState.acquire, acquireReg, RegSet.contains_insert, hq, Location.uses,
        Location.reg?, Option.some.injEq]
      by_cases heq : r = q <;> simp [heq]

theorem Tracks.release (h : s.Tracks f) (loc : Location) :
    (s.release loc).Tracks fun r => f r - loc.uses r := by
  cases loc with
  | const value => exact h
  | stack => exact h
  | reg r =>
    refine ⟨fun q => ?_, fun q => ?_⟩
    · rw [← h.count q]
      simp only [CacheState.release, releaseReg, useCount, Fin.getElem_fin, Vector.getElem_set,
        Location.uses, Location.reg?, Option.some.injEq, Reg.ext_iff, Fin.ext_iff]
      split
      next heq => simp only [heq]
      next => rfl
    · have hq := h.used q
      have hr := h.count r
      simp only [isUsed] at hq ⊢
      simp only [CacheState.release, releaseReg, hr, Location.uses,
        Location.reg?, Option.some.injEq]
      by_cases heq : r = q
      · subst heq
        split
        · rw [RegSet.contains_erase]
          simp
          omega
        · rw [hq]
          simp
          omega
      · have hsame : (if f r ≤ 1 then s.used.erase r else s.used).contains q =
            s.used.contains q := by
          split
          · simp [RegSet.contains_erase, heq]
          · rfl
        rw [hsame, hq, if_neg heq, Nat.sub_zero]

theorem countUses_push (slots : Array Slot) (slot : Slot) (r : Reg) :
    countUses (slots.push slot) r = countUses slots r + slot.loc.uses r := by
  rw [countUses, Array.countP_push, countUses, Location.uses, Slot.reg?]
  simp only [beq_iff_eq]

theorem countUses_set {slots : Array Slot} (hi : slots[i]? = some slot) (loc : Location) (r : Reg) :
    countUses (slots.setIfInBounds i { slot with loc }) r =
      countUses slots r - slot.loc.uses r + loc.uses r := by
  obtain ⟨hlt, hget⟩ := Array.getElem?_eq_some_iff.1 hi
  rw [Array.setIfInBounds_def, dif_pos hlt, countUses, Array.countP_set hlt, hget]
  simp only [countUses, Location.uses, Slot.reg?, beq_iff_eq]

/-! ## Fields after an operation -/

section

variable (s : CacheState) (loc : Location)

@[simp] theorem slots_acquire : (s.acquire loc).slots = s.slots := by
  cases loc <;> rfl

@[simp] theorem maxOffset_acquire : (s.acquire loc).maxOffset = s.maxOffset := by
  cases loc <;> rfl

@[simp] theorem maxOffset_release : (s.release loc).maxOffset = s.maxOffset := by
  cases loc <;> rfl

end

section

variable (s : CacheState) (ty : ValueType) (loc : Location)

theorem slots_push : (s.push ty loc).slots = s.slots.push ⟨ty, loc, s.nextOffset ty⟩ := by
  simp [push, recordOffset]

variable {s} in
theorem Tracks.push (h : s.Tracks (countUses s.slots)) :
    (s.push ty loc).Tracks (countUses (s.push ty loc).slots) := by
  have htracks := h.acquire loc
  refine ⟨fun r => ?_, fun r => ?_⟩
  · rw [slots_push, countUses_push]
    exact htracks.count r
  · rw [slots_push, countUses_push]
    exact htracks.used r

theorem maxOffset_push : (s.push ty loc).maxOffset = max s.maxOffset (s.nextOffset ty) := by
  simp [push, recordOffset]

@[simp] theorem types_push : (s.push ty loc).types = s.types ++ [ty] := by
  simp [types, slots_push]

end

theorem pop?_eq_some (h : s.pop? = some (slot, s')) :
    s.slots = s'.slots.push slot ∧ s'.maxOffset = s.maxOffset ∧
      s' = { s.release slot.loc with slots := s'.slots } := by
  unfold pop? at h
  split at h
  next slot' hback =>
    obtain ⟨rest, hrest⟩ := Array.back?_eq_some_iff.1 hback
    cases h
    simp [hrest]
  next => cases h

section

variable (h : s.types = ts ++ [ty])
include h

theorem back?_of_types : ∃ slot, s.slots.back? = some slot ∧ slot.ty = ty := by
  have hne : s.slots.toList ≠ [] := by
    intro hnil
    simp [types, hnil] at h
  refine ⟨s.slots.toList.getLast hne, ?_, ?_⟩
  · rw [← Array.getLast?_toList, getLast?_eq_some_getLast hne]
  · have hlast := congrArg getLast? h
    rw [types, getLast?_map, getLast?_eq_some_getLast hne] at hlast
    simpa using hlast

/-- A state with slots has one to pop. -/
theorem pop?_of_types : ∃ slot s', s.pop? = some (slot, s') ∧ slot.ty = ty ∧ s'.types = ts := by
  obtain ⟨slot, hback, hty⟩ := back?_of_types h
  have hpop : s.pop? = some (slot, { s.release slot.loc with slots := s.slots.pop }) := by
    simp only [pop?, hback]
  refine ⟨slot, _, hpop, hty, ?_⟩
  have hslots := (pop?_eq_some hpop).1
  rw [types, hslots, Array.toList_push, map_append] at h
  exact (append_inj' h rfl).1

/-- The topmost slot. -/
theorem peek?_of_types : ∃ slot, s.peek? 0 = some slot ∧ slot.ty = ty ∧ slot ∈ s.slots := by
  obtain ⟨slot, hback, hty⟩ := back?_of_types h
  have hlt : 0 < s.height := by
    rw [← length_types, h]
    simp
  refine ⟨slot, ?_, hty, Array.mem_of_back? hback⟩
  rw [peek?, if_pos hlt, Nat.sub_zero]
  rwa [Array.back?_eq_getElem?] at hback

end

theorem relocate_eq (hi : s.slots[i]? = some slot) (loc : Location) :
    s.relocate i loc = { (s.release slot.loc).acquire loc with
      slots := s.slots.setIfInBounds i { slot with loc } } := by
  simp only [relocate, hi]

theorem slots_relocate (hi : s.slots[i]? = some slot) (loc : Location) :
    (s.relocate i loc).slots = s.slots.setIfInBounds i { slot with loc } := by
  rw [relocate_eq hi]

theorem slot_relocate (hi : s.slots[i]? = some slot) (loc : Location) :
    (s.relocate i loc).slots[i]? = some ⟨slot.ty, loc, slot.offset⟩ := by
  rw [slots_relocate hi,
    Array.getElem?_setIfInBounds_self_of_lt (Array.getElem?_eq_some_iff.1 hi).1]

@[simp] theorem maxOffset_relocate (s : CacheState) (i : Nat) (loc : Location) :
    (s.relocate i loc).maxOffset = s.maxOffset := by
  unfold relocate
  split <;> simp

@[simp] theorem types_relocate (s : CacheState) (i : Nat) (loc : Location) :
    (s.relocate i loc).types = s.types := by
  cases hi : s.slots[i]? with
  | none => simp only [relocate, hi]
  | some slot =>
    rw [types, slots_relocate hi, Array.toList_setIfInBounds, map_set, types]
    refine ext_getElem? fun j => ?_
    rw [getElem?_set, getElem?_map, Array.getElem?_toList]
    split
    next heq =>
      subst heq
      simp [(Array.getElem?_eq_some_iff.1 hi).1, (Array.getElem?_eq_some_iff.1 hi).2]
    next => rfl

/-! ## The invariant -/

/-- The counts are those of the slots, and every slot lies where the types up to it put it. -/
structure Placed (s : CacheState) : Prop where
  tracks : s.Tracks (countUses s.slots)
  place : ∀ i slot, s.slots[i]? = some slot → slot.offset = frameTop (s.types.take (i + 1))

theorem placed_empty (deepest : Nat) : ({ maxOffset := deepest } : CacheState).Placed :=
  ⟨⟨fun r => by simp [useCount, countUses], fun r => by simp [isUsed, countUses]⟩,
    fun i slot h => by simp at h⟩

section

variable (h : s.Placed)
include h

/-- The topmost place depends on the types only. -/
theorem Placed.topOffset_eq : s.topOffset = frameTop s.types := by
  unfold topOffset
  split
  next slot hback =>
    rw [Array.back?_eq_getElem?] at hback
    have hlt := (Array.getElem?_eq_some_iff.1 hback).1
    rw [h.place _ _ hback, take_of_length_le]
    rw [length_types, height]
    omega
  next hback =>
    have hslots : s.slots = #[] := by simpa using hback
    simp [types, hslots, frameTop]

theorem Placed.nextOffset_eq (ty : ValueType) : s.nextOffset ty = frameTop (s.types ++ [ty]) := by
  rw [frameTop_concat, nextOffset, h.topOffset_eq, nextPlace]

theorem Placed.push (ty : ValueType) (loc : Location) : (s.push ty loc).Placed := by
  refine ⟨h.tracks.push ty loc, fun i slot hi => ?_⟩
  rw [types_push]
  rw [slots_push, Array.getElem?_push] at hi
  split at hi
  next heq =>
    cases hi
    rw [heq, take_of_length_le (by simp [height]), h.nextOffset_eq]
  next =>
    have hlt := (Array.getElem?_eq_some_iff.1 hi).1
    rw [take_append_of_le_length (by rw [length_types, height]; omega)]
    exact h.place i slot hi

theorem Placed.pop (hpop : s.pop? = some (slot, s')) : s'.Placed := by
  obtain ⟨hslots, -, hs'⟩ := pop?_eq_some hpop
  refine ⟨?_, fun i slot' hi => ?_⟩
  · have hcount : countUses s'.slots = fun r => countUses s.slots r - slot.loc.uses r := by
      funext r
      rw [hslots, countUses_push, Nat.add_sub_cancel]
    rw [hcount, hs']
    have htracks := h.tracks.release slot.loc
    exact ⟨htracks.count, htracks.used⟩
  · have hlt := (Array.getElem?_eq_some_iff.1 hi).1
    have hplace := h.place i slot' (by
      rw [hslots, Array.getElem?_push, if_neg (Nat.ne_of_lt hlt)]
      exact hi)
    rw [hplace, types, hslots, Array.toList_push, map_append,
      take_append_of_le_length (by rw [length_map, Array.length_toList]; omega), types]

theorem Placed.relocate (i : Nat) (loc : Location) : (s.relocate i loc).Placed := by
  cases hi : s.slots[i]? with
  | none => rwa [CacheState.relocate, hi]
  | some slot =>
    refine ⟨?_, fun j slot' hj => ?_⟩
    · have htracks := (h.tracks.release slot.loc).acquire loc
      rw [relocate_eq hi]
      refine ⟨fun r => ?_, fun r => ?_⟩
      · rw [countUses_set hi]
        exact htracks.count r
      · rw [countUses_set hi]
        exact htracks.used r
    · rw [types_relocate]
      rw [slots_relocate hi, Array.getElem?_setIfInBounds] at hj
      split at hj
      next heq =>
        subst heq
        split at hj <;> cases hj
        exact h.place i slot hi
      next => exact h.place j slot' hj

theorem Placed.recordOffset (offset : Nat) : (s.recordOffset offset).Placed :=
  ⟨⟨h.tracks.count, h.tracks.used⟩, h.place⟩

theorem Placed.pushAll (slots : List (ValueType × Location)) : (s.pushAll slots).Placed := by
  induction slots generalizing s with
  | nil => exact h
  | cons p slots ih => exact ih (h.push p.1 p.2)

/-- A slot lies behind all that lie before it. -/
theorem Placed.add_slotSize_le (hi : s.slots[i]? = some slot) :
    frameTop (s.types.take i) + slotSize slot.ty ≤ slot.offset := by
  have hty : s.types[i]? = some slot.ty := by
    rw [types, getElem?_map, Array.getElem?_toList, hi, Option.map_some]
  rw [h.place i slot hi, take_add_one, hty, Option.toList_some, frameTop_concat]
  exact le_roundUp _ (slotSize_pos _)

theorem Placed.above_static (hslot : slot ∈ s.slots) :
    staticFrameSize + slotSize slot.ty ≤ slot.offset := by
  obtain ⟨i, hi⟩ := Array.getElem?_of_mem hslot
  exact Nat.le_trans (Nat.add_le_add_right (staticFrameSize_le_frameTop _) _) (h.add_slotSize_le hi)

/-- Of two slots the later one begins behind the other. -/
theorem Placed.apart : s.slots.toList.Pairwise fun a b => a.offset + slotSize b.ty ≤ b.offset := by
  refine pairwise_iff_getElem.2 fun i j hi hj hij => ?_
  have hget {k : Nat} (hk : k < s.slots.toList.length) : s.slots[k]? = some s.slots.toList[k] := by
    rw [← Array.getElem?_toList, getElem?_eq_getElem]
  rw [h.place i _ (hget hi)]
  refine Nat.le_trans (Nat.add_le_add_right ?_ _) (h.add_slotSize_le (hget hj))
  exact frameTop_le_of_sublist (take_sublist_take_left hij)

/-- Where the slots lie is a matter of their types alone. -/
theorem Placed.offsets_eq : s.slots.toList.map Slot.offset =
    (range s.types.length).map fun i => frameTop (s.types.take (i + 1)) := by
  refine ext_getElem? fun i => ?_
  rw [getElem?_map, Array.getElem?_toList, getElem?_map, length_types, height]
  cases hi : s.slots[i]? with
  | none => rw [getElem?_eq_none (by simpa using Array.getElem?_eq_none_iff.1 hi)]; rfl
  | some slot =>
    rw [getElem?_range (Array.getElem?_eq_some_iff.1 hi).1, Option.map_some, Option.map_some,
      h.place i slot hi]

theorem Placed.useCount_pos (hslot : slot ∈ s.slots) (hr : slot.loc = .reg r) :
    0 < s.useCount r := by
  rw [h.tracks.count, countUses, Array.countP_pos_iff]
  exact ⟨slot, hslot, by simp [Slot.reg?, hr, Location.reg?]⟩

end

theorem placed_mergeTarget (s : CacheState) (numLocals arity stackDepth : Nat) :
    (s.mergeTarget numLocals arity stackDepth).Placed := (placed_empty _).pushAll _

structure Regular (R : Regime) (s : CacheState) : Prop where
  tracks : s.Tracks (countUses s.slots)
  place : ∀ i slot, s.slots[i]? = some slot → slot.offset = frameTop (s.types.take (i + 1))
  room : frameTop s.types ≤ s.maxOffset
  allows : ∀ ty ∈ s.types, R.allows ty
  suits : R.typed → ∀ slot ∈ s.slots, slot.loc.Suits slot.ty

theorem regular_empty (R : Regime) {deepest : Nat} (h : staticFrameSize ≤ deepest) :
    ({ maxOffset := deepest } : CacheState).Regular R :=
  ⟨(placed_empty _).tracks, (placed_empty _).place, h, fun _ h => by simp [types] at h,
    fun _ _ h => by simp at h⟩

section

variable (h : s.Regular R)
include h

theorem Regular.placed : s.Placed := ⟨h.tracks, h.place⟩

theorem Regular.isConsistent : s.isConsistent = true := h.tracks.isConsistent

theorem Regular.staticFrameSize_le : staticFrameSize ≤ s.maxOffset :=
  Nat.le_trans (staticFrameSize_le_frameTop _) h.room

section

variable (hslot : slot ∈ s.slots)
include hslot

/-- Every slot lies in the part of the frame that was handed out. -/
theorem Regular.offset_mem : staticFrameSize ≤ slot.offset ∧ slot.offset ≤ frameTop s.types := by
  obtain ⟨i, hi⟩ := Array.getElem?_of_mem hslot
  rw [h.place i slot hi]
  exact ⟨staticFrameSize_le_frameTop _, frameTop_le_of_sublist (take_sublist _ _)⟩

theorem Regular.offset_pos :
    0 < slot.offset := Nat.lt_of_lt_of_le (by decide) (h.offset_mem hslot).1

theorem Regular.offset_le : slot.offset ≤ s.maxOffset := Nat.le_trans (h.offset_mem hslot).2 h.room

theorem Regular.allows_ty :
    R.allows slot.ty := h.allows _ (mem_map_of_mem (Array.mem_toList_iff.2 hslot))

end

theorem Regular.push (hty : R.allows ty) (hloc : R.typed → loc.Suits ty) :
    (s.push ty loc).Regular R := by
  obtain ⟨htracks, hplace⟩ := h.placed.push ty loc
  refine ⟨htracks, hplace, ?_, fun ty' hmem => ?_, fun htyped slot hslot => ?_⟩
  · rw [types_push, maxOffset_push, h.placed.nextOffset_eq]
    exact Nat.le_max_right _ _
  · rw [types_push] at hmem
    rcases mem_append.1 hmem with hmem | hmem
    · exact h.allows ty' hmem
    · cases mem_singleton.1 hmem
      exact hty
  · rw [slots_push] at hslot
    rcases Array.mem_push.1 hslot with hslot | rfl
    · exact h.suits htyped slot hslot
    · exact hloc htyped

theorem Regular.pop (hpop : s.pop? = some (slot, s')) : s'.Regular R := by
  obtain ⟨hslots, hmax, -⟩ := pop?_eq_some hpop
  obtain ⟨htracks, hplace⟩ := h.placed.pop hpop
  have htypes : s.types = s'.types ++ [slot.ty] := by simp [types, hslots]
  refine ⟨htracks, hplace, ?_, fun ty hty => ?_, fun htyped slot' hmem => ?_⟩
  · rw [hmax]
    refine Nat.le_trans (frameTop_le_of_sublist ?_) h.room
    rw [htypes]
    exact sublist_append_left ..
  · refine h.allows ty ?_
    rw [htypes]
    exact mem_append_left _ hty
  · refine h.suits htyped slot' ?_
    rw [hslots]
    exact Array.mem_push.2 (.inl hmem)

theorem Regular.dropValues {as : List ValueType} (htypes : s.types = ts ++ as) :
    (s.dropValues as.length).Regular R ∧ (s.dropValues as.length).types = ts ∧
      (s.dropValues as.length).maxOffset = s.maxOffset := by
  induction as using reverseRecOn generalizing s with
  | nil => exact ⟨h, by simpa [CacheState.dropValues] using htypes, rfl⟩
  | append_singleton as ty ih =>
    rw [← append_assoc] at htypes
    obtain ⟨slot, s', hpop, -, htypes'⟩ := pop?_of_types htypes
    have hdrop : s.dropValues (as ++ [ty]).length = s'.dropValues as.length := by
      rw [length_append, length_singleton, CacheState.dropValues, hpop]
    rw [hdrop, ← (pop?_eq_some hpop).2.1]
    exact ih (h.pop hpop) htypes'

theorem Regular.relocate (hi : s.slots[i]? = some slot)
    (hloc : R.typed → loc.Suits slot.ty) : (s.relocate i loc).Regular R := by
  obtain ⟨htracks, hplace⟩ := h.placed.relocate i loc
  refine ⟨htracks, hplace, ?_, ?_, fun htyped slot' hmem => ?_⟩
  · rw [types_relocate, maxOffset_relocate]
    exact h.room
  · rw [types_relocate]
    exact h.allows
  · rw [slots_relocate hi] at hmem
    rcases Array.mem_or_eq_of_mem_setIfInBounds hmem with hmem | rfl
    · exact h.suits htyped slot' hmem
    · exact hloc htyped

theorem Regular.recordOffset (offset : Nat) : (s.recordOffset offset).Regular R :=
  ⟨⟨h.tracks.count, h.tracks.used⟩, h.place, Nat.le_trans h.room (Nat.le_max_left _ _),
    h.allows, h.suits⟩

end

/-! ## Registers to take -/

theorem unused?_eq_some (h : s.unused? c pinned = some r) :
    c.cacheRegs.contains r = true ∧ s.isUsed r = false ∧ pinned.contains r = false := by
  have hfree := RegSet.contains_of_first? h
  rw [freeRegs, RegSet.contains_sdiff, RegSet.contains_sdiff] at hfree
  simp only [Bool.and_eq_true, Bool.not_eq_true'] at hfree
  exact ⟨hfree.1.1, hfree.1.2, hfree.2⟩

theorem regClass_of_unused? (h : s.unused? c pinned = some r) :
    r.regClass = c := RegClass.regClass_of_contains (unused?_eq_some h).1

/-- With a register left there is one to spill. Only the memory of what was spilled changes. -/
theorem nextSpill?_eq (s : CacheState)
    (h : ∃ r, c.cacheRegs.contains r = true ∧ pinned.contains r = false) :
    ∃ r recent, s.nextSpill? c pinned = (some r, { s with lastSpilled := recent }) ∧
      r.regClass = c := by
  have hclass : ∀ {pool : RegSet} {r : Reg}, (∀ q, pool.contains q = true →
      (c.cacheRegs.sdiff pinned).contains q = true) → pool.first? = some r → r.regClass = c := by
    intro pool r hpool hfirst
    have hr := hpool r (RegSet.contains_of_first? hfirst)
    rw [RegSet.contains_sdiff, Bool.and_eq_true] at hr
    exact RegClass.regClass_of_contains hr.1
  have hrested : ∀ q, ((c.cacheRegs.sdiff pinned).sdiff s.lastSpilled).contains q = true →
      (c.cacheRegs.sdiff pinned).contains q = true := by
    intro q hq
    rw [RegSet.contains_sdiff, Bool.and_eq_true] at hq
    exact hq.1
  obtain ⟨left, hleft, hunpinned⟩ := h
  have hcandidate : (c.cacheRegs.sdiff pinned).contains left = true := by
    simp [RegSet.contains_sdiff, hleft, hunpinned]
  unfold nextSpill?
  -- Either some candidate has not been spilled lately, or all candidates get another turn.
  cases hempty : ((c.cacheRegs.sdiff pinned).sdiff s.lastSpilled).isEmpty with
  | true =>
    simp only [hempty, if_true]
    cases hfirst : (c.cacheRegs.sdiff pinned).first? with
    | none => simp [RegSet.first?_eq_none.1 hfirst left] at hcandidate
    | some r => exact ⟨r, _, rfl, hclass (fun _ => id) hfirst⟩
  | false =>
    simp only [hempty, Bool.false_eq_true, if_false]
    cases hfirst : ((c.cacheRegs.sdiff pinned).sdiff s.lastSpilled).first? with
    | none =>
      have hnone := RegSet.first?_eq_none.1 hfirst
      have hbits : ((c.cacheRegs.sdiff pinned).sdiff s.lastSpilled).bits = 0 := by
        refine BitVec.eq_of_getLsbD_eq fun k hk => ?_
        simpa [RegSet.contains] using hnone ⟨⟨k, hk⟩⟩
      simp [RegSet.isEmpty, hbits] at hempty
    | some r => exact ⟨r, _, rfl, hclass hrested hfirst⟩

/-! ## Merge targets -/

variable {source : CacheState} {keepConst : Bool} {taken : RegSet}

theorem freshLocation_suits (source : CacheState) (taken : RegSet) (ty : ValueType) :
    (match source.mergeReg? taken ty with
      | some r => (Location.reg r, taken.insert r)
      | none => (.stack, taken)).1.Suits ty := by
  split
  next r hr =>
    refine Location.suits_reg (RegClass.regClass_of_contains ?_)
    rw [mergeReg?, Option.or_eq_some_iff] at hr
    have hfree : ((RegClass.ofType ty).cacheRegs.sdiff taken).contains r = true := by
      rcases hr with hr | ⟨-, hr⟩
      · have hr := RegSet.contains_of_first? hr
        rw [RegSet.contains_sdiff, Bool.and_eq_true] at hr
        exact hr.1
      · exact RegSet.contains_of_first? hr
    rw [RegSet.contains_sdiff, Bool.and_eq_true] at hfree
    exact hfree.1
  next => exact Location.suits_stack _

theorem mergeLocation_suits (h : slot.loc.Suits slot.ty) :
    (source.mergeLocation keepConst taken slot).1.Suits slot.ty := by
  have hfresh := freshLocation_suits source taken slot.ty
  unfold mergeLocation
  dsimp only
  split
  next r hloc =>
    split
    · exact hfresh
    · exact hloc ▸ h
  next =>
    split
    · exact Location.suits_const _ _
    · exact hfresh
  next => exact Location.suits_stack _

theorem mergeLocations_types (source : CacheState) (keepConst : Bool) (taken : RegSet)
    (slots : List Slot) :
    (source.mergeLocations keepConst taken slots).1.map Prod.fst = slots.map Slot.ty := by
  induction slots generalizing taken with
  | nil => rfl
  | cons slot rest ih => simp [mergeLocations, ih]

theorem mergeLocations_suits {slots : List Slot} (h : ∀ slot ∈ slots, slot.loc.Suits slot.ty) :
    ∀ p ∈ (source.mergeLocations keepConst taken slots).1, p.2.Suits p.1 := by
  induction slots generalizing taken with
  | nil => exact fun p hp => (not_mem_nil hp).elim
  | cons slot rest ih =>
    intro p hp
    rcases mem_cons.1 hp with rfl | hp
    · exact mergeLocation_suits (h slot mem_cons_self)
    · exact ih (fun slot hslot => h slot (mem_cons_of_mem _ hslot)) p hp

/-- The slots of a merge target, given the registers that are taken when locals and then values
below get theirs. -/
def mergeSlots (s : CacheState) (taken taken' : RegSet) (numLocals arity stackDepth : Nat) :
    List (ValueType × Location) :=
  (s.mergeLocations false taken (s.slots.toList.take numLocals)).1 ++
    (s.mergeLocations true taken' ((s.slots.toList.drop numLocals).take stackDepth)).1 ++
    (s.mergeLocations false .empty (s.slots.toList.drop (s.height - arity))).1

theorem mergeTarget_eq (s : CacheState) (numLocals arity stackDepth : Nat) : ∃ taken taken',
    s.mergeTarget numLocals arity stackDepth = ({ maxOffset := s.maxOffset } : CacheState).pushAll
      (s.mergeSlots taken taken' numLocals arity stackDepth) := ⟨_, _, rfl⟩

theorem mergeSlots_types (s : CacheState) (taken taken' : RegSet)
    (numLocals arity stackDepth : Nat) :
    (s.mergeSlots taken taken' numLocals arity stackDepth).map Prod.fst =
      s.types.take (numLocals + stackDepth) ++ s.types.drop (s.height - arity) := by
  simp only [mergeSlots, map_append, mergeLocations_types, types, ← map_take, ← map_drop]
  rw [take_add, map_append]

variable {numLocals arity stackDepth : Nat}

theorem mergeSlots_suits {taken taken' : RegSet} (h : ∀ slot ∈ s.slots, slot.loc.Suits slot.ty) :
    ∀ p ∈ s.mergeSlots taken taken' numLocals arity stackDepth, p.2.Suits p.1 := by
  have hslots : ∀ slot ∈ s.slots.toList, slot.loc.Suits slot.ty :=
    fun slot hslot => h slot (Array.mem_toList_iff.1 hslot)
  intro p hp
  rcases mem_append.1 hp with hp | hp
  · rcases mem_append.1 hp with hp | hp
    · exact mergeLocations_suits (fun slot hslot => hslots slot (mem_of_mem_take hslot)) p hp
    · exact mergeLocations_suits (fun slot hslot =>
        hslots slot (mem_of_mem_drop (mem_of_mem_take hslot))) p hp
  · exact mergeLocations_suits (fun slot hslot => hslots slot (mem_of_mem_drop hslot)) p hp

theorem Regular.pushAll (h : s.Regular R) {slots : List (ValueType × Location)}
    (hallows : ∀ p ∈ slots, R.allows p.1) (hsuits : R.typed → ∀ p ∈ slots, p.2.Suits p.1) :
    (s.pushAll slots).Regular R ∧ (s.pushAll slots).types = s.types ++ slots.map Prod.fst ∧
      (s.pushAll slots).maxOffset = max s.maxOffset (frameTop (s.types ++ slots.map Prod.fst)) := by
  induction slots generalizing s with
  | nil => exact ⟨h, by simp [CacheState.pushAll], by simpa [CacheState.pushAll] using h.room⟩
  | cons p slots ih =>
    have hpush := h.push (hallows p mem_cons_self) fun htyped => hsuits htyped p mem_cons_self
    obtain ⟨hregular, htypes, hmax⟩ := ih hpush (fun q hq => hallows q (mem_cons_of_mem _ hq))
      fun htyped q hq => hsuits htyped q (mem_cons_of_mem _ hq)
    have hstep : s.pushAll (p :: slots) = (s.push p.1 p.2).pushAll slots := rfl
    rw [hstep]
    refine ⟨hregular, by simp [htypes], ?_⟩
    -- The places on the way to the last one are not deeper.
    have hle : s.nextOffset p.1 ≤ frameTop (s.types ++ [p.1] ++ slots.map Prod.fst) := by
      rw [h.placed.nextOffset_eq]
      exact frameTop_le_of_sublist (sublist_append_left ..)
    rw [hmax, types_push, maxOffset_push, Nat.max_assoc, Nat.max_eq_right hle]
    simp

/-- A target keeps the slots at the bottom and those that are merged, and needs no frame of its
own. -/
theorem Regular.mergeTarget (h : s.Regular R)
    (hheight : numLocals + stackDepth + arity ≤ s.height) :
    (s.mergeTarget numLocals arity stackDepth).Regular R ∧
        (s.mergeTarget numLocals arity stackDepth).types =
        s.types.take (numLocals + stackDepth) ++ s.types.drop (s.height - arity) ∧
      (s.mergeTarget numLocals arity stackDepth).maxOffset = s.maxOffset := by
  obtain ⟨taken, taken', htarget⟩ := s.mergeTarget_eq numLocals arity stackDepth
  have htypes := s.mergeSlots_types taken taken' numLocals arity stackDepth
  have hsub : ((s.mergeSlots taken taken' numLocals arity stackDepth).map Prod.fst).Sublist
      s.types := by
    rw [htypes]
    conv_rhs => rw [← take_append_drop (s.height - arity) s.types]
    exact (take_sublist_take_left (by omega)).append (Sublist.refl _)
  have hempty := regular_empty R h.staticFrameSize_le
  have hall := hempty.pushAll (fun p hp => h.allows _ (hsub.subset (mem_map_of_mem hp)))
    fun htyped => mergeSlots_suits (h.suits htyped)
  rw [← htarget, htypes] at hall
  obtain ⟨hregular, htypes', hmax⟩ := hall
  refine ⟨hregular, by simpa [types] using htypes', ?_⟩
  rw [hmax]
  refine Nat.max_eq_left (Nat.le_trans (frameTop_le_of_sublist ?_) h.room)
  rw [htypes] at hsub
  simpa [types] using hsub

end CacheState

end OnePass
