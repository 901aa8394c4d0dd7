import OnePass.Proofs.ParallelMove
import OnePass.Proofs.SlotHeights
import OnePass.Proofs.StateChanges

/-!
Merging brings every value to the join. A cache state says where values are; registers and frame
realize it if they hold the values there. The states that paths join in give every value a place of
its own, and a slot never lies deeper there than in a state that reaches the join, since only slots
in between are dropped. So the moves of a merge overwrite nothing that they still read.
-/
namespace OnePass

open List

variable {r : Reg}

theorem Location.reg?_eq_some {loc : Location} : loc.reg? = some r ↔ loc = .reg r := by
  cases loc <;> simp [reg?]

/-! ## States without vectors -/

namespace CacheState

variable {s s' : CacheState} {slot : Slot} {i : Nat} {ty : ValueType} {loc : Location}

/-- The use counts are those of the slots, which lie one after another in the frame and hold no
vectors. -/
structure Plain (s : CacheState) : Prop where
  tracks : s.Tracks (countUses s.slots)
  place : ∀ (i : Nat) (slot : Slot), s.slots[i]? = some slot →
    slot.offset = staticFrameSize + 8 * (i + 1)
  room : staticFrameSize + 8 * s.height ≤ s.maxOffset
  scalar : ∀ ty ∈ s.types, ty ≠ .v128

theorem nextPlace_of_scalar {base : Nat} (h : ty ≠ .v128) (hbase : 8 ∣ base) :
    nextPlace base ty = base + 8 := by
  rw [nextPlace, slotSize, if_neg h, roundUp]
  omega

/-- Slots of scalars take eight bytes each. -/
theorem frameTop_of_scalar {types : List ValueType} (h : ∀ ty ∈ types, ty ≠ .v128) :
    frameTop types = staticFrameSize + 8 * types.length := by
  induction types using reverseRecOn with
  | nil => rfl
  | append_singleton types ty ih =>
    have hbase := ih fun ty hty => h ty (mem_append_left _ hty)
    have haligned : 8 ∣ frameTop types := by
      rw [hbase, staticFrameSize]
      omega
    rw [frameTop_concat, nextPlace_of_scalar (h ty (mem_append_right _ mem_cons_self))
      haligned, hbase, length_append, length_singleton]
    omega

theorem plain_iff : s.Plain ↔ s.Regular .lax ∧ ∀ ty ∈ s.types, ty ≠ .v128 := by
  have htake (hscalar : ∀ ty ∈ s.types, ty ≠ .v128) {i : Nat} {slot : Slot}
      (hi : s.slots[i]? = some slot) :
      frameTop (s.types.take (i + 1)) = staticFrameSize + 8 * (i + 1) := by
    have hlt : i < s.height := (Array.getElem?_eq_some_iff.1 hi).1
    rw [frameTop_of_scalar fun ty hty => hscalar ty (mem_of_mem_take hty), length_take,
      length_types, Nat.min_eq_left hlt]
  constructor
  · intro h
    refine ⟨⟨h.tracks, fun i slot hi => ?_, ?_, fun _ _ => trivial, False.elim⟩, h.scalar⟩
    · rw [htake h.scalar hi, h.place i slot hi]
    · rw [frameTop_of_scalar h.scalar, length_types]
      exact h.room
  · rintro ⟨h, hscalar⟩
    refine ⟨h.tracks, fun i slot hi => ?_, ?_, hscalar⟩
    · rw [h.place i slot hi, htake hscalar hi]
    · have hroom := h.room
      rwa [frameTop_of_scalar hscalar, length_types] at hroom

theorem Plain.regular (h : s.Plain) : s.Regular .lax := (plain_iff.1 h).1

/-- What the first slots of two states have in common. -/
theorem Plain.of_regular (h : s'.Regular .lax) (hs : s.Plain) (htypes : s'.types ⊆ s.types) :
    s'.Plain :=
  plain_iff.2 ⟨h, fun ty hty => hs.scalar ty (htypes hty)⟩

theorem plain_empty : ({} : CacheState).Plain :=
    plain_iff.2 ⟨regular_empty _ (Nat.le_refl _), nofun⟩

section

variable (h : s.Plain)
include h

theorem Plain.push (hty : ty ≠ .v128) (loc : Location) : (s.push ty loc).Plain := by
  refine plain_iff.2 ⟨h.regular.push trivial False.elim, fun ty' hty' => ?_⟩
  rw [types_push] at hty'
  rcases mem_append.1 hty' with hty' | hty'
  · exact h.scalar ty' hty'
  · rw [mem_singleton.1 hty']
    exact hty

theorem Plain.pop (hpop : s.pop? = some (slot, s')) : s'.Plain := by
  refine .of_regular (h.regular.pop hpop) h ?_
  rw [types, types, (pop?_eq_some hpop).1, Array.toList_push, map_append]
  exact subset_append_left _ _

theorem Plain.relocate (i : Nat) (loc : Location) : (s.relocate i loc).Plain := by
  cases hi : s.slots[i]? with
  | none => rwa [CacheState.relocate, hi]
  | some slot =>
    exact .of_regular (h.regular.relocate hi False.elim)
      h (by rw [types_relocate]; exact List.Subset.refl _)

theorem Plain.scalar_slot (hslot : slot ∈ s.slots) : slot.ty ≠ .v128 :=
  h.scalar _ (mem_map_of_mem (Array.mem_toList_iff.2 hslot))

theorem Plain.offset_le (hslot : slot ∈ s.slots) :
    slot.offset ≤ s.maxOffset := h.regular.offset_le hslot

theorem Plain.topOffset_eq : s.topOffset = staticFrameSize + 8 * s.height := by
  rw [h.regular.placed.topOffset_eq, frameTop_of_scalar h.scalar, length_types]

theorem Plain.offset_mem (hslot : slot ∈ s.slots) :
    8 ∣ slot.offset ∧ staticFrameSize + 8 ≤ slot.offset ∧
      slot.offset ≤ staticFrameSize + 8 * s.height := by
  obtain ⟨i, hi⟩ := Array.getElem?_of_mem hslot
  have hlt : i < s.height := (Array.getElem?_eq_some_iff.1 hi).1
  rw [h.place i slot hi, staticFrameSize]
  omega

/-- Later slots lie deeper. -/
theorem Plain.offsets : s.slots.toList.Pairwise fun a b => a.offset + 8 ≤ b.offset := by
  refine pairwise_iff_getElem.2 fun i j hi hj hij => ?_
  rw [h.place i _ (by rw [← Array.getElem?_toList]; exact getElem?_eq_getElem hi),
    h.place j _ (by rw [← Array.getElem?_toList]; exact getElem?_eq_getElem hj)]
  omega

end

end CacheState

/-! ## Values where a state has them -/

namespace DataState

/-- The slots of the state stand for these values, in order. -/
def Realizes (d : DataState) (s : CacheState) (words : List UInt64) : Prop :=
  s.slots.toList.map d.value = words

/-- Values of 32 bits that are in registers are zero-extended. -/
def ZeroExtends (d : DataState) (s : CacheState) : Prop :=
  ∀ slot ∈ s.slots, ∀ r, slot.loc = .reg r → slot.ty.narrow (d.regs r) = d.regs r

end DataState

/-! ## States that paths join in -/

namespace CacheState

variable {s source : CacheState} {slot : Slot} {taken : RegSet} {keepConst : Bool}

/-- A register backs one slot at most. -/
def Unshared (s : CacheState) : Prop :=
  s.slots.toList.Pairwise fun a b => ∀ r, a.loc = .reg r → b.loc ≠ .reg r

theorem contains_mergeReg? {ty : ValueType} (h : source.mergeReg? taken ty = some r) :
    taken.contains r = false := by
  have hfree : ((RegClass.ofType ty).cacheRegs.sdiff taken).contains r = true := by
    rcases Option.or_eq_some_iff.1 h with h | ⟨-, h⟩
    · have hr := RegSet.contains_of_first? h
      rw [RegSet.contains_sdiff, Bool.and_eq_true] at hr
      exact hr.1
    · exact RegSet.contains_of_first? h
  rw [RegSet.contains_sdiff, Bool.and_eq_true, Bool.not_eq_true'] at hfree
  exact hfree.2

section

variable (source : CacheState) (keepConst : Bool) (taken : RegSet)

/-- A location takes a register that was not taken, or none. -/
theorem mergeLocation_takes (slot : Slot) : let merged := source.mergeLocation keepConst taken slot
    (∀ r, merged.1 = .reg r → taken.contains r = false) ∧
      ∀ r, merged.2.contains r = true ↔ taken.contains r = true ∨ merged.1 = .reg r := by
  have htake (r : Reg) (hr : taken.contains r = false) :
      (∀ q, Location.reg r = .reg q → taken.contains q = false) ∧
        ∀ q, (taken.insert r).contains q = true ↔ taken.contains q = true ∨
          Location.reg r = .reg q := by
    refine ⟨?_, fun q => ?_⟩
    · rintro _ ⟨⟩
      exact hr
    · rw [RegSet.contains_insert, Bool.or_eq_true, decide_eq_true_iff, Location.reg.injEq]
  have hnone (loc : Location) (hloc : ∀ r, loc ≠ .reg r) :
        (∀ q, loc = .reg q → taken.contains q = false) ∧
        ∀ q, taken.contains q = true ↔ taken.contains q = true ∨ loc = .reg q :=
    ⟨fun q h => (hloc q h).elim, fun q => ⟨.inl, fun h => h.resolve_right (hloc q)⟩⟩
  unfold mergeLocation
  dsimp only
  split
  next r hloc =>
    split
    next =>
      split
      next q hq => exact htake q (contains_mergeReg? hq)
      next => exact hnone _ nofun
    next hfree => exact htake r (Bool.eq_false_iff.2 hfree)
  next value hloc =>
    split
    · exact hnone _ nofun
    · split
      next q hq => exact htake q (contains_mergeReg? hq)
      next => exact hnone _ nofun
  next => exact hnone _ nofun

/-- Locations of several slots take different registers. -/
theorem mergeLocations_takes (slots : List Slot) :
    let merged := source.mergeLocations keepConst taken slots
    (∀ p ∈ merged.1, ∀ r, p.2 = .reg r → taken.contains r = false) ∧
      (∀ r, merged.2.contains r = true ↔ taken.contains r = true ∨ ∃ p ∈ merged.1, p.2 = .reg r) ∧
      merged.1.Pairwise fun a b => ∀ r, a.2 = .reg r → b.2 ≠ .reg r := by
  induction slots generalizing taken with
  | nil => simp [mergeLocations]
  | cons slot rest ih =>
    obtain ⟨hfresh, htaken⟩ := source.mergeLocation_takes keepConst taken slot
    rw [mergeLocations]
    dsimp only at hfresh htaken ⊢
    generalize source.mergeLocation keepConst taken slot = first at hfresh htaken ⊢
    obtain ⟨hfresh', htaken', hdistinct⟩ := ih first.2
    generalize source.mergeLocations keepConst first.2 rest = later at hfresh' htaken' hdistinct ⊢
    refine ⟨fun p hp r hr => ?_, fun r => ?_, pairwise_cons.2 ⟨fun p hp r hr hp' => ?_, hdistinct⟩⟩
    · rcases mem_cons.1 hp with rfl | hp
      · exact hfresh r hr
      · have hout := hfresh' p hp r hr
        by_contra hin
        rw [Bool.not_eq_false] at hin
        rw [(htaken r).2 (.inl hin)] at hout
        cases hout
    · rw [htaken' r, htaken r, exists_mem_cons_iff, or_assoc]
    · have hout := hfresh' p hp r hp'
      rw [(htaken r).2 (.inr hr)] at hout
      cases hout

end

theorem slots_pushAll (s : CacheState) (slots : List (ValueType × Location)) :
    (s.pushAll slots).slots.toList.map (fun slot => (slot.ty, slot.loc)) =
      s.slots.toList.map (fun slot => (slot.ty, slot.loc)) ++ slots := by
  induction slots generalizing s with
  | nil => exact (append_nil _).symm
  | cons p slots ih =>
    refine (ih (s.push p.1 p.2)).trans ?_
    rw [slots_push, Array.toList_push, map_append, append_assoc]
    rfl

/-- Merge values, locals and the slots below take different registers. -/
theorem unshared_mergeTarget (source : CacheState) (numLocals arity stackDepth : Nat) :
    (source.mergeTarget numLocals arity stackDepth).Unshared := by
  unfold mergeTarget
  dsimp only
  obtain ⟨-, htaken₁, hdistinct₁⟩ := source.mergeLocations_takes false .empty
    (source.slots.toList.drop (source.height - arity))
  generalize source.mergeLocations false .empty (source.slots.toList.drop (source.height - arity)) =
    merged at htaken₁ hdistinct₁ ⊢
  obtain ⟨hfresh₂, htaken₂, hdistinct₂⟩ := source.mergeLocations_takes false merged.2
    (source.slots.toList.take numLocals)
  generalize source.mergeLocations false merged.2 (source.slots.toList.take numLocals) = locals
    at hfresh₂ htaken₂ hdistinct₂ ⊢
  obtain ⟨hfresh₃, -, hdistinct₃⟩ := source.mergeLocations_takes true locals.2
    ((source.slots.toList.drop numLocals).take stackDepth)
  generalize source.mergeLocations true locals.2
    ((source.slots.toList.drop numLocals).take stackDepth) = below at hfresh₃ hdistinct₃ ⊢
  have hall : (locals.1 ++ below.1 ++ merged.1).Pairwise fun a b => ∀ r,
      a.2 = .reg r → b.2 ≠ .reg r := by
    refine pairwise_append.2 ⟨pairwise_append.2 ⟨hdistinct₂, hdistinct₃, ?_⟩, hdistinct₁, ?_⟩
    · intro a ha b hb r har hbr
      have hout := hfresh₃ b hb r hbr
      rw [(htaken₂ r).2 (.inr ⟨a, ha, har⟩)] at hout
      cases hout
    · intro a ha b hb r har hbr
      have hin : merged.2.contains r = true := (htaken₁ r).2 (.inr ⟨b, hb, hbr⟩)
      rcases mem_append.1 ha with ha | ha
      · rw [hfresh₂ a ha r har] at hin
        cases hin
      · have hout := hfresh₃ a ha r har
        rw [(htaken₂ r).2 (.inl hin)] at hout
        cases hout
  have hslots := slots_pushAll { maxOffset := source.maxOffset } (locals.1 ++ below.1 ++ merged.1)
  rw [map_nil, nil_append] at hslots
  rw [← hslots, pairwise_map] at hall
  exact hall

theorem Plain.mergeTarget (h : source.Plain) (numLocals arity stackDepth : Nat) :
    (source.mergeTarget numLocals arity stackDepth).Plain := by
  have hempty : ({ maxOffset := source.maxOffset } : CacheState).Plain := by
    refine plain_iff.2 ⟨regular_empty _ h.regular.staticFrameSize_le, fun ty hty => ?_⟩
    cases hty
  have hpushAll : ∀ (slots : List (ValueType × Location)) (s : CacheState), s.Plain →
      (∀ p ∈ slots, p.1 ∈ source.types) → (s.pushAll slots).Plain := by
    intro slots
    induction slots with
    | nil => exact fun s hs _ => hs
    | cons p slots ih =>
      intro s hs htypes
      exact ih _ (hs.push (h.scalar _ (htypes p mem_cons_self)) p.2) fun q hq =>
        htypes q (mem_cons_of_mem _ hq)
  obtain ⟨taken, taken', htarget⟩ := source.mergeTarget_eq numLocals arity stackDepth
  rw [htarget]
  refine hpushAll _ _ hempty fun p hp => ?_
  have hty := mem_map_of_mem (f := Prod.fst) hp
  rw [mergeSlots_types, mem_append] at hty
  exact hty.elim mem_of_mem_take mem_of_mem_drop

end CacheState

namespace Emitter

variable {e : Emitter} {C : CacheState → Prop}

/-- What the first slots have in common with what was seen so far. -/
def Seen (e : Emitter) (count : Nat) (seen : RegSet) : Prop :=
  ((e.state.slots.toList.take count).Pairwise fun a b => ∀ r, a.loc = .reg r → b.loc ≠ .reg r) ∧
    ∀ slot ∈ e.state.slots.toList.take count, ∀ r, slot.loc = .reg r → seen.contains r = true

theorem Seen.next {count : Nat} {seen seen' : RegSet} (h : e.Seen count seen)
    {e' : Emitter} {slot : Slot}
    (hbefore : e'.state.slots.toList.take count = e.state.slots.toList.take count)
    (hslot : e'.state.slots[count]? = some slot)
    (hfresh : ∀ r, slot.loc = .reg r → seen.contains r = false ∧ seen'.contains r = true)
    (hgrow : ∀ r, seen.contains r = true → seen'.contains r = true) :
      e'.Seen (count + 1) seen' := by
  have hnext : e'.state.slots.toList.take (count + 1) = e.state.slots.toList.take count ++
      [slot] := by
    rw [take_add_one, hbefore, Array.getElem?_toList, hslot, Option.toList_some]
  refine ⟨?_, fun slot' hslot' r hr => ?_⟩
  · rw [hnext]
    refine pairwise_append.2 ⟨h.1, pairwise_singleton _ _, fun a ha b hb r har hbr => ?_⟩
    rw [mem_singleton.1 hb] at hbr
    have hin := h.2 a ha r har
    rw [(hfresh r hbr).1] at hin
    cases hin
  · rw [hnext, mem_append, mem_singleton] at hslot'
    rcases hslot' with hslot' | rfl
    · exact hgrow r (h.2 slot' hslot' r hr)
    · exact (hfresh r hr).2

theorem take_spillSlot (e : Emitter) (i : Nat) :
    (e.spillSlot i).state.slots.toList.take i = e.state.slots.toList.take i := by
  refine ext_getElem? fun j => ?_
  rw [List.getElem?_take, List.getElem?_take]
  split
  next hlt =>
    rw [Array.getElem?_toList, Array.getElem?_toList, slots_spillSlot, if_neg (by omega)]
  next => rfl

theorem height_spillSlot (e : Emitter) (i : Nat) :
    (e.spillSlot i).state.height = e.state.height := by
  have h := height_spillWhere e (fun _ => true) [i]
  rw [spillWhere, foldl_cons, foldl_nil] at h
  cases hi : e.state.slots[i]? with
  | none => rw [spillSlot, hi]
  | some slot => rwa [hi, Option.any_some, if_pos rfl] at h

/-- Slots are spilled whose register was seen before. -/
theorem unshared_unshareRegs (e : Emitter) : e.unshareRegs.state.Unshared := by
  unfold unshareRegs
  dsimp only
  have hseen : e.Seen 0 .empty := ⟨List.Pairwise.nil, by simp⟩
  obtain ⟨left, hleft⟩ : ∃ left, left = e.state.height := ⟨_, rfl⟩
  have hcount : 0 + left = e.state.height := by omega
  rw [range_eq_range', ← hleft]
  clear hleft
  generalize 0 = count at hseen hcount ⊢
  generalize RegSet.empty = seen at hseen ⊢
  induction left generalizing e count seen with
  | zero =>
    have hall := hseen.1
    rwa [take_of_length_le
      (by rw [Array.length_toList, ← CacheState.height, ← hcount]; omega)] at hall
  | succ left ih =>
    obtain ⟨slot, hslot⟩ : ∃ slot, e.state.slots[count]? = some slot :=
      ⟨_, Array.getElem?_eq_getElem (by rw [← CacheState.height]; omega)⟩
    have hleft : count + 1 + left = e.state.height := by omega
    rw [range'_succ, foldl_cons]
    split
    next r hr =>
      rw [hslot, Option.bind_some] at hr
      have hloc : slot.loc = .reg r := Location.reg?_eq_some.1 hr
      split
      next hin =>
        have hspilled : (e.spillSlot count).state.slots[count]? =
            some { slot with loc := .stack } := by
          rw [slots_spillSlot, if_pos rfl, hslot, Option.map_some]
        exact ih _ _ (hleft.trans (e.height_spillSlot count).symm) _
          (hseen.next (e.take_spillSlot count) hspilled (by rintro _ ⟨⟩) fun _ h => h)
      next hout =>
        refine ih _ _ hleft _ (hseen.next rfl hslot (fun q hq => ?_) fun q hq => ?_)
        · cases hloc.symm.trans hq
          exact ⟨Bool.eq_false_iff.2 hout, by simp [RegSet.contains_insert]⟩
        · simp [RegSet.contains_insert, hq]
    next hnone =>
      rw [hslot, Option.bind_some] at hnone
      refine ih _ _ hleft _ (hseen.next rfl hslot (fun q hq => ?_) fun _ h => h)
      rw [Slot.reg?, hq] at hnone
      cases hnone

theorem spillable_plain : Spillable fun e => e.state.Plain :=
  ⟨fun _ _ h => h, fun _ _ h => h.relocate _ _,
    fun _ _ h => ⟨⟨h.tracks.count, h.tracks.used⟩, h.place, h.room, h.scalar⟩⟩

theorem plain_materializeConstants (h : e.state.Plain) (count : Nat) :
    (e.materializeConstants count).state.Plain := by
  unfold materializeConstants
  generalize (range e.state.height).drop (e.state.height - count) = indices
  induction indices generalizing e with
  | nil => exact h
  | cons index indices ih =>
    refine ih ?_
    unfold materializeSlot
    split
    · exact h
    · split
      · split
        · exact h.relocate _ _
        · exact spillSlot_of spillable_plain h index
      · exact h

end Emitter

namespace CacheState

/-- The states that paths join in: those that are made for a merge, and those at the header of a
loop. -/
inductive IsJoin : CacheState → Prop
  | merge {source : CacheState} (h : source.Plain) (numLocals arity stackDepth : Nat) :
    IsJoin (source.mergeTarget numLocals arity stackDepth)
  | header {e : Emitter} (h : e.state.Plain) (arity : Nat) :
    IsJoin ((e.spillLocals.materializeConstants arity).unshareRegs).state

theorem IsJoin.plain {target : CacheState} (h : target.IsJoin) : target.Plain := by
  cases h with
  | merge h numLocals arity stackDepth => exact h.mergeTarget numLocals arity stackDepth
  | @header e h arity =>
    have hspilled := Emitter.spillWhere_of Emitter.spillable_plain h (fun _ => true)
      (range e.numLocals)
    exact Emitter.unshareRegs_of Emitter.spillable_plain
      (Emitter.plain_materializeConstants hspilled arity)

theorem IsJoin.unshared {target : CacheState} (h : target.IsJoin) : target.Unshared := by
  cases h with
  | merge h numLocals arity stackDepth => exact unshared_mergeTarget _ numLocals arity stackDepth
  | header h arity => exact Emitter.unshared_unshareRegs _

end CacheState

/-! ## Merging -/

/-- Slots at different offsets that share no register have different places. -/
theorem Slot.place?_ne {a b : Slot} {place : Place} (hoffset : a.offset ≠ b.offset)
    (hreg : ∀ r, a.loc = .reg r → b.loc ≠ .reg r) (ha : a.place? = some place) :
      b.place? ≠ some place := by
  obtain ⟨ty, loc, offset⟩ := a
  obtain ⟨ty', loc', offset'⟩ := b
  rintro hb
  cases loc <;> cases ha <;> cases loc' <;> cases hb
  · exact hreg _ rfl rfl
  · exact hoffset rfl

namespace Transfer

variable {base : Nat} {target : CacheState} {sources : List Slot}

/-- The values are brought to a state where none lies deeper than it did. -/
theorem sound_zip (htarget : target.Plain) (hunshared : target.Unshared)
    (htop : target.topOffset ≤ base) (hlength : sources.length = target.height)
    (hmatch : ∀ (i : Nat) (t k : Slot), target.slots[i]? = some t → sources[i]? = some k →
      t.ty = k.ty ∧ t.offset ≤ k.offset)
    (hplaces : ∀ k ∈ sources, 8 ∣ k.offset ∧ k.offset ≤ base) :
    Sound base (target.slots.toList.zip sources) := by
  have hpair (p : Slot × Slot) (hp : p ∈ target.slots.toList.zip sources) : p.1 ∈ target.slots ∧
      p.2 ∈ sources ∧ p.1.ty = p.2.ty ∧ p.1.offset ≤ p.2.offset := by
    obtain ⟨i, hi⟩ := getElem?_of_mem hp
    obtain ⟨ht, hk⟩ := getElem?_zip_eq_some.1 hi
    rw [Array.getElem?_toList] at ht
    exact ⟨Array.mem_of_getElem? ht, mem_of_getElem? hk, hmatch i _ _ ht hk⟩
  have hfst : (target.slots.toList.zip sources).map Prod.fst = target.slots.toList :=
    map_fst_zip (by rw [Array.length_toList, ← CacheState.height, hlength])
  have hoffsets : (target.slots.toList.zip sources).Pairwise fun p q =>
      p.1.offset + 8 ≤ q.1.offset := by
    have htargets := htarget.offsets
    rwa [← hfst, pairwise_map] at htargets
  refine ⟨fun p hp => ?_, fun p hp => ?_, ?_, ?_⟩
  · obtain ⟨hmem, -, hty, -⟩ := hpair p hp
    exact ⟨hty, htarget.scalar_slot hmem⟩
  · obtain ⟨hmem, hsource, -, -⟩ := hpair p hp
    obtain ⟨haligned, -, hle⟩ := htarget.offset_mem hmem
    rw [htarget.topOffset_eq] at htop
    exact ⟨⟨haligned, hle.trans htop⟩, hplaces p.2 hsource⟩
  · have hplaces : (target.slots.toList.zip sources).filterMap target? =
        target.slots.toList.filterMap Slot.place? := by
      conv_rhs => rw [← hfst, filterMap_map]
      rfl
    rw [hplaces, Nodup, pairwise_filterMap]
    refine (htarget.offsets.and hunshared).imp fun {a b} hab place ha place' hb heq => ?_
    exact Slot.place?_ne (by omega) hab.2 ha (heq ▸ hb)
  · rw [pairwise_filterMap]
    refine (hoffsets.imp_of_mem fun {p q} _ hq hpq x hx y hy hcopy => ?_)
    have hle := (hpair q hq).2.2.2
    have hdst := (storeOf?_eq_some hx).2.1
    have hsrc := (storeOf?_eq_some hy).2.2.2.1 _ hcopy
    omega

end Transfer

/-- What is left of some values where a branch with `arity` values leads to `height` of them. -/
def kept {α : Type} (height arity : Nat) (values : List α) : List α :=
  values.take (height - arity) ++ values.drop (values.length - arity)

section

variable {α β : Type} {height arity : Nat} {values : List α}

@[simp] theorem map_kept (f : α → β) (height arity : Nat) (values : List α) :
    (kept height arity values).map f = kept height arity (values.map f) := by
  simp [kept]

theorem length_kept (harity : arity ≤ height) (hheight : height ≤ values.length) :
    (kept height arity values).length = height := by
  simp [kept]
  omega

/-- Nothing is dropped if there are only as many as are expected. -/
theorem kept_length (arity : Nat) (values : List α) : kept values.length arity values = values :=
  take_append_drop _ _

/-- Values keep their place, or come down. -/
theorem getElem?_kept (harity : arity ≤ height) (hheight : height ≤ values.length) {i : Nat} {a : α}
    (h : (kept height arity values)[i]? = some a) : ∃ j, i ≤ j ∧ values[j]? = some a := by
  rw [kept, getElem?_append] at h
  split at h
  next hlt =>
    rw [List.getElem?_take] at h
    split at h
    · exact ⟨i, le_rfl, h⟩
    · cases h
  next hge =>
    rw [length_take] at h hge
    rw [getElem?_drop] at h
    exact ⟨_, by omega, h⟩

end

namespace CacheState

/-- The constants of the state are the values that it is given. -/
def Agrees (s : CacheState) (words : List UInt64) : Prop :=
  ∀ (i : Nat) (slot : Slot) (value : Int32), s.slots[i]? = some slot → slot.loc = .const value →
    words[i]? = some (slot.ty.narrow (constBits slot.ty value))

end CacheState

namespace Transfer

variable {base : Nat} {target : CacheState} {sources : List Slot} {d d' : DataState}

theorem mem_zip {i : Nat} {t k : Slot} (ht : target.slots[i]? = some t)
    (hk : sources[i]? = some k) : (t, k) ∈ target.slots.toList.zip sources := by
  refine mem_of_getElem? (i := i) (getElem?_zip_eq_some.2 ⟨?_, hk⟩)
  rwa [Array.getElem?_toList]

section

variable (h : Performs base (target.slots.toList.zip sources) d d')
    (hlength : sources.length = target.height)
include h hlength

theorem Performs.realizes (hagrees : target.Agrees (sources.map d.value)) :
    d'.Realizes target (sources.map d.value) := by
  refine ext_getElem? fun i => ?_
  rw [getElem?_map, getElem?_map, Array.getElem?_toList]
  by_cases hi : i < target.height
  · obtain ⟨t, ht⟩ : ∃ t, target.slots[i]? = some t := ⟨_, Array.getElem?_eq_getElem hi⟩
    obtain ⟨k, hk⟩ : ∃ k, sources[i]? = some k := ⟨_, getElem?_eq_getElem (hlength ▸ hi)⟩
    rw [ht, hk, Option.map_some, Option.map_some]
    cases hloc : t.loc with
    | const value =>
      have hvalue := hagrees i t value ht hloc
      rw [getElem?_map, hk, Option.map_some] at hvalue
      rw [hvalue, DataState.value, hloc]
    | _ => rw [h.moved _ (mem_zip ht hk) (by simp [target?, Slot.place?, hloc])]
  · rw [Array.getElem?_eq_none (by rw [CacheState.height] at hi; omega),
      getElem?_eq_none (by omega)]
    rfl

theorem Performs.zeroExtends (htypes : ∀ p ∈ target.slots.toList.zip sources, p.1.ty = p.2.ty)
    (hzero : ∀ k ∈ sources, ∀ r, k.loc = .reg r → k.ty.narrow (d.regs r) = d.regs r) :
    d'.ZeroExtends target := by
  intro t ht r hr
  obtain ⟨i, hi⟩ := Array.getElem?_of_mem ht
  have hlt : i < target.height := (Array.getElem?_eq_some_iff.1 hi).1
  obtain ⟨k, hk⟩ : ∃ k, sources[i]? = some k := ⟨_, getElem?_eq_getElem (hlength ▸ hlt)⟩
  have hpair := mem_zip hi hk
  have hty : t.ty = k.ty := htypes _ hpair
  rcases h.words _ hpair r hr with ⟨hsrc, hreg⟩ | hreg
  · rw [hreg, hty]
    exact hzero k (mem_of_getElem? hk) r hsrc
  · rw [hreg, hty, DataState.value, ValueType.narrow_narrow]

end

end Transfer

/-- Between states that are realized the registers of the second change, and the frame above all
slots does not. -/
structure DataState.Leaves (d d' : DataState) (target : CacheState) : Prop where
  regs : ∀ r, (∀ slot ∈ target.slots, slot.loc ≠ .reg r) → d'.regs r = d.regs r
  frame : ∀ a : Int, -staticFrameSize ≤ a → d'.frame a = d.frame a

namespace Emitter

variable {e : Emitter} {target : CacheState} {arity : Nat} {d : DataState}

/-- The moves of a merge, and the deepest place they use. -/
def mergeMoves (e : Emitter) (target : CacheState) (arity : Nat) : List (Instr Label) × Nat :=
  (Transfer.ofSlots (e.scratchBase target)
    (target.slots.toList.zip (kept target.height arity e.state.slots.toList))).code

theorem mergeBranch_eq (e : Emitter) (target : CacheState) (arity : Nat) :
    e.mergeBranch target arity =
    (e.emitAll (e.mergeMoves target arity).1).modifyState
      (·.recordOffset (e.mergeMoves target arity).2) := by
  rw [mergeMoves, kept, Array.length_toList]
  rfl

theorem mergeFull_eq (hheight : target.height = e.state.height) (arity : Nat) :
    e.mergeFull target = e.mergeBranch target arity := by
  rw [mergeBranch_eq, mergeMoves, hheight, CacheState.height, ← Array.length_toList, kept_length]
  rfl

theorem state_mergeBranch (e : Emitter) (target : CacheState) (arity : Nat) :
    (e.mergeBranch target arity).state = e.state.recordOffset (e.mergeMoves target arity).2 := by
  rw [mergeBranch_eq, modifyState, emitAll_eq]

section

variable (hstate : e.state.Plain) (htarget : target.Plain) (hunshared : target.Unshared)
  (harity : arity ≤ target.height) (hheight : target.height ≤ e.state.height)
  (htypes : kept target.height arity e.state.types = target.types)
include hstate htarget hunshared harity hheight htypes

/-- Moving the values of a branch puts them where its target has them. -/
theorem sound_mergeMoves : Transfer.Sound (e.scratchBase target)
      (target.slots.toList.zip (kept target.height arity e.state.slots.toList)) := by
  have hlength : target.height ≤ e.state.slots.toList.length := by
    rwa [Array.length_toList, ← CacheState.height]
  refine Transfer.sound_zip htarget hunshared (by rw [scratchBase]; omega)
    (length_kept harity hlength) (fun i t k ht hk => ?_) fun k hk => ?_
  · constructor
    · rw [CacheState.types, ← map_kept, CacheState.types] at htypes
      have hty := congrArg (fun types => types[i]?) htypes
      rw [getElem?_map, getElem?_map, hk, Array.getElem?_toList, ht] at hty
      exact (Option.some.inj hty).symm
    · obtain ⟨j, hij, hj⟩ := getElem?_kept harity hlength hk
      rw [Array.getElem?_toList] at hj
      rw [htarget.place i t ht, hstate.place j k hj]
      omega
  · have hmem : k ∈ e.state.slots := by
      rcases mem_append.1 hk with hk | hk
      · exact Array.mem_toList_iff.1 (mem_of_mem_take hk)
      · exact Array.mem_toList_iff.1 (mem_of_mem_drop hk)
    obtain ⟨haligned, -, hle⟩ := hstate.offset_mem hmem
    have htop := hstate.topOffset_eq
    refine ⟨haligned, ?_⟩
    rw [scratchBase]
    omega

/-- The values of a branch are brought to the state at its target, and nothing else is changed that
the state at the target has no use for. -/
theorem mergeMoves_realize (hsmall : (e.mergeMoves target arity).2 < UInt32.size)
    {words : List UInt64}
    (hrealizes : d.Realizes e.state words)
      (hagrees : target.Agrees (kept target.height arity words)) :
    ∃ d', Instr.moveAll? (e.mergeMoves target arity).1 d = some d' ∧
      d'.Realizes target (kept target.height arity words) ∧
      (d.ZeroExtends e.state → d'.ZeroExtends target) ∧ d.Leaves d' target := by
  have hsound := sound_mergeMoves hstate htarget hunshared harity hheight htypes
  have hlength : (kept target.height arity e.state.slots.toList).length = target.height :=
    length_kept harity (by rwa [Array.length_toList, ← CacheState.height])
  obtain ⟨d', hrun, hperforms⟩ := Transfer.performs_code (τ := Label) hsound hsmall d
  have hwords : (kept target.height arity e.state.slots.toList).map d.value =
      kept target.height arity words := by
    rw [map_kept, hrealizes]
  rw [← hwords] at hagrees ⊢
  have hmem (p : Slot × Slot)
      (hp : p ∈ target.slots.toList.zip (kept target.height arity e.state.slots.toList)) :
      p.1 ∈ target.slots := Array.mem_toList_iff.1 (of_mem_zip hp).1
  refine ⟨d', hrun, hperforms.realizes hlength hagrees, fun hzero => ?_,
    fun r hr => ?_, fun a ha => ?_⟩
  · refine hperforms.zeroExtends hlength (fun p hp => (hsound.types p hp).1) fun k hk r hr => ?_
    rcases mem_append.1 hk with hk | hk
    · exact hzero k (Array.mem_toList_iff.1 (mem_of_mem_take hk)) r hr
    · exact hzero k (Array.mem_toList_iff.1 (mem_of_mem_drop hk)) r hr
  · refine hperforms.regs r fun p hp htarget => hr p.1 (hmem p hp) ?_
    obtain ⟨⟨ty, loc, offset⟩, source⟩ := p
    cases loc <;> cases htarget
    rfl
  · have hbase : staticFrameSize ≤ e.scratchBase target := by
      have hroom := hstate.room
      rw [scratchBase]
      omega
    refine hperforms.frame a (by omega) fun p hp o ho => .inr ?_
    have hoffset : p.1.offset = o := by
      obtain ⟨⟨ty, loc, offset⟩, source⟩ := p
      cases loc <;> cases ho
      rfl
    have hle := (htarget.offset_mem (hmem p hp)).2.1
    omega

end

/-- The code of a merge brings the values to where the join has them, and changes nothing about the
state but the depth of the frame. -/
theorem merge_brings_values_to_join (e : Emitter) (target : CacheState) (arity : Nat)
    (hstate : e.state.Plain) (hjoin : target.IsJoin) (harity : arity ≤ target.height)
    (hheight : target.height ≤ e.state.height)
    (hbelow : e.state.types.take (target.height - arity) =
      target.types.take (target.height - arity))
    (htop : e.state.types.drop (e.state.height - arity) = target.types.drop (target.height - arity))
    (hsmall : (e.mergeBranch target arity).state.maxOffset < UInt32.size) :
    (∃ code deepest, e.mergeBranch target arity =
      (e.emitAll code).modifyState (·.recordOffset deepest) ∧
      ∀ (d : DataState) (words : List UInt64), d.Realizes e.state words →
        target.Agrees (kept target.height arity words) →
        ∃ d', Instr.moveAll? code d = some d' ∧
          d'.Realizes target (kept target.height arity words) ∧
          (d.ZeroExtends e.state → d'.ZeroExtends target) ∧ d.Leaves d' target) ∧
      (target.height = e.state.height → e.mergeFull target = e.mergeBranch target arity) := by
  refine ⟨⟨_, _, e.mergeBranch_eq target arity, fun d words hrealizes hagrees => ?_⟩, fun hsame =>
    mergeFull_eq hsame arity⟩
  have htypes : kept target.height arity e.state.types = target.types := by
    rw [kept, CacheState.length_types, hbelow, htop, take_append_drop]
  refine mergeMoves_realize hstate hjoin.plain hjoin.unshared harity hheight
    htypes ?_ hrealizes hagrees
  rw [state_mergeBranch, CacheState.recordOffset] at hsmall
  dsimp only at hsmall
  omega

/-- Two registers change places, and the slot between them is dropped. -/
theorem swap_brings_values_to_join :
    let source := (({} : CacheState).push .i32 (.reg (.gp 0))).push .i64 (.reg (.gp 1))
    let state := ((({} : CacheState).push .i32 (.reg (.gp 1))).push .f32 (.const 5)).push
      .i64 (.reg (.gp 0))
    let target := source.mergeTarget 1 1 0
    ∃ code deepest d', ({ state } : Emitter).mergeBranch target 1 =
        (({ state } : Emitter).emitAll code).modifyState (·.recordOffset deepest) ∧
      Instr.moveAll? code ⟨fun r => .ofNat (10 + 10 * r.code), fun _ => 0⟩ = some d' ∧
      d'.Realizes target [20, 10] := by
  intro source state target
  have hsource : source.Plain := (CacheState.plain_empty.push (by decide) _).push (by decide) _
  have hstate : state.Plain :=
    ((CacheState.plain_empty.push (by decide) _).push (by decide) _).push (by decide) _
  have hagrees : target.Agrees [20, 10] := by
    intro i slot value hslot hloc
    have hconst : ∀ slot ∈ target.slots.toList, slot.const? = none := by decide
    have hnone := hconst slot (Array.mem_toList_iff.2 (Array.mem_of_getElem? hslot))
    rw [Slot.const?, hloc] at hnone
    cases hnone
  obtain ⟨⟨code, deepest, hcode, hrun⟩, -⟩ := merge_brings_values_to_join { state } target 1 hstate
    (.merge hsource 1 1 0) (by decide) (by decide) (by decide) (by decide) (by decide +kernel)
  obtain ⟨d', hmoves, hrealizes, -⟩ :=
    hrun ⟨fun r => .ofNat (10 + 10 * r.code), fun _ => 0⟩ [20, 5, 10]
    (by rw [DataState.Realizes]; decide) hagrees
  exact ⟨code, deepest, d', hcode, hmoves, hrealizes⟩

end Emitter

end OnePass
