import Mathlib
import OnePass.Cache.Slot
import OnePass.Machine.Instr
import OnePass.Proofs.Codec

/-!
What registers and the frame hold, and the instructions that only move data between them.

The frame is memory below the frame pointer. A slot at offset `o` takes the eight bytes from address
`-o` on, so slots do not overlap if their offsets are eight apart. Registers and slots are words; a
value of 32 bits sits zero-extended in one. Vectors, which fit neither, are not moved.
-/
namespace OnePass

open List

/-- The word that holds a value of the type, if the value is the low part of `bits`. -/
def ValueType.narrow (ty : ValueType) (bits : UInt64) : UInt64 :=
  match ty with
  | .i32 | .f32 => bits.toUInt32.toUInt64
  | _ => bits

@[simp] theorem ValueType.narrow_narrow (ty : ValueType) (bits : UInt64) :
    ty.narrow (ty.narrow bits) = ty.narrow bits := by
  cases ty <;> simp only [narrow, UInt32.toUInt32_toUInt64]

/-- The low part of a constant is the same however it is extended. -/
theorem ValueType.narrow_constBits (ty : ValueType) (value : Int32) :
    ty.narrow (constBits ty value) = ty.narrow value.toInt64.toUInt64 := by
  by_cases h : ty = .i32
  · subst h
    have hlow : value.toInt64.toUInt64.toUInt32 = value.toUInt32 := by
      refine UInt32.toBitVec_inj.1 (BitVec.eq_of_getLsbD_eq fun i hi => ?_)
      simp [BitVec.getLsbD_signExtend, hi]
      omega
    simp only [constBits, narrow, if_true, UInt32.toUInt32_toUInt64, hlow]
  · rw [constBits, if_neg h]

/-- The bytes of a frame, by their address relative to the frame pointer. -/
abbrev FrameMemory := Int → UInt8

namespace FrameMemory

variable (f : FrameMemory) (offset other : Nat) (word : UInt64)

/-- The word in the slot at an offset. -/
def slot : UInt64 := .ofNat (Bytes.toNat ((range 8).map fun k : Nat => f (k - offset)))

def setSlot : FrameMemory := fun a =>
  if -offset ≤ a then (Bytes.ofNat 8 word.toNat)[(a + offset).toNat]?.getD (f a) else f a

/-- Only the bytes of the slot change. -/
theorem setSlot_apply {a : Int} (h : a < -offset ∨ -offset + 8 ≤ a) :
    f.setSlot offset word a = f a := by
  unfold setSlot
  split
  · rw [getElem?_eq_none (by rw [Bytes.length_ofNat]; omega), Option.getD_none]
  · rfl

@[simp] theorem slot_setSlot : (f.setSlot offset word).slot offset = word := by
  have hbytes : (range 8).map (fun k : Nat => f.setSlot offset word (k - offset)) =
      Bytes.ofNat 8 word.toNat := by
    refine ext_getElem (by simp) fun k hk hk' => ?_
    have hindex : ((k : Int) - offset + offset).toNat = k := by omega
    rw [getElem_map, getElem_range, setSlot, if_pos (by omega), hindex,
      getElem?_eq_getElem hk', Option.getD_some]
  rw [slot, hbytes, Bytes.toNat_ofNat_eight, Nat.mod_eq_of_lt word.toNat_lt, UInt64.ofNat_toNat]

theorem slot_setSlot_apart (h : offset + 8 ≤ other ∨ other + 8 ≤ offset) :
    (f.setSlot offset word).slot other = f.slot other := by
  unfold slot
  congr 2
  refine map_congr_left fun k hk => setSlot_apply _ _ _ ?_
  have := mem_range.1 hk
  omega

/-- A slot is made of its bytes. -/
theorem slot_congr {f g : FrameMemory} {offset : Nat}
    (h : ∀ a : Int, -offset ≤ a → a < -offset + 8 → f a = g a) : f.slot offset = g.slot offset := by
  unfold slot
  congr 2
  refine map_congr_left fun k hk => h _ ?_ ?_ <;>
    · have := mem_range.1 hk
      omega

end FrameMemory

/-- What the registers and the frame hold. -/
structure DataState where
  regs : Reg → UInt64
  frame : FrameMemory

namespace DataState

/-- The register gets a value of the type. -/
def setReg (s : DataState) (ty : ValueType) (r : Reg) (bits : UInt64) : DataState :=
  { s with regs := Function.update s.regs r (ty.narrow bits) }

/-- The slot gets a value of the type. -/
def setSlot (s : DataState) (ty : ValueType) (offset : Nat) (bits : UInt64) : DataState :=
  { s with frame := s.frame.setSlot offset (ty.narrow bits) }

/-- The value that a slot stands for. -/
def value (s : DataState) (slot : Slot) : UInt64 :=
  slot.ty.narrow <| match slot.loc with
    | .reg r => s.regs r
    | .const value => constBits slot.ty value
    | .stack => s.frame.slot slot.offset

end DataState

namespace Instr

variable {τ : Type}

/-- What an instruction does that only moves data. -/
def moveData? : Instr τ → DataState → Option DataState
  | .move ty dst src, s => if ty = .v128 then none else some (s.setReg ty dst (s.regs src))
  | .loadConst ty dst bits, s => if ty = .v128 then none else some (s.setReg ty dst bits)
  | .spill ty offset src, s =>
    if ty = .v128 then none else some (s.setSlot ty offset.toNat (s.regs src))
  | .spillConst ty offset value, s =>
    if ty = .v128 then none else some (s.setSlot ty offset.toNat value.toInt64.toUInt64)
  | .fill ty dst offset, s =>
    if ty = .v128 then none else some (s.setReg ty dst (s.frame.slot offset.toNat))
  | .moveStackValue ty dst src, s =>
    if ty = .v128 then none else some (s.setSlot ty dst.toNat (s.frame.slot src.toNat))
  | _, _ => none

/-- What such instructions do one after another. -/
def moveAll? : List (Instr τ) → DataState → Option DataState
  | [], s => some s
  | i :: rest, s => (i.moveData? s).bind (moveAll? rest)

/-- The offset of the slot that the instruction writes. -/
def slotWritten? : Instr τ → Option Nat
  | .spill _ offset _ | .spillConst _ offset _ | .moveStackValue _ offset _ => some offset.toNat
  | _ => none

theorem moveAll?_append {is js : List (Instr τ)} {s s' : DataState} (h : moveAll? is s = some s') :
    moveAll? (is ++ js) s = moveAll? js s' := by
  induction is generalizing s with
  | nil =>
    cases h
    rfl
  | cons i is ih =>
    rw [moveAll?, Option.bind_eq_some_iff] at h
    obtain ⟨s₁, hi, his⟩ := h
    rw [cons_append, moveAll?, hi, Option.bind_some, ih his]

end Instr

end OnePass
