import OnePass.Proofs.Codec

/-!
A code buffer as the instructions that were put into it. Every instruction keeps its bytes, except
for the displacement of a branch, which is written once its label is bound. Bytes that are patched
later belong to no other instruction, so what was assembled stays assembled while code grows.
-/
namespace OnePass

open List

/-- The bytes stand in the code from an offset on. -/
def BytesAt (code : Array UInt8) (offset : Nat) (bytes : List UInt8) : Prop :=
  ∀ k b, bytes[k]? = some b → code[offset + k]? = some b

namespace BytesAt

variable {code : Array UInt8} {offset : Nat} {bytes xs ys : List UInt8}

theorem append_iff : BytesAt code offset (xs ++ ys) ↔
      BytesAt code offset xs ∧ BytesAt code (offset + xs.length) ys := by
  constructor
  · intro h
    constructor
    · intro k b hk
      have hlt : k < xs.length := (List.getElem?_eq_some_iff.1 hk).1
      exact h k b (by rw [getElem?_append_left hlt]; exact hk)
    · intro k b hk
      rw [Nat.add_assoc]
      refine h (xs.length + k) b ?_
      rw [getElem?_append_right (Nat.le_add_right _ _), Nat.add_sub_cancel_left]
      exact hk
  · rintro ⟨hxs, hys⟩ k b hk
    by_cases hlt : k < xs.length
    · exact hxs k b (by rwa [getElem?_append_left hlt] at hk)
    · rw [getElem?_append_right (by omega)] at hk
      have hb := hys _ b hk
      rwa [Nat.add_assoc, Nat.add_sub_cancel' (by omega)] at hb

/-- The suffix of the code begins with the bytes. -/
theorem exists_drop (h : BytesAt code offset bytes) :
    ∃ rest, code.toList.drop offset = bytes ++ rest := by
  refine ⟨code.toList.drop (offset + bytes.length), ext_getElem? fun k => ?_⟩
  rw [getElem?_drop, Array.getElem?_toList]
  by_cases hlt : k < bytes.length
  · rw [getElem?_append_left hlt, getElem?_eq_getElem hlt]
    exact h k _ (getElem?_eq_getElem hlt)
  · rw [getElem?_append_right (by omega), getElem?_drop, Array.getElem?_toList]
    congr 1
    omega

theorem at_end (code : Array UInt8) (bytes : List UInt8) :
    BytesAt (code ++ bytes) code.size bytes := by
  intro k b hk
  rw [← Array.getElem?_toList, Array.toList_appendList, getElem?_append_right (by simp)]
  simpa using hk

end BytesAt

theorem size_append_list (code : Array UInt8) (bytes : List UInt8) :
    (code ++ bytes).size = code.size + bytes.length := by
  rw [← Array.length_toList, Array.toList_appendList, length_append, Array.length_toList]

section Overwrite

variable {code : Array UInt8} {start offset : Nat} {bytes xs : List UInt8}

@[simp] theorem size_overwrite : (overwrite code start bytes).size = code.size := by
  induction bytes generalizing code start with
  | nil => rfl
  | cons b bytes ih => rw [overwrite, ih, Array.size_setIfInBounds]

/-- Bytes outside the range stay. -/
theorem getElem?_overwrite_of_ne {k : Nat} (h : k < start ∨ start + bytes.length ≤ k) :
    (overwrite code start bytes)[k]? = code[k]? := by
  induction bytes generalizing code start with
  | nil => rfl
  | cons b bytes ih =>
    rw [length_cons] at h
    rw [overwrite, ih (by omega), Array.getElem?_setIfInBounds_ne (by omega)]

theorem bytesAt_overwrite (h : start + bytes.length ≤ code.size) :
    BytesAt (overwrite code start bytes) start bytes := by
  induction bytes generalizing code start with
  | nil => exact fun k b hk => by cases hk
  | cons b bytes ih =>
    rw [length_cons] at h
    rw [overwrite]
    intro k x hk
    cases k with
    | zero =>
      cases hk
      rw [getElem?_overwrite_of_ne (.inl (by omega))]
      exact Array.getElem?_setIfInBounds_self_of_lt (by omega)
    | succ k =>
      have hrest : BytesAt (overwrite (code.setIfInBounds start b) (start + 1) bytes) (start + 1)
          bytes := ih (by rw [Array.size_setIfInBounds]; omega)
      have hx := hrest k x hk
      rwa [Nat.add_assoc, Nat.add_comm 1] at hx

theorem BytesAt.overwrite_of_disjoint (h : BytesAt code offset xs)
    (hdisj : offset + xs.length ≤ start ∨ start + bytes.length ≤ offset) :
    BytesAt (overwrite code start bytes) offset xs := by
  intro k b hk
  have hlt := (List.getElem?_eq_some_iff.1 hk).1
  rw [getElem?_overwrite_of_ne (by omega)]
  exact h k b hk

end Overwrite

namespace Instr

variable {τ : Type}

/-- Bytes that the instruction takes. -/
def size (i : Instr τ) : Nat := i.encode.length

/-- The field for the displacement of an instruction at an offset. -/
def field (i : Instr τ) (offset : Nat) : Nat := offset + 1 + i.fixedOperands.length

theorem size_pos (i : Instr τ) : 0 < i.size := Nat.succ_pos _

theorem length_fixed_le (i : Instr τ) : 1 + i.fixedOperands.length ≤ i.size := by
  have hlen : i.fixedOperands.length ≤ i.operands.length := by
    unfold fixedOperands
    split
    · exact length_take_le' _ _
    · exact Nat.le_refl _
  simp only [size, encode, length_cons]
  omega

/-- The field is the end of the instruction. -/
theorem field_add {i : Instr τ} {l : τ} (h : i.target? = some l) (offset : Nat) :
    i.field offset + 4 = offset + i.size := by
  simp only [field, size, encode, operands_eq h, length_cons, length_append,
    Encoding.hole, length_nil]
  omega

/-- Instructions with their offsets, one after another. -/
def placed : Nat → List (Instr τ) → List (Nat × Instr τ)
  | _, [] => []
  | offset, i :: is => (offset, i) :: placed (offset + i.size) is

def codeSize (is : List (Instr τ)) : Nat := (is.map size).sum

variable {offset : Nat} {is js : List (Instr τ)} {p q : Nat × Instr τ}

@[simp] theorem codeSize_cons (i : Instr τ) (is : List (Instr τ)) :
    codeSize (i :: is) = i.size + codeSize is := by
  simp [codeSize]

@[simp] theorem codeSize_nil : codeSize ([] : List (Instr τ)) = 0 := rfl

@[simp] theorem codeSize_append (is js : List (Instr τ)) :
    codeSize (is ++ js) = codeSize is + codeSize js := by
  simp [codeSize]

theorem placed_append (offset : Nat) (is js : List (Instr τ)) :
    placed offset (is ++ js) = placed offset is ++ placed (offset + codeSize is) js := by
  induction is generalizing offset with
  | nil => rfl
  | cons i is ih =>
    rw [cons_append, placed, ih, placed, cons_append, codeSize_cons, Nat.add_assoc]

theorem le_of_mem_placed (h : p ∈ placed offset is) :
    offset ≤ p.1 ∧ p.1 + p.2.size ≤ offset + codeSize is := by
  induction is generalizing offset with
  | nil => cases h
  | cons i is ih =>
    rw [codeSize_cons]
    rcases mem_cons.1 h with rfl | h
    · exact ⟨Nat.le_refl _, by dsimp only; omega⟩
    · have := ih h
      omega

theorem mem_of_mem_placed (h : p ∈ placed offset is) : p.2 ∈ is := by
  induction is generalizing offset with
  | nil => cases h
  | cons i is ih =>
    rcases mem_cons.1 h with rfl | h
    · exact mem_cons_self
    · exact mem_cons_of_mem _ (ih h)

theorem exists_placed {i : Instr τ} (h : i ∈ is) : ∃ p ∈ placed offset is, p.2 = i := by
  induction is generalizing offset with
  | nil => cases h
  | cons j is ih =>
    rcases mem_cons.1 h with rfl | h
    · exact ⟨_, mem_cons_self, rfl⟩
    · obtain ⟨p, hp, heq⟩ := @ih (offset + j.size) h
      exact ⟨p, mem_cons_of_mem _ hp, heq⟩

theorem exists_of_mem_placed (h : p ∈ placed offset is) :
    ∃ earlier later, is = earlier ++ p.2 :: later ∧ p.1 = offset + codeSize earlier := by
  induction is generalizing offset with
  | nil => cases h
  | cons i is ih =>
    rcases mem_cons.1 h with rfl | h
    · exact ⟨[], is, rfl, rfl⟩
    · obtain ⟨earlier, later, rfl, heq⟩ := ih h
      exact ⟨i :: earlier, later, rfl, by rw [heq, codeSize_cons, Nat.add_assoc]⟩

/-- Two of the instructions do not overlap. -/
theorem placed_apart (hp : p ∈ placed offset is) (hq : q ∈ placed offset is) :
    p = q ∨ p.1 + p.2.size ≤ q.1 ∨ q.1 + q.2.size ≤ p.1 := by
  induction is generalizing offset with
  | nil => cases hp
  | cons i is ih =>
    rcases mem_cons.1 hp with rfl | hp <;> rcases mem_cons.1 hq with rfl | hq
    · exact .inl rfl
    · exact .inr (.inl (le_of_mem_placed hq).1)
    · exact .inr (.inr (le_of_mem_placed hp).1)
    · exact ih hp hq

end Instr

/-- The code holds these instructions one after another, whatever the displacements of branches. -/
structure Instr.Fill {τ : Type} (code : Array UInt8) (is : List (Instr τ)) : Prop where
  size : code.size = codeSize is
  bytes : ∀ p ∈ placed 0 is, BytesAt code p.1 (p.2.op.code :: p.2.fixedOperands)

namespace CodeBuffer

variable {b b' : CodeBuffer} {offset : Nat} {i : Instr Label} {l : Label}
  {is earlier later : List (Instr Label)}

/-- The instruction stands at an offset. Its displacement leads to its label or waits for it. -/
structure Holds (b : CodeBuffer) (offset : Nat) (i : Instr Label) : Prop where
  fixed : BytesAt b.code offset (i.op.code :: i.fixedOperands)
  label : ∀ l, i.target? = some l → l.index < b.labels.size
  resolved : ∀ l, i.target? = some l → ∀ place, b.boundAt? l = some place →
    BytesAt b.code (i.field offset) (displacement (i.field offset) place)
  waits : ∀ l, i.target? = some l → b.boundAt? l = none → (l, i.field offset) ∈ b.pending

/-- The code is these instructions. -/
structure Assembles (b : CodeBuffer) (is : List (Instr Label)) : Prop where
  size : b.code.size = Instr.codeSize is
  holds : ∀ p ∈ Instr.placed 0 is, b.Holds p.1 p.2
  pending : ∀ w ∈ b.pending, b.boundAt? w.1 = none ∧
    ∃ p ∈ Instr.placed 0 is, p.2.target? = some w.1 ∧ w.2 = p.2.field p.1
  bound : ∀ l place, b.boundAt? l = some place →
    ∃ earlier later, is = earlier ++ later ∧ place = Instr.codeSize earlier

/-- The instructions fill the code, and what waits is a displacement of one of them. -/
structure Spells (b : CodeBuffer) (is : List (Instr Label)) :
    Prop extends Instr.Fill b.code is where
  fields : ∀ w ∈ b.pending, ∃ p ∈ Instr.placed 0 is, p.2.target? = some w.1 ∧ w.2 = p.2.field p.1

theorem Assembles.spells (h : b.Assembles is) : b.Spells is :=
  ⟨⟨h.size, fun p hp => (h.holds p hp).fixed⟩, fun w hw => (h.pending w hw).2⟩

theorem assembles_empty : ({} : CodeBuffer).Assembles [] := by
  refine ⟨rfl, fun p hp => (not_mem_nil hp).elim, fun w hw => (not_mem_nil hw).elim,
    fun l place h => ?_⟩
  simp [boundAt?] at h

/-- Labels are bound between instructions, so not beyond the code. -/
theorem Assembles.place_le (h : b.Assembles is) {place : Nat}
    (hl : b.boundAt? l = some place) : place ≤ b.code.size := by
  obtain ⟨earlier, later, rfl, rfl⟩ := h.bound l place hl
  rw [h.size, Instr.codeSize_append]
  exact Nat.le_add_right _ _

/-- Bytes and labels that are there stay, and what waits still waits. -/
theorem Holds.mono (h : b.Holds offset i)
    (hcode : ∀ k, offset ≤ k → k < offset + i.size → b'.code[k]? = b.code[k]?)
    (hlabels : ∀ l : Label, l.index < b.labels.size → l.index < b'.labels.size ∧
      b'.boundAt? l = b.boundAt? l)
    (hpending : ∀ w ∈ b.pending, w ∈ b'.pending) : b'.Holds offset i := by
  have hbytes : ∀ {o : Nat} {bytes : List UInt8}, offset ≤ o →
      o + bytes.length ≤ offset + i.size → BytesAt b.code o bytes → BytesAt b'.code o bytes := by
    intro o bytes ho hend hb k x hk
    have hlt := (List.getElem?_eq_some_iff.1 hk).1
    rw [hcode _ (by omega) (by omega)]
    exact hb k x hk
  refine ⟨hbytes (Nat.le_refl _) ?_ h.fixed, fun l hl => (hlabels l (h.label l hl)).1, ?_, ?_⟩
  · have hlen := i.length_fixed_le
    rw [length_cons]
    omega
  · intro l hl place hplace
    rw [(hlabels l (h.label l hl)).2] at hplace
    refine hbytes ?_ ?_ (h.resolved l hl place hplace)
    · unfold Instr.field
      omega
    · rw [show (displacement (i.field offset) place).length = 4 from Bytes.length_ofNat _ _,
        Instr.field_add hl]
  · intro l hl hnone
    rw [(hlabels l (h.label l hl)).2] at hnone
    exact hpending _ (h.waits l hl hnone)

section Emit

section

variable (b : CodeBuffer) (offset : Nat) (i : Instr Label)

@[simp] theorem recordCall_code : (b.recordCall offset i).code = b.code := by
  cases i <;> rfl

@[simp] theorem recordCall_labels : (b.recordCall offset i).labels = b.labels := by
  cases i <;> rfl

@[simp] theorem recordCall_pending : (b.recordCall offset i).pending = b.pending := by
  cases i <;> rfl

end

@[simp] theorem emit_labels (b : CodeBuffer) (i : Instr Label) : (b.emit i).labels = b.labels := by
  unfold emit resolve
  split
  · dsimp only
    split <;> simp [patchDisplacement]
  · simp

@[simp] theorem boundAt?_emit (b : CodeBuffer) (i : Instr Label) (l : Label) :
    (b.emit i).boundAt? l = b.boundAt? l := by
  rw [boundAt?, emit_labels, boundAt?]

theorem emit_plain (h : i.target? = none) :
    (b.emit i).code = b.code ++ i.encode ∧ (b.emit i).pending = b.pending := by
  simp [emit, h]

section

variable (h : i.target? = some l)
include h

theorem field_eq : (b.code ++ i.encode).size - 4 = i.field b.code.size := by
  have hfield := Instr.field_add h b.code.size
  have hsize : (b.code ++ i.encode).size = b.code.size + i.size := size_append_list _ _
  omega

/-- A branch to a label that is bound. -/
theorem emit_resolved {place : Nat} (hl : b.boundAt? l = some place) :
    (b.emit i).code = overwrite (b.code ++ i.encode) (i.field b.code.size)
      (displacement (i.field b.code.size) place) ∧ (b.emit i).pending = b.pending := by
  have hl' : ((({ b with code := b.code ++ i.encode } : CodeBuffer).recordCall
      b.code.size i).boundAt? l) = some place := by
    rw [boundAt?, recordCall_labels]
    exact hl
  simp only [emit, h, resolve, hl', patchDisplacement, pc, recordCall_code, recordCall_pending,
    field_eq h, and_self]

/-- A branch to a label that is not bound yet. -/
theorem emit_waiting (hl : b.boundAt? l = none) : (b.emit i).code = b.code ++ i.encode ∧
      (b.emit i).pending = b.pending ++ [(l, i.field b.code.size)] := by
  have hl' : ((({ b with code := b.code ++ i.encode } : CodeBuffer).recordCall
      b.code.size i).boundAt? l) = none := by
    rw [boundAt?, recordCall_labels]
    exact hl
  simp only [emit, h, resolve, hl', pc, recordCall_code, recordCall_pending, field_eq h, and_self]

end

@[simp] theorem length_displacement (field target : Nat) :
    (displacement field target).length = 4 := by
  simp [displacement, Encoding.i32, Encoding.u32]

/-- What `emit` does to the code: it grows by the instruction. -/
theorem emit_code (b : CodeBuffer) (i : Instr Label) : (b.emit i).code.size = b.code.size + i.size ∧
      (∀ k < b.code.size, (b.emit i).code[k]? = b.code[k]?) ∧
      BytesAt (b.emit i).code b.code.size (i.op.code :: i.fixedOperands) := by
  have hgrown : ∀ k < b.code.size, (b.code ++ i.encode)[k]? = b.code[k]? := by
    intro k hk
    rw [← Array.getElem?_toList, Array.toList_appendList, getElem?_append_left hk,
      Array.getElem?_toList]
  have hsize : (b.code ++ i.encode).size = b.code.size + i.size := size_append_list _ _
  have hend : BytesAt (b.code ++ i.encode) b.code.size (i.op.code :: i.fixedOperands) := by
    have hall := BytesAt.at_end b.code i.encode
    rcases htarget : i.target? with _ | l
    · rw [Instr.fixedOperands, htarget]
      exact hall
    · have hencode : i.encode = (i.op.code :: i.fixedOperands) ++ Encoding.hole := by
        rw [Instr.encode, Instr.operands_eq htarget, cons_append]
      rw [hencode] at hall ⊢
      exact (BytesAt.append_iff.1 hall).1
  rcases htarget : i.target? with _ | l
  · rw [(emit_plain htarget).1]
    exact ⟨hsize, hgrown, hend⟩
  · rcases hbound : b.boundAt? l with _ | place
    · rw [(emit_waiting htarget hbound).1]
      exact ⟨hsize, hgrown, hend⟩
    · rw [(emit_resolved htarget hbound).1, size_overwrite]
      refine ⟨hsize, fun k hk => ?_, hend.overwrite_of_disjoint (.inl ?_)⟩
      · rw [getElem?_overwrite_of_ne (.inl (by unfold Instr.field; omega))]
        exact hgrown k hk
      · simp only [length_cons, Instr.field]
        omega

/-- A displacement waits if its label is not bound. -/
theorem mem_pending_emit {w : Label × Nat} : w ∈ (b.emit i).pending ↔
    w ∈ b.pending ∨ i.target? = some w.1 ∧ b.boundAt? w.1 = none ∧ w.2 = i.field b.code.size := by
  rcases htarget : i.target? with _ | l
  · simp [(emit_plain htarget).2]
  · rcases hbound : b.boundAt? l with _ | place
    · rw [(emit_waiting htarget hbound).2, mem_append, mem_singleton]
      refine or_congr_right ⟨?_, ?_⟩
      · rintro rfl
        exact ⟨rfl, hbound, rfl⟩
      · rintro ⟨⟨⟩, -, hfield⟩
        exact Prod.ext rfl hfield
    · rw [(emit_resolved htarget hbound).2]
      refine (or_iff_left ?_).symm
      rintro ⟨⟨⟩, hnone, -⟩
      cases hbound.symm.trans hnone

section

variable {is : List (Instr Label)}

theorem Spells.placed_concat (h : b.Spells is) (i : Instr Label) :
    Instr.placed 0 (is ++ [i]) = Instr.placed 0 is ++ [(b.code.size, i)] := by
  rw [Instr.placed_append, Nat.zero_add, ← h.size]
  rfl

theorem Spells.emit (h : b.Spells is) (i : Instr Label) : (b.emit i).Spells (is ++ [i]) := by
  obtain ⟨hsize, hkept, hfixed⟩ := emit_code b i
  have hplaced := h.placed_concat i
  refine ⟨⟨by simp [hsize, h.size], fun p hp => ?_⟩, fun w hw => ?_⟩
  · rw [hplaced] at hp
    rcases mem_append.1 hp with hp | hp
    · intro k x hk
      have hlt := (List.getElem?_eq_some_iff.1 hk).1
      have hend := (Instr.le_of_mem_placed hp).2
      have hlen := p.2.length_fixed_le
      rw [length_cons] at hlt
      rw [hkept _ (by rw [h.size]; omega)]
      exact h.bytes p hp k x hk
    · cases mem_singleton.1 hp
      exact hfixed
  · rw [hplaced]
    rcases mem_pending_emit.1 hw with hw | ⟨htarget, -, hfield⟩
    · obtain ⟨p, hp, hfield⟩ := h.fields w hw
      exact ⟨p, mem_append_left _ hp, hfield⟩
    · exact ⟨_, mem_append_right _ mem_cons_self, htarget, hfield⟩

theorem Assembles.emit (h : b.Assembles is)
    (hlabel : ∀ l, i.target? = some l → l.index < b.labels.size) :
      (b.emit i).Assembles (is ++ [i]) := by
  obtain ⟨-, hkept, hfixed⟩ := emit_code b i
  have hspells := h.spells.emit i
  have hnew : (b.emit i).Holds b.code.size i := by
    refine ⟨hfixed, fun l hl => by rw [emit_labels]; exact hlabel l hl, ?_, fun l hl hnone =>
      mem_pending_emit.2 (.inr ⟨hl, by rwa [boundAt?_emit] at hnone, rfl⟩)⟩
    intro l hl place hplace
    rw [boundAt?_emit] at hplace
    rw [(emit_resolved hl hplace).1]
    refine bytesAt_overwrite ?_
    rw [length_displacement, Instr.field_add hl, size_append_list]
    exact Nat.le_refl _
  refine ⟨hspells.size, fun p hp => ?_, fun w hw => ⟨?_, hspells.fields w hw⟩,
    fun l place hplace => ?_⟩
  · rw [h.spells.placed_concat] at hp
    rcases mem_append.1 hp with hp | hp
    · have hend := (Instr.le_of_mem_placed hp).2
      refine (h.holds p hp).mono (fun k _ hk => hkept k (by rw [h.size]; omega)) (fun l hl => ?_)
        fun w hw => mem_pending_emit.2 (.inl hw)
      rw [emit_labels, boundAt?_emit]
      exact ⟨hl, rfl⟩
    · cases mem_singleton.1 hp
      exact hnew
  · rw [boundAt?_emit]
    exact (mem_pending_emit.1 hw).elim (fun hw => (h.pending w hw).1) fun hw => hw.2.1
  · rw [boundAt?_emit] at hplace
    obtain ⟨earlier, later, his, hplace⟩ := h.bound l place hplace
    exact ⟨earlier, later ++ [i], by rw [his, append_assoc], hplace⟩

end

end Emit

section Labels

variable {is : List (Instr Label)}

theorem boundAt?_addLabel (b : CodeBuffer) (l : Label) : b.addLabel.boundAt? l = b.boundAt? l := by
  simp only [boundAt?, addLabel, Array.getElem?_push]
  split
  next heq =>
    rw [heq, Array.getElem?_eq_none (Nat.le_refl _)]
    rfl
  next => rfl

theorem Assembles.addLabel (h : b.Assembles is) : b.addLabel.Assembles is := by
  refine ⟨h.size, fun p hp => ?_, fun w hw => ?_, fun l place hplace => ?_⟩
  · refine (h.holds p hp).mono (fun _ _ _ => rfl) (fun l hl => ⟨?_, boundAt?_addLabel b l⟩)
      fun _ hw => hw
    simp only [CodeBuffer.addLabel, Array.size_push]
    omega
  · rw [boundAt?_addLabel]
    exact h.pending w hw
  · rw [boundAt?_addLabel] at hplace
    exact h.bound l place hplace

/-- The displacements at several fields, all to one place. -/
def patched (code : Array UInt8) (place : Nat) (fields : List Nat) : Array UInt8 :=
  fields.foldl (fun code field => overwrite code field (displacement field place)) code

variable {code : Array UInt8} {place : Nat} {fields : List Nat}

theorem patched_cons (code : Array UInt8) (place field : Nat) (fields : List Nat) :
    patched code place (field :: fields) =
      patched (overwrite code field (displacement field place)) place fields :=
  foldl_cons ..

@[simp] theorem size_patched : (patched code place fields).size = code.size := by
  induction fields generalizing code with
  | nil => rfl
  | cons field fields ih => rw [patched_cons, ih, size_overwrite]

theorem bytesAt_patched_of_disjoint {bytes : List UInt8} (h : BytesAt code offset bytes)
    (hdisj : ∀ field ∈ fields, offset + bytes.length ≤ field ∨ field + 4 ≤ offset) :
    BytesAt (patched code place fields) offset bytes := by
  induction fields generalizing code with
  | nil => exact h
  | cons field fields ih =>
    rw [patched_cons]
    refine ih (h.overwrite_of_disjoint ?_) fun f hf => hdisj f (mem_cons_of_mem _ hf)
    rw [length_displacement]
    exact hdisj field mem_cons_self

theorem bytesAt_patched {field : Nat} (hfield : field ∈ fields)
    (hfits : ∀ f ∈ fields, f + 4 ≤ code.size)
    (hapart : ∀ f ∈ fields, f = field ∨ field + 4 ≤ f ∨ f + 4 ≤ field) :
    BytesAt (patched code place fields) field (displacement field place) := by
  induction fields generalizing code with
  | nil => cases hfield
  | cons f fields ih =>
    have hrest : ∀ g ∈ fields, g = field ∨ field + 4 ≤ g ∨ g + 4 ≤ field :=
      fun g hg => hapart g (mem_cons_of_mem _ hg)
    rw [patched_cons]
    by_cases hmem : field ∈ fields
    · refine ih hmem (fun g hg => ?_) hrest
      rw [size_overwrite]
      exact hfits g (mem_cons_of_mem _ hg)
    · obtain rfl := (mem_cons.1 hfield).resolve_right hmem
      refine bytesAt_patched_of_disjoint (bytesAt_overwrite ?_) fun g hg => ?_
      · rw [length_displacement]
        exact hfits _ mem_cons_self
      · rw [length_displacement]
        exact (hrest g hg).resolve_left fun heq => hmem (heq ▸ hg)

/-- The last element takes the place of the first one of those from some index on. -/
theorem perm_swapRemove {α : Type} (front rest : List α) (x : α) : ∃ last,
    (front ++ x :: rest).getLast? = some last ∧ ∃ rest', rest'.Perm rest ∧
      ((front ++ x :: rest).set front.length last).dropLast = front ++ rest' := by
  obtain rfl | ⟨init, last, rfl⟩ := eq_nil_or_concat' rest
  · exact ⟨x, by simp, [], .nil, by simp⟩
  · rw [← cons_append, ← append_assoc]
    refine ⟨last, getLast?_concat .., last :: init, (perm_append_singleton last init).symm, ?_⟩
    rw [set_append_left _ _ (by simp), dropLast_concat, set_append_right _ _ (Nat.le_refl _)]
    simp

/-- The fields that wait for the label are patched in some order and wait no longer; the others
still do, in some order. -/
structure Patched (l : Label) (place : Nat) (b b' : CodeBuffer) : Prop where
  eq : ∃ fields, (∀ f, f ∈ fields ↔ (l, f) ∈ b.pending) ∧
    b' = { b with code := patched b.code place fields, pending := b'.pending }
  pending : ∀ w, w ∈ b'.pending ↔ w ∈ b.pending ∧ w.1 ≠ l

/-- The loop has passed over `front`, which holds other labels. -/
theorem patched_patchWaiting (l : Label) (place : Nat) (front rest : List (Label × Nat))
    (hfront : ∀ w ∈ front, w.1 ≠ l) (b : CodeBuffer) (hb : b.pending = front ++ rest) :
    Patched l place b (patchWaiting l place rest.length front.length b) := by
  induction hn : rest.length generalizing front rest b with
  | zero =>
    obtain rfl := eq_nil_of_length_eq_zero hn
    rw [append_nil] at hb
    refine ⟨⟨[], fun f => ⟨by rintro ⟨⟩, fun hf => (hfront _ (hb ▸ hf) rfl).elim⟩, rfl⟩,
      fun w => ?_⟩
    exact ⟨fun hw => ⟨hw, hfront w (hb ▸ hw)⟩, And.left⟩
  | succ n ih =>
    obtain ⟨w, rest, rfl⟩ := exists_cons_of_length_eq_add_one hn
    obtain ⟨last, hlast, rest', hperm, hremoved⟩ := perm_swapRemove front rest w
    have hlength : rest.length = n := Nat.succ.inj hn
    rw [patchWaiting, hb, getElem?_append_right (Nat.le_refl _), Nat.sub_self,
      getElem?_cons_zero, hlast]
    dsimp only
    split
    next heq =>
      obtain ⟨⟨fields, hfields, heq'⟩, hpending⟩ := ih front rest' hfront
        (patchDisplacement { b with pending := front ++ rest' } w.2 place) rfl
        (hperm.length_eq.trans hlength)
      rw [hremoved]
      have hmem (v : Label × Nat) : v ∈ b.pending ↔ v = w ∨ v ∈ front ++ rest' := by
        rw [hb, mem_append, mem_cons, mem_append, hperm.mem_iff]
        exact or_left_comm
      refine ⟨⟨w.2 :: fields, fun f => ?_, ?_⟩, fun v => ?_⟩
      · rw [mem_cons, hfields, hmem, ← heq, Prod.ext_iff]
        exact or_congr_left (by simp)
      · rw [patched_cons]
        exact heq'
      · rw [hpending, hmem]
        refine ⟨fun hv => ⟨.inr hv.1, hv.2⟩, fun hv => ⟨hv.1.resolve_left fun h => ?_, hv.2⟩⟩
        exact hv.2 (h ▸ heq)
    next hne =>
      have hfront' : ∀ v ∈ front ++ [w], v.1 ≠ l := fun v hv =>
        (mem_append.1 hv).elim (hfront v) fun hv => mem_singleton.1 hv ▸ hne
      have hnext := ih (front ++ [w]) rest hfront' b (by simp [hb]) hlength
      rwa [length_append, length_singleton] at hnext

theorem patched_bind (b : CodeBuffer) (l : Label) : Patched l b.code.size
    { b with labels := b.labels.setIfInBounds l.index (some b.code.size) } (b.bind l) :=
  patched_patchWaiting l b.code.size [] b.pending (by rintro _ ⟨⟩) _ rfl

theorem labels_bind (b : CodeBuffer) (l : Label) :
    (b.bind l).labels = b.labels.setIfInBounds l.index (some b.code.size) := by
  obtain ⟨fields, -, heq⟩ := (patched_bind b l).eq
  rw [heq]

theorem boundAt?_bind (hl : l.index < b.labels.size) (q : Label) :
    (b.bind l).boundAt? q = if q = l then some b.code.size else b.boundAt? q := by
  simp only [boundAt?, labels_bind, Array.getElem?_setIfInBounds]
  split
  next heq =>
    obtain rfl : q = l := by
      cases q
      cases l
      exact congrArg Label.mk heq.symm
    rw [if_pos rfl]
    rfl
  next hne => rw [if_neg fun heq => hne (congrArg Label.index heq).symm]

@[simp] theorem size_bind (b : CodeBuffer) (l : Label) : (b.bind l).code.size = b.code.size := by
  obtain ⟨fields, -, heq⟩ := (patched_bind b l).eq
  rw [heq, size_patched]

theorem Spells.bind (h : b.Spells is) (l : Label) : (b.bind l).Spells is := by
  refine ⟨⟨by rw [size_bind, h.size], fun p hp => ?_⟩, fun w hw => ?_⟩
  · obtain ⟨fields, hfields, heq⟩ := (patched_bind b l).eq
    rw [heq]
    refine bytesAt_patched_of_disjoint (h.bytes p hp) fun f hf => ?_
    obtain ⟨q, hq, htarget, rfl⟩ := h.fields _ ((hfields f).1 hf)
    have hlen := p.2.length_fixed_le
    have hfield := Instr.field_add htarget q.1
    rw [length_cons]
    obtain rfl | hapart := Instr.placed_apart hp hq <;> unfold Instr.field at * <;> omega
  · exact h.fields w (((patched_bind b l).pending w).1 hw).1

theorem Assembles.bind (h : b.Assembles is)
    (hl : l.index < b.labels.size) (hnone : b.boundAt? l = none) : (b.bind l).Assembles is := by
  obtain ⟨⟨fields, hfields, heq⟩, hpending⟩ := patched_bind b l
  -- every field that is patched is the field of one of the instructions
  have hfield : ∀ f ∈ fields, ∃ q ∈ Instr.placed 0 is, q.2.target? = some l ∧
      f = q.2.field q.1 := by
    intro f hf
    exact (h.pending _ ((hfields f).1 hf)).2
  have hend : ∀ q ∈ Instr.placed 0 is, q.2.target? = some l →
      q.2.field q.1 + 4 = q.1 + q.2.size ∧ q.1 + q.2.size ≤ b.code.size := by
    intro q hq htarget
    have hle := (Instr.le_of_mem_placed hq).2
    rw [h.size]
    exact ⟨Instr.field_add htarget _, by omega⟩
  have hspells := h.spells.bind l
  refine ⟨hspells.size, fun p hp => ?_, fun w hw => ⟨?_, hspells.fields w hw⟩,
    fun q place hplace => ?_⟩
  · have hold := h.holds p hp
    have hcode : (b.bind l).code = patched b.code b.code.size fields := by rw [heq]
    refine ⟨hspells.bytes p hp, ?_, ?_, ?_⟩
    · intro k hk
      rw [labels_bind]
      simpa using hold.label k hk
    · intro k hk place hplace
      rw [boundAt?_bind hl] at hplace
      rw [hcode]
      split at hplace
      next hsame =>
        subst hsame
        cases hplace
        refine bytesAt_patched ((hfields _).2 (hold.waits k hk hnone)) (fun f hf => ?_) fun f hf =>
          ?_
        · obtain ⟨q, hq, htarget, rfl⟩ := hfield f hf
          have := hend q hq htarget
          omega
        · obtain ⟨q, hq, htarget, rfl⟩ := hfield f hf
          have hp' := hend p hp hk
          have hq' := hend q hq htarget
          obtain rfl | hapart := Instr.placed_apart hp hq
          · exact .inl rfl
          · unfold Instr.field at *
            omega
      next hne =>
        refine bytesAt_patched_of_disjoint (hold.resolved k hk place hplace) fun f hf => ?_
        obtain ⟨q, hq, htarget, rfl⟩ := hfield f hf
        have hp' := Instr.field_add hk p.1
        have hq' := hend q hq htarget
        rw [length_displacement]
        obtain rfl | hapart := Instr.placed_apart hp hq
        · exact (hne (Option.some.inj (hk.symm.trans htarget))).elim
        · unfold Instr.field at *
          omega
    · intro k hk hunbound
      rw [boundAt?_bind hl] at hunbound
      split at hunbound
      next => cases hunbound
      next hne =>
        exact (hpending _).2 ⟨hold.waits k hk hunbound, hne⟩
  · obtain ⟨hw, hne⟩ := (hpending w).1 hw
    rw [boundAt?_bind hl, if_neg hne]
    exact (h.pending w hw).1
  · rw [boundAt?_bind hl] at hplace
    split at hplace
    next =>
      cases hplace
      exact ⟨is, [], by simp, h.size⟩
    next => exact h.bound q place hplace

end Labels

/-- A frame setup gets another size. -/
theorem Assembles.patchFrameSize {size : UInt32}
    (h : b.Assembles (earlier ++ .enterFrame size :: later)) (newSize : Nat) :
    (b.patchFrameSize (Instr.codeSize earlier) newSize).Assembles
      (earlier ++ .enterFrame (.ofNat newSize) :: later) := by
  obtain ⟨o, ho⟩ : ∃ o, o = Instr.codeSize earlier := ⟨_, rfl⟩
  have hencode : ∀ n, (Instr.enterFrame n : Instr Label).size = 5 := fun _ => rfl
  have hplaced : ∀ n, Instr.placed 0 (earlier ++ Instr.enterFrame n :: later) =
      Instr.placed 0 earlier ++ (o, Instr.enterFrame n) :: Instr.placed (o + 5) later := by
    intro n
    rw [Instr.placed_append, Instr.placed, hencode, Nat.zero_add, ho]
  have hlen : (Encoding.u32 (UInt32.ofNat newSize)).length = 4 := Bytes.length_ofNat _ _
  have hsize : b.code.size = o + 5 + Instr.codeSize later := by
    rw [h.size, Instr.codeSize_append, Instr.codeSize_cons, hencode, ho]
    omega
  have hsetup : BytesAt b.code o ([MachineOp.enterFrame.code] ++ Encoding.u32 size) :=
    (h.holds (o, .enterFrame size) (by rw [hplaced]; exact mem_append_right _ mem_cons_self)).fixed
  have hfixed : BytesAt (overwrite b.code (o + 1) (Encoding.u32 (UInt32.ofNat newSize))) o
      ([MachineOp.enterFrame.code] ++ Encoding.u32 (UInt32.ofNat newSize)) :=
    BytesAt.append_iff.2 ⟨(BytesAt.append_iff.1 hsetup).1.overwrite_of_disjoint
      (.inl (Nat.le_refl _)), bytesAt_overwrite (by omega)⟩
  have hkept : ∀ k, k < o ∨ o + 5 ≤ k →
      (overwrite b.code (o + 1) (Encoding.u32 (UInt32.ofNat newSize)))[k]? = b.code[k]? :=
    fun k hk => getElem?_overwrite_of_ne (by omega)
  have hcodeSize : (overwrite b.code (o + 1) (Encoding.u32 (UInt32.ofNat newSize))).size =
      b.code.size := size_overwrite
  rw [← ho, CodeBuffer.patchFrameSize]
  -- only these three facts about the new code matter
  generalize overwrite b.code (o + 1) (Encoding.u32 (UInt32.ofNat newSize)) = code at *
  have hother : ∀ p ∈ Instr.placed 0 earlier ++ Instr.placed (o + 5) later,
      p.1 + p.2.size ≤ o ∨ o + 5 ≤ p.1 := by
    intro p hp
    rcases mem_append.1 hp with hp | hp
    · have hend := (Instr.le_of_mem_placed hp).2
      exact .inl (by omega)
    · exact .inr (Instr.le_of_mem_placed hp).1
  have hmem : ∀ n p, p ∈ Instr.placed 0 (earlier ++ Instr.enterFrame n :: later) ↔
      p = (o, Instr.enterFrame n) ∨ p ∈ Instr.placed 0 earlier ++ Instr.placed (o + 5) later := by
    intro n p
    rw [hplaced, mem_append, mem_cons, mem_append]
    exact or_left_comm
  refine ⟨?_, fun p hp => ?_, fun w hw => ?_, fun l place hplace => ?_⟩
  · rw [hcodeSize, hsize, Instr.codeSize_append, Instr.codeSize_cons, hencode, ho]
    omega
  · rcases (hmem _ p).1 hp with rfl | hp
    · exact ⟨hfixed, nofun, nofun, nofun⟩
    · have hapart := hother p hp
      exact (h.holds p ((hmem _ p).2 (.inr hp))).mono (fun k hk hk' => hkept k (by omega))
        (fun l hl => ⟨hl, rfl⟩) fun _ hw => hw
  · obtain ⟨hnone, p, hp, htarget, hfield⟩ := h.pending w hw
    rcases (hmem _ p).1 hp with rfl | hp
    · cases htarget
    · exact ⟨hnone, p, (hmem _ p).2 (.inr hp), htarget, hfield⟩
  · obtain ⟨front, back, his, hplace⟩ := h.bound l place hplace
    -- the place of the label is in front of the setup or behind it
    rcases append_eq_append_iff.1 his with ⟨mid, rfl, hmid⟩ | ⟨mid, rfl, hmid⟩
    · cases mid with
      | nil => exact ⟨earlier, _, rfl, by simpa using hplace⟩
      | cons i mid =>
        rw [cons_append, List.cons.injEq] at hmid
        obtain ⟨rfl, rfl⟩ := hmid
        refine ⟨earlier ++ .enterFrame (.ofNat newSize) :: mid, back, by simp, ?_⟩
        rw [hplace]
        simp [hencode]
    · exact ⟨front, mid ++ .enterFrame (.ofNat newSize) :: later, by simp, hplace⟩

theorem decode_of_drop {code : Array UInt8} {offset : Nat} {i : Instr Label} {j : Instr Nat}
    {bytes rest : List UInt8} (h : code.toList.drop offset = i.op.code :: bytes)
    (hrun : (Decoding.operands i.op).run ⟨bytes, offset + 1⟩ = .ok (j, ⟨rest, offset + i.size⟩)) :
    Instr.decode code offset = .ok (j, i.size) := by
  have hinstr : Decoding.instr offset (code.toList.drop offset) =
      .ok (j, ⟨rest, offset + i.size⟩) := by
    rw [h, Decoding.instr, MachineOp.ofCode?_code]
    dsimp only
    rw [hrun]
    rfl
  rw [Instr.decode, hinstr]
  show Except.ok (j, offset + i.size - offset) = _
  rw [Nat.add_sub_cancel_left]

/-- Once every label is bound the code decodes to the instructions, with labels replaced by the
places they are bound to. -/
theorem Assembles.decode (h : b.Assembles is) (hdone : b.pending = [])
    (hsize : b.code.size < 0x80000000) (hmem : (offset, i) ∈ Instr.placed 0 is)
    (henc : i.IsEncodable) :
    Instr.decode b.code offset = .ok (i.map fun l => (b.boundAt? l).getD 0, i.size) := by
  have hold : b.Holds offset i := h.holds _ hmem
  have hend : offset + i.size ≤ b.code.size := by
    rw [h.size, ← Nat.zero_add (Instr.codeSize is)]
    exact (Instr.le_of_mem_placed hmem).2
  rcases htarget : i.target? with _ | l
  · have hfixed : i.fixedOperands = i.operands := by rw [Instr.fixedOperands, htarget]
    obtain ⟨rest, hrest⟩ := hold.fixed.exists_drop
    rw [hfixed, cons_append] at hrest
    have hrun := Decoding.takes_operands htarget henc (fun l => (b.boundAt? l).getD 0)
      rest (offset + 1)
    rw [Nat.add_assoc, Nat.add_comm 1] at hrun
    exact decode_of_drop hrest hrun
  · obtain ⟨place, hplace⟩ : ∃ place, b.boundAt? l = some place := by
      rcases hbound : b.boundAt? l with _ | place
      · have hwaits := hold.waits l htarget hbound
        rw [hdone] at hwaits
        cases hwaits
      · exact ⟨place, rfl⟩
    have hfield := Instr.field_add htarget offset
    have hbytes := BytesAt.append_iff.2 ⟨hold.fixed, by
      rw [length_cons, Nat.add_comm _ 1, ← Nat.add_assoc]
      exact hold.resolved l htarget place hplace⟩
    obtain ⟨rest, hrest⟩ := hbytes.exists_drop
    rw [cons_append, cons_append] at hrest
    have hmap : (i.map fun l => (b.boundAt? l).getD 0) = i.map fun _ => place := by
      cases i <;> simp_all [Instr.map, Instr.target?]
    have hlt := h.place_le hplace
    have hrun := Decoding.run_operands htarget henc
      (Nat.lt_of_le_of_lt (Nat.le_trans (Nat.le_of_eq hfield) hend) hsize)
        (Nat.lt_of_le_of_lt hlt hsize) rest
    rw [← Instr.field, hfield] at hrun
    rw [hmap]
    exact decode_of_drop hrest hrun

end CodeBuffer

end OnePass
