import OnePass.Emitter.Call
import OnePass.Proofs.CacheInvariant
import OnePass.Proofs.CodeLayout
import OnePass.Proofs.Steps

/-!
What the emitter does. It appends instructions that neither branch nor call, and keeps the cache
state regular. Every instruction names types that are known and places of the frame that were handed
out: so the frame, which has room for the deepest of them, covers all that the code touches.
-/
namespace OnePass

open List

/-! ## Steps that may be refused -/

/-- Code that was checked in full is never refused for a failure inside the code generator. -/
def Regime.Tolerates (R : Regime) (b : Bailout) : Prop := R.typed → R.linked → b.reason ≠ .other

abbrev StepM (σ : Type) := ExceptT Bailout (StateM σ)

/-- The step succeeds with such a result and state, or is refused for a reason that the regime
tolerates. -/
abbrev Upholds {σ α : Type} (R : Regime) (m : ExceptT Bailout (StateM σ) α) (s : σ)
    (post : α → σ → Prop) : Prop :=
  Settles (fun b _ => R.Tolerates b) m s post

/-! ## Instructions with types and places that are known -/

namespace Instr

variable {τ : Type} {R : Regime} {i : Instr τ} {deepest deepest' offset : Nat} {ty : ValueType}

/-- The places of the frame that the instruction reads or writes; for a range its deepest one. -/
def frameOffsets : Instr τ → List Nat
  | spill _ offset _ | spillConst _ offset _ | fill _ _ offset => [offset.toNat]
  | moveStackValue _ dst src => [dst.toNat, src.toNat]
  | zeroSlots start size => [start.toNat + size.toNat]
  | _ => []

/-- The instruction leads to the next one and nowhere else. -/
def isStraight : Instr τ → Bool
  | unaryTrapping .. | jump _ | condJump .. | condJumpImm .. | stackCheck .. | call _
  | callIndirect _ | callStub _ => false
  | _ => true

/-- The instruction calls a function or the runtime. -/
def isCall : Instr τ → Bool
  | call _ | callIndirect _ | callStub _ => true
  | _ => false

theorem target?_of_isStraight (h : i.isStraight = true) : i.target? = none := by
  cases i <;> first | rfl | cases h

theorem isCall_of_isStraight (h : i.isStraight = true) : i.isCall = false := by
  cases i <;> first | rfl | cases h

theorem isCall_of_target {t : τ} (h : i.target? = some t) : i.isCall = false := by
  cases i <;> first | rfl | cases h

/-- The type is known, and the places are in a frame of so many bytes. -/
structure Fine (R : Regime) (deepest : Nat) (i : Instr τ) : Prop where
  type : ∀ ty, i.type? = some ty → R.allows ty
  frame : deepest < UInt32.size → ∀ o ∈ i.frameOffsets, 0 < o ∧ o ≤ deepest

theorem Fine.mono (h : i.Fine R deepest) (hle : deepest ≤ deepest') : i.Fine R deepest' :=
  ⟨h.type, fun hlt o ho => by
    have := h.frame (Nat.lt_of_le_of_lt hle hlt) o ho
    omega⟩

theorem Fine.of_none (h : i.type? = none) (hframe : i.frameOffsets = []) : i.Fine R deepest :=
  ⟨fun ty hty => by simp [h] at hty, fun _ o ho => by simp [hframe] at ho⟩

theorem Fine.of_type (hty : R.allows ty) (h : i.type? = some ty) (hframe : i.frameOffsets = []) :
    i.Fine R deepest :=
  ⟨fun ty' hty' => by cases h.symm.trans hty'; exact hty, fun _ o ho => by simp [hframe] at ho⟩

/-- One place. -/
theorem Fine.of_place (hty : R.allows ty) (hpos : 0 < offset) (hle : offset ≤ deepest)
    (h : i.type? = some ty) (hframe : i.frameOffsets = [(UInt32.ofNat offset).toNat]) :
      i.Fine R deepest := by
  refine ⟨fun ty' hty' => ?_, fun hlt o ho => ?_⟩
  · rw [h] at hty'
    cases hty'
    exact hty
  · rw [hframe, mem_singleton] at ho
    rw [ho, UInt32.toNat_ofNat_of_lt' (Nat.lt_of_le_of_lt hle hlt)]
    exact ⟨hpos, hle⟩

/-- The places of two. -/
theorem Fine.of_both {j k : Instr τ} (hj : j.Fine R deepest) (hk : k.Fine R deepest)
    (h : i.type? = j.type?)
    (hframe : i.frameOffsets = j.frameOffsets ++ k.frameOffsets) : i.Fine R deepest := by
  refine ⟨fun ty hty => hj.type ty (h ▸ hty), fun hlt o ho => ?_⟩
  rw [hframe, mem_append] at ho
  exact ho.elim (hj.frame hlt o) (hk.frame hlt o)

end Instr

/-- The value of the slot is of a known type, and its place is in a frame of so many bytes. -/
structure Slot.Fine (R : Regime) (deepest : Nat) (slot : Slot) : Prop where
  type : R.allows slot.ty
  pos : 0 < slot.offset
  le : slot.offset ≤ deepest

theorem Slot.Fine.mono {R : Regime} {deepest deepest' : Nat} {slot : Slot}
    (h : slot.Fine R deepest) (hle : deepest ≤ deepest') : slot.Fine R deepest' :=
  ⟨h.type, h.pos, Nat.le_trans h.le hle⟩

theorem CacheState.Regular.fine {R : Regime} {s : CacheState} (h : s.Regular R) {slot : Slot}
    (hslot : slot ∈ s.slots) : slot.Fine R s.maxOffset :=
  ⟨h.allows_ty hslot, h.offset_pos hslot, h.offset_le hslot⟩

/-! ## Transfers -/

section Transfers

variable {R : Regime} {τ : Type} {deepest deepest' : Nat}

/-- Code that does not branch, with what is loaded after it. -/
structure MoveCode.Fine (R : Regime) (deepest : Nat) (c : MoveCode τ) : Prop where
  grows : deepest ≤ c.deepest
  code : ∀ i ∈ c.code, i.isStraight = true ∧ i.Fine R c.deepest
  loads : ∀ l ∈ c.loads, (l.instr : Instr τ).Fine R c.deepest

/-- One more value is loaded. -/
theorem MoveCode.Fine.later {c : MoveCode τ} (h : c.Fine R deepest) {l : RegLoad}
    (hl : (l.instr : Instr τ).Fine R deepest) :
      ({ c with loads := l :: c.loads } : MoveCode τ).Fine R deepest :=
  ⟨h.grows, h.code, forall_mem_cons.2 ⟨hl.mono h.grows, h.loads⟩⟩

theorem RegLoad.isStraight_instr (l : RegLoad) : (l.instr : Instr τ).isStraight = true := by
  cases l <;> rfl

theorem FrameStore.isStraight_instr (s : FrameStore) : (s.instr : Instr τ).isStraight = true := by
  cases s <;> rfl

theorem parkingSize_pos : 0 < parkingSize := by decide

/-- Moves between registers need parking places only. -/
theorem MoveCode.fine_resolveMoves {uses : Reg → Nat} {moves : List RegMove}
    (h : ∀ m ∈ moves, R.allows m.ty) :
      (resolveMoves uses moves deepest : MoveCode τ).Fine R deepest := by
  fun_induction resolveMoves (τ := τ) uses moves deepest with
  | case1 uses deepest =>
    exact ⟨Nat.le_refl _, fun _ h => (not_mem_nil h).elim, fun _ h => (not_mem_nil h).elim⟩
  | case2 uses deepest m left _ place later ih =>
    have hlater := ih fun m' hm' => h m' (mem_cons_of_mem _ hm')
    have hle : deepest + parkingSize ≤ later.deepest := hlater.grows
    have hpos : 0 < place := Nat.lt_of_lt_of_le parkingSize_pos (Nat.le_add_left _ _)
    have hty := h m mem_cons_self
    refine ⟨Nat.le_trans (Nat.le_add_right _ _) hle, forall_mem_cons.2 ⟨?_, hlater.code⟩,
      forall_mem_cons.2 ⟨?_, hlater.loads⟩⟩
    · exact ⟨rfl, .of_place hty hpos hle rfl rfl⟩
    · exact .of_place hty hpos hle rfl rfl
  | case3 uses moves deepest _ _ swept later ih =>
    have hdone : ∀ m ∈ swept.1 ++ swept.2.1, m ∈ moves := fun m =>
      ((RegMove.perm_sweep uses moves).mem_iff (a := m)).1
    have hlater := ih fun m hm => h m (hdone m (mem_append_right _ hm))
    refine ⟨hlater.grows, fun i hi => ?_, hlater.loads⟩
    rcases mem_append.1 hi with hi | hi
    · obtain ⟨m, hm, rfl⟩ := mem_map.1 hi
      exact ⟨rfl, .of_type (h m (hdone m (mem_append_left _ hm))) rfl rfl⟩
    · exact hlater.code i hi

/-- What is copied out of the way is loaded from where it was parked. -/
theorem MoveCode.fine_rescue {stores : List FrameStore} {loads : List RegLoad}
    (h : ∀ l ∈ loads, (l.instr : Instr τ).Fine R deepest) :
    (Transfer.rescue stores loads deepest : MoveCode τ).Fine R deepest := by
  induction loads generalizing deepest with
  | nil => exact ⟨Nat.le_refl _, fun _ h => (not_mem_nil h).elim, fun _ h => (not_mem_nil h).elim⟩
  | cons load rest ih =>
    have hhead := h load mem_cons_self
    have hrest : ∀ l ∈ rest, (l.instr : Instr τ).Fine R deepest :=
      fun l hl => h l (mem_cons_of_mem _ hl)
    cases load with
    | const ty dst value => exact (ih hrest).later hhead
    | stack ty dst offset =>
      rw [Transfer.rescue]
      have hty : R.allows ty := hhead.type ty rfl
      split
      · have hlater := @ih (deepest + parkingSize) fun l hl =>
          (hrest l hl).mono (Nat.le_add_right _ _)
        have hle := hlater.grows
        have hpos : 0 < deepest + parkingSize :=
          Nat.lt_of_lt_of_le parkingSize_pos (Nat.le_add_left _ _)
        have hgrows : deepest ≤ _ := Nat.le_trans (Nat.le_add_right _ _) hle
        have hplace : (Instr.spill ty (.ofNat (deepest + parkingSize)) dst : Instr τ).Fine R _ :=
          .of_place hty hpos hle rfl rfl
        refine ⟨hgrows, forall_mem_cons.2 ⟨?_, hlater.code⟩, forall_mem_cons.2 ⟨?_, hlater.loads⟩⟩
        · exact ⟨rfl, .of_both hplace (hhead.mono hgrows) rfl rfl⟩
        · exact .of_place hty hpos hle rfl rfl
      · exact (ih hrest).later hhead

/-- What is stored, moved and loaded is of known types and in the frame. -/
structure Transfer.Fine (R : Regime) (t : Transfer) : Prop where
  stores : ∀ s ∈ t.stores, (s.instr : Instr Label).Fine R t.deepest
  moves : ∀ m ∈ t.moves, R.allows m.ty
  loads : ∀ l ∈ t.loads, (l.instr : Instr Label).Fine R t.deepest

namespace Transfer

variable {t : Transfer} {slot src dst : Slot} {r : Reg} {ty : ValueType} {offset : Nat}

theorem Fine.code (h : t.Fine R) : t.deepest ≤ (t.code : List (Instr Label) × Nat).2 ∧
      ∀ i ∈ (t.code : List (Instr Label) × Nat).1, i.isStraight = true ∧
        i.Fine R (t.code : List (Instr Label) × Nat).2 := by
  have hrescued : (rescue t.stores t.loads t.deepest : MoveCode Label).Fine R _ :=
    MoveCode.fine_rescue h.loads
  have hmoved : (resolveMoves (RegMove.sourceUses t.moves)
      t.moves (rescue t.stores t.loads t.deepest :
      MoveCode Label).deepest : MoveCode Label).Fine R _ := MoveCode.fine_resolveMoves h.moves
  refine ⟨Nat.le_trans hrescued.grows hmoved.grows, fun i hi => ?_⟩
  simp only [Transfer.code, mem_append, mem_map] at hi
  rcases hi with ((hi | ⟨s, hs, rfl⟩) | hi) | ⟨l, hl, rfl⟩
  · exact ⟨(hrescued.code i hi).1, (hrescued.code i hi).2.mono hmoved.grows⟩
  · exact ⟨s.isStraight_instr, (h.stores s hs).mono (Nat.le_trans hrescued.grows hmoved.grows)⟩
  · exact hmoved.code i hi
  · refine ⟨l.isStraight_instr, ?_⟩
    rcases hl with hl | hl
    · exact (hrescued.loads l hl).mono hmoved.grows
    · exact hmoved.loads l hl

theorem fine_empty (R : Regime) (deepest : Nat) : ({ deepest } : Transfer).Fine R :=
  ⟨fun _ h => (not_mem_nil h).elim, fun _ h => (not_mem_nil h).elim,
    fun _ h => (not_mem_nil h).elim⟩

theorem Fine.load (h : t.Fine R) (r : Reg) (hsrc : src.Fine R t.deepest) :
    (t.load r src).Fine R ∧ (t.load r src).deepest = t.deepest := by
  unfold Transfer.load
  split
  next q hloc =>
    split
    · exact ⟨h, rfl⟩
    · exact ⟨⟨h.stores, forall_mem_append.2 ⟨h.moves, forall_mem_singleton.2 hsrc.type⟩, h.loads⟩,
        rfl⟩
  next value hloc =>
    refine ⟨⟨h.stores, h.moves, forall_mem_append.2 ⟨h.loads, forall_mem_singleton.2 ?_⟩⟩, rfl⟩
    exact .of_type hsrc.type rfl rfl
  next hloc =>
    refine ⟨⟨h.stores, h.moves, forall_mem_append.2 ⟨h.loads, forall_mem_singleton.2 ?_⟩⟩, rfl⟩
    exact .of_place hsrc.type hsrc.pos hsrc.le rfl rfl

section

variable (h : t.Fine R) (hdst : dst.Fine R t.deepest) (hsrc : src.Fine R t.deepest)
include h hdst hsrc

theorem Fine.store :
    (t.store dst.ty dst.offset src).Fine R ∧
      (t.store dst.ty dst.offset src).deepest = t.deepest := by
  have hadd : ∀ s : FrameStore, (s.instr : Instr Label).Fine R t.deepest →
      ({ t with stores := t.stores ++ [s] } : Transfer).Fine R := by
    intro s hs
    exact ⟨forall_mem_append.2 ⟨h.stores, forall_mem_singleton.2 hs⟩, h.moves, h.loads⟩
  unfold Transfer.store
  split
  next hloc =>
    split
    · exact ⟨h, rfl⟩
    · have hdst' : (Instr.fill dst.ty default (.ofNat dst.offset) : Instr Label).Fine R _ :=
        .of_place hdst.type hdst.pos hdst.le rfl rfl
      have hsrc' : (Instr.fill src.ty default (.ofNat src.offset) : Instr Label).Fine R _ :=
        .of_place hsrc.type hsrc.pos hsrc.le rfl rfl
      exact ⟨hadd _ (.of_both hdst' hsrc' rfl rfl), rfl⟩
  next => exact ⟨hadd _ (.of_place hdst.type hdst.pos hdst.le rfl rfl), rfl⟩
  next => exact ⟨hadd _ (.of_place hdst.type hdst.pos hdst.le rfl rfl), rfl⟩

theorem Fine.add : (t.add dst src).Fine R ∧ (t.add dst src).deepest = t.deepest := by
  unfold Transfer.add
  split
  · exact h.store hdst hsrc
  · exact h.load _ hsrc
  · exact ⟨h, rfl⟩

end

theorem fine_ofSlots {pairs : List (Slot × Slot)}
    (h : ∀ p ∈ pairs, p.1.Fine R deepest ∧ p.2.Fine R deepest) :
    (ofSlots deepest pairs).Fine R ∧ (ofSlots deepest pairs).deepest = deepest := by
  have hfold : ∀ t : Transfer, t.Fine R → t.deepest = deepest →
      (pairs.foldl (fun t p => t.add p.1 p.2) t).Fine R ∧
        (pairs.foldl (fun t p => t.add p.1 p.2) t).deepest = deepest := by
    induction pairs with
    | nil => exact fun t ht hdeepest => ⟨ht, hdeepest⟩
    | cons p pairs ih =>
      intro t ht hdeepest
      obtain ⟨hdst, hsrc⟩ := h p mem_cons_self
      obtain ⟨hadded, hdeepest'⟩ := ht.add (hdeepest ▸ hdst) (hdeepest ▸ hsrc)
      exact ih (fun q hq => h q (mem_cons_of_mem _ hq)) _ hadded (hdeepest'.trans hdeepest)
  exact hfold _ (fine_empty R deepest) rfl

end Transfer

end Transfers

end OnePass
