import OnePass.Proofs.DataMoves
import OnePass.Transfer

/-!
A transfer moves all its values at once: after its code every target holds what its source stood for
before. Each stage is looked at by itself. Values that a store would overwrite are put away, stores
only overwrite what is read no more, moves between registers are done in an order in which every
source is read in time, and loads come last.
-/
namespace OnePass

open List

open Instr

variable {τ : Type}

/-! ## Loads -/

namespace RegLoad

def dst : RegLoad → Reg
  | const _ dst _ | stack _ dst _ => dst

def ty : RegLoad → ValueType
  | const ty _ _ | stack ty _ _ => ty

/-- The slot that is read. -/
def place? : RegLoad → Option Nat
  | const .. => none
  | stack _ _ offset => some offset

/-- The value that is loaded. -/
def value (s : DataState) : RegLoad → UInt64
  | const ty _ value => ty.narrow (constBits ty value)
  | stack ty _ offset => ty.narrow (s.frame.slot offset)

/-- Loads read no registers. -/
theorem value_congr {s s' : DataState} {l : RegLoad}
    (h : ∀ o, l.place? = some o → s'.frame.slot o = s.frame.slot o) : l.value s' = l.value s := by
  cases l with
  | const => rfl
  | stack ty dst offset => exact congrArg ty.narrow (h offset rfl)

theorem moveData?_instr {l : RegLoad} (hscalar : l.ty ≠ .v128)
    (hsmall : ∀ o, l.place? = some o → o < UInt32.size) (s : DataState) :
    moveData? (l.instr : Instr τ) s =
      some { s with regs := Function.update s.regs l.dst (l.value s) } := by
  cases l with
  | const ty dst value =>
    have hty : ty ≠ .v128 := hscalar
    rw [instr, moveData?, if_neg hty]
    rfl
  | stack ty dst offset =>
    have hty : ty ≠ .v128 := hscalar
    rw [instr, moveData?, if_neg hty, UInt32.toNat_ofNat_of_lt' (hsmall offset rfl)]
    rfl

/-- Every register that is loaded holds its value in the end, since loads do not change the
frame. -/
theorem moveAll?_instrs {loads : List RegLoad} (hscalar : ∀ l ∈ loads, l.ty ≠ .v128)
    (hsmall : ∀ l ∈ loads, ∀ o, l.place? = some o → o < UInt32.size)
    (hdistinct : (loads.map dst).Nodup) (s : DataState) :
    ∃ s', moveAll? (loads.map (instr : RegLoad → Instr τ)) s = some s' ∧ s'.frame = s.frame ∧
      (∀ l ∈ loads, s'.regs l.dst = l.value s) ∧ ∀ r ∉ loads.map dst, s'.regs r = s.regs r := by
  induction loads generalizing s with
  | nil => exact ⟨s, rfl, rfl, nofun, fun _ _ => rfl⟩
  | cons l rest ih =>
    rw [map_cons, nodup_cons] at hdistinct
    obtain ⟨s', hrun, hframe, hloaded, hkept⟩ :=
      ih (fun l' hl' => hscalar l' (mem_cons_of_mem _ hl'))
      (fun l' hl' => hsmall l' (mem_cons_of_mem _ hl')) hdistinct.2
      { s with regs := Function.update s.regs l.dst (l.value s) }
    refine ⟨s', ?_, hframe, fun l' hl' => ?_, fun r hr => ?_⟩
    · rw [map_cons, moveAll?, moveData?_instr (hscalar l mem_cons_self)
        (hsmall l mem_cons_self), Option.bind_some, hrun]
    · rcases mem_cons.1 hl' with rfl | hl'
      · rw [hkept _ hdistinct.1]
        exact Function.update_self ..
      · rw [hloaded l' hl']
        exact value_congr fun _ _ => rfl
    · rw [map_cons, mem_cons, not_or] at hr
      rw [hkept r hr.2]
      exact Function.update_of_ne hr.1 ..

end RegLoad

/-! ## Stores -/

variable {stores : List FrameStore}

namespace FrameStore

def ty : FrameStore → ValueType
  | move ty _ _ | reg ty _ _ | const ty _ _ => ty

/-- The slot that is read. -/
def src? : FrameStore → Option Nat
  | move _ _ src => some src
  | _ => none

/-- The value that is stored. -/
def value (s : DataState) : FrameStore → UInt64
  | move ty _ src => ty.narrow (s.frame.slot src)
  | reg ty _ src => ty.narrow (s.regs src)
  | const ty _ value => ty.narrow (constBits ty value)

/-- The slots are multiples of eight, none deeper than `base`. -/
structure Within (base : Nat) (x : FrameStore) : Prop where
  scalar : x.ty ≠ .v128
  dst : 8 ∣ x.dst ∧ x.dst ≤ base
  src : ∀ o, x.src? = some o → 8 ∣ o ∧ o ≤ base

theorem moveData?_instr {base : Nat} {x : FrameStore} (h : x.Within base)
    (hsmall : base < UInt32.size) (s : DataState) :
    moveData? (x.instr : Instr τ) s =
      some { s with frame := s.frame.setSlot x.dst (x.value s) } := by
  have hdst : (UInt32.ofNat x.dst).toNat = x.dst :=
    UInt32.toNat_ofNat_of_lt' (Nat.lt_of_le_of_lt h.dst.2 hsmall)
  have hscalar := h.scalar
  cases x with
  | move ty dst src =>
    have hsrc : (UInt32.ofNat src).toNat = src :=
      UInt32.toNat_ofNat_of_lt' (Nat.lt_of_le_of_lt (h.src src rfl).2 hsmall)
    simp only [FrameStore.dst, FrameStore.ty] at hdst hscalar
    rw [instr, moveData?, if_neg hscalar, hsrc, hdst]
    rfl
  | reg ty dst src =>
    simp only [FrameStore.dst, FrameStore.ty] at hdst hscalar
    rw [instr, moveData?, if_neg hscalar, hdst]
    rfl
  | const ty dst value =>
    simp only [FrameStore.dst, FrameStore.ty] at hdst hscalar
    rw [instr, moveData?, if_neg hscalar, hdst, DataState.setSlot, ← ty.narrow_constBits]
    rfl

/-- Different multiples of eight are eight apart. -/
theorem apart {a b : Nat} (ha : 8 ∣ a) (hb : 8 ∣ b) (hne : a ≠ b) : a + 8 ≤ b ∨ b + 8 ≤ a := by
  omega

/-- What a store writes does not change what later ones read. -/
theorem moveAll?_instrs {base : Nat} (hwithin : ∀ x ∈ stores, x.Within base)
    (hsmall : base < UInt32.size) (hdistinct : (stores.map dst).Nodup)
    (hreads : stores.Pairwise fun x y => y.src? ≠ some x.dst) (s : DataState) :
    ∃ s', moveAll? (stores.map (instr : FrameStore → Instr τ)) s = some s' ∧ s'.regs = s.regs ∧
      (∀ x ∈ stores, s'.frame.slot x.dst = x.value s) ∧
      ∀ a : Int, (∀ x ∈ stores, a < -x.dst ∨ -x.dst + 8 ≤ a) → s'.frame a = s.frame a := by
  induction stores generalizing s with
  | nil => exact ⟨s, rfl, rfl, nofun, fun _ _ => rfl⟩
  | cons x rest ih =>
    rw [map_cons, nodup_cons] at hdistinct
    rw [pairwise_cons] at hreads
    have hx := hwithin x mem_cons_self
    have hrest : ∀ y ∈ rest, y.Within base := fun y hy => hwithin y (mem_cons_of_mem _ hy)
    obtain ⟨s₁, hs₁⟩ : ∃ s₁, s₁ = { s with frame := s.frame.setSlot x.dst (x.value s) } := ⟨_, rfl⟩
    obtain ⟨s', hrun, hregs, hstored, hkept⟩ := ih hrest hdistinct.2 hreads.2 s₁
    have hne : ∀ y ∈ rest, x.dst ≠ y.dst := fun y hy heq =>
      hdistinct.1 (heq ▸ mem_map_of_mem hy)
    refine ⟨s', ?_, ?_, fun y hy => ?_, fun a ha => ?_⟩
    · rw [map_cons, moveAll?, moveData?_instr hx hsmall, Option.bind_some, ← hs₁, hrun]
    · rw [hregs, hs₁]
    · rcases mem_cons.1 hy with rfl | hy
      · have hslot : s'.frame.slot y.dst = s₁.frame.slot y.dst := by
          refine FrameMemory.slot_congr fun a hle hlt => hkept a fun z hz => ?_
          have := apart hx.dst.1 (hrest z hz).dst.1 (hne z hz)
          omega
        rw [hslot, hs₁, FrameMemory.slot_setSlot]
      · rw [hstored y hy]
        cases y with
        | move ty dst src =>
          have hsrc := (hrest _ hy).src src rfl
          have hread : src ≠ x.dst := fun heq => hreads.1 _ hy (congrArg some heq)
          have hslot : s₁.frame.slot src = s.frame.slot src := by
            rw [hs₁]
            exact FrameMemory.slot_setSlot_apart _ _ _ _ (apart hx.dst.1 hsrc.1 hread.symm)
          exact congrArg ty.narrow hslot
        | reg ty dst src => rw [hs₁]; rfl
        | const => rfl
    · rw [hkept a fun y hy => ha y (mem_cons_of_mem _ hy), hs₁]
      exact FrameMemory.setSlot_apply _ _ _ (ha x mem_cons_self)

end FrameStore

/-! ## Moves between registers -/

namespace RegMove

/-- The value that is moved. -/
def value (s : DataState) (m : RegMove) : UInt64 := m.ty.narrow (s.regs m.src)

theorem moveData?_instr {m : RegMove} (hscalar : m.ty ≠ .v128) (s : DataState) :
    moveData? (m.instr : Instr τ) s =
      some { s with regs := Function.update s.regs m.dst (m.value s) } := by
  rw [instr, moveData?, if_neg hscalar]
  rfl

/-- The counts are those of the moves. -/
def Counts (uses : Reg → Nat) (ms : List RegMove) : Prop := ∀ r, uses r = sourceUses ms r

theorem Counts.perm {uses : Reg → Nat} {ms ms' : List RegMove} (h : Counts uses ms)
    (hperm : ms.Perm ms') : Counts uses ms' :=
  fun r => (h r).trans (hperm.countP_eq _)

theorem Counts.release {uses : Reg → Nat} {m : RegMove} {ms : List RegMove}
    (h : Counts uses (m :: ms)) : Counts (release uses m.src) ms := by
  intro r
  rw [RegMove.release, h r, sourceUses, sourceUses, countP_cons]
  by_cases hr : r = m.src
  · simp [hr]
  · simp [hr, Ne.symm hr]

/-- What one pass does: moves are done when nothing that is pending reads their destination. So they
read what was there before the pass, and so will the moves that are left. Those in `kept` were
passed over. -/
theorem moveAll?_sweep (uses : Reg → Nat) (kept pending : List RegMove)
    (hcounts : Counts uses (kept ++ pending)) (hscalar : ∀ m ∈ pending, m.ty ≠ .v128)
    (hdistinct : (pending.map dst).Nodup) (s : DataState) :
    Counts (sweep uses pending).2.2 (kept ++ (sweep uses pending).2.1) ∧
    ∃ s', moveAll? ((sweep uses pending).1.map (instr : RegMove → Instr τ)) s = some s' ∧
      s'.frame = s.frame ∧ (∀ m ∈ (sweep uses pending).1, s'.regs m.dst = m.value s) ∧
      (∀ m ∈ kept ++ (sweep uses pending).2.1, s'.regs m.src = s.regs m.src) ∧
      ∀ r ∉ (sweep uses pending).1.map dst, s'.regs r = s.regs r := by
  induction pending generalizing uses kept s with
  | nil => exact ⟨hcounts, s, rfl, rfl, by rintro _ ⟨⟩, fun _ _ => rfl, fun _ _ => rfl⟩
  | cons m rest ih =>
    have hscalar' : ∀ m' ∈ rest, m'.ty ≠ .v128 := fun m' hm' =>
      hscalar m' (mem_cons_of_mem _ hm')
    rw [map_cons, nodup_cons] at hdistinct
    rw [sweep]
    split
    next =>
      rw [← singleton_append, ← append_assoc] at hcounts
      simpa using ih uses (kept ++ [m]) hcounts hscalar' hdistinct.2 s
    next hunread =>
      have hcounts' : Counts uses (m :: (kept ++ rest)) := hcounts.perm perm_middle
      have hsrc : ∀ m' ∈ kept ++ rest, m'.src ≠ m.dst := by
        intro m' hm' heq
        have hpos : 0 < sourceUses (m :: (kept ++ rest)) m.dst :=
          countP_pos_iff.2 ⟨m', mem_cons_of_mem _ hm', by simpa using heq⟩
        rw [hcounts' m.dst] at hunread
        exact hunread hpos
      have hperm := perm_sweep (release uses m.src) rest
      obtain ⟨s₁, hs₁⟩ : ∃ s₁, s₁ = { s with regs := Function.update s.regs m.dst (m.value s) } :=
        ⟨_, rfl⟩
      obtain ⟨hcounts₁, s', hrun, hframe, hdone, hleft, hkept⟩ :=
        ih (release uses m.src) kept hcounts'.release hscalar' hdistinct.2 s₁
      have hregs : ∀ m' ∈ kept ++ rest, s₁.regs m'.src = s.regs m'.src := fun m' hm' => by
        rw [hs₁]
        exact Function.update_of_ne (hsrc m' hm') ..
      refine ⟨hcounts₁, s', ?_, ?_, fun m' hm' => ?_, fun m' hm' => ?_, fun r hr => ?_⟩
      · rw [map_cons, moveAll?, moveData?_instr (hscalar m mem_cons_self),
          Option.bind_some, ← hs₁, hrun]
      · rw [hframe, hs₁]
      · rcases mem_cons.1 hm' with rfl | hm'
        · have hnot : m'.dst ∉ (sweep (release uses m'.src) rest).1.map dst :=
            fun hmem => hdistinct.1
            ((hperm.map dst).subset (by rw [map_append]; exact mem_append_left _ hmem))
          rw [hkept _ hnot, hs₁]
          exact Function.update_self ..
        · rw [hdone m' hm', value,
            hregs m' (mem_append_right _ (hperm.subset (mem_append_left _ hm'))), value]
      · have hmem : m' ∈ kept ++ rest := (mem_append.1 hm').elim (mem_append_left _) fun hm' =>
          mem_append_right _ (hperm.subset (mem_append_right _ hm'))
        rw [hleft m' hm', hregs m' hmem]
      · rw [map_cons, mem_cons, not_or] at hr
        rw [hkept r hr.2, hs₁]
        exact Function.update_of_ne hr.1 ..

end RegMove

/-- How the code for pending moves ends: each destination holds its value or will be loaded with
it. -/
structure MoveCode.Resolves (c : MoveCode τ) (pending : List RegMove) (deepest : Nat)
    (s s' : DataState) : Prop where
  runs : moveAll? c.code s = some s'
  frame : ∀ a : Int, -deepest ≤ a → s'.frame a = s.frame a
  regs : ∀ r ∉ pending.map RegMove.dst, s'.regs r = s.regs r
  loads : (c.loads.map RegLoad.dst).Nodup ∧ c.loads.map RegLoad.dst ⊆ pending.map RegMove.dst
  places : ∀ l ∈ c.loads, l.ty ≠ .v128 ∧ ∀ o, l.place? = some o → o ≤ c.deepest
  moved : ∀ m ∈ pending, (m.dst ∉ c.loads.map RegLoad.dst ∧ s'.regs m.dst = m.value s) ∨
    ∃ l ∈ c.loads, l.dst = m.dst ∧ l.value s' = m.value s

theorem le_deepest_resolveMoves (uses : Reg → Nat) (pending : List RegMove) (deepest : Nat) :
    deepest ≤ (resolveMoves uses pending deepest : MoveCode τ).deepest := by
  fun_induction resolveMoves (τ := τ) uses pending deepest with
  | case1 => exact Nat.le_refl _
  | case2 uses deepest m left h place later ih => exact Nat.le_trans (Nat.le_add_right _ _) ih
  | case3 uses pending deepest h _ swept later ih => exact ih

/-- A pass that does something is followed by the moves that are left, a cycle is opened by parking
one value below everything else. -/
theorem resolveMoves_resolves (uses : Reg → Nat) (pending : List RegMove) (deepest : Nat)
    (hcounts : RegMove.Counts uses pending) (hscalar : ∀ m ∈ pending, m.ty ≠ .v128)
    (hdistinct : (pending.map RegMove.dst).Nodup)
    (hsmall : (resolveMoves uses pending deepest : MoveCode τ).deepest < UInt32.size)
      (s : DataState) :
    ∃ s', (resolveMoves uses pending deepest : MoveCode τ).Resolves pending deepest s s' := by
  fun_induction resolveMoves (τ := τ) uses pending deepest generalizing s with
  | case1 => exact ⟨s, rfl, fun _ _ => rfl, fun _ _ => rfl, ⟨nodup_nil, nofun⟩, nofun, nofun⟩
  | case2 uses deepest m left h place later ih =>
    rw [map_cons, nodup_cons] at hdistinct
    have hplace : place ≤ later.deepest := le_deepest_resolveMoves _ left place
    have hm := hscalar m mem_cons_self
    obtain ⟨s₁, hs₁⟩ : ∃ s₁, s₁ = { s with frame := s.frame.setSlot place (m.value s) } := ⟨_, rfl⟩
    obtain ⟨s', h'⟩ := ih hcounts.release (fun m' hm' => hscalar m' (mem_cons_of_mem _ hm'))
      hdistinct.2 hsmall s₁
    have hparked : s'.frame.slot place = m.value s := by
      rw [FrameMemory.slot_congr fun a hle _ => h'.frame a hle, hs₁, FrameMemory.slot_setSlot]
    have hvalue : ∀ m' : RegMove, m'.value s₁ = m'.value s := fun m' => by
      rw [hs₁]
      rfl
    refine ⟨s', ?_, fun a ha => ?_, fun r hr => ?_, ⟨?_, ?_⟩, fun l hl => ?_, fun m' hm' => ?_⟩
    · have hspill : moveData? (.spill m.ty (.ofNat place) m.src : Instr τ) s = some s₁ := by
        rw [moveData?, if_neg hm, UInt32.toNat_ofNat_of_lt' (Nat.lt_of_le_of_lt hplace hsmall), hs₁]
        rfl
      rw [moveAll?, hspill, Option.bind_some, h'.runs]
    · rw [h'.frame a (by omega), hs₁]
      exact FrameMemory.setSlot_apply _ _ _ (.inr (by simp only [place, parkingSize]; omega))
    · rw [map_cons, mem_cons, not_or] at hr
      rw [h'.regs r hr.2, hs₁]
    · rw [map_cons, nodup_cons]
      exact ⟨fun hmem => hdistinct.1 (h'.loads.2 hmem), h'.loads.1⟩
    · exact cons_subset_cons _ h'.loads.2
    · rcases mem_cons.1 hl with rfl | hl
      · refine ⟨hm, fun o ho => ?_⟩
        cases ho
        exact hplace
      · exact h'.places l hl
    · rcases mem_cons.1 hm' with rfl | hm'
      · refine .inr ⟨_, mem_cons_self, rfl, ?_⟩
        show m'.ty.narrow (s'.frame.slot place) = _
        rw [hparked, RegMove.value, ValueType.narrow_narrow]
      · have hne : m'.dst ≠ m.dst := fun heq => hdistinct.1 (heq ▸ mem_map_of_mem hm')
        rcases h'.moved m' hm' with ⟨hnot, hmoved⟩ | ⟨l, hl, hdst, hload⟩
        · refine .inl ⟨fun hmem => ?_, hmoved.trans (hvalue m')⟩
          rcases mem_cons.1 hmem with heq | hmem
          · exact hne heq
          · exact hnot hmem
        · exact .inr ⟨l, mem_cons_of_mem _ hl, hdst, hload.trans (hvalue m')⟩
  | case3 uses pending deepest h _ swept later ih =>
    have hperm : (swept.1 ++ swept.2.1).Perm pending := RegMove.perm_sweep uses pending
    have hdst := hperm.map RegMove.dst
    rw [map_append] at hdst
    have hapart := nodup_append'.1 (hdst.nodup_iff.2 hdistinct)
    obtain ⟨hcounts', s₁, hrun, hframe, hdone, hleft, hkept⟩ :=
      RegMove.moveAll?_sweep (τ := τ) uses [] pending hcounts hscalar hdistinct s
    obtain ⟨s', h'⟩ := ih hcounts' (fun m hm => hscalar m (hperm.subset (mem_append_right _ hm)))
      hapart.2.1 hsmall s₁
    refine ⟨s', ?_, fun a ha => ?_, fun r hr => ?_, ⟨h'.loads.1, fun r hr => ?_⟩,
      h'.places, fun m hm => ?_⟩
    · rw [moveAll?_append hrun, h'.runs]
    · rw [h'.frame a ha, hframe]
    · rw [h'.regs r fun hmem => hr (hdst.subset (mem_append_right _ hmem)),
        hkept r fun hmem => hr (hdst.subset (mem_append_left _ hmem))]
    · exact hdst.subset (mem_append_right _ (h'.loads.2 hr))
    · rcases mem_append.1 (hperm.symm.subset hm) with hm | hm
      · have hnot : m.dst ∉ swept.2.1.map RegMove.dst :=
          disjoint_left.1 hapart.2.2 (mem_map_of_mem hm)
        exact .inl ⟨fun hmem => hnot (h'.loads.2 hmem), (h'.regs _ hnot).trans (hdone m hm)⟩
      · have hvalue : m.value s₁ = m.value s := by rw [RegMove.value, hleft m hm, RegMove.value]
        rw [← hvalue]
        exact h'.moved m hm

/-! ## Values put away before the stores -/

theorem exists_of_forall₂ {α β : Type} {R : α → β → Prop} {xs : List α} {ys : List β}
    (h : Forall₂ R xs ys) {x : α} (hx : x ∈ xs) : ∃ y ∈ ys, R x y := by
  induction h with
  | nil => cases hx
  | cons hxy _ ih =>
    rcases mem_cons.1 hx with rfl | hx
    · exact ⟨_, mem_cons_self, hxy⟩
    · obtain ⟨y, hy, hxy⟩ := ih hx
      exact ⟨y, mem_cons_of_mem _ hy, hxy⟩

/-- What a load has become: it loads the same value, from a slot that no store overwrites. -/
structure RegLoad.Follows (stores : List FrameStore) (base deepest : Nat) (s s' : DataState)
    (l l' : RegLoad) : Prop where
  dst : l'.dst = l.dst
  ty : l'.ty = l.ty
  value : l'.value s' = l.value s
  place : ∀ o, l'.place? = some o → o ≤ deepest ∧ ((8 ∣ o ∧ ∀ x ∈ stores, x.dst ≠ o) ∨ base + 8 ≤ o)

namespace Transfer

theorem le_deepest_rescue (stores : List FrameStore) (loads : List RegLoad) (deepest : Nat) :
    deepest ≤ (rescue stores loads deepest : MoveCode τ).deepest := by
  fun_induction rescue (τ := τ) stores loads deepest with
  | case1 => exact Nat.le_refl _
  | case2 ty dst offset rest deepest _ place later ih =>
    exact Nat.le_trans (Nat.le_add_right _ _) ih
  | case3 ty dst offset rest deepest _ later ih => exact ih
  | case4 load rest deepest _ later ih => exact ih

/-- Slots that are put away go below everything else, so all others stay as they are: as the code
goes on, the frame down to `base` is still that of `s₀`. -/
theorem rescue_follows {base : Nat} {s₀ : DataState}
    (loads : List RegLoad) (deepest : Nat) (hbase : base ≤ deepest)
      (hscalar : ∀ l ∈ loads, l.ty ≠ .v128)
    (hplaces : ∀ l ∈ loads, ∀ o, l.place? = some o → 8 ∣ o ∧ o ≤ base)
    (hsmall : (rescue stores loads deepest : MoveCode τ).deepest < UInt32.size) (s : DataState)
    (hsame : ∀ a : Int, -base ≤ a → s.frame a = s₀.frame a) :
    ∃ s', moveAll? (rescue stores loads deepest : MoveCode τ).code s = some s' ∧ s'.regs = s.regs ∧
      (∀ a : Int, -deepest ≤ a → s'.frame a = s.frame a) ∧
      Forall₂ (RegLoad.Follows stores base (rescue stores loads deepest : MoveCode τ).deepest s₀ s')
        loads (rescue stores loads deepest : MoveCode τ).loads := by
  fun_induction rescue (τ := τ) stores loads deepest generalizing s with
  | case1 => exact ⟨s, rfl, rfl, fun _ _ => rfl, .nil⟩
  | case2 ty dst offset rest deepest hread place later ih =>
    have hplace : place ≤ later.deepest := le_deepest_rescue stores rest place
    have hoffset : offset ≤ base := (hplaces _ mem_cons_self offset rfl).2
    have hty : ty ≠ .v128 := hscalar _ mem_cons_self
    have hdeep : place = deepest + 8 := rfl
    have hsmall' : later.deepest < UInt32.size := hsmall
    obtain ⟨s₁, hs₁⟩ : ∃ s₁, s₁ = s.setSlot ty place (s.frame.slot offset) := ⟨_, rfl⟩
    have hframe₁ : ∀ a : Int, -deepest ≤ a → s₁.frame a = s.frame a := fun a ha => by
      rw [hs₁]
      exact FrameMemory.setSlot_apply _ _ _ (.inr (by omega))
    obtain ⟨s', hrun, hregs, hframe, hfollows⟩ :=
      ih (by omega) (fun l hl => hscalar l (mem_cons_of_mem _ hl))
      (fun l hl => hplaces l (mem_cons_of_mem _ hl)) hsmall s₁
      (fun a ha => (hframe₁ a (by omega)).trans (hsame a ha))
    refine ⟨s', ?_, ?_, fun a ha => ?_, .cons ⟨rfl, rfl, ?_, fun o ho => ?_⟩ hfollows⟩
    · have hmove : moveData? (.moveStackValue ty (.ofNat place) (.ofNat offset) : Instr τ) s =
          some s₁ := by
        rw [moveData?, if_neg hty, UInt32.toNat_ofNat_of_lt' (by omega),
          UInt32.toNat_ofNat_of_lt' (by omega), hs₁]
      rw [moveAll?, hmove, Option.bind_some, hrun]
    · rw [hregs, hs₁]
      rfl
    · rw [hframe a (by omega), hframe₁ a ha]
    · show ty.narrow (s'.frame.slot place) = ty.narrow (s₀.frame.slot offset)
      rw [FrameMemory.slot_congr fun a hle _ => hframe a hle, hs₁, DataState.setSlot,
        FrameMemory.slot_setSlot, ValueType.narrow_narrow,
        FrameMemory.slot_congr fun a hle _ => hsame a (by omega)]
    · cases ho
      exact ⟨hplace, .inr (by omega)⟩
  | case3 ty dst offset rest deepest hunread later ih =>
    have hplace := hplaces _ mem_cons_self offset rfl
    have hdeep : deepest ≤ later.deepest := le_deepest_rescue stores rest deepest
    obtain ⟨s', hrun, hregs, hframe, hfollows⟩ :=
      ih hbase (fun l hl => hscalar l (mem_cons_of_mem _ hl))
      (fun l hl => hplaces l (mem_cons_of_mem _ hl)) hsmall s hsame
    refine ⟨s', hrun, hregs, hframe, .cons ⟨rfl, rfl, ?_, fun o ho => ?_⟩ hfollows⟩
    · refine RegLoad.value_congr fun o ho => FrameMemory.slot_congr fun a hle _ => ?_
      cases ho
      rw [hframe a (by omega), hsame a (by omega)]
    · cases ho
      have hle : offset ≤ later.deepest := Nat.le_trans hplace.2 (Nat.le_trans hbase hdeep)
      exact ⟨hle, .inl ⟨hplace.1, fun x hx heq =>
        hunread (any_eq_true.2 ⟨x, hx, by simpa using heq⟩)⟩⟩
  | case4 load rest deepest hload later ih =>
    obtain ⟨s', hrun, hregs, hframe, hfollows⟩ :=
      ih hbase (fun l hl => hscalar l (mem_cons_of_mem _ hl))
      (fun l hl => hplaces l (mem_cons_of_mem _ hl)) hsmall s hsame
    have hconst : load.place? = none := by
      cases load with
      | const => rfl
      | stack ty dst offset => exact (hload ty dst offset rfl).elim
    refine ⟨s', hrun, hregs, hframe, .cons ⟨rfl, rfl, ?_, fun o ho => ?_⟩ hfollows⟩
    · exact RegLoad.value_congr fun o ho => by cases hconst.symm.trans ho
    · cases hconst.symm.trans ho

end Transfer

/-! ## The deepest slot -/

/-- The code writes no deeper than `d'`, and if that is deeper than `d`, it writes there. -/
structure Deepens (code : List (Instr τ)) (d d' : Nat) : Prop where
  le : d ≤ d'
  written : ∀ o ∈ code.filterMap slotWritten?, o ≤ d'
  reached : d < d' → d' ∈ code.filterMap slotWritten?

namespace Deepens

variable {code code' : List (Instr τ)} {d d' d'' : Nat}

theorem of_written (h : ∀ o ∈ code.filterMap slotWritten?, o ≤ d) : Deepens code d d :=
  ⟨Nat.le_refl _, h, fun hlt => (Nat.lt_irrefl _ hlt).elim⟩

theorem append (h : Deepens code d d') (h' : Deepens code' d' d'') :
    Deepens (code ++ code') d d'' := by
  refine ⟨Nat.le_trans h.le h'.le, fun o ho => ?_, fun hlt => ?_⟩
  · rw [filterMap_append] at ho
    rcases mem_append.1 ho with ho | ho
    · exact Nat.le_trans (h.written o ho) h'.le
    · exact h'.written o ho
  · rw [filterMap_append]
    rcases Nat.lt_or_ge d' d'' with hdeeper | hsame
    · exact mem_append_right _ (h'.reached hdeeper)
    · obtain rfl := Nat.le_antisymm hsame h'.le
      exact mem_append_left _ (h.reached hlt)

/-- One slot below all others is written first. -/
theorem cons {i : Instr τ} (hi : i.slotWritten? = some (d + parkingSize))
    (h : Deepens code (d + parkingSize) d') : Deepens (i :: code) d d' := by
  have hle := h.le
  simp only [parkingSize] at hle
  refine ⟨by omega, fun o ho => ?_, fun _ => ?_⟩
  · rw [filterMap_cons_some hi] at ho
    rcases mem_cons.1 ho with rfl | ho
    · exact h.le
    · exact h.written o ho
  · rw [filterMap_cons_some hi]
    rcases Nat.lt_or_ge (d + parkingSize) d' with hdeeper | hsame
    · exact mem_cons_of_mem _ (h.reached hdeeper)
    · rw [Nat.le_antisymm hsame h.le]
      exact mem_cons_self

end Deepens

/-- All that is written lies below `d`. -/
structure Parks (code : List (Instr τ)) (d d' : Nat) : Prop extends Deepens code d d' where
  below : ∀ o ∈ code.filterMap slotWritten?, d < o

namespace Parks

variable {code code' : List (Instr τ)} {d d' : Nat}

theorem of_unwritten (h : code.filterMap slotWritten? = []) : Parks code d d :=
  ⟨.of_written (h ▸ forall_mem_nil _), h ▸ forall_mem_nil _⟩

theorem append (h : Parks code d d) (h' : Parks code' d d') : Parks (code ++ code') d d' := by
  refine ⟨h.toDeepens.append h'.toDeepens, fun o ho => ?_⟩
  rw [filterMap_append] at ho
  exact (mem_append.1 ho).elim (h.below o) (h'.below o)

/-- A value is put aside before all others. -/
theorem cons {i : Instr τ} (hi : i.slotWritten? = some (UInt32.ofNat (d + parkingSize)).toNat)
    (hsmall : d' < UInt32.size) (h : Parks code (d + parkingSize) d') : Parks (i :: code) d d' := by
  rw [UInt32.toNat_ofNat_of_lt' (Nat.lt_of_le_of_lt h.le hsmall)] at hi
  have hplace : d < d + parkingSize := Nat.lt_add_of_pos_right (by decide)
  refine ⟨h.toDeepens.cons hi, fun o ho => ?_⟩
  rw [filterMap_cons_some hi] at ho
  rcases mem_cons.1 ho with rfl | ho
  · exact hplace
  · exact Nat.lt_trans hplace (h.below o ho)

end Parks

theorem parks_rescue (stores : List FrameStore) (loads : List RegLoad) (deepest : Nat)
    (hsmall : (Transfer.rescue stores loads deepest : MoveCode τ).deepest < UInt32.size) :
    Parks (Transfer.rescue stores loads deepest : MoveCode τ).code deepest
      (Transfer.rescue stores loads deepest : MoveCode τ).deepest := by
  fun_induction Transfer.rescue (τ := τ) stores loads deepest with
  | case1 => exact .of_unwritten rfl
  | case2 ty dst offset rest deepest _ place later ih => exact .cons rfl hsmall (ih hsmall)
  | case3 ty dst offset rest deepest _ later ih => exact ih hsmall
  | case4 load rest deepest _ later ih => exact ih hsmall

theorem parks_resolveMoves (uses : Reg → Nat) (pending : List RegMove) (deepest : Nat)
    (hsmall : (resolveMoves uses pending deepest : MoveCode τ).deepest < UInt32.size) :
    Parks (resolveMoves uses pending deepest : MoveCode τ).code deepest
      (resolveMoves uses pending deepest : MoveCode τ).deepest := by
  fun_induction resolveMoves (τ := τ) uses pending deepest with
  | case1 => exact .of_unwritten rfl
  | case2 uses deepest m left h place later ih => exact .cons rfl hsmall (ih hsmall)
  | case3 uses pending deepest h _ swept later ih =>
    refine .append (.of_unwritten ?_) (ih hsmall)
    rw [filterMap_map]
    exact filterMap_eq_nil_iff.2 fun _ _ => rfl

/-! ## Whole transfers -/

/-- A place that holds one value. -/
inductive Place where
  | reg (r : Reg)
  | frame (offset : Nat)
  deriving DecidableEq, Repr

/-- Where the value of a slot is kept. A constant is kept nowhere. -/
def Slot.place? (slot : Slot) : Option Place :=
  match slot.loc with
  | .reg r => some (.reg r)
  | .stack => some (.frame slot.offset)
  | .const _ => none

namespace Transfer

/-- The store that a target slot and its source ask for. -/
def storeOf? (p : Slot × Slot) : Option FrameStore :=
  match p.1.loc, p.2.loc with
  | .stack, .stack =>
    if p.2.offset = p.1.offset then none else some (.move p.1.ty p.1.offset p.2.offset)
  | .stack, .reg r => some (.reg p.1.ty p.1.offset r)
  | .stack, .const value => some (.const p.1.ty p.1.offset value)
  | _, _ => none

/-- The move between registers. -/
def moveOf? (p : Slot × Slot) : Option RegMove :=
  match p.1.loc, p.2.loc with
  | .reg dst, .reg src => if src = dst then none else some ⟨p.2.ty, dst, src⟩
  | _, _ => none

/-- The load of a register. -/
def loadOf? (p : Slot × Slot) : Option RegLoad :=
  match p.1.loc, p.2.loc with
  | .reg dst, .const value => some (.const p.2.ty dst value)
  | .reg dst, .stack => some (.stack p.2.ty dst p.2.offset)
  | _, _ => none

theorem add_eq (t : Transfer) (p : Slot × Slot) : t.add p.1 p.2 = { t with
      stores := t.stores ++ (storeOf? p).toList
      moves := t.moves ++ (moveOf? p).toList
      loads := t.loads ++ (loadOf? p).toList } := by
  obtain ⟨⟨ty, loc, offset⟩, ⟨ty', loc', offset'⟩⟩ := p
  cases loc <;> cases loc' <;> simp only [add, store, load, storeOf?, moveOf?, loadOf?] <;>
    (try split) <;> simp

theorem ofSlots_eq (base : Nat) (pairs : List (Slot × Slot)) :
    ofSlots base pairs = ⟨pairs.filterMap storeOf?, pairs.filterMap moveOf?,
      pairs.filterMap loadOf?, base⟩ := by
  have hfold : ∀ t : Transfer, pairs.foldl (fun t p => t.add p.1 p.2) t = { t with
      stores := t.stores ++ pairs.filterMap storeOf?
      moves := t.moves ++ pairs.filterMap moveOf?
      loads := t.loads ++ pairs.filterMap loadOf? } := by
    induction pairs with
    | nil => simp
    | cons p rest ih =>
      intro t
      rw [foldl_cons, ih, add_eq]
      cases hs : storeOf? p <;> cases hm : moveOf? p <;> cases hl : loadOf? p <;>
        simp [hs, hm, hl]
  refine (hfold { deepest := base }).trans ?_
  simp

/-- The place that is to hold the value of the source. -/
def target? (p : Slot × Slot) : Option Place := p.1.place?

/-- What is asked of targets and sources: scalars of the same type in slots that do not overlap,
none deeper than `base`; every target is one only once; and what one store writes, no later one
copies. -/
structure Sound (base : Nat) (pairs : List (Slot × Slot)) : Prop where
  types : ∀ p ∈ pairs, p.1.ty = p.2.ty ∧ p.1.ty ≠ .v128
  places : ∀ p ∈ pairs, (8 ∣ p.1.offset ∧ p.1.offset ≤ base) ∧ 8 ∣ p.2.offset ∧ p.2.offset ≤ base
  targets : (pairs.filterMap target?).Nodup
  copies : (pairs.filterMap storeOf?).Pairwise fun x y => y.src? ≠ some x.dst

section

variable {base : Nat} {pairs : List (Slot × Slot)} {p q : Slot × Slot}
    {x : FrameStore} {m : RegMove}
  {l : RegLoad}

theorem storeOf?_eq_some (h : storeOf? p = some x) : p.1.loc = .stack ∧ x.dst = p.1.offset ∧
    x.ty = p.1.ty ∧ (∀ o, x.src? = some o → o = p.2.offset) ∧
    (p.1.ty = p.2.ty → ∀ s, x.value s = s.value p.2) := by
  obtain ⟨⟨ty, loc, offset⟩, ⟨ty', loc', offset'⟩⟩ := p
  cases loc <;> cases loc' <;> simp only [storeOf?, reduceCtorEq] at h
  case stack.stack =>
    split at h <;> cases h
    refine ⟨rfl, rfl, rfl, fun o ho => (Option.some.inj ho).symm, fun hty s => ?_⟩
    obtain rfl : ty = ty' := hty
    rfl
  all_goals
    cases h
    refine ⟨rfl, rfl, rfl, nofun, fun hty s => ?_⟩
    obtain rfl : ty = ty' := hty
    rfl

theorem moveOf?_eq_some (h : moveOf? p = some m) : p.1.loc = .reg m.dst ∧ p.2.loc = .reg m.src ∧
    m.ty = p.2.ty := by
  obtain ⟨⟨ty, loc, offset⟩, ⟨ty', loc', offset'⟩⟩ := p
  cases loc <;> cases loc' <;> simp only [moveOf?, reduceCtorEq] at h
  split at h <;> cases h
  exact ⟨rfl, rfl, rfl⟩

theorem loadOf?_eq_some (h : loadOf? p = some l) : p.1.loc = .reg l.dst ∧ p.2.reg? = none ∧
    l.ty = p.2.ty ∧ (∀ o, l.place? = some o → o = p.2.offset) ∧ ∀ s, l.value s = s.value p.2 := by
  obtain ⟨⟨ty, loc, offset⟩, ⟨ty', loc', offset'⟩⟩ := p
  cases loc <;> cases loc' <;> simp only [loadOf?, reduceCtorEq] at h <;> cases h
  · exact ⟨rfl, rfl, rfl, nofun, fun _ => rfl⟩
  · exact ⟨rfl, rfl, rfl, fun o ho => (Option.some.inj ho).symm, fun _ => rfl⟩

variable {r : Reg}

theorem target?_of_reg (h : p.1.loc = .reg r) : target? p = some (.reg r) := by
  simp only [target?, Slot.place?, h]

theorem target?_of_stack (h : p.1.loc = .stack) : target? p = some (.frame p.1.offset) := by
  simp only [target?, Slot.place?, h]

namespace Sound

section

variable (h : Sound base pairs)
include h

/-- A place is the target of one source only. -/
theorem eq_of_target (hp : p ∈ pairs) (hq : q ∈ pairs) {place : Place}
    (hpp : target? p = some place) (hqq : target? q = some place) : p = q := by
  have hpairs := pairwise_iff_getElem.1 (pairwise_filterMap.1 h.targets)
  obtain ⟨i, hi, rfl⟩ := getElem_of_mem hp
  obtain ⟨j, hj, rfl⟩ := getElem_of_mem hq
  rcases Nat.lt_trichotomy i j with hij | rfl | hij
  · exact (hpairs i j hi hj hij place hpp place hqq rfl).elim
  · rfl
  · exact (hpairs j i hj hi hij place hqq place hpp rfl).elim

/-- Targets of a kind are different since all targets are. -/
theorem nodup_map {α β : Type} {f : Slot × Slot → Option α} {g : α → β}
    {k : β → Place} (hf : ∀ p x, f p = some x → target? p = some (k (g x))) :
    ((pairs.filterMap f).map g).Nodup := by
  have hsub : (((pairs.filterMap f).map g).map k).Sublist (pairs.filterMap target?) := by
    clear h
    induction pairs with
    | nil => exact Sublist.slnil
    | cons p rest ih =>
      cases hp : f p with
      | none =>
        rw [filterMap_cons_none hp]
        cases hplace : target? p with
        | none => rwa [filterMap_cons_none hplace]
        | some place =>
          rw [filterMap_cons_some hplace]
          exact ih.cons _
      | some x =>
        rw [filterMap_cons_some hp, filterMap_cons_some (hf p x hp)]
        exact ih.cons_cons _
  exact Nodup.of_map _ (hsub.nodup h.targets)

theorem nodup_stores : ((pairs.filterMap storeOf?).map FrameStore.dst).Nodup :=
  h.nodup_map (k := Place.frame) fun p x hx => by
    obtain ⟨hloc, hdst, -⟩ := storeOf?_eq_some hx
    rw [target?_of_stack hloc, hdst]

theorem nodup_moves : ((pairs.filterMap moveOf?).map RegMove.dst).Nodup :=
  h.nodup_map (k := Place.reg) fun _ _ hm => target?_of_reg (moveOf?_eq_some hm).1

theorem nodup_loads : ((pairs.filterMap loadOf?).map RegLoad.dst).Nodup :=
  h.nodup_map (k := Place.reg) fun _ _ hl => target?_of_reg (loadOf?_eq_some hl).1

theorem within : ∀ x ∈ pairs.filterMap storeOf?, x.Within base := by
  intro x hx
  obtain ⟨p, hp, hpx⟩ := mem_filterMap.1 hx
  obtain ⟨-, hdst, hty, hsrc, -⟩ := storeOf?_eq_some hpx
  refine ⟨hty ▸ (h.types p hp).2, hdst ▸ (h.places p hp).1, fun o ho => ?_⟩
  rw [hsrc o ho]
  exact (h.places p hp).2

/-- The pair that a move or a load comes from. -/
theorem eq_of_dst (hp : p ∈ pairs) (hr : p.1.loc = .reg r) :
    (∀ m ∈ pairs.filterMap moveOf?, m.dst = r → moveOf? p = some m) ∧
      ∀ l ∈ pairs.filterMap loadOf?, l.dst = r → loadOf? p = some l := by
  constructor
  · rintro m hm rfl
    obtain ⟨q, hq, hqm⟩ := mem_filterMap.1 hm
    rwa [h.eq_of_target hp hq (target?_of_reg hr) (target?_of_reg (moveOf?_eq_some hqm).1)]
  · rintro l hl rfl
    obtain ⟨q, hq, hql⟩ := mem_filterMap.1 hl
    rwa [h.eq_of_target hp hq (target?_of_reg hr) (target?_of_reg (loadOf?_eq_some hql).1)]

/-- No register is both moved to and loaded. -/
theorem disjoint : ∀ m ∈ pairs.filterMap moveOf?,
    m.dst ∉ (pairs.filterMap loadOf?).map RegLoad.dst := by
  intro m hm hmem
  obtain ⟨l, hl, hdst⟩ := mem_map.1 hmem
  obtain ⟨p, hp, hpm⟩ := mem_filterMap.1 hm
  obtain ⟨hloc, hsrc, -⟩ := moveOf?_eq_some hpm
  have hload := (h.eq_of_dst hp hloc).2 l hl hdst
  have hnone := (loadOf?_eq_some hload).2.1
  simp [Slot.reg?, hsrc, Location.reg?] at hnone

end

end Sound

/-- How the code of a transfer ends. -/
structure Performs (base : Nat) (pairs : List (Slot × Slot)) (s s' : DataState) : Prop where
  moved : ∀ p ∈ pairs, target? p ≠ none → s'.value p.1 = s.value p.2
  regs : ∀ r, (∀ p ∈ pairs, target? p ≠ some (.reg r)) → s'.regs r = s.regs r
  frame : ∀ a : Int, -base ≤ a →
    (∀ p ∈ pairs, ∀ o : Nat, target? p = some (.frame o) → a < -o ∨ -o + 8 ≤ a) →
    s'.frame a = s.frame a
  words : ∀ p ∈ pairs, ∀ r, p.1.loc = .reg r →
    p.2.loc = .reg r ∧ s'.regs r = s.regs r ∨ s'.regs r = s.value p.2

/-- The states between the stages: after putting slots away, after the stores, after the moves and
after the loads. -/
structure Stages (base : Nat) (pairs : List (Slot × Slot)) (rescued moved : MoveCode τ)
    (s s₁ s₂ s₃ s₄ : DataState) : Prop where
  deep : base ≤ rescued.deepest
  putAway : s₁.regs = s.regs ∧ ∀ a : Int, -base ≤ a → s₁.frame a = s.frame a
  follows : Forall₂ (RegLoad.Follows (pairs.filterMap storeOf?) base rescued.deepest s s₁)
    (pairs.filterMap loadOf?) rescued.loads
  stored : s₂.regs = s₁.regs ∧ (∀ x ∈ pairs.filterMap storeOf?, s₂.frame.slot x.dst = x.value s₁) ∧
    ∀ a : Int, (∀ x ∈ pairs.filterMap storeOf?, a < -x.dst ∨ -x.dst + 8 ≤ a) →
      s₂.frame a = s₁.frame a
  resolves : moved.Resolves (pairs.filterMap moveOf?) rescued.deepest s₂ s₃
  loaded : s₄.frame = s₃.frame ∧ (∀ l ∈ rescued.loads ++ moved.loads, s₄.regs l.dst = l.value s₃) ∧
    ∀ r ∉ (rescued.loads ++ moved.loads).map RegLoad.dst, s₄.regs r = s₃.regs r

namespace Stages

variable {rescued moved : MoveCode τ} {s s₁ s₂ s₃ s₄ : DataState} {loads loads' : List RegLoad}
  {deepest : Nat}

/-- Loads keep their destinations when slots are put away. -/
theorem map_dst_of_follows (h : Forall₂ (RegLoad.Follows stores base deepest s s₁) loads loads') :
    loads'.map RegLoad.dst = loads.map RegLoad.dst := by
  induction h with
  | nil => rfl
  | cons hl _ ih => rw [map_cons, map_cons, hl.dst, ih]

section

variable (h : Stages base pairs rescued moved s s₁ s₂ s₃ s₄)
include h

variable {a : Int}

/-- Moves and loads change nothing down to the deepest slot that was put away. -/
theorem frame_stored (ha : -rescued.deepest ≤ a) : s₄.frame a = s₂.frame a := by
  rw [h.loaded.1, h.resolves.frame a ha]

theorem frame_outside (ha : -base ≤ a)
    (hout : ∀ x ∈ pairs.filterMap storeOf?, a < -x.dst ∨ -x.dst + 8 ≤ a) :
      s₄.frame a = s.frame a := by
  have hdeep := h.deep
  rw [h.frame_stored (by omega), h.stored.2.2 a hout, h.putAway.2 a ha]

theorem reg_outside (hmoves : r ∉ (pairs.filterMap moveOf?).map RegMove.dst)
    (hloads : r ∉ (pairs.filterMap loadOf?).map RegLoad.dst) : s₄.regs r = s.regs r := by
  rw [h.loaded.2.2, h.resolves.regs r hmoves, h.stored.1, h.putAway.1]
  rw [map_append, map_dst_of_follows h.follows, mem_append, not_or]
  exact ⟨hloads, fun hmem => hmoves (h.resolves.loads.2 hmem)⟩

section

variable (hsound : Sound base pairs)
include hsound

theorem slot_of_store (hx : x ∈ pairs.filterMap storeOf?) : s₄.frame.slot x.dst = x.value s := by
  have hdeep := h.deep
  have hwithin := hsound.within x hx
  have hdst := hwithin.dst.2
  rw [FrameMemory.slot_congr fun a hle _ => h.frame_stored (by omega), h.stored.2.1 x hx]
  cases x with
  | move ty dst src =>
    have hsrc := (hwithin.src src rfl).2
    exact congrArg ty.narrow (FrameMemory.slot_congr fun a hle _ => h.putAway.2 a (by omega))
  | reg ty dst src => rw [FrameStore.value, h.putAway.1, FrameStore.value]
  | const => rfl

/-- What is loaded is what was there before, since the stores do not overwrite it. -/
theorem reg_of_load (hl : l ∈ pairs.filterMap loadOf?) : s₄.regs l.dst = l.value s := by
  obtain ⟨l', hl', hfollows⟩ := exists_of_forall₂ h.follows hl
  rw [← hfollows.dst, h.loaded.2.1 l' (mem_append_left _ hl'), ← hfollows.value]
  refine RegLoad.value_congr fun o ho => FrameMemory.slot_congr fun a hle hlt => ?_
  obtain ⟨hdeep, hplace⟩ := hfollows.place o ho
  rw [← h.loaded.1, h.frame_stored (by omega)]
  refine h.stored.2.2 a fun x hx => ?_
  have hdst := (hsound.within x hx).dst
  rcases hplace with ⟨haligned, hne⟩ | hbelow
  · have hapart := FrameStore.apart hdst.1 haligned (hne x hx)
    omega
  · omega

theorem reg_of_move (hm : m ∈ pairs.filterMap moveOf?) : s₄.regs m.dst = m.value s := by
  have hvalue : m.value s₂ = m.value s := by
    rw [RegMove.value, h.stored.1, h.putAway.1, RegMove.value]
  rcases h.resolves.moved m hm with ⟨hnot, hmoved⟩ | ⟨l, hl, hdst, hload⟩
  · rw [h.loaded.2.2, hmoved, hvalue]
    rw [map_append, map_dst_of_follows h.follows, mem_append, not_or]
    exact ⟨hsound.disjoint m hm, hnot⟩
  · rw [← hdst, h.loaded.2.1 l (mem_append_right _ hl), hload, hvalue]

theorem value_of_stack (hp : p ∈ pairs) (hloc : p.1.loc = .stack) : s₄.value p.1 = s.value p.2 := by
  obtain ⟨hty, -⟩ := hsound.types p hp
  cases hstore : storeOf? p with
  | some x =>
    obtain ⟨-, hdst, hxty, -, hvalue⟩ := storeOf?_eq_some hstore
    have hslot := h.slot_of_store hsound (mem_filterMap.2 ⟨p, hp, hstore⟩)
    rw [hdst, hvalue hty] at hslot
    simp only [DataState.value, hloc, hslot, hty, ValueType.narrow_narrow]
  | none =>
    -- The value is in its place already.
    obtain ⟨hsrc, hoffset⟩ : p.2.loc = .stack ∧ p.2.offset = p.1.offset := by
      unfold storeOf? at hstore
      rw [hloc] at hstore
      cases hsrc : p.2.loc <;> simp only [hsrc, reduceCtorEq] at hstore
      split at hstore
      next heq => exact ⟨rfl, heq⟩
      next => cases hstore
    have hslot : s₄.frame.slot p.1.offset = s.frame.slot p.1.offset := by
      have hplace := (hsound.places p hp).1
      refine FrameMemory.slot_congr fun a hle hlt => h.frame_outside (by omega) fun x hx => ?_
      obtain ⟨q, hq, hqx⟩ := mem_filterMap.1 hx
      obtain ⟨hqloc, hqdst, -⟩ := storeOf?_eq_some hqx
      have hne : x.dst ≠ p.1.offset := by
        intro heq
        have hpq := hsound.eq_of_target hp hq (target?_of_stack hloc)
          (by rw [target?_of_stack hqloc, ← hqdst, heq])
        rw [hpq, hqx] at hstore
        cases hstore
      have hapart := FrameStore.apart (hsound.within x hx).dst.1 hplace.1 hne
      omega
    simp only [DataState.value, hloc, hsrc, hslot, hty, hoffset]

/-- A register holds its value, unless the value is there already. -/
theorem reg_of_target (hp : p ∈ pairs) (hloc : p.1.loc = .reg r) :
    p.2.loc = .reg r ∧ s₄.regs r = s.regs r ∨ s₄.regs r = s.value p.2 := by
  obtain ⟨honlyMove, honlyLoad⟩ := hsound.eq_of_dst hp hloc
  cases hmove : moveOf? p with
  | some m =>
    obtain ⟨hdst, hsrc, hmty⟩ := moveOf?_eq_some hmove
    have hreg := h.reg_of_move hsound (mem_filterMap.2 ⟨p, hp, hmove⟩)
    cases hloc.symm.trans hdst
    right
    simp only [DataState.value, hsrc, hreg, RegMove.value, hmty]
  | none =>
    cases hload : loadOf? p with
    | some l =>
      obtain ⟨hdst, -, -, -, hvalue⟩ := loadOf?_eq_some hload
      have hreg := h.reg_of_load hsound (mem_filterMap.2 ⟨p, hp, hload⟩)
      cases hloc.symm.trans hdst
      right
      rw [hreg, hvalue]
    | none =>
      left
      have hsrc : p.2.loc = .reg r := by
        unfold moveOf? at hmove
        unfold loadOf? at hload
        rw [hloc] at hmove hload
        cases hsrc : p.2.loc <;> simp only [hsrc, reduceCtorEq] at hmove hload
        split at hmove
        next heq => rw [heq]
        next => cases hmove
      refine ⟨hsrc, h.reg_outside (fun hmem => ?_) fun hmem => ?_⟩
      · obtain ⟨m, hm, hdst⟩ := mem_map.1 hmem
        cases hmove.symm.trans (honlyMove m hm hdst)
      · obtain ⟨l, hl, hdst⟩ := mem_map.1 hmem
        cases hload.symm.trans (honlyLoad l hl hdst)

theorem value_of_reg (hp : p ∈ pairs) (hloc : p.1.loc = .reg r) : s₄.value p.1 = s.value p.2 := by
  obtain ⟨hty, -⟩ := hsound.types p hp
  rcases h.reg_of_target hsound hp hloc with ⟨hsrc, hreg⟩ | hreg
  · simp only [DataState.value, hloc, hsrc, hreg, hty]
  · rw [DataState.value, hloc]
    dsimp only
    rw [hreg, hty, DataState.value, ValueType.narrow_narrow]

theorem performs : Performs base pairs s s₄ := by
  refine ⟨fun p hp htarget => ?_, fun r hr => ?_, fun a ha hout => ?_, fun p hp r hloc =>
    h.reg_of_target hsound hp hloc⟩
  · cases hloc : p.1.loc with
    | stack => exact h.value_of_stack hsound hp hloc
    | reg r => exact h.value_of_reg hsound hp hloc
    | const => simp [target?, Slot.place?, hloc] at htarget
  · refine h.reg_outside (fun hmem => ?_) fun hmem => ?_
    · obtain ⟨m, hm, rfl⟩ := mem_map.1 hmem
      obtain ⟨p, hp, hpm⟩ := mem_filterMap.1 hm
      exact hr p hp (target?_of_reg (moveOf?_eq_some hpm).1)
    · obtain ⟨l, hl, rfl⟩ := mem_map.1 hmem
      obtain ⟨p, hp, hpl⟩ := mem_filterMap.1 hl
      exact hr p hp (target?_of_reg (loadOf?_eq_some hpl).1)
  · refine h.frame_outside ha fun x hx => ?_
    obtain ⟨p, hp, hpx⟩ := mem_filterMap.1 hx
    obtain ⟨hloc, hdst, -⟩ := storeOf?_eq_some hpx
    rw [hdst]
    exact hout p hp _ (target?_of_stack hloc)

end

end

end Stages

/-- The code of a transfer, in its four parts. -/
theorem code_ofSlots (base : Nat) (pairs : List (Slot × Slot)) :
    ((ofSlots base pairs).code : List (Instr τ) × Nat) =
      let rescued : MoveCode τ := rescue (pairs.filterMap storeOf?) (pairs.filterMap loadOf?) base
      let moved : MoveCode τ := resolveMoves (RegMove.sourceUses (pairs.filterMap moveOf?))
        (pairs.filterMap moveOf?) rescued.deepest
      (rescued.code ++ (pairs.filterMap storeOf?).map FrameStore.instr ++ moved.code ++
        (rescued.loads ++ moved.loads).map RegLoad.instr, moved.deepest) := by
  rw [ofSlots_eq]
  rfl

section

variable (h : Sound base pairs)
    (hsmall : ((ofSlots base pairs).code : List (Instr τ) × Nat).2 < UInt32.size)
include h hsmall

theorem performs_code (s : DataState) :
    ∃ s', moveAll? ((ofSlots base pairs).code : List (Instr τ) × Nat).1 s = some s' ∧
      Performs base pairs s s' := by
  rw [code_ofSlots] at hsmall ⊢
  dsimp only at hsmall ⊢
  obtain ⟨rescued, hrescued⟩ : ∃ c : MoveCode τ,
      c = rescue (pairs.filterMap storeOf?) (pairs.filterMap loadOf?) base := ⟨_, rfl⟩
  obtain ⟨moved, hmoved⟩ : ∃ c : MoveCode τ,
      c = resolveMoves (RegMove.sourceUses (pairs.filterMap moveOf?)) (pairs.filterMap moveOf?)
        rescued.deepest := ⟨_, rfl⟩
  rw [← hrescued] at hsmall ⊢
  rw [← hmoved] at hsmall ⊢
  have hdeep : base ≤ rescued.deepest := hrescued ▸ le_deepest_rescue _ _ _
  have hdeeper : rescued.deepest ≤ moved.deepest := hmoved ▸ le_deepest_resolveMoves _ _ _
  have hloads : ∀ l ∈ pairs.filterMap loadOf?, l.ty ≠ .v128 ∧ ∀ o, l.place? = some o →
      8 ∣ o ∧ o ≤ base := by
    intro l hl
    obtain ⟨p, hp, hpl⟩ := mem_filterMap.1 hl
    obtain ⟨-, -, hty, hplace, -⟩ := loadOf?_eq_some hpl
    refine ⟨hty ▸ (h.types p hp).1 ▸ (h.types p hp).2, fun o ho => ?_⟩
    rw [hplace o ho]
    exact (h.places p hp).2
  -- The four stages, each from the state that the one before leaves.
  have hsmall₁ : (rescue (pairs.filterMap storeOf?) (pairs.filterMap loadOf?) base :
      MoveCode τ).deepest < UInt32.size := by
    rw [← hrescued]
    omega
  have hsame : ∀ a : Int, -base ≤ a → s.frame a = s.frame a := fun _ _ => rfl
  obtain ⟨s₁, hrun₁, hregs₁, hframe₁, hfollows⟩ := rescue_follows (pairs.filterMap loadOf?) base
    (Nat.le_refl _) (fun l hl => (hloads l hl).1) (fun l hl => (hloads l hl).2) hsmall₁ s hsame
  rw [← hrescued] at hrun₁ hfollows
  obtain ⟨s₂, hrun₂, hstored⟩ := FrameStore.moveAll?_instrs (τ := τ) h.within
    (by omega) h.nodup_stores h.copies s₁
  obtain ⟨s₃, hresolves⟩ :=
    resolveMoves_resolves (τ := τ) _ (pairs.filterMap moveOf?) rescued.deepest (fun _ => rfl)
    (fun m hm => by
      obtain ⟨p, hp, hpm⟩ := mem_filterMap.1 hm
      rw [(moveOf?_eq_some hpm).2.2, ← (h.types p hp).1]
      exact (h.types p hp).2) h.nodup_moves (hmoved ▸ hsmall) s₂
  rw [← hmoved] at hresolves
  have hall : ∀ l ∈ rescued.loads ++ moved.loads, l.ty ≠ .v128 ∧
      ∀ o, l.place? = some o → o < UInt32.size := by
    intro l hl
    rcases mem_append.1 hl with hl | hl
    · obtain ⟨l₀, hl₀, hfollows₀⟩ := exists_of_forall₂ hfollows.flip hl
      refine ⟨hfollows₀.ty ▸ (hloads l₀ hl₀).1, fun o ho => ?_⟩
      have := (hfollows₀.place o ho).1
      omega
    · refine ⟨(hresolves.places l hl).1, fun o ho => ?_⟩
      have := (hresolves.places l hl).2 o ho
      omega
  have hdistinct : ((rescued.loads ++ moved.loads).map RegLoad.dst).Nodup := by
    rw [map_append, Stages.map_dst_of_follows hfollows, nodup_append']
    refine ⟨h.nodup_loads, hresolves.loads.1, fun r hr hr' => ?_⟩
    obtain ⟨m, hm, rfl⟩ := mem_map.1 (hresolves.loads.2 hr')
    exact h.disjoint m hm hr
  obtain ⟨s₄, hrun₄, hloaded⟩ := RegLoad.moveAll?_instrs (τ := τ) (fun l hl => (hall l hl).1)
    (fun l hl => (hall l hl).2) hdistinct s₃
  have hstages : Stages base pairs rescued moved s s₁ s₂ s₃ s₄ :=
    ⟨hdeep, ⟨hregs₁, hframe₁⟩, hfollows, hstored, hresolves, hloaded⟩
  refine ⟨s₄, ?_, hstages.performs h⟩
  rw [append_assoc, append_assoc, moveAll?_append hrun₁, moveAll?_append hrun₂,
    moveAll?_append hresolves.runs, hrun₄]

/-- Stores go no deeper than `base`, and loads write nothing to the frame. -/
theorem deepens_code : Deepens ((ofSlots base pairs).code : List (Instr τ) × Nat).1 base
      ((ofSlots base pairs).code : List (Instr τ) × Nat).2 := by
  rw [code_ofSlots] at hsmall ⊢
  dsimp only at hsmall ⊢
  obtain ⟨rescued, hrescued⟩ : ∃ c : MoveCode τ,
      c = rescue (pairs.filterMap storeOf?) (pairs.filterMap loadOf?) base := ⟨_, rfl⟩
  rw [← hrescued] at hsmall ⊢
  have hdeep : base ≤ rescued.deepest := hrescued ▸ le_deepest_rescue _ _ _
  have hdeeper := le_deepest_resolveMoves (τ := τ) (RegMove.sourceUses (pairs.filterMap moveOf?))
    (pairs.filterMap moveOf?) rescued.deepest
  have hfirst : Deepens rescued.code base rescued.deepest := by
    rw [hrescued] at hsmall hdeeper ⊢
    exact (parks_rescue _ _ _ (Nat.lt_of_le_of_lt hdeeper hsmall)).toDeepens
  have hstores : Deepens ((pairs.filterMap storeOf?).map (FrameStore.instr (τ := τ)))
      rescued.deepest rescued.deepest := by
    refine .of_written fun o ho => ?_
    rw [filterMap_map] at ho
    obtain ⟨x, hx, hxo⟩ := mem_filterMap.1 ho
    have hdst := (h.within x hx).dst.2
    have hslot : o = (UInt32.ofNat x.dst).toNat := by cases x <;> exact (Option.some.inj hxo).symm
    rw [hslot, UInt32.toNat_ofNat_of_lt' (by omega)]
    omega
  refine ((hfirst.append hstores).append (parks_resolveMoves _ _ _ hsmall).toDeepens).append
    (.of_written fun o ho => ?_)
  rw [filterMap_map] at ho
  obtain ⟨l, -, hlo⟩ := mem_filterMap.1 ho
  cases l <;> cases hlo

end

end

/-- What a transfer can be asked for. -/
inductive Request where
  | add (dst src : Slot)
  | store (ty : ValueType) (offset : Nat) (src : Slot)
  | load (dst : Reg) (src : Slot)
  deriving DecidableEq, Repr

namespace Request

def register (t : Transfer) : Request → Transfer
  | add dst src => t.add dst src
  | store ty offset src => t.store ty offset src
  | load dst src => t.load dst src

def source : Request → Slot
  | add _ src | store _ _ src | load _ src => src

/-- The slot that is to stand for the value of the source. -/
def target : Request → Slot
  | add dst _ => dst
  | store ty offset _ => ⟨ty, .stack, offset⟩
  | load dst src => { src with loc := .reg dst }

/-- The place that the value is brought to. -/
def place? (q : Request) : Option Place := q.target.place?

/-- Equal types, and no vectors. -/
def Typed (q : Request) : Prop := q.target.ty = q.source.ty ∧ q.target.ty ≠ .v128

/-- Both slots are aligned, and not deeper than `base`. -/
def Within (base : Nat) (q : Request) : Prop :=
  (8 ∣ q.target.offset ∧ q.target.offset ≤ base) ∧ 8 ∣ q.source.offset ∧ q.source.offset ≤ base

instance (q : Request) : Decidable q.Typed := inferInstanceAs (Decidable (_ ∧ _))

instance (base : Nat) (q : Request) : Decidable (q.Within base) :=
    inferInstanceAs (Decidable (_ ∧ _))

theorem register_eq_add (t : Transfer) (q : Request) : q.register t = t.add q.target q.source := by
  cases q <;> rfl

end Request

/-- The transfer that was asked for all of that. -/
def ofRequests (base : Nat) (requests : List Request) : Transfer :=
  requests.foldl Request.register { deepest := base }

theorem ofRequests_eq (base : Nat) (requests : List Request) :
    ofRequests base requests = ofSlots base (requests.map fun q => (q.target, q.source)) := by
  rw [ofRequests, ofSlots, foldl_map]
  congr 1
  funext t q
  exact q.register_eq_add t

/-- The code of a transfer moves all values at once. -/
theorem moves_values_at_once (base : Nat) (requests : List Request)
    (htyped : ∀ q ∈ requests, q.Typed) (hwithin : ∀ q ∈ requests, q.Within base)
    (htargets : (requests.filterMap Request.place?).Nodup)
    (hcopies : (ofRequests base requests).stores.Pairwise fun x y => y.src? ≠ some x.dst)
    (code : List (Instr τ)) (deepest : Nat)
      (hcode : (ofRequests base requests).code = (code, deepest))
    (hsmall : deepest < UInt32.size) (s : DataState) :
    ∃ s', moveAll? code s = some s' ∧
      (∀ q ∈ requests, q.place? ≠ none → s'.value q.target = s.value q.source) ∧
      (∀ r, (∀ q ∈ requests, q.place? ≠ some (.reg r)) → s'.regs r = s.regs r) ∧
      (∀ o ≤ base, (∀ q ∈ requests, ∀ t, q.place? = some (.frame t) → o + 8 ≤ t ∨ t + 8 ≤ o) →
        s'.frame.slot o = s.frame.slot o) ∧
      (∀ o ∈ code.filterMap slotWritten?, o ≤ deepest) ∧
      (deepest = base ∨ base < deepest ∧ deepest ∈ code.filterMap slotWritten?) := by
  obtain ⟨pairs, hpairs⟩ : ∃ pairs, pairs = requests.map fun q => (q.target, q.source) := ⟨_, rfl⟩
  rw [ofRequests_eq, ← hpairs] at hcode hcopies
  have hmem : ∀ q ∈ requests, (q.target, q.source) ∈ pairs := fun q hq =>
    hpairs ▸ mem_map_of_mem hq
  have hof : ∀ p ∈ pairs, ∃ q ∈ requests, p = (q.target, q.source) := fun p hp => by
    rw [hpairs] at hp
    obtain ⟨q, hq, heq⟩ := mem_map.1 hp
    exact ⟨q, hq, heq.symm⟩
  have hsound : Sound base pairs := by
    refine ⟨fun p hp => ?_, fun p hp => ?_, ?_, ?_⟩
    · obtain ⟨q, hq, rfl⟩ := hof p hp
      exact htyped q hq
    · obtain ⟨q, hq, rfl⟩ := hof p hp
      exact hwithin q hq
    · rw [hpairs, filterMap_map]
      exact htargets
    · rwa [ofSlots_eq] at hcopies
  have hsmall' : ((ofSlots base pairs).code : List (Instr τ) × Nat).2 <
    UInt32.size := by rwa [hcode]
  obtain ⟨s', hrun, hperforms⟩ := performs_code (τ := τ) hsound hsmall' s
  have hdeepens := deepens_code (τ := τ) hsound hsmall'
  rw [hcode] at hrun hdeepens
  refine ⟨s', hrun, fun q hq hplace => hperforms.moved _ (hmem q hq) hplace, fun r hr => ?_,
    fun o ho hout => ?_, hdeepens.written, ?_⟩
  · refine hperforms.regs r fun p hp => ?_
    obtain ⟨q, hq, rfl⟩ := hof p hp
    exact hr q hq
  · refine FrameMemory.slot_congr fun a hle hlt => hperforms.frame a (by omega) fun p hp t ht => ?_
    obtain ⟨q, hq, rfl⟩ := hof p hp
    have := hout q hq t ht
    omega
  · rcases Nat.eq_or_lt_of_le hdeepens.le with heq | hlt
    · exact .inl heq.symm
    · exact .inr ⟨hlt, hdeepens.reached hlt⟩

/-- Two registers change places, and a slot is overwritten whose old value goes to a third
register. -/
theorem swap_moves_values_at_once :
    ∃ s', moveAll? ([.moveStackValue .i32 16 8, .spillConst .i32 8 5,
      .spill .i64 24 (.gp 1), .move .i64 (.gp 1) (.gp 0), .fill .i32 (.gp 2) 16,
      .fill .i64 (.gp 0) 24] : List (Instr Unit)) ⟨fun r => .ofNat r.code, fun _ => 1⟩ = some s' ∧
    s'.value ⟨.i64, .reg (.gp 0), 8⟩ = 1 ∧ s'.value ⟨.i64, .reg (.gp 1), 8⟩ = 0 ∧
    s'.value ⟨.i32, .reg (.gp 2), 8⟩ = 0x1010101 ∧ s'.value ⟨.i32, .stack, 8⟩ = 5 := by
  have hcode : (ofRequests 8 [.load (.gp 0) ⟨.i64, .reg (.gp 1), 8⟩,
      .load (.gp 1) ⟨.i64, .reg (.gp 0), 8⟩, .store .i32 8 ⟨.i32, .const 5, 8⟩,
      .load (.gp 2) ⟨.i32, .stack, 8⟩]).code = (([.moveStackValue .i32 16 8, .spillConst .i32 8 5,
      .spill .i64 24 (.gp 1), .move .i64 (.gp 1) (.gp 0), .fill .i32 (.gp 2) 16,
      .fill .i64 (.gp 0) 24] : List (Instr Unit)), 24) := by decide +kernel
  obtain ⟨s', hrun, hmoved, -⟩ := moves_values_at_once 8 _ (by decide) (by decide) (by decide)
    (by decide) _ 24 hcode (by decide) ⟨fun r => .ofNat r.code, fun _ => 1⟩
  refine ⟨s', hrun, ?_, ?_, ?_, ?_⟩
  · exact (hmoved _ (.head _) (by decide)).trans (by decide)
  · exact (hmoved _ (.tail _ (.head _)) (by decide)).trans (by decide)
  · exact (hmoved _ (.tail _ (.tail _ (.tail _ (.head _)))) (by decide)).trans (by decide)
  · exact (hmoved _ (.tail _ (.tail _ (.head _))) (by decide)).trans (by decide)

end Transfer

end OnePass
