import OnePass.Proofs.LoweringFinish
import OnePass.Proofs.SlotHeights

/-!
How code generation changes its cache states, whatever the body and whether or not it was checked. A
slot is pushed, popped or relocated; a state is kept for the label or the other arm of a construct,
made into a merge target, or gone on with. A property that survives these changes survives every
event, so it holds wherever code generation is called.
-/
namespace OnePass

open List

/-! ## Steps with an invariant -/

/-- Whatever the step ends with, the invariant holds then; if it succeeds, so does `post`. -/
structure Maintains {σ α : Type} (I : σ → Prop) (m : ExceptT Bailout (StateM σ) α) (s : σ)
    (post : α → σ → Prop) : Prop where
  always : I (m.run.run s).2
  ends : ∀ x s', m.run.run s = (.ok x, s') → post x s'

/-- The step keeps the invariant, and its results have a property. -/
def Preserves {σ α : Type} (I : σ → Prop) (m : ExceptT Bailout (StateM σ) α)
    (post : α → Prop := fun _ => True) : Prop :=
  ∀ s, I s → Maintains I m s fun x _ => post x

section Rules

variable {σ α β : Type} {I : σ → Prop} {m : StepM σ α} {s : σ}
  {k : α → StepM σ β} {Q post : α → σ → Prop}

theorem Maintains.bind {post : β → σ → Prop} (hm : Maintains I m s Q)
    (hk : ∀ x s', I s' → Q x s' → Maintains I (k x) s' post) : Maintains I (m >>= k) s post := by
  have halways := hm.always
  rcases hr : m.run.run s with ⟨b | x, s'⟩ <;> rw [hr] at halways
  · refine ⟨?_, fun y s₂ h => ?_⟩
    · rw [Settles.run_run_bind, hr]
      exact halways
    · rw [Settles.run_run_bind, hr] at h
      cases h
  · have hx := hk x s' halways (hm.ends x s' hr)
    refine ⟨?_, fun y s₂ h => ?_⟩
    · rw [Settles.run_run_bind, hr]
      exact hx.always
    · rw [Settles.run_run_bind, hr] at h
      exact hx.ends y s₂ h

/-- A stronger invariant may be used on the way. -/
theorem Maintains.strengthen {I' : σ → Prop} (h : Maintains I' m s post)
    (hI : ∀ s, I' s → I s) : Maintains I m s fun x s' => post x s' ∧ I' s' := by
  refine ⟨hI _ h.always, fun x s' hr => ⟨h.ends x s' hr, ?_⟩⟩
  have halways := h.always
  rwa [hr] at halways

theorem Maintains.get_bind {k : σ → StepM σ α}
    (h : Maintains I (k s) s post) : Maintains I (get >>= k) s post :=
  ⟨h.always, h.ends⟩

variable {f : σ → σ}

theorem Maintains.of_modify {Q : Unit → σ → Prop} (h : I (f s))
    (hpost : Q () (f s)) : Maintains I (modify f) s Q := by
  refine ⟨h, fun x s' hr => ?_⟩
  cases hr
  exact hpost

namespace Preserves

variable {post : α → Prop} {Q : α → Prop} {x : α}

theorem pure (h : Q x) : Preserves I (pure x) Q := by
  refine fun s hs => ⟨hs, fun y s' hr => ?_⟩
  cases hr
  exact h

theorem done : Preserves I (Pure.pure x) := pure trivial

theorem throw (b : Bailout) : Preserves I (throw b : StepM σ α) post := by
  refine fun s hs => ⟨hs, fun y s' hr => ?_⟩
  cases hr

theorem bind {post : β → Prop}
    (hm : Preserves I m Q) (hk : ∀ x, Q x → Preserves I (k x) post) : Preserves I (m >>= k) post :=
  fun s hs => (hm s hs).bind fun x s' hs' hx => hk x hx s' hs'

/-- A step whose result does not matter. -/
theorem next {post : β → Prop} (hm : Preserves I m)
    (hk : ∀ x, Preserves I (k x) post) : Preserves I (m >>= k) post :=
  hm.bind fun x _ => hk x

theorem get : Preserves I get I := by
  refine fun s hs => ⟨hs, fun y s' hr => ?_⟩
  cases hr
  exact hs

theorem modify (h : ∀ s, I s → I (f s)) : Preserves I (modify f) :=
  fun s hs => .of_modify (h s hs) trivial

variable {p : Prop}

theorem ite [Decidable p] {m' : StepM σ α} (hm : p → Preserves I m post)
    (hm' : ¬p → Preserves I m' post) : Preserves I (if p then m else m') post := by
  split
  next hp => exact hm hp
  next hp => exact hm' hp

/-- A step that is left out unless the condition holds. -/
theorem when [Decidable p] {m : StepM σ Unit}
    {k : Unit → StepM σ α} (hm : p → Preserves I m) (hk : Preserves I (k ()) post) :
    Preserves I (if p then m >>= k else k ()) post :=
  ite (fun hp => (hm hp).next fun _ => hk) fun _ => hk

theorem mono {post' : α → Prop} (h : Preserves I m post) (hpost : ∀ x, post x → post' x) :
    Preserves I m post' :=
  fun s hs => ⟨(h s hs).always, fun x s' hr => hpost x ((h s hs).ends x s' hr)⟩

theorem any (h : Preserves I m post) : Preserves I m := h.mono fun _ _ => trivial

theorem forM {xs : List α} {f : α → StepM σ PUnit} {Q : α → Prop}
    (h : ∀ x ∈ xs, Preserves I (f x) fun _ => Q x) :
      Preserves I (xs.forM f) fun _ => ∀ x ∈ xs, Q x := by
  induction xs with
  | nil => exact .pure (List.forall_mem_nil _)
  | cons x xs ih =>
    obtain ⟨hx, hxs⟩ := List.forall_mem_cons.1 h
    exact hx.bind fun _ hx => (ih hxs).mono fun _ hxs => List.forall_mem_cons.2 ⟨hx, hxs⟩

end Preserves

end Rules

/-! ## Changes of a cache state -/

/-- The property survives code and spilling. -/
structure Spillable (E : Emitter → Prop) : Prop where
  emit : ∀ e i, E e → E (e.emit i)
  stack : ∀ e i, E e → E (e.modifyState (·.relocate i .stack))
  recent : ∀ e recent, E e → E (e.modifyState fun s => { s with lastSpilled := recent })

/-- The property survives all changes of the emitter, if values go where they fit. Slots are of
types that fit into the frame. `J` is what a state has that is gone on with. -/
structure Emitter.Stable (fits : Location → ValueType → Prop) (J : CacheState → Prop)
    (E : Emitter → Prop) : Prop extends Spillable E where
  frame : ∀ ty, ty ≠ .v128 → fits .stack ty
  const : ∀ value ty, fits .stack ty → fits (.const value) ty
  reg : ∀ r ty, r.regClass = .ofType ty → fits .stack ty → fits (.reg r) ty
  typed : ∀ e, E e → ∀ slot ∈ e.state.slots, fits .stack slot.ty
  push : ∀ e ty loc, E e → fits loc ty → E (e.modifyState (·.push ty loc))
  pop : ∀ e slot s', E e → e.state.pop? = some (slot, s') → E (e.modifyState fun _ => s')
  relocate : ∀ e i loc, E e → (∀ slot, e.state.slots[i]? = some slot → fits loc slot.ty) →
    E (e.modifyState (·.relocate i loc))
  record : ∀ e offset, E e → E (e.modifyState (·.recordOffset offset))
  steal : ∀ e t, E e → J t → E (e.steal t)
  addLabel : ∀ e, E e → E e.addLabel
  bind : ∀ e l, E e → E (e.bind l)

/-- No register backs a slot. -/
def CacheState.Unbacked (s : CacheState) : Prop := ∀ slot ∈ s.slots, slot.reg? = none

/-- The registers that back slots, and where their values go. -/
def CacheState.savedRegs (s : CacheState) : List SavedReg :=
  s.slots.toList.filterMap fun slot => slot.reg?.map fun r => ⟨slot.ty, r, slot.offset⟩

/-- The property `C` of the state that code is generated in survives all changes, if values go where
they fit. `L` is what the state of a label has, `J` that of any state that is kept. `loops` stands
in front of what is needed only for the header of a loop. -/
structure Stable (fits : Location → ValueType → Prop) (C L J : CacheState → Prop) (loops : Prop) :
    Prop where
  stack : ∀ ty, ty ≠ .v128 → fits .stack ty
  const : ∀ value ty, fits .stack ty → fits (.const value) ty
  reg : ∀ r ty, r.regClass = .ofType ty → fits .stack ty → fits (.reg r) ty
  typed : ∀ s, C s → ∀ slot ∈ s.slots, fits .stack slot.ty
  push : ∀ s ty loc, C s → fits loc ty → C (s.push ty loc)
  pop : ∀ s slot s', C s → s.pop? = some (slot, s') → C s'
  relocate : ∀ s i loc, C s → (∀ slot, s.slots[i]? = some slot → fits loc slot.ty) →
    C (s.relocate i loc)
  recent : ∀ s recent, C s → C { s with lastSpilled := recent }
  record : ∀ s offset, C s → C (s.recordOffset offset)
  keep : ∀ s, C s → J s
  header : loops → ∀ s, C s → L s
  merge : ∀ s numLocals arity depth, C s → L (s.mergeTarget numLocals arity depth)
  pass : ∀ s numLocals arity depth, J s → J (s.mergeTarget numLocals arity depth)
  label : ∀ s, L s → J s
  steal : ∀ s t, C s → J t → C (s.steal t)

variable {pinned : RegSet} {c : RegClass} {r : Reg}

section

variable {s s' : CacheState} (h : s.nextSpill? c pinned = (some r, s'))
include h

/-- A register to spill is a cache register of the class, and not pinned. -/
theorem CacheState.contains_of_nextSpill? : c.cacheRegs.contains r = true ∧
    pinned.contains r = false := by
  have hcandidate (hr : (c.cacheRegs.sdiff pinned).contains r = true) :
      c.cacheRegs.contains r = true ∧ pinned.contains r = false := by
    rwa [RegSet.contains_sdiff, Bool.and_eq_true, Bool.not_eq_true'] at hr
  unfold nextSpill? at h
  dsimp only at h
  split at h
  next r' hfirst =>
    obtain rfl : r' = r := Option.some.inj (congrArg Prod.fst h)
    have hr := RegSet.contains_of_first? hfirst
    split at hr
    · exact hcandidate hr
    · dsimp only at hr
      rw [RegSet.contains_sdiff, Bool.and_eq_true] at hr
      exact hcandidate hr.1
  next => cases h

theorem CacheState.regClass_of_nextSpill? : r.regClass = c :=
  RegClass.regClass_of_contains (contains_of_nextSpill? h).1

end

theorem CacheState.nextSpill?_state (s : CacheState) (c : RegClass) (pinned : RegSet) :
    ∃ recent, (s.nextSpill? c pinned).2 = { s with lastSpilled := recent } := by
  unfold nextSpill?
  dsimp only
  split <;> exact ⟨_, rfl⟩

/-- Dropped values are the topmost ones. -/
theorem CacheState.slots_dropValues (s : CacheState) (count : Nat) :
    (s.dropValues count).slots.toList = s.slots.toList.take (s.height - count) := by
  induction count generalizing s with
  | zero => exact (take_length).symm
  | succ count ih =>
    rw [dropValues]
    split
    next slot s' hpop =>
      obtain ⟨hslots, -⟩ := pop?_eq_some hpop
      have hle : s'.slots.size - count ≤ s'.slots.toList.length := Nat.sub_le _ _
      rw [ih, height, height, hslots, Array.size_push, Nat.add_sub_add_right, Array.toList_push,
        take_append_of_le_length hle]
    next hpop =>
      have hempty : s.slots = #[] := by
        unfold pop? at hpop
        split at hpop
        · cases hpop
        next hback => exact Array.back?_eq_none_iff.1 hback
      rw [hempty]
      exact take_nil.symm

/-! ## Steps of the emitter -/

namespace Emitter

variable {fits : Location → ValueType → Prop} {J : CacheState → Prop}
    {E : Emitter → Prop} {e : Emitter}
  {params : List ValueType}

section

variable (h : Spillable E)
include h

theorem emitAll_of (he : E e) (code : List (Instr Label)) : E (e.emitAll code) := by
  induction code generalizing e with
  | nil => exact he
  | cons i code ih => exact ih (h.emit _ i he)

theorem moveReg_of (he : E e) (ty : ValueType) (dst src : Reg) : E (e.moveReg ty dst src) := by
  unfold moveReg
  split
  · exact he
  · exact h.emit _ _ he

theorem loadSlot_of (he : E e) (slot : Slot) (dst : Reg) : E (e.loadSlot slot dst) := by
  unfold loadSlot
  split
  · exact moveReg_of h he _ _ _
  · exact h.emit _ _ he
  · exact h.emit _ _ he

theorem spillSlot_of (he : E e) (index : Nat) : E (e.spillSlot index) := by
  unfold spillSlot
  split
  · exact he
  · split
    · exact he
    · exact h.stack _ index (h.emit _ _ he)
    · exact h.stack _ index (h.emit _ _ he)

theorem spillWhere_of (he : E e) (p : Slot → Bool) (indices : List Nat) :
    E (e.spillWhere p indices) := by
  unfold spillWhere
  induction indices generalizing e with
  | nil => exact he
  | cons index indices ih =>
    refine ih ?_
    dsimp only
    split
    · exact spillSlot_of h he index
    · exact he

theorem spillOneReg_preserves (c : RegClass) (pinned : RegSet) :
    Preserves E (spillOneReg c pinned) fun r => r.regClass = c := by
  intro e he
  refine .get_bind ?_
  obtain ⟨recent, hstate⟩ := e.state.nextSpill?_state c pinned
  rcases hspill : e.state.nextSpill? c pinned with ⟨r, state⟩
  have hnext : E { e with state } := by
    rw [hspill] at hstate
    rw [show state = _ from hstate]
    exact h.recent _ recent he
  dsimp only
  refine (Maintains.of_modify (Q := fun _ _ => True) hnext trivial).bind fun _ e' he' _ => ?_
  cases r with
  | none => exact Preserves.throw _ e' he'
  | some r =>
    have hclass : r.regClass = c := CacheState.regClass_of_nextSpill? hspill
    have hspilled : Preserves E (modify (·.spillReg r)) :=
      .modify fun _ he => spillWhere_of h he _ _
    exact hspilled.next (fun _ => .pure (Q := fun r : Reg => r.regClass = c) hclass) e' he'

theorem unusedReg_preserves (c : RegClass) (pinned : RegSet) :
    Preserves E (unusedReg c pinned) fun r => r.regClass = c := by
  refine .bind .get fun e _ => ?_
  split
  next r hr => exact .pure (CacheState.regClass_of_unused? hr)
  next => exact spillOneReg_preserves h c pinned

theorem unusedRegFrom_preserves (c : RegClass) (candidates pinned : RegSet) :
    Preserves E (unusedRegFrom c candidates pinned) := by
  refine .bind .get fun e _ => ?_
  dsimp only
  split
  · exact .done
  · exact (unusedReg_preserves h c pinned).any

end

theorem peekSlot_preserves (depth : Nat) : Preserves E (peekSlot depth) := by
  refine .bind .get fun e _ => ?_
  split
  · exact .done
  · exact .throw _

section

variable (h : Emitter.Stable fits J E)
include h

theorem dropValues_of (he : E e) (count : Nat) : E (e.modifyState (·.dropValues count)) := by
  induction count generalizing e with
  | zero => exact he
  | succ count ih =>
    rw [modifyState, CacheState.dropValues]
    split
    next slot rest hpop => exact ih (h.pop _ _ _ he hpop)
    next => exact he

theorem popSlot_preserves : Preserves E popSlot := by
  intro e he
  refine .get_bind ?_
  split
  next slot state hpop =>
    refine .bind (Q := fun _ _ => True) (.of_modify ?_ trivial) fun _ e' he' _ =>
      Preserves.pure (Q := fun _ => True) trivial e' he'
    exact h.pop _ _ _ he hpop
  next => exact Preserves.throw _ e he

theorem popToReg_preserves (pinned : RegSet) : Preserves E (popToReg pinned) := by
  refine (popSlot_preserves h).next fun slot => ?_
  split
  · exact .done
  · exact (unusedReg_preserves h.toSpillable _ _).any.next fun r => .next
      (.modify fun e he => loadSlot_of h.toSpillable he _ _) fun _ => .done

theorem popToModifiableReg_preserves (pinned : RegSet) :
    Preserves E (popToModifiableReg pinned) := by
  refine (peekSlot_preserves 0).next fun slot => ?_
  split
  · refine .bind .get fun e _ => .ite (fun _ => ?_) fun _ => popToReg_preserves h pinned
    exact (popSlot_preserves h).next fun _ =>
      (unusedReg_preserves h.toSpillable _ _).any.next fun r =>
      .next (.modify fun e he => moveReg_of h.toSpillable he _ _ _) fun _ => .done
  · exact popToReg_preserves h pinned

theorem pushReg_preserves {ty : ValueType} (hty : fits .stack ty) (r : Reg) :
    Preserves E (pushReg ty r) :=
  .ite (fun hclass => .modify fun _ he => h.push _ _ _ he (h.reg _ _ hclass hty)) fun _ => .throw _

theorem transfer_of (he : E e) (t : Transfer) : E (e.transfer t) :=
  h.record _ _ (emitAll_of h.toSpillable he _)

end

section

variable (e : Emitter)

theorem state_transfer (t : Transfer) :
    ∃ deepest, (e.transfer t).state = e.state.recordOffset deepest := by
  refine ⟨(t.code : List (Instr Label) × Nat).2, ?_⟩
  show (e.emitAll t.code.1).state.recordOffset _ = _
  rw [emitAll_eq]
  rfl

theorem state_storeArg (slot : Slot) (ty : ValueType) (place : ArgPlace) :
    (e.storeArg slot ty place).state = e.state := by
  unfold storeArg
  split
  · rfl
  · split
    · rfl
    · exact state_loadSlot ..

/-- Spilling a slot leaves the others. -/
theorem slots_spillSlot (i j : Nat) : (e.spillSlot i).state.slots[j]? =
    if i = j then e.state.slots[j]?.map ({ · with loc := .stack }) else e.state.slots[j]? := by
  have hrelocate {slot : Slot} (hi : e.state.slots[i]? = some slot) :
        (e.state.relocate i .stack).slots[j]? =
        if i = j then e.state.slots[j]?.map ({ · with loc := .stack }) else e.state.slots[j]? := by
    rw [CacheState.slots_relocate hi, Array.getElem?_setIfInBounds]
    split
    next heq =>
      subst heq
      rw [if_pos (Array.getElem?_eq_some_iff.1 hi).1, hi]
      rfl
    next => rfl
  unfold spillSlot
  split
  next hnone =>
    split
    next heq => rw [← heq, hnone]; rfl
    next => rfl
  next slot hi =>
    split
    next hloc =>
      split
      next heq =>
        rw [← heq, hi, Option.map_some, ← hloc]
      next => rfl
    · exact hrelocate hi
    · exact hrelocate hi

/-- Spilling keeps the slots in order and takes those that are looked at from where they are. -/
theorem slots_spillWhere (p : Slot → Bool) (indices : List Nat) (j : Nat) :
    (e.spillWhere p indices).state.slots[j]? = e.state.slots[j]?.map fun slot =>
      if j ∈ indices ∧ p slot then { slot with loc := .stack } else slot := by
  induction indices generalizing e with
  | nil =>
    show e.state.slots[j]? = _
    cases e.state.slots[j]? <;> simp
  | cons i rest ih =>
    show (spillWhere (if e.state.slots[i]?.any p then e.spillSlot i else e)
      p rest).state.slots[j]? = _
    rw [ih]
    by_cases hij : i = j
    · subst hij
      split
      next hany =>
        rw [slots_spillSlot, if_pos rfl]
        cases hslot : e.state.slots[i]? with
        | none => rfl
        | some slot =>
          rw [hslot, Option.any_some] at hany
          simp [hany]
      next hany =>
        cases hslot : e.state.slots[i]? with
        | none => rfl
        | some slot =>
          rw [hslot, Option.any_some] at hany
          simp [hany]
    · have hsame : (if e.state.slots[i]?.any p then e.spillSlot i else e).state.slots[j]? =
          e.state.slots[j]? := by
        split
        · rw [slots_spillSlot, if_neg hij]
        · rfl
      rw [hsame]
      simp [Ne.symm hij]

/-- The slots that were looked at are in no register. -/
theorem reg?_spillWhere {count i : Nat} (hi : i < count) {slot : Slot}
    (hslot : (e.spillWhere (·.reg?.isSome) (range count)).state.slots[i]? = some slot) :
    slot.reg? = none := by
  rw [slots_spillWhere] at hslot
  obtain ⟨old, -, rfl⟩ := Option.map_eq_some_iff.1 hslot
  split
  next => rfl
  next hp =>
    rw [mem_range, not_and, Bool.not_eq_true, Option.isSome_eq_false_iff,
      Option.isNone_iff_eq_none] at hp
    exact hp hi

theorem height_spillWhere (p : Slot → Bool) (indices : List Nat) :
    (e.spillWhere p indices).state.height = e.state.height := by
  have hspillable : Spillable fun e' => e'.state.height = e.state.height := by
    refine ⟨fun _ _ he => he, fun e' i he => ?_, fun _ _ he => he⟩
    rw [← CacheState.length_types, modifyState, CacheState.types_relocate,
      CacheState.length_types, he]
  exact spillWhere_of hspillable rfl p indices

theorem state_storeArgs (args : List (Slot × ValueType × ArgPlace)) :
    (e.storeArgs args).state = e.state := by
  unfold storeArgs
  induction args generalizing e with
  | nil => rfl
  | cons arg args ih => rw [foldl_cons, ih, state_storeArg]

end

section

variable {e e' : Emitter} (h : (prepareCall params).run.run e = (.ok (), e'))
include h

/-- A call that is prepared: arguments on the stack first, then those in registers, all at once. -/
theorem eq_of_prepareCall : let base := e.state.height - params.length
    let spilled := e.spillWhere (·.reg?.isSome) (range base)
    let args := (spilled.state.slots.toList.drop base).zip (params.zip (ArgPlace.passed params))
    let loads := loadArgs { deepest := max spilled.state.maxOffset spilled.state.topOffset } args
    e' = ((spilled.storeArgs args).transfer loads).modifyState (·.dropValues params.length) := by
  intro base spilled args loads
  have hends : Maintains (fun _ => True) (prepareCall params) e fun _ e' =>
      e' = ((spilled.storeArgs args).transfer loads).modifyState (·.dropValues params.length) := by
    refine .get_bind ?_
    split
    · exact ⟨trivial, nofun⟩
    · refine .bind (Q := fun _ e' => e' = spilled) (.of_modify trivial rfl) ?_
      rintro _ _ - rfl
      refine .get_bind (.bind (.of_modify (Q := fun _ e' => e' = spilled.storeArgs args)
        trivial rfl) ?_)
      rintro _ _ - rfl
      exact .of_modify trivial rfl
  exact hends.ends () e' h

/-- The state of a call: the arguments are gone, and the rest is not in registers. -/
theorem unbacked_of_prepareCall : e'.state.Unbacked := by
  obtain ⟨base, hbase⟩ : ∃ base, base = e.state.height - params.length := ⟨_, rfl⟩
  obtain ⟨spilled, hspilled⟩ : ∃ spilled, spilled = e.spillWhere (·.reg?.isSome) (range base) :=
    ⟨_, rfl⟩
  obtain ⟨deepest, hstate⟩ : ∃ deepest,
      e'.state = (spilled.state.recordOffset deepest).dropValues params.length := by
    rw [eq_of_prepareCall h, ← hbase, ← hspilled]
    obtain ⟨deepest, hdeepest⟩ := state_transfer _ _
    refine ⟨deepest, ?_⟩
    rw [modifyState, hdeepest, state_storeArgs]
  intro slot hslot
  have hheight : spilled.state.height = e.state.height := hspilled ▸ height_spillWhere e _ _
  have hmem : slot ∈ spilled.state.slots.toList.take base := by
    rw [hstate] at hslot
    have hdropped := Array.mem_toList_iff.2 hslot
    rw [CacheState.slots_dropValues] at hdropped
    rw [hbase, ← hheight]
    exact hdropped
  obtain ⟨i, hi, hget⟩ := mem_take_iff_getElem.1 hmem
  have hlt : i < base := by omega
  refine reg?_spillWhere e hlt (hspilled ▸ ?_)
  rw [← hget, Array.getElem_toList, Array.getElem?_eq_getElem]

end

theorem storeArgs_of (h : Spillable E) (he : E e) (args : List (Slot × ValueType × ArgPlace)) :
    E (e.storeArgs args) := by
  unfold storeArgs
  induction args generalizing e with
  | nil => exact he
  | cons arg args ih =>
    refine ih ?_
    dsimp only
    unfold storeArg
    split
    · exact he
    · split
      · exact h.emit _ _ he
      · exact h.emit _ _ (loadSlot_of h he _ _)

theorem unshareRegs_of (h : Spillable E) (he : E e) : E e.unshareRegs := by
  unfold unshareRegs
  generalize range e.state.height = indices
  generalize RegSet.empty = seen
  dsimp only
  induction indices generalizing e seen with
  | nil => exact he
  | cons index indices ih =>
    rw [foldl_cons]
    split
    · split
      · exact ih (spillSlot_of h he index) _
      · exact ih he _
    · exact ih he _

section

variable (h : Emitter.Stable fits J E)
include h

theorem prepareCall_preserves (params : List ValueType) : Preserves E (prepareCall params) := by
  refine .bind .get fun e _ => .when (fun _ => .throw _) ?_
  refine .next (.modify fun _ he => spillWhere_of h.toSpillable he _ _) fun _ =>
    .bind .get fun e _ => ?_
  exact .next (.modify fun e he => storeArgs_of h.toSpillable he _) fun _ => .modify fun e he =>
    dropValues_of h (transfer_of h he _) _

theorem finishCall_preserves {result : Option ValueType} (hresult : ∀ ty ∈ result, fits .stack ty) :
    Preserves E (finishCall result) := by
  refine .next (.modify fun _ he => h.emit _ _ he) fun _ => ?_
  split
  · exact pushReg_preserves h (hresult _ rfl) _
  · exact .done

theorem materializeConstants_of (he : E e) (count : Nat) : E (e.materializeConstants count) := by
  unfold materializeConstants
  generalize (range e.state.height).drop (e.state.height - count) = indices
  induction indices generalizing e with
  | nil => exact he
  | cons index indices ih =>
    refine ih ?_
    unfold materializeSlot
    split
    · exact he
    next slot hslot =>
      split
      · split
        next r hr =>
          refine h.relocate _ index _ (h.emit _ _ he) fun slot' hslot' => ?_
          cases hslot.symm.trans hslot'
          exact h.reg _ _ (CacheState.regClass_of_unused? hr)
            (h.typed _ he slot (Array.mem_of_getElem? hslot))
        next => exact spillSlot_of h.toSpillable he index
      · exact he

end

end Emitter

end OnePass
