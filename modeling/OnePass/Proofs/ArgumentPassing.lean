import OnePass.Proofs.FrameRoom
import OnePass.Proofs.OperandCode

/-!
Callers and callees agree on where arguments are. The caller first puts away what registers hold,
then writes the arguments that go on the stack, and then moves the others to their registers, all at
once. The callee takes each parameter from the same place. When it begins to load parameters from
the stack, the registers of their class all back parameters, so it overwrites none.
-/
namespace OnePass

open List

open Instr

/-! ## Arguments on the stack -/

/-- Data, and the arguments that are passed on the stack. -/
structure ArgState extends DataState where
  outgoing : Nat → UInt64

variable {m m' : ArgState}

namespace Instr

variable {τ : Type} {incoming : Nat → UInt64}

/-- What an instruction does that moves data or passes arguments. -/
def passData? (incoming : Nat → UInt64) : Instr τ → ArgState → Option ArgState
  | .storeStackArg ty index src, m =>
    if ty = .v128 then none
    else some { m with outgoing := Function.update m.outgoing index.toNat (ty.narrow (m.regs src)) }
  | .loadStackArg ty dst index, m =>
    if ty = .v128 then none
    else some { m with toDataState := m.setReg ty dst (incoming index.toNat) }
  | i, m => (i.moveData? m.toDataState).map fun d => { m with toDataState := d }

/-- What such instructions do one after another. -/
def passAll? (incoming : Nat → UInt64) : List (Instr τ) → ArgState → Option ArgState
  | [], m => some m
  | i :: rest, m => (i.passData? incoming m).bind (passAll? incoming rest)

theorem passAll?_append {is js : List (Instr τ)} (h : passAll? incoming is m = some m') :
    passAll? incoming (is ++ js) m = passAll? incoming js m' := by
  induction is generalizing m with
  | nil =>
    cases h
    rfl
  | cons i is ih =>
    rw [passAll?, Option.bind_eq_some_iff] at h
    obtain ⟨m₁, hi, his⟩ := h
    rw [cons_append, passAll?, hi, Option.bind_some, ih his]

theorem passAll?_singleton {i : Instr τ} (h : i.passData? incoming m = some m') :
    passAll? incoming [i] m = some m' := by
  rw [passAll?, h, Option.bind_some, passAll?]

theorem passAll?_of_moveAll? {is : List (Instr τ)} {m : ArgState} {d : DataState}
    (h : moveAll? is m.toDataState = some d) :
      passAll? incoming is m = some { m with toDataState := d } := by
  induction is generalizing m with
  | nil =>
    cases h
    rfl
  | cons i is ih =>
    rw [moveAll?, Option.bind_eq_some_iff] at h
    obtain ⟨d₁, hi, his⟩ := h
    have hpass : i.passData? incoming m = some { m with toDataState := d₁ } := by
      cases i <;> first | exact congrArg (Option.map _) hi | cases hi
    rw [passAll?, hpass, Option.bind_some, ih (m := { m with toDataState := d₁ }) his]

end Instr

namespace ArgPlace

/-- What is in the place. -/
def word (place : ArgPlace) (regs : Reg → UInt64) (stack : Nat → UInt64) : UInt64 :=
  match place with
  | .reg r => regs r
  | .stack index => stack index

/-- Places are different, in the given registers or on the stack from the given index on. -/
theorem assign_places {gps fps : List Reg} (h : (gps ++ fps).Nodup) (stacked : Nat)
    (types : List ValueType) :
    (assign gps fps stacked types).Nodup ∧ ∀ place ∈ assign gps fps stacked types,
      (∀ r, place = .reg r → r ∈ gps ++ fps) ∧
        ∀ index, place = .stack index → stacked ≤ index ∧ index < stacked + types.length := by
  induction types generalizing gps fps stacked with
  | nil => exact ⟨nodup_nil, nofun⟩
  | cons ty types ih =>
    have hreg {r : Reg} {gps' fps' : List Reg} (h' : (r :: (gps' ++ fps')).Nodup)
        (hsub : r :: (gps' ++ fps') ⊆ gps ++ fps) :
          (.reg r :: assign gps' fps' stacked types).Nodup ∧
          ∀ place ∈ .reg r :: assign gps' fps' stacked types,
            (∀ r, place = .reg r → r ∈ gps ++ fps) ∧
            ∀ index, place = .stack index → stacked ≤ index ∧
              index < stacked + (ty :: types).length := by
      obtain ⟨hr, hrest⟩ := nodup_cons.1 h'
      obtain ⟨hnodup, hplaces⟩ := ih hrest stacked
      refine ⟨nodup_cons.2 ⟨fun hmem => hr ((hplaces _ hmem).1 r rfl), hnodup⟩,
        forall_mem_cons.2
          ⟨⟨?_, nofun⟩, fun place hplace => ⟨fun q hq => ?_, fun index hindex => ?_⟩⟩⟩
      · rintro _ ⟨⟩
        exact hsub mem_cons_self
      · exact hsub (mem_cons_of_mem _ ((hplaces place hplace).1 q hq))
      · have := (hplaces place hplace).2 index hindex
        rw [length_cons]
        omega
    unfold assign
    split
    next r gps _ => exact hreg h (List.Subset.refl _)
    next r fps _ => exact hreg (nodup_middle.1 h) perm_middle.symm.subset
    next =>
      obtain ⟨hnodup, hplaces⟩ := ih h (stacked + 1)
      refine ⟨nodup_cons.2 ⟨fun hmem => ?_, hnodup⟩,
        forall_mem_cons.2
          ⟨⟨nofun, ?_⟩, fun place hplace => ⟨(hplaces place hplace).1, fun index hindex => ?_⟩⟩⟩
      · have := (hplaces _ hmem).2 stacked rfl
        omega
      · rintro _ ⟨⟩
        rw [length_cons]
        omega
      · have := (hplaces place hplace).2 index hindex
        rw [length_cons]
        omega

theorem ofTypes_places (types : List ValueType) : (ofTypes types).Nodup ∧
    ∀ index, ArgPlace.stack index ∈ ofTypes types → index < types.length := by
  have hregs : (Reg.params .gp ++ Reg.params .fp).Nodup := by decide
  obtain ⟨hnodup, hplaces⟩ := assign_places hregs 0 types
  refine ⟨hnodup, fun index hmem => ?_⟩
  have := ((hplaces _ hmem).2 index rfl).2
  omega

/-- Callers count the arguments of a class, functions take registers from those left: this comes to
the same. -/
theorem count_eq_assign (gps fps stacked : Nat) (types : List ValueType) :
    count gps fps stacked types =
    assign ((Reg.params .gp).drop gps) ((Reg.params .fp).drop fps) stacked types := by
  have hnone {c : RegClass} {n : Nat} (h : (Reg.params c)[n]? = none) :
      (Reg.params c).drop n = [] ∧ (Reg.params c).drop (n + 1) = [] := by
    have hle := getElem?_eq_none_iff.1 h
    exact ⟨drop_eq_nil_of_le hle, drop_eq_nil_of_le (Nat.le_succ_of_le hle)⟩
  have hsome {c : RegClass} {n : Nat} {r : Reg} (h : (Reg.params c)[n]? = some r) :
      (Reg.params c).drop n = r :: (Reg.params c).drop (n + 1) := by
    obtain ⟨hlt, rfl⟩ := List.getElem?_eq_some_iff.1 h
    exact drop_eq_getElem_cons hlt
  induction types generalizing gps fps stacked with
  | nil => rfl
  | cons ty types ih =>
    unfold count assign
    cases hclass : RegClass.ofType ty with
    | gp =>
      cases hnext : (Reg.params .gp)[gps]? with
      | none => simp [hnext, ih, hnone hnext]
      | some r => simp [hnext, ih, hsome hnext]
    | fp =>
      cases hnext : (Reg.params .fp)[fps]? with
      | none => simp [hnext, ih, hnone hnext]
      | some r => simp [hnext, ih, hsome hnext]

theorem passed_eq_ofTypes (types : List ValueType) : passed types = ofTypes types :=
  count_eq_assign 0 0 0 types

end ArgPlace

/-! ## The caller -/

variable {index : Nat}

namespace Emitter

variable {e e' : Emitter} {s : CacheState} {slot : Slot} {args : List (Slot × ValueType × ArgPlace)}

/-- Values of slots of the state, to be passed as arguments of their types. -/
structure Passable (s : CacheState) (args : List (Slot × ValueType × ArgPlace)) : Prop where
  ready : s.Ready
  scratch : ∀ slot ∈ s.slots, ∀ c, slot.loc ≠ .reg (.scratch c)
  slots : ∀ a ∈ args, a.1 ∈ s.slots ∧ a.2.1 = a.1.ty
  places : (args.map fun a => a.2.2).Nodup
  small : ∀ a ∈ args, ∀ index, a.2.2 = .stack index → index < UInt32.size

/-- Registers that are not for temporaries and the frame are left as they are. -/
structure Temporary (m m' : ArgState) : Prop where
  frame : m'.frame = m.frame
  regs : ∀ r, (∀ c, r ≠ .scratch c) → m'.regs r = m.regs r

theorem Temporary.value (h : Temporary m m') (hslot : ∀ c, slot.loc ≠ .reg (.scratch c)) :
    m'.value slot = m.value slot := by
  refine DataState.value_congr (fun r hr => h.regs r fun c hc => ?_) (by rw [h.frame])
  subst hc
  exact hslot c hr

/-- An argument is written to the stack. -/
theorem storeArg_passes (e : Emitter) (hscalar : slot.ty ≠ .v128)
    (hoffset : slot.offset < UInt32.size)
    (hscratch : ∀ c, slot.loc ≠ .reg (.scratch c)) (hindex : index < UInt32.size) :
    ∃ code, e.Extends (e.storeArg slot slot.ty (.stack index)) code ∧
      ∀ (incoming : Nat → UInt64) (m : ArgState), ∃ m', passAll? incoming code m = some m' ∧
        Temporary m m' ∧ m'.outgoing = Function.update m.outgoing index (m.value slot) := by
  have hstore {incoming : Nat → UInt64} {m : ArgState} {r : Reg}
      (hr : slot.ty.narrow (m.regs r) = m.value slot) :
      passAll? incoming [(.storeStackArg slot.ty (.ofNat index) r : Instr Label)] m =
        some { m with outgoing := Function.update m.outgoing index (m.value slot) } := by
    refine passAll?_singleton ?_
    rw [passData?, if_neg hscalar, UInt32.toNat_ofNat_of_lt' hindex, hr]
  unfold storeArg
  dsimp only
  split
  next r hloc =>
    refine ⟨_, .emit e _, fun incoming m => ⟨_, hstore ?_, ⟨rfl, fun _ _ => rfl⟩, rfl⟩⟩
    rw [DataState.value, hloc]
  next hloc =>
    obtain ⟨code, hextends, hload⟩ := e.loadSlot_extends hscalar hoffset (.scratch slot.regClass)
    refine ⟨_, hextends.trans (.emit _ _), fun incoming m => ?_⟩
    have hrun := (hload m.toDataState).resolve_right fun h => hscratch _ h.2
    have hsame : Temporary m
        { m with toDataState := m.setReg slot.ty (.scratch slot.regClass) (m.value slot) } :=
      ⟨rfl, fun r hr => DataState.regs_setReg_of_ne (hr _) _ _⟩
    refine ⟨_, (passAll?_append (passAll?_of_moveAll? hrun)).trans (hstore ?_),
      ⟨rfl, hsame.regs⟩, ?_⟩
    · rw [hsame.value hscratch]
      simp only [DataState.regs_setReg, DataState.narrow_value]
    · dsimp only
      rw [hsame.value hscratch]

/-- All arguments that go on the stack are written. -/
theorem storeArgs_pass (h : Passable s args) (e : Emitter) :
    ∃ code, e.Extends (e.storeArgs args) code ∧
    ∀ (incoming : Nat → UInt64) (m : ArgState), ∃ m', passAll? incoming code m = some m' ∧
      Temporary m m' ∧
      (∀ a ∈ args, ∀ index, a.2.2 = .stack index → m'.outgoing index = m.value a.1) ∧
      ∀ index, (∀ a ∈ args, a.2.2 ≠ .stack index) → m'.outgoing index = m.outgoing index := by
  induction args generalizing e with
  | nil =>
    exact ⟨[], .refl e, fun incoming m => ⟨m, rfl, ⟨rfl, fun _ _ => rfl⟩, forall_mem_nil _, fun _ _ => rfl⟩⟩
  | cons a args ih =>
    obtain ⟨slot, ty, place⟩ := a
    obtain ⟨⟨hslot, hty⟩, hslots⟩ := forall_mem_cons.1 h.slots
    obtain rfl : ty = slot.ty := hty
    obtain ⟨hplace, hplaces⟩ := nodup_cons.1 h.places
    obtain ⟨hindex, hsmall⟩ := forall_mem_cons.1 h.small
    have hrest : Passable s args := ⟨h.ready, h.scratch, hslots, hplaces, hsmall⟩
    cases place with
    | reg r =>
      obtain ⟨code, hextends, hcode⟩ := ih hrest e
      refine ⟨code, hextends, fun incoming m => ?_⟩
      obtain ⟨m', hrun, htemp, hargs, hother⟩ := hcode incoming m
      exact ⟨m', hrun, htemp, forall_mem_cons.2 ⟨nofun, hargs⟩, fun index hnone =>
        hother index fun a ha => hnone a (mem_cons_of_mem _ ha)⟩
    | stack index =>
      obtain ⟨code₁, hextends₁, hcode₁⟩ := storeArg_passes e (h.ready.toPlain.scalar_slot hslot)
        (h.ready.offset_lt hslot) (h.scratch _ hslot) (hindex index rfl)
      obtain ⟨code, hextends, hcode⟩ := ih hrest (e.storeArg slot slot.ty (.stack index))
      refine ⟨code₁ ++ code, hextends₁.trans hextends, fun incoming m => ?_⟩
      obtain ⟨m₁, hrun₁, htemp₁, hout₁⟩ := hcode₁ incoming m
      obtain ⟨m', hrun, htemp, hargs, hother⟩ := hcode incoming m₁
      refine ⟨m', (passAll?_append hrun₁).trans hrun, ⟨htemp.frame.trans htemp₁.frame, fun r hr =>
        (htemp.regs r hr).trans (htemp₁.regs r hr)⟩,
          forall_mem_cons.2 ⟨?_, fun a ha index' ha' => ?_⟩,
        fun index' hnone => ?_⟩
      · rintro _ ⟨⟩
        -- No later argument goes to the same place.
        rw [hother index fun a ha heq =>
          hplace (heq ▸ mem_map_of_mem (f := fun a => a.2.2) ha), hout₁, Function.update_self]
      · rw [hargs a ha index' ha', htemp₁.value (h.scratch _ (hslots a ha).1)]
      · rw [hother index' fun a ha => hnone a (mem_cons_of_mem _ ha),
          hout₁, Function.update_of_ne]
        rintro rfl
        exact hnone _ mem_cons_self rfl

/-- The moves to argument registers: targets and sources. -/
def regArgs (args : List (Slot × ValueType × ArgPlace)) : List (Slot × Slot) :=
  args.filterMap fun a => match a.2.2 with
    | .reg r => some (⟨a.1.ty, .reg r, a.1.offset⟩, a.1)
    | .stack _ => none

theorem mem_regArgs {p : Slot × Slot} (h : p ∈ regArgs args) : ∃ a ∈ args, ∃ r, a.2.2 = .reg r ∧
    p = (⟨a.1.ty, .reg r, a.1.offset⟩, a.1) := by
  obtain ⟨a, ha, hp⟩ := mem_filterMap.1 h
  split at hp
  next r hr =>
    cases hp
    exact ⟨a, ha, r, hr, rfl⟩
  next => cases hp

theorem loadArgs_eq (base : Nat) (args : List (Slot × ValueType × ArgPlace)) :
    loadArgs { deepest := base } args = .ofSlots base (regArgs args) := by
  unfold loadArgs Transfer.ofSlots
  generalize ({ deepest := base } : Transfer) = t
  induction args generalizing t with
  | nil => rfl
  | cons a args ih =>
    obtain ⟨slot, ty, place⟩ := a
    cases place with
    | reg r => exact ih _
    | stack index => exact ih _

theorem sound_regArgs (h : Passable s args) {base : Nat} (hbase : s.topOffset ≤ base) :
    Transfer.Sound base (regArgs args) := by
  refine ⟨fun p hp => ?_, fun p hp => ?_, ?_, ?_⟩
  · obtain ⟨a, ha, r, -, rfl⟩ := mem_regArgs hp
    have hscalar := h.ready.toPlain.scalar_slot (h.slots a ha).1
    exact ⟨rfl, hscalar⟩
  · obtain ⟨a, ha, r, -, rfl⟩ := mem_regArgs hp
    obtain ⟨haligned, -, hle⟩ := h.ready.toPlain.offset_mem (h.slots a ha).1
    rw [h.ready.toPlain.topOffset_eq] at hbase
    exact ⟨⟨haligned, hle.trans hbase⟩, haligned, hle.trans hbase⟩
  · have hplaces := h.places
    rw [List.Nodup, pairwise_map] at hplaces
    rw [List.Nodup, pairwise_filterMap, regArgs, pairwise_filterMap]
    refine hplaces.imp fun {a b} hne p hp q hq x hx y hy heq => hne ?_
    split at hp <;> cases hp
    split at hq <;> cases hq
    next _ _ hr _ _ hr' =>
      cases hx
      cases hy
      cases heq
      rw [hr, hr']
  · have hnone : (regArgs args).filterMap Transfer.storeOf? = [] := by
      refine filterMap_eq_nil_iff.2 fun p hp => ?_
      obtain ⟨a, ha, r, -, rfl⟩ := mem_regArgs hp
      rfl
    rw [hnone]
    exact List.Pairwise.nil

/-- What a call finds: the arguments in their places, and the values below them where the state has
them. -/
structure Passes (base : Nat) (params : List ValueType) (s : CacheState) (m : ArgState)
    (words : List UInt64) : Prop where
  args : ∀ i place, (ArgPlace.ofTypes params)[i]? = some place →
    words[base + i]? = some (place.word m.regs m.outgoing)
  narrow : ∀ p ∈ params.zip (ArgPlace.ofTypes params),
    p.1.narrow (p.2.word m.regs m.outgoing) = p.2.word m.regs m.outgoing
  rest : m.Carries s (words.take base)

theorem extends_transfer (e : Emitter) (t : Transfer) : e.Extends (e.transfer t) t.code.1 := by
  have h := emitAll_eq t.code.1 e
  exact ⟨(congrArg Emitter.buffer h :), (congrArg Emitter.numLocals h :)⟩

variable {ts params : List ValueType}

/-- The arguments of a call, each with its type and its place. -/
theorem passable_args (h : s.Ready) (hscratch : ∀ slot ∈ s.slots, ∀ c, slot.loc ≠ .reg (.scratch c))
    (htypes : s.types = ts ++ params) :
    let args := (s.slots.toList.drop ts.length).zip (params.zip (ArgPlace.ofTypes params))
    Passable s args ∧ ∀ i place, (ArgPlace.ofTypes params)[i]? = some place →
      ∃ slot, s.slots[ts.length + i]? = some slot ∧ params[i]? = some slot.ty ∧
        (slot, slot.ty, place) ∈ args := by
  intro args
  have hplaces : (ArgPlace.ofTypes params).length = params.length := ArgPlace.length_assign _ _ _ _
  have hheight : s.height = ts.length + params.length := by
    rw [← CacheState.length_types, htypes, length_append]
  have hlength : (s.slots.toList.drop ts.length).length = params.length := by
    rw [length_drop, Array.length_toList, ← CacheState.height, hheight]
    omega
  have hentry {i : Nat} {a : Slot × ValueType × ArgPlace} (ha : args[i]? = some a) :
      s.slots[ts.length + i]? = some a.1 ∧ params[i]? = some a.2.1 ∧
        (ArgPlace.ofTypes params)[i]? = some a.2.2 := by
    obtain ⟨hslot, hrest⟩ := getElem?_zip_eq_some.1 ha
    rw [getElem?_drop, Array.getElem?_toList] at hslot
    exact ⟨hslot, getElem?_zip_eq_some.1 hrest⟩
  have htype {i : Nat} {slot : Slot} (hslot : s.slots[ts.length + i]? = some slot) :
      params[i]? = some slot.ty := by
    have hty : s.types[ts.length + i]? = some slot.ty := by
      rw [CacheState.types, getElem?_map, Array.getElem?_toList, hslot, Option.map_some]
    rwa [htypes, getElem?_append_right (Nat.le_add_right _ _), Nat.add_sub_cancel_left] at hty
  obtain ⟨hnodup, hsmall⟩ := ArgPlace.ofTypes_places params
  refine ⟨⟨h, hscratch, fun a ha => ?_, ?_, fun a ha index hindex => ?_⟩, fun i place hplace => ?_⟩
  · obtain ⟨i, hi⟩ := getElem?_of_mem ha
    obtain ⟨hslot, hty, -⟩ := hentry hi
    exact ⟨Array.mem_of_getElem? hslot, Option.some.inj (hty.symm.trans (htype hslot))⟩
  · have hmap : args.map (fun a => a.2.2) = ArgPlace.ofTypes params := by
      show args.map (Prod.snd ∘ Prod.snd) = _
      rw [← map_map, map_snd_zip, map_snd_zip]
      · omega
      · rw [length_zip]
        omega
    rw [hmap]
    exact hnodup
  · obtain ⟨i, hi⟩ := getElem?_of_mem ha
    have hlt := hsmall index (hindex ▸ mem_of_getElem? (hentry hi).2.2)
    have hroom := h.room
    have hbound := h.small
    omega
  · have hi : i < params.length := by
      rw [← hplaces]
      exact (List.getElem?_eq_some_iff.1 hplace).1
    obtain ⟨slot, hslot⟩ : ∃ slot, s.slots[ts.length + i]? = some slot :=
      ⟨_, Array.getElem?_eq_getElem (by rw [← CacheState.height]; omega)⟩
    refine ⟨slot, hslot, htype hslot,
      mem_of_getElem? (i := i) (getElem?_zip_eq_some.2 ⟨?_,
      getElem?_zip_eq_some.2 ⟨htype hslot, hplace⟩⟩)⟩
    rwa [getElem?_drop, Array.getElem?_toList]

theorem prepareCall_passes (h : e.state.Ready)
    (hscratch : ∀ slot ∈ e.state.slots, ∀ c, slot.loc ≠ .reg (.scratch c))
    (htypes : e.state.types = ts ++ params) :
    Succeeds (prepareCall params) e fun _ e' => e'.state.types = ts ∧ e'.state.Unbacked ∧
      (∀ r, e'.state.isUsed r = false) ∧
        (e'.state.maxOffset < UInt32.size → ∃ code, e.Extends e' code ∧
        ∀ (incoming : Nat → UInt64) (m : ArgState) (words : List UInt64), m.Carries e.state words →
          ∃ m', passAll? incoming code m = some m' ∧
            Passes ts.length params e'.state m' words) := by
  have hheight : e.state.height = ts.length + params.length := by
    rw [← CacheState.length_types, htypes, length_append]
  have hbase : e.state.height - params.length = ts.length := by omega
  have hsucceeds : Succeeds (prepareCall params) e fun _ _ => True := by
    refine .get_bind ?_
    rw [if_neg (by omega)]
    exact .modify_bind (.get_bind (.modify_bind (.of_modify trivial)))
  obtain ⟨_, e', hrun, -⟩ := hsucceeds.exists_run
  refine .of_run hrun ?_
  have he' := eq_of_prepareCall hrun
  have hunbacked := unbacked_of_prepareCall hrun
  simp only [hbase, ArgPlace.passed_eq_ofTypes] at he' ⊢
  have hbrought := spillWhere_brings h (·.reg?.isSome) (range ts.length)
  have hscratch' : ∀ slot ∈ (e.spillWhere (·.reg?.isSome) (range ts.length)).state.slots, ∀ c,
      slot.loc ≠ .reg (.scratch c) :=
        fun slot hslot c hc => hscratch slot (loc_spillWhere hslot hc).1 c hc
  generalize e.spillWhere (·.reg?.isSome) (range ts.length) = spilled at he' hbrought hscratch'
  have htypes' : spilled.state.types = ts ++
    params := by rw [← htypes, hbrought.types, append_nil]
  obtain ⟨hpassable, hentry⟩ := passable_args hbrought.ready hscratch' htypes'
  generalize (spilled.state.slots.toList.drop ts.length).zip
    (params.zip (ArgPlace.ofTypes params)) = args at he' hpassable hentry
  obtain ⟨deepest, hdeepest⟩ :
      ∃ deepest, deepest = max spilled.state.maxOffset spilled.state.topOffset :=
    ⟨_, rfl⟩
  replace he' : e' = ((spilled.storeArgs args).transfer
      (.ofSlots deepest (regArgs args))).modifyState (·.dropValues params.length) := by
    rw [← loadArgs_eq, hdeepest]
    exact he'
  obtain ⟨code, hcode⟩ : ∃ code : List (Instr Label) × Nat,
      code = (Transfer.ofSlots deepest (regArgs args)).code :=
    ⟨_, rfl⟩
  have hstate : e'.state = (spilled.state.recordOffset code.2).dropValues params.length := by
    rw [he', hcode, modifyState]
    show ((emitAll _ _).state.recordOffset _).dropValues _ = _
    rw [emitAll_eq, state_storeArgs]
    rfl
  obtain ⟨hregular, hts, hmax⟩ :=
    (hbrought.ready.toPlain.regular.recordOffset code.2).dropValues htypes'
  rw [← hstate] at hregular hts hmax
  have hplain : e'.state.Plain := .of_regular hregular hbrought.ready.toPlain (by
    rw [hts, htypes']
    exact subset_append_left _ _)
  refine ⟨hts, hunbacked, fun r => hplain.isUsed_eq_false.2 fun slot hslot hloc => ?_,
    fun hsmall => ?_⟩
  · have hnone := hunbacked slot hslot
    rw [Slot.reg?, hloc] at hnone
    cases hnone
  rw [hmax] at hsmall
  have hdeep : code.2 < UInt32.size := Nat.lt_of_le_of_lt (Nat.le_max_right _ _) hsmall
  obtain ⟨code₁, hextends₁, hbrings⟩ := hbrought.code
  obtain ⟨code₂, hextends₂, hcode₂⟩ := storeArgs_pass hpassable spilled
  refine ⟨code₁ ++ code₂ ++ code.1, ?_, fun incoming m words hm => ?_⟩
  · rw [he', hcode]
    exact ((hextends₁.trans hextends₂).trans (extends_transfer _ _)).modifyState _
  obtain ⟨d₁, hrun₁, hcarries₁, -⟩ := hbrings m.toDataState words hm
  rw [hbrought.height, take_of_length_le (Nat.le_of_eq hm.length)] at hcarries₁
  obtain ⟨m₂, hrun₂, htemp, hout, -⟩ := hcode₂ incoming { m with toDataState := d₁ }
  have htop : spilled.state.topOffset ≤ deepest := hdeepest ▸ Nat.le_max_right _ _
  obtain ⟨d₃, hrun₃, hperforms⟩ :=
    Transfer.performs_code (τ := Label) (sound_regArgs hpassable htop)
    (hcode ▸ hdeep) m₂.toDataState
  -- Arguments are in their places.
  have hplaced (i : Nat) (place : ArgPlace) (hplace : (ArgPlace.ofTypes params)[i]? = some place) :
      ∃ slot, words[ts.length + i]? = some (d₁.value slot) ∧ params[i]? = some slot.ty ∧
        d₁.value slot = place.word d₃.regs m₂.outgoing := by
    obtain ⟨slot, hslot, hty, hmem⟩ := hentry i place hplace
    refine ⟨slot, hcarries₁.value hslot, hty, ?_⟩
    have hloc := hscratch' slot (Array.mem_of_getElem? hslot)
    have hvalue : m₂.value slot = d₁.value slot := htemp.value hloc
    cases place with
    | stack index => exact (hout _ hmem index rfl).symm
    | reg r =>
      have hp : ((⟨slot.ty, .reg r, slot.offset⟩, slot) : Slot × Slot) ∈ regArgs args :=
        mem_filterMap.2 ⟨_, hmem, rfl⟩
      rcases hperforms.words _ hp r rfl with ⟨hsame, hregs⟩ | hregs
      · have hregs₂ : m₂.regs r = d₁.regs r := htemp.regs r fun c hc => hloc c (hc ▸ hsame)
        have hreg := hcarries₁.reg hslot hsame
        rw [hcarries₁.value hslot, ← hregs₂, ← hregs] at hreg
        exact Option.some.inj hreg
      · rw [← hvalue]
        exact hregs.symm
  refine ⟨{ m₂ with toDataState := d₃ }, ?_, fun i place hplace => ?_, fun p hp => ?_, ?_⟩
  · rw [passAll?_append ((passAll?_append (passAll?_of_moveAll? hrun₁)).trans hrun₂), hcode]
    exact passAll?_of_moveAll? hrun₃
  · obtain ⟨slot, hword, -, hvalue⟩ := hplaced i place hplace
    rw [hword, hvalue]
  · obtain ⟨i, hi⟩ := getElem?_of_mem hp
    obtain ⟨hty, hplace⟩ := getElem?_zip_eq_some.1 hi
    obtain ⟨slot, -, hslotty, hvalue⟩ := hplaced i p.2 hplace
    dsimp only
    rw [← hvalue, Option.some.inj (hty.symm.trans hslotty), DataState.narrow_value]
  · have hslots : e'.state.slots.toList = spilled.state.slots.toList.take ts.length := by
      rw [hstate, CacheState.slots_dropValues]
      congr 1
      show spilled.state.height - _ = _
      rw [hbrought.height, hbase]
    have hrealizes : spilled.state.slots.toList.map d₁.value = words := hcarries₁.realizes
    refine ⟨?_, fun slot hslot r hr => ?_⟩
    · rw [DataState.Realizes, ← hrealizes, ← map_take, ← hslots]
      refine map_congr_left fun slot hslot => DataState.value_congr (fun r hr => ?_) ?_
      · have hnone := hunbacked slot (Array.mem_toList_iff.1 hslot)
        rw [Slot.reg?, hr] at hnone
        cases hnone
      · have hmem : slot ∈ spilled.state.slots :=
          Array.mem_toList_iff.1 (mem_of_mem_take (hslots ▸ hslot))
        have hle := (hbrought.ready.toPlain.offset_mem hmem).2.2
        rw [← hbrought.ready.toPlain.topOffset_eq] at hle
        refine FrameMemory.slot_congr fun a hlow _ => ?_
        rw [← htemp.frame]
        refine hperforms.frame a (by omega) fun p hp o ho => ?_
        obtain ⟨a', -, r, -, rfl⟩ := mem_regArgs hp
        cases ho
    · have hnone := hunbacked slot hslot
      rw [Slot.reg?, hr] at hnone
      cases hnone

end Emitter

/-! ## The callee -/

variable {r : Reg} {c : RegClass}

theorem Reg.regClass_of_mem_params (h : r ∈ Reg.params c) : r.regClass = c := by
  have hall : ∀ r ∈ Reg.params c, r.regClass = c := by cases c <;> decide
  exact hall r h

theorem RegClass.scratch_apart (c c' : RegClass) :
    Reg.scratch c ∉ Reg.params c' ∧ c'.cacheRegs.contains (.scratch c) = false := by
  cases c <;> cases c' <;> decide

variable {loc : Location}

theorem DataState.Carries.push {d d' : DataState} {s : CacheState} {words : List UInt64}
    {ty : ValueType} {word : UInt64} (h : d.Carries s words)
    (hregs : ∀ slot ∈ s.slots, ∀ r, slot.loc = .reg r → d'.regs r = d.regs r)
    (hframe : ∀ slot ∈ s.slots, d'.frame.slot slot.offset = d.frame.slot slot.offset)
    (hvalue : d'.value ⟨ty, loc, s.nextOffset ty⟩ = word)
    (hzero : ∀ r, loc = .reg r → ty.narrow (d'.regs r) = d'.regs r) :
    d'.Carries (s.push ty loc) (words ++ [word]) := by
  obtain ⟨hrealizes, hextends⟩ := h.congr rfl hregs hframe
  refine ⟨?_, fun slot hslot r hr => ?_⟩
  · have hrealizes' : s.slots.toList.map d'.value = words := hrealizes
    rw [Realizes, CacheState.slots_push, Array.toList_push, map_append,
      hrealizes', map_singleton, hvalue]
  · rw [CacheState.slots_push] at hslot
    rcases Array.mem_push.1 hslot with hslot | rfl
    · exact hextends slot hslot r hr
    · exact hzero r hr

/-- The instruction leaves the argument registers as they are. -/
def Instr.KeepsArgs (i : Instr Label) : Prop :=
  ∀ (incoming : Nat → UInt64) (m m' : ArgState), i.passData? incoming m = some m' →
    ∀ c, ∀ r ∈ Reg.params c, m'.regs r = m.regs r

theorem Instr.passAll?_keepsArgs {code : List (Instr Label)} (h : ∀ i ∈ code, i.KeepsArgs)
    {incoming : Nat → UInt64} (hrun : passAll? incoming code m = some m')
    (hr : r ∈ Reg.params c) : m'.regs r = m.regs r := by
  induction code generalizing m with
  | nil =>
    cases hrun
    rfl
  | cons i code ih =>
    obtain ⟨hi, hcode⟩ := forall_mem_cons.1 h
    rw [passAll?, Option.bind_eq_some_iff] at hrun
    obtain ⟨m₁, hrun₁, hrun⟩ := hrun
    rw [ih hcode hrun, hi incoming m m₁ hrun₁ c r hr]

theorem Instr.keepsArgs_loadStackArg {ty : ValueType} (h : ∀ c, r ∉ Reg.params c) (index : UInt32) :
    (.loadStackArg ty r index : Instr Label).KeepsArgs := by
  intro incoming m m' hrun c q hq
  rw [passData?] at hrun
  split at hrun <;> cases hrun
  refine DataState.regs_setReg_of_ne ?_ _ _
  rintro rfl
  exact h c hq

theorem Instr.keepsArgs_spill (ty : ValueType) (offset : UInt32) (r : Reg) :
    (.spill ty offset r : Instr Label).KeepsArgs := by
  intro incoming m m' hrun c q hq
  simp only [passData?, moveData?] at hrun
  split at hrun <;> cases hrun
  rfl

namespace Lowering

variable {s s' s'' : Lowering} {ty : ValueType} {types types' : List ValueType} {place : ArgPlace}
  {places places' : List ArgPlace} {gps fps : List Reg}

/-- The code takes parameters from these places, and changes no argument register. -/
structure Binds (s s' : Lowering) (types : List ValueType) (places : List ArgPlace) : Prop where
  pushed : s'.emitter.state.types = s.emitter.state.types ++ types
  code : ∃ code, s.emitter.Extends s'.emitter code ∧ (∀ i ∈ code, i.KeepsArgs) ∧
    ∀ (incoming : Nat → UInt64) (m : ArgState) (words : List UInt64),
      m.Carries s.emitter.state words →
      (∀ p ∈ types.zip places, p.1.narrow (p.2.word m.regs incoming) = p.2.word m.regs incoming) →
      ∃ m', passAll? incoming code m = some m' ∧
        m'.Carries s'.emitter.state (words ++ places.map (·.word m.regs incoming))

theorem Binds.append (h : s.Binds s' types places) (h' : s'.Binds s'' types' places')
    (hlength : types.length = places.length)
      (hplaces : ∀ r, .reg r ∈ places' → ∃ c, r ∈ Reg.params c) :
    s.Binds s'' (types ++ types') (places ++ places') := by
  obtain ⟨code, hextends, hkeeps, hcode⟩ := h.code
  obtain ⟨code', hextends', hkeeps', hcode'⟩ := h'.code
  refine ⟨by rw [h'.pushed, h.pushed, append_assoc], code ++ code', hextends.trans hextends',
    forall_mem_append.2 ⟨hkeeps, hkeeps'⟩, fun incoming m words hm hnarrow => ?_⟩
  rw [zip_append hlength] at hnarrow
  obtain ⟨hnarrow, hnarrow'⟩ := forall_mem_append.1 hnarrow
  obtain ⟨m₁, hrun, hcarries⟩ := hcode incoming m words hm hnarrow
  -- The later places are as they were.
  have hword : ∀ place ∈ places', place.word m₁.regs incoming = place.word m.regs incoming := by
    intro place hplace
    cases place with
    | stack index => rfl
    | reg r =>
      obtain ⟨c, hr⟩ := hplaces r hplace
      exact passAll?_keepsArgs hkeeps hrun hr
  obtain ⟨m', hrun', hcarries'⟩ := hcode' incoming m₁ _ hcarries fun p hp => by
    rw [hword p.2 (of_mem_zip hp).2]
    exact hnarrow' p hp
  refine ⟨m', (passAll?_append hrun).trans hrun', ?_⟩
  rw [map_append, ← append_assoc, ← map_congr_left hword]
  exact hcarries'

/-- In the middle of it: argument registers that do not come later hold parameters. -/
structure Binding (s : Lowering) (gps fps : List Reg) : Prop where
  plain : s.emitter.state.Plain
  scratch : ∀ slot ∈ s.emitter.state.slots, ∀ c, slot.loc ≠ .reg (.scratch c)
  bound : ∀ c, ∀ r ∈ Reg.params c, r ∈ gps ++ fps ∨ ∃ slot ∈ s.emitter.state.slots,
    slot.loc = .reg r
  gp : ∀ r ∈ gps, r ∈ Reg.params .gp
  fp : ∀ r ∈ fps, r ∈ Reg.params .fp
  nodup : (gps ++ fps).Nodup

/-- A parameter is taken. -/
structure BindsOne (s s' : Lowering) (ty : ValueType) (place : ArgPlace) : Prop
    extends s.Binds s' [ty] [place] where
  push : ∃ loc, s'.emitter.state = s.emitter.state.push ty loc ∧ (∀ c, loc ≠ .reg (.scratch c)) ∧
    ∀ r, place = .reg r → loc = .reg r

theorem Binding.next (h : s.Binding gps fps) (hty : ty ≠ .v128) (hone : s.BindsOne s' ty place)
    {gps' fps' : List Reg} (hgps : gps'.Sublist gps) (hfps : fps'.Sublist fps)
    (htaken : ∀ r ∈ gps ++ fps, r ∈ gps' ++ fps' ∨ place = .reg r) : s'.Binding gps' fps' := by
  obtain ⟨loc, hstate, hscratch, hreg⟩ := hone.push
  have hslots : s'.emitter.state.slots =
      s.emitter.state.slots.push ⟨ty, loc, s.emitter.state.nextOffset ty⟩ := by
    rw [hstate, CacheState.slots_push]
  refine ⟨hstate ▸ h.plain.push hty loc, fun slot hslot c => ?_, fun c r hr => ?_,
    fun r hr => h.gp r (hgps.subset hr), fun r hr => h.fp r (hfps.subset hr),
      h.nodup.sublist (hgps.append hfps)⟩
  · rw [hslots] at hslot
    rcases Array.mem_push.1 hslot with hslot | rfl
    · exact h.scratch slot hslot c
    · exact hscratch c
  · rw [hslots]
    rcases h.bound c r hr with hleft | ⟨slot, hslot, hloc⟩
    · refine (htaken r hleft).imp_right fun hplace => ?_
      exact ⟨_, Array.mem_push_self, hreg r hplace⟩
    · exact .inr ⟨slot, Array.mem_push_of_mem _ hslot, hloc⟩

theorem bindsOne_of_push (code : List (Instr Label))
    (hstate : s'.emitter.state = s.emitter.state.push ty loc)
      (hscratch : ∀ c, loc ≠ .reg (.scratch c))
    (hreg : ∀ r, place = .reg r → loc = .reg r) (hextends : s.emitter.Extends s'.emitter code)
    (hkeeps : ∀ i ∈ code, i.KeepsArgs) (hcode : ∀ (incoming : Nat → UInt64) (m : ArgState),
      ty.narrow (place.word m.regs incoming) = place.word m.regs incoming →
      ∃ m', passAll? incoming code m = some m' ∧
        (∀ slot ∈ s.emitter.state.slots, ∀ r, slot.loc = .reg r → m'.regs r = m.regs r) ∧
        (∀ slot ∈ s.emitter.state.slots, m'.frame.slot slot.offset = m.frame.slot slot.offset) ∧
        m'.value ⟨ty, loc, s.emitter.state.nextOffset ty⟩ = place.word m.regs incoming ∧
        ∀ r, loc = .reg r → ty.narrow (m'.regs r) = m'.regs r) : s.BindsOne s' ty place := by
  refine ⟨⟨by rw [hstate, CacheState.types_push], code, hextends, hkeeps,
    fun incoming m words hm hnarrow => ?_⟩, loc, hstate, hscratch, hreg⟩
  obtain ⟨m', hrun, hregs, hframe, hvalue, hzero⟩ := hcode incoming m (hnarrow _ mem_cons_self)
  rw [hstate]
  exact ⟨m', hrun, hm.push hregs hframe hvalue hzero⟩

theorem run_pushReg (hr : r.regClass = .ofType ty) (s : Lowering) :
    (pushReg ty r).run.run s = (.ok (), s.mapEmitter (·.modifyState (·.push ty (.reg r)))) := by
  rw [pushReg, run_liftEmit, Emitter.pushReg, if_pos hr]
  rfl

theorem pushReg_binds (hr : r.regClass = .ofType ty) (hscratch : ∀ c, r ≠ .scratch c) :
    Succeeds (pushReg ty r) s fun _ s' => s.BindsOne s' ty (.reg r) := by
  refine .of_run (run_pushReg hr s) <|
    bindsOne_of_push [] rfl (fun c hc => ?_) (fun q hq => ?_) ⟨rfl, rfl⟩ (forall_mem_nil _)
    fun incoming m hnarrow => ⟨m, rfl, fun _ _ _ _ => rfl, fun _ _ => rfl, hnarrow, fun q hq => ?_⟩
  · cases hc
    exact hscratch c rfl
  · cases hq
    rfl
  · cases hq
    exact hnarrow

/-- The registers for arguments of the class are in use, so a parameter from the stack goes
elsewhere. -/
theorem stackParam_binds (h : s.Binding gps fps) (hty : ty ≠ .v128) (hindex : index < UInt32.size)
    (hroom : staticFrameSize + 8 * (s.emitter.state.height + 1) < UInt32.size)
    (hbound : ∀ r ∈ Reg.params (.ofType ty), r ∉ gps ++ fps) :
    Succeeds (stackParam ty index) s fun _ s' => s.BindsOne s' ty (.stack index) := by
  have hload (incoming : Nat → UInt64) (m : ArgState) (r : Reg) :
      passAll? incoming [(.loadStackArg ty r (.ofNat index) : Instr Label)] m =
        some { m with toDataState := m.setReg ty r (incoming index) } := by
    refine passAll?_singleton ?_
    rw [passData?, if_neg hty, UInt32.toNat_ofNat_of_lt' hindex]
  refine .get_bind ?_
  dsimp only
  split
  next r hr =>
    obtain ⟨hcache, hfree, -⟩ := CacheState.unused?_eq_some hr
    have hclass := CacheState.regClass_of_unused? hr
    have hunused := h.plain.isUsed_eq_false.1 hfree
    have hparams : ∀ c, r ∉ Reg.params c := by
      intro c hmem
      obtain rfl : c = .ofType ty := (Reg.regClass_of_mem_params hmem).symm.trans hclass
      rcases h.bound _ r hmem with hleft | ⟨slot, hslot, hloc⟩
      · exact hbound r hmem hleft
      · exact hunused slot hslot hloc
    refine .modify_bind <| .of_run (run_pushReg hclass _) <|
      bindsOne_of_push [_] rfl (fun c hc => ?_) (by rintro _ ⟨⟩)
      ⟨rfl, rfl⟩ (forall_mem_singleton.2 (keepsArgs_loadStackArg hparams _))
      fun incoming m hnarrow =>
        ⟨_, hload incoming m r, fun slot hslot q hq => ?_, fun _ _ => rfl, ?_, fun q hq => ?_⟩
    · cases hc
      rw [(RegClass.scratch_apart c (.ofType ty)).2] at hcache
      cases hcache
    · refine DataState.regs_setReg_of_ne ?_ _ _
      rintro rfl
      exact hunused slot hslot hq
    · show ty.narrow ((m.setReg ty r _).regs r) = incoming index
      rw [DataState.regs_setReg, ValueType.narrow_narrow]
      exact hnarrow
    · cases hq
      dsimp only
      rw [DataState.regs_setReg, ValueType.narrow_narrow]
  next =>
    have hpushed := h.plain.push hty .stack
    have htop : (s.emitter.state.push ty .stack).topOffset = s.emitter.state.nextOffset ty := by
      rw [CacheState.topOffset, CacheState.slots_push, Array.back?_push]
    have hnext : s.emitter.state.nextOffset ty = staticFrameSize +
        8 * (s.emitter.state.height + 1) := by
      rw [← htop, hpushed.topOffset_eq, CacheState.height, CacheState.slots_push, Array.size_push,
        CacheState.height]
    have hspill (incoming : Nat → UInt64) (m : ArgState) (r : Reg) :
        passAll? incoming
          [(.spill ty (.ofNat (s.emitter.state.push ty .stack).topOffset) r : Instr Label)] m =
          some { m with
            toDataState := m.setSlot ty (s.emitter.state.nextOffset ty) (m.regs r) } := by
      refine passAll?_of_moveAll? (moveAll?_singleton ?_)
      rw [moveData?, if_neg hty, htop, UInt32.toNat_ofNat_of_lt' (hnext ▸ hroom)]
    have hframe (r : Reg) : Location.stack ≠ .reg r := by rintro ⟨⟩
    have hplace (r : Reg) : ArgPlace.stack index ≠ .reg r := by rintro ⟨⟩
    have hextends := ((Emitter.Extends.emit s.emitter
      (.loadStackArg ty (.scratch (.ofType ty)) (.ofNat index))).modifyState
        (·.push ty .stack)).trans (.emit _ (.spill ty
          (.ofNat (s.emitter.state.push ty .stack).topOffset) (.scratch (.ofType ty))))
    refine .modify_bind (.of_modify (bindsOne_of_push _ rfl
      (fun _ => hframe _) (fun r hr => (hplace r hr).elim) hextends
      (forall_mem_append.2 ⟨forall_mem_singleton.2
        (keepsArgs_loadStackArg (fun c => (RegClass.scratch_apart _ c).1) _),
          forall_mem_singleton.2 (keepsArgs_spill _ _ _)⟩)
      fun incoming m hnarrow =>
        ⟨_, (passAll?_append (hload incoming m _)).trans (hspill incoming _ _),
        fun slot hslot q hq => ?_, fun slot hslot => ?_, ?_, fun r hr => (hframe r hr).elim⟩))
    · refine DataState.regs_setReg_of_ne ?_ _ _
      rintro rfl
      exact h.scratch slot hslot _ hq
    · refine FrameMemory.slot_setSlot_apart _ _ _ _ ?_
      have hle := (h.plain.offset_mem hslot).2.2
      omega
    · show ty.narrow (((m.setReg ty _ _).frame.setSlot _ _).slot _) = incoming index
      rw [FrameMemory.slot_setSlot, DataState.regs_setReg, ValueType.narrow_narrow,
        ValueType.narrow_narrow]
      exact hnarrow

theorem assign_binds {f : ValueType × ArgPlace → LowerM Unit}
    (hreg : ∀ ty r, f (ty, .reg r) = pushReg ty r)
    (hstack : ∀ ty index, f (ty, .stack index) = stackParam ty index) (h : s.Binding gps fps)
      {stacked : Nat}
    (hstacked : stacked ≤ s.emitter.state.height) (hscalar : ∀ ty ∈ types, ty ≠ .v128)
    (hroom : staticFrameSize + 8 * (s.emitter.state.height + types.length) < UInt32.size) :
    Succeeds ((types.zip (ArgPlace.assign gps fps stacked types)).forM f) s fun _ s' =>
      s.Binds s' types (ArgPlace.assign gps fps stacked types) := by
  induction types generalizing gps fps stacked s with
  | nil =>
    refine .of_pure ⟨(append_nil _).symm, [], .refl _, forall_mem_nil _,
      fun _ m words hm _ => ⟨m, rfl, ?_⟩⟩
    rw [ArgPlace.assign, map_nil, append_nil]
    exact hm
  | cons ty types ih =>
    obtain ⟨hty, hrest⟩ := forall_mem_cons.1 hscalar
    rw [length_cons] at hroom
    have hstep {place : ArgPlace} {gps' fps' : List Reg} {stacked' : Nat} (hgps : gps'.Sublist gps)
        (hfps : fps'.Sublist fps) (htaken : ∀ r ∈ gps ++ fps, r ∈ gps' ++ fps' ∨ place = .reg r)
        (hstacked' : stacked' ≤ stacked + 1)
        (hone : Succeeds (f (ty, place)) s fun _ s' => s.BindsOne s' ty place) :
        Succeeds (((ty :: types).zip (place :: ArgPlace.assign gps' fps' stacked' types)).forM f)
          s fun _ s' =>
          s.Binds s' (ty :: types) (place :: ArgPlace.assign gps' fps' stacked' types) := by
      rw [zip_cons_cons]
      refine .bind hone fun _ s₁ h₁ => ?_
      have hnext := h.next hty h₁ hgps hfps htaken
      have hheight : s₁.emitter.state.height = s.emitter.state.height + 1 := by
        rw [← CacheState.length_types, h₁.pushed, length_append, CacheState.length_types,
          length_singleton]
      refine (ih hnext (by omega) hrest (by omega)).mono fun _ s' h' =>
        h₁.toBinds.append h' rfl fun r hr => ?_
      have hmem := ((ArgPlace.assign_places hnext.nodup stacked' types).2 _ hr).1 r rfl
      exact (mem_append.1 hmem).elim (fun hr => ⟨_, hnext.gp r hr⟩) fun hr =>
        ⟨_, hnext.fp r hr⟩
    have hscratch {r : Reg} {c : RegClass} (hr : r ∈ Reg.params c) (c' : RegClass) :
        r ≠ .scratch c' :=
      fun heq => (RegClass.scratch_apart c' c).1 (heq ▸ hr)
    unfold ArgPlace.assign
    split
    next r gps' hgp =>
      have hr := h.gp r mem_cons_self
      refine hstep (sublist_cons_self _ _) (List.Sublist.refl _) (fun q hq => ?_)
        (Nat.le_succ _) ?_
      · rcases mem_cons.1 hq with rfl | hq
        · exact .inr rfl
        · exact .inl hq
      · rw [hreg]
        exact pushReg_binds ((Reg.regClass_of_mem_params hr).trans hgp.symm) (hscratch hr)
    next r fps' hfp =>
      have hr := h.fp r mem_cons_self
      refine hstep (List.Sublist.refl _) (sublist_cons_self _ _) (fun q hq => ?_)
        (Nat.le_succ _) ?_
      · rcases mem_cons.1 (perm_middle.mem_iff.1 hq) with rfl | hq
        · exact .inr rfl
        · exact .inl hq
      · rw [hreg]
        exact pushReg_binds ((Reg.regClass_of_mem_params hr).trans hfp.symm) (hscratch hr)
    next hgp hfp =>
      refine hstep (List.Sublist.refl _) (List.Sublist.refl _) (fun q hq => .inl hq)
        (Nat.le_refl _) ?_
      rw [hstack]
      refine stackParam_binds h hty (by omega) (by omega) fun r hr hmem => ?_
      -- Registers of the class are left only if the place is one.
      rcases mem_append.1 hmem with hmem | hmem
      · have hgpclass := (Reg.regClass_of_mem_params hr).symm.trans
          (Reg.regClass_of_mem_params (h.gp r hmem))
        obtain ⟨q, rest, rfl⟩ := exists_cons_of_ne_nil (ne_nil_of_mem hmem)
        exact hgp q rest hgpclass rfl
      · have hfpclass := (Reg.regClass_of_mem_params hr).symm.trans
          (Reg.regClass_of_mem_params (h.fp r hmem))
        obtain ⟨q, rest, rfl⟩ := exists_cons_of_ne_nil (ne_nil_of_mem hmem)
        exact hfp q rest hfpclass rfl

/-- A function takes its parameters from the places of arguments of their types. -/
theorem params_binds (h : s.emitter.state = {}) (hscalar : ∀ ty ∈ types, ty ≠ .v128)
    (hroom : staticFrameSize + 8 * types.length < UInt32.size) :
    Succeeds (params types) s fun _ s' => s.Binds s' types (ArgPlace.ofTypes types) := by
  have hnone {slot : Slot} : slot ∉ s.emitter.state.slots := by
    rw [h]
    exact Array.not_mem_empty slot
  have hbinding : s.Binding (Reg.params .gp) (Reg.params .fp) := by
    refine ⟨h ▸ CacheState.plain_empty, fun slot hslot => (hnone hslot).elim, fun c r hr => .inl ?_,
      fun r hr => hr, fun r hr => hr, by decide⟩
    cases c with
    | gp => exact mem_append_left _ hr
    | fp => exact mem_append_right _ hr
  have hheight : s.emitter.state.height = 0 := by rw [h]; rfl
  exact assign_binds (fun _ _ => rfl) (fun _ _ => rfl) hbinding (Nat.zero_le _) hscalar (by omega)

end Lowering

/-- Functions take their parameters from where callers put them. The values below the arguments are
then in the frame or constants, and no register is in use. What a function does to take parameters
changes no argument register. -/
theorem arguments_are_taken_where_passed {e : Emitter} (h : e.state.Ready)
    (hscratch : ∀ slot ∈ e.state.slots, ∀ c, slot.loc ≠ .reg (.scratch c))
    {ts params : List ValueType} (htypes : e.state.types = ts ++ params)
    {s : Lowering} (hs : s.emitter.state = {}) :
    ∃ e' s' bind, (Emitter.prepareCall params).run.run e = (.ok (), e') ∧
      (Lowering.params params).run.run s = (.ok (), s') ∧ e'.state.types = ts ∧ e'.state.Unbacked ∧
      (∀ r, e'.state.isUsed r = false) ∧ s'.emitter.state.types = params ∧
      s.emitter.Extends s'.emitter bind ∧ (∀ i ∈ bind, i.KeepsArgs) ∧
      (e'.state.maxOffset < UInt32.size → ∃ pass, e.Extends e' pass ∧
        ∀ (incoming : Nat → UInt64) (m : ArgState) (words : List UInt64), m.Carries e.state words →
          ∃ m', passAll? incoming pass m = some m' ∧
              (∀ i place, (ArgPlace.ofTypes params)[i]? = some place →
              words[ts.length + i]? = some (place.word m'.regs m'.outgoing)) ∧
            m'.Carries e'.state (words.take ts.length) ∧
            ∀ frame outgoing, ∃ m'',
              passAll? m'.outgoing bind ⟨⟨m'.regs, frame⟩, outgoing⟩ = some m'' ∧
              m''.Carries s'.emitter.state (words.drop ts.length)) := by
  have hheight : e.state.height = ts.length + params.length := by
    rw [← CacheState.length_types, htypes, length_append]
  have hscalar : ∀ ty ∈ params, ty ≠ .v128 := fun ty hty =>
    h.scalar ty (htypes ▸ mem_append_right _ hty)
  have hroom : staticFrameSize + 8 * params.length < UInt32.size := by
    have hroom := h.room
    have hsmall := h.small
    omega
  obtain ⟨_, e', hcall, hts, hunbacked, hunused, hpass⟩ :=
    (Emitter.prepareCall_passes h hscratch htypes).exists_run
  obtain ⟨_, s', hentry, hbinds⟩ := (Lowering.params_binds hs hscalar hroom).exists_run
  obtain ⟨bind, hextends, hkeeps, hbind⟩ := hbinds.code
  have htaken : s'.emitter.state.types = params := by
    rw [hbinds.pushed, hs]
    rfl
  refine ⟨e', s', bind, hcall, hentry, hts, hunbacked, hunused, htaken, hextends,
    hkeeps, fun hsmall => ?_⟩
  obtain ⟨pass, hextends', hpass⟩ := hpass hsmall
  refine ⟨pass, hextends', fun incoming m words hm => ?_⟩
  obtain ⟨m', hrun, hpasses⟩ := hpass incoming m words hm
  refine ⟨m', hrun, hpasses.args, hpasses.rest, fun frame outgoing => ?_⟩
  have hwords : words.drop ts.length =
      (ArgPlace.ofTypes params).map (·.word m'.regs m'.outgoing) := by
    refine ext_getElem? fun i => ?_
    rw [getElem?_drop, getElem?_map]
    cases hplace : (ArgPlace.ofTypes params)[i]? with
    | some place => rw [hpasses.args i place hplace, Option.map_some]
    | none =>
      have hle := getElem?_eq_none_iff.1 hplace
      rw [ArgPlace.ofTypes, ArgPlace.length_assign] at hle
      rw [getElem?_eq_none (by rw [hm.length]; omega), Option.map_none]
  have hempty : DataState.Carries ⟨m'.regs, frame⟩ s.emitter.state [] := by
    rw [hs]
    exact ⟨rfl, fun slot hslot => (Array.not_mem_empty slot hslot).elim⟩
  rw [hwords]
  exact hbind m'.outgoing ⟨⟨m'.regs, frame⟩, outgoing⟩ [] hempty hpasses.narrow

/-- Two arguments that are in the place of each other, above a value that stays. -/
theorem swapped_arguments_are_taken_where_passed :
    let below := ({} : CacheState).push .i64 (.reg (.gp 2))
    let e : Emitter := { state := (below.push .i32 (.reg (.gp 1))).push .i32 (.reg (.gp 0)) }
    ∃ e' s', (Emitter.prepareCall [.i32, .i32]).run.run e = (.ok (), e') ∧
      (Lowering.params [.i32, .i32]).run.run { options := {}, work := {} } = (.ok (), s') ∧
      e'.state.types = [.i64] ∧ (∀ r, e'.state.isUsed r = false) ∧
        s'.emitter.state.types = [.i32, .i32] ∧
      ∃ pass bind, e.Extends e' pass ∧ s'.emitter.buffer = bind.foldl CodeBuffer.emit {} ∧
        ∀ (m : ArgState) (words : List UInt64), m.Carries e.state words →
          ∃ m' m'', passAll? (fun _ => 0) pass m = some m' ∧
            passAll? m'.outgoing bind m' = some m'' ∧
            m''.Carries s'.emitter.state (words.drop 1) := by
  intro below e
  have hready : e.state.Ready :=
    ⟨((CacheState.plain_empty.push (by decide) _).push (by decide) _).push (by decide) _, by decide⟩
  have hscratch : ∀ slot ∈ e.state.slots, ∀ c, slot.loc ≠ .reg (.scratch c) := by
    intro slot hslot c
    rw [← Array.mem_toList_iff] at hslot
    fin_cases hslot <;> cases c <;> decide
  have htypes : e.state.types = [ValueType.i64] ++ [.i32, .i32] := rfl
  obtain ⟨e', s', bind, hcall, hentry, hts, -, hunused, htaken, hextends, -, hpass⟩ :=
    arguments_are_taken_where_passed hready hscratch htypes (s := { options := {}, work := {} }) rfl
  have hsmall : ((Emitter.prepareCall [.i32, .i32]).run.run e).2.state.maxOffset < UInt32.size := by
    decide +kernel
  rw [hcall] at hsmall
  obtain ⟨pass, hextends', hpass⟩ := hpass hsmall
  refine ⟨e', s', hcall, hentry, hts, hunused, htaken, pass, bind, hextends', hextends.buffer,
    fun m words hm => ?_⟩
  obtain ⟨m', hrun, -, -, hbind⟩ := hpass (fun _ => 0) m words hm
  obtain ⟨m'', hrun', hcarries⟩ := hbind m'.frame m'.outgoing
  exact ⟨m', m'', hrun, hrun', hcarries⟩

end OnePass
