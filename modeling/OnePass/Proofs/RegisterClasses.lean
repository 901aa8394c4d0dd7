import OnePass.Proofs.EventChanges
import OnePass.Proofs.ValidBodies

/-!
Registers have a class, and values belong in registers of the class of their type. Code generation
tests this where it pushes a value. It does not where a local takes over the register of an operand:
if a trusted body assigns an operand of another class, the local ends up in a register of that
class.
-/
namespace OnePass

variable {s : Lowering}

open List

/-! ## Cache states -/

namespace CacheState

variable {s s' : CacheState} {slot : Slot}

/-- Values are in registers of the class of their type. -/
def Suited (s : CacheState) : Prop := ∀ slot ∈ s.slots, slot.loc.Suits slot.ty

variable {loc : Location}

section

variable (h : s.Suited)
include h

theorem Suited.push {ty : ValueType} (hloc : loc.Suits ty) : (s.push ty loc).Suited := by
  intro slot hslot
  rw [slots_push, Array.mem_push] at hslot
  rcases hslot with hslot | rfl
  · exact h slot hslot
  · exact hloc

theorem Suited.pop (hpop : s.pop? = some (slot, s')) : s'.Suited := fun slot' hslot' =>
  h slot' ((pop?_eq_some hpop).1 ▸ Array.mem_push.2 (.inl hslot'))

theorem Suited.relocate {i : Nat}
    (hloc : ∀ slot, s.slots[i]? = some slot → loc.Suits slot.ty) : (s.relocate i loc).Suited := by
  cases hi : s.slots[i]? with
  | none => rwa [CacheState.relocate, hi]
  | some slot =>
    intro slot' hslot'
    rw [slots_relocate hi] at hslot'
    rcases Array.mem_or_eq_of_mem_setIfInBounds hslot' with hslot' | rfl
    · exact h slot' hslot'
    · exact hloc slot hi

theorem Suited.pushAll {slots : List (ValueType × Location)}
    (hslots : ∀ p ∈ slots, p.2.Suits p.1) : (s.pushAll slots).Suited := by
  induction slots generalizing s with
  | nil => exact h
  | cons p slots ih =>
    exact ih (h.push (hslots p mem_cons_self)) fun q hq => hslots q (mem_cons_of_mem _ hq)

/-- Every path to a label may rely on the classes. -/
theorem Suited.mergeTarget (numLocals arity stackDepth : Nat) :
    (s.mergeTarget numLocals arity stackDepth).Suited := by
  have hempty : ({ maxOffset := s.maxOffset } : CacheState).Suited := nofun
  obtain ⟨taken, taken', htarget⟩ := s.mergeTarget_eq numLocals arity stackDepth
  rw [htarget]
  exact hempty.pushAll (mergeSlots_suits h)

end

/-- The state was made for a label out of one in which all values are in registers of their
class. -/
def Merged (t : CacheState) : Prop :=
  ∃ source numLocals arity stackDepth, Suited source ∧
    t = source.mergeTarget numLocals arity stackDepth

/-- All changes keep to the classes. What else is known of the states of labels has to hold of merge
targets, and of the headers of loops if there are any. -/
theorem stable_suited {known : CacheState → Prop} {loops : Prop} (hmerged : ∀ t, Merged t → known t)
    (hloops : loops → ∀ s, known s) :
    Stable Location.Suits Suited (fun t => t.Suited ∧ known t) Suited loops where
  stack ty _ := Location.suits_stack ty
  const value ty _ := Location.suits_const value ty
  reg _ _ hclass _ := Location.suits_reg hclass
  typed _ _ _ _ := Location.suits_stack _
  push _ _ _ h := h.push
  pop _ _ _ := Suited.pop
  relocate _ _ _ h := h.relocate
  recent _ _ h := h
  record _ _ h := h
  keep _ h := h
  header h s hs := ⟨hs, hloops h s⟩
  merge s _ _ _ hs := ⟨hs.mergeTarget _ _ _, hmerged _ ⟨s, _, _, _, hs, rfl⟩⟩
  pass _ _ _ _ hs := hs.mergeTarget _ _ _
  label _ h := h.1
  steal _ _ _ ht := ht

end CacheState

/-! ## Calls -/

/-- The topmost value is in a register of another class than the local has. -/
def Lowering.misplaces (s : Lowering) (index : Nat) : Bool :=
  match s.emitter.state.peek? 0, s.emitter.state.slots[index]? with
  | some source, some slot => source.reg?.any fun r => r.regClass != slot.regClass
  | _, _ => false

/-- The call gives a local a register of another class. -/
def Call.misplaces (c : Call Lowering) : Bool := c.event.assigned?.any c.state.misplaces

/-- What the call leaves behind. -/
def Call.next (c : Call Lowering) :
    Lowering := (Backend.compiler.handle c.context c.event c.state).2

/-- All values are in registers of their class, now and in the states that are kept. -/
def Lowering.Suited (s : Lowering) : Prop :=
  s.Holds CacheState.Suited CacheState.Suited CacheState.Suited

variable {c : Call Lowering}

theorem suits_of_not_misplaces (h : c.misplaces = false) (index : Nat)
    (source slot : Slot) (hevent : c.event.assigned? = some index)
    (hsource : c.state.emitter.state.peek? 0 = some source)
    (hslot : c.state.emitter.state.slots[index]? = some slot) : source.loc.Suits slot.ty := by
  intro r hr
  simp only [Call.misplaces, hevent, Option.any_some, Lowering.misplaces, hsource, hslot, Slot.reg?,
    hr, Location.reg?] at h
  show r.regClass = slot.regClass
  simpa using h

/-- A call that does not misplace keeps to the classes, and what it decides about labels it decides
in a state that does. -/
theorem Call.holds_next (h : c.state.Suited) (hplaced : c.misplaces = false)
    (known : CacheState → Prop) (loops : Prop) (hmerged : ∀ t, CacheState.Merged t → known t)
    (hloops : loops → ∀ s, known s) (hloop : ∀ b, c.event = .loop b → loops)
    (hold : ∀ d ∈ c.state.control, ∀ t, d.labelState = some t → known t) :
    c.next.Holds CacheState.Suited (fun t => t.Suited ∧ known t) CacheState.Suited :=
  ((CacheState.stable_suited hmerged hloops).steady.handle c.context c.event
    ⟨h.state, fun d hd t ht => ⟨h.labels d hd t ht, hold d hd t ht⟩, h.arms⟩ hloop
    (fun _ => trivial) (fun _ => trivial) (fun _ _ => trivial) (fun _ _ => trivial)
    (fun index source slot hevent hsource _ hslot =>
      suits_of_not_misplaces hplaced index source slot hevent hsource hslot)
    fun _ _ => Location.suits_stack _).always

theorem Call.suited_next (h : c.state.Suited) (hplaced : c.misplaces = false) : c.next.Suited := by
  have hnext := holds_next h hplaced (fun _ => True) True (fun _ _ => trivial) (fun _ _ => trivial)
    (fun _ _ => trivial) fun _ _ _ _ => trivial
  exact ⟨hnext.state, fun d hd t ht => (hnext.labels d hd t ht).1, hnext.arms⟩

variable {options : CompileOptions}

/-- Along calls none of which misplaces, all values stay in registers of their class. -/
theorem Backend.Leads.suited {calls : List (Call Lowering)}
    (h : Backend.compiler.Leads (.start options) calls s)
    (hplaced : ∀ c ∈ calls, c.misplaces = false) : s.Suited := by
  induction h with
  | nil => exact ⟨nofun, nofun, nofun⟩
  | @snoc calls s ctx e _ ih =>
    have hs := ih fun c hc => hplaced c (mem_append_left _ hc)
    exact Call.suited_next (c := ⟨ctx, e, s⟩) hs (hplaced _ (mem_append_right _ mem_cons_self))

namespace Lowering

variable {s : Lowering} {slot : Slot} {rest : CacheState}

theorem run_peekSlot (h : s.emitter.state.peek? 0 = some slot) :
    peekSlot.run.run s = (.ok slot, s) := by
  rw [peekSlot, run_liftEmit, Emitter.run_peekSlot h]
  rfl

theorem emitterPopSlot_eq (e : Emitter) : Emitter.popSlot.run.run e = (match e.state.pop? with
      | some (slot, state) => do
        modify fun e : Emitter => { e with state }
        return slot
      | none => throw .underflow : EmitM Slot).run.run e :=
  rfl

theorem run_popSlot (h : s.emitter.state.pop? = some (slot, rest)) :
    popSlot.run.run s = (.ok slot, s.mapEmitter fun e => { e with state := rest }) := by
  have hrun : (Emitter.popSlot).run.run s.emitter =
      (.ok slot, { s.emitter with state := rest }) := by
    rw [emitterPopSlot_eq, h]
    rfl
  rw [popSlot, run_liftEmit, hrun]
  rfl

/-- The local takes over the register. -/
theorem run_localTee {r : Reg} (index : Nat) (hslot : s.emitter.state.peek? 0 = some slot)
    (hloc : slot.loc = .reg r) : (localTee index).run.run s =
      (.ok (), s.mapEmitter (·.modifyState (·.relocate index (.reg r)))) := by
  unfold localTee
  rw [Settles.run_run_bind, run_peekSlot hslot]
  dsimp only
  rw [hloc]
  rfl

end Lowering

namespace CacheState

variable {s s' : CacheState} {index : Nat} {source slot top : Slot} {r : Reg}

/-- Slots below the topmost one stay when that is popped. -/
theorem slot_of_pop? (h : s.pop? = some (top, s')) (hslot : s.slots[index]? = some slot)
    (hbelow : index ≠ s.height - 1) : s'.slots[index]? = some slot := by
  obtain ⟨hslots, -, -⟩ := pop?_eq_some h
  have hlt := (Array.getElem?_eq_some_iff.1 hslot).1
  rw [height, hslots, Array.size_push] at hbelow
  rw [hslots, Array.size_push] at hlt
  rw [hslots, Array.getElem?_push_lt (by omega)] at hslot
  rw [Array.getElem?_eq_getElem (by omega)]
  exact hslot

theorem exists_pop? (h : s.slots[index]? = some slot) : ∃ top s', s.pop? = some (top, s') := by
  unfold pop?
  cases hback : s.slots.back? with
  | none =>
    rw [Array.back?_eq_none_iff.1 hback] at h
    cases h
  | some top => exact ⟨top, _, rfl⟩

theorem Suited.ne_top (h : s.Suited) (hsource : s.peek? 0 = some source)
    (hloc : source.loc = .reg r)
    (hslot : s.slots[index]? = some slot) (hclass : r.regClass ≠ .ofType slot.ty) :
      index ≠ s.height - 1 := by
  rintro rfl
  unfold peek? at hsource
  split at hsource
  · cases hslot.symm.trans hsource
    exact hclass (h source (Array.mem_of_getElem? hslot) r hloc)
  · cases hsource

end CacheState

theorem Lowering.exists_of_misplaces {index : Nat} (h : s.misplaces index = true) :
    ∃ source slot r, s.emitter.state.peek? 0 = some source ∧
      s.emitter.state.slots[index]? = some slot ∧ source.loc = .reg r ∧
        r.regClass ≠ .ofType slot.ty := by
  unfold Lowering.misplaces at h
  split at h
  next source slot hsource hslot =>
    obtain ⟨r, hr, hclass⟩ := (Option.any_eq_true _ _).1 h
    refine ⟨source, slot, r, hsource, hslot, ?_, by simpa [Slot.regClass] using hclass⟩
    rcases hl : source.loc <;> simp_all [Slot.reg?, Location.reg?]
  next => cases h

/-- A call that misplaces leaves the local in a register of another class. -/
theorem Call.not_suited_next (h : c.state.Suited) (hmisplaced : c.misplaces = true) :
    ¬c.next.emitter.state.Suited := by
  rcases c with ⟨ctx, event, s⟩
  obtain ⟨index, hevent, hmis⟩ := (Option.any_eq_true _ _).1 hmisplaced
  obtain ⟨source, slot, r, hsource, hslot, hloc, hclass⟩ := Lowering.exists_of_misplaces hmis
  have htee := Lowering.run_localTee index hsource hloc
  have hplace := CacheState.slot_relocate hslot (.reg r)
  have hwrong {t : CacheState} (ht : t.slots[index]? = some ⟨slot.ty, .reg r, slot.offset⟩) :
      ¬t.Suited := fun hsuited => hclass (hsuited _ (Array.mem_of_getElem? ht) r rfl)
  cases event with
  | localTee value result index' =>
    cases hevent
    refine hwrong ?_
    show ((Lowering.localTee index >>= fun _ => pure Reply.proceed).run.run
      s).2.emitter.state.slots[index]? = _
    rw [Settles.run_run_bind, htee]
    exact hplace
  | localSet value index' =>
    cases hevent
    obtain ⟨top, rest, hpop⟩ := CacheState.exists_pop? hplace
    have hheight : (s.emitter.state.relocate index (.reg r)).height = s.emitter.state.height := by
      rw [← CacheState.length_types, CacheState.types_relocate, CacheState.length_types]
    have hrest := CacheState.slot_of_pop? hpop hplace
      (hheight ▸ h.state.ne_top hsource hloc hslot hclass)
    have hnext : (next ⟨ctx, .localSet value index, s⟩).emitter.state = rest := by
      show (((Lowering.localTee index >>= fun _ => Lowering.popSlot >>= fun _ => pure ()) >>=
        fun _ => pure Reply.proceed).run.run s).2.emitter.state = _
      rw [Settles.run_run_bind, Settles.run_run_bind, htee]
      dsimp only
      rw [Settles.run_run_bind,
        Lowering.run_popSlot (s := s.mapEmitter (·.modifyState (·.relocate index (.reg r)))) hpop]
      rfl
    rw [hnext]
    exact hwrong hrest
  | _ => cases hevent

/-! ## Checked bodies -/

/-- Operands of the type of the local are in a register that suits it. -/
theorem Lowering.Presents.not_misplaces {R : Regime} {ctx : Context} {rest : List ValueType}
    {x : Value} {index : Nat} {ty : ValueType} (h : Presents R ctx rest [x] s) (htyped : R.typed)
    (hlocal : ctx.locals[index]? = some ty) (hx : x.ty = ty) : s.misplaces index = false := by
  obtain ⟨ts, a, t, hat, -, ht, hsame, -⟩ := h.local hlocal fun _ => hx
  obtain ⟨is, hsound⟩ := hat.sound
  rw [Bool.eq_false_iff]
  intro hmis
  obtain ⟨source, slot, r, hsource, hslot, hloc, hclass⟩ := Lowering.exists_of_misplaces hmis
  obtain ⟨source', hsource', hty, hmem⟩ := CacheState.peek?_of_types hat.types
  cases hsource.symm.trans hsource'
  have hslotty : slot.ty = t := by
    rw [← hat.types, CacheState.types, getElem?_map, Array.getElem?_toList, hslot] at ht
    exact Option.some.inj ht
  apply hclass
  rw [hslotty, ← hsame htyped, ← hty]
  exact hsound.state.suits htyped source hmem r hloc

namespace Decode

variable {R : Regime} {ctx : Context} {s : Lowering}

/-- The call does not misplace. -/
def Placed (c : Call Lowering) : Prop := c.misplaces = false

theorem placed_of_isOrdinary (c : Call Lowering) (h : c.event.isOrdinary = true) : Placed c := by
  simp only [Event.isOrdinary, Bool.and_eq_true, Option.isNone_iff_eq_none] at h
  simp [Placed, Call.misplaces, h.1.1.2]

/-- An assignment in a body that is checked. -/
theorem assignment_placed {c : Control} {outer : List Control} {below ops : List Value}
    {i : Instruction} {index : Nat} {ty : ValueType} (h : Poised R ctx c outer below ops s)
    (htyped : R.typed) (htest : s.pendingTest = none) (hlocal : ctx.locals[index]? = some ty)
    (hty : R.allows ty) (hi : i = .localSet index ty ∨ i = .localTee index ty) :
    Calls .compiler Placed (instruction Backend.compiler.watched i) (instruction .compiler i)
      ctx s := by
  obtain ⟨shape, hshape, htakes, hexits, hevent⟩ : ∃ shape, i.shape? = some shape ∧
      shape.takes = [(ty, 0)] ∧ shape.exits = false ∧
      ∀ args results, (shape.event args results).assigned? = some index := by
    rcases hi with rfl | rfl <;> exact ⟨_, rfl, rfl, rfl, fun _ _ => rfl⟩
  rw [instruction_eq_shape _ hshape, instruction_eq_shape _ hshape]
  refine .bind (.check _) fun e ctx' s' hr => .bind (.report fun hlive => ?_) fun _ _ _ _ =>
    .ite (fun hyes => ?_) fun _ => .pure _
  · obtain ⟨hcheck, rfl⟩ : shape.check ctx = .ok (e, ctx') ∧ s' = s := by
      unfold check at hr
      cases hm : shape.check ctx <;> rw [hm] at hr <;> cases hr
      exact ⟨rfl, rfl⟩
    obtain ⟨args, rest, rfl, htaken, haccepts, rfl⟩ := Shape.check_ok h.shows hshape hcheck
    have hc : c.isReachable = true := h.live.symm.trans hlive
    obtain rfl := htaken.exact (c.not_unreachable hc)
    rw [htakes] at haccepts
    obtain ⟨x, rfl, hx⟩ := Lowering.accepts_one haccepts
    have hpresents := h.presents hc htest (rest ++ Check.fresh ctx shape.gives)
    have hsame := hx.same h.fits.full hty (hpresents.args x mem_cons_self) htyped
    show Option.any _ (shape.event _ _).assigned? = false
    rw [hevent]
    exact hpresents.not_misplaces htyped hlocal hsame
  · rw [hexits] at hyes
    cases hyes

theorem step_placed (h : Synchronized R ctx s) (htyped : R.typed) (hopen : ctx.control ≠ []) :
    Calls .compiler Placed (step Backend.compiler.watched) (step .compiler) ctx s := by
  obtain ⟨-, hlock, hnext⟩ := h.inStep.resolve_right fun hended => hopen hended.1
  obtain ⟨-, hlayers⟩ := h.orderly.resolve_right fun hclosed => hopen hclosed.1
  obtain ⟨c, outer, below, ops, hpoised⟩ := hlock.poised h.fits hopen hlayers
  rw [step_eq, step_eq]
  refine .bind (.fetch fun _ _ _ => rfl) fun i ctx' s' hr => ?_
  obtain ⟨h', htest, hdecl, htypes, -⟩ := (fetch_drives hpoised hnext h.promises).ends _ _ _ hr
  cases hi : i.isOrdinary with
  | true => exact ((Ordinary.instruction _ hi).calls _ _).mono placed_of_isOrdinary
  | false =>
    have hidle (hno : i.usesTest = false) : s'.pendingTest = none := by
      by_contra hne
      simp [htest hne] at hno
    cases i with
    | localSet index ty =>
      exact assignment_placed h' htyped (hidle rfl) hdecl (htypes ty mem_cons_self) (.inl rfl)
    | localTee index ty =>
      exact assignment_placed h' htyped (hidle rfl) hdecl (htypes ty mem_cons_self) (.inr rfl)
    | refNull => exact .bind (.check _) fun _ _ _ _ => .report fun _ => rfl
    | _ => cases hi

end Decode

section

variable {module : Module} {sig : Signature}

theorem Regime.fits_unlinked (hmodule : module.NoBottom) (hsig : sig.NoBottom)
    {options : DecoderOptions} (hfull : options.validation = .full) :
    (Regime.checked False).Fits module sig options where
  admits := admits_noBottom hmodule hsig _
  params ty hty heq := hsig.params (heq ▸ hty)
  globals g hg := hmodule.globals g hg
  full _ := by simp [DecoderOptions.trusted, hfull]
  indirect := False.elim
  imports := False.elim
  canonical := False.elim

theorem placed_of_full {decoderOptions : DecoderOptions}
    {body : Array UInt8} (hfull : decoderOptions.validation = .full) (hmodule : module.NoBottom)
    (hsig : sig.NoBottom) :
    ∀ c ∈ compileCalls module sig body decoderOptions options, c.misplaces = false := by
  obtain ⟨calls, -, hcalls, hrun⟩ := decodeBody_calls module sig body decoderOptions options
    (Decode.body_calls (fun h => Decode.step_placed h trivial) body
      (.enter fun _ _ => ⟨rfl, fun _ => rfl⟩) (fun _ _ => rfl)
      (Regime.fits_unlinked hmodule hsig hfull) (Lowering.blank_start options))
  rw [compileCalls, hrun]
  exact hcalls

end

/-- Until a call misplaces, all values are in registers of the class of their type, in the current
state and in those that are kept, and labels get their states from states that are like that. Only
an assignment to a local can misplace; a call that does leaves the local in a register of another
class. In a body that is checked no call misplaces. -/
theorem registers_suit_until_misplaced (module : Module) (sig : Signature) (body : Array UInt8)
    (decoderOptions : DecoderOptions) (options : CompileOptions) : (∀ earlier c later,
      compileCalls module sig body decoderOptions options = earlier ++ c :: later →
      (∀ c' ∈ earlier, c'.misplaces = false) → c.state.Suited ∧
        (c.misplaces = false → c.next.Suited ∧ ((∀ b, c.event ≠ .loop b) →
          ∀ d ∈ c.next.control, ∀ t, d.labelState = some t →
            (∃ d' ∈ c.state.control, d'.labelState = some t) ∨ t.Merged)) ∧
        (c.misplaces = true → ¬c.next.emitter.state.Suited)) ∧
    (decoderOptions.validation = .full → module.NoBottom → sig.NoBottom →
        ∀ c ∈ compileCalls module sig body decoderOptions options, c.misplaces = false ∧
          c.state.Suited) := by
  have hleads := leads_compileCalls module sig body decoderOptions options
  constructor
  · intro earlier c later hcalls hplaced
    have hsuited : c.state.Suited := (hleads.before hcalls).suited hplaced
    refine ⟨hsuited, fun hc => ⟨Call.suited_next hsuited hc, fun hloop d hd t ht => ?_⟩,
      Call.not_suited_next hsuited⟩
    exact ((Call.holds_next hsuited hc (fun t => (∃ d' ∈ c.state.control, d'.labelState = some t) ∨
      t.Merged) False (fun _ => .inr) False.elim (fun b hb => hloop b hb) fun d' hd' t' ht' =>
        .inl ⟨d', hd', ht'⟩).labels d hd t ht).2
  · intro hfull hmodule hsig
    have hplaced : ∀ c ∈ compileCalls module sig body decoderOptions options, c.misplaces = false :=
      placed_of_full hfull hmodule hsig
    intro c hc
    obtain ⟨earlier, later, hcalls⟩ := append_of_mem hc
    refine ⟨hplaced c hc, (hleads.before hcalls).suited fun c' hc' => hplaced c' ?_⟩
    rw [hcalls]
    exact mem_append_left _ hc'

/-- A trusted body that assigns an integer to a local of a float type is compiled, and the local is
left in an integer register. A checked body that assigns an integer to an integer local keeps to the
classes. -/
theorem registers_suit_until_misplaced_floatLocal :
    let mixed : Array UInt8 := #[0x01, 0x01, 0x7D, 0x20, 0x00, 0x21, 0x01, 0x0B]
    let plain : Array UInt8 := #[0x01, 0x01, 0x7F, 0x20, 0x00, 0x21, 0x01, 0x0B]
    ((compileFunction {} ⟨[.i32], []⟩ mixed { validation := .trusted } {}).isOk = true ∧
      ∃ c ∈ compileCalls {} ⟨[.i32], []⟩ mixed { validation := .trusted } {},
        c.state.Suited ∧ ¬c.next.emitter.state.Suited) ∧
    ((compileFunction {} ⟨[.i32], []⟩ plain {} {}).isOk = true ∧
      ∀ c ∈ compileCalls {} ⟨[.i32], []⟩ plain {} {}, c.misplaces = false ∧ c.state.Suited) := by
  intro mixed plain
  refine ⟨⟨by decide +kernel, ?_⟩, by decide +kernel, ?_⟩
  · have hsome : ((compileCalls {} ⟨[.i32], []⟩ mixed { validation := .trusted } {}).find?
        Call.misplaces).isSome = true := by decide +kernel
    obtain ⟨c, hc⟩ := Option.isSome_iff_exists.1 hsome
    obtain ⟨hmisplaced, earlier, later, hcalls, hplaced⟩ := find?_eq_some_iff_append.1 hc
    have hfirst := (registers_suit_until_misplaced {} ⟨[.i32], []⟩ mixed { validation := .trusted }
      {}).1 earlier c later hcalls fun c' hc' => by simpa using hplaced c' hc'
    exact ⟨c, mem_of_find?_eq_some hc, hfirst.1, hfirst.2.2 hmisplaced⟩
  · have hmodule : Module.NoBottom {} := ⟨nofun, nofun, nofun, nofun⟩
    exact (registers_suit_until_misplaced {} ⟨[.i32], []⟩ plain {} {}).2 rfl hmodule
      ⟨by simp, by simp⟩

end OnePass
