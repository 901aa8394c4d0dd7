import OnePass.Proofs.LoweringOperators

/-!
The start of a function and its end. After the start the slots are the parameters and the declared
locals, and one construct is open, the body.
-/
namespace OnePass

open List

namespace ArgPlace

variable {r : Reg} {types : List ValueType}

/-- An argument in a register is in one of its class. -/
theorem regClass_of_mem_assign {gps fps : List Reg} {stacked : Nat}
    (hgps : ∀ r ∈ gps, r.regClass = .gp) (hfps : ∀ r ∈ fps, r.regClass = .fp) {ty : ValueType}
    (h : (ty, ArgPlace.reg r) ∈ types.zip (assign gps fps stacked types)) :
      r.regClass = .ofType ty := by
  induction types generalizing gps fps stacked with
  | nil => cases h
  | cons ty' types ih =>
    unfold assign at h
    split at h
    next r' gps hclass =>
      rcases mem_cons.1 h with heq | h
      · cases heq
        rw [hclass]
        exact hgps r mem_cons_self
      · exact ih (fun q hq => hgps q (mem_cons_of_mem _ hq)) hfps h
    next r' fps hclass =>
      rcases mem_cons.1 h with heq | h
      · cases heq
        rw [hclass]
        exact hfps r mem_cons_self
      · exact ih hgps (fun q hq => hfps q (mem_cons_of_mem _ hq)) h
    next =>
      rcases mem_cons.1 h with heq | h
      · cases heq
      · exact ih hgps hfps h

theorem regClass_of_mem_ofTypes {ty : ValueType}
    (h : (ty, ArgPlace.reg r) ∈ types.zip (ofTypes types)) : r.regClass = .ofType ty :=
  regClass_of_mem_assign (by decide) (by decide) h

end ArgPlace

namespace Lowering

variable {R : Regime} {s s' base : Lowering} {is : List (Instr Label)} {ls : List Label}
  {ts types : List ValueType} {ty : ValueType} {ctx : Context}

/-! ## Parameters -/

theorem stackParam_upholds (h : At R base ls ts s) (hty : R.allows ty) (index : Nat) :
    Upholds R (stackParam ty index) s fun _ => At R base ls (ts ++ [ty]) := by
  refine .get_bind ?_
  split
  next r hr =>
    refine .bind (emit_upholds h (.of_type hty rfl rfl) rfl) fun _ s₁ h₁ => ?_
    exact pushReg_upholds h₁ hty fun _ => CacheState.regClass_of_unused? hr
  next =>
    refine .bind (emit_upholds h (.of_type hty rfl rfl) rfl) fun _ s₁ h₁ => ?_
    have hpush := h₁.emitter.push hty fun _ => Location.suits_stack ty
    obtain ⟨slot, hback, hslot⟩ := CacheState.back?_of_types hpush.types
    have htop : (s₁.emitter.state.push ty .stack).topOffset = slot.offset := by
      simp only [Emitter.modifyState] at hback
      rw [CacheState.topOffset, hback]
    have hspill := hpush.spill (hpush.fine (Array.mem_of_back? hback)) (.scratch (.ofType ty))
    rw [hslot, ← htop] at hspill
    exact emitting_upholds h₁ hspill

theorem forM_params_upholds (args : List (ValueType × ArgPlace)) (h : At R base ls ts s)
    (hallows : ∀ a ∈ args, R.allows a.1)
    (hclass : ∀ a ∈ args, ∀ r, a.2 = .reg r → r.regClass = .ofType a.1) :
    Upholds R (args.forM fun (ty, place) =>
      match place with
      | .reg r => pushReg ty r
      | .stack index => stackParam ty index) s fun _ => At R base ls (ts ++ args.map Prod.fst) := by
  induction args generalizing ts s with
  | nil => exact .of_pure (by simpa using h)
  | cons a args ih =>
    obtain ⟨ty, place⟩ := a
    have hty := hallows _ mem_cons_self
    refine .bind (Q := fun _ => At R base ls (ts ++ [ty])) ?_ fun _ s₁ h₁ => ?_
    · cases place with
      | reg r => exact pushReg_upholds h hty fun _ => hclass _ mem_cons_self r rfl
      | stack index => exact stackParam_upholds h hty index
    · have hrest := ih h₁ (fun a ha => hallows a (mem_cons_of_mem _ ha))
        fun a ha => hclass a (mem_cons_of_mem _ ha)
      rwa [append_assoc] at hrest

theorem params_upholds (h : At R base ls ts s) (htypes : ∀ ty ∈ types, R.allows ty) :
    Upholds R (params types) s fun _ => At R base ls (ts ++ types) := by
  have hall := forM_params_upholds (types.zip (ArgPlace.ofTypes types)) h
    (fun a ha => htypes _ (of_mem_zip (show (a.1, a.2) ∈ _ from ha)).1) ?_
  · rwa [map_fst_zip (by simp [ArgPlace.ofTypes])] at hall
  · rintro ⟨_, _⟩ ha r ⟨⟩
    exact ArgPlace.regClass_of_mem_ofTypes ha

/-! ## Declared locals -/

theorem pushLocals_onward {start e : Emitter} (h : start.Onward R ts e)
    (htypes : ∀ ty ∈ types, R.allows ty) :
    start.Onward R (ts ++ types) (e.modifyState (pushLocals types)) := by
  have hpush : ∀ (few : Bool) (types : List ValueType), (∀ ty ∈ types, R.allows ty) →
      ∀ ts e, start.Onward R ts e → start.Onward R (ts ++ types)
        (e.modifyState fun s => types.foldl (fun s ty => s.push ty
          (if few && ty.isInteger then .const 0 else .stack)) s) := by
    intro few types
    induction types with
    | nil => exact fun _ ts e h => by simpa [Emitter.modifyState] using h
    | cons ty types ih =>
      intro hallows ts e h
      have hsuits : (if few && ty.isInteger then Location.const 0 else .stack).Suits ty := by
        split
        · exact Location.suits_const _ _
        · exact Location.suits_stack _
      have hnext := ih (fun ty hty => hallows ty (mem_cons_of_mem _ hty)) _ _
        (h.push (hallows ty mem_cons_self) fun _ => hsuits)
      rwa [append_assoc] at hnext
  exact hpush _ types htypes ts e h

theorem foldl_min_mem (x : Nat) (xs : List Nat) :
    xs.foldl min x ∈ x :: xs ∧ xs.foldl min x ≤ x := by
  induction xs generalizing x with
  | nil => simp
  | cons y ys ih =>
    obtain ⟨hmem, hle⟩ := ih (min x y)
    rw [foldl_cons]
    refine ⟨?_, by omega⟩
    rcases mem_cons.1 hmem with heq | hmem
    · rw [heq]
      rcases Nat.le_total x y with h | h
      · simp [Nat.min_eq_left h]
      · simp [Nat.min_eq_right h]
    · simp [hmem]

theorem foldl_max_mem (x : Nat) (xs : List Nat) :
    xs.foldl max x ∈ x :: xs ∧ x ≤ xs.foldl max x := by
  induction xs generalizing x with
  | nil => simp
  | cons y ys ih =>
    obtain ⟨hmem, hle⟩ := ih (max x y)
    rw [foldl_cons]
    refine ⟨?_, by omega⟩
    rcases mem_cons.1 hmem with heq | hmem
    · rw [heq]
      rcases Nat.le_total x y with h | h
      · simp [Nat.max_eq_right h]
      · simp [Nat.max_eq_left h]
    · simp [hmem]

/-- The span reaches down to a slot. -/
theorem stackSpan?_eq_some {slots : List Slot} {start size : Nat}
    (h : stackSpan? slots = some (start, size)) (hslots : ∀ slot ∈ slots, 8 ≤ slot.offset) :
    ∃ slot ∈ slots, start + size = slot.offset := by
  unfold stackSpan? at h
  dsimp only at h
  split at h
  next => cases h
  next first rest hoffsets =>
    cases h
    obtain ⟨hlow, hle⟩ := foldl_min_mem first rest
    obtain ⟨hhigh, hge⟩ := foldl_max_mem first rest
    have hmem : ∀ o ∈ first :: rest, ∃ slot ∈ slots, slot.offset = o := by
      intro o ho
      rw [← hoffsets] at ho
      obtain ⟨slot, hslot, heq⟩ := mem_filterMap.1 ho
      split at heq
      · cases heq
        exact ⟨slot, hslot, rfl⟩
      · cases heq
    obtain ⟨lowest, hlowest, heq⟩ := hmem _ hlow
    obtain ⟨deepest, hdeepest, heq'⟩ := hmem _ hhigh
    have hlow8 := hslots lowest hlowest
    exact ⟨deepest, hdeepest, by omega⟩

theorem declareLocals_upholds (h : At R base ls ts s) (htypes : ∀ ty ∈ types, R.allows ty) :
    Upholds R (declareLocals types) s fun _ => At R base ls (ts ++ types) := by
  have hpushed := pushLocals_onward h.emitter htypes
  refine emitting_upholds h ?_
  dsimp only
  split
  next start size hspan =>
    obtain ⟨slot, hslot, hend⟩ := stackSpan?_eq_some hspan fun slot hslot =>
      Nat.le_trans (by decide)
        (hpushed.state.offset_mem (Array.mem_toList_iff.1 (mem_of_mem_drop hslot))).1
    have hfine := hpushed.fine (Array.mem_toList_iff.1 (mem_of_mem_drop hslot))
    have hpos := hfine.pos
    have hle := hfine.le
    refine hpushed.emit rfl ⟨nofun, fun hlt o ho => ?_⟩
    rw [Instr.frameOffsets, mem_singleton] at ho
    rw [ho, UInt32.toNat_ofNat_of_lt' (by omega), UInt32.toNat_ofNat_of_lt' (by omega), hend]
    exact ⟨hpos, hle⟩
  next => exact hpushed

/-! ## The start of the body -/

theorem traceEntry_upholds (h : At R base ls ts s) (position : Nat) :
    Upholds R (traceEntry position) s fun _ => At R base ls ts := by
  refine .bind (emitting_upholds h (h.emitter.spillWhere _ _)) fun _ s₁ h₁ => ?_
  refine .modify_bind (.modify_bind (emitting_upholds (show At R base ls ts _ from ?_)
    (Emitter.Onward.fillInstance ?_)))
  · refine h₁.call (i := .callStub .traceEnter) (.of_none rfl rfl) rfl rfl fun is hsound => ?_
    refine hsound.tables.trace position ?_ rfl
    rw [← hsound.code.size]
    rfl
  · exact .refl h₁.regular h₁.types

/-- Nothing was emitted yet. -/
structure Blank (s : Lowering) : Prop where
  buffer : s.emitter.buffer = {}
  state : s.emitter.state = {}
  control : s.control = []
  paths : s.outOfLine = #[]
  test : s.pendingTest = none
  positions : s.work.positions = #[]
  entries : ∀ r, s.work.sideRecord = some r → r = {}

theorem Blank.enterFrame (h : s.Blank) (hsetup : s.frameSetup = 0) :
    (s.mapEmitter (·.emit (.enterFrame 0))).Sound R [.enterFrame 0] [] := by
  have hlabels : s.labels = [] := by simp [Lowering.labels, pathLabels, h.control, h.paths]
  have hunbound : s.unbound = [] := by simp [Lowering.unbound, pathLabels, h.control, h.paths]
  refine ⟨?_, ⟨hsetup, [], rfl⟩, fun i hi => ?_, ?_, fun d hd => ?_, fun o ho => ?_, ?_,
    fun l hl => ?_, fun l hl => ?_, fun i hi l hl => ?_, ?_, fun r hr => ⟨[], ?_, ?_⟩⟩
  · show (s.emitter.buffer.emit (.enterFrame 0)).Assembles ([] ++ [_])
    rw [h.buffer]
    exact CodeBuffer.assembles_empty.emit (by rintro _ ⟨⟩)
  · cases mem_singleton.1 hi
    exact .of_none rfl rfl
  · show s.emitter.state.Regular R
    rw [h.state]
    exact CacheState.regular_empty R (Nat.le_refl _)
  · have hd : d ∈ s.control := hd
    rw [h.control] at hd
    cases hd
  · have ho : o ∈ s.outOfLine := ho
    rw [h.paths] at ho
    simp at ho
  · show ([] ++ s.labels).Nodup
    rw [hlabels]
    exact nodup_nil
  · have hl : l ∈ [] ++ s.labels := hl
    rw [hlabels] at hl
    cases hl
  · have hl : l ∈ [] ++ s.unbound := hl
    rw [hunbound] at hl
    cases hl
  · cases mem_singleton.1 hi
    cases hl
  · show s.work.positions.toList.map _ = _
    rw [h.positions]
    rfl
  · show s.outOfLine.toList.map _ = _
    rw [h.paths]
    rfl
  · rw [h.entries r hr]
    exact SideRecord.describes_empty _ rfl

theorem startFunction_upholds (hs : s.Blank) :
    Upholds R (startFunction ctx) s fun _ s' => s'.Blank ∧
      s'.emitter.numLocals = ctx.locals.size ∧ ctx.sig.results.length ≤ 1 := by
  refine .ite (fun _ => .bind (Q := fun _ _ => False) (.of_throw fun _ => nofun) nofun)
    fun hresults => ?_
  refine .bind (requireScalars_upholds _ _) fun _ s₁ hs₁ => ?_
  subst hs₁
  refine .bind (Q := fun _ s' => s' = s₁) ?_ fun _ s₂ hs₂ => ?_
  · cases hlocals : ctx.locals with
    | mk types =>
      rw [forM_toArray']
      · exact requireScalars_upholds _ _
      · simp
  · subst hs₂
    exact .of_modify ⟨⟨hs.buffer, hs.state, hs.control, hs.paths, hs.test,
      hs.positions, hs.entries⟩, rfl, Nat.not_lt.1 hresults⟩

/-- The slots are the locals, and the body is open. -/
theorem startBody_upholds (hs : s.Blank) {declared : List ValueType}
    (hlocals : ctx.locals.toList = ctx.sig.params ++ declared)
    (hcount : s.emitter.numLocals = ctx.locals.size)
    (hallows : ∀ ty ∈ ctx.locals.toList, R.allows ty) :
    Upholds R (startBody ctx) s fun _ s' => (∃ is, s'.Sound R is []) ∧
      s'.emitter.state.types = ctx.locals.toList ∧
      s'.emitter.numLocals = s.emitter.numLocals ∧ (∃ label, s'.control = [{ label }]) ∧
      s'.pendingTest = none := by
  have hpc : s.emitter.pc = 0 := by
    rw [Emitter.pc, hs.buffer]
    rfl
  have hblank : ({ s with frameSetup := s.emitter.pc } : Lowering).Blank :=
    ⟨hs.buffer, hs.state, hs.control, hs.paths, hs.test, hs.positions, hs.entries⟩
  rw [hlocals] at hallows
  refine .get_bind (.modify_bind (.modify_bind ?_))
  have h₀ : At R _ [] [] _ := At.refl (hblank.enterFrame hpc) (by
    show s.emitter.state.types = []
    rw [hs.state]
    rfl)
  refine .bind (emitting_upholds h₀ (h₀.emitter.emit rfl (.of_place (R.proper .i64 (by decide))
    (by decide) h₀.regular.staticFrameSize_le rfl rfl))) fun _ s₁ h₁ => ?_
  refine .bind (params_upholds h₁ fun ty hty => hallows ty (mem_append_left _ hty)) fun _ s₂ h₂ =>
    ?_
  have hfit : ¬ctx.locals.size < ctx.sig.params.length := by
    rw [← Array.length_toList, hlocals, length_append]
    omega
  rw [if_neg hfit, hlocals, drop_left]
  refine .bind (declareLocals_upholds h₂ fun ty hty => hallows ty (mem_append_right _ hty))
    fun _ s₃ h₃ => ?_
  have hle : s.emitter.numLocals ≤ ([] ++ ctx.sig.params ++ declared).length := by
    rw [nil_append, ← hlocals, hcount, Array.length_toList]
  refine .bind (stackCheck_upholds h₃ hle _) fun _ s₄ h₄ => .get_bind ?_
  refine .when (Q := At R _ [] _) (fun _ => traceEntry_upholds h₄ _) (fun _ => h₄) fun s₅ h₅ => ?_
  obtain ⟨is, hsound⟩ := h₅.sound
  have hcontrol : s₅.control = [] := h₅.control.trans hs.control
  refine ⟨fun _ s' hr => ?_, fun b s' hr => ?_⟩ <;> cases hr
  refine ⟨⟨is, hsound.openConstruct (d := { label := s₅.emitter.nextLabel }) rfl rfl nofun⟩,
    h₅.types.trans (nil_append _), h₅.later.numLocals, ⟨s₅.emitter.nextLabel, ?_⟩,
      h₅.test.trans hs.test⟩
  show _ :: s₅.control = _
  rw [hcontrol]

/-! ## The end -/

/-- The result is the topmost value. -/
theorem ret_upholds (h : At R base ls ts s) (hresults : ctx.sig.results.length ≤ ts.length) :
    Upholds R (ret ctx) s fun _ s' => At R base ls ts s' ∧ Closes R ls s' := by
  have hleave : ∀ s', At R base ls ts s' →
      Upholds R (do Lowering.emit .leaveFrame; Lowering.emit .ret) s' fun _ s' =>
        At R base ls ts s' ∧ Closes R ls s' :=
    fun s' h' => .bind (emitOp_upholds h' rfl) fun _ s'' h'' =>
      emitExit_upholds h'' rfl (.of_none rfl rfl) nofun
  unfold ret
  split
  next ty rest heq =>
    rw [heq, length_cons] at hresults
    obtain rfl | ⟨init, a, rfl⟩ := eq_nil_or_concat' ts
    · cases hresults
    refine .look (peekSlot_upholds h) fun value ⟨hmem, _⟩ => ?_
    exact .bind (emitting_upholds h (h.emitter.loadSlot (h.regular.fine hmem) _)) fun _ => hleave
  next => exact hleave s h

end Lowering

end OnePass
