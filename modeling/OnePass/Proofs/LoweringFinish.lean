import OnePass.Proofs.Assembling
import OnePass.Proofs.LoweringControl

/-!
The end of code generation: the slow paths are emitted, and the size of the frame is filled in. All
branches lead somewhere then.
-/
namespace OnePass

open List

namespace Emitter

theorem emitAll_eq (code : List (Instr Label)) (e : Emitter) :
    e.emitAll code = { e with buffer := code.foldl CodeBuffer.emit e.buffer } := by
  induction code generalizing e with
  | nil => rfl
  | cons i code ih => exact (ih (e.emit i)).trans rfl

end Emitter

/-- The size of the frame does not matter for the tables. -/
theorem Assembly.Describes.patch {a a' : Assembly} {count : Nat} {size size' : UInt32}
    {rest : List (Instr Label)} (h : a.Describes count [] (.enterFrame size :: rest))
    (hpositions : a'.positions = a.positions) (hrecord : a'.sideRecord = a.sideRecord) :
    a'.Describes count [] (.enterFrame size' :: rest) := by
  refine ⟨by rw [hpositions]; exact h.positions, fun r hr => ?_⟩
  obtain ⟨claimed, hclaimed, hdescribes⟩ := h.entries r (hrecord ▸ hr)
  exact ⟨claimed, hclaimed, hdescribes.congr rfl⟩

variable {l : Label}

namespace OutOfLine

variable {R : Regime} {e : Emitter} {o : OutOfLine} {a : Assembly}

/-- The whole code of a slow path. -/
def code (o : OutOfLine) : List (Instr Label) := o.saveCode ++ [.callStub o.stub] ++ o.resumeCode

theorem code_ne_nil (o : OutOfLine) : o.code ≠ [] := by simp [code]

theorem isStraight_saveCode (o : OutOfLine) : ∀ i ∈ o.saveCode, i.isStraight = true := by
  intro i hi
  unfold saveCode at hi
  split at hi
  · obtain ⟨r, -, rfl⟩ := mem_map.1 hi
    rfl
  · cases mem_singleton.1 hi
    rfl

variable {i : Instr Label}

/-- Only the last instruction branches, to where code goes on. -/
theorem mem_resumeCode (h : i ∈ o.resumeCode) :
    i.isCall = false ∧ ∀ l, i.target? = some l → o.continuation = some l := by
  unfold resumeCode at h
  split at h
  next =>
    cases mem_singleton.1 h
    exact ⟨rfl, nofun⟩
  next l hl =>
    dsimp only at h
    rcases mem_append.1 h with h | h
    · split at h
      · rcases mem_append.1 h with h | h
        · obtain ⟨r, -, rfl⟩ := mem_map.1 h
          exact ⟨rfl, nofun⟩
        · cases mem_singleton.1 h
          exact ⟨rfl, nofun⟩
      · cases mem_singleton.1 h
        exact ⟨rfl, nofun⟩
    · cases mem_singleton.1 h
      refine ⟨rfl, fun l' hl' => ?_⟩
      cases hl'
      exact hl

theorem target_of_mem_code (h : i ∈ o.code) (hl : i.target? = some l) :
    o.continuation = some l := by
  simp only [code, mem_append] at h
  rcases h with (h | h) | h
  · rw [Instr.target?_of_isStraight (o.isStraight_saveCode i h)] at hl
    cases hl
  · cases mem_singleton.1 h
    cases hl
  · exact (mem_resumeCode h).2 l hl

theorem Fine.code (h : o.Fine R e) (hroom : staticFrameSize ≤ e.state.maxOffset) :
    ∀ i ∈ o.code, i.Fine R e.state.maxOffset := by
  have hsaved : ∀ r ∈ o.saved, (Instr.spill r.ty (.ofNat r.offset) r.reg : Instr Label).Fine R
        e.state.maxOffset ∧
      (Instr.fill r.ty r.reg (.ofNat r.offset) : Instr Label).Fine R e.state.maxOffset := by
    intro r hr
    obtain ⟨hty, hpos, hle⟩ := h.saved r hr
    exact ⟨.of_place hty hpos hle rfl rfl, .of_place hty hpos hle rfl rfl⟩
  intro i hi
  simp only [OutOfLine.code, mem_append] at hi
  rcases hi with (hi | hi) | hi
  · unfold saveCode at hi
    split at hi
    · obtain ⟨r, hr, rfl⟩ := mem_map.1 hi
      exact (hsaved r hr).1
    · cases mem_singleton.1 hi
      exact .of_none rfl rfl
  · cases mem_singleton.1 hi
    exact .of_none rfl rfl
  · unfold resumeCode at hi
    split at hi
    next =>
      cases mem_singleton.1 hi
      exact .of_none rfl rfl
    next =>
      dsimp only at hi
      rcases mem_append.1 hi with hi | hi
      · split at hi
        · rcases mem_append.1 hi with hi | hi
          · obtain ⟨r, hr, rfl⟩ := mem_map.1 hi
            exact (hsaved r hr).2
          · cases mem_singleton.1 hi
            exact .of_place (R.proper .i64 (by decide)) (by decide) hroom rfl rfl
        · cases mem_singleton.1 hi
          exact .of_none rfl rfl
      · cases mem_singleton.1 hi
        exact .of_none rfl rfl

theorem Fine.stub_ne (h : o.Fine R e) : o.stub ≠ .traceEnter := by
  intro heq
  cases hcont : o.continuation with
  | none =>
    have htrap := h.traps hcont
    rw [heq] at htrap
    cases htrap
  | some l =>
    have hguard := h.guards l hcont
    rw [heq] at hguard
    cases hguard

theorem emitter_generate (o : OutOfLine) (a : Assembly) : (o.generate a).emitter =
      { a.emitter with
        buffer := o.code.foldl CodeBuffer.emit (a.emitter.buffer.bind o.label) } := by
  simp only [generate, Emitter.emitAll_eq, Emitter.emit, Emitter.bind, OutOfLine.code,
    foldl_append, foldl_cons, foldl_nil]

end OutOfLine

namespace Lowering

variable {R : Regime} {s s' : Lowering} {is : List (Instr Label)} {o : OutOfLine}
  {rest : List OutOfLine} {body : List (Instr Label)}

theorem boundAt?_generate (hlt : o.label.index < s.emitter.buffer.labels.size) (l : Label) :
    (o.generate s.work).emitter.buffer.boundAt? l =
      if l = o.label then some s.emitter.buffer.code.size else s.emitter.buffer.boundAt? l := by
  rw [OutOfLine.emitter_generate]
  show (o.code.foldl CodeBuffer.emit (s.emitter.buffer.bind o.label)).boundAt? l = _
  rw [CodeBuffer.boundAt?_emits, CodeBuffer.boundAt?_bind hlt]

/-- The first slow path is emitted. -/
theorem Sound.generate (h : s.Sound R is []) (hpaths : s.outOfLine.toList = o :: rest) :
    ({ s with work := o.generate s.work, outOfLine := rest.toArray } : Lowering).Sound R
      (is ++ o.code) [] := by
  have ho : o ∈ s.outOfLine := by
    rw [← Array.mem_toList_iff, hpaths]
    exact mem_cons_self
  have hlabels : s.pathLabels = o.label :: rest.map OutOfLine.label := by
    rw [pathLabels, hpaths, map_cons]
  have hfine := h.paths o ho
  have hlt : o.label.index < s.emitter.buffer.labels.size := by
    refine h.known _ (mem_append_right _ (mem_append_left _ ?_))
    rw [hlabels]
    exact mem_cons_self
  have hnone : s.emitter.buffer.boundAt? o.label = none := by
    refine h.unbound _ (mem_append_right _ (mem_append_left _ ?_))
    rw [hlabels]
    exact mem_cons_self
  have hemitter := o.emitter_generate s.work
  have hbuffer : (o.generate s.work).emitter.buffer =
      o.code.foldl CodeBuffer.emit (s.emitter.buffer.bind o.label) := by rw [hemitter]; rfl
  have hstate : (o.generate s.work).emitter.state = s.emitter.state := by rw [hemitter]; rfl
  have hsize : (o.generate s.work).emitter.buffer.labels.size = s.emitter.buffer.labels.size := by
    rw [hbuffer, CodeBuffer.labels_emits, CodeBuffer.labels_bind]
    exact Array.size_setIfInBounds
  have hbound : ∀ l, (o.generate s.work).emitter.isBound l = true ↔
      l = o.label ∨ s.emitter.isBound l = true := by
    intro l
    rw [Emitter.isBound, CodeBuffer.isBound, boundAt?_generate hlt]
    split
    next heq => simp [heq]
    next hne => simp [hne, Emitter.isBound, CodeBuffer.isBound]
  have hdistinct := h.distinct
  rw [nil_append, Lowering.labels, hlabels] at hdistinct
  obtain ⟨hfresh, hnodup⟩ := nodup_cons.1 hdistinct
  have hrest : ∀ q ∈ rest, q ∈ s.outOfLine := fun q hq => by
    rw [← Array.mem_toList_iff, hpaths]
    exact mem_cons_of_mem _ hq
  have hknown : ∀ (f : ControlData → List Label), (∀ d, f d ⊆ d.labels) → ∀ l,
      l ∈ rest.map OutOfLine.label ++ s.control.flatMap f →
        l ∈ rest.map OutOfLine.label ++ s.control.flatMap ControlData.labels :=
    fun f hf l hl => flatMap_mono hf _ _ hl
  refine ⟨?_, ⟨h.setup.1, ?_⟩, fun i hi => ?_, hstate ▸ h.state, fun d hd t ht => ?_,
    fun q hq => ?_, ?_, fun l hl => ?_, fun l hl => ?_, fun i hi l hl => ?_, ?_⟩
  · show (o.generate s.work).emitter.buffer.Assembles _
    rw [hbuffer]
    refine (h.code.bind hlt hnone).emits fun i hi l hl => ?_
    have hcont := hfine.resumes l (OutOfLine.target_of_mem_code hi hl)
    rw [CodeBuffer.labels_bind]
    refine Nat.lt_of_lt_of_eq (CodeBuffer.lt_of_isBound hcont) (Eq.symm ?_)
    exact Array.size_setIfInBounds
  · obtain ⟨tail, htail⟩ := h.setup.2
    exact ⟨tail ++ o.code, by rw [htail, cons_append]⟩
  · show i.Fine R (o.generate s.work).emitter.state.maxOffset
    rw [hstate]
    rcases mem_append.1 hi with hi | hi
    · exact h.fine i hi
    · exact hfine.code h.state.staticFrameSize_le i hi
  · obtain ⟨hregular, hroom⟩ := h.saved d hd t ht
    exact ⟨hregular, hroom.trans (Nat.le_of_eq (congrArg CacheState.maxOffset hstate.symm))⟩
  · have hpath := h.paths q (hrest q (by simpa using hq))
    refine ⟨fun r hr => ?_, fun l hl => ?_, hpath.traps, hpath.guards⟩
    · obtain ⟨hty, hpos, hle⟩ := hpath.saved r hr
      exact ⟨hty, hpos, hle.trans (Nat.le_of_eq (congrArg CacheState.maxOffset hstate.symm))⟩
    · exact (hbound l).2 (.inr (hpath.resumes l hl))
  · simpa [Lowering.labels, pathLabels] using hnodup
  · have hl : l ∈ rest.map OutOfLine.label ++ s.control.flatMap ControlData.labels := by
      simpa [Lowering.labels, pathLabels] using hl
    show l.index < (o.generate s.work).emitter.buffer.labels.size
    rw [hsize]
    refine h.known l ?_
    rw [nil_append, Lowering.labels, hlabels]
    exact mem_cons_of_mem _ hl
  · have hl : l ∈ rest.map OutOfLine.label ++ s.control.flatMap ControlData.unbound := by
      simpa [Lowering.unbound, pathLabels] using hl
    show (o.generate s.work).emitter.buffer.boundAt? l = none
    rw [boundAt?_generate hlt, if_neg]
    · refine h.unbound l ?_
      rw [nil_append, Lowering.unbound, hlabels]
      exact mem_cons_of_mem _ hl
    · rintro rfl
      exact hfresh (hknown _ ControlData.unbound_subset _ hl)
  · show (o.generate s.work).emitter.isBound l = true ∨ _
    rw [hbound]
    rcases mem_append.1 hi with hi | hi
    · rcases h.targets i hi l hl with hb | hb
      · exact .inl (.inr hb)
      · rw [nil_append, Lowering.targets, hlabels] at hb
        rcases mem_cons.1 hb with rfl | hb
        · exact .inl (.inl rfl)
        · exact .inr (by simpa [Lowering.targets, pathLabels] using hb)
    · exact .inl (.inr (hfine.resumes l (OutOfLine.target_of_mem_code hi hl)))
  · have hnum : (o.generate s.work).emitter.numLocals = s.emitter.numLocals := by rw [hemitter]; rfl
    show (o.generate s.work).Describes (o.generate s.work).emitter.numLocals rest.toArray.toList _
    rw [hnum]
    have htables := h.tables
    rw [hpaths] at htables
    have hstraight := o.isStraight_saveCode
    have hnone' : ∀ i ∈ o.saveCode, i.target? = none :=
      fun i hi => Instr.target?_of_isStraight (hstraight i hi)
    have hcode := (h.code.bind hlt hnone).emits fun i hi l hl => by
      cases (hnone' i hi).symm.trans hl
    have hcall := hcode.emit (i := .callStub o.stub) (by rintro _ ⟨⟩)
    have hresume : ∀ i ∈ o.resumeCode, i.isCall = false :=
      fun i hi => (OutOfLine.mem_resumeCode hi).1
    have hdescribes : (o.generate s.work).Describes s.emitter.numLocals rest
        (is ++ o.saveCode ++ [.callStub o.stub] ++ o.resumeCode) := htables.generate hfine.stub_ne
      (fun i hi => Instr.isCall_of_isStraight (hstraight i hi)) hresume o.position ?_ ?_
    · rwa [append_assoc, append_assoc, ← append_assoc o.saveCode] at hdescribes
    · rw [← hcode.size]
      simp only [OutOfLine.generate, Emitter.emitAll_eq]
      rfl
    · rw [← hcall.size]
      simp only [OutOfLine.generate, Emitter.emitAll_eq]
      rfl

/-- Labels stay where they are. -/
theorem Sound.boundAt?_generate (h : s.Sound R is []) (hpaths : s.outOfLine.toList = o :: rest)
    {place : Nat} (hl : s.emitter.buffer.boundAt? l = some place) :
    (o.generate s.work).emitter.buffer.boundAt? l = some place := by
  have hmem : o.label ∈ s.pathLabels := by
    rw [pathLabels, hpaths]
    exact mem_cons_self
  rw [Lowering.boundAt?_generate (h.known _ (mem_append_right _ (mem_append_left _ hmem))), if_neg]
  · exact hl
  · rintro rfl
    rw [h.unbound _ (mem_append_right _ (mem_append_left _ hmem))] at hl
    cases hl

/-- The slow paths from a list. -/
def generateAll (a : Assembly) (paths : List OutOfLine) : Assembly :=
  paths.foldl (fun a o => o.generate a) a

/-- All slow paths are emitted. Their labels are bound in front of code. -/
theorem Sound.generateAll {paths : List OutOfLine} (h : s.Sound R is [])
    (hpaths : s.outOfLine.toList = paths) :
    ({ s with work := Lowering.generateAll s.work paths, outOfLine := #[] } : Lowering).Sound R
      (is ++ paths.flatMap OutOfLine.code) [] ∧
    (∀ l place, s.emitter.buffer.boundAt? l = some place →
      (Lowering.generateAll s.work paths).emitter.buffer.boundAt? l = some place) ∧
    ∀ l place, (Lowering.generateAll s.work paths).emitter.buffer.boundAt? l = some place →
      s.emitter.buffer.boundAt? l = some place ∨
        place < Instr.codeSize (is ++ paths.flatMap OutOfLine.code) := by
  induction paths generalizing s is with
  | nil =>
    have hnone : s.outOfLine = #[] := Array.toList_eq_nil_iff.1 hpaths
    refine ⟨?_, fun l place hl => hl, fun l place hl => .inl hl⟩
    rw [flatMap_nil, append_nil, Lowering.generateAll, foldl_nil, ← hnone]
    exact h
  | cons o rest ih =>
    obtain ⟨hsound, hkept, hplaces⟩ := ih (h.generate hpaths) rfl
    rw [append_assoc] at hsound hplaces
    refine ⟨hsound, fun l place hl => hkept l place (h.boundAt?_generate hpaths hl),
      fun l place hl => ?_⟩
    rcases hplaces l place hl with hl | hlt
    · have hlabel : o.label.index < s.emitter.buffer.labels.size := by
        refine h.known _ (mem_append_right _ (mem_append_left _ ?_))
        rw [pathLabels, hpaths]
        exact mem_cons_self
      have hl : (o.generate s.work).emitter.buffer.boundAt? l = some place := hl
      rw [Lowering.boundAt?_generate hlabel] at hl
      split at hl
      next =>
        cases hl
        refine .inr ?_
        have hpos : 0 < Instr.codeSize o.code := by
          obtain ⟨i, tail, htail⟩ := exists_cons_of_ne_nil o.code_ne_nil
          have := i.size_pos
          rw [htail, Instr.codeSize_cons]
          omega
        rw [h.code.size, flatMap_cons]
        simp only [Instr.codeSize_append]
        omega
      next => exact .inl hl
    · exact .inr hlt

/-! ## The size of the frame -/

/-- The instructions in the order of their offsets: those of the body, then the slow paths. -/
def listing (s : Lowering) (size : UInt32) (body : List (Instr Label)) : List (Instr Label) :=
  .enterFrame size :: body ++ s.outOfLine.toList.flatMap OutOfLine.code

/-- The code of a function is complete; its frame is set up with the given size. -/
structure Finished (R : Regime) (s : Lowering) (size : UInt32) (body : List (Instr Label)) :
    Prop where
  setup : s.frameSetup = 0
  code : s.emitter.buffer.Assembles (s.listing size body)
  fine : ∀ i ∈ s.listing size body, i.Fine R s.emitter.state.maxOffset
  last : ∃ init i, body = init ++ [i] ∧ i.isExit = true
  targets : ∀ i ∈ s.listing size body, ∀ l, i.target? = some l → ∃ place,
    s.emitter.buffer.boundAt? l = some place ∧ place < Instr.codeSize (s.listing size body)
  paths : ∀ o ∈ s.outOfLine, (o.continuation = none ∧ o.stub.isTrap = true) ∨
    ∃ l place, o.continuation = some l ∧ o.stub = .stackGuard ∧
      s.emitter.buffer.boundAt? l = some place ∧ place < Instr.codeSize (.enterFrame size :: body)
  tables : s.work.Describes s.emitter.numLocals [] (s.listing size body)

theorem codeSize_enterFrame (size size' : UInt32) (body : List (Instr Label)) :
    Instr.codeSize (.enterFrame size :: body) = Instr.codeSize (.enterFrame size' :: body) := by
  rw [Instr.codeSize_cons, Instr.codeSize_cons]
  rfl

theorem codeSize_listing (s : Lowering) (size size' : UInt32) (body : List (Instr Label)) :
    Instr.codeSize (s.listing size body) = Instr.codeSize (s.listing size' body) := by
  rw [listing, Instr.codeSize_append, codeSize_enterFrame size size',
    listing, Instr.codeSize_append]

theorem listing_congr (h : s'.outOfLine = s.outOfLine) (size : UInt32) (body : List (Instr Label)) :
    s'.listing size body = s.listing size body := by
  rw [listing, listing, h]

theorem Closes.finished (h : Closes R [] s) {label : Label} (hcontrol : s.control = [{ label }]) :
    ∃ body, ({ s with work := Lowering.generateAll s.work s.outOfLine.toList } : Lowering).Finished
      R 0 body := by
  obtain ⟨is, hsound, hclosed⟩ := h
  obtain ⟨hsetup, body, rfl⟩ := hsound.setup
  obtain ⟨hall, hkept, hplaces⟩ := hsound.generateAll rfl
  refine ⟨body, hsetup, hall.code, hall.fine, ?_, fun i hi l hl => ?_, fun o ho => ?_, hall.tables⟩
  · obtain ⟨init, i, hlast, hexit⟩ := hclosed.last
    cases init with
    | nil =>
      cases hlast
      cases hexit
    | cons j init =>
      cases hlast
      exact ⟨init, i, rfl, hexit⟩
  · have hb : (Lowering.generateAll s.work s.outOfLine.toList).emitter.isBound l = true := by
      rcases hall.targets i hi l hl with hb | hb
      · exact hb
      · simp [Lowering.targets, pathLabels, hcontrol, ControlData.targets,
          ControlData.elseLabels] at hb
    obtain ⟨place, hplace⟩ := CodeBuffer.isBound_iff.1 hb
    refine ⟨place, hplace, ?_⟩
    rcases hplaces l place hplace with hold | hlt
    · have hlt : place < Instr.codeSize (.enterFrame 0 :: body) := by
        rcases mem_append.1 hi with hi | hi
        · exact hclosed.targets i hi l hl place hold
        · obtain ⟨o, ho, hi⟩ := mem_flatMap.1 hi
          exact hclosed.resumes o (Array.mem_toList_iff.1 ho) l (OutOfLine.target_of_mem_code hi hl)
            place hold
      rw [listing, Instr.codeSize_append]
      exact Nat.lt_add_right _ hlt
    · exact hlt
  · have hfine := hsound.paths o ho
    cases hcont : o.continuation with
    | none => exact .inl ⟨rfl, hfine.traps hcont⟩
    | some l =>
      obtain ⟨place, hplace⟩ := CodeBuffer.isBound_iff.1 (hfine.resumes l hcont)
      exact .inr ⟨l, place, rfl, hfine.guards l hcont, hkept l place hplace,
        hclosed.resumes o ho l hcont place hplace⟩

/-- The size of the frame is filled in. -/
theorem Finished.patch {size : UInt32} (h : s.Finished R size body)
    (newSize : Nat) (hwork : s'.work = { s.work with emitter := { s.emitter with
      buffer := s.emitter.buffer.patchFrameSize 0 newSize } })
    (hpaths : s'.outOfLine = s.outOfLine) (hsetup : s'.frameSetup = s.frameSetup) :
    s'.Finished R (.ofNat newSize) body := by
  have hemitter : s'.emitter = { s.emitter with
      buffer := s.emitter.buffer.patchFrameSize 0 newSize } := congrArg Assembly.emitter hwork
  have hbound : ∀ l, s'.emitter.buffer.boundAt? l = s.emitter.buffer.boundAt? l := fun l => by
    rw [hemitter]
    rfl
  have hlisting := listing_congr hpaths (.ofNat newSize) body
  have hmem : ∀ i ∈ s.listing (.ofNat newSize) body, i = .enterFrame (.ofNat newSize) ∨
      i ∈ s.listing size body := by
    intro i hi
    rcases mem_cons.1 hi with rfl | hi
    · exact .inl rfl
    · exact .inr (mem_cons_of_mem _ hi)
  have hstate : s'.emitter.state = s.emitter.state := by rw [hemitter]
  refine ⟨hsetup.trans h.setup, ?_, fun i hi => ?_, h.last, fun i hi l hl => ?_, fun o ho => ?_, ?_⟩
  · rw [hlisting, hemitter]
    exact @CodeBuffer.Assembles.patchFrameSize _ [] _ _ h.code newSize
  · rw [hstate]
    rcases hmem i (hlisting ▸ hi) with rfl | hi
    · exact .of_none rfl rfl
    · exact h.fine i hi
  · rcases hmem i (hlisting ▸ hi) with rfl | hi
    · cases hl
    · rw [hbound, hlisting, codeSize_listing s _ size]
      exact h.targets i hi l hl
  · rw [hpaths] at ho
    refine (h.paths o ho).imp_right fun ⟨l, place, hl, hstub, hplace, hlt⟩ =>
      ⟨l, place, hl, hstub, (hbound l).trans hplace, ?_⟩
    rwa [codeSize_enterFrame _ size]
  · rw [hlisting, show s'.emitter.numLocals = s.emitter.numLocals by rw [hemitter]]
    exact Assembly.Describes.patch h.tables (by rw [hwork]) (by rw [hwork])

theorem Finished.pending {size : UInt32} (h : s.Finished R size body) :
    s.emitter.buffer.pending = [] := by
  refine h.code.pending_eq_nil fun i hi l hl hnone => ?_
  obtain ⟨place, hplace, -⟩ := h.targets i hi l hl
  rw [hnone] at hplace
  cases hplace

theorem finishFunction_upholds (h : Closes R [] s) {label : Label}
    (hcontrol : s.control = [{ label }]) :
    Upholds R finishFunction s fun _ s' => ∃ body,
      s'.Finished R (.ofNat s'.emitter.frameSize) body := by
  obtain ⟨body, hdone⟩ := h.finished hcontrol
  have hfold : s.outOfLine.foldl (fun a path => path.generate a) s.work =
      generateAll s.work s.outOfLine.toList := by
    rw [generateAll, Array.foldl_toList]
  refine .modify_bind (.get_bind (.modify_bind (.get_bind ?_)))
  rw [hfold]
  obtain ⟨t, ht⟩ : ∃ t, t = { s with work := generateAll s.work s.outOfLine.toList } := ⟨_, rfl⟩
  rw [← ht] at hdone ⊢
  obtain ⟨s', hs'⟩ : ∃ s', s' = t.mapEmitter fun e =>
      { e with buffer := e.buffer.patchFrameSize t.frameSetup e.frameSize } := ⟨_, rfl⟩
  have hsize : s'.emitter.frameSize = t.emitter.frameSize := by
    rw [hs']
    rfl
  have hpatched : s'.Finished R (.ofNat s'.emitter.frameSize) body := by
    rw [hsize]
    refine hdone.patch t.emitter.frameSize ?_ (by rw [hs']; rfl) (by rw [hs']; rfl)
    rw [hs', hdone.setup]
    rfl
  rw [← hs']
  refine .ite (fun hfalse => ?_) fun _ => .of_pure ⟨body, hpatched⟩
  rw [CodeBuffer.allResolved, hpatched.pending] at hfalse
  cases hfalse

end Lowering

end OnePass
