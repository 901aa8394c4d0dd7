import OnePass.Proofs.CallTables

/-!
The invariant of code generation. Besides what holds of the emitter it says who owes a label: the
current step, an open construct or a slow path. Every label has one owner at most, none that is owed
is bound yet, and code branches to labels that are bound or owed. So once all are paid, no branch is
left open.
-/
namespace OnePass

open List

namespace CodeBuffer

variable {b : CodeBuffer} {l : Label} {is new : List (Instr Label)}

theorem isBound_iff : b.isBound l = true ↔ ∃ place, b.boundAt? l = some place :=
    Option.isSome_iff_exists

theorem isBound_eq_false : b.isBound l = false ↔ b.boundAt? l = none := by
  rw [isBound, Option.isSome_eq_false_iff, Option.isNone_iff_eq_none]

theorem lt_of_isBound (h : b.isBound l = true) : l.index < b.labels.size := by
  obtain ⟨place, hplace⟩ := isBound_iff.1 h
  by_contra hlt
  rw [boundAt?, Array.getElem?_eq_none (Nat.not_lt.1 hlt)] at hplace
  cases hplace

theorem labels_emits (new : List (Instr Label)) (b : CodeBuffer) :
    (new.foldl emit b).labels = b.labels := by
  induction new generalizing b with
  | nil => rfl
  | cons i new ih => rw [foldl_cons, ih, emit_labels]

theorem boundAt?_emits (new : List (Instr Label)) (b : CodeBuffer) (l : Label) :
    (new.foldl emit b).boundAt? l = b.boundAt? l := by
  rw [boundAt?, labels_emits, boundAt?]

theorem Assembles.emits (h : b.Assembles is)
    (hnew : ∀ i ∈ new, ∀ l, i.target? = some l → l.index < b.labels.size) :
    (new.foldl CodeBuffer.emit b).Assembles (is ++ new) := by
  induction new generalizing b is with
  | nil => simpa using h
  | cons i new ih =>
    have hemit := h.emit (hnew i mem_cons_self)
    have hall := ih hemit fun j hj l hl => by
      rw [emit_labels]
      exact hnew j (mem_cons_of_mem _ hj) l hl
    rwa [append_assoc] at hall

end CodeBuffer

namespace Emitter

variable {R : Regime} {base e : Emitter} {ts : List ValueType}

@[simp] theorem isBound_emit (e : Emitter) (i : Instr Label) (l : Label) :
    (e.emit i).isBound l = e.isBound l := by
  simp only [isBound, CodeBuffer.isBound, emit, CodeBuffer.boundAt?_emit]

@[simp] theorem isBound_addLabel (e : Emitter) (l : Label) :
    e.addLabel.isBound l = e.isBound l := by
  simp only [isBound, CodeBuffer.isBound, addLabel, CodeBuffer.boundAt?_addLabel]

theorem Onward.boundAt? (h : base.Onward R ts e) (l : Label) :
    e.buffer.boundAt? l = base.buffer.boundAt? l := by
  obtain ⟨new, hbuffer, -⟩ := h.code
  rw [hbuffer, CodeBuffer.boundAt?_emits]

theorem Onward.isBound (h : base.Onward R ts e) (l : Label) : e.isBound l = base.isBound l := by
  rw [Emitter.isBound, Emitter.isBound, CodeBuffer.isBound, CodeBuffer.isBound, h.boundAt?]

end Emitter

namespace ControlData

variable {d : ControlData}

/-- The label of the other arm, while it is to come. -/
def elseLabels (d : ControlData) : List Label := (d.elseArm.map ElseArm.label).toList

def labels (d : ControlData) : List Label := d.label :: d.elseLabels

/-- The labels that code may branch to. -/
def targets (d : ControlData) : List Label :=
  (if d.labelState.isSome then [d.label] else []) ++ d.elseLabels

/-- The labels that no code may have been emitted for. -/
def unbound (d : ControlData) : List Label :=
  (if d.labelState.isSome then [] else [d.label]) ++ d.elseLabels

/-- The states that code goes on with. -/
def states (d : ControlData) : List CacheState :=
  d.labelState.toList ++ (d.elseArm.map ElseArm.state).toList

theorem targets_subset (d : ControlData) : d.targets ⊆ d.labels := by
  unfold targets labels
  split <;> simp

theorem unbound_subset (d : ControlData) : d.unbound ⊆ d.labels := by
  unfold unbound labels
  split <;> simp

end ControlData

/-- A slow path saves values of known types at places in the frame, and goes on at a label that is
bound after the stack guard, or calls a trap. -/
structure OutOfLine.Fine (R : Regime) (e : Emitter) (o : OutOfLine) : Prop where
  saved : ∀ r ∈ o.saved, R.allows r.ty ∧ 0 < r.offset ∧ r.offset ≤ e.state.maxOffset
  resumes : ∀ l, o.continuation = some l → e.isBound l = true
  traps : o.continuation = none → o.stub.isTrap = true
  guards : ∀ l, o.continuation = some l → o.stub = .stackGuard

namespace Lowering

variable {R : Regime} {s s' base : Lowering} {is : List (Instr Label)} {ls : List Label}
  {l : Label} {i : Instr Label} {ts : List ValueType} {d : ControlData}

def pathLabels (s : Lowering) : List Label := s.outOfLine.toList.map OutOfLine.label

/-- The labels of constructs and slow paths. -/
def labels (s : Lowering) : List Label := s.pathLabels ++ s.control.flatMap ControlData.labels

def targets (s : Lowering) : List Label := s.pathLabels ++ s.control.flatMap ControlData.targets

def unbound (s : Lowering) : List Label := s.pathLabels ++ s.control.flatMap ControlData.unbound

theorem flatMap_mono {f g : ControlData → List Label} (h : ∀ d, f d ⊆ g d)
    (xs : List Label) (control : List ControlData) :
      xs ++ control.flatMap f ⊆ xs ++ control.flatMap g := by
  intro l hl
  rcases mem_append.1 hl with hl | hl
  · exact mem_append_left _ hl
  · obtain ⟨d, hd, hl⟩ := mem_flatMap.1 hl
    exact mem_append_right _ (mem_flatMap.2 ⟨d, hd, h d hl⟩)

theorem targets_subset (s : Lowering) :
    s.targets ⊆ s.labels := flatMap_mono ControlData.targets_subset _ _

theorem unbound_subset (s : Lowering) :
    s.unbound ⊆ s.labels := flatMap_mono ControlData.unbound_subset _ _

/-- The index of the next entry of the side table, if there is one. -/
def entryIndex? (s : Lowering) : Option Nat := s.work.sideRecord.map fun r => r.entries.size

/-- The slots are described in the side table, if there is one. -/
def withEntry (s : Lowering) (pc : Nat) (view : RegisterView) : Lowering :=
  { s with work := { s.work with
    sideRecord := s.work.sideRecord.map fun r => (r.add pc s.emitter.state view).2 } }

/-- The code so far is `is`, and the current step owes the labels `ls`. -/
structure Sound (R : Regime) (s : Lowering) (is : List (Instr Label)) (ls : List Label) :
    Prop where
  code : s.emitter.buffer.Assembles is
  setup : s.frameSetup = 0 ∧ ∃ rest, is = .enterFrame 0 :: rest
  fine : ∀ i ∈ is, i.Fine R s.emitter.state.maxOffset
  state : s.emitter.state.Regular R
  saved : ∀ d ∈ s.control, ∀ t ∈ d.states, t.Regular R ∧ t.maxOffset ≤ s.emitter.state.maxOffset
  paths : ∀ o ∈ s.outOfLine, o.Fine R s.emitter
  distinct : (ls ++ s.labels).Nodup
  known : ∀ l ∈ ls ++ s.labels, l.index < s.emitter.buffer.labels.size
  unbound : ∀ l ∈ ls ++ s.unbound, s.emitter.buffer.boundAt? l = none
  targets : ∀ i ∈ is, ∀ l, i.target? = some l → s.emitter.isBound l = true ∨ l ∈ ls ++ s.targets
  tables : s.work.Describes s.emitter.numLocals s.outOfLine.toList is

namespace Sound

variable {control : List ControlData}

section

variable (h : s.Sound R is ls)
include h

/-- The test that waits does not matter. -/
theorem congr (hwork : s'.work = s.work) (hcontrol : s'.control = s.control)
    (hpaths : s'.outOfLine = s.outOfLine) (hsetup : s'.frameSetup = s.frameSetup) :
      s'.Sound R is ls := by
  have hemitter : s'.emitter = s.emitter := congrArg Assembly.emitter hwork
  have hlabels : s'.labels = s.labels := by
    rw [Lowering.labels, Lowering.labels, pathLabels, pathLabels, hcontrol, hpaths]
  have htargets : s'.targets = s.targets := by
    rw [Lowering.targets, Lowering.targets, pathLabels, pathLabels, hcontrol, hpaths]
  have hunbound : s'.unbound = s.unbound := by
    rw [Lowering.unbound, Lowering.unbound, pathLabels, pathLabels, hcontrol, hpaths]
  constructor
  · rw [hemitter]; exact h.code
  · rw [hsetup]; exact h.setup
  · rw [hemitter]; exact h.fine
  · rw [hemitter]; exact h.state
  · rw [hemitter, hcontrol]; exact h.saved
  · rw [hemitter, hpaths]; exact h.paths
  · rw [hlabels]; exact h.distinct
  · rw [hlabels, hemitter]; exact h.known
  · rw [hunbound, hemitter]; exact h.unbound
  · rw [htargets, hemitter]; exact h.targets
  · rw [hwork, hemitter, hpaths]; exact h.tables

theorem perm {ls' : List Label} (hperm : ls.Perm ls') : s.Sound R is ls' := by
  have hmem : ∀ {xs : List Label} {l}, l ∈ ls ++ xs ↔ l ∈ ls' ++ xs :=
    (hperm.append_right _).mem_iff
  refine ⟨h.code, h.setup, h.fine, h.state, h.saved, h.paths,
    ((hperm.append_right _).nodup_iff).1 h.distinct, fun l hl => h.known l (hmem.2 hl),
    fun l hl => h.unbound l (hmem.2 hl), fun i hi l hl => ?_, h.tables⟩
  rw [← hmem]
  exact h.targets i hi l hl

/-- Labels that are owed can be branched to. -/
theorem lt_of_target (hl : s.emitter.isBound l = true ∨ l ∈ ls ++ s.targets) :
    l.index < s.emitter.buffer.labels.size := by
  rcases hl with hl | hl
  · exact CodeBuffer.lt_of_isBound hl
  · refine h.known l ?_
    rcases mem_append.1 hl with hl | hl
    · exact mem_append_left _ hl
    · exact mem_append_right _ (s.targets_subset hl)

/-- The emitter goes on. Labels are as before. -/
theorem onward {e : Emitter} (hon : s.emitter.Onward R ts e) :
    ∃ new, (s.mapEmitter fun _ => e).Sound R (is ++ new) ls := by
  obtain ⟨new, hbuffer, hnew⟩ := hon.code
  have hsize : e.buffer.labels.size = s.emitter.buffer.labels.size := by
    rw [hbuffer, CodeBuffer.labels_emits]
  refine ⟨new, ?_, ⟨h.setup.1, ?_⟩, fun i hi => ?_, hon.state, fun d hd t ht => ?_,
    fun o ho => ?_, h.distinct, fun l hl => ?_, fun l hl => ?_, fun i hi l hl => ?_, ?_⟩
  · show e.buffer.Assembles _
    rw [hbuffer]
    refine h.code.emits fun i hi l hl => ?_
    rw [Instr.target?_of_isStraight (hnew i hi).1] at hl
    cases hl
  · obtain ⟨rest, hrest⟩ := h.setup.2
    exact ⟨rest ++ new, by rw [hrest, cons_append]⟩
  · rcases mem_append.1 hi with hi | hi
    · exact (h.fine i hi).mono hon.room
    · exact (hnew i hi).2
  · exact ⟨(h.saved d hd t ht).1, Nat.le_trans (h.saved d hd t ht).2 hon.room⟩
  · have hpath := h.paths o ho
    refine ⟨fun r hr => ?_, fun l hl => ?_, hpath.traps, hpath.guards⟩
    · obtain ⟨hty, hpos, hle⟩ := hpath.saved r hr
      exact ⟨hty, hpos, Nat.le_trans hle hon.room⟩
    · show e.isBound l = true
      rw [hon.isBound]
      exact hpath.resumes l hl
  · show l.index < e.buffer.labels.size
    rw [hsize]
    exact h.known l hl
  · show e.buffer.boundAt? l = none
    rw [hon.boundAt?]
    exact h.unbound l hl
  · show e.isBound l = true ∨ _
    rcases mem_append.1 hi with hi | hi
    · rw [hon.isBound]
      exact h.targets i hi l hl
    · rw [Instr.target?_of_isStraight (hnew i hi).1] at hl
      cases hl
  · show Assembly.Describes _ e.numLocals _ _
    rw [hon.numLocals]
    exact h.tables.straight (fun i hi => Instr.isCall_of_isStraight (hnew i hi).1) rfl rfl

/-- All but the tables, for an instruction that may branch. -/
theorem emit_tables {work : Assembly} (hemitter : work.emitter = s.emitter.emit i)
    (hfine : i.Fine R s.emitter.state.maxOffset)
    (htarget : ∀ l, i.target? = some l → s.emitter.isBound l = true ∨ l ∈ ls ++ s.targets)
    (htables : work.Describes s.emitter.numLocals s.outOfLine.toList (is ++ [i])) :
    ({ s with work } : Lowering).Sound R (is ++ [i]) ls := by
  obtain ⟨emitter, positions, protections, sideRecord⟩ := work
  subst hemitter
  refine ⟨h.code.emit fun l hl => h.lt_of_target (htarget l hl), ⟨h.setup.1, ?_⟩,
    fun j hj => ?_, h.state, h.saved, fun o ho => ?_, h.distinct, fun l hl => ?_, fun l hl => ?_,
    fun j hj l hl => ?_, htables⟩
  · obtain ⟨rest, hrest⟩ := h.setup.2
    exact ⟨rest ++ [i], by rw [hrest, cons_append]⟩
  · rcases mem_append.1 hj with hj | hj
    · exact h.fine j hj
    · cases mem_singleton.1 hj
      exact hfine
  · have hpath := h.paths o ho
    refine ⟨hpath.saved, fun l hl => ?_, hpath.traps, hpath.guards⟩
    show (s.emitter.emit i).isBound l = true
    rw [Emitter.isBound_emit]
    exact hpath.resumes l hl
  · show l.index < (s.emitter.buffer.emit i).labels.size
    rw [CodeBuffer.emit_labels]
    exact h.known l hl
  · show (s.emitter.buffer.emit i).boundAt? l = none
    rw [CodeBuffer.boundAt?_emit]
    exact h.unbound l hl
  · show (s.emitter.emit i).isBound l = true ∨ _
    rw [Emitter.isBound_emit]
    rcases mem_append.1 hj with hj | hj
    · exact h.targets j hj l hl
    · cases mem_singleton.1 hj
      exact htarget l hl

/-- An instruction that may branch. -/
theorem emit (hfine : i.Fine R s.emitter.state.maxOffset) (hcall : i.isCall = false)
    (htarget : ∀ l, i.target? = some l → s.emitter.isBound l = true ∨ l ∈ ls ++ s.targets) :
    (s.mapEmitter (·.emit i)).Sound R (is ++ [i]) ls :=
  h.emit_tables rfl hfine htarget (h.tables.straight (fun j hj => by
    cases mem_singleton.1 hj
    exact hcall) rfl rfl)

/-- The step takes a label into use and owes it. -/
theorem newLabel : (s.mapEmitter Emitter.addLabel).Sound R is (s.emitter.nextLabel :: ls) := by
  have hfresh : s.emitter.nextLabel ∉ ls ++ s.labels := fun hmem => Nat.lt_irrefl _ (h.known _ hmem)
  have hsize : s.emitter.addLabel.buffer.labels.size = s.emitter.buffer.labels.size + 1 :=
    Array.size_push ..
  refine ⟨h.code.addLabel, h.setup, h.fine, h.state, h.saved, fun o ho => ?_,
    nodup_cons.2 ⟨hfresh, h.distinct⟩, fun l hl => ?_, fun l hl => ?_, fun i hi l hl => ?_,
    h.tables.same rfl rfl⟩
  · have hpath := h.paths o ho
    refine ⟨hpath.saved, fun l hl => ?_, hpath.traps, hpath.guards⟩
    show s.emitter.addLabel.isBound l = true
    rw [Emitter.isBound_addLabel]
    exact hpath.resumes l hl
  · show l.index < s.emitter.addLabel.buffer.labels.size
    rw [hsize]
    rcases mem_cons.1 hl with rfl | hl
    · exact Nat.lt_succ_self _
    · exact Nat.lt_succ_of_lt (h.known l hl)
  · show s.emitter.buffer.addLabel.boundAt? l = none
    rw [CodeBuffer.boundAt?_addLabel]
    rcases mem_cons.1 hl with rfl | hl
    · exact CodeBuffer.isBound_eq_false.1
        (Bool.eq_false_iff.2 fun hb => Nat.lt_irrefl _ (CodeBuffer.lt_of_isBound hb))
    · exact h.unbound l hl
  · show s.emitter.addLabel.isBound l = true ∨ _
    rw [Emitter.isBound_addLabel]
    exact (h.targets i hi l hl).imp_right (mem_cons_of_mem _)

end

section

variable (h : s.Sound R is (l :: ls))
include h

theorem isBound_bind (q : Label) :
    (s.emitter.bind l).isBound q = (s.emitter.isBound q || decide (q = l)) := by
  have hlt := h.known l mem_cons_self
  simp only [Emitter.isBound, CodeBuffer.isBound, Emitter.bind, CodeBuffer.boundAt?_bind hlt]
  split <;> simp_all

/-- The step pays a label. -/
theorem bindLabel : (s.mapEmitter (·.bind l)).Sound R is ls := by
  have hbound : ∀ q, (s.emitter.bind l).isBound q = true ↔ s.emitter.isBound q = true ∨ q = l := by
    intro q
    rw [h.isBound_bind, Bool.or_eq_true, decide_eq_true_iff]
  have hlt := h.known l mem_cons_self
  have hnone := h.unbound l mem_cons_self
  obtain ⟨hnew, hdistinct⟩ := nodup_cons.1 h.distinct
  have hsize : (s.emitter.buffer.bind l).labels.size = s.emitter.buffer.labels.size := by
    rw [CodeBuffer.labels_bind]
    exact Array.size_setIfInBounds
  refine ⟨h.code.bind hlt hnone, h.setup, h.fine, h.state, h.saved, fun o ho => ?_, hdistinct,
    fun q hq => ?_, fun q hq => ?_, fun i hi q hq => ?_, h.tables.same rfl rfl⟩
  · have hpath := h.paths o ho
    refine ⟨hpath.saved, fun q hq => ?_, hpath.traps, hpath.guards⟩
    show (s.emitter.bind l).isBound q = true
    rw [hbound]
    exact .inl (hpath.resumes q hq)
  · show q.index < (s.emitter.buffer.bind l).labels.size
    rw [hsize]
    exact h.known q (mem_cons_of_mem _ hq)
  · show (s.emitter.buffer.bind l).boundAt? q = none
    rw [CodeBuffer.boundAt?_bind hlt, if_neg]
    · exact h.unbound q (mem_cons_of_mem _ hq)
    · rintro rfl
      refine hnew ?_
      rcases mem_append.1 hq with hq | hq
      · exact mem_append_left _ hq
      · exact mem_append_right _ (s.unbound_subset hq)
  · show (s.emitter.bind l).isBound q = true ∨ _
    rw [hbound]
    rcases h.targets i hi q hq with hq | hq
    · exact .inl (.inl hq)
    · rcases mem_cons.1 hq with rfl | hq
      · exact .inl (.inr rfl)
      · exact .inr hq

/-- A slow path takes over a label. It has an entry in the side table, if there is one. -/
theorem addPath {path : OutOfLine} (hlabel : path.label = l)
    (hpath : path.Fine R s.emitter) (hentry : path.entry = s.entryIndex?)
    (hlocals : s.emitter.numLocals ≤ s.emitter.state.height) (pc : Nat) (view : RegisterView) :
    ({ s.withEntry pc view with outOfLine := s.outOfLine.push path } : Lowering).Sound R is ls := by
  have hmove : ∀ xs : List Label, (l :: ls ++ (s.pathLabels ++ xs)).Perm
      (ls ++ ((s.outOfLine.push path).toList.map OutOfLine.label ++ xs)) := by
    intro xs
    refine perm_iff_count.2 fun x => ?_
    simp only [pathLabels, Array.toList_push, map_append, map_cons, map_nil, hlabel,
      count_append, count_cons, count_nil]
    omega
  refine ⟨h.code, h.setup, h.fine, h.state, h.saved, fun o ho => ?_,
    (hmove _).nodup_iff.1 h.distinct, fun q hq => h.known q ((hmove _).mem_iff.2 hq),
    fun q hq => h.unbound q ((hmove _).mem_iff.2 hq), fun i hi q hq => ?_, ?_⟩
  · rcases Array.mem_push.1 ho with ho | rfl
    · exact h.paths o ho
    · exact hpath
  · exact (h.targets i hi q hq).imp_right (hmove _).mem_iff.1
  · show Assembly.Describes _ _ (s.outOfLine.push path).toList _
    rw [Array.toList_push]
    exact h.tables.addPath hlocals view hentry rfl rfl

end

/-! ### Constructs -/

/-- A construct is opened with a new label, which no code branches to yet. -/
theorem openConstruct (h : s.Sound R is (d.elseLabels ++ ls))
    (hlabel : d.label = s.emitter.nextLabel) (hd : d.labelState = none)
    (hstates : ∀ t ∈ d.states, t.Regular R ∧ t.maxOffset ≤ s.emitter.state.maxOffset) :
    ({ s.mapEmitter Emitter.addLabel with control := d :: s.control } : Lowering).Sound
      R is ls := by
  have hnew := h.newLabel
  have hlabels : s.emitter.nextLabel :: (d.elseLabels ++ ls) = d.labels ++ ls := by
    rw [← hlabel]
    rfl
  have htargets : d.targets = d.elseLabels := by simp [ControlData.targets, hd]
  have hunbound : d.unbound = d.labels := by simp [ControlData.unbound, ControlData.labels, hd]
  rw [hlabels] at hnew
  have hmove : ∀ xs : List Label, (d.labels ++ ls ++ (s.pathLabels ++ xs)).Perm
      (ls ++ (s.pathLabels ++ (d.labels ++ xs))) := by
    intro xs
    refine perm_iff_count.2 fun x => ?_
    simp only [count_append]
    omega
  refine ⟨hnew.code, hnew.setup, hnew.fine, hnew.state, fun d' hd' t ht => ?_, hnew.paths,
    ?_, fun q hq => hnew.known q ((hmove _).mem_iff.2 hq), fun q hq => hnew.unbound q ?_,
    fun i hi q hq => ?_, hnew.tables.same rfl rfl⟩
  · rcases mem_cons.1 hd' with rfl | hd'
    · exact hstates t ht
    · exact h.saved d' hd' t ht
  · exact (hmove _).nodup_iff.1 hnew.distinct
  · have hq' : q ∈ ls ++ (s.pathLabels ++ (d.unbound ++ s.control.flatMap ControlData.unbound)) :=
      hq
    rw [hunbound] at hq'
    exact (hmove _).mem_iff.2 hq'
  · show s.emitter.addLabel.isBound q = true ∨
      q ∈ ls ++ (s.pathLabels ++ (d.targets ++ s.control.flatMap ControlData.targets))
    rw [Emitter.isBound_addLabel, htargets]
    refine (h.targets i hi q hq).imp_right fun hq => ?_
    have hq : q ∈ d.elseLabels ++ ls ++ (s.pathLabels ++ s.control.flatMap ControlData.targets) :=
      hq
    simp only [mem_append] at hq ⊢
    tauto

variable {state : CacheState}

/-- A construct is opened whose label is bound at once. -/
theorem openLoop (h : s.Sound R is ls) (hstate : state.Regular R)
    (hroom : state.maxOffset ≤ s.emitter.state.maxOffset) :
    ({ (s.mapEmitter Emitter.addLabel).mapEmitter (·.bind s.emitter.nextLabel) with
      control := { label := s.emitter.nextLabel, labelState := some state } :: s.control } :
        Lowering).Sound R is ls := by
  have hnew := h.newLabel
  have hbound := hnew.bindLabel
  have hfresh : s.emitter.nextLabel ∉ ls ++ s.labels := (nodup_cons.1 hnew.distinct).1
  have hmove : (s.emitter.nextLabel :: (ls ++ s.labels)).Perm
      (ls ++ (s.pathLabels ++
        ([s.emitter.nextLabel] ++ s.control.flatMap ControlData.labels))) := by
    refine perm_iff_count.2 fun x => ?_
    simp only [Lowering.labels, count_append, count_cons, count_nil]
    omega
  refine ⟨hbound.code, hbound.setup, hbound.fine, hbound.state, fun d' hd' t ht => ?_,
    hbound.paths, ?_, fun q hq => ?_, fun q hq => hbound.unbound q ?_, fun i hi q hq => ?_,
    hbound.tables.same rfl rfl⟩
  · rcases mem_cons.1 hd' with rfl | hd'
    · cases mem_singleton.1 (show t ∈ [state] from ht)
      exact ⟨hstate, hroom⟩
    · exact h.saved d' hd' t ht
  · exact hmove.nodup_iff.1 (nodup_cons.2 ⟨hfresh, h.distinct⟩)
  · rcases mem_cons.1 (hmove.mem_iff.2 hq) with rfl | hq
    · have hsize : ((s.mapEmitter Emitter.addLabel).emitter.buffer.bind
          s.emitter.nextLabel).labels.size =
          (s.mapEmitter Emitter.addLabel).emitter.buffer.labels.size := by
        rw [CodeBuffer.labels_bind]
        exact Array.size_setIfInBounds
      show _ < ((s.mapEmitter Emitter.addLabel).emitter.buffer.bind
        s.emitter.nextLabel).labels.size
      rw [hsize]
      exact hnew.known _ mem_cons_self
    · exact hbound.known q hq
  · exact hq
  · refine (hbound.targets i hi q hq).imp_right fun hq => ?_
    have hq : q ∈ ls ++ (s.pathLabels ++ s.control.flatMap ControlData.targets) := hq
    show q ∈ ls ++ (s.pathLabels ++
      ([s.emitter.nextLabel] ++ s.control.flatMap ControlData.targets))
    simp only [mem_append] at hq ⊢
    tauto

variable {f : ControlData → List Label} {depth : Nat} {d' : ControlData}

theorem flatMap_set_subset (hd : control[depth]? = some d) (hf : f d ⊆ f d') :
    control.flatMap f ⊆ (control.set depth d').flatMap f := by
  intro l hl
  obtain ⟨e, he, hl⟩ := mem_flatMap.1 hl
  obtain ⟨k, hk⟩ := getElem?_of_mem he
  by_cases heq : depth = k
  · subst heq
    obtain rfl : d = e := Option.some.inj (hd.symm.trans hk)
    refine mem_flatMap.2 ⟨d', mem_of_getElem? (i := depth) ?_, hf hl⟩
    rw [getElem?_set_self (List.getElem?_eq_some_iff.1 hd).1]
  · refine mem_flatMap.2 ⟨e, mem_of_getElem? (i := k) ?_, hl⟩
    rw [getElem?_set_ne heq]
    exact hk

theorem flatMap_set_eq (hd : control[depth]? = some d) (hf : f d' = f d) :
    (control.set depth d').flatMap f = control.flatMap f := by
  rw [flatMap, map_set, hf, flatMap]
  congr 1
  refine ext_getElem? fun k => ?_
  rw [getElem?_set]
  split
  next heq =>
    subst heq
    rw [length_map, if_pos (List.getElem?_eq_some_iff.1 hd).1, getElem?_map, hd]
    rfl
  next => rfl

section

variable (h : s.Sound R is ls) {rest : List ControlData}
include h

/-- The first branch to a construct decides where the values are left. -/
theorem decide (hd : s.control[depth]? = some d) (hstate : state.Regular R)
    (hroom : state.maxOffset ≤ s.emitter.state.maxOffset) :
    ({ s with control := s.control.set depth { d with labelState := some state } } :
      Lowering).Sound R is ls := by
  have hlabels : (s.control.set depth { d with labelState := some state }).flatMap
      ControlData.labels = s.control.flatMap ControlData.labels := flatMap_set_eq hd rfl
  refine ⟨h.code, h.setup, h.fine, h.state, fun d' hd' t ht => ?_, h.paths, ?_, fun q hq => ?_,
    fun q hq => h.unbound q ?_, fun i hi q hq => ?_, h.tables⟩
  · rcases mem_or_eq_of_mem_set hd' with hd' | rfl
    · exact h.saved d' hd' t ht
    · rcases mem_append.1 ht with ht | ht
      · cases mem_singleton.1 (show t ∈ [state] from ht)
        exact ⟨hstate, hroom⟩
      · exact h.saved d (mem_of_getElem? hd) t (mem_append_right _ ht)
  · show (ls ++ (s.pathLabels ++ _)).Nodup
    rw [hlabels]
    exact h.distinct
  · have hq : q ∈ ls ++ (s.pathLabels ++ (s.control.set depth { d with
        labelState := some state }).flatMap ControlData.labels) := hq
    rw [hlabels] at hq
    exact h.known q hq
  · -- A label that has been decided on may be bound.
    have hq : q ∈ ls ++ (s.pathLabels ++ (s.control.set depth { d with
        labelState := some state }).flatMap ControlData.unbound) := hq
    simp only [mem_append] at hq
    rcases hq with hq | hq | hq
    · exact mem_append_left _ hq
    · exact mem_append_right _ (mem_append_left _ hq)
    · refine mem_append_right _ (mem_append_right _ ?_)
      obtain ⟨d', hd', hq⟩ := mem_flatMap.1 hq
      rcases mem_or_eq_of_mem_set hd' with hd' | rfl
      · exact mem_flatMap.2 ⟨d', hd', hq⟩
      · exact mem_flatMap.2 ⟨d, mem_of_getElem? hd, mem_append_right _ hq⟩
  · refine (h.targets i hi q hq).imp_right fun hq => ?_
    have hsub : d.targets ⊆ ({ d with labelState := some state } : ControlData).targets := by
      intro x hx
      unfold ControlData.targets at hx ⊢
      split at hx
      · exact hx
      · exact mem_append_right _ hx
    have hq : q ∈ ls ++ (s.pathLabels ++ s.control.flatMap ControlData.targets) := hq
    simp only [mem_append] at hq
    rcases hq with hq | hq | hq
    · exact mem_append_left _ hq
    · exact mem_append_right _ (mem_append_left _ hq)
    · exact mem_append_right _ (mem_append_right _ (flatMap_set_subset hd hsub hq))

/-- The step takes over the label of the other arm. -/
theorem takeElse (hcontrol : s.control = d :: rest)
    {arm : ElseArm} (harm : d.elseArm = some arm) :
    ({ s with control := { d with elseArm := none } :: rest } : Lowering).Sound
      R is (arm.label :: ls) := by
  have helse : d.elseLabels = [arm.label] := by simp [ControlData.elseLabels, harm]
  have hmove : ∀ (f : ControlData → List Label) (xs : List Label),
      (ls ++ (s.pathLabels ++ (xs ++ d.elseLabels ++ rest.flatMap f))).Perm
        (arm.label :: ls ++ (s.pathLabels ++ (xs ++ rest.flatMap f))) := by
    intro f xs
    refine perm_iff_count.2 fun x => ?_
    simp only [helse, count_append, count_cons, count_nil]
    omega
  have hlabels : s.labels = s.pathLabels ++ ([d.label] ++ d.elseLabels ++
      rest.flatMap ControlData.labels) := by
    rw [Lowering.labels, hcontrol]
    rfl
  have hunbound : s.unbound = s.pathLabels ++ ((if d.labelState.isSome then [] else [d.label]) ++
      d.elseLabels ++ rest.flatMap ControlData.unbound) := by
    rw [Lowering.unbound, hcontrol]
    rfl
  have htargets : s.targets = s.pathLabels ++ ((if d.labelState.isSome then [d.label] else []) ++
      d.elseLabels ++ rest.flatMap ControlData.targets) := by
    rw [Lowering.targets, hcontrol]
    rfl
  refine ⟨h.code, h.setup, h.fine, h.state, fun d' hd' t ht => ?_, h.paths, ?_, fun q hq => ?_,
    fun q hq => ?_, fun i hi q hq => ?_, h.tables⟩
  · rcases mem_cons.1 hd' with rfl | hd'
    · refine h.saved d (hcontrol ▸ mem_cons_self) t (mem_append_left _ ?_)
      simpa [ControlData.states] using ht
    · exact h.saved d' (hcontrol ▸ mem_cons_of_mem _ hd') t ht
  · exact (hmove _ _).nodup_iff.1 (hlabels ▸ h.distinct)
  · exact h.known q (hlabels ▸ (hmove _ _).mem_iff.2 hq)
  · refine h.unbound q (hunbound ▸ (hmove _ _).mem_iff.2 ?_)
    have hq : q ∈ arm.label :: ls ++ (s.pathLabels ++
      ((if d.labelState.isSome then [] else [d.label]) ++ [] ++
        rest.flatMap ControlData.unbound)) := hq
    rwa [append_nil] at hq
  · refine (h.targets i hi q hq).imp_right fun hq => ?_
    have hq := (hmove _ _).mem_iff.1 (htargets ▸ hq)
    show q ∈ arm.label :: ls ++
        (s.pathLabels ++ ((if d.labelState.isSome then [d.label] else []) ++ [] ++
        rest.flatMap ControlData.targets))
    rwa [append_nil]

/-- A construct is closed. If its label is not bound yet, the step owes it. -/
theorem closeConstruct (hcontrol : s.control = d :: rest) (harm : d.elseArm = none) :
    ({ s with control := rest } : Lowering).Sound R is
      ((if s.emitter.isBound d.label then [] else [d.label]) ++ ls) := by
  have helse : d.elseLabels = [] := by simp [ControlData.elseLabels, harm]
  have hlabels : s.labels = s.pathLabels ++ (d.label :: rest.flatMap ControlData.labels) := by
    rw [Lowering.labels, hcontrol, flatMap_cons, ControlData.labels, helse]
    rfl
  have hmove : (ls ++ s.labels).Perm
      (d.label :: (ls ++ (s.pathLabels ++ rest.flatMap ControlData.labels))) := by
    refine perm_iff_count.2 fun x => ?_
    simp only [hlabels, count_append, count_cons]
    omega
  have hrest : ∀ d' ∈ rest, d' ∈ s.control := fun d' hd' => hcontrol ▸ mem_cons_of_mem _ hd'
  refine ⟨h.code, h.setup, h.fine, h.state, fun d' hd' => h.saved d' (hrest d' hd'), h.paths, ?_,
    fun q hq => h.known q (hmove.mem_iff.2 ?_), fun q hq => ?_, fun i hi q hq => ?_, h.tables⟩
  · refine (hmove.nodup_iff.1 h.distinct).sublist ?_
    rw [append_assoc]
    split
    · exact sublist_cons_self _ _
    · exact Sublist.refl _
  · rw [append_assoc] at hq
    split at hq
    · exact mem_cons_of_mem _ hq
    · exact hq
  · rw [append_assoc] at hq
    have hold : q ∈ ls ++ (s.pathLabels ++ rest.flatMap ControlData.unbound) →
        s.emitter.buffer.boundAt? q = none := by
      intro hq
      refine h.unbound q ?_
      rw [Lowering.unbound, hcontrol, flatMap_cons]
      simp only [mem_append] at hq ⊢
      tauto
    split at hq
    next => exact hold hq
    next hbound =>
      rcases mem_cons.1 hq with rfl | hq
      · exact CodeBuffer.isBound_eq_false.1 (Bool.eq_false_iff.2 hbound)
      · exact hold hq
  · rcases h.targets i hi q hq with hbound | hq
    · exact .inl hbound
    · by_cases heq : s.emitter.isBound q = true
      · exact .inl heq
      · refine .inr ?_
        rw [Lowering.targets, hcontrol, flatMap_cons, ControlData.targets, helse, append_nil] at hq
        show q ∈ _ ++ ls ++ (s.pathLabels ++ rest.flatMap ControlData.targets)
        simp only [mem_append] at hq ⊢
        rcases hq with hq | hq | hq | hq
        · exact .inl (.inr hq)
        · exact .inr (.inl hq)
        · split at hq
          · cases mem_singleton.1 hq
            rw [if_neg heq]
            exact .inl (.inl mem_cons_self)
          · cases hq
        · exact .inr (.inr hq)

end

end Sound

end Lowering

end OnePass
