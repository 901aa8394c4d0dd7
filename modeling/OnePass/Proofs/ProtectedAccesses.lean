import Mathlib.Data.List.Forall2
import OnePass.Proofs.CompiledTables
import OnePass.Proofs.EventChanges

/-!
Which accesses to the memory the trap handler knows of. Main statement: those that have an index
which was not checked, each with the slow path that it traps into.
-/
namespace OnePass

open List

namespace CodeBuffer

variable {b : CodeBuffer} {front is : List (Instr Label)} {sites : List (Nat × Instr Label)}

/-- The code begins with some instructions and has others further on, in this order. -/
def Records (b : CodeBuffer) (front : List (Instr Label)) (sites : List (Nat × Instr Label)) :
    Prop :=
  ∃ is, front <+: is ∧ b.Spells is ∧ sites <+ Instr.placed 0 is

theorem Records.emit (h : b.Records front sites) (i : Instr Label) :
    (b.emit i).Records front sites := by
  obtain ⟨is, hfront, hspells, hsites⟩ := h
  refine ⟨is ++ [i], hfront.trans (prefix_append _ _), hspells.emit i, ?_⟩
  rw [hspells.placed_concat]
  exact hsites.trans (sublist_append_left _ _)

theorem Records.add (h : b.Records front sites) (i : Instr Label) :
    (b.emit i).Records front (sites ++ [(b.pc, i)]) := by
  obtain ⟨is, hfront, hspells, hsites⟩ := h
  refine ⟨is ++ [i], hfront.trans (prefix_append _ _), hspells.emit i, ?_⟩
  rw [hspells.placed_concat]
  exact hsites.append (.refl _)

theorem Records.addLabel (h : b.Records front sites) : b.addLabel.Records front sites := by
  obtain ⟨is, hfront, hspells, hsites⟩ := h
  exact ⟨is, hfront, ⟨⟨hspells.size, hspells.bytes⟩, hspells.fields⟩, hsites⟩

theorem Records.bind (h : b.Records front sites) (l : Label) : (b.bind l).Records front sites := by
  obtain ⟨is, hfront, hspells, hsites⟩ := h
  exact ⟨is, hfront, hspells.bind l, hsites⟩

theorem Spells.emits (h : b.Spells is) (code : List (Instr Label)) :
    (code.foldl CodeBuffer.emit b).Spells (is ++ code) := by
  induction code generalizing b is with
  | nil => rwa [append_nil]
  | cons i code ih =>
    rw [append_cons]
    exact ih (h.emit i)

end CodeBuffer

/-! ## The accesses of a run -/

namespace Lowering

/-- An access in the code. -/
structure Site where
  place : Nat
  context : Context
  access : Access

def Site.placed (site : Site) : Nat × Instr Label := (site.place, site.access.instr)

/-- The access has an index that was not compared with anything. -/
def Site.unchecked (options : CompileOptions) (site : Site) : Bool :=
  options.boundsChecks = .trapHandler && site.access.address.index.isSome

/-- The slow path is the trap of the access. -/
structure Site.TrapsTo (site : Site) (o : OutOfLine) : Prop where
  stub : o.stub = .trapMemOutOfBounds
  position : o.position = site.context.pc
  pc : o.trappingPc = some site.place

/-- The access that a call makes. -/
def site? (c : Call Lowering) : Option Site :=
  match (openAccess c.context c.event).run.run c.state with
  | (.ok (some a), s) => some ⟨s.emitter.pc, c.context, a⟩
  | _ => none

/-- The slow paths that accesses trap into are those of the unchecked ones, and nothing is protected
yet. -/
structure Accounts (options : CompileOptions) (sites : List Site) (current : CompileOptions)
    (protections : Array ProtectedInstr) (paths : Array OutOfLine) : Prop where
  same : current = options
  unprotected : protections = #[]
  paths : Forall₂ Site.TrapsTo (sites.filter (·.unchecked options))
    (paths.toList.filter (·.trappingPc.isSome))
  inside : ∀ site ∈ sites, site.access.address.index = none →
    site.access.address.offset + site.access.size ≤ site.context.module.minMemorySize

/-- What is known of the accesses made so far. -/
def Ledger (options : CompileOptions) (front : List (Instr Label)) (sites : List Site)
    (s : Lowering) : Prop :=
  Accounts options sites s.options s.work.protections s.outOfLine ∧
    s.emitter.buffer.Records front (sites.map Site.placed)

variable {options : CompileOptions} {front : List (Instr Label)} {sites : List Site}
    {s s' : Lowering}

theorem steady_ledger (options : CompileOptions) (front : List (Instr Label)) (sites : List Site) :
    Steady (fun _ _ => True) (fun _ => True) (fun _ => True) (· = none) (fun _ => True) True False
      (Ledger options front sites) where
  emitter _ :=
    { emit := fun _ i h => ⟨h.1, h.2.emit i⟩
      stack := fun _ _ h => h
      recent := fun _ _ h => h
      frame := fun _ _ => trivial
      const := fun _ _ _ => trivial
      reg := fun _ _ _ _ => trivial
      typed := fun _ _ _ _ => trivial
      push := fun _ _ _ h _ => h
      pop := fun _ _ _ h _ => h
      relocate := fun _ _ _ h _ => h
      record := fun _ _ h => h
      steal := fun _ _ h _ => h
      addLabel := fun _ h => ⟨h.1, h.2.addLabel⟩
      bind := fun _ l h => ⟨h.1, h.2.bind l⟩ }
  same _ _ _ _ _ h := h
  control _ _ h _ := h
  keeps _ _ _ _ := ⟨fun _ _ => trivial, fun _ _ => trivial⟩
  keep _ _ := trivial
  header _ _ _ := trivial
  merge _ _ _ _ _ := trivial
  pass _ _ _ _ _ := trivial
  label _ _ := trivial
  noted _ _ := trivial
  entry _ _ _ _ _ h _ := h
  path _ o ho h := by
    refine ⟨⟨h.1.same, h.1.unprotected, ?_, h.1.inside⟩, h.2⟩
    have hnone : [o].filter (·.trappingPc.isSome) = [] := by simp [ho]
    rw [Array.toList_push, filter_append, hnone, append_nil]
    exact h.1.paths
  finish := False.elim

/-- The access is protected if it has to be. -/
theorem Ledger.protect {site : Site} (h : Ledger options front sites s)
    (hplace : site.place = s.emitter.pc) (hinside : site.access.address.index = none →
      site.access.address.offset + site.access.size ≤ site.context.module.minMemorySize) :
    ∃ s', (protectAccess site.context site.access.address site.place).run.run
        (s.mapEmitter (·.emit site.access.instr)) = (.ok (), s') ∧
      Ledger options front (sites ++ [site]) s' := by
  have hcode : (s.emitter.buffer.emit site.access.instr).Records front
      ((sites ++ [site]).map Site.placed) := by
    rw [map_append, map_singleton, Site.placed, hplace]
    exact h.2.add _
  have hall : ∀ x ∈ sites ++ [site], x.access.address.index = none →
      x.access.address.offset + x.access.size ≤ x.context.module.minMemorySize := fun x hx =>
    (mem_append.1 hx).elim (h.1.inside x) fun hx => mem_singleton.1 hx ▸ hinside
  have hcond : (decide
      ((s.mapEmitter (·.emit site.access.instr)).options.boundsChecks = .trapHandler) &&
      site.access.address.index.isSome) = site.unchecked options := by
    rw [Site.unchecked, ← h.1.same]
    rfl
  have hpaths := h.1.paths
  unfold protectAccess
  cases hsite : site.unchecked options with
  | true =>
    obtain ⟨o, l, s', hrun, hoptions, hprotections, hemitter, hmade, hstub, hposition, hpc⟩ :=
      addTrap_run .trapMemOutOfBounds site.context.pc (some site.place)
        (s.mapEmitter (·.emit site.access.instr))
    have htraps : site.TrapsTo o := ⟨hstub, hposition, hpc⟩
    refine ⟨s', ?_, ⟨hoptions.trans h.1.same, hprotections.trans h.1.unprotected, ?_, hall⟩, ?_⟩
    · show (if _ then _ else _ : LowerM Unit).run.run _ = _
      rw [hcond, hsite, if_pos rfl, Settles.run_run_bind, hrun]
      rfl
    · rw [hmade.paths, Array.toList_push, filter_append, filter_append, filter_cons_of_pos hsite,
        filter_cons_of_pos (by rw [hpc]; rfl)]
      exact rel_append hpaths (.cons htraps .nil)
    · rw [hemitter]
      exact hcode.addLabel
  | false =>
    refine ⟨s.mapEmitter (·.emit site.access.instr), ?_, ⟨h.1.same, h.1.unprotected, ?_, hall⟩,
      hcode⟩
    · show (if _ then _ else _ : LowerM Unit).run.run _ = _
      rw [hcond, hsite]
      rfl
    · rw [filter_append, filter_cons_of_neg (by simp [hsite]), filter_nil, append_nil]
      exact hpaths

theorem Ledger.close {site : Site} (h : Ledger options front sites s)
    (hplace : site.place = s.emitter.pc) (hinside : site.access.address.index = none →
      site.access.address.offset + site.access.size ≤ site.context.module.minMemorySize) :
    Ledger options front (sites ++ [site])
      ((closeAccess site.context (some site.access)).run.run s).2 := by
  obtain ⟨s', hrun, hs'⟩ := h.protect hplace hinside
  have hyield := ((steady_ledger options front (sites ++ [site])).yieldAccess
    (a := site.access) trivial s' hs').always
  show Ledger _ _ _ ((protectAccess site.context site.access.address s.emitter.pc >>= fun _ =>
    yieldAccess site.access).run.run (s.mapEmitter (·.emit site.access.instr))).2
  rwa [Settles.run_run_bind, ← hplace, hrun]

theorem site?_eq_none {c : Call Lowering} (h : c.event.isAccess = false) : site? c = none := by
  have hopen : openAccess c.context c.event = pure none := by
    cases hevent : c.event <;> first | rfl | (rw [hevent] at h; cases h)
  rw [site?, hopen]
  rfl

/-- What a call does to the accesses. -/
theorem Ledger.handle (ctx : Context) {e : Event} (h : Ledger options front sites s)
    (he : e ≠ .finishFunction) : Ledger options front (sites ++ (site? ⟨ctx, e, s⟩).toList)
      (Backend.compiler.handle ctx e s).2 := by
  cases haccess : e.isAccess with
  | false =>
    rw [site?_eq_none haccess, Option.toList_none, append_nil]
    refine ((steady_ledger options front sites).handle ctx e h (fun _ _ => trivial)
      he (fun _ => rfl) (fun hyes => ?_) (fun _ _ => trivial) (fun _ _ _ _ _ _ _ => trivial)
      fun _ _ => trivial).always
    rw [haccess] at hyes
    cases hyes
  | true =>
    have hopen := (steady_ledger options front sites).openAccess rfl ctx e s h
    show Ledger _ _ _ ((Lowering.handle ctx e).run.run s).2
    rw [handle_access ctx haccess, Settles.run_run_bind, site?]
    dsimp only
    rcases hrun : (openAccess ctx e).run.run s with ⟨b | _ | a, s₁⟩ <;> have hs₁ := hopen.always <;>
      rw [hrun] at hs₁
    · rwa [Option.toList_none, append_nil]
    · show Ledger _ _ (sites ++ []) s₁
      rwa [append_nil]
    · exact hs₁.close rfl (hopen.ends _ _ hrun a rfl).2

end Lowering

open Lowering

theorem Backend.Leads.ledger {options : CompileOptions} {front : List (Instr Label)}
    {sites : List Site} {s s' : Lowering}
    {calls : List (Call Lowering)} (h : Backend.compiler.Leads s calls s')
      (hs : Ledger options front sites s)
    (hcalls : ∀ c ∈ calls, c.event ≠ .finishFunction) :
    Ledger options front (sites ++ calls.filterMap site?) s' := by
  induction h with
  | nil => rwa [filterMap_nil, append_nil]
  | @snoc calls s ctx e _ ih =>
    have hledger := (ih fun c hc => hcalls c (mem_append_left _ hc)).handle ctx
      (hcalls ⟨ctx, e, s⟩ (mem_append_right _ mem_cons_self))
    rw [filterMap_append, ← append_assoc]
    convert hledger using 2
    cases hsite : site? ⟨ctx, e, s⟩ <;> simp [hsite]

/-! ## Where a function begins and ends -/

/-- The code begins with the setup of the frame. -/
theorem InStep.begun {R : Regime} {ctx : Context} {s : Lowering} (h : InStep R ctx s) :
    ∃ rest, s.emitter.buffer.Spells (.enterFrame 0 :: rest) := by
  obtain ⟨is, hsound⟩ : ∃ is, s.Sound R is [] := by
    obtain ⟨-, hlock, -⟩ | ⟨-, ⟨is, hsound, -⟩, -⟩ := h
    · cases hlive : ctx.live with
      | true => exact (hlock.stands hlive).sound
      | false =>
        obtain ⟨⟨is, hsound, -⟩, -⟩ := hlock.closes hlive
        exact ⟨is, hsound⟩
    · exact ⟨is, hsound⟩
  obtain ⟨rest, rfl⟩ := hsound.setup.2
  exact ⟨rest, hsound.code.spells⟩

namespace Decode

/-- The calls of a step and of what follows it. -/
theorem Calls.split {σ α β : Type} {b : Backend σ} {Q : Call σ → Prop}
    {m : DecodeM (σ × List (Call σ)) α}
    {m' : DecodeM σ α} {ctx : Context} {s t : σ} {y : β × Context} (h : Calls b Q m m' ctx s)
    (calls : List (Call σ)) (k : α → DecodeM (σ × List (Call σ)) β) {k' : α → DecodeM σ β}
    (hr : ((m' >>= k') ctx).run s = (.ok y, t)) : ∃ x ctx₁ s₁ new,
      (m' ctx).run s = (.ok (x, ctx₁), s₁) ∧ (k' x ctx₁).run s₁ = (.ok y, t) ∧
      ((m >>= k) ctx).run (s, calls) = (k x ctx₁).run (s₁, calls ++ new) ∧ b.Leads s new s₁ ∧
      ∀ c ∈ new, Q c := by
  obtain ⟨new, hrun, hleads, hnew⟩ := h.ends calls
  rw [run_bind] at hr
  rw [run_bind, hrun]
  rcases hm : (m' ctx).run s with ⟨e | ⟨x, ctx₁⟩, s₁⟩ <;> rw [hm] at hr hleads
  · cases hr
  · exact ⟨x, ctx₁, s₁, new, rfl, hr, rfl, hleads, hnew⟩

end Decode

/-- The calls of a function that is compiled: those that begin it, those of its instructions, and
the one that ends it. -/
theorem compileCalls_parts {module : Module} {sig : Signature} {body : Array UInt8}
    {decoderOptions : DecoderOptions} {options : CompileOptions} {s : Lowering}
    (hrun : decodeBody .compiler (.start options) module sig body decoderOptions = (.ok (), s)) :
    ∃ early s₁ late s₀ ctx, compileCalls module sig body decoderOptions options =
        early ++ late ++ [⟨ctx, .finishFunction, s₀⟩] ∧
      Backend.compiler.Leads (.start options) early s₁ ∧
      (∀ c ∈ early, c.event ≠ .finishFunction ∧ c.event.isAccess = false) ∧
        (∃ rest, s₁.emitter.buffer.Spells (.enterFrame 0 :: rest)) ∧
      Backend.compiler.Leads s₁ late s₀ ∧ (∀ c ∈ late, c.event ≠ .finishFunction) ∧
      s = (Backend.compiler.handle ctx .finishFunction s₀).2 := by
  have hstep {ctx : Context} {s : Lowering} : Decode.Calls .compiler (·.event ≠ .finishFunction)
      (Decode.step Backend.compiler.watched) (Decode.step .compiler) ctx s := by
    rw [Decode.step_eq, Decode.step_eq]
    refine .bind (.fetch fun _ _ _ => nofun) fun i ctx s _ =>
      (Decode.Calls.instruction i ctx s).mono ?_
    rintro c ⟨-, hinside, -⟩ heq
    rw [heq] at hinside
    cases hinside
  rcases hbody : (Decode.body .compiler (.initial module sig body decoderOptions)).run
    (start options) with ⟨e | ⟨_, ctx'⟩, s'⟩ <;>
      rw [decodeBody, show ((Decode.body .compiler).run
        (.initial module sig body decoderOptions)).run.run
        (start options) = _ from hbody] at hrun <;> cases hrun
  rw [Decode.run_body] at hbody
  obtain ⟨_, ctx₁, s₁, early, hr₁, hbody, hwatched₁, hleads₁, hopens⟩ := (Decode.Calls.enter
    (Q := fun c => c.event ≠ .finishFunction ∧ c.event.isAccess = false) fun _ _ =>
      ⟨⟨nofun, rfl⟩, fun _ => ⟨nofun, rfl⟩⟩).split [] (fun _ => do
        Decode.steps Backend.compiler.watched body.size
        Decode.tell Backend.compiler.watched .finishFunction) hbody
  have hsync := (Decode.enter_drives body (Regime.fits_lax module sig decoderOptions)
    (blank_start options)).ends _ _ _ hr₁
  obtain ⟨_, ctx₂, s₀, late, -, hbody, hwatched₂, hleads₂, hinside⟩ :=
    (Decode.steps_calls (fun _ _ => hstep) hsync body.size).split ([] ++ early)
      (fun _ => Decode.tell Backend.compiler.watched .finishFunction) hbody
  refine ⟨early, s₁, late, s₀, ctx₂, ?_, hleads₁, hopens, hsync.inStep.begun, hleads₂, hinside, ?_⟩
  · have hwatched := (Decode.run_body Backend.compiler.watched
      (.initial module sig body decoderOptions)
      (start options, [])).trans (hwatched₁.trans hwatched₂)
    rw [compileCalls, decodeBody, show ((Decode.body Backend.compiler.watched).run
      (.initial module sig body decoderOptions)).run.run (start options, []) = _ from hwatched,
        Decode.run_tell]
    rfl
  · rw [Decode.run_tell] at hbody
    exact (congrArg Prod.snd hbody).symm

/-! ## The end of a function -/

namespace Lowering

variable {sites : List Site} {s s' : Lowering}

theorem positions_generateAll (paths : List OutOfLine) (a : Assembly) {p : SourcePosition}
    (h : p ∈ a.positions) : p ∈ (generateAll a paths).positions := by
  induction paths generalizing a with
  | nil => exact h
  | cons o paths ih => exact ih (o.generate a) (Array.mem_push.2 (.inl h))

/-- The trap handler knows where the access is, and that it goes on with the slow path which calls
the runtime for this instruction of the body. -/
structure Site.Protected (positions : Array SourcePosition) (is : List (Instr Label)) (site : Site)
    (p : ProtectedInstr) : Prop where
  instr : p.instr = site.place
  landing : ∃ (before : List (Instr Label)) (o : OutOfLine) (after : List (Instr Label)),
    is = before ++ o.code ++ after ∧ p.landing = Instr.codeSize before ∧
      o.stub = .trapMemOutOfBounds ∧
      ⟨Instr.codeSize (before ++ o.saveCode), site.context.pc⟩ ∈ positions

section

variable {a : Assembly} {is : List (Instr Label)} (h : a.emitter.buffer.Spells is)
include h

theorem spells_generate (o : OutOfLine) : (o.generate a).emitter.buffer.Spells (is ++ o.code) := by
  rw [OutOfLine.emitter_generate]
  exact (h.bind o.label).emits o.code

theorem spells_generateAll (paths : List OutOfLine) :
    (generateAll a paths).emitter.buffer.Spells (is ++ paths.flatMap OutOfLine.code) := by
  induction paths generalizing a is with
  | nil => rwa [flatMap_nil, append_nil]
  | cons o paths ih =>
    rw [flatMap_cons, ← append_assoc]
    exact ih (spells_generate h o)

end

/-- The slow paths are emitted: each that an access traps into protects it. -/
theorem protected_generateAll (paths : List OutOfLine) (a : Assembly)
    {is front : List (Instr Label)}
    (hspells : a.emitter.buffer.Spells is) (hfront : Instr.codeSize is = Instr.codeSize front)
    (h : Forall₂ Site.TrapsTo sites (paths.filter (·.trappingPc.isSome))) :
    ∃ protections, (generateAll a paths).protections.toList = a.protections.toList ++ protections ∧
      Forall₂ (Site.Protected (generateAll a paths).positions
        (front ++ paths.flatMap OutOfLine.code)) sites protections := by
  induction paths generalizing a is front sites with
  | nil =>
    cases h
    exact ⟨[], (append_nil _).symm, .nil⟩
  | cons o paths ih =>
    have hbound := hspells.bind o.label
    have hnext := spells_generate hspells o
    have hfront' : Instr.codeSize (is ++ o.code) = Instr.codeSize (front ++ o.code) := by
      rw [Instr.codeSize_append, hfront, Instr.codeSize_append]
    rw [show generateAll a (o :: paths) = generateAll (o.generate a) paths from rfl, flatMap_cons,
      ← append_assoc]
    cases htrap : o.trappingPc with
    | none =>
      rw [filter_cons_of_neg (by simp [htrap])] at h
      obtain ⟨protections, hprotections, hpairs⟩ := ih _ hnext hfront' h
      refine ⟨protections, ?_, hpairs⟩
      rw [hprotections, OutOfLine.generate]
      simp only [htrap]
    | some pc =>
      rw [filter_cons_of_pos (by simp [htrap])] at h
      obtain ⟨site, rest, htraps, hrest, rfl⟩ := forall₂_cons_right_iff.1 h
      obtain ⟨protections, hprotections, hpairs⟩ := ih _ hnext hfront' hrest
      have hstart : (a.emitter.bind o.label).pc = Instr.codeSize front := hbound.size.trans hfront
      refine ⟨⟨pc, Instr.codeSize front⟩ :: protections, ?_,
        .cons ⟨?_, front, o, _, rfl, rfl, htraps.stub, ?_⟩ hpairs⟩
      · rw [hprotections, OutOfLine.generate]
        simp only [htrap, hstart, Array.toList_push, append_assoc, singleton_append]
      · exact Option.some.inj (htrap.symm.trans htraps.pc)
      · refine positions_generateAll paths (o.generate a) (Array.mem_push.2 (.inr ?_))
        have hsaved : ((a.emitter.bind o.label).emitAll o.saveCode).pc =
            Instr.codeSize (front ++ o.saveCode) := by
          rw [Emitter.emitAll_eq, Instr.codeSize_append, ← hfront, ← Instr.codeSize_append]
          exact (hbound.emits o.saveCode).size
        rw [hsaved, htraps.position]

theorem handle_finishFunction (ctx : Context) (s : Lowering) :
    (Backend.compiler.handle ctx .finishFunction s).2 =
      ({ s with work := generateAll s.work s.outOfLine.toList } : Lowering).mapEmitter fun e =>
        { e with buffer := e.buffer.patchFrameSize s.frameSetup e.frameSize } := by
  rw [generateAll, Array.foldl_toList]
  show ((finishFunction >>= fun _ => pure _ : LowerM Reply).run.run s).2 = _
  obtain ⟨t, ht⟩ : ∃ t, t = ({ s with work := s.outOfLine.foldl (fun a o => o.generate a) s.work } :
    Lowering).mapEmitter fun e =>
      { e with buffer := e.buffer.patchFrameSize s.frameSetup e.frameSize } := ⟨_, rfl⟩
  have hrun : finishFunction.run.run s = (if !t.emitter.buffer.allResolved then
      throw (.internal "unbound label at end of function") else pure () :
        LowerM Unit).run.run t := by
    rw [ht]
    rfl
  rw [Settles.run_run_bind, hrun, ← ht]
  cases t.emitter.buffer.allResolved <;> rfl

/-- The frame gets its size. -/
theorem fill_patch {code : Array UInt8} {rest : List (Instr Label)}
    (h : Instr.Fill code (.enterFrame 0 :: rest)) (size : UInt32) :
    Instr.Fill (overwrite code 1 (Encoding.u32 size)) (.enterFrame size :: rest) := by
  have hsize : code.size = 5 + Instr.codeSize rest := h.size
  refine ⟨size_overwrite.trans hsize, fun p hp => ?_⟩
  rcases mem_cons.1 hp with rfl | hp
  · have hhead : BytesAt code 0 ([MachineOp.enterFrame.code] ++ Encoding.u32 0) :=
      h.bytes _ mem_cons_self
    refine BytesAt.append_iff.2
      ⟨(BytesAt.append_iff.1 hhead).1.overwrite_of_disjoint (.inl (Nat.le_refl _)),
      bytesAt_overwrite ?_⟩
    rw [hsize]
    exact Nat.le_add_right 5 _
  · exact (h.bytes p (mem_cons_of_mem _ hp)).overwrite_of_disjoint
      (.inr (Instr.le_of_mem_placed hp).1)

/-- The code of a function that is finished: the size of the frame is known, and the slow paths
follow. -/
theorem fill_finishFunction {ctx : Context} {rest : List (Instr Label)}
    (hspells : s.emitter.buffer.Spells (.enterFrame 0 :: rest))
    (hs : s' = (Backend.compiler.handle ctx .finishFunction s).2) (hsetup : s'.frameSetup = 0) :
    ∃ size, Instr.Fill s'.emitter.buffer.code
      (.enterFrame size :: rest ++ s.outOfLine.toList.flatMap OutOfLine.code) := by
  have hall := spells_generateAll hspells s.outOfLine.toList
  obtain ⟨a, ha⟩ : ∃ a, a = generateAll s.work s.outOfLine.toList := ⟨_, rfl⟩
  rw [← ha] at hall
  rw [handle_finishFunction, ← ha] at hs
  have hzero : s.frameSetup = 0 := by
    rw [← hsetup, hs]
    rfl
  have hcode : s'.emitter.buffer.code =
      overwrite a.emitter.buffer.code 1 (Encoding.u32 (.ofNat a.emitter.frameSize)) := by
    rw [hs, hzero]
    rfl
  exact ⟨.ofNat a.emitter.frameSize, hcode ▸ fill_patch hall.toFill _⟩

/-- The function is finished: what stood in the code still does, and what had to be protected is. -/
theorem Ledger.finish {options : CompileOptions} {ctx : Context}
    (h : Ledger options [.enterFrame 0] sites s)
    (hs : s' = (Backend.compiler.handle ctx .finishFunction s).2) (hsetup : s'.frameSetup = 0) :
    ∃ is, Instr.Fill s'.emitter.buffer.code is ∧ sites.map Site.placed <+ Instr.placed 0 is ∧
      Forall₂ (Site.Protected s'.work.positions is) (sites.filter (·.unchecked options))
        s'.work.protections.toList := by
  obtain ⟨haccounts, is, ⟨rest, rfl⟩, hspells, hsites⟩ := h
  obtain ⟨size, hfill⟩ := fill_finishFunction hspells hs hsetup
  obtain ⟨protections, hprotections, hpairs⟩ :=
    protected_generateAll s.outOfLine.toList s.work hspells
    (codeSize_enterFrame 0 size rest) haccounts.paths
  rw [haccounts.unprotected] at hprotections
  have hwork : s'.work.positions = (generateAll s.work s.outOfLine.toList).positions ∧
      s'.work.protections = (generateAll s.work s.outOfLine.toList).protections := by
    rw [hs, handle_finishFunction]
    exact ⟨rfl, rfl⟩
  rw [hwork.1, hwork.2, hprotections]
  refine ⟨_, hfill, ?_, hpairs⟩
  -- the setup of the frame is none of the accesses
  have hbehind : sites.map Site.placed <+ Instr.placed 5 rest := by
    rcases sublist_cons_iff.1 hsites with hbehind | ⟨_, hhead, -⟩
    · exact hbehind
    · obtain ⟨site, -, hsite⟩ := mem_map.1 (hhead ▸ mem_cons_self :)
      have hinstr : site.access.instr = .enterFrame 0 := congrArg Prod.snd hsite
      cases haccess : site.access <;> rw [haccess] at hinstr <;> cases hinstr
  show _ <+ (0, _) :: Instr.placed 5 (rest ++ _)
  rw [Instr.placed_append]
  exact .cons _ (hbehind.trans (sublist_append_left _ _))

end Lowering

/-- The calls before the one that ends a function leave the ledger of their accesses. -/
theorem compileCalls_ledger {module : Module} {sig : Signature} {body : Array UInt8}
    {decoderOptions : DecoderOptions} {options : CompileOptions} {s : Lowering}
    (hrun : decodeBody .compiler (.start options) module sig body decoderOptions = (.ok (), s)) :
    ∃ calls s₀ ctx,
      compileCalls module sig body decoderOptions options = calls ++ [⟨ctx, .finishFunction, s₀⟩] ∧
      Backend.compiler.Leads (.start options) calls s₀ ∧ (∀ c ∈ calls, c.event ≠ .finishFunction) ∧
      Ledger options [.enterFrame 0] (calls.filterMap site?) s₀ ∧
      s = (Backend.compiler.handle ctx .finishFunction s₀).2 := by
  obtain ⟨early, s₁, late, s₀, ctx, hcalls, hearly, hopens, ⟨rest, hspells⟩, hlate, hinside, hs⟩ :=
    compileCalls_parts hrun
  refine ⟨early ++ late, s₀, ctx, hcalls, hearly.trans hlate, fun c hc => ?_, ?_, hs⟩
  · exact (mem_append.1 hc).elim (fun hc => (hopens c hc).1) (hinside c)
  have hnone : early.filterMap site? = [] := filterMap_eq_nil_iff.2 fun c hc =>
    site?_eq_none (hopens c hc).2
  have hstart : Ledger options [] [] (.start options) :=
    ⟨⟨rfl, rfl, .nil, forall_mem_nil _⟩, [], nil_prefix, CodeBuffer.assembles_empty.spells, .refl _⟩
  have haccounts := (hearly.ledger hstart fun c hc => (hopens c hc).1).1
  rw [hnone] at haccounts
  have hopened : Ledger options [.enterFrame 0] [] s₁ :=
    ⟨haccounts, _, ⟨rest, rfl⟩, hspells, nil_sublist _⟩
  rw [filterMap_append, hnone]
  exact hlate.ledger hopened hinside

end OnePass
