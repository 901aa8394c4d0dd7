import OnePass.Proofs.Assembling
import OnePass.Proofs.LockStepRuns

/-!
The code of a compiled function is closed: it is read back instruction by instruction, branches lead
to instructions, and control leaves neither the body nor a slow path at its end.
-/
namespace OnePass

open List

namespace Instr

variable {τ σ : Type} (f : τ → σ)

@[simp] theorem size_map (i : Instr τ) : (i.map f).size = i.size := by
  cases i <;> rfl

theorem target?_map (i : Instr τ) : (i.map f).target? = i.target?.map f := by
  cases i <;> rfl

@[simp] theorem codeSize_map (is : List (Instr τ)) : codeSize (is.map (map f)) = codeSize is := by
  rw [codeSize, map_map, codeSize]
  exact congrArg sum (map_congr_left fun i _ => size_map f i)

theorem placed_map (offset : Nat) (is : List (Instr τ)) :
    placed offset (is.map (map f)) = (placed offset is).map fun p => (p.1, p.2.map f) := by
  induction is generalizing offset with
  | nil => rfl
  | cons i is ih => rw [map_cons, placed, size_map, ih, placed, map_cons]

/-- An offset between two instructions that is not the end of the code is that of an instruction. -/
theorem exists_placed_of_lt {earlier later : List (Instr τ)}
    (h : codeSize earlier < codeSize (earlier ++ later)) :
    ∃ i, (codeSize earlier, i) ∈ placed 0 (earlier ++ later) := by
  cases later with
  | nil =>
    rw [append_nil] at h
    exact (Nat.lt_irrefl _ h).elim
  | cons i rest =>
    refine ⟨i, ?_⟩
    rw [placed_append, Nat.zero_add]
    exact mem_append_right _ mem_cons_self

/-- Instructions that stand within the first part of the code belong to it. -/
theorem mem_placed_of_lt {is js : List (Instr τ)} {p : Nat × Instr τ} (hp : p ∈ placed 0 (is ++ js))
    (hlt : p.1 < codeSize is) : p ∈ placed 0 is := by
  rw [placed_append, Nat.zero_add] at hp
  rcases mem_append.1 hp with hp | hp
  · exact hp
  · exact (Nat.not_le_of_lt hlt (le_of_mem_placed hp).1).elim

end Instr

/-- No `bottom` among the types, and nothing said of operands. -/
def Regime.bottomless : Regime := ⟨(· ≠ .bottom), False, False, fun _ h => h, False.elim⟩

theorem Regime.fits_bottomless {module : Module} {sig : Signature} (hmodule : module.NoBottom)
    (hsig : sig.NoBottom) (options : DecoderOptions) :
      Regime.bottomless.Fits module sig options where
  admits := admits_noBottom hmodule hsig _
  params _ hty heq := hsig.params (heq ▸ hty)
  globals g hg := hmodule.globals g hg
  full := False.elim
  indirect := False.elim
  imports := False.elim
  canonical := False.elim

/-- A slow path ends with a trap that does not come back, or goes on at a place of the body. -/
def EndsWell (body block : List (Instr Nat)) : Prop :=
  (∃ init stub, block = init ++ [.callStub stub, .assertUnreachable] ∧ stub.isTrap = true) ∨
    ∃ init t i, block = init ++ [.jump t] ∧ (t, i) ∈ Instr.placed 0 body

namespace Lowering

variable {R : Regime} {s : Lowering} {size : UInt32} {body : List (Instr Label)}

/-- Where a label is bound. -/
def placeOf (s : Lowering) (l : Label) : Nat := (s.emitter.buffer.boundAt? l).getD 0

/-- The slow paths with their branches resolved. -/
def blocks (s : Lowering) : List (List (Instr Nat)) :=
  s.outOfLine.toList.map fun o => o.code.map (Instr.map s.placeOf)

theorem map_listing (s : Lowering) (size : UInt32) (body : List (Instr Label)) :
    (s.listing size body).map (Instr.map s.placeOf) =
      (.enterFrame size :: body).map (Instr.map s.placeOf) ++ s.blocks.flatten := by
  rw [listing, map_append, map_flatMap, blocks, ← flatMap_def]

variable {l : Label}

section

variable (h : s.Finished R size body)
include h

/-- A label that is bound before the end of the code is bound to the place of an instruction. -/
theorem Finished.exists_placed {place : Nat} (hplace : s.emitter.buffer.boundAt? l = some place)
    (hlt : place < Instr.codeSize (s.listing size body)) :
    ∃ i, (place, i) ∈ Instr.placed 0 (s.listing size body) := by
  obtain ⟨earlier, later, heq, rfl⟩ := h.code.bound l place hplace
  rw [heq] at hlt ⊢
  exact Instr.exists_placed_of_lt hlt

theorem Finished.targets_placed {i : Instr Label} (hi : i ∈ s.listing size body)
    (hl : i.target? = some l) :
    ∃ j, (s.placeOf l, j) ∈ Instr.placed 0 ((s.listing size body).map (Instr.map s.placeOf)) := by
  obtain ⟨place, hplace, hlt⟩ := h.targets i hi l hl
  obtain ⟨j, hj⟩ := h.exists_placed hplace hlt
  refine ⟨j.map s.placeOf, ?_⟩
  rw [placeOf, hplace, Option.getD_some, Instr.placed_map]
  exact mem_map_of_mem hj

theorem Finished.endsWell {block : List (Instr Nat)} (hblock : block ∈ s.blocks) :
    EndsWell ((.enterFrame size :: body).map (Instr.map s.placeOf)) block := by
  obtain ⟨o, ho, rfl⟩ := mem_map.1 hblock
  rcases h.paths o (Array.mem_toList_iff.1 ho) with ⟨hcont, htrap⟩
    | ⟨l, place, hcont, -, hplace, hlt⟩
  · refine .inl ⟨o.saveCode.map (Instr.map s.placeOf), o.stub, ?_, htrap⟩
    simp [OutOfLine.code, OutOfLine.resumeCode, hcont, Instr.map]
  · obtain ⟨init, hinit⟩ : ∃ init, o.resumeCode = init ++ [.jump l] := by
      simp [OutOfLine.resumeCode, hcont]
    have hlisting : place < Instr.codeSize (s.listing size body) := by
      rw [listing, Instr.codeSize_append]
      exact Nat.lt_add_right _ hlt
    obtain ⟨i, hi⟩ := h.exists_placed hplace hlisting
    refine .inr ⟨(o.saveCode ++ [Instr.callStub o.stub] ++ init).map (Instr.map s.placeOf), place,
      i.map s.placeOf, ?_, ?_⟩
    · rw [OutOfLine.code, hinit, ← append_assoc, map_append]
      simp [Instr.map, placeOf, hplace]
    · rw [Instr.placed_map]
      exact mem_map_of_mem (f := fun p => (p.1, p.2.map s.placeOf)) (Instr.mem_placed_of_lt hi hlt)

theorem Finished.last_map : ∃ init last,
    (.enterFrame size :: body).map (Instr.map s.placeOf) = init ++ [last] ∧
      (last = .ret ∨ ∃ t, last = .jump t) := by
  obtain ⟨init, last, rfl, hexit⟩ := h.last
  refine ⟨(.enterFrame size :: init).map (Instr.map s.placeOf), last.map s.placeOf, by simp, ?_⟩
  cases last <;> first | exact .inl rfl | exact .inr ⟨_, rfl⟩ | cases hexit

end

end Lowering

/-- Generated code is closed. It is read back as the body and one block for each slow path, without
gaps; branches lead to instructions; the body ends with a jump or a return; and a slow path ends
behind a trap or goes back into the body. -/
theorem compiled_code_is_closed {module : Module} {sig : Signature} {bytes : Array UInt8}
    {decoderOptions : DecoderOptions} {options : CompileOptions} {f : CompiledFunction}
    (hmodule : module.NoBottom) (hsig : sig.NoBottom)
    (hcompile : compileFunction module sig bytes decoderOptions options = .ok f)
    (hsize : f.code.size < 2 ^ 31) : ∃ (s : Lowering) (body : List (Instr Nat)),
      decodeBody .compiler (.start options) module sig bytes decoderOptions = (.ok (), s) ∧
      disassemble f.code = .ok (Instr.placed 0 (body ++ s.blocks.flatten)) ∧
      Instr.codeSize (body ++ s.blocks.flatten) = f.code.size ∧
      (∀ p ∈ Instr.placed 0 (body ++ s.blocks.flatten), ∀ t, p.2.target? = some t →
        ∃ i, (t, i) ∈ Instr.placed 0 (body ++ s.blocks.flatten)) ∧
      (∃ init last, body = init ++ [last] ∧ (last = .ret ∨ ∃ t, last = .jump t)) ∧
      ∀ block ∈ s.blocks, EndsWell body block := by
  obtain ⟨s, body, hrun, rfl, h⟩ :=
    finished_of_compileFunction (Regime.fits_bottomless hmodule hsig decoderOptions) hcompile
  refine ⟨s, (.enterFrame (.ofNat s.emitter.frameSize) :: body).map (Instr.map s.placeOf), hrun, ?_⟩
  rw [← s.map_listing]
  refine ⟨?_, ?_, fun p hp t ht => ?_, h.last_map, fun block hblock => h.endsWell hblock⟩
  · rw [Instr.placed_map]
    exact h.code.disassemble h.pending hsize fun i hi hbottom => (h.fine i hi).type _ hbottom rfl
  · rw [Instr.codeSize_map]
    exact h.code.size.symm
  · rw [Instr.placed_map] at hp
    obtain ⟨q, hq, rfl⟩ := mem_map.1 hp
    rw [Instr.target?_map] at ht
    obtain ⟨l, hl, rfl⟩ := Option.map_eq_some_iff.1 ht
    exact h.targets_placed (Instr.mem_of_mem_placed hq) hl

/-- A quotient has a stack check and two traps. -/
theorem compiled_code_is_closed_quotient :
    let compiled := compileFunction {} ⟨[.i32, .i32], [.i32]⟩
      #[0x00, 0x20, 0x00, 0x20, 0x01, 0x6D, 0x0B] {} {}
    ∃ (f : CompiledFunction) (s : Lowering) (body : List (Instr Nat)), compiled = .ok f ∧
      s.blocks.length = 3 ∧
      disassemble f.code = .ok (Instr.placed 0 (body ++ s.blocks.flatten)) ∧
      ∀ block ∈ s.blocks, EndsWell body block := by
  intro compiled
  have hsizes : compiled.toOption.map (fun f => decide (f.code.size < 2 ^ 31)) = some true := by
    decide +kernel
  have hpaths : (decodeBody .compiler (.start {}) {} ⟨[.i32, .i32], [.i32]⟩
      #[0x00, 0x20, 0x00, 0x20, 0x01, 0x6D, 0x0B] {}).2.outOfLine.size = 3 := by decide +kernel
  cases hf : compiled with
  | error e =>
    rw [hf] at hsizes
    cases hsizes
  | ok f =>
    rw [hf] at hsizes
    have hsize : f.code.size < 2 ^ 31 := of_decide_eq_true (Option.some.inj hsizes)
    have hmodule : Module.NoBottom {} := ⟨nofun, nofun, nofun, nofun⟩
    obtain ⟨s, body, hrun, hcode, -, -, -, hblocks⟩ :=
      compiled_code_is_closed hmodule ⟨by decide, by decide⟩ hf hsize
    rw [hrun] at hpaths
    refine ⟨f, s, body, rfl, ?_, hcode, hblocks⟩
    rw [Lowering.blocks, length_map, Array.length_toList]
    exact hpaths

end OnePass
