import OnePass.CompiledModule

/-!
Compiling a module is compiling its bodies one after another. The batches that the workers get are
the bodies in their order, however many workers there are.
-/
namespace OnePass

open List

/-- Nothing is lost, doubled or moved when a list is cut. -/
theorem flatten_pieces {α : Type} (size : Nat) (items : List α) :
    (pieces size items).flatten = items := by
  fun_induction pieces size items with
  | case1 => rfl
  | case2 a rest ih => rw [flatten_cons, ih, cons_append, take_append_drop]

section

variable (module : Module) (decoderOptions : DecoderOptions) (options : CompileOptions)

/-- There is at least one worker, and more only if there are bodies: no quotient or cut by zero is
asked for. -/
theorem compileModule?_eq_map (bodies : List FunctionBody) (workers : Nat) :
    compileModule? module bodies decoderOptions options workers =
      some (bodies.map (compileBody module decoderOptions options)) := by
  have hclamp : clamp? workers 1 (max bodies.length 1) =
      some (max 1 (min workers (max bodies.length 1))) := if_pos (Nat.le_max_right _ _)
  rw [compileModule?, hclamp]
  generalize hused : max 1 (min workers (max bodies.length 1)) = used
  by_cases hone : used = 1
  · simp [hone]
  have hsize : ∃ size, divCeil? bodies.length used = some (size + 1) := by
    have hmod := Nat.div_add_mod bodies.length used
    rw [divCeil?, if_neg (by omega)]
    split
    next hzero =>
      have hpos : 0 < bodies.length / used := Nat.div_pos (by omega) (by omega)
      exact ⟨bodies.length / used - 1, by rw [Nat.sub_add_cancel hpos]⟩
    next => exact ⟨_, rfl⟩
  obtain ⟨size, hsize⟩ := hsize
  simp only [Option.bind_eq_bind, Option.bind_some, if_neg hone, hsize, chunks?]
  rw [flatMap_def, ← map_flatten, flatten_pieces]
  rfl

variable {module} {decoderOptions} {options} {body : FunctionBody}

/-- A function that the module does not define has no body to compile. -/
theorem compileBody_of_undefined (h : module.isImportedFunction body.function = true ∨
      module.functionSig? body.function = none) : ∃ e : DecodeError, e.kind = .invalidIndex ∧
      compileBody module decoderOptions options body = .error ⟨body.function, .decode e⟩ := by
  unfold compileBody
  dsimp only
  by_cases himported : module.isImportedFunction body.function = true
  · exact ⟨⟨0, .badIndex "defined function" body.function⟩, rfl, by rw [if_pos himported]; rfl⟩
  · have hunknown := h.resolve_left himported
    exact ⟨⟨0, .badIndex "function" body.function⟩, rfl, by rw [if_neg himported, hunknown]; rfl⟩

theorem compileBody_of_defined {sig : Signature}
    (hdefined : module.isImportedFunction body.function = false)
    (hsig : module.functionSig? body.function = some sig) :
      compileBody module decoderOptions options body =
      (compileFunction module sig body.bytes decoderOptions options).mapError
        (⟨body.function, ·⟩) := by
  unfold compileBody
  dsimp only
  rw [if_neg (by simp [hdefined]), hsig]

end

/-- No number of workers stops the compilation. There is one answer for each body, in order: that of
compiling it by itself with the signature of its function, or a complaint about an index that the
module does not define. Neither the number of workers nor the other bodies matter. -/
theorem bodies_compile_by_themselves (module : Module) (bodies : List FunctionBody)
    (decoderOptions : DecoderOptions) (options : CompileOptions) (workers : Nat) :
    let answers (bodies : List FunctionBody) (workers : Nat) :=
      compileModule module bodies decoderOptions options workers
    compileModule? module bodies decoderOptions options workers = some (answers bodies workers) ∧
      (answers bodies workers).length = bodies.length ∧
      (∀ (i : Nat) (body : FunctionBody), bodies[i]? = some body →
        (module.isImportedFunction body.function = true ∨
            module.functionSig? body.function = none →
          ∃ e : DecodeError, e.kind = .invalidIndex ∧
            (answers bodies workers)[i]? = some (.error ⟨body.function, .decode e⟩)) ∧
        ∀ sig, module.isImportedFunction body.function = false →
          module.functionSig? body.function = some sig →
          (answers bodies workers)[i]? =
            some ((compileFunction module sig body.bytes decoderOptions options).mapError
              (⟨body.function, ·⟩))) ∧
      (∀ workers', answers bodies workers' = answers bodies workers) ∧
      ∀ (i : Nat) (body : FunctionBody) (j : Nat), j ≠ i →
        (answers (bodies.set i body) workers)[j]? = (answers bodies workers)[j]? := by
  intro answers
  have heq (bodies : List FunctionBody) (workers : Nat) : answers bodies workers =
      bodies.map (compileBody module decoderOptions options) := by
    show (compileModule? ..).getD [] = _
    rw [compileModule?_eq_map, Option.getD_some]
  refine ⟨by rw [compileModule?_eq_map, heq], ?_,
    fun i body hbody => ⟨fun hundefined => ?_, fun sig hdefined hsig => ?_⟩,
    fun workers' => ?_, fun i body j hj => ?_⟩
  · rw [heq, length_map]
  · obtain ⟨e, hkind, hbad⟩ := compileBody_of_undefined hundefined
    exact ⟨e, hkind, by rw [heq, getElem?_map, hbody, Option.map_some, hbad]⟩
  · rw [heq, getElem?_map, hbody, Option.map_some, compileBody_of_defined hdefined hsig]
  · rw [heq, heq]
  · rw [heq, heq, map_set, getElem?_set_ne hj.symm]

end OnePass
