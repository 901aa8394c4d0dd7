import OnePass.Proofs.JoinStates
import OnePass.Proofs.SlowPaths

/-!
Code generation has no vectors. Functions with vectors among their locals are refused before their
code begins, and all others where a value would be pushed, so no slot is ever of a vector: neither
in the current state nor in one that is kept.
-/
namespace OnePass

open List

open Lowering

/-! ## Changes of a state -/

namespace CacheState

/-- No slot is of a vector. -/
def Scalar (t : CacheState) : Prop := ∀ ty ∈ t.types, ty ≠ .v128

theorem Scalar.slot {t : CacheState} (h : t.Scalar) {slot : Slot} (hslot : slot ∈ t.slots) :
    slot.ty ≠ .v128 :=
  h _ (mem_map_of_mem (Array.mem_toList_iff.2 hslot))

/-- Instructions can name the places of all slots. -/
def Addressable (t : CacheState) : Prop := ∀ slot ∈ t.slots, slot.offset < UInt32.size

theorem Scalar.encodable {t : CacheState} (h : t.Scalar) (haddressable : t.Addressable) :
    t.Encodable :=
  fun slot hslot => ⟨h.slot hslot, haddressable slot hslot⟩

theorem Scalar.mergeTarget {t : CacheState} (h : t.Scalar) (numLocals arity depth : Nat) :
    (t.mergeTarget numLocals arity depth).Scalar := by
  intro ty hty
  rw [types_mergeTarget] at hty
  refine h ty ?_
  rcases mem_append.1 hty with hty | hty
  · rcases mem_append.1 hty with hty | hty
    · exact mem_of_mem_take hty
    · exact mem_of_mem_drop (mem_of_mem_take hty)
  · exact mem_of_mem_drop hty

theorem stable_scalar : Stable (fun _ ty => ty ≠ .v128) Scalar Scalar Scalar True where
  stack _ hty := hty
  const _ _ hty := hty
  reg _ _ _ hty := hty
  typed _ h _ hslot := h.slot hslot
  push s ty loc h hty := by
    rw [Scalar, types_push]
    exact forall_mem_append.2 ⟨h, forall_mem_singleton.2 hty⟩
  pop s slot s' h hpop ty hty := by
    refine h ty ?_
    rw [types, (pop?_eq_some hpop).1, Array.toList_push, map_append]
    exact mem_append_left _ hty
  relocate s i loc h _ := by rwa [Scalar, types_relocate]
  recent _ _ h := h
  record _ _ h := h
  keep _ h := h
  header _ _ h := h
  merge _ _ _ _ h := h.mergeTarget _ _ _
  pass _ _ _ _ h := h.mergeTarget _ _ _
  label _ h := h
  steal _ _ _ h := h

end CacheState

/-! ## Types that are given -/

namespace Decode

variable {ctx ctx' : Context} {s s' : Lowering}

/-- The call gives code generation no vector. The body of a function begins before any code. -/
structure Given (c : Call Lowering) : Prop where
  scalar : ∀ ty ∈ c.event.givenTypes c.context, ty ≠ .v128
  blank : ∀ block, c.event = .startBody block → c.state.Blank

theorem given_of_inside {c : Call Lowering} (hinside : c.event.delimits = false)
    (hnull : ∀ ty ∈ c.event.nullType?, ty ≠ .v128) : Given c := by
  obtain ⟨ctx, e, s⟩ := c
  cases e with
  | startBody => cases hinside
  | refNull ty => exact ⟨forall_mem_singleton.2 (hnull ty rfl), by rintro _ ⟨⟩⟩
  | _ => exact ⟨forall_mem_nil _, by rintro _ ⟨⟩⟩

theorem step_given :
    Calls .compiler Given (step Backend.compiler.watched) (step .compiler) ctx s := by
  rw [step_eq, step_eq]
  refine .bind (.fetch fun _ _ _ => given_of_inside rfl (by rintro _ ⟨⟩)) fun i ctx' s' hr => ?_
  obtain ⟨op, r, hread⟩ := (fetch_ok hr).1
  refine (Calls.instruction i ctx' s').mono fun c hc => given_of_inside hc.2.1 fun ty hty => ?_
  exact Instruction.ne_v128_of_read_refNull (hc.2.2 ty hty ▸ hread)

theorem run_startFunction
    (h : (tell .compiler .startFunction ctx).run s = (.ok ((), ctx'), s')) :
    ctx' = ctx ∧ (startFunction ctx).run.run s = (.ok (), s') := by
  have hhandle := Settles.run_run_bind (startFunction ctx) (fun _ => pure Reply.proceed) s
  rcases hrun : (startFunction ctx).run.run s with ⟨b | _, s₁⟩ <;> rw [hrun] at hhandle <;>
    rw [run_tell, show Backend.compiler.handle ctx .startFunction s = _ from hhandle] at h <;>
    cases h
  exact ⟨rfl, rfl⟩

/-- All locals are looked at before the body begins, and the parameters are among them. -/
theorem enter_given (hs : s.Blank) :
    Calls .compiler Given (enter Backend.compiler.watched) (enter .compiler) ctx s := by
  refine .bind .get ?_
  rintro _ _ _ ⟨⟩
  refine .bind (.read _) fun locals ctx₁ s₁ hr => ?_
  rw [run_read] at hr
  split at hr
  next r hread =>
    cases hr
    refine .bind (.modify _) ?_
    rintro _ _ _ ⟨⟩
    refine .bind (.tell ⟨forall_mem_nil _, by rintro _ ⟨⟩⟩) fun _ ctx₂ s₂ hstart => ?_
    obtain ⟨rfl, hrun⟩ := run_startFunction hstart
    refine .bind (.modify _) ?_
    rintro _ _ _ ⟨⟩
    refine .bind (.check _) ?_
    rintro block _ _ ⟨⟩
    have hempty : CacheState.Scalar {} := forall_mem_nil _
    have hscalar := (CacheState.stable_scalar.steady.startFunction _ s (hs.holds hempty)).ends
      _ _ hrun
    obtain ⟨declared, hlocals, -⟩ := locals_of_readLocals hread
    refine .tell ⟨forall_mem_append.2 ⟨fun ty hty => hscalar ty ?_, hscalar⟩,
      fun _ _ => ((startFunction_upholds (R := .lax) hs).ends _ _ hrun).1⟩
    exact hlocals ▸ mem_append_left _ hty
  next => cases hr

end Decode

section

variable {module : Module} {sig : Signature} {body : Array UInt8} {decoderOptions : DecoderOptions}
  {options : CompileOptions} {c : Call Lowering}
  (hc : c ∈ compileCalls module sig body decoderOptions options)
include hc

theorem given_of_mem_compileCalls : Decode.Given c := by
  obtain ⟨calls, -, hcalls, hrun⟩ := decodeBody_calls module sig body decoderOptions options
    (Decode.body_calls (fun _ _ => Decode.step_given) body
      (Decode.enter_given (blank_start options))
      (fun _ _ => ⟨forall_mem_nil _, by rintro _ ⟨⟩⟩) (Regime.fits_lax module sig decoderOptions)
      (blank_start options))
  rw [compileCalls, hrun] at hc
  exact hcalls c hc

/-- What all changes keep is known wherever code generation is called. Since no vector is given to
it, no slot is ever of one. -/
theorem holds_of_mem_compileCalls {fits : Location → ValueType → Prop} {C L J : CacheState → Prop}
    (h : Stable fits C L J True) (hloc : ∀ loc ty, fits .stack ty → fits loc ty) (hstart : C {}) :
      c.state.Holds C L J := by
  obtain ⟨earlier, later, heq⟩ := append_of_mem hc
  refine holds_of_leads h hloc hstart
    ((leads_compileCalls module sig body decoderOptions options).before heq) fun c' hc' ty hty => ?_
  exact h.stack ty ((given_of_mem_compileCalls (heq ▸ mem_append_left _ hc')).scalar ty hty)

end

end OnePass
