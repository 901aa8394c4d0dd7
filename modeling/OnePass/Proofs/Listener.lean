import OnePass.Proofs.Comparison
import OnePass.Proofs.Verdict

/-!
Listeners made from a listener: one keeps a record of what it is told, one goes on where the other
bails out. Through the second, what is known of listeners that never bail out is known of all: a run
ends with a refusal, or with the verdict of validation.
-/
namespace OnePass

open List

/-- A construct without what depends on the answers of listeners. -/
def Control.bare (c : Control) : Control :=
  ⟨c.kind, c.stackDepth, .reachable, ⟨c.startMerge.types, false⟩, ⟨c.endMerge.types, false⟩, c.pc⟩

/-- An event without what depends on the answers of listeners. -/
def Event.bare : Event → Event
  | .startBody c => .startBody c.bare
  | .block c => .block c.bare
  | .loop c => .loop c.bare
  | .tryBlock c => .tryBlock c.bare
  | .ifThen cond c => .ifThen cond c.bare
  | .fallThru c => .fallThru c.bare
  | .popControl c => .popControl c.bare
  | .endControl c => .endControl c.bare
  | .elseArm c => .elseArm c.bare
  | .catchTag tag c values => .catchTag tag c.bare values
  | .catchAll c => .catchAll c.bare
  | .rethrow c => .rethrow c.bare
  | e => e

/-- Whether the event is an access to memory. -/
def Event.isAccess : Event → Bool
  | .load .. | .store .. => true
  | _ => false

/-- An event as a listener was told it and answered it. The state of decoding is the one that a run
with full checks has. -/
structure Notice where
  context : Context
  event : Event
  reply : Except Bailout Reply

/-- Which instruction the event belongs to, and what it says to every listener. -/
def Notice.gist (n : Notice) : Nat × Event := (n.context.pc, n.event.bare)

/-- Decoding for a listener that is recorded. -/
abbrev LoggedM (σ : Type) := DecodeM (σ × List Notice)

namespace Backend

variable {σ : Type}

/-- The listener together with a record of what it was told. -/
def logged (b : Backend σ) : Backend (σ × List Notice) :=
  ⟨fun ctx e (s, log) =>
    let (reply, s) := b.handle ctx e s
    (reply, s, log ++ [⟨ctx.checked .full, e, reply⟩])⟩

/-- The listener until it would bail out; from then on it agrees to everything. -/
def stubborn (b : Backend σ) : Backend (Option σ) :=
  ⟨fun ctx e s =>
    match s.map (b.handle ctx e) with
    | some (.ok reply, s) => (.ok reply, some s)
    | _ => (.ok .proceed, none)⟩

theorem stubborn_neverBails (b : Backend σ) : b.stubborn.NeverBails := by
  intro ctx e s
  simp only [stubborn]
  rcases s.map (b.handle ctx e) with _ | ⟨_ | reply, _⟩
  · exact ⟨.proceed, rfl⟩
  · exact ⟨.proceed, rfl⟩
  · exact ⟨reply, rfl⟩

/-- The listener never bails out, and calls code dead after accesses to memory only. -/
structure Calm (b : Backend σ) : Prop where
  neverBails : b.NeverBails
  dead : ∀ ctx e s, (b.handle ctx e s).1 = .ok .dead → e.isAccess = true

theorem NeverBails.logged {b : Backend σ} (h : b.NeverBails) : b.logged.NeverBails :=
  fun ctx e s => h ctx e s.1

end Backend

namespace Comparison

variable {σ : Type}

/-- A listener against the same one with a record. -/
def byLog (b : Backend σ) (mode : ValidationMode) : Comparison b b.logged where
  mode := mode
  mode' := mode
  same s s' := s = s'.1
  past _ _ := False
  alone _ := False
  modes := modes_self mode
  told ctx e s s' _ _ hs := .inl (by subst hs; exact ⟨rfl, rfl⟩)
  past_same h := (h rfl).elim
  past_told _ _ _ _ := False.elim

/-- A listener against the same one gone stubborn. Where the first bails out, the second has been
told the same. -/
def byRefusal (b : Backend σ) (mode : ValidationMode) : Comparison b.logged b.stubborn.logged := by
  refine .ofListeners b.logged b.stubborn.logged mode (fun s s' => s' = (some s.1, s.2))
    (fun s s' => s'.1 = none ∧ s.2.map Notice.gist <+: s'.2.map Notice.gist) ?told ?past_told
  case told =>
    intro ctx e s s' hs
    subst hs
    rcases h : b.handle (ctx.checked mode) e s.1 with ⟨bailout | reply, s₁⟩
    · simp only [Backend.logged, Backend.stubborn, Option.map_some, h]
      refine .inr ⟨bailout, rfl, trivial, ?_⟩
      rw [map_append, map_append]
      exact prefix_rfl
    · simp only [Backend.logged, Backend.stubborn, Option.map_some, h]
      exact .inl ⟨trivial, trivial⟩
  case past_told =>
    rintro ctx e s s' ⟨hnone, hlog⟩
    simp only [Backend.logged, Backend.stubborn, hnone, Option.map_none]
    refine ⟨trivial, ?_⟩
    rw [map_append]
    exact hlog.trans (prefix_append ..)

end Comparison

section Runs

variable {σ : Type} (b : Backend σ) (s : σ) (module : Module) (sig : Signature)
  (bytes : Array UInt8) (options : DecoderOptions)

/-- A record changes nothing. -/
theorem decodeBody_logged : decodeBody b s module sig bytes options =
      ((decodeBody b.logged (s, []) module sig bytes options).1,
        (decodeBody b.logged (s, []) module sig bytes options).2.1) := by
  obtain ⟨hout, hs⟩ | ⟨e, -, halone, -⟩ :=
    (Comparison.byLog b options.validation).decodeBody (s := s) (t := (s, [])) rfl module sig bytes
      options.features
  · exact Prod.ext hout hs
  · exact halone.elim

/-- Unless the listener bails out, it may as well be stubborn; if it does, a stubborn one has been
told the same so far. -/
theorem decodeBody_stubborn : let r := decodeBody b.logged (s, []) module sig bytes options
    let r' := decodeBody b.stubborn.logged (some s, []) module sig bytes options
    (r.1 = r'.1 ∧ r'.2 = (some r.2.1, r.2.2)) ∨ ∃ bailout, r.1 = .error (.unsupported bailout) ∧
        r.2.2.map Notice.gist <+: r'.2.2.map Notice.gist := by
  obtain hsame | ⟨e, hr, ⟨bailout, rfl⟩, -, hlog⟩ :=
    (Comparison.byRefusal b options.validation).decodeBody (s := (s, [])) (t := (some s, [])) rfl
      module sig bytes options.features
  · exact .inl hsame
  · exact .inr ⟨bailout, hr, hlog⟩

variable {module sig}

/-- A run ends with a refusal, or as the outline says. -/
theorem decodeBody_outline_or_refused (hmodule : module.NoBottom) (hsig : sig.NoBottom) :
    (∃ bailout, (decodeBody b s module sig bytes options).1 = .error (.unsupported bailout)) ∨
    match Outline.body ⟨module, sig, options⟩ bytes with
    | .ok _ => (decodeBody b s module sig bytes options).1 = .ok ()
    | .error offset => ∃ e, (decodeBody b s module sig bytes options).1 = .error (.decode e) ∧
        e.offset = offset := by
  rw [decodeBody_logged]
  obtain ⟨hout, -⟩ | ⟨bailout, hr, -⟩ := decodeBody_stubborn b s module sig bytes options
  · refine .inr ?_
    rw [hout]
    exact decodeBody_outline b.stubborn_neverBails.logged (some s, []) hmodule hsig bytes options
  · exact .inl ⟨bailout, hr⟩

end Runs

end OnePass
