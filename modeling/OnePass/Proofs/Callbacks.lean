import OnePass.Proofs.Comparison

/-!
The calls that a run makes to its listener, each with the states of the decoder and of the listener.
Instructions are announced where the next one is read and nowhere else, and only two of them assign
to locals.
-/
namespace OnePass

open List

/-- A call of a listener, with the states before it. -/
structure Call (σ : Type) where
  context : Context
  event : Event
  state : σ

/-- The listener together with the calls that were made to it. -/
def Backend.watched {σ : Type} (b : Backend σ) : Backend (σ × List (Call σ)) :=
  ⟨fun ctx e (s, calls) =>
    let (reply, s') := b.handle ctx e s
    (reply, s', calls ++ [⟨ctx, e, s⟩])⟩

/-- The calls lead from one state of the listener to another: each finds what the one before it
left. -/
inductive Backend.Leads {σ : Type} (b : Backend σ) (start : σ) : List (Call σ) → σ → Prop
  | nil : b.Leads start [] start
  | snoc {calls : List (Call σ)} {s : σ} (ctx : Context) (e : Event) :
      b.Leads start calls s → b.Leads start (calls ++ [⟨ctx, e, s⟩]) (b.handle ctx e s).2

theorem Backend.Leads.trans {σ : Type} {b : Backend σ} {start s s' : σ}
    {calls later : List (Call σ)}
    (h : b.Leads start calls s) (h' : b.Leads s later s') : b.Leads start (calls ++ later) s' := by
  induction h' with
  | nil => rwa [append_nil]
  | snoc ctx e _ ih =>
    rw [← append_assoc]
    exact .snoc ctx e ih

namespace Decode

variable {σ α β : Type}

/-- The step does the same when the listener is watched, and the calls that it makes lead on and
have the property. -/
structure Calls (b : Backend σ) (Q : Call σ → Prop) (m : DecodeM (σ × List (Call σ)) α)
    (m' : DecodeM σ α) (ctx : Context) (s : σ) : Prop where
  ends : ∀ calls, ∃ new, (m ctx).run (s, calls) =
    (((m' ctx).run s).1, ((m' ctx).run s).2, calls ++ new) ∧ b.Leads s new ((m' ctx).run s).2 ∧
      ∀ c ∈ new, Q c

namespace Calls

variable {Q : Call σ → Prop} {ctx : Context} {s : σ} {b : Backend σ}
  {m k : DecodeM (σ × List (Call σ)) α} {m' k' : DecodeM σ α}

/-- A step that does not speak to the listener. -/
theorem of_silent
    {r : Except CompileError (α × Context)} (h : ∀ calls, (m ctx).run (s, calls) = (r, s, calls))
    (h' : (m' ctx).run s = (r, s)) : Calls b Q m m' ctx s := by
  refine ⟨fun calls => ⟨[], ?_, ?_, forall_mem_nil _⟩⟩
  · rw [h, h', append_nil]
  · rw [h']
    exact .nil

theorem pure (x : α) : Calls b Q (pure x) (pure x) ctx s := of_silent (fun _ => rfl) rfl

theorem get : Calls b Q get get ctx s := of_silent (fun _ => rfl) rfl

theorem modify (g : Context → Context) : Calls b Q (modify g) (modify g) ctx s :=
    of_silent (fun _ => rfl) rfl

theorem throw (e : CompileError) : Calls (α := α) b Q (throw e) (throw e) ctx s :=
  of_silent (fun _ => rfl) rfl

theorem check (m : CheckM α) : Calls b Q (check m) (check m) ctx s := by
  refine of_silent (r := (m ctx).mapError .decode) (fun calls => ?_) ?_
  · simp only [Decode.check]
    cases m ctx <;> rfl
  · simp only [Decode.check]
    cases m ctx <;> rfl

theorem read (m : ReadM α) : Calls b Q (read m) (read m) ctx s := by
  rcases hm : m.run.run ctx.reader with ⟨e | x, r⟩
  · exact of_silent (r := .error (.decode e)) (fun calls => by rw [run_read, hm])
      (by rw [run_read, hm])
  · exact of_silent (r := .ok (x, { ctx with reader := r })) (fun calls => by rw [run_read, hm])
      (by rw [run_read, hm])

theorem tell {e : Event} (h : Q ⟨ctx, e, s⟩) : Calls b Q (tell b.watched e) (tell b e) ctx s := by
  have hleads : b.Leads s [⟨ctx, e, s⟩] (b.handle ctx e s).2 := .snoc ctx e .nil
  refine ⟨fun calls => ⟨[⟨ctx, e, s⟩], ?_, ?_, by simpa using h⟩⟩ <;> simp only [run_tell]
  · rcases hreply : b.handle ctx e s with ⟨bailout | _ | _, s'⟩ <;> simp [Backend.watched, hreply]
  · rcases hreply : b.handle ctx e s with ⟨bailout | _ | _, s'⟩ <;> rwa [hreply] at hleads

theorem bind
    {k : α → DecodeM (σ × List (Call σ)) β} {k' : α → DecodeM σ β} (hm : Calls b Q m m' ctx s)
    (hk : ∀ x ctx' s', (m' ctx).run s = (.ok (x, ctx'), s') → Calls b Q (k x) (k' x) ctx' s') :
    Calls b Q (m >>= k) (m' >>= k') ctx s := by
  refine ⟨fun calls => ?_⟩
  obtain ⟨new, hrun, hleads, hnew⟩ := hm.ends calls
  rw [run_bind, run_bind, hrun]
  rcases hr : (m' ctx).run s with ⟨e | ⟨x, ctx'⟩, s'⟩ <;> rw [hr] at hleads
  · exact ⟨new, rfl, hleads, hnew⟩
  · obtain ⟨new', hrun', hleads', hnew'⟩ := (hk x ctx' s' hr).ends (calls ++ new)
    refine ⟨new ++ new', ?_, hleads.trans hleads', fun c hc => ?_⟩
    · rw [← append_assoc]
      exact hrun'
    · exact (mem_append.1 hc).elim (hnew c) (hnew' c)

theorem mono {Q' : Call σ → Prop}
    (h : Calls b Q m m' ctx s) (hQ : ∀ c, Q c → Q' c) : Calls b Q' m m' ctx s := by
  refine ⟨fun calls => ?_⟩
  obtain ⟨new, hrun, hleads, hnew⟩ := h.ends calls
  exact ⟨new, hrun, hleads, fun c hc => hQ c (hnew c hc)⟩

theorem ite {p : Prop} [Decidable p] (hm : p → Calls b Q m m' ctx s)
    (hk : ¬p → Calls b Q k k' ctx s) :
    Calls b Q (if p then m else k) (if p then m' else k') ctx s := by
  split
  next hp => exact hm hp
  next hp => exact hk hp

theorem report {e : Event} (h : ctx.live = true → Q ⟨ctx, e, s⟩) :
    Calls b Q (report b.watched e) (report b e) ctx s := by
  refine .bind .get ?_
  rintro _ _ _ ⟨⟩
  exact .ite (fun hlive => .tell (h hlive)) fun _ => .pure ()

theorem fetch (h : ∀ ctx op s, Q ⟨ctx, .nextInstruction op, s⟩) :
    Calls b Q (fetch b.watched) (fetch b) ctx s :=
  .bind (.modify _) fun _ _ _ _ => .bind .get fun _ _ _ _ => .bind (.read _) fun _ _ _ _ =>
    .bind (.modify _) fun _ _ _ _ => .bind (.report fun _ => h _ _ _) fun _ _ _ _ =>
    .bind .get fun _ _ _ _ => .read _

theorem enter (h : ∀ ctx s, Q ⟨ctx, .startFunction, s⟩ ∧ ∀ block, Q ⟨ctx, .startBody block, s⟩) :
    Calls b Q (enter b.watched) (enter b) ctx s :=
  .bind .get fun _ _ _ _ => .bind (.read _) fun _ _ _ _ => .bind (.modify _) fun _ _ _ _ =>
    .bind (.tell (h _ _).1) fun _ _ _ _ => .bind (.modify _) fun _ _ _ _ =>
    .bind (.check _) fun _ _ _ _ => .tell ((h _ _).2 _)

end Calls

end Decode

/-- A listener that is watched against the same one. What it was called with beyond `calls` leads
from the start to where it is, and is ordinary. -/
def Comparison.byWatch {σ : Type} (b : Backend σ) (start : σ) (calls : List (Call σ))
    (mode : ValidationMode) : Comparison b.watched b where
  mode := mode
  mode' := mode
  same t s := t.1 = s ∧ ∃ new, t.2 = calls ++ new ∧ b.Leads start new s ∧ ∀ c ∈ new,
    c.event.isOrdinary = true
  past _ _ := False
  alone _ := False
  hears e := e.isOrdinary = true
  ordinary := id
  modes := modes_self mode
  told ctx e t s _ he hs := by
    obtain ⟨rfl, new, hnew, hleads, hordinary⟩ := hs
    refine .inl ⟨rfl, rfl, new ++ [⟨ctx.checked mode, e, t.1⟩], ?_, .snoc _ e hleads, ?_⟩
    · rw [← append_assoc, ← hnew]
      rfl
    · simpa [or_imp, forall_and] using ⟨hordinary, he⟩
  past_same h := (h rfl).elim
  past_told _ _ _ _ := False.elim

/-- Whether the instruction neither assigns to a local nor pushes a null reference. -/
def Instruction.isOrdinary : Instruction → Bool
  | .localSet .. | .localTee .. | .refNull .. => false
  | _ => true

namespace Decode

variable {σ α : Type} {b : Backend σ}

/-- The step does the same when the listener is watched, and all that it tells it is ordinary. -/
def Ordinary (b : Backend σ) (m : DecodeM (σ × List (Call σ)) α) (m' : DecodeM σ α) : Prop :=
  ∀ start calls mode, Compares (.byWatch b start calls mode) Eq m m'

namespace Ordinary

theorem calls {m : DecodeM (σ × List (Call σ)) α} {m' : DecodeM σ α} (h : Ordinary b m m')
    (ctx : Context) (s : σ) : Calls b (fun c => c.event.isOrdinary = true) m m' ctx s := by
  refine ⟨fun calls => ?_⟩
  have hends : SameEnd _ ctx Eq ((m ctx).run (s, calls)) ((m' ctx).run s) :=
    (h s calls ctx.options.validation).ends ctx (s, calls) s trivial
      ⟨rfl, [], (append_nil calls).symm, .nil, forall_mem_nil _⟩
  generalize (m ctx).run (s, calls) = r at hends
  generalize (m' ctx).run s = r' at hends
  cases hends with
  | ok ctx' _ hrel hs =>
    obtain ⟨rfl, new, hnew, hleads, hordinary⟩ := hs
    exact ⟨new, by rw [hrel, ← hnew]; rfl, hleads, hordinary⟩
  | error e hs =>
    obtain ⟨rfl, new, hnew, hleads, hordinary⟩ := hs
    exact ⟨new, by rw [← hnew], hleads, hordinary⟩
  | alone halone => exact halone.elim

theorem event_isOrdinary {i : Instruction} {shape : Shape} (h : i.shape? = some shape)
    (hi : i.isOrdinary = true) (args results : List Value) :
    (shape.event args results).isOrdinary = true := by
  cases i
  case localSet | localTee | refNull => cases hi
  all_goals cases h <;> rfl

theorem instruction (b : Backend σ) {i : Instruction} (hi : i.isOrdinary = true) :
    Ordinary b (instruction b.watched i) (instruction b i) :=
  fun _ _ _ => .instruction fun _ hshape => event_isOrdinary hshape hi

end Ordinary

/-- An instruction announces nothing, stays inside the function, and pushes no null reference but
its own. -/
theorem Calls.instruction (i : Instruction) (ctx : Context) (s : σ) :
    Calls b (fun c => c.event.announces = false ∧ c.event.delimits = false ∧
      ∀ ty ∈ c.event.nullType?, i = .refNull ty) (instruction b.watched i)
      (instruction b i) ctx s := by
  cases hi : i.isOrdinary with
  | true =>
    refine ((Ordinary.instruction b hi).calls ctx s).mono fun c hc => ?_
    simp only [Event.isOrdinary, Bool.and_eq_true, Bool.not_eq_true',
      Option.isNone_iff_eq_none] at hc
    refine ⟨hc.1.1.1, hc.2, fun ty hty => ?_⟩
    rw [hc.1.2] at hty
    cases hty
  | false =>
    cases i with
    | localSet =>
      exact .bind (.check _) fun _ _ _ _ => .report fun _ => ⟨rfl, rfl, by rintro _ ⟨⟩⟩
    | localTee =>
      exact .bind (.check _) fun _ _ _ _ => .bind (.check _) fun _ _ _ _ => .report fun _ =>
        ⟨rfl, rfl, by rintro _ ⟨⟩⟩
    | refNull ty =>
      exact .bind (.check _) fun _ _ _ _ => .report fun _ =>
        ⟨rfl, rfl, by rintro _ ⟨⟩; rfl⟩
    | _ => cases hi

end Decode

end OnePass
