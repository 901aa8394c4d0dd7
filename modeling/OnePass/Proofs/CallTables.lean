import OnePass.Lowering.Compiler
import OnePass.Proofs.EmitterSteps

/-!
The tables that describe code. There is a position for every call. A debugger can stop where a call
returns, except from the tracer: there is an entry for every such place, and besides those one for
every slow path that is still to be emitted.
-/
namespace OnePass

open List

namespace Instr

variable {τ : Type} {i : Instr τ} {is new : List (Instr τ)}

/-- A call that a debugger can stop behind. -/
def isStop : Instr τ → Bool
  | call _ | callIndirect _ => true
  | callStub stub => stub ≠ .traceEnter
  | _ => false

theorem isStop_of_isCall (h : i.isCall = false) : i.isStop = false := by
  cases i <;> first | rfl | cases h

/-- Where the calls stand. -/
def callPlaces (is : List (Instr τ)) : List Nat :=
  (placed 0 is).filterMap fun p => if p.2.isCall then some p.1 else none

/-- Where the calls return to that a debugger can stop behind. -/
def returnPlaces (is : List (Instr τ)) : List Nat :=
  (placed 0 is).filterMap fun p => if p.2.isStop then some (p.1 + p.2.size) else none

theorem callPlaces_concat (is : List (Instr τ)) (i : Instr τ) :
    callPlaces (is ++ [i]) = callPlaces is ++ if i.isCall then [codeSize is] else [] := by
  rw [callPlaces, placed_append, filterMap_append, callPlaces, Nat.zero_add]
  congr 1
  simp only [placed, filterMap_cons, filterMap_nil]
  cases i.isCall <;> rfl

theorem returnPlaces_concat (is : List (Instr τ)) (i : Instr τ) : returnPlaces (is ++ [i]) =
      returnPlaces is ++ if i.isStop then [codeSize (is ++ [i])] else [] := by
  rw [returnPlaces, placed_append, filterMap_append, returnPlaces, Nat.zero_add]
  congr 1
  simp only [placed, filterMap_cons, filterMap_nil, codeSize_append, codeSize_cons,
    codeSize_nil, Nat.add_zero]
  cases i.isStop <;> rfl

/-- Code without calls leaves the places as they are. -/
theorem places_append (h : ∀ i ∈ new, i.isCall = false) :
    callPlaces (is ++ new) = callPlaces is ∧ returnPlaces (is ++ new) = returnPlaces is := by
  induction new using reverseRecOn with
  | nil => simp
  | append_singleton new i ih =>
    have hi := h i (by simp)
    have hrest := ih fun j hj => h j (mem_append_left _ hj)
    rw [← append_assoc, callPlaces_concat, returnPlaces_concat, hi, isStop_of_isCall hi]
    simpa using hrest

theorem mem_placed_of_mem_returnPlaces {pc : Nat} (h : pc ∈ returnPlaces is) :
    ∃ p ∈ placed 0 is, p.2.isStop = true ∧ pc = p.1 + p.2.size := by
  obtain ⟨p, hp, hpc⟩ := mem_filterMap.1 h
  split at hpc
  next hstop =>
    cases hpc
    exact ⟨p, hp, hstop, rfl⟩
  next => cases hpc

theorem le_of_mem_returnPlaces {pc : Nat} (h : pc ∈ returnPlaces is) : pc ≤ codeSize is := by
  obtain ⟨p, hp, -, rfl⟩ := mem_placed_of_mem_returnPlaces h
  have hle := (le_of_mem_placed hp).2
  rwa [Nat.zero_add] at hle

end Instr

/-! ## Entries of the side table -/

namespace SideRecord

variable {τ : Type} {r : SideRecord} {count pc : Nat} {claimed : List Nat} {is new : List (Instr τ)}
  {i : Instr τ} {state : CacheState} {view : RegisterView}

/-- The entries that are not claimed stand for the places in the code where a debugger can stop, one
for each. All entries tell where so many locals are. -/
structure Describes (r : SideRecord) (count : Nat) (claimed : List Nat) (is : List (Instr τ)) :
    Prop where
  places : ∀ pc, pc ∈ Instr.returnPlaces is ↔ ∃ k e, k ∉ claimed ∧
    r.entries[k]? = some e ∧ e.pc = pc
  distinct : ∀ k k' e e', k ∉ claimed → k' ∉ claimed → r.entries[k]? = some e →
    r.entries[k']? = some e' → e.pc = e'.pc → k = k'
  nodup : claimed.Nodup
  claims : ∀ k ∈ claimed, k < r.entries.size
  locals : ∀ e ∈ r.entries, count ≤ e.values.length

theorem describes_empty (count : Nat) (h : Instr.returnPlaces is = []) :
    ({} : SideRecord).Describes count [] is := by
  refine ⟨fun pc => ?_, fun k k' e e' _ _ hk => ?_, nodup_nil, nofun, fun e he => ?_⟩
  · simp [h]
  · simp at hk
  · simp at he

variable {τ' : Type}

theorem Describes.congr {is' : List (Instr τ')} (h : r.Describes count claimed is)
    (hplaces : Instr.returnPlaces is' = Instr.returnPlaces is) : r.Describes count claimed is' :=
  ⟨fun pc => by rw [hplaces]; exact h.places pc, h.distinct, h.nodup, h.claims, h.locals⟩

theorem getElem?_add (r : SideRecord) (pc : Nat) (state : CacheState) (view : RegisterView)
    (k : Nat) : (r.add pc state view).2.entries[k]? =
      if k = r.entries.size then some ⟨pc, state.slots.toList.map (.ofSlot view)⟩
      else r.entries[k]? := by
  simp only [add, Array.getElem?_push]

theorem getElem?_setPc (r : SideRecord) (index pc k : Nat) : (r.setPc index pc).entries[k]? =
    if index = k then r.entries[k]?.map fun e => { e with pc } else r.entries[k]? := by
  simp only [setPc, Array.getElem?_modify]

section

variable (h : r.Describes count claimed is)
include h

theorem Describes.locals_add (hcount : count ≤ state.height) :
    ∀ e ∈ (r.add pc state view).2.entries, count ≤ e.values.length := by
  intro e he
  rcases Array.mem_push.1 he with he | rfl
  · exact h.locals e he
  · simpa [CacheState.height] using hcount

/-- An entry is claimed by a path that is to come. -/
theorem Describes.claim (hcount : count ≤ state.height) :
    (r.add pc state view).2.Describes count (claimed ++ [r.entries.size]) is := by
  have hold : ∀ k e, k ∉ claimed ++ [r.entries.size] →
      ((r.add pc state view).2.entries[k]? = some e ↔ r.entries[k]? = some e) := by
    intro k e hk
    rw [getElem?_add, if_neg]
    rintro rfl
    simp at hk
  refine ⟨fun pc => ?_, fun k k' e e' hk hk' he he' => ?_, ?_, fun k hk => ?_, h.locals_add hcount⟩
  · rw [h.places pc]
    constructor
    · rintro ⟨k, e, hk, he, hpc⟩
      have hlt := (Array.getElem?_eq_some_iff.1 he).1
      have hk' : k ∉ claimed ++ [r.entries.size] := by
        simp only [mem_append, mem_singleton, not_or]
        exact ⟨hk, Nat.ne_of_lt hlt⟩
      exact ⟨k, e, hk', (hold k e hk').2 he, hpc⟩
    · rintro ⟨k, e, hk, he, hpc⟩
      exact ⟨k, e, fun hmem => hk (mem_append_left _ hmem), (hold k e hk).1 he, hpc⟩
  · exact h.distinct k k' e e' (fun hmem => hk (mem_append_left _ hmem))
      (fun hmem => hk' (mem_append_left _ hmem)) ((hold k e hk).1 he) ((hold k' e' hk').1 he')
  · refine nodup_append.2 ⟨h.nodup, nodup_singleton _, fun k hk k' hk' => ?_⟩
    cases mem_singleton.1 hk'
    exact Nat.ne_of_lt (h.claims k hk)
  · simp only [add, Array.size_push]
    rcases mem_append.1 hk with hk | hk
    · exact Nat.lt_succ_of_lt (h.claims k hk)
    · cases mem_singleton.1 hk
      exact Nat.lt_succ_self _

/-- A place behind all others gets an entry that nothing else stands for. -/
theorem Describes.settle {is' : List (Instr τ')} {r' : SideRecord} {claimed' : List Nat}
    {index : Nat} (hplaces : Instr.returnPlaces is' = Instr.returnPlaces is ++ [pc])
    (hpc : Instr.codeSize is < pc)
    (hindex : ∃ e, r'.entries[index]? = some e ∧ e.pc = pc) (hfree : index ∉ claimed')
    (hold : ∀ k, k ≠ index → r'.entries[k]? = r.entries[k]? ∧ (k ∈ claimed' ↔ k ∈ claimed))
    (hnew : index ∈ claimed ∨ r.entries[index]? = none) (hnodup : claimed'.Nodup)
    (hclaims : ∀ k ∈ claimed', k < r'.entries.size)
    (hlocals : ∀ e ∈ r'.entries, count ≤ e.values.length) : r'.Describes count claimed' is' := by
  obtain ⟨entry, hentry, hentrypc⟩ := hindex
  have hlater : ∀ k e, k ≠ index → k ∉ claimed' → r'.entries[k]? = some e → e.pc < pc := by
    intro k e hk hclaimed he
    rw [(hold k hk).1] at he
    have hmem := (h.places e.pc).2 ⟨k, e, fun hc => hclaimed ((hold k hk).2.2 hc), he, rfl⟩
    exact Nat.lt_of_le_of_lt (Instr.le_of_mem_returnPlaces hmem) hpc
  refine ⟨fun pc' => ?_, fun k k' e e' hk hk' he he' heq => ?_, hnodup, hclaims, hlocals⟩
  · rw [hplaces, mem_append, mem_singleton, h.places]
    constructor
    · rintro (⟨k, e, hk, he, hpc'⟩ | rfl)
      · have hne : k ≠ index := by
          rintro rfl
          rcases hnew with hmem | hnone
          · exact hk hmem
          · rw [hnone] at he
            cases he
        exact ⟨k, e, fun hc => hk ((hold k hne).2.1 hc), (hold k hne).1.trans he, hpc'⟩
      · exact ⟨index, entry, hfree, hentry, hentrypc⟩
    · rintro ⟨k, e, hk, he, rfl⟩
      by_cases hne : k = index
      · subst hne
        rw [hentry] at he
        cases he
        exact .inr hentrypc
      · refine .inl ⟨k, e, fun hc => hk ((hold k hne).2.2 hc), ?_, rfl⟩
        rwa [(hold k hne).1] at he
  · by_cases hne : k = index <;> by_cases hne' : k' = index
    · rw [hne, hne']
    · subst hne
      rw [hentry] at he
      cases he
      exact absurd heq (Nat.ne_of_gt (hentrypc ▸ hlater k' e' hne' hk' he'))
    · subst hne'
      rw [hentry] at he'
      cases he'
      exact absurd heq (Nat.ne_of_lt (hentrypc ▸ hlater k e hne hk he))
    · refine h.distinct k k' e e' (fun hc => hk ((hold k hne).2.2 hc))
        (fun hc => hk' ((hold k' hne').2.2 hc)) ?_ ?_ heq
      · rwa [(hold k hne).1] at he
      · rwa [(hold k' hne').1] at he'

/-- An entry for a call that was just emitted. -/
theorem Describes.add (hstop : i.isStop = true) (hcount : count ≤ state.height) :
    (r.add (Instr.codeSize (is ++ [i])) state view).2.Describes count claimed (is ++ [i]) := by
  have hsize : r.entries.size ∉ claimed := fun hmem => Nat.lt_irrefl _ (h.claims _ hmem)
  refine h.settle ?_ ?_ ⟨⟨Instr.codeSize (is ++ [i]), state.slots.toList.map (.ofSlot view)⟩,
    ?_, rfl⟩ hsize
    (fun k hk => ⟨?_, Iff.rfl⟩) (.inr (by simp)) h.nodup (fun k hk => ?_) (h.locals_add hcount)
  · rw [Instr.returnPlaces_concat, hstop]
    rfl
  · have := i.size_pos
    simp only [Instr.codeSize_append, Instr.codeSize_cons, Instr.codeSize_nil]
    omega
  · rw [getElem?_add, if_pos rfl]
  · rw [getElem?_add, if_neg hk]
  · simp only [SideRecord.add, Array.size_push]
    exact Nat.lt_succ_of_lt (h.claims k hk)

end

/-- The path that claimed the first entry was emitted. -/
theorem Describes.setPc {index : Nat} (h : r.Describes count (index :: claimed) is)
    (hstop : i.isStop = true) :
    (r.setPc index (Instr.codeSize (is ++ [i]))).Describes count claimed (is ++ [i]) := by
  have hlt := h.claims index mem_cons_self
  obtain ⟨hfree, hnodup⟩ := nodup_cons.1 h.nodup
  refine h.settle ?_ ?_ ⟨{ r.entries[index] with pc := Instr.codeSize (is ++ [i]) }, ?_, rfl⟩ hfree
    (fun k hk => ⟨?_, ?_⟩) (.inl mem_cons_self) hnodup (fun k hk => ?_) fun e he => ?_
  · rw [Instr.returnPlaces_concat, hstop]
    rfl
  · have := i.size_pos
    simp only [Instr.codeSize_append, Instr.codeSize_cons, Instr.codeSize_nil]
    omega
  · rw [getElem?_setPc, if_pos rfl, Array.getElem?_eq_getElem hlt]
    rfl
  · rw [getElem?_setPc, if_neg (Ne.symm hk)]
  · rw [mem_cons, or_iff_right hk]
  · simp only [SideRecord.setPc, Array.size_modify]
    exact h.claims k (mem_cons_of_mem _ hk)
  · obtain ⟨k, hk⟩ := Array.getElem?_of_mem he
    rw [getElem?_setPc] at hk
    split at hk
    next =>
      obtain ⟨e', he', rfl⟩ := Option.map_eq_some_iff.1 hk
      exact h.locals e' (Array.mem_of_getElem? he')
    next => exact h.locals e (Array.mem_of_getElem? hk)

end SideRecord

/-! ## The tables together -/

theorem OutOfLine.setEntry_none (o : OutOfLine) (pc : Nat) : o.setEntry pc none = none := by
  unfold setEntry
  cases o.entry <;> rfl

theorem OutOfLine.setEntry_some {o : OutOfLine} {index : Nat} (h : o.entry = some index) (pc : Nat)
    (r : SideRecord) : o.setEntry pc (some r) = some (r.setPc index pc) := by
  simp only [setEntry, h]

namespace Assembly

variable {τ : Type} {a : Assembly} {count : Nat} {paths : List OutOfLine} {is new : List (Instr τ)}
  {i : Instr τ}

/-- The tables describe the code. Each of the slow paths to come has an entry in the side table. -/
structure Describes (a : Assembly) (count : Nat) (paths : List OutOfLine) (is : List (Instr τ)) :
    Prop where
  positions : a.positions.toList.map SourcePosition.code = Instr.callPlaces is
  entries : ∀ r, a.sideRecord = some r → ∃ claimed, paths.map OutOfLine.entry = claimed.map some ∧
    r.Describes count claimed is

variable {a' : Assembly} {path : OutOfLine}

section

variable (h : a.Describes count paths is)
include h

theorem Describes.straight (hnew : ∀ i ∈ new, i.isCall = false)
    (hpositions : a'.positions = a.positions)
    (hrecord : a'.sideRecord = a.sideRecord) : a'.Describes count paths (is ++ new) := by
  obtain ⟨hcalls, hreturns⟩ := Instr.places_append hnew
  refine ⟨by rw [hpositions, hcalls]; exact h.positions, fun r hr => ?_⟩
  obtain ⟨claimed, hclaimed, hdescribes⟩ := h.entries r (hrecord ▸ hr)
  exact ⟨claimed, hclaimed, hdescribes.congr hreturns⟩

theorem Describes.same (hpositions : a'.positions = a.positions)
    (hrecord : a'.sideRecord = a.sideRecord) : a'.Describes count paths is := by
  have hsame := h.straight (forall_mem_nil _) hpositions hrecord
  rwa [append_nil] at hsame

theorem positions_call (hcall : i.isCall = true) (source : Nat) :
    (a.positions.push ⟨Instr.codeSize is, source⟩).toList.map SourcePosition.code =
      Instr.callPlaces (is ++ [i]) := by
  rw [Array.toList_push, map_append, h.positions, Instr.callPlaces_concat, hcall]
  rfl

/-- A call with a position and an entry for the place that it returns to. -/
theorem Describes.call (hcall : i.isCall = true)
    (hstop : i.isStop = true) (source : Nat) {state : CacheState} (hcount : count ≤ state.height)
    (view : RegisterView) (hpositions : a'.positions = a.positions.push ⟨Instr.codeSize is, source⟩)
    (hrecord : a'.sideRecord = a.sideRecord.map fun r =>
      (r.add (Instr.codeSize (is ++ [i])) state view).2) :
    a'.Describes count paths (is ++ [i]) := by
  refine ⟨by rw [hpositions]; exact positions_call h hcall source, fun r hr => ?_⟩
  rw [hrecord] at hr
  obtain ⟨r₀, hr₀, rfl⟩ := Option.map_eq_some_iff.1 hr
  obtain ⟨claimed, hclaimed, hdescribes⟩ := h.entries r₀ hr₀
  exact ⟨claimed, hclaimed, hdescribes.add hstop hcount⟩

/-- The tracer is called with a position only. -/
theorem Describes.trace (source : Nat)
    (hpositions : a'.positions = a.positions.push ⟨Instr.codeSize is, source⟩)
    (hrecord : a'.sideRecord = a.sideRecord) :
      a'.Describes count paths (is ++ [.callStub .traceEnter]) := by
  refine ⟨by rw [hpositions]; exact positions_call h rfl source, fun r hr => ?_⟩
  obtain ⟨claimed, hclaimed, hdescribes⟩ := h.entries r (hrecord ▸ hr)
  refine ⟨claimed, hclaimed, hdescribes.congr ?_⟩
  rw [Instr.returnPlaces_concat]
  exact append_nil _

/-- A slow path with an entry, if there is a side table. -/
theorem Describes.addPath {pc : Nat}
    {state : CacheState} (hcount : count ≤ state.height) (view : RegisterView)
    (hentry : path.entry = a.sideRecord.map fun r => r.entries.size)
      (hpositions : a'.positions = a.positions)
    (hrecord : a'.sideRecord = a.sideRecord.map fun r => (r.add pc state view).2) :
    a'.Describes count (paths ++ [path]) is := by
  refine ⟨hpositions ▸ h.positions, fun r hr => ?_⟩
  rw [hrecord] at hr
  obtain ⟨r₀, hr₀, rfl⟩ := Option.map_eq_some_iff.1 hr
  obtain ⟨claimed, hclaimed, hdescribes⟩ := h.entries r₀ hr₀
  refine ⟨claimed ++ [r₀.entries.size], ?_, hdescribes.claim hcount⟩
  rw [map_append, map_append, hclaimed, map_singleton, map_singleton, hentry, hr₀]
  rfl

end

/-- The first slow path was emitted, with code in front of its call and after it. -/
theorem Describes.generate (h : a.Describes count (path :: paths) is)
    {stub : RuntimeStub} (hstub : stub ≠ .traceEnter) {save resume : List (Instr τ)}
    (hsave : ∀ i ∈ save, i.isCall = false) (hresume : ∀ i ∈ resume, i.isCall = false)
    (source : Nat) (hpositions : a'.positions =
      a.positions.push ⟨Instr.codeSize (is ++ save), source⟩)
    (hrecord : a'.sideRecord = path.setEntry (Instr.codeSize (is ++ save ++ [.callStub stub]))
      a.sideRecord) :
    a'.Describes count paths (is ++ save ++ [.callStub stub] ++ resume) := by
  have hsaved : a.Describes count (path :: paths) (is ++ save) := h.straight hsave rfl rfl
  have hstop : (Instr.callStub stub : Instr τ).isStop = true := by simpa [Instr.isStop] using hstub
  have hcalled : a'.Describes count paths (is ++ save ++ [.callStub stub]) := by
    refine ⟨by rw [hpositions]; exact positions_call hsaved rfl source, fun r hr => ?_⟩
    rw [hrecord] at hr
    cases hr₀ : a.sideRecord with
    | none =>
      rw [hr₀, OutOfLine.setEntry_none] at hr
      cases hr
    | some r₀ =>
      obtain ⟨claimed, hclaimed, hdescribes⟩ := hsaved.entries r₀ hr₀
      obtain ⟨index, rest, rfl⟩ : ∃ index rest, claimed = index :: rest := by
        cases claimed with
        | nil => cases hclaimed
        | cons index rest => exact ⟨index, rest, rfl⟩
      rw [map_cons, map_cons, List.cons.injEq] at hclaimed
      rw [hr₀, OutOfLine.setEntry_some hclaimed.1] at hr
      cases hr
      exact ⟨rest, hclaimed.2, hdescribes.setPc hstop⟩
  exact hcalled.straight hresume rfl rfl

end Assembly

end OnePass
