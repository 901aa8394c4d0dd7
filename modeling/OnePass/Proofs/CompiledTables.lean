import OnePass.Proofs.CompiledCode
import OnePass.Proofs.SlotHeights

/-!
The tables of a compiled function. Positions and entries of the side table stand in the order of the
code, one for each call, and so binary search finds what there is to find.
-/
namespace OnePass

open List

/-! ## Binary search -/

/-- If the test holds of a first part only, that part ends at the partition point. -/
theorem partitionPoint_spec {p : Nat → Bool} (hp : ∀ i j, i ≤ j → p j = true → p i = true)
    {lo hi : Nat} (hle : lo ≤ hi) : (lo ≤ partitionPoint p lo hi ∧ partitionPoint p lo hi ≤ hi) ∧
      (∀ i, lo ≤ i → i < partitionPoint p lo hi → p i = true) ∧
      ∀ i, partitionPoint p lo hi ≤ i → i < hi → p i = false := by
  fun_induction partitionPoint p lo hi with
  | case1 lo hi hlt mid hmid ih =>
    obtain ⟨⟨hge, hle'⟩, hbelow, habove⟩ := ih (by omega)
    refine ⟨⟨by omega, hle'⟩, fun i hi hi' => ?_, habove⟩
    by_cases h : mid + 1 ≤ i
    · exact hbelow i h hi'
    · exact hp i mid (by omega) hmid
  | case2 lo hi hlt mid hmid ih =>
    obtain ⟨⟨hge, hle'⟩, hbelow, habove⟩ := ih (by omega)
    refine ⟨⟨hge, by omega⟩, hbelow, fun i hi hi' => ?_⟩
    by_cases h : i < mid
    · exact habove i hi h
    · refine Bool.eq_false_iff.2 fun hyes => hmid (hp mid i (by omega) hyes)
  | case3 lo hi hge => exact ⟨⟨Nat.le_refl _, hle⟩, by omega, by omega⟩

section Search

variable {α : Type} {key : α → Nat} {xs : List α} {n : Nat}

/-- In a strictly increasing list the elements below a bound come first. -/
theorem getElem?_any_mono (test : Nat → Bool) (htest : ∀ a b, a ≤ b → test b = true → test a = true)
    (h : (xs.map key).Pairwise (· < ·)) (i j : Nat) (hij : i ≤ j)
    (hj : xs[j]?.any (fun x => test (key x)) = true) :
      xs[i]?.any (fun x => test (key x)) = true := by
  obtain ⟨y, hy, hyes⟩ := (Option.any_eq_true _ _).1 hj
  obtain ⟨hlt, rfl⟩ := List.getElem?_eq_some_iff.1 hy
  rw [getElem?_eq_getElem (Nat.lt_of_le_of_lt hij hlt), Option.any_some]
  refine htest _ _ ?_ hyes
  rcases Nat.eq_or_lt_of_le hij with rfl | hij
  · exact Nat.le_refl _
  · have hpair := pairwise_iff_getElem.1 h i j (by simpa using by omega) (by simpa using hlt) hij
    simpa using Nat.le_of_lt hpair

/-- The search ends where the keys that pass the test do. -/
theorem partitionPoint_keys (test : Nat → Bool)
    (htest : ∀ a b, a ≤ b → test b = true → test a = true) (h : (xs.map key).Pairwise (· < ·)) :
    let point := partitionPoint (fun i => xs[i]?.any fun x => test (key x)) 0 xs.length
    point ≤ xs.length ∧ ∀ i (hi : i < xs.length), test (key xs[i]) = true ↔ i < point := by
  obtain ⟨⟨-, hend⟩, hbelow, habove⟩ :=
    partitionPoint_spec (getElem?_any_mono test htest h) (Nat.zero_le xs.length)
  refine ⟨hend, fun i hi => ⟨?_, ?_⟩⟩
  · intro hyes
    by_contra hge
    have hno := habove i (by omega) hi
    simp [getElem?_eq_getElem hi, hyes] at hno
  · intro hlt
    have hyes := hbelow i (Nat.zero_le _) hlt
    simpa [getElem?_eq_getElem hi] using hyes

/-- The last element that is not above a bound. -/
theorem last_le_iff (h : (xs.map key).Pairwise (· < ·)) (n : Nat) (x : α) :
    (match partitionPoint (fun i => xs[i]?.any fun x => decide (key x ≤ n)) 0 xs.length with
      | 0 => none
      | last + 1 => xs[last]?) = some x ↔
      x ∈ xs ∧ key x ≤ n ∧ ∀ y ∈ xs, key y ≤ n → key y ≤ key x := by
  obtain ⟨hend, hkey⟩ := partitionPoint_keys (fun k => decide (k ≤ n)) (by simp; omega) h
  simp only [decide_eq_true_eq] at hkey
  have hpairs := pairwise_iff_getElem.1 (pairwise_map.1 h)
  generalize hpoint : partitionPoint _ 0 xs.length = point at hend hkey
  have hmono : ∀ i j (hi : i < xs.length) (hj : j < xs.length), i ≤ j → key xs[i] ≤ key xs[j] := by
    intro i j hi hj hij
    rcases Nat.eq_or_lt_of_le hij with rfl | hij
    · exact Nat.le_refl _
    · exact Nat.le_of_lt (hpairs i j hi hj hij)
  constructor
  · intro hx
    cases point with
    | zero => cases hx
    | succ last =>
      obtain ⟨hlt, rfl⟩ := List.getElem?_eq_some_iff.1 hx
      refine ⟨getElem_mem _, (hkey last hlt).2 (Nat.lt_succ_self _), fun y hy hle => ?_⟩
      obtain ⟨j, hj, rfl⟩ := getElem_of_mem hy
      exact hmono j last hj hlt (Nat.le_of_lt_succ ((hkey j hj).1 hle))
  · rintro ⟨hx, hle, hlast⟩
    obtain ⟨i, hi, rfl⟩ := getElem_of_mem hx
    have hlt := (hkey i hi).1 hle
    obtain ⟨last, rfl⟩ : ∃ last, point = last + 1 := Nat.exists_eq_add_one.2 (by omega)
    have hlast' := hlast xs[last] (getElem_mem _) ((hkey last (by omega)).2 (by omega))
    have hsame : i = last := by
      by_contra hne
      have := hpairs i last hi (by omega) (by omega)
      omega
    subst hsame
    exact getElem?_eq_getElem hi

/-- The element with a key. -/
theorem filter_eq_iff (h : (xs.map key).Pairwise (· < ·)) (n : Nat) (x : α) :
    (xs[partitionPoint (fun i => xs[i]?.any fun x => decide (key x < n)) 0 xs.length]?.filter
      fun x => key x == n) = some x ↔ x ∈ xs ∧ key x = n := by
  obtain ⟨hend, hkey⟩ := partitionPoint_keys (fun k => decide (k < n)) (by simp; omega) h
  simp only [decide_eq_true_eq] at hkey
  have hpairs := pairwise_iff_getElem.1 (pairwise_map.1 h)
  generalize hpoint : partitionPoint _ 0 xs.length = point at hend hkey
  rw [Option.filter_eq_some_iff, beq_iff_eq]
  refine and_congr_left fun hx => ⟨fun hget => mem_of_getElem? hget, fun hmem => ?_⟩
  obtain ⟨i, hi, rfl⟩ := getElem_of_mem hmem
  have hge : point ≤ i := by
    have := hkey i hi
    omega
  have hle : i ≤ point := by
    by_contra hgt
    have := hkey point (by omega)
    have := hpairs point i (by omega) hi (by omega)
    omega
  rw [Nat.le_antisymm hge hle]
  exact getElem?_eq_getElem hi

end Search

/-! ## Places in the order of the code -/

namespace Instr

variable {τ : Type}

theorem pairwise_placed (offset : Nat) (is : List (Instr τ)) :
    (placed offset is).Pairwise fun p q => p.1 + p.2.size ≤ q.1 := by
  induction is generalizing offset with
  | nil => exact .nil
  | cons i is ih => exact .cons (fun q hq => (le_of_mem_placed hq).1) (ih _)

theorem pairwise_callPlaces (is : List (Instr τ)) : (callPlaces is).Pairwise (· < ·) := by
  refine pairwise_filterMap.2 ((pairwise_placed 0 is).imp fun {p q} hpq a ha b hb => ?_)
  have := p.2.size_pos
  split at ha <;> cases ha
  split at hb <;> cases hb
  omega

end Instr

/-- Entries of a record without claims have different offsets. -/
theorem SideRecord.Describes.nodup_pcs {τ : Type} {r : SideRecord} {count : Nat}
    {is : List (Instr τ)}
    (h : r.Describes count [] is) : (r.entries.toList.map SideEntry.pc).Nodup := by
  rw [nodup_iff_pairwise_ne, pairwise_map, pairwise_iff_getElem]
  intro i j hi hj hij heq
  refine Nat.ne_of_lt hij (h.distinct i j _ _ (not_mem_nil) (not_mem_nil) ?_ ?_ heq)
  · rw [← Array.getElem?_toList]
    exact getElem?_eq_getElem hi
  · rw [← Array.getElem?_toList]
    exact getElem?_eq_getElem hj

namespace SideTable

variable {τ : Type} {r : SideRecord} {count : Nat} {is : List (Instr τ)}

theorem mem_ofRecord {e : SideEntry} : e ∈ (ofRecord count r).entries ↔ e ∈ r.entries := by
  rw [ofRecord, mem_mergeSort, Array.mem_toList_iff]

section

variable (h : r.Describes count [] is)
include h

/-- Sorted entries with different offsets are strictly increasing. -/
theorem pairwise_ofRecord : ((ofRecord count r).entries.map SideEntry.pc).Pairwise (· < ·) := by
  have hsorted : (ofRecord count r).entries.Pairwise fun a b => decide (a.pc ≤ b.pc) = true :=
    pairwise_mergeSort (fun a b c hab hbc => by simp only [decide_eq_true_eq] at *; omega)
      (fun a b => by simp only [Bool.or_eq_true, decide_eq_true_eq]; omega) _
  have hdistinct : ((ofRecord count r).entries.map SideEntry.pc).Nodup :=
    ((mergeSort_perm _ _).map _).nodup_iff.2 h.nodup_pcs
  rw [pairwise_map]
  refine (hsorted.and (pairwise_map.1 hdistinct)).imp fun {a b} hab => ?_
  have hle := of_decide_eq_true hab.1
  have hne : a.pc ≠ b.pc := hab.2
  omega

theorem mem_pcs_ofRecord (pc : Nat) :
    pc ∈ (ofRecord count r).entries.map SideEntry.pc ↔ pc ∈ Instr.returnPlaces is := by
  rw [h.places, mem_map]
  constructor
  · rintro ⟨e, he, rfl⟩
    obtain ⟨k, hk, rfl⟩ := Array.getElem_of_mem (mem_ofRecord.1 he)
    exact ⟨k, _, not_mem_nil, Array.getElem?_eq_getElem hk, rfl⟩
  · rintro ⟨k, e, -, he, rfl⟩
    exact ⟨e, mem_ofRecord.2 (Array.mem_of_getElem? he), rfl⟩

theorem entryAt?_iff (pc : Nat) (e : SideEntry) :
    (ofRecord count r).entryAt? pc = some e ↔ e ∈ (ofRecord count r).entries ∧ e.pc = pc :=
  filter_eq_iff (pairwise_ofRecord h) pc e

end

end SideTable

/-- The tables of a compiled function match its code. There is a position for every call, in the
order of the code, so that the position found for an offset is that of the last call at or before
it. There is an entry of the side table for every place that a call other than that of the tracer
returns to, in the order of the code, so that an entry is found at these places and nowhere else,
and it tells where every local is. -/
theorem compiled_tables_match_code {module : Module} {sig : Signature} {body : Array UInt8}
    {decoderOptions : DecoderOptions} {options : CompileOptions} {f : CompiledFunction}
    (hcompile : compileFunction module sig body decoderOptions options = .ok f) :
    ∃ is : List (Instr Label), Instr.Fill f.code is ∧
      f.positions.toList.map SourcePosition.code = Instr.callPlaces is ∧
      (f.positions.toList.map SourcePosition.code).Pairwise (· < ·) ∧
      (∀ pc source, f.sourceAt? pc = some source ↔ ∃ p ∈ f.positions, p.source = source ∧
        p.code ≤ pc ∧ ∀ q ∈ f.positions, q.code ≤ pc → q.code ≤ p.code) ∧
          ∀ t, f.sideTable = some t →
        (t.entries.map SideEntry.pc).Pairwise (· < ·) ∧
        (∀ pc, pc ∈ t.entries.map SideEntry.pc ↔ pc ∈ Instr.returnPlaces is) ∧
        (∀ pc e, t.entryAt? pc = some e ↔ e ∈ t.entries ∧ e.pc = pc) ∧
        ∀ pc e, t.entryAt? pc = some e → ∀ i < t.numLocals,
          ∃ v, t.localAt? pc i = some v ∧ e.values[i]? = some v := by
  obtain ⟨s, body, -, rfl, h⟩ :=
    finished_of_compileFunction (Regime.fits_lax module sig decoderOptions) hcompile
  have hpositions : s.work.positions.toList.map SourcePosition.code = Instr.callPlaces _ :=
    h.tables.positions
  have hsorted : (s.work.positions.toList.map SourcePosition.code).Pairwise (· < ·) := by
    rw [hpositions]
    exact Instr.pairwise_callPlaces _
  refine ⟨s.listing (.ofNat s.emitter.frameSize) body, h.code.spells.toFill, hpositions, hsorted,
    fun pc source => ?_, fun t ht => ?_⟩
  · have hfound : (CompiledFunction.ofLowering s).sourceAt? pc =
        (match partitionPoint (fun i => s.work.positions.toList[i]?.any fun (p : SourcePosition) =>
          decide (p.code ≤ pc)) 0 s.work.positions.toList.length with
        | 0 => none
        | last + 1 => s.work.positions.toList[last]?).map SourcePosition.source := by
      simp only [CompiledFunction.sourceAt?, CompiledFunction.ofLowering, Array.getElem?_toList,
        Array.length_toList]
      generalize partitionPoint _ _ _ = point
      cases point <;> rfl
    rw [hfound, Option.map_eq_some_iff]
    constructor
    · rintro ⟨p, hp, rfl⟩
      obtain ⟨hmem, hle, hlast⟩ := (last_le_iff hsorted pc p).1 hp
      exact ⟨p, Array.mem_toList_iff.1 hmem, rfl, hle, fun q hq =>
        hlast q (Array.mem_toList_iff.2 hq)⟩
    · rintro ⟨p, hmem, rfl, hle, hlast⟩
      exact ⟨p, (last_le_iff hsorted pc p).2 ⟨Array.mem_toList_iff.2 hmem, hle, fun q hq =>
        hlast q (Array.mem_toList_iff.1 hq)⟩, rfl⟩
  · obtain ⟨r, hr, rfl⟩ := Option.map_eq_some_iff.1 ht
    obtain ⟨claimed, hclaimed, hdescribes⟩ := h.tables.entries r hr
    obtain rfl : claimed = [] := by simpa using hclaimed.symm
    refine ⟨SideTable.pairwise_ofRecord hdescribes, SideTable.mem_pcs_ofRecord hdescribes,
      SideTable.entryAt?_iff hdescribes, fun pc e he i hi => ?_⟩
    obtain ⟨hmem, -⟩ := (SideTable.entryAt?_iff hdescribes pc e).1 he
    have hlocals := hdescribes.locals e (SideTable.mem_ofRecord.1 hmem)
    have hlt : i < e.values.length := Nat.lt_of_lt_of_le hi hlocals
    refine ⟨e.values[i], ?_, getElem?_eq_getElem hlt⟩
    rw [SideTable.localAt?, if_pos hi, he, Option.bind_some]
    exact getElem?_eq_getElem hlt

/-- A quotient that is traced and stopped at: a breakpoint, a stack check and two traps besides the
call of the tracer. -/
theorem compiled_tables_match_code_quotient :
    let compiled := compileFunction {} ⟨[.i32, .i32], [.i32]⟩
      #[0x00, 0x20, 0x00, 0x20, 0x01, 0x6D, 0x0B] {} { traceEntry := true, breakpoints := [5] }
    ∃ (f : CompiledFunction) (t : SideTable), compiled = .ok f ∧ f.sideTable = some t ∧
      f.positions.size = 5 ∧ (f.positions.toList.map SourcePosition.code).Pairwise (· < ·) ∧
      (t.entries.map SideEntry.pc).Pairwise (· < ·) ∧
      ∀ pc e, t.entryAt? pc = some e ↔ e ∈ t.entries ∧ e.pc = pc := by
  intro compiled
  have hsize : compiled.toOption.map (·.positions.size) = some 5 := by decide +kernel
  have htable : compiled.toOption.map (·.sideTable.isSome) = some true := by decide +kernel
  cases hf : compiled with
  | error e =>
    rw [hf] at hsize
    cases hsize
  | ok f =>
    rw [hf] at hsize htable
    obtain ⟨t, ht⟩ := Option.isSome_iff_exists.1 (Option.some.inj htable)
    obtain ⟨is, -, -, hpositions, -, htables⟩ := compiled_tables_match_code hf
    obtain ⟨hsorted, -, hentry, -⟩ := htables t ht
    exact ⟨f, t, rfl, ht, Option.some.inj hsize, hpositions, hsorted, hentry⟩

end OnePass
