import Mathlib
import OnePass.Module
import OnePass.Proofs.Steps

/-!
What a module looks like after any declarations, refused ones among them. Functions and tags have
types that exist, imports come first, equal signatures share the smallest of their indices, and the
globals lie side by side.
-/
namespace OnePass

open List

namespace Module

/-! ## What one declaration does -/

/-- How a declaration of anything but a type changes a module, and what was checked before. -/
inductive Adds (m : Module) : Decl → Module → Prop
  | importFunction {type : Nat} (hknown : type < m.types.size)
    (hfirst : m.functions.size = m.importedFunctions) :
    Adds m (.importFunction type) { m with
      functions := m.functions.push type
      importedFunctions := m.importedFunctions + 1 }
  | function {type : Nat} (hknown : type < m.types.size) :
    Adds m (.function type) { m with functions := m.functions.push type }
  | importGlobal {ty : ValueType} {mutable : Bool} (hfirst : ∀ g ∈ m.globals, g.imported = true) :
    Adds m (.importGlobal ty mutable)
      (if mutable then m.pushIndirectGlobal ty else m.pushDirectGlobal ty false true)
  | global (ty : ValueType) (mutable : Bool) :
    Adds m (.global ty mutable) (m.pushDirectGlobal ty mutable false)
  | memory {limits : Limits} (hbound : limits.min ≤ maxMemoryPages)
    (hlimits : ∀ max, limits.max = some max → limits.min ≤ max) :
    Adds m (.memory limits) { m with memory := some limits }
  | table (elem : ValueType) (limits : Limits) :
    Adds m (.table elem limits) { m with tables := m.tables.push ⟨elem, limits⟩ }
  | tag {type : Nat} (hknown : type < m.types.size) :
    Adds m (.tag type) { m with tags := m.tags.push type }
  | elemSegment (ty : ValueType) :
    Adds m (.elemSegment ty) { m with elemSegments := m.elemSegments.push ty }
  | dataCount (count : Nat) : Adds m (.dataCount count) { m with dataCount := some count }

/-- How one declaration changes a module under construction. -/
inductive Extends (b : Builder) : Decl → Builder → Prop
  | type (sig : Signature) : Extends b (.type sig) (b.pushType sig)
  | other {d : Decl} {m : Module} (h : Adds b.module d m) : Extends b d { b with module := m }

theorem Adds.types {m m' : Module} {d : Decl} (h : Adds m d m') : m'.types = m.types := by
  cases h with
  | @importGlobal ty mutable => cases mutable <;> rfl
  | _ => rfl

variable {m m' : Module} {b b' : Builder} {α : Type}

/-- The step succeeds with such a module, or is refused and leaves the module as it was. -/
abbrev Builds (x : BuildM α) (b : Builder) (post : Builder → Prop) : Prop :=
  Settles (fun _ b' => b' = b) x b fun _ => post

section

variable {fail : BuildError → Builder → Prop} {k : Module → BuildM α} {post : α → Builder → Prop}

theorem current_bind (h : Settles fail (k b.module) b post) : Settles fail (current >>= k) b post :=
  ⟨fun a b' hr => h.ends a b' hr, fun e b' hr => h.refused e b' hr⟩

/-- Once something is added nothing is refused any more. -/
theorem change_done {f : Module → Module} {a : α} {post : Builder → Prop}
    (h : post { b with module := f b.module }) :
    Settles fail (do change f; return a) b fun _ => post :=
  .modify_bind (.of_pure h)

end

theorem requireType_builds (type : Nat) :
    Builds (requireType type) b fun b' => b' = b ∧ type < b.module.types.size :=
  current_bind (.ite (fun _ => .of_throw rfl) fun hlt => .of_pure ⟨rfl, Nat.not_le.1 hlt⟩)

theorem checkLimits_builds (limits : Limits) (bound : Nat) :
    Builds (checkLimits limits bound) b fun b' => b' = b ∧ limits.min ≤ bound ∧
      ∀ max, limits.max = some max → limits.min ≤ max := by
  unfold checkLimits
  refine .guard rfl fun hbound => ?_
  dsimp only
  split
  next hmax => exact .of_pure ⟨rfl, Nat.not_lt.1 hbound, fun max h => by cases hmax.symm.trans h⟩
  next max hmax =>
    refine .ite (fun _ => .of_throw rfl) fun hlimits => .of_pure ⟨rfl, Nat.not_lt.1 hbound, ?_⟩
    rintro max' h
    cases hmax.symm.trans h
    exact Nat.not_lt.1 hlimits

theorem declare_builds (d : Decl) : Builds (declare d) b (Extends b d) := by
  cases d with
  | type sig => exact current_bind (.modify_bind (.of_pure (.type sig)))
  | importFunction type =>
    exact .look (requireType_builds type) fun _ hknown => current_bind (.guard rfl fun hfirst =>
      .modify_bind (current_bind
        (change_done (.other (.importFunction hknown (not_not.1 hfirst))))))
  | function type =>
    exact .look (requireType_builds type) fun _ hknown =>
      current_bind (change_done (.other (.function hknown)))
  | importGlobal ty mutable =>
    refine current_bind (.guard rfl fun hfirst =>
      change_done (.other (.importGlobal fun g hg => ?_)))
    by_contra hdefined
    exact hfirst (Array.any_eq_true'.2 ⟨g, hg, by simpa using hdefined⟩)
  | global ty mutable => exact current_bind (change_done (.other (.global ty mutable)))
  | memory limits =>
    exact current_bind (.guard rfl fun _ => .look (checkLimits_builds _ _) fun _ h =>
      change_done (.other (.memory h.1 h.2)))
  | table elem limits =>
    unfold declare
    exact .guard rfl fun _ => .look (checkLimits_builds _ _) fun _ _ =>
      current_bind (change_done (.other (.table elem limits)))
  | tag type =>
    exact .look (requireType_builds type) fun _ hknown =>
      current_bind (change_done (.other (.tag hknown)))
  | elemSegment ty =>
    unfold declare
    exact .guard rfl fun _ => current_bind (change_done (.other (.elemSegment ty)))
  | dataCount count => exact change_done (.other (.dataCount count))

/-! ## Types and their numbers -/

/-- Each type has a number: the smallest index with the same signature. -/
structure Numbered (types : Array Signature) (ids : Array Nat) : Prop where
  size : ids.size = types.size
  smallest : ∀ i id : Nat, ids[i]? = some id →
    types[id]? = types[i]? ∧ ∀ j : Nat, types[j]? = types[i]? → id ≤ j

namespace Numbered

variable {types : Array Signature} {ids : Array Nat} {sig : Signature}

/-- Two types have one number exactly if they are equal. -/
theorem eq_iff (h : Numbered types ids) {i j : Nat} (hi : i < types.size) (hj : j < types.size) :
    ids[i]? = ids[j]? ↔ types[i]? = types[j]? := by
  obtain ⟨a, ha⟩ : ∃ a, ids[i]? = some a := ⟨_, Array.getElem?_eq_getElem (h.size ▸ hi)⟩
  obtain ⟨b, hb⟩ : ∃ b, ids[j]? = some b := ⟨_, Array.getElem?_eq_getElem (h.size ▸ hj)⟩
  obtain ⟨hsame, hleast⟩ := h.smallest i a ha
  obtain ⟨hsame', hleast'⟩ := h.smallest j b hb
  constructor
  · intro heq
    rw [ha, hb, Option.some.injEq] at heq
    rw [← hsame, heq, hsame']
  · intro heq
    have hab : a ≤ b := hleast b (hsame'.trans heq.symm)
    have hba : b ≤ a := hleast' a (hsame.trans heq)
    rw [ha, hb, Nat.le_antisymm hab hba]

/-- The number is the index of the first type with that signature. -/
def IsFirst (types : Array Signature) (sig : Signature) (id : Nat) : Prop :=
  types[id]? = some sig ∧ ∀ j : Nat, types[j]? = some sig → id ≤ j

theorem isFirst_push_iff {sig' : Signature} {id : Nat} : IsFirst (types.push sig) sig' id ↔
    IsFirst types sig' id ∨ sig' = sig ∧ id = types.size ∧ sig ∉ types := by
  have hget (i : Nat) : (types.push sig)[i]? = some sig' ↔
      types[i]? = some sig' ∨ i = types.size ∧ sig = sig' := by
    rw [Array.getElem?_push]
    split
    next heq => simp [heq]
    next hne => simp [hne]
  simp only [IsFirst, hget]
  constructor
  · rintro ⟨hid | ⟨rfl, rfl⟩, hleast⟩
    · exact .inl ⟨hid, fun j hj => hleast j (.inl hj)⟩
    · refine .inr ⟨rfl, rfl, fun hmem => ?_⟩
      obtain ⟨j, hlt, hj⟩ := Array.mem_iff_getElem.1 hmem
      have hle := hleast j (.inl (by rw [Array.getElem?_eq_getElem hlt, hj]))
      omega
  · rintro (⟨hid, hleast⟩ | ⟨rfl, rfl, habsent⟩)
    · have hlt := (Array.getElem?_eq_some_iff.1 hid).1
      exact ⟨.inl hid, fun j hj => hj.elim (hleast j) fun hj => by omega⟩
    · exact ⟨.inr ⟨rfl, rfl⟩, fun j hj => hj.elim
        (fun hj => (habsent (Array.mem_of_getElem? hj)).elim) fun hj => hj.1.ge⟩

/-- A new type gets the number of the first one with that signature. -/
theorem push (h : Numbered types ids) {id : Nat} (hid : IsFirst (types.push sig) sig id) :
    Numbered (types.push sig) (ids.push id) := by
  have hold {i : Nat} (hi : i < types.size) : (types.push sig)[i]? = types[i]? := by
    rw [Array.getElem?_push, if_neg (Nat.ne_of_lt hi)]
  refine ⟨by rw [Array.size_push, Array.size_push, h.size], fun i id' hid' => ?_⟩
  rw [Array.getElem?_push] at hid'
  split at hid'
  next heq =>
    rw [heq, h.size, Array.getElem?_push_size, ← Option.some.inj hid']
    exact hid
  next =>
    have hi : i < types.size := h.size ▸ (Array.getElem?_eq_some_iff.1 hid').1
    obtain ⟨hsame, hleast⟩ := h.smallest i id' hid'
    rw [Array.getElem?_eq_getElem hi] at hsame hleast
    rw [hold hi, Array.getElem?_eq_getElem hi]
    exact isFirst_push_iff.2 (.inl ⟨hsame, hleast⟩)

/-- The builder knows the numbers of all signatures. -/
def Numbers (canonical : List (Signature × Nat)) (types : Array Signature) : Prop :=
  ∀ sig id, canonical.lookup sig = some id ↔ IsFirst types sig id

theorem Numbers.push {canonical : List (Signature × Nat)} (h : Numbers canonical types)
    (sig : Signature) : IsFirst (types.push sig) sig (numberOr canonical sig types.size).1 ∧
      Numbers (numberOr canonical sig types.size).2 (types.push sig) := by
  unfold numberOr
  split
  next id hid =>
    have hfirst := (h sig id).1 hid
    refine ⟨isFirst_push_iff.2 (.inl hfirst), fun sig' id' => ?_⟩
    rw [h, isFirst_push_iff, or_iff_left]
    exact fun hnew => hnew.2.2 (Array.mem_of_getElem? hfirst.1)
  next hnone =>
    have habsent : sig ∉ types := by
      intro hmem
      obtain ⟨j, hlt, hj⟩ := Array.mem_iff_getElem.1 hmem
      have hexists : ∃ j : Nat, types[j]? = some sig :=
        ⟨j, by rw [Array.getElem?_eq_getElem hlt, hj]⟩
      have hfound := (h sig _).2 ⟨Nat.find_spec hexists, fun j hj => Nat.find_min' hexists hj⟩
      rw [hnone] at hfound
      cases hfound
    refine ⟨isFirst_push_iff.2 (.inr ⟨rfl, rfl, habsent⟩), fun sig' id' => ?_⟩
    rw [isFirst_push_iff, ← h, lookup_cons]
    by_cases heq : sig' = sig
    · simp [heq, hnone, habsent, eq_comm]
    · simp [heq, beq_false_of_ne heq]

end Numbered

/-! ## The layout of globals -/

/-- Imported globals come first. Those reached through the pointer table are numbered in order, and
the slots of the others lie one after another, aligned, in the first `size` bytes. -/
structure Laid (globals : Array Global) (size pointers : Nat) : Prop where
  imports : ∀ (i j : Nat) (g g' : Global), globals[i]? = some g → globals[j]? = some g' →
    g.imported = true → g'.imported = false → i < j
  aligned : ∀ g ∈ globals, g.isIndirect = false → slotSizeOf g.ty ∣ g.offset
  inside : ∀ g ∈ globals, g.isIndirect = false → g.offset + slotSizeOf g.ty ≤ size
  disjoint : ∀ (i j : Nat) (g g' : Global), globals[i]? = some g → globals[j]? = some g' → i < j →
    g.isIndirect = false → g'.isIndirect = false → g.offset + slotSizeOf g.ty ≤ g'.offset
  indirect : (globals.toList.filter Global.isIndirect).map Global.offset = range pointers

theorem slotSizeOf_pos (ty : ValueType) : 0 < slotSizeOf ty :=
  Nat.lt_of_lt_of_le (by decide) (Nat.le_max_right _ globalSlotSize)

namespace Laid

variable {globals : Array Global} {size pointers : Nat} {g new : Global}

/-- What holds of a position after a push holds of it before, or it is the new one. -/
theorem getElem?_push_cases {i : Nat} (h : (globals.push new)[i]? = some g) :
    i = globals.size ∧ g = new ∨ i < globals.size ∧ globals[i]? = some g := by
  rw [Array.getElem?_push] at h
  split at h
  next heq => exact .inl ⟨heq, (Option.some.inj h).symm⟩
  next => exact .inr ⟨(Array.getElem?_eq_some_iff.1 h).1, h⟩

section

variable (h : Laid globals size pointers)
include h

/-- An import is only added to imports. -/
theorem imports_push
    (hfirst : new.imported = true → ∀ g ∈ globals, g.imported = true) (i j : Nat) (g g' : Global)
    (hi : (globals.push new)[i]? = some g) (hj : (globals.push new)[j]? = some g')
    (himported : g.imported = true) (hdefined : g'.imported = false) : i < j := by
  rcases getElem?_push_cases hj with ⟨rfl, rfl⟩ | ⟨-, hj'⟩
  · rcases getElem?_push_cases hi with ⟨rfl, rfl⟩ | ⟨hlt, -⟩
    · simp [himported] at hdefined
    · exact hlt
  · rcases getElem?_push_cases hi with ⟨rfl, rfl⟩ | ⟨-, hi'⟩
    · simp [hfirst himported g' (Array.mem_of_getElem? hj')] at hdefined
    · exact h.imports i j g g' hi' hj' himported hdefined

theorem push_direct {ty : ValueType} {mutable imported : Bool}
    (hdirect : (imported && mutable) = false)
    (hfirst : imported = true → ∀ g ∈ globals, g.imported = true) :
    Laid (globals.push ⟨ty, mutable, imported, roundUp size (slotSizeOf ty)⟩)
      (roundUp size (slotSizeOf ty) + slotSizeOf ty) pointers := by
  have hle : size ≤ roundUp size (slotSizeOf ty) := le_roundUp _ (slotSizeOf_pos ty)
  refine ⟨h.imports_push hfirst, fun g hg hg' => ?_, fun g hg hg' => ?_,
    fun i j g g' hi hj hij hg hg' => ?_, ?_⟩
  · rcases Array.mem_push.1 hg with hg | rfl
    · exact h.aligned g hg hg'
    · exact dvd_roundUp _ _
  · rcases Array.mem_push.1 hg with hg | rfl
    · exact Nat.le_trans (h.inside g hg hg') (Nat.le_trans hle (Nat.le_add_right _ _))
    · exact Nat.le_refl _
  · rcases getElem?_push_cases hj with ⟨rfl, rfl⟩ | ⟨hlt, hj⟩
    · rcases getElem?_push_cases hi with ⟨rfl, rfl⟩ | ⟨-, hi⟩
      · exact (Nat.lt_irrefl _ hij).elim
      · exact Nat.le_trans (h.inside g (Array.mem_of_getElem? hi) hg) hle
    · rcases getElem?_push_cases hi with ⟨rfl, rfl⟩ | ⟨-, hi⟩
      · exact (Nat.lt_asymm hij hlt).elim
      · exact h.disjoint i j g g' hi hj hij hg hg'
  · rw [Array.toList_push, filter_append, filter_cons_of_neg (by simpa [Global.isIndirect]
      using hdirect), filter_nil, append_nil]
    exact h.indirect

theorem push_indirect (ty : ValueType) (hfirst : ∀ g ∈ globals, g.imported = true) :
    Laid (globals.push ⟨ty, true, true, pointers⟩) size (pointers + 1) := by
  refine ⟨h.imports_push fun _ => hfirst, fun g hg hg' => ?_, fun g hg hg' => ?_,
    fun i j g g' hi hj hij hg hg' => ?_, ?_⟩
  · rcases Array.mem_push.1 hg with hg | rfl
    · exact h.aligned g hg hg'
    · cases hg'
  · rcases Array.mem_push.1 hg with hg | rfl
    · exact h.inside g hg hg'
    · cases hg'
  · rcases getElem?_push_cases hj with ⟨rfl, rfl⟩ | ⟨-, hj⟩
    · cases hg'
    · rcases getElem?_push_cases hi with ⟨rfl, rfl⟩ | ⟨-, hi⟩
      · cases hg
      · exact h.disjoint i j g g' hi hj hij hg hg'
  · rw [Array.toList_push, filter_append, map_append, h.indirect, range_succ]
    rfl

end

end Laid

/-! ## Functions and tags -/

/-- The function that a declaration adds: its type and whether it is imported. -/
def Decl.function? : Decl → Option (Nat × Bool)
  | .importFunction index => some (index, true)
  | .function index => some (index, false)
  | _ => none

/-- The functions are those that were declared, the imported ones first. -/
structure Lists (declared : List (Nat × Bool)) (functions : Array Nat) (imported : Nat) : Prop where
  same : ∀ i : Nat, declared[i]? = functions[i]?.map fun type => (type, decide (i < imported))
  fit : imported ≤ functions.size

namespace Lists

variable {declared : List (Nat × Bool)} {functions : Array Nat} {imported : Nat}

theorem length (h : Lists declared functions imported) : declared.length = functions.size := by
  have hlt := h.same declared.length
  have hge := h.same functions.size
  rw [getElem?_eq_none (Nat.le_refl _), eq_comm, Option.map_eq_none_iff,
    Array.getElem?_eq_none_iff] at hlt
  rw [Array.getElem?_eq_none (Nat.le_refl _), Option.map_none, List.getElem?_eq_none_iff] at hge
  exact Nat.le_antisymm hge hlt

/-- Another function: an import as long as all are, or a definition. -/
theorem push (h : Lists declared functions imported) (type : Nat) {isImport : Bool}
    (hfirst : isImport = true → functions.size = imported) :
    Lists (declared ++ [(type, isImport)]) (functions.push type)
      (if isImport then imported + 1 else imported) := by
  refine ⟨fun i => ?_, ?_⟩
  · rw [Array.getElem?_push, getElem?_append, h.length]
    rcases Nat.lt_trichotomy i functions.size with hlt | rfl | hgt
    · rw [if_pos hlt, if_neg (Nat.ne_of_lt hlt), h.same]
      cases isImport with
      | false => rfl
      | true =>
        have hsize := hfirst rfl
        rw [show decide (i < imported) = true by simp; omega,
          show decide (i < if true = true then imported + 1 else imported) = true by simp; omega]
    · rw [if_neg (Nat.lt_irrefl _), if_pos rfl, Nat.sub_self]
      have hfit := h.fit
      cases isImport with
      | false => simp; omega
      | true => simp [hfirst rfl]
    · rw [if_neg (Nat.lt_asymm hgt), if_neg (Nat.ne_of_gt hgt),
        Array.getElem?_eq_none (Nat.le_of_lt hgt), Option.map_none, getElem?_eq_none]
      simp
      omega
  · rw [Array.size_push]
    have hfit := h.fit
    split <;> omega

end Lists

/-- Every index of a type is one of a type that exists. -/
theorem lt_push {indices : Array Nat} {bound new : Nat} (h : ∀ i ∈ indices, i < bound)
    (hnew : new < bound) : ∀ i ∈ indices.push new, i < bound := by
  intro i hi
  rcases Array.mem_push.1 hi with hi | rfl
  · exact h i hi
  · exact hnew

/-! ## Coherence -/

/-- A module that comes from the declarations `history`. -/
structure Coherent (m : Module) (history : List Decl) : Prop where
  functionTypes : ∀ type ∈ m.functions, type < m.types.size
  tagTypes : ∀ type ∈ m.tags, type < m.types.size
  functions : Lists (history.filterMap Decl.function?) m.functions m.importedFunctions
  numbered : Numbered m.types m.canonicalIds
  laid : Laid m.globals m.globalsSize m.importedMutableGlobals
  memory : ∀ limits, m.memory = some limits → limits.min ≤ maxMemoryPages ∧
    ∀ max, limits.max = some max → limits.min ≤ max

theorem coherent_empty : Coherent {} [] where
  functionTypes := nofun
  tagTypes := nofun
  functions := ⟨fun _ => rfl, Nat.le_refl _⟩
  numbered := ⟨rfl, nofun⟩
  laid := ⟨nofun, nofun, nofun, nofun, rfl⟩
  memory := nofun

variable {history : List Decl} {d : Decl} {e : BuildError}

/-- A declaration that adds no function. -/
theorem Coherent.history_append (h : m.Coherent history) (hd : d.function? = none) :
    m.Coherent (history ++ [d]) where
  functionTypes := h.functionTypes
  tagTypes := h.tagTypes
  functions := by
    rw [filterMap_append, filterMap_cons_none hd, filterMap_nil, append_nil]
    exact h.functions
  numbered := h.numbered
  laid := h.laid
  memory := h.memory

theorem Coherent.adds (h : m.Coherent history) (hd : Adds m d m') :
    m'.Coherent (history ++ [d]) := by
  have hadd {index : Nat} {isImport : Bool} (hfunction : d.function? = some (index, isImport))
      (hfirst : isImport = true → m.functions.size = m.importedFunctions) :
      Lists ((history ++ [d]).filterMap Decl.function?) (m.functions.push index)
        (if isImport then m.importedFunctions + 1 else m.importedFunctions) := by
    rw [filterMap_append, filterMap_cons_some hfunction]
    exact h.functions.push index hfirst
  have hkeep (hfunction : d.function? = none) := h.history_append hfunction
  cases hd with
  | importFunction hknown hfirst =>
    exact ⟨lt_push h.functionTypes hknown, h.tagTypes, hadd rfl fun _ => hfirst,
      h.numbered, h.laid, h.memory⟩
  | function hknown =>
    exact ⟨lt_push h.functionTypes hknown, h.tagTypes, hadd rfl nofun, h.numbered, h.laid, h.memory⟩
  | @importGlobal ty mutable hfirst =>
    cases mutable with
    | true => exact { hkeep rfl with laid := h.laid.push_indirect ty hfirst }
    | false => exact { hkeep rfl with laid := h.laid.push_direct rfl fun _ => hfirst }
  | global ty mutable => exact { hkeep rfl with laid := h.laid.push_direct rfl nofun }
  | memory hbound hlimits =>
    refine { hkeep rfl with memory := fun limits hmemory => ?_ }
    cases hmemory
    exact ⟨hbound, hlimits⟩
  | tag hknown => exact { hkeep rfl with tagTypes := lt_push h.tagTypes hknown }
  | table | elemSegment | dataCount => exact { hkeep rfl with }

/-- A builder that comes from the declarations `history`. -/
structure Builder.Coherent (b : Builder) (history : List Decl) : Prop
    extends b.module.Coherent history where
  canonical : Numbered.Numbers b.canonical b.module.types

theorem Builder.coherent_empty : Builder.Coherent {} [] :=
  ⟨Module.coherent_empty, fun _ _ => ⟨by rintro ⟨⟩, fun h => by cases h.1⟩⟩

theorem Builder.Coherent.extends (h : b.Coherent history) (hd : Extends b d b') :
    b'.Coherent (history ++ [d]) := by
  cases hd with
  | type sig =>
    have hgrow : ∀ i, i < b.module.types.size → i < (b.module.types.push sig).size := fun i hi => by
      rw [Array.size_push]
      omega
    obtain ⟨hfirst, hcanonical⟩ := h.canonical.push sig
    exact { h.toCoherent.history_append rfl with
      functionTypes := fun i hi => hgrow i (h.functionTypes i hi)
      tagTypes := fun i hi => hgrow i (h.tagTypes i hi)
      numbered := h.numbered.push hfirst
      canonical := hcanonical }
  | other hadds => exact ⟨h.toCoherent.adds hadds, hadds.types ▸ h.canonical⟩

/-! ## Sequences of declarations -/

/-- The declarations that were not refused, in order. -/
def accepted (b : Builder) (decls : List Decl) : List Decl :=
  ((decls.zip (declareAll b decls).2).filter (·.2.isOk)).map Prod.fst

variable {ds : List Decl}

theorem accepted_cons_ok {answer : Option Nat} (hd : (declare d).run.run b = (.ok answer, b')) :
    accepted b (d :: ds) = d :: accepted b' ds ∧
      (declareAll b (d :: ds)).1 = (declareAll b' ds).1 := by
  simp [accepted, declareAll, hd, Except.isOk, Except.toBool]

theorem accepted_cons_error (hd : (declare d).run.run b = (.error e, b')) :
    accepted b (d :: ds) = accepted b' ds ∧ (declareAll b (d :: ds)).1 = (declareAll b' ds).1 := by
  simp [accepted, declareAll, hd, Except.isOk, Except.toBool]

/-- The invariant carries over from one declaration to all. -/
theorem Builder.Coherent.declareAll (h : b.Coherent history) (decls : List Decl) :
    (declareAll b decls).1.Coherent (history ++ accepted b decls) := by
  induction decls generalizing b history with
  | nil => simpa [accepted, Module.declareAll] using h.toCoherent
  | cons d ds ih =>
    rcases hd : (declare d).run.run b with ⟨e | answer, b'⟩
    · rw [(accepted_cons_error hd).1, (accepted_cons_error hd).2]
      obtain rfl := (declare_builds d).refused e b' hd
      exact ih h
    · rw [(accepted_cons_ok hd).1, (accepted_cons_ok hd).2]
      have hadded := h.extends ((declare_builds d).ends answer b' hd)
      simpa using ih hadded

/-- Refused declarations might as well not have been made. -/
theorem run_accepted (b : Builder) (decls : List Decl) : ∃ b',
    ((accepted b decls).forM fun d => discard (declare d)).run.run b = (.ok (), b') ∧
      b'.module = (declareAll b decls).1 := by
  induction decls generalizing b with
  | nil => exact ⟨b, rfl, rfl⟩
  | cons d ds ih =>
    rcases hd : (declare d).run.run b with ⟨e | answer, b'⟩
    · rw [(accepted_cons_error hd).1, (accepted_cons_error hd).2]
      obtain rfl := (declare_builds d).refused e b' hd
      exact ih b'
    · rw [(accepted_cons_ok hd).1, (accepted_cons_ok hd).2]
      have hrun : (discard (declare d)).run.run b = (.ok (), b') := by
        show ((fun _ => ()) <$> declare d : BuildM Unit).run.run b = _
        rw [ExceptT.run_map, StateT.run_map, hd]
        rfl
      simp only [List.forM, ExceptT.run_bind, StateT.run_bind, hrun]
      exact ih b'

theorem ofDecls_accepted (decls : List Decl) :
    ofDecls (accepted {} decls) = .ok (declareAll {} decls).1 := by
  obtain ⟨b, hrun, hmodule⟩ := run_accepted {} decls
  rw [ofDecls, hrun, ← hmodule]
  rfl

theorem Coherent.memorySizes (h : m.Coherent history) :
    m.minMemorySize ≤ m.maxMemorySize ∧ m.maxMemorySize ≤ 2 ^ 32 := by
  unfold minMemorySize maxMemorySize
  split
  next => simp
  next limits hmemory =>
    obtain ⟨hbound, hlimits⟩ := h.memory limits hmemory
    have hmin : limits.min ≤ min (limits.max.getD maxMemoryPages) maxMemoryPages := by
      cases hmax : limits.max with
      | none => simpa using hbound
      | some max => exact Nat.le_min.2 ⟨hlimits max hmax, hbound⟩
    exact ⟨Nat.mul_le_mul_right _ hmin, Nat.mul_le_mul_right pageSize (Nat.min_le_right _ _)⟩

/-- Whatever is declared in whatever order: a refused declaration changes nothing; functions and
tags have types that exist, and the imported functions are the first ones; types share a number
exactly if they are equal, and it is the smallest index with that signature; imported globals
precede defined ones, the slots of those stored directly are aligned, inside the area of globals and
apart from each other, and the pointer indices of the others count up from zero; the memory may not
shrink and has at most four gigabytes. -/
theorem declarations_keep_modules_coherent (decls : List Decl) :
    let m := (declareAll {} decls).1
    (∀ (b b' : Builder) (d : Decl) (e : BuildError),
      (declare d).run.run b = (.error e, b') → b' = b) ∧
    ofDecls (accepted {} decls) = .ok m ∧
    (∀ type ∈ m.functions, (m.signature? type).isSome) ∧
    (∀ type ∈ m.tags, (m.signature? type).isSome) ∧
    m.importedFunctions ≤ m.functions.size ∧
    (∀ i : Nat, ((accepted {} decls).filterMap Decl.function?)[i]? =
      (m.functionType? i).map fun type => (type, m.isImportedFunction i)) ∧
    (∀ i j : Nat, i < m.types.size → j < m.types.size →
      (m.canonicalId? i = m.canonicalId? j ↔ m.signature? i = m.signature? j)) ∧
    (∀ i : Nat, i < m.types.size → ∃ id, m.canonicalId? i = some id ∧
      m.signature? id = m.signature? i ∧ ∀ j, m.signature? j = m.signature? i → id ≤ j) ∧
    (∀ (i j : Nat) (g g' : Global), m.globals[i]? = some g → m.globals[j]? = some g' →
      g.imported = true → g'.imported = false → i < j) ∧
    (∀ g ∈ m.globals, g.isIndirect = false →
      slotSizeOf g.ty ∣ g.offset ∧ g.offset + slotSizeOf g.ty ≤ m.globalsSize) ∧
    (∀ (i j : Nat) (g g' : Global), m.globals[i]? = some g → m.globals[j]? = some g' → i ≠ j →
      g.isIndirect = false → g'.isIndirect = false →
      g.offset + slotSizeOf g.ty ≤ g'.offset ∨ g'.offset + slotSizeOf g'.ty ≤ g.offset) ∧
    (m.globals.toList.filter Global.isIndirect).map Global.offset =
      List.range m.importedMutableGlobals ∧
    m.minMemorySize ≤ m.maxMemorySize ∧ m.maxMemorySize ≤ 2 ^ 32 := by
  intro m
  have h : m.Coherent (accepted {} decls) := by simpa using Builder.coherent_empty.declareAll decls
  have hsome {type : Nat} (hlt : type < m.types.size) : (m.signature? type).isSome := by
    simpa [signature?] using hlt
  refine ⟨fun b b' d e hd => (declare_builds d).refused e b' hd, ofDecls_accepted decls,
    fun type htype => hsome (h.functionTypes type htype),
    fun type htype => hsome (h.tagTypes type htype), h.functions.fit, h.functions.same,
    fun i j hi hj => h.numbered.eq_iff hi hj, fun i hi => ?_, h.laid.imports,
    fun g hg hdirect => ⟨h.laid.aligned g hg hdirect, h.laid.inside g hg hdirect⟩,
    fun i j g g' hi hj hne hg hg' => ?_, h.laid.indirect, h.memorySizes⟩
  · have hid : m.canonicalIds[i]? = some _ := Array.getElem?_eq_getElem (h.numbered.size ▸ hi)
    exact ⟨_, hid, h.numbered.smallest i _ hid⟩
  · rcases Nat.lt_or_gt_of_ne hne with hlt | hgt
    · exact .inl (h.laid.disjoint i j g g' hi hj hlt hg hg')
    · exact .inr (h.laid.disjoint j i g' g hj hi hgt hg' hg)

end Module

end OnePass
