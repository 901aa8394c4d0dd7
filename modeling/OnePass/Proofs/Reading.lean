import OnePass.Proofs.OutlineConstructs

/-!
What reading an instruction depends on and what it can yield. Of the open constructs only their
number matters, and no immediate stands for `bottom` if the module declares none.
-/
namespace OnePass

variable {scope : Scope} {op : Opcode} {locals found : Array ValueType}

/-- No parameter or result is `bottom`. -/
structure Signature.NoBottom (sig : Signature) : Prop where
  params : .bottom ∉ sig.params
  results : .bottom ∉ sig.results

/-- No type that the module declares is `bottom`. -/
structure Module.NoBottom (m : Module) : Prop where
  types : ∀ sig ∈ m.types, sig.NoBottom
  globals : ∀ g ∈ m.globals, g.ty ≠ .bottom
  tables : ∀ t ∈ m.tables, t.elemType ≠ .bottom
  elemSegments : .bottom ∉ m.elemSegments

variable {r r' : Reader}

namespace Reader

variable {α β : Type}

/-- The reader yields a value and moves on to another position. -/
def Reads (m : ReadM α) (r : Reader) (a : α) (r' : Reader) : Prop := m.run.run r = (.ok a, r')

@[simp] theorem reads_pure (a b : α) (r r' : Reader) : Reads (pure a) r b r' ↔ b = a ∧ r' = r := by
  constructor
  · intro h
    cases h
    exact ⟨rfl, rfl⟩
  · rintro ⟨rfl, rfl⟩
    rfl

theorem run_run_bind (m : ReadM α) (k : α → ReadM β) (r : Reader) :
    (m >>= k).run.run r = match m.run.run r with
      | (.ok a, r₁) => (k a).run.run r₁
      | (.error e, r₁) => (.error e, r₁) := by
  simp only [bind, ExceptT.bind, ExceptT.mk, ExceptT.run, StateT.bind, StateT.run, ExceptT.bindCont]
  rcases m r with ⟨_ | a, r₁⟩ <;> rfl

theorem reads_bind (m : ReadM α) (k : α → ReadM β) (r r' : Reader) (b : β) :
    Reads (m >>= k) r b r' ↔ ∃ a r₁, Reads m r a r₁ ∧ Reads (k a) r₁ b r' := by
  unfold Reads
  rw [run_run_bind]
  constructor
  · intro h
    rcases hm : m.run.run r with ⟨e | a, r₁⟩ <;> rw [hm] at h
    · cases h
    · exact ⟨a, r₁, rfl, h⟩
  · rintro ⟨a, r₁, hm, hk⟩
    rw [hm]
    exact hk

@[simp] theorem not_reads_failAt (offset : Nat) (fault : DecodeFault) (r r' : Reader) (a : α) :
    ¬ Reads (failAt offset fault) r a r' := by
  intro h
  cases h

namespace Reads

variable {m : ReadM α} {a : α} {b : β}

theorem of_bind {k : α → ReadM β} (h : Reads (m >>= k) r b r') :
    ∃ a r₁, Reads m r a r₁ ∧ Reads (k a) r₁ b r' :=
  (reads_bind _ _ _ _ _).1 h

theorem of_pure {b : α} (h : Reads (Pure.pure a) r b r') :
    b = a ∧ r' = r := (reads_pure _ _ _ _).1 h

theorem of_map {f : α → β} (h : Reads (m >>= fun a => Pure.pure (f a)) r b r') :
    ∃ a r₁, Reads m r a r₁ ∧ b = f a := by
  obtain ⟨a, r₁, hm, h⟩ := h.of_bind
  exact ⟨a, r₁, hm, h.of_pure.1⟩

theorem of_failAt {offset : Nat} {fault : DecodeFault} {p : Prop}
    (h : Reads (failAt offset fault) r b r') : p :=
  (not_reads_failAt _ _ _ _ _ h).elim

end Reads

theorem reads_get (r a r' : Reader) : Reads get r a r' ↔ a = r ∧ r' = r := by
  constructor
  · intro h
    cases h
    exact ⟨rfl, rfl⟩
  · rintro ⟨rfl, rfl⟩
    rfl

theorem reads_get_bind {k : Reader → ReadM α} {a : α} :
    Reads (MonadState.get >>= k) r a r' ↔ Reads (k r) r a r' := by
  rw [reads_bind]
  constructor
  · rintro ⟨_, _, hget, h⟩
    obtain ⟨rfl, rfl⟩ := (reads_get _ _ _).1 hget
    exact h
  · exact fun h => ⟨r, r, (reads_get _ _ _).2 ⟨rfl, rfl⟩, h⟩

/-- A byte is read where there is one, and one only. -/
theorem reads_readU8 {what : String} {byte : UInt8}
    (h : Reads (readU8 what) r byte r') : r.peek? = some byte ∧ r' = ⟨r.bytes, r.pos + 1⟩ := by
  simp only [readU8, reads_bind, reads_get] at h
  obtain ⟨_, _, ⟨rfl, rfl⟩, h⟩ := h
  split at h
  next byte' hbyte =>
    cases h
    exact ⟨hbyte, rfl⟩
  next => exact h.of_failAt

end Reader

open Reader

variable {s : Scope} {features : FeatureSet} {sig : Signature} {m : Module}

namespace Scope

theorem ne_bottom_of_readValueType {what : String}
    {ty : ValueType} (h : Reads (readValueType features what) r ty r') : ty ≠ .bottom := by
  simp only [readValueType, reads_bind] at h
  obtain ⟨_, _, -, _, _, -, h⟩ := h
  split at h
  next found hfound =>
    obtain ⟨rfl, -⟩ := h.of_pure
    rintro rfl
    simp [Option.filter_eq_some_iff, typeEnabled] at hfound
  next => exact h.of_failAt

theorem lookup_of_readIndex {α : Type} {noun what : String} {lookup : Nat → Option α}
    {found : Nat × α} (h : Reads (s.readIndex noun what lookup) r found r') :
    lookup found.1 = some found.2 := by
  simp only [readIndex, reads_bind] at h
  obtain ⟨index, _, -, h⟩ := h
  split at h
  next a ha =>
    obtain ⟨rfl, -⟩ := h.of_pure
    exact ha
  next => exact h.of_failAt

theorem noBottom_of_signature? (hm : m.NoBottom) {index : Nat}
    (h : m.signature? index = some sig) : sig.NoBottom :=
  hm.types sig (Array.mem_of_getElem? h)

theorem noBottom_of_readBlockType (hm : s.module.NoBottom)
    {type : BlockType} (h : Reads s.readBlockType r type r') :
      .bottom ∉ type.params ++ type.results := by
  simp only [readBlockType, reads_bind] at h
  obtain ⟨r₀, _, -, h⟩ := h
  split at h
  next => exact h.of_failAt
  next byte _ =>
    split at h
    next =>
      obtain ⟨_, _, -, rfl⟩ := h.of_map
      exact List.not_mem_nil
    next =>
      split at h
      next =>
        obtain ⟨ty, _, hty, rfl⟩ := h.of_map
        simpa using (ne_bottom_of_readValueType hty).symm
      next =>
        obtain ⟨index, _, -, h⟩ := h.of_bind
        split at h
        next => exact h.of_failAt
        next =>
          split at h
          next => exact h.of_failAt
          next =>
            split at h
            next sig hsig =>
              obtain ⟨rfl, -⟩ := h.of_pure
              have hclean := noBottom_of_signature? hm hsig
              simp [hclean.params, hclean.results]
            next => exact h.of_failAt

/-- The signature and the table of an indirect call, once their indices are read. -/
def indirectCallee (s : Scope) (sigIndex tableIndex : Nat) : ReadM (IndirectCallee × Signature) :=
  match s.module.signature? sigIndex with
  | none => failAt s.pc (.badIndex "signature" sigIndex)
  | some sig =>
    match s.module.tables[tableIndex]? with
    | none => failAt s.pc (.badIndex "table" tableIndex)
    | some table =>
      if table.elemType ≠ .funcref then failAt s.pc (.tableNotOfFunctions tableIndex)
      else return (⟨sigIndex, tableIndex⟩, sig)

theorem readIndirectCallee_eq (s : Scope) : s.readIndirectCallee = (do
    let sigIndex ← readU32 "signature index"
    if s.features.contains .referenceTypes then
      let tableIndex ← readU32 "table index"
      s.indirectCallee sigIndex tableIndex
    else do
      readZeroByte "table index"
      s.indirectCallee sigIndex 0) := by
  refine congrArg (readU32 "signature index" >>= ·) (funext fun sigIndex => ?_)
  dsimp only
  split <;> rfl

variable {found : IndirectCallee × Signature}

theorem signature_of_indirectCallee {sigIndex tableIndex : Nat}
    (h : Reads (s.indirectCallee sigIndex tableIndex) r found r') :
    s.module.signature? found.1.sigIndex = some found.2 := by
  unfold indirectCallee at h
  split at h
  next => exact h.of_failAt
  next sig hsig =>
    split at h
    next => exact h.of_failAt
    next =>
      split at h
      next => exact h.of_failAt
      next =>
        obtain ⟨rfl, -⟩ := h.of_pure
        exact hsig

theorem signature_of_readIndirectCallee (h : Reads s.readIndirectCallee r found r') :
    s.module.signature? found.1.sigIndex = some found.2 := by
  rw [readIndirectCallee_eq] at h
  obtain ⟨sigIndex, _, -, h⟩ := h.of_bind
  split at h
  · obtain ⟨tableIndex, _, -, h⟩ := h.of_bind
    exact signature_of_indirectCallee h
  · obtain ⟨-, _, -, h⟩ := h.of_bind
    exact signature_of_indirectCallee h

section

variable (hm : s.module.NoBottom)
include hm

theorem noBottom_of_readIndirectCallee (h : Reads s.readIndirectCallee r found r') :
    found.2.NoBottom :=
  noBottom_of_signature? hm (signature_of_readIndirectCallee h)

theorem noBottom_of_readFunction
    {found : Nat × Signature} (h : Reads s.readFunction r found r') : found.2.NoBottom := by
  obtain ⟨type, -, hsig⟩ := Option.bind_eq_some_iff.1 (lookup_of_readIndex h)
  exact noBottom_of_signature? hm hsig

theorem noBottom_of_readTag
    {found : Nat × Signature} (h : Reads s.readTag r found r') : found.2.NoBottom := by
  obtain ⟨type, -, hsig⟩ := Option.bind_eq_some_iff.1 (lookup_of_readIndex h)
  exact noBottom_of_signature? hm hsig

theorem ne_bottom_of_readTable
    {found : Nat × ValueType} (h : Reads s.readTable r found r') : found.2 ≠ .bottom := by
  obtain ⟨table, htable, hty⟩ := Option.map_eq_some_iff.1 (lookup_of_readIndex h)
  exact hty ▸ hm.tables table (Array.mem_of_getElem? htable)

end

end Scope

variable {i : Instruction}

/-- A global that is assigned to is one that can be. -/
theorem Instruction.of_read_globalSet (h : Reads (Instruction.read s .globalSet) r i r') :
    ∃ found r₁, Reads s.readGlobal r found r₁ ∧ i = .globalSet found.1 found.2.ty := by
  obtain ⟨found, r₁, hfound, h⟩ := h.of_bind
  dsimp only at h
  split at h
  · exact ⟨found, r₁, hfound, h.of_pure.1⟩
  · exact h.of_failAt

open Scope in
/-- Immediates stand for types that are declared somewhere. -/
theorem Instruction.bottom_not_mem_types (hm : s.module.NoBottom) (hlocals : .bottom ∉ s.locals)
    (h : Reads (Instruction.read s op) r i r') : .bottom ∉ i.types := by
  have hsingle : ∀ {ty : ValueType}, ty ≠ .bottom → .bottom ∉ [ty] := by
    intro ty hty hmem
    exact hty (List.mem_singleton.1 hmem).symm
  have hsig : ∀ {sig : Signature}, sig.NoBottom → .bottom ∉ sig.params ++ sig.results := by
    intro sig hsig
    simp [hsig.params, hsig.results]
  cases op with
  | block | loop | tryBlock | ifThen =>
    obtain ⟨type, _, htype, rfl⟩ := h.of_map
    exact noBottom_of_readBlockType hm htype
  | catchTag | throw =>
    obtain ⟨found, _, hfound, rfl⟩ := h.of_map
    exact (noBottom_of_readTag hm hfound).params
  | call | returnCall =>
    obtain ⟨found, _, hfound, rfl⟩ := h.of_map
    exact hsig (noBottom_of_readFunction hm hfound)
  | callIndirect | returnCallIndirect =>
    obtain ⟨found, _, hfound, rfl⟩ := h.of_map
    exact hsig (noBottom_of_readIndirectCallee hm hfound)
  | selectTyped =>
    obtain ⟨ty, _, hty, rfl⟩ := h.of_map
    simp only [readSelectType, reads_bind] at hty
    obtain ⟨_, _, -, hty⟩ := hty
    split at hty
    · exact hty.of_failAt
    · exact hsingle (ne_bottom_of_readValueType hty)
  | localGet | localSet | localTee =>
    obtain ⟨found, _, hfound, rfl⟩ := h.of_map
    have hmem := Array.mem_of_getElem? (lookup_of_readIndex hfound)
    exact hsingle fun heq => hlocals (heq ▸ hmem)
  | globalGet =>
    obtain ⟨found, _, hfound, rfl⟩ := h.of_map
    exact hsingle (hm.globals _ (Array.mem_of_getElem? (lookup_of_readIndex hfound)))
  | globalSet =>
    obtain ⟨found, _, hfound, rfl⟩ := of_read_globalSet h
    exact hsingle (hm.globals _ (Array.mem_of_getElem? (lookup_of_readIndex hfound)))
  | tableGet | tableSet | tableGrow | tableFill =>
    obtain ⟨found, _, hfound, rfl⟩ := h.of_map
    exact hsingle (ne_bottom_of_readTable hm hfound)
  | refNull =>
    obtain ⟨ty, _, hty, rfl⟩ := h.of_map
    obtain ⟨_, _, hvalue, hty⟩ := hty.of_bind
    split at hty
    · obtain ⟨rfl, -⟩ := hty.of_pure
      exact hsingle (ne_bottom_of_readValueType hvalue)
    · exact hty.of_failAt
  | _ =>
    simp only [Instruction.read, reads_bind, reads_pure] at h
    grind [Instruction.types]

/-- A null reference is of a reference type. -/
theorem Instruction.ne_v128_of_read_refNull {ty : ValueType}
    (h : Reads (Instruction.read s op) r (.refNull ty) r') : ty ≠ .v128 := by
  cases op with
  | refNull =>
    obtain ⟨ty', _, hty, heq⟩ := h.of_map
    cases heq
    obtain ⟨_, _, -, hty⟩ := hty.of_bind
    split at hty
    next hreference =>
      obtain ⟨rfl, -⟩ := hty.of_pure
      rintro rfl
      cases hreference
    next => exact hty.of_failAt
  | globalSet =>
    obtain ⟨_, _, -, heq⟩ := of_read_globalSet h
    cases heq
  | _ =>
    simp only [Instruction.read, reads_bind, reads_pure] at h
    grind

variable {d : Nat}

/-- Branch depths are checked when they are read. -/
theorem Scope.lt_of_readBranchDepth (h : Reads scope.readBranchDepth r d r') :
    d < scope.control.length := by
  obtain ⟨depth, r₁, -, h⟩ := h.of_bind
  split at h
  next => exact h.of_failAt
  next hlt =>
    obtain ⟨rfl, -⟩ := h.of_pure
    exact Nat.not_le.1 hlt

/-- The construct that an instruction names by its depth. -/
def Instruction.depth? : Instruction → Option Nat
  | rethrow depth | br depth | brIf depth => some depth
  | _ => none

theorem Instruction.lt_of_read_depth
    (h : Reads (Instruction.read scope op) r i r') (hd : i.depth? = some d) :
      d < scope.control.length := by
  cases op with
  | rethrow | br | brIf =>
    obtain ⟨depth, _, hdepth, rfl⟩ := h.of_map
    cases hd
    exact Scope.lt_of_readBranchDepth hdepth
  | globalSet =>
    obtain ⟨_, _, -, rfl⟩ := of_read_globalSet h
    cases hd
  | _ =>
    simp only [Instruction.read, reads_bind, reads_pure] at h
    grind [Instruction.depth?]

theorem Instruction.lt_of_read_br
    (h : Reads (Instruction.read scope op) r i r') (hi : i = .br d ∨ i = .brIf d) :
    d < scope.control.length := by
  refine lt_of_read_depth h ?_
  rcases hi with rfl | rfl <;> rfl

variable {locals : Array ValueType}

/-- Of the open constructs only their number matters. -/
theorem Instruction.read_congr
    {control control' : List Control} {pc : Nat} (h : control.length = control'.length)
      (op : Opcode) :
    Instruction.read ⟨m, features, locals, control, pc⟩ op =
      Instruction.read ⟨m, features, locals, control', pc⟩ op := by
  have hdepth : Scope.readBranchDepth ⟨m, features, locals, control, pc⟩ =
      Scope.readBranchDepth ⟨m, features, locals, control', pc⟩ := by
    simp only [Scope.readBranchDepth, h]
  cases op with
  | rethrow | br | brIf => simp only [Instruction.read, hdepth]
  | _ => rfl

/-- The locals are the parameters and those declared. -/
theorem locals_of_readLocalGroups {groups : Nat}
    (h : Reads (readLocalGroups features groups locals) r found r') :
    ∃ declared, found.toList = locals.toList ++ declared ∧ ∀ ty ∈ declared, ty ≠ .bottom := by
  induction groups generalizing locals r with
  | zero =>
    obtain ⟨rfl, -⟩ := h.of_pure
    exact ⟨[], by simp, nofun⟩
  | succ groups ih =>
    simp only [readLocalGroups, reads_bind] at h
    obtain ⟨_, _, -, count, _, -, h⟩ := h
    split at h
    · exact h.of_failAt
    · obtain ⟨ty, _, hty, h⟩ := h.of_bind
      obtain ⟨declared, hfound, hdeclared⟩ := ih h
      refine ⟨List.replicate count ty ++ declared, by simpa using hfound, fun ty' hmem => ?_⟩
      rcases List.mem_append.1 hmem with hmem | hmem
      · rw [List.eq_of_mem_replicate hmem]
        exact Scope.ne_bottom_of_readValueType hty
      · exact hdeclared ty' hmem

theorem locals_of_readLocals {sig : Signature} (h : Reads (readLocals features sig) r locals r') :
    ∃ declared, locals.toList = sig.params ++ declared ∧ ∀ ty ∈ declared, ty ≠ .bottom := by
  obtain ⟨_, _, -, h⟩ := h.of_bind
  simpa using locals_of_readLocalGroups h

theorem bottom_not_mem_locals (hsig : sig.NoBottom)
    (h : Reads (readLocals features sig) r locals r') : .bottom ∉ locals := by
  obtain ⟨declared, hlocals, hdeclared⟩ := locals_of_readLocals h
  rw [← Array.mem_toList_iff, hlocals, List.mem_append, not_or]
  exact ⟨hsig.params, fun hmem => hdeclared _ hmem rfl⟩

end OnePass
