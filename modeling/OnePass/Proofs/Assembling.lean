import OnePass.Proofs.Reencoding

/-!
Assembling and reading back. Whatever is done with a code buffer, the code that comes out is the
instructions that went in, one after another, each branch leading to where its label was bound.
-/
namespace OnePass

open List

variable {τ : Type}

namespace Decoding

/-- The instructions that stand at successive offsets are read one after another. -/
theorem instrs_of_placed {code : Array UInt8} {f : Instr τ → Instr Nat}
    {is : List (Instr τ)} {offset fuel : Nat} (hend : offset + Instr.codeSize is = code.size)
    (hdecode : ∀ p ∈ Instr.placed offset is, Instr.decode code p.1 = .ok (f p.2, p.2.size))
    (hfuel : is.length ≤ fuel) :
    instrs fuel offset (code.toList.drop offset) =
      .ok ((Instr.placed offset is).map fun p => (p.1, f p.2)) := by
  induction is generalizing offset fuel with
  | nil =>
    have hdrop : code.toList.drop offset = [] := by
      rw [drop_eq_nil_iff, Array.length_toList]
      exact Nat.le_of_eq hend.symm
    rw [hdrop]
    cases fuel <;> rfl
  | cons i is ih =>
    rw [Instr.codeSize_cons] at hend
    obtain ⟨fuel, rfl⟩ : ∃ n, fuel = n + 1 := Nat.exists_eq_add_one.2 (Nat.lt_of_lt_of_le
      (Nat.succ_pos _) hfuel)
    have hfirst := hdecode (offset, i) mem_cons_self
    cases hinstr : instr offset (code.toList.drop offset) with
    | error e =>
      rw [Instr.decode, hinstr] at hfirst
      cases hfirst
    | ok r =>
      obtain ⟨j, c⟩ := r
      obtain ⟨hdrop, hpos⟩ := instr_eq_ok hinstr
      rw [Instr.decode, hinstr] at hfirst
      obtain ⟨rfl, hsize⟩ : j = f i ∧ c.pos - offset = i.size := by
        simpa [Bind.bind, Except.bind, Pure.pure, Except.pure] using hfirst
      have hnext : c.pos = offset + i.size := by omega
      have hrest : c.rest = code.toList.drop (offset + i.size) := by
        rw [← drop_drop, hdrop, drop_left']
        omega
      have hlater := @ih (offset + i.size) fuel (by omega)
        (fun p hp => hdecode p (mem_cons_of_mem _ hp)) (Nat.le_of_succ_le_succ hfuel)
      have hne : code.toList.drop offset ≠ [] := by
        rw [hdrop, Instr.encodeAt_eq]
        exact cons_ne_nil _ _
      rw [instrs]
      · rw [hinstr]
        simp only [Bind.bind, Except.bind, hnext, hrest, hlater]
        rfl
      · exact hne

end Decoding

namespace CodeBuffer

variable {b : CodeBuffer} {is : List (Instr Label)}

theorem length_le_codeSize (is : List (Instr τ)) : is.length ≤ Instr.codeSize is := by
  induction is with
  | nil => exact Nat.le_refl _
  | cons i is ih =>
    have := i.size_pos
    rw [length_cons, Instr.codeSize_cons]
    omega

/-- Once every label is bound the whole code is read back. -/
theorem Assembles.disassemble (h : b.Assembles is) (hdone : b.pending = [])
    (hsize : b.code.size < 0x80000000) (henc : ∀ i ∈ is, i.IsEncodable) :
    OnePass.disassemble b.code =
      .ok ((Instr.placed 0 is).map fun p => (p.1, p.2.map fun l => (b.boundAt? l).getD 0)) := by
  refine Decoding.instrs_of_placed (f := fun i => i.map fun l => (b.boundAt? l).getD 0)
    (by rw [Nat.zero_add, h.size]) (fun p hp => ?_) ?_
  · exact h.decode hdone hsize hp (henc p.2 (Instr.mem_of_mem_placed hp))
  · rw [Nat.sub_zero, h.size]
    exact length_le_codeSize is

/-- Nothing is left to patch if every branch leads to a label that is bound. -/
theorem Assembles.pending_eq_nil (h : b.Assembles is)
    (hbound : ∀ i ∈ is, ∀ l, i.target? = some l → b.boundAt? l ≠ none) : b.pending = [] := by
  refine eq_nil_iff_forall_not_mem.2 fun w hw => ?_
  obtain ⟨hnone, p, hp, htarget, -⟩ := h.pending w hw
  exact hbound p.2 (Instr.mem_of_mem_placed hp) w.1 htarget hnone

/-! ## Relocations -/

/-- The relocation of a call at an offset. -/
def relocation? (p : Nat × Instr Label) : Option Relocation :=
  match p.2 with
  | .call function => some ⟨p.1 + 1, function.toNat⟩
  | _ => none

theorem relocations_emit (b : CodeBuffer) (i : Instr Label) :
    (b.emit i).relocations.toList = b.relocations.toList ++ (relocation? (b.pc, i)).toList := by
  have hrecord : ∀ b' : CodeBuffer, b'.relocations = b.relocations →
      (b'.recordCall b.pc i).relocations.toList = b.relocations.toList ++
        (relocation? (b.pc, i)).toList := by
    intro b' hb'
    cases i <;> simp [recordCall, relocation?, hb']
  have hresolve : ∀ (b' : CodeBuffer) (l : Label), (b'.resolve l).relocations = b'.relocations := by
    intro b' l
    unfold resolve
    dsimp only
    split <;> simp only [patchDisplacement]
  unfold emit
  dsimp only
  split
  · rw [hresolve]
    exact hrecord _ rfl
  · exact hrecord _ rfl

@[simp] theorem relocations_bind (b : CodeBuffer) (l : Label) :
    (b.bind l).relocations = b.relocations := by
  obtain ⟨fields, -, heq⟩ := (patched_bind b l).eq
  rw [heq]

/-- The field of a relocation holds the index of the function. -/
theorem Assembles.relocation (h : b.Assembles is) {p : Nat × Instr Label}
    (hp : p ∈ Instr.placed 0 is) {r : Relocation} (hr : relocation? p = some r) :
    (b.code.toList.drop r.offset).take 4 = Bytes.ofNat 4 r.function := by
  obtain ⟨offset, i⟩ := p
  cases i <;> cases hr
  next function =>
    have hfixed : BytesAt b.code offset ([MachineOp.call.code] ++ Encoding.u32 function) :=
      (h.holds _ hp).fixed
    obtain ⟨rest, hrest⟩ := (BytesAt.append_iff.1 hfixed).2.exists_drop
    have hlength : (Encoding.u32 function).length = 4 := Bytes.length_ofNat _ _
    have hdrop : b.code.toList.drop (offset + 1) = Encoding.u32 function ++ rest := hrest
    rw [hdrop, ← hlength, take_left]
    rfl

end CodeBuffer

/-! ## Sessions -/

/-- What can be asked of a code buffer. -/
inductive BufferOp where
  | newLabel
  | bind (l : Label)
  | emit (i : Instr Label)
  | patchFrameSize (offset : Nat) (size : UInt32)

/-- A code buffer and what was asked of it. -/
structure Session where
  buffer : CodeBuffer := {}
  /-- The instructions, each with the offset of the buffer's end when it was emitted. A frame setup
  has the size that it was given last. -/
  listing : List (Nat × Instr Label) := []
  /-- The labels with the offset of the buffer's end when they were bound. -/
  places : List (Label × Nat) := []

namespace Session

variable {s : Session} {op : BufferOp} {ops : List BufferOp} {earlier later is : List (Instr Label)}

def apply (s : Session) : BufferOp → Session
  | .newLabel => { s with buffer := s.buffer.addLabel }
  | .bind l => { s with buffer := s.buffer.bind l, places := (l, s.buffer.pc) :: s.places }
  | .emit i => { s with buffer := s.buffer.emit i, listing := s.listing ++ [(s.buffer.pc, i)] }
  | .patchFrameSize offset size =>
    { s with
      buffer := s.buffer.patchFrameSize offset size.toNat
      listing := s.listing.map fun p => if p.1 = offset then (offset, .enterFrame size) else p }

/-- Labels are bound once, and they and branch targets are labels that were handed out; types have
an encoding; only frame setups are patched. -/
def Permits (s : Session) : BufferOp → Prop
  | .newLabel => True
  | .bind l => l.index < s.buffer.labels.size ∧ l ∉ s.places.map Prod.fst
  | .emit i => i.IsEncodable ∧ ∀ l, i.target? = some l → l.index < s.buffer.labels.size
  | .patchFrameSize offset _ => ∃ size, (offset, .enterFrame size) ∈ s.listing

def run (s : Session) (ops : List BufferOp) : Session := ops.foldl apply s

/-- Every operation is permitted when its turn comes. -/
def PermitsAll : Session → List BufferOp → Prop
  | _, [] => True
  | s, op :: ops => s.Permits op ∧ (s.apply op).PermitsAll ops

def place (s : Session) (l : Label) : Nat := (s.places.lookup l).getD 0

/-- The buffer is the listing. -/
structure Faithful (s : Session) (is : List (Instr Label)) : Prop where
  code : s.buffer.Assembles is
  listing : s.listing = Instr.placed 0 is
  encodable : ∀ i ∈ is, i.IsEncodable
  places : ∀ l, s.buffer.boundAt? l = s.places.lookup l
  relocations : s.buffer.relocations.toList = s.listing.filterMap CodeBuffer.relocation?

theorem faithful_empty : ({} : Session).Faithful [] :=
  ⟨CodeBuffer.assembles_empty, rfl, fun _ hi => (not_mem_nil hi).elim,
    fun l => by simp [CodeBuffer.boundAt?], rfl⟩

theorem lookup_eq_none {places : List (Label × Nat)} {l : Label} (h : l ∉ places.map Prod.fst) :
    places.lookup l = none := by
  rw [lookup_eq_none_iff]
  intro p hp
  have hne : l ≠ p.1 := fun heq => h (heq ▸ mem_map_of_mem hp)
  simpa using hne

/-- Only the instruction at the offset changes. -/
theorem map_placed {old new : Instr Label} (hsize : new.size = old.size) :
    (Instr.placed 0 (earlier ++ old :: later)).map (fun p =>
      if p.1 = Instr.codeSize earlier then (Instr.codeSize earlier, new) else p) =
      Instr.placed 0 (earlier ++ new :: later) := by
  have hothers : ∀ {ps : List (Nat × Instr Label)}, (∀ p ∈ ps, p.1 ≠ Instr.codeSize earlier) →
      ps.map (fun p => if p.1 = Instr.codeSize earlier then (Instr.codeSize earlier, new) else p) =
        ps := by
    intro ps hps
    conv_rhs => rw [← map_id ps]
    exact map_congr_left fun p hp => if_neg (hps p hp)
  simp only [Instr.placed_append, Instr.placed, map_append, map_cons, Nat.zero_add, if_true, hsize]
  rw [hothers fun p hp => ?_, hothers fun p hp => ?_]
  · have hend := (Instr.le_of_mem_placed hp).1
    have hpos := old.size_pos
    omega
  · have hend := (Instr.le_of_mem_placed hp).2
    have hpos := p.2.size_pos
    omega

theorem Faithful.apply (h : s.Faithful is) (hop : s.Permits op) :
    ∃ is', (s.apply op).Faithful is' := by
  cases op with
  | newLabel =>
    exact ⟨is, h.code.addLabel, h.listing, h.encodable,
      fun l => (CodeBuffer.boundAt?_addLabel _ l).trans (h.places l), h.relocations⟩
  | bind l =>
    obtain ⟨hlt, hnew⟩ := hop
    have hnone : s.buffer.boundAt? l = none := (h.places l).trans (lookup_eq_none hnew)
    refine ⟨is, h.code.bind hlt hnone, h.listing, h.encodable, fun q => ?_, ?_⟩
    · show (s.buffer.bind l).boundAt? q = ((l, s.buffer.pc) :: s.places).lookup q
      rw [CodeBuffer.boundAt?_bind hlt, lookup_cons, h.places]
      by_cases heq : q = l
      · simp [heq, CodeBuffer.pc]
      · rw [if_neg heq, show (q == l) = false by simpa using heq]
    · show (s.buffer.bind l).relocations.toList = _
      rw [CodeBuffer.relocations_bind]
      exact h.relocations
  | emit i =>
    obtain ⟨henc, hlabel⟩ := hop
    refine ⟨is ++ [i], h.code.emit hlabel, ?_, fun j hj => ?_, fun l => ?_, ?_⟩
    · show s.listing ++ [(s.buffer.pc, i)] = _
      rw [Instr.placed_append, h.listing, CodeBuffer.pc, h.code.size, Nat.zero_add]
      rfl
    · rcases mem_append.1 hj with hj | hj
      · exact h.encodable j hj
      · cases mem_singleton.1 hj
        exact henc
    · exact (CodeBuffer.boundAt?_emit _ i l).trans (h.places l)
    · show (s.buffer.emit i).relocations.toList = (s.listing ++ [_]).filterMap _
      rw [CodeBuffer.relocations_emit, h.relocations, filterMap_append, filterMap_cons]
      cases CodeBuffer.relocation? (s.buffer.pc, i) <;> rfl
  | patchFrameSize offset size =>
    obtain ⟨old, hold⟩ := hop
    rw [h.listing] at hold
    obtain ⟨earlier, later, rfl, hoffset⟩ := Instr.exists_of_mem_placed hold
    rw [Nat.zero_add] at hoffset
    subst hoffset
    have hlisting : (s.apply (.patchFrameSize (Instr.codeSize earlier) size)).listing =
        Instr.placed 0 (earlier ++ .enterFrame size :: later) := by
      show s.listing.map _ = _
      rw [h.listing]
      exact map_placed rfl
    have hcode := h.code.patchFrameSize size.toNat
    rw [UInt32.ofNat_toNat] at hcode
    refine ⟨earlier ++ .enterFrame size :: later, hcode, hlisting, fun i hi => ?_, h.places, ?_⟩
    · rcases mem_append.1 hi with hi | hi
      · exact h.encodable i (mem_append_left _ hi)
      · rcases mem_cons.1 hi with rfl | hi
        · exact fun htype => by cases htype
        · exact h.encodable i (mem_append_right _ (mem_cons_of_mem _ hi))
    · rw [hlisting]
      show s.buffer.relocations.toList = _
      rw [h.relocations, h.listing]
      rw [Instr.placed_append, Instr.placed_append, filterMap_append, filterMap_append]
      rfl

theorem Faithful.run (h : s.Faithful is) (hops : s.PermitsAll ops) :
    ∃ is', (s.run ops).Faithful is' := by
  induction ops generalizing s is with
  | nil => exact ⟨is, h⟩
  | cons op ops ih =>
    obtain ⟨is', h'⟩ := h.apply hops.1
    exact ih h' hops.2

/-- What was assembled is read back: the instructions at the offsets where they were emitted, labels
replaced by the places they were bound to. The relocations are those of the direct calls, and the
fields they name hold the functions' indices. -/
theorem disassemble_run (hops : ({} : Session).PermitsAll ops)
    (hbound : ∀ p ∈ (({} : Session).run ops).listing, ∀ l, p.2.target? = some l →
      l ∈ (({} : Session).run ops).places.map Prod.fst)
    (hsize : (({} : Session).run ops).buffer.code.size < 0x80000000) :
    let s := ({} : Session).run ops
    disassemble s.buffer.code = .ok (s.listing.map fun p => (p.1, p.2.map s.place)) ∧
      s.buffer.relocations.toList = s.listing.filterMap CodeBuffer.relocation? ∧
        ∀ r ∈ s.buffer.relocations.toList,
          (s.buffer.code.toList.drop r.offset).take 4 = Bytes.ofNat 4 r.function := by
  intro s
  obtain ⟨is, h⟩ := faithful_empty.run hops
  have hdone : s.buffer.pending = [] := by
    refine h.code.pending_eq_nil fun i hi l hl hnone => ?_
    obtain ⟨p, hp, rfl⟩ := Instr.exists_placed hi
    have hmem := hbound p (h.listing ▸ hp) l hl
    rw [h.places, lookup_eq_none_iff] at hnone
    obtain ⟨q, hq, rfl⟩ := mem_map.1 hmem
    simpa using hnone q hq
  refine ⟨?_, h.relocations, fun r hr => ?_⟩
  · rw [h.code.disassemble hdone hsize h.encodable, h.listing]
    simp only [h.places]
    rfl
  · rw [h.relocations, h.listing] at hr
    obtain ⟨p, hp, hr⟩ := mem_filterMap.1 hr
    exact h.code.relocation hp hr

/-- A forward and a backward branch around a call, in a frame that is patched twice. -/
theorem disassemble_run_loop :
    let done : Label := ⟨0⟩
    let head : Label := ⟨1⟩
    let ops : List BufferOp := [.newLabel, .newLabel, .emit (.enterFrame 0), .bind head,
      .emit (.condJump .equal .i32 (.gp 0) none done), .emit (.call 7), .emit (.jump head),
      .patchFrameSize 0 16, .bind done, .emit .ret, .patchFrameSize 0 32]
    let s := ({} : Session).run ops
    disassemble s.buffer.code =
        .ok [(0, .enterFrame 32), (5, .condJump .equal .i32 (.gp 0) none 24),
        (14, .call 7), (19, .jump 5), (24, .ret)] ∧
      s.buffer.relocations.toList = [⟨15, 7⟩] ∧
        (s.buffer.code.toList.drop 15).take 4 = [7, 0, 0, 0] := by
  intro done head ops s
  have hops : ({} : Session).PermitsAll ops := by
    refine ⟨trivial, trivial, ⟨nofun, nofun⟩, ⟨by decide, by decide⟩, ⟨nofun, ?_⟩, ⟨nofun, nofun⟩,
      ⟨nofun, ?_⟩, ⟨0, by decide +kernel⟩, ⟨by decide +kernel, by decide +kernel⟩, ⟨nofun, nofun⟩,
      ⟨16, by decide +kernel⟩, trivial⟩
    · rintro l ⟨⟩
      decide +kernel
    · rintro l ⟨⟩
      decide +kernel
  have hbound : ∀ p ∈ s.listing, ∀ l ∈ p.2.target?, l ∈ s.places.map Prod.fst := by
    decide +kernel
  have hlisting : s.listing.map (fun p => (p.1, p.2.map s.place)) =
      [(0, .enterFrame 32), (5, .condJump .equal .i32 (.gp 0) none 24), (14, .call 7),
        (19, .jump 5), (24, .ret)] := by decide +kernel
  have hcalls : s.listing.filterMap CodeBuffer.relocation? = [⟨15, 7⟩] := by decide +kernel
  have hsize : s.buffer.code.size < 0x80000000 := by decide +kernel
  have hrun := disassemble_run hops hbound hsize
  change disassemble s.buffer.code = .ok (s.listing.map fun p => (p.1, p.2.map s.place)) ∧
    s.buffer.relocations.toList = s.listing.filterMap CodeBuffer.relocation? ∧
      ∀ r ∈ s.buffer.relocations.toList,
        (s.buffer.code.toList.drop r.offset).take 4 = Bytes.ofNat 4 r.function at hrun
  rw [hlisting, hcalls] at hrun
  refine ⟨hrun.1, hrun.2.1, ?_⟩
  have hfield := hrun.2.2 ⟨15, 7⟩ (by rw [hrun.2.1]; exact mem_cons_self)
  exact hfield

end Session

end OnePass
