import OnePass.Proofs.CodeLayout

/-!
Machine code has one spelling. Whatever bytes an instruction is read from, writing the instruction
at the same offset gives them back, so that a buffer is determined by its instructions.
-/
namespace OnePass

open List hiding get set

namespace Bytes

theorem ofNat_toNat (bytes : List UInt8) : ofNat bytes.length (toNat bytes) = bytes := by
  induction bytes with
  | nil => rfl
  | cons b bytes ih =>
    have hlow : UInt8.ofNat (b.toNat + 256 * toNat bytes) = b := by
      apply UInt8.toNat.inj
      rw [UInt8.toNat_ofNat']
      have := b.toNat_lt
      omega
    have hhigh : (b.toNat + 256 * toNat bytes) / 256 = toNat bytes := by
      have := b.toNat_lt
      omega
    rw [toNat, length_cons, ofNat, hlow, hhigh, ih]

theorem toNat_lt_four {bytes : List UInt8} (h : bytes.length = 4) : toNat bytes < 4294967296 := by
  rw [← ofNat_toNat bytes, h, toNat_ofNat_four]
  exact Nat.mod_lt _ (by decide)

theorem toNat_lt_eight {bytes : List UInt8} (h : bytes.length = 8) :
    toNat bytes < 18446744073709551616 := by
  rw [← ofNat_toNat bytes, h, toNat_ofNat_eight]
  exact Nat.mod_lt _ (by decide)

end Bytes

namespace Opcode

theorem code_of_ofCode? {c : Nat} {op : Opcode} (h : ofCode? c = some op) : op.code = c := by
  obtain ⟨earlier, later, htable, -⟩ := lookup_eq_some_iff.1 h
  have hmem : (c, op) ∈ table := htable ▸ mem_append_right _ mem_cons_self
  obtain ⟨op', -, heq⟩ := mem_map.1 hmem
  cases heq
  rfl

end Opcode

namespace Instr

/-- The bytes of an instruction at an offset. A displacement leads from the end of the instruction
to its target. -/
def encodeAt (offset : Nat) (i : Instr Nat) : List UInt8 :=
  match i.target? with
  | none => i.encode
  | some t =>
    i.encode.take (i.encode.length - 4) ++
      Encoding.i32 (Int32.ofInt ((t : Int) - (offset + i.encode.length)))

/-- The operands of an instruction, the first of which stands at `pos`. -/
def operandsAt (pos : Nat) (i : Instr Nat) : List UInt8 :=
  match i.target? with
  | none => i.operands
  | some t => i.fixedOperands ++ CodeBuffer.displacement (pos + i.fixedOperands.length) t

theorem encodeAt_eq (offset : Nat) (i : Instr Nat) :
    i.encodeAt offset = i.op.code :: i.operandsAt (offset + 1) := by
  unfold encodeAt operandsAt
  split
  next h => rfl
  next t h =>
    have hencode : i.encode = (i.op.code :: i.fixedOperands) ++ Encoding.hole := by
      rw [encode, operands_eq h, cons_append]
    have hlength : i.encode.length = i.fixedOperands.length + 5 := by
      simp [hencode, Encoding.hole]
    have hend : offset + i.encode.length = offset + 1 + i.fixedOperands.length + 4 := by omega
    have htake : i.encode.take (i.encode.length - 4) = i.op.code :: i.fixedOperands := by
      rw [hencode, take_append_hole]
    rw [htake, cons_append, CodeBuffer.displacement, ← Nat.cast_add, hend]
    push_cast
    rfl

end Instr

namespace Decoding

variable {α β : Type}

theorem run_bind_ok {g : Get α} {k : α → Get β} {c c'' : Cursor} {b : β}
    (h : (g >>= k).run c = .ok (b, c'')) : ∃ a c', g.run c = .ok (a, c') ∧
      (k a).run c' = .ok (b, c'') := by
  rw [StateT.run_bind] at h
  cases hg : g.run c with
  | error e =>
    rw [hg] at h
    cases h
  | ok r =>
    rw [hg] at h
    exact ⟨r.1, r.2, rfl, h⟩

/-- Whatever the reader answers, the bytes it took are a spelling of it at their position. -/
def Spells (g : Get α) (spelling : α → Nat → List UInt8 → Prop) : Prop :=
  ∀ c a c', g.run c = .ok (a, c') →
    ∃ bytes, c.rest = bytes ++ c'.rest ∧ c'.pos = c.pos + bytes.length ∧ spelling a c.pos bytes

/-- The reader takes the bytes that `write` gives for its answer, wherever they stand. -/
def Reads (g : Get α) (write : α → List UInt8) : Prop := Spells g fun a _ bytes => bytes = write a

namespace Spells

variable {g : Get α} {k : α → Get β} {write : α → List UInt8} {S : α → Nat → List UInt8 → Prop}
  {T : β → Nat → List UInt8 → Prop}

theorem bind (hg : Spells g S) (hk : ∀ a pos bytes, S a pos bytes →
      Spells (k a) fun b pos' bytes' => pos' = pos + bytes.length → T b pos (bytes ++ bytes')) :
    Spells (g >>= k) T := by
  intro c b c'' hrun
  obtain ⟨a, c', hfirst, hthen⟩ := run_bind_ok hrun
  obtain ⟨bytes, hrest, hpos, hspell⟩ := hg c a c' hfirst
  obtain ⟨bytes', hrest', hpos', hspell'⟩ := hk a c.pos bytes hspell c' b c'' hthen
  refine ⟨bytes ++ bytes', by rw [hrest, hrest', append_assoc], ?_, hspell' hpos⟩
  rw [hpos', hpos, length_append, Nat.add_assoc]

theorem pure {a : α} (h : ∀ pos, S a pos []) : Spells (Pure.pure a) S := by
  intro c b c' hrun
  cases hrun
  exact ⟨[], rfl, rfl, h _⟩

variable {f : α → β}

theorem map (hg : Spells g S) (hf : ∀ a pos bytes, S a pos bytes → T (f a) pos bytes) :
    Spells (g >>= fun a => Pure.pure (f a)) T :=
  hg.bind fun a pos bytes h => .pure fun _ _ => by
    rw [append_nil]
    exact hf a pos bytes h

/-- One more operand is read. -/
theorem andThen (hg : Reads g write) (hk : ∀ a, Spells (k a) fun b pos' bytes' =>
      ∀ pos, pos' = pos + (write a).length → T b pos (write a ++ bytes')) :
    Spells (g >>= k) T := by
  refine hg.bind fun a pos bytes hbytes => ?_
  subst hbytes
  intro c b c' hrun
  obtain ⟨bytes', hrest, hpos, hspell⟩ := hk a c b c' hrun
  exact ⟨bytes', hrest, hpos, hspell pos⟩

end Spells

namespace Reads

theorem bytes (count : Nat) : Spells (bytes count) fun bs _ taken => taken = bs ∧
    bs.length = count := by
  intro c bs c' hrun
  simp only [Decoding.bytes, StateT.run, get, getThe, MonadStateOf.get, StateT.get, set, Bind.bind,
    StateT.bind, Except.bind, Pure.pure, Except.pure] at hrun
  by_cases hshort : (c.rest.take count).length < count
  · simp only [hshort, if_true] at hrun
    cases hrun
  · simp only [hshort, if_false] at hrun
    cases hrun
    have hlength : (c.rest.take count).length = count := by
      have := length_take_le count c.rest
      omega
    exact ⟨c.rest.take count, (take_append_drop ..).symm, by rw [hlength], rfl, hlength⟩

theorem byte : Reads byte fun b => [b] := by
  rintro ⟨_ | ⟨b, rest⟩, pos⟩ a c' hrun
  · cases hrun
  · cases hrun
    exact ⟨[b], rfl, rfl, rfl⟩

theorem nat32 : Spells nat32 fun n _ taken => taken = Bytes.ofNat 4 n ∧ n < 4294967296 := by
  refine (bytes 4).map fun bs _ taken ⟨htaken, hlength⟩ => ?_
  have hbytes := Bytes.ofNat_toNat bs
  rw [hlength] at hbytes
  exact ⟨by rw [hbytes, htaken], Bytes.toNat_lt_four hlength⟩

theorem u32 : Reads u32 Encoding.u32 :=
  nat32.map fun n _ taken ⟨htaken, hlt⟩ => by
    rw [Encoding.u32, UInt32.toNat_ofNat_of_lt' hlt, htaken]

theorem u64 : Reads u64 Encoding.u64 :=
  (bytes 8).map fun bs _ taken ⟨htaken, hlength⟩ => by
    have hbytes := Bytes.ofNat_toNat bs
    rw [hlength] at hbytes
    rw [Encoding.u64, UInt64.toNat_ofNat_of_lt' (Bytes.toNat_lt_eight hlength), hbytes, htaken]

theorem i32 : Reads i32 Encoding.i32 := u32.map fun _ _ _ h => h

theorem i64 : Reads i64 Encoding.i64 := u64.map fun _ _ _ h => h

theorem orInvalid (o : Option α) : Spells (orInvalid o) fun a _ taken => taken = [] ∧
    o = some a := by
  cases o with
  | none =>
    intro c a c' hrun
    cases hrun
  | some a => exact .pure fun _ => ⟨rfl, rfl⟩

/-- Something with a code of one byte. -/
theorem coded {f : UInt8 → Option α} {write : α → List UInt8}
    (h : ∀ b a, f b = some a → write a = [b]) :
    Reads (Decoding.byte >>= fun b => Decoding.orInvalid (f b)) write := by
  refine Spells.andThen byte fun b c a c' hrun => ?_
  obtain ⟨taken, hrest, hpos, rfl, hsome⟩ := orInvalid (f b) c a c' hrun
  exact ⟨[], hrest, hpos, fun _ _ => (h b a hsome).symm⟩

theorem code_of_ofCode? {b : UInt8} {r : Reg} (h : Reg.ofCode? b.toNat = some r) :
    Encoding.reg r = [b] := by
  unfold Reg.ofCode? at h
  split at h
  · cases h
    exact congrArg (fun b => [b]) (UInt8.ofNat_toNat ..)
  · cases h

theorem reg : Reads reg Encoding.reg := coded fun _ _ => code_of_ofCode?

theorem optReg : Reads optReg Encoding.optReg := by
  refine Spells.andThen byte fun b => ?_
  split
  next hb => exact .pure fun _ _ _ => by rw [hb]; rfl
  next =>
    exact (orInvalid _).map fun r _ taken ⟨htaken, hsome⟩ _ _ => by
      rw [htaken, append_nil]
      exact (code_of_ofCode? hsome).symm

theorem type : Reads type Encoding.type :=
  coded fun b ty h => by
    have hcode : ty.code? = some b := by simpa using find?_some h
    rw [Encoding.type, hcode]
    rfl

theorem opcode : Reads opcode Encoding.opcode := by
  refine nat32.bind fun n pos taken ⟨htaken, hlt⟩ => ?_
  intro c op c' hrun
  obtain ⟨taken', hrest, hpos, rfl, hsome⟩ := orInvalid _ c op c' hrun
  refine ⟨[], hrest, hpos, fun _ => ?_⟩
  rw [append_nil, htaken, Encoding.opcode, Opcode.code_of_ofCode? hsome]

theorem loadType : Reads loadType fun ty => [ty.code] :=
  coded fun b ty h => by rw [show ty.code = b by simpa using find?_some h]

theorem storeType : Reads storeType fun ty => [ty.code] :=
  coded fun b ty h => by rw [show ty.code = b by simpa using find?_some h]

theorem cond : Reads cond fun c => [c.code] :=
  coded fun b c h => by rw [show c.code = b by simpa using find?_some h]

theorem field : Reads field fun f => [f.code] :=
  coded fun b f h => by rw [show f.code = b by simpa using find?_some h]

theorem stub : Reads stub fun s => [s.code] :=
  coded fun b s h => by rw [show s.code = b by simpa using find?_some h]

theorem regSet : Reads regSet Encoding.regSet :=
  nat32.map fun n _ taken ⟨htaken, hlt⟩ => by
    rw [Encoding.regSet, BitVec.toNat_ofNat, Nat.mod_eq_of_lt hlt, htaken]

/-- A target is read where its displacement leads. -/
theorem target : Spells target fun t pos taken => taken = CodeBuffer.displacement pos t := by
  refine Spells.andThen i32 fun rel c t c' hrun => ?_
  have heval : (if 0 ≤ (c.pos : Int) + rel.toInt ∧ (c.pos : Int) + rel.toInt < UInt32.size then
      Pure.pure ((c.pos : Int) + rel.toInt).toNat else throw .invalid : Get Nat).run c =
        .ok (t, c') := hrun
  split at heval
  next hrange =>
    cases heval
    refine ⟨[], rfl, rfl, fun pos hpos => ?_⟩
    have hlength : (Encoding.i32 rel).length = 4 := Bytes.length_ofNat _ _
    have hrel : ((((c.pos : Int) + rel.toInt).toNat : Int) - (pos + 4)) = rel.toInt := by
      rw [Int.toNat_of_nonneg hrange.1, hpos, hlength]
      push_cast
      omega
    rw [append_nil, CodeBuffer.displacement, hrel, Int32.ofInt_toInt]
  next => cases heval

end Reads

/-- The bytes are the operands of the instruction, which belongs to the operation. -/
def Spelled (op : MachineOp) (i : Instr Nat) (pos : Nat) (bytes : List UInt8) : Prop :=
  i.op = op ∧ bytes = i.operandsAt pos

variable {i : Instr Nat}

/-- What is read completes the operands of an instruction, which begin with `front`. -/
def Completes (op : MachineOp) (front : List UInt8) (g : Get (Instr Nat)) : Prop :=
  Spells g fun i pos bytes => ∀ start, pos = start + front.length →
    Spelled op i start (front ++ bytes)

namespace Completes

variable {front : List UInt8}

/-- One more operand is read. -/
theorem read {op : MachineOp} {g : Get α} {write : α → List UInt8} {k : α → Get (Instr Nat)}
    (hg : Reads g write) (hk : ∀ a, Completes op (front ++ write a) (k a)) :
      Completes op front (g >>= k) := by
  refine Spells.andThen hg fun a c i c' hrun => ?_
  obtain ⟨bytes, hrest, hpos, hspell⟩ := hk a c i c' hrun
  refine ⟨bytes, hrest, hpos, fun pos hc start hstart => ?_⟩
  rw [← append_assoc]
  exact hspell start (by rw [hc, hstart, length_append, Nat.add_assoc])

/-- Instructions that do not branch. -/
theorem plain (h : i.target? = none) : Completes i.op i.operands (Pure.pure i) :=
  .pure fun pos start _ => ⟨rfl, by rw [append_nil, Instr.operandsAt, h]⟩

/-- Branches end with the displacement. -/
theorem branch {op : MachineOp} {mk : Nat → Instr Nat}
    (h : ∀ t, (mk t).target? = some t ∧ (mk t).op = op ∧
    (mk t).operands = front ++ Encoding.hole) : Completes op front
      (target >>= fun t => Pure.pure (mk t)) := by
  refine Reads.target.map fun t field bytes hbytes start hfield => ?_
  obtain ⟨htarget, hop, hoperands⟩ := h t
  exact ⟨hop, by rw [hbytes, hfield, Instr.operandsAt, htarget,
    Instr.fixedOperands_eq htarget hoperands]⟩

end Completes

theorem completes_operands (op : MachineOp) : Completes op [] (operands op) := by
  cases op with
  | enterFrame | call => exact .read Reads.u32 fun _ => .plain rfl
  | leaveFrame | ret | assertUnreachable => exact .plain rfl
  | move =>
    exact .read Reads.type fun _ => .read Reads.reg fun _ => .read Reads.reg fun _ => .plain rfl
  | loadConst =>
    exact .read Reads.type fun _ => .read Reads.reg fun _ => .read Reads.u64 fun _ => .plain rfl
  | spill | storeStackArg =>
    exact .read Reads.type fun _ => .read Reads.u32 fun _ => .read Reads.reg fun _ => .plain rfl
  | spillConst =>
    exact .read Reads.type fun _ => .read Reads.u32 fun _ => .read Reads.i32 fun _ => .plain rfl
  | fill | loadStackArg =>
    exact .read Reads.type fun _ => .read Reads.reg fun _ => .read Reads.u32 fun _ => .plain rfl
  | moveStackValue =>
    exact .read Reads.type fun _ => .read Reads.u32 fun _ => .read Reads.u32 fun _ => .plain rfl
  | fillStackSlotsWithZero => exact .read Reads.u32 fun _ => .read Reads.u32 fun _ => .plain rfl
  | loadInstanceField => exact .read Reads.reg fun _ => .read Reads.field fun _ => .plain rfl
  | load =>
    exact .read Reads.loadType fun _ => .read Reads.reg fun _ => .read Reads.reg fun _ =>
      .read Reads.optReg fun _ => .read Reads.u32 fun _ => .plain rfl
  | store =>
    exact .read Reads.storeType fun _ => .read Reads.reg fun _ => .read Reads.optReg fun _ =>
      .read Reads.u32 fun _ => .read Reads.reg fun _ => .plain rfl
  | unOp =>
    exact .read Reads.opcode fun _ => .read Reads.reg fun _ => .read Reads.reg fun _ => .plain rfl
  | binOp =>
    exact .read Reads.opcode fun _ => .read Reads.reg fun _ => .read Reads.reg fun _ =>
      .read Reads.reg fun _ => .plain rfl
  | binOpImm =>
    exact .read Reads.opcode fun _ => .read Reads.reg fun _ => .read Reads.reg fun _ =>
      .read Reads.i32 fun _ => .plain rfl
  | callIndirect => exact .read Reads.reg fun _ => .plain rfl
  | callRuntimeStub => exact .read Reads.stub fun _ => .plain rfl
  | pushRegisters | popRegisters => exact .read Reads.regSet fun _ => .plain rfl
  | unOpTrapping =>
    exact .read Reads.opcode fun _ => .read Reads.reg fun _ => .read Reads.reg fun _ =>
      .branch fun _ => ⟨rfl, rfl, rfl⟩
  | jump => exact .branch fun _ => ⟨rfl, rfl, rfl⟩
  | condJump =>
    exact .read Reads.cond fun _ => .read Reads.type fun _ => .read Reads.reg fun _ =>
      .read Reads.optReg fun _ => .branch fun _ => ⟨rfl, rfl, rfl⟩
  | condJumpImm =>
    exact .read Reads.cond fun _ => .read Reads.type fun _ => .read Reads.reg fun _ =>
      .read Reads.i64 fun _ => .branch fun _ => ⟨rfl, rfl, rfl⟩
  | stackCheck => exact .read Reads.reg fun _ => .branch fun _ => ⟨rfl, rfl, rfl⟩

theorem spells_operands (op : MachineOp) : Spells (operands op) (Spelled op) := by
  intro c i c' hrun
  obtain ⟨bytes, hrest, hpos, hspell⟩ := completes_operands op c i c' hrun
  exact ⟨bytes, hrest, hpos, hspell c.pos rfl⟩

/-- A suffix of the code that begins with an instruction begins with its bytes. -/
theorem instr_eq_ok {offset : Nat} {suffix : List UInt8} {c : Cursor}
    (h : instr offset suffix = .ok (i, c)) :
    suffix = i.encodeAt offset ++ c.rest ∧ c.pos = offset + (i.encodeAt offset).length := by
  unfold instr at h
  split at h
  next => cases h
  next b rest =>
    split at h
    next => cases h
    next op hop =>
      cases hrun : (operands op).run ⟨rest, offset + 1⟩ with
      | error e =>
        rw [hrun] at h
        cases h
      | ok r =>
        rw [hrun] at h
        cases h
        obtain ⟨bytes, hrest, hpos, hspell⟩ := spells_operands op _ _ _ hrun
        have hcode : op.code = b := by simpa using find?_some hop
        dsimp only at hrest hpos hspell
        rw [Instr.encodeAt_eq, hspell.1, ← hspell.2, hcode, hrest, hpos]
        exact ⟨rfl, by rw [length_cons]; omega⟩

theorem instrs_eq_ok {fuel offset : Nat} {suffix : List UInt8} {is : List (Nat × Instr Nat)}
    (hfuel : suffix.length ≤ fuel) (h : instrs fuel offset suffix = .ok is) :
    (is.flatMap fun p => p.2.encodeAt p.1) = suffix := by
  induction fuel generalizing offset suffix is with
  | zero =>
    obtain rfl := eq_nil_of_length_eq_zero (Nat.le_zero.1 hfuel)
    cases h
    rfl
  | succ fuel ih =>
    cases suffix with
    | nil =>
      cases h
      rfl
    | cons b rest =>
      rw [instrs] at h
      · cases hfirst : instr offset (b :: rest) with
        | error e =>
          rw [hfirst] at h
          cases h
        | ok r =>
          obtain ⟨i, c⟩ := r
          obtain ⟨hsuffix, hpos⟩ := instr_eq_ok hfirst
          rw [hfirst] at h
          cases hthen : instrs fuel c.pos c.rest with
          | error e =>
            simp only [Bind.bind, Except.bind, hthen] at h
            cases h
          | ok later =>
            simp only [Bind.bind, Except.bind, hthen] at h
            cases h
            have hlength := congrArg List.length hsuffix
            rw [Instr.encodeAt_eq, cons_append, length_cons, length_cons, length_append] at hlength
            rw [length_cons] at hfuel
            rw [flatMap_cons, ih (by omega) hthen, ← hsuffix]
      · exact nofun

end Decoding

/-- Reading an instruction takes at least one byte and stays inside the buffer, and writing it back
gives the bytes it was read from. So the instructions of a buffer, written one after another, give
back the buffer, and no other buffer has the same. -/
theorem decoding_is_canonical :
    (∀ code offset i len, Instr.decode code offset = .ok (i, len) →
      1 ≤ len ∧ offset + len ≤ code.size ∧
        i.encodeAt offset = (code.toList.drop offset).take len) ∧
    (∀ code is, disassemble code = .ok is →
      (is.flatMap fun p => p.2.encodeAt p.1) = code.toList ∧
        ∀ code', disassemble code' = .ok is → code' = code) := by
  have hwhole : ∀ code is, disassemble code = .ok is →
      (is.flatMap fun p => p.2.encodeAt p.1) = code.toList := by
    intro code is h
    exact Decoding.instrs_eq_ok (by simp) h
  refine ⟨fun code offset i len h => ?_, fun code is h => ⟨hwhole code is h, fun code' h' => ?_⟩⟩
  · cases hinstr : Decoding.instr offset (code.toList.drop offset) with
    | error e =>
      rw [Instr.decode, hinstr] at h
      cases h
    | ok r =>
      obtain ⟨i', c⟩ := r
      rw [Instr.decode, hinstr] at h
      cases h
      obtain ⟨hdrop, hpos⟩ := Decoding.instr_eq_ok hinstr
      have hlength := congrArg List.length hdrop
      have hpositive : 0 < (i.encodeAt offset).length := by
        rw [Instr.encodeAt_eq]
        exact Nat.succ_pos _
      rw [length_drop, Array.length_toList, length_append] at hlength
      have hlen : c.pos - offset = (i.encodeAt offset).length := by omega
      refine ⟨by omega, by omega, ?_⟩
      rw [hdrop, hlen, take_left]
  · have hbytes := (hwhole code' is h').symm.trans (hwhole code is h)
    exact Array.toList_inj.1 hbytes

/-- A loop of one conditional branch back to the start, without a second register, and a return. -/
theorem decoding_is_canonical_backwardJump :
    let code : Array UInt8 := #[21, 6, 0x7F, 1, 0xFF, 0xF7, 0xFF, 0xFF, 0xFF, 3]
    let jump : Instr Nat := .condJump .below .i32 (.gp 1) none 0
    Instr.decode code 0 = .ok (jump, 9) ∧ jump.encodeAt 0 = code.toList.take 9 ∧
      disassemble code = .ok [(0, jump), (9, .ret)] ∧
        ∀ code', disassemble code' = .ok [(0, jump), (9, .ret)] → code' = code := by
  intro code jump
  have hdecode : Instr.decode code 0 = .ok (jump, 9) := by rfl
  have hlisting : disassemble code = .ok [(0, jump), (9, .ret)] := by rfl
  exact ⟨hdecode, (decoding_is_canonical.1 code 0 jump 9 hdecode).2.2, hlisting,
    (decoding_is_canonical.2 code _ hlisting).2⟩

end OnePass
