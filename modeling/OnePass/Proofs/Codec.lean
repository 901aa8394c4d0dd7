import Mathlib
import OnePass.CodeBuffer
import OnePass.Machine.Decoding

/-!
Decoding reads back what encoding wrote. A displacement is read relative to the end of the
instruction, wherever it stands.
-/
namespace OnePass

open List hiding get set

namespace UnaryOp

theorem mem_all (op : UnaryOp) : op ∈ all := by
  cases op with
  | eqz w | reinterpretFloat w | reinterpretInt w | extend8 w | extend16 w =>
    cases w <;> decide +kernel
  | int w op | float w op => cases w <;> cases op <;> decide +kernel
  | truncate dst src sign | convert dst src sign | truncateSat dst src sign =>
    cases dst <;> cases src <;> cases sign <;> decide +kernel
  | extend sign => cases sign <;> decide +kernel
  | vector op => cases op <;> decide +kernel
  | wrap | demote | promote | extend32 => decide +kernel

end UnaryOp

namespace BinaryOp

theorem mem_all (op : BinaryOp) : op ∈ all := by
  cases op with
  | intCompare w rel | floatCompare w rel => cases w <;> cases rel <;> decide +kernel
  | int w op | float w op => cases w <;> cases op <;> decide +kernel
  | vector op => cases op <;> decide +kernel

end BinaryOp

namespace Opcode

-- grouped as the list is
theorem mem_all (op : Opcode) : op ∈ all := by
  cases op with
  | load ty =>
    have h : ty ∈ LoadType.all := by cases ty <;> decide
    simp [all, h]
  | store ty =>
    have h : ty ∈ StoreType.all := by cases ty <;> decide
    simp [all, h]
  | unary op => simp [all, op.mem_all]
  | binary op => simp [all, op.mem_all]
  | memorySize | memoryGrow | i32Const | i64Const | f32Const | f64Const | v128Const =>
    exact mem_append_left _ (mem_append_left _ (mem_append_left _ (mem_append_right _ (by decide))))
  | refNull | refIsNull | refFunc | memoryInit | dataDrop | memoryCopy | memoryFill | tableInit
  | elemDrop | tableCopy | tableGrow | tableSize | tableFill | extractLane | replaceLane =>
    exact mem_append_right _ (by decide)
  | _ =>
    exact mem_append_left _ (mem_append_left _ (mem_append_left _
      (mem_append_left _ (mem_append_left _ (mem_append_left _ (by decide))))))

theorem ofCode?_code (op : Opcode) : ofCode? op.code = some op := by
  have h : ∀ op ∈ all, ofCode? op.code = some op := by decide +kernel
  exact h op op.mem_all

theorem code_lt (op : Opcode) : op.code < UInt32.size := by
  have h : ∀ op ∈ all, op.code < UInt32.size := by decide +kernel
  exact h op op.mem_all

end Opcode

namespace Bytes

theorem toNat_ofNat_four (n : Nat) : toNat (ofNat 4 n) = n % 4294967296 := by
  simp only [ofNat, toNat, UInt8.toNat_ofNat']
  omega

theorem toNat_ofNat_eight (n : Nat) : toNat (ofNat 8 n) = n % 18446744073709551616 := by
  simp only [ofNat, toNat, UInt8.toNat_ofNat']
  omega

end Bytes

namespace Instr

variable {τ σ : Type}

/-- Change where an instruction branches to. -/
def map (f : τ → σ) : Instr τ → Instr σ
  | enterFrame size => enterFrame size
  | leaveFrame => leaveFrame
  | ret => ret
  | move ty dst src => move ty dst src
  | loadConst ty dst bits => loadConst ty dst bits
  | spill ty offset src => spill ty offset src
  | spillConst ty offset value => spillConst ty offset value
  | fill ty dst offset => fill ty dst offset
  | moveStackValue ty dst src => moveStackValue ty dst src
  | zeroSlots start size => zeroSlots start size
  | loadInstanceField dst field => loadInstanceField dst field
  | loadStackArg ty dst index => loadStackArg ty dst index
  | storeStackArg ty index src => storeStackArg ty index src
  | load ty dst base index offset => load ty dst base index offset
  | store ty base index offset src => store ty base index offset src
  | unary op dst src => unary op dst src
  | unaryTrapping op dst src trap => unaryTrapping op dst src (f trap)
  | binary op dst lhs rhs => binary op dst lhs rhs
  | binaryImm op dst lhs imm => binaryImm op dst lhs imm
  | jump target => jump (f target)
  | condJump c ty lhs rhs target => condJump c ty lhs rhs (f target)
  | condJumpImm c ty lhs imm target => condJumpImm c ty lhs imm (f target)
  | stackCheck limit target => stackCheck limit (f target)
  | call function => call function
  | callIndirect target => callIndirect target
  | callStub stub => callStub stub
  | pushRegs regs => pushRegs regs
  | popRegs regs => popRegs regs
  | assertUnreachable => assertUnreachable

/-- The value type that an instruction mentions. -/
def type? : Instr τ → Option ValueType
  | move ty _ _ | loadConst ty _ _ | spill ty _ _ | spillConst ty _ _ | fill ty _ _
  | moveStackValue ty _ _ | loadStackArg ty _ _ | storeStackArg ty _ _ | condJump _ ty _ _ _
  | condJumpImm _ ty _ _ _ => some ty
  | _ => none

/-- The type has an encoding. -/
def IsEncodable (i : Instr τ) : Prop := i.type? ≠ some .bottom

/-- The operands in front of the displacement. -/
def fixedOperands (i : Instr τ) : List UInt8 :=
  match i.target? with
  | some _ => i.operands.take (i.operands.length - 4)
  | none => i.operands

theorem take_append_hole (bytes : List UInt8) :
    (bytes ++ Encoding.hole).take ((bytes ++ Encoding.hole).length - 4) = bytes := by
  simp [Encoding.hole]

/-- Where there is a displacement it comes last. -/
theorem operands_eq {i : Instr τ} {t : τ} (h : i.target? = some t) :
    i.operands = i.fixedOperands ++ Encoding.hole := by
  rw [fixedOperands, h]
  cases i with
  | unaryTrapping op dst src trap =>
    exact congrArg (· ++ Encoding.hole) (take_append_hole _).symm
  | jump target => rfl
  | condJump c ty lhs rhs target =>
    exact congrArg (· ++ Encoding.hole) (take_append_hole _).symm
  | condJumpImm c ty lhs imm target =>
    exact congrArg (· ++ Encoding.hole) (take_append_hole _).symm
  | stackCheck limit target => rfl
  | _ => cases h

theorem fixedOperands_eq {i : Instr τ} {t : τ} {front : List UInt8} (h : i.target? = some t)
    (hfront : i.operands = front ++ Encoding.hole) : i.fixedOperands = front :=
  append_cancel_right ((operands_eq h).symm.trans hfront)

end Instr

namespace Decoding

variable {α β : Type}

/-- The reader takes exactly these bytes, wherever they stand. -/
def Takes (g : Get α) (bytes : List UInt8) (a : α) : Prop :=
  ∀ (rest : List UInt8) (pos : Nat),
    g.run ⟨bytes ++ rest, pos⟩ = .ok (a, ⟨rest, pos + bytes.length⟩)

namespace Takes

theorem pure (a : α) : Takes (pure a) [] a := fun _ _ => rfl

variable {a : α} {g : Get α} {k : α → Get β} {xs : List UInt8}

theorem run_bind (hg : Takes g xs a) (rest : List UInt8) (pos : Nat) :
    (g >>= k).run ⟨xs ++ rest, pos⟩ = (k a).run ⟨rest, pos + xs.length⟩ := by
  rw [StateT.run_bind, hg]
  rfl

theorem bind {xs ys : List UInt8} {b : β}
    (hg : Takes g xs a) (hk : Takes (k a) ys b) : Takes (g >>= k) (xs ++ ys) b := by
  intro rest pos
  rw [append_assoc, hg.run_bind, hk, length_append, Nat.add_assoc]

theorem map {f : α → β} (hg : Takes g xs a) : Takes (g >>= fun x => Pure.pure (f x)) xs (f a) := by
  have h : Takes (g >>= fun x => Pure.pure (f x)) (xs ++ []) (f a) := hg.bind (pure (f a))
  rwa [append_nil] at h

theorem bytes (xs : List UInt8) : Takes (bytes xs.length) xs xs := by
  intro rest pos
  simp [Decoding.bytes, StateT.run, get, getThe, MonadStateOf.get, StateT.get, set, StateT.set,
    Bind.bind, StateT.bind, Except.bind, Pure.pure, StateT.pure, Except.pure]

theorem byte (b : UInt8) : Takes byte [b] b := fun _ _ => rfl

theorem orInvalid {o : Option α} (h : o = some a) : Takes (orInvalid o) [] a := by
  subst h
  exact pure a

theorem bytes_ofNat (count n : Nat) :
    Takes (Decoding.bytes count) (Bytes.ofNat count n) (Bytes.ofNat count n) := by
  have h := bytes (Bytes.ofNat count n)
  rwa [Bytes.length_ofNat] at h

theorem nat32 (n : Nat) : Takes nat32 (Bytes.ofNat 4 n) (n % 4294967296) := by
  rw [← Bytes.toNat_ofNat_four]
  exact (bytes_ofNat 4 n).map

theorem u32 (n : UInt32) : Takes u32 (Encoding.u32 n) n := by
  have h := (nat32 n.toNat).map (f := UInt32.ofNat)
  rwa [Nat.mod_eq_of_lt n.toNat_lt, UInt32.ofNat_toNat] at h

theorem u64 (n : UInt64) : Takes u64 (Encoding.u64 n) n := by
  have h := (bytes_ofNat 8 n.toNat).map (f := fun bs => UInt64.ofNat (Bytes.toNat bs))
  rwa [Bytes.toNat_ofNat_eight, Nat.mod_eq_of_lt n.toNat_lt, UInt64.ofNat_toNat] at h

theorem i32 (n : Int32) : Takes i32 (Encoding.i32 n) n := (u32 n.toUInt32).map

theorem i64 (n : Int64) : Takes i64 (Encoding.i64 n) n := (u64 n.toUInt64).map

/-- Something with a code of one byte. -/
theorem coded {f : UInt8 → Option α} {b : UInt8} (h : f b = some a) :
    Takes (Decoding.byte >>= fun b => Decoding.orInvalid (f b)) [b] a :=
  (byte b).bind (orInvalid h)

theorem toNat_code (r : Reg) : (UInt8.ofNat r.code).toNat = r.code := by
  rw [UInt8.toNat_ofNat', Nat.mod_eq_of_lt (by omega)]

theorem reg (r : Reg) : Takes reg (Encoding.reg r) r := coded (by rw [toNat_code, Reg.ofCode?_code])

theorem optReg (r : Option Reg) : Takes optReg (Encoding.optReg r) r := by
  cases r with
  | none => exact (byte _).bind (pure none)
  | some r =>
    have hne : UInt8.ofNat r.code ≠ Encoding.noReg := by
      intro h
      have h := congrArg UInt8.toNat h
      rw [toNat_code] at h
      have := r.code.isLt
      simp [Encoding.noReg] at h
      omega
    refine (byte _).bind ?_
    rw [if_neg hne]
    exact (orInvalid (by rw [toNat_code, Reg.ofCode?_code])).map

theorem type {ty : ValueType} (h : ty ≠ .bottom) : Takes type (Encoding.type ty) ty := by
  obtain ⟨c, hc⟩ : ∃ c, ty.code? = some c := by
    cases ty with
    | bottom => exact (h rfl).elim
    | _ => exact ⟨_, rfl⟩
  rw [Encoding.type, hc]
  exact coded (ValueType.ofCode?_code hc)

theorem opcode (op : Opcode) : Takes opcode (Encoding.opcode op) op := by
  have hcode : Opcode.ofCode? (op.code % 4294967296) = some op := by
    rw [Nat.mod_eq_of_lt op.code_lt, Opcode.ofCode?_code]
  have h : Takes Decoding.opcode (Encoding.opcode op ++ []) op :=
    (nat32 op.code).bind (orInvalid hcode)
  rwa [append_nil] at h

theorem regSet (s : RegSet) : Takes regSet (Encoding.regSet s) s := by
  have h := (nat32 s.bits.toNat).map (f := fun n => RegSet.mk (BitVec.ofNat 32 n))
  rwa [Nat.mod_eq_of_lt s.bits.isLt, BitVec.ofNat_toNat, BitVec.setWidth_eq] at h

end Takes

/-- When the reader has taken these bytes, it goes on as another one. -/
def Leaves (g : Get α) (bytes : List UInt8) (g' : Get α) : Prop :=
  ∀ (rest : List UInt8) (pos : Nat), g.run ⟨bytes ++ rest, pos⟩ = g'.run ⟨rest, pos + bytes.length⟩

namespace Leaves

variable {g : Get β} {front : List UInt8} {f : Get α} {k : α → Get β}
    {xs : List UInt8} {a : α} {b : β}

theorem start (g : Get β) : Leaves g [] g := fun _ _ => rfl

/-- One more operand is read. -/
theorem read (h : Leaves g front (f >>= k)) (hf : Takes f xs a) : Leaves g (front ++ xs) (k a) := by
  intro rest pos
  rw [append_assoc, h, hf.run_bind, length_append, Nat.add_assoc]

theorem takes (h : Leaves g front (Pure.pure b)) : Takes g front b := fun rest pos => h rest pos

end Leaves

/-- An instruction that does not branch is read back. -/
theorem takes_operands {τ : Type} {i : Instr τ} (h : i.target? = none) (henc : i.IsEncodable)
    (f : τ → Nat) : Takes (operands i.op) i.operands (i.map f) := by
  have hstart := Leaves.start (operands i.op)
  have htype : ∀ {ty : ValueType}, i.type? = some ty → Takes type (Encoding.type ty) ty :=
    fun hty => .type fun hbottom => henc (hbottom ▸ hty)
  cases i with
  | enterFrame size => exact (hstart.read (.u32 size)).takes
  | leaveFrame | ret | assertUnreachable => exact .pure _
  | move ty dst src => exact (((hstart.read (htype rfl)).read (.reg dst)).read (.reg src)).takes
  | loadConst ty dst bits =>
    exact (((hstart.read (htype rfl)).read (.reg dst)).read (.u64 bits)).takes
  | spill ty offset src | storeStackArg ty offset src =>
    exact (((hstart.read (htype rfl)).read (.u32 offset)).read (.reg src)).takes
  | spillConst ty offset value =>
    exact (((hstart.read (htype rfl)).read (.u32 offset)).read (.i32 value)).takes
  | fill ty dst offset | loadStackArg ty dst offset =>
    exact (((hstart.read (htype rfl)).read (.reg dst)).read (.u32 offset)).takes
  | moveStackValue ty dst src =>
    exact (((hstart.read (htype rfl)).read (.u32 dst)).read (.u32 src)).takes
  | zeroSlots start size => exact ((hstart.read (.u32 start)).read (.u32 size)).takes
  | loadInstanceField dst field =>
    exact ((hstart.read (.reg dst)).read (.coded (InstanceField.ofCode?_code field))).takes
  | load ty dst base index offset =>
    exact (((((hstart.read (.coded (LoadType.ofCode?_code ty))).read (.reg dst)).read
      (.reg base)).read (.optReg index)).read (.u32 offset)).takes
  | store ty base index offset src =>
    exact (((((hstart.read (.coded (StoreType.ofCode?_code ty))).read (.reg base)).read
      (.optReg index)).read (.u32 offset)).read (.reg src)).takes
  | unary op dst src => exact (((hstart.read (.opcode op)).read (.reg dst)).read (.reg src)).takes
  | binary op dst lhs rhs =>
    exact ((((hstart.read (.opcode op)).read (.reg dst)).read (.reg lhs)).read (.reg rhs)).takes
  | binaryImm op dst lhs imm =>
    exact ((((hstart.read (.opcode op)).read (.reg dst)).read (.reg lhs)).read (.i32 imm)).takes
  | call function => exact (hstart.read (.u32 function)).takes
  | callIndirect target => exact (hstart.read (.reg target)).takes
  | callStub stub => exact (hstart.read (.coded (RuntimeStub.ofCode?_code stub))).takes
  | pushRegs regs | popRegs regs => exact (hstart.read (.regSet regs)).takes
  | unaryTrapping | jump | condJump | condJumpImm | stackCheck => cases h

/-- The displacement of a field leads to its target. -/
theorem run_target {field target : Nat} (hfield : field + 4 < 0x80000000)
    (htarget : target < 0x80000000) (rest : List UInt8) :
    Decoding.target.run ⟨CodeBuffer.displacement field target ++ rest, field⟩ =
      .ok (target, ⟨rest, field + 4⟩) := by
  have hrel : (Int32.ofInt ((target : Int) - (field + 4))).toInt = target - (field + 4) := by
    have hsize : (Int32.size : Int) = 4294967296 := rfl
    rw [Int32.toInt_ofInt]
    exact Int.bmod_eq_of_le (by omega) (by omega)
  have hsum : ((field + 4 : Nat) : Int) + (Int32.ofInt ((target : Int) - (field + 4))).toInt =
      target := by
    rw [hrel]
    omega
  have hrange : (0 : Int) ≤ target ∧ (target : Int) < UInt32.size := by
    have hsize : (UInt32.size : Int) = 4294967296 := rfl
    omega
  rw [Decoding.target, CodeBuffer.displacement, (Takes.i32 _).run_bind]
  show (if _ then Pure.pure _ else throw _ : Get Nat).run ⟨rest, field + 4⟩ = _
  simp only [Encoding.i32, Encoding.u32, Bytes.length_ofNat]
  rw [hsum, if_pos hrange]
  rfl

/-- What is left of a branch is its target. -/
theorem leaves_fixedOperands {τ : Type} {i : Instr τ} {l : τ} (h : i.target? = some l)
    (henc : i.IsEncodable) :
    Leaves (operands i.op) i.fixedOperands (target >>= fun t => Pure.pure (i.map fun _ => t)) := by
  have hstart := Leaves.start (operands i.op)
  have htype : ∀ {ty : ValueType}, i.type? = some ty → Takes type (Encoding.type ty) ty :=
    fun hty => .type fun hbottom => henc (hbottom ▸ hty)
  cases i with
  | unaryTrapping op dst src trap =>
    rw [Instr.fixedOperands_eq h rfl]
    exact ((hstart.read (.opcode op)).read (.reg dst)).read (.reg src)
  | jump label => exact hstart
  | condJump c ty lhs rhs label =>
    rw [Instr.fixedOperands_eq h rfl]
    exact (((hstart.read (.coded (Cond.ofCode?_code c))).read (htype rfl)).read (.reg lhs)).read
      (.optReg rhs)
  | condJumpImm c ty lhs imm label =>
    rw [Instr.fixedOperands_eq h rfl]
    exact (((hstart.read (.coded (Cond.ofCode?_code c))).read (htype rfl)).read (.reg lhs)).read
      (.i64 imm)
  | stackCheck limit label => exact hstart.read (.reg limit)
  | _ => cases h

/-- A branch is read back, with its displacement resolved. -/
theorem run_operands {τ : Type} {i : Instr τ} {l : τ} (h : i.target? = some l)
    (henc : i.IsEncodable) {pos target : Nat}
    (hfield : pos + i.fixedOperands.length + 4 < 0x80000000) (htarget : target < 0x80000000)
    (rest : List UInt8) :
    (operands i.op).run
        ⟨i.fixedOperands ++ CodeBuffer.displacement (pos + i.fixedOperands.length) target ++ rest,
          pos⟩ =
      .ok (i.map fun _ => target, ⟨rest, pos + i.fixedOperands.length + 4⟩) := by
  rw [append_assoc, leaves_fixedOperands h henc, StateT.run_bind, run_target hfield htarget]
  rfl

end Decoding

end OnePass
