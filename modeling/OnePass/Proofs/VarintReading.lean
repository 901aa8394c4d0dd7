import OnePass.Proofs.Reading

/-!
Numbers as LEB128: groups of seven bits, the lowest first, one in a byte, where the high bit says
that another byte follows. A number is read exactly if there are not more groups than its width
needs and its value is in range. It may be padded, but not beyond that length.
-/
namespace OnePass

open List

variable {width : Nat}

namespace Leb

/-! ## Values -/

/-- The number with the given groups of seven bits. -/
def toNat : List UInt8 → Nat
  | [] => 0
  | b :: bs => b.toNat % 128 + 128 * toNat bs

/-- The same groups in two's complement. -/
def toInt (bs : List UInt8) : Int :=
  if 2 * toNat bs < 128 ^ bs.length then toNat bs else toNat bs - 128 ^ bs.length

/-- Every byte but the last says that another one follows. -/
def Delimited (bs : List UInt8) : Prop :=
  ∃ more last, bs = more ++ [last] ∧ (∀ b ∈ more, 128 ≤ b.toNat) ∧ last.toNat < 128

theorem toNat_lt (bs : List UInt8) : toNat bs < 128 ^ bs.length := by
  induction bs with
  | nil => exact Nat.one_pos
  | cons b bs ih =>
    rw [toNat, length_cons, Nat.pow_succ]
    omega

theorem toNat_concat (more : List UInt8) (last : UInt8) :
    toNat (more ++ [last]) = toNat more + 128 ^ more.length * (last.toNat % 128) := by
  induction more with
  | nil => simp [toNat]
  | cons b more ih =>
    rw [cons_append, toNat, ih, toNat, length_cons, Nat.pow_succ]
    ring

/-- The last group as a number in two's complement. -/
def signedGroup (payload : Nat) : Int := if payload < 64 then payload else payload - 128

/-- The sign of a number is that of its last group. -/
theorem toInt_concat (more : List UInt8) (last : UInt8) :
    toInt (more ++ [last]) = toNat more + 128 ^ more.length * signedGroup (last.toNat % 128) := by
  have hlow := toNat_lt more
  rw [toInt, toNat_concat, length_append, length_singleton, Nat.pow_succ, pow_succ]
  generalize last.toNat % 128 = payload
  have hiff : 2 * (toNat more + 128 ^ more.length * payload) < 128 ^ more.length * 128 ↔
      payload < 64 := by
    generalize 128 ^ more.length = unit at hlow
    constructor
    · intro h
      by_contra hge
      have := Nat.mul_le_mul_left unit (Nat.le_of_not_lt hge)
      omega
    · intro h
      have := Nat.mul_le_mul_left unit (Nat.succ_le_of_lt h)
      rw [Nat.mul_succ] at this
      omega
  unfold signedGroup
  by_cases h : payload < 64
  · rw [if_pos (hiff.2 h), if_pos h]
    push_cast
    ring
  · rw [if_neg fun h' => h (hiff.1 h'), if_neg h]
    push_cast
    ring

/-- A group further on counts more than all groups before it. -/
theorem below_iff {low unit : Nat} (h : low < unit) (high bound : Int) :
    (low + unit * high < unit * bound ↔ high < bound) ∧
      (-(unit * bound) ≤ low + unit * high ↔ -bound ≤ high) := by
  have hunit : (0 : Int) < unit := by omega
  have hlow : (low : Int) < unit := by omega
  refine ⟨⟨fun hlt => ?_, fun hlt => ?_⟩, ⟨fun hle => ?_, fun hle => ?_⟩⟩
  · by_contra hge
    have := mul_le_mul_of_nonneg_left (Int.not_lt.1 hge) hunit.le
    omega
  · have := mul_le_mul_of_nonneg_left (Int.add_one_le_of_lt hlt) hunit.le
    rw [mul_add, mul_one] at this
    omega
  · by_contra hlt
    have := mul_le_mul_of_nonneg_left (Int.add_one_le_of_lt (Int.not_le.1 hlt)) hunit.le
    rw [mul_add, mul_one, mul_neg] at this
    omega
  · have := mul_le_mul_of_nonneg_left hle hunit.le
    rw [mul_neg] at this
    omega

/-! ## Formats -/

/-- Numbers of so many bits, with a sign or without. -/
structure Format where
  width : Nat
  signed : Bool

namespace Format

variable (f : Format)

def value (bs : List UInt8) : Int := if f.signed then toInt bs else toNat bs

/-- The numbers that have so many bits. -/
def InRange (v : Int) : Prop :=
  if f.signed then -2 ^ (f.width - 1) ≤ v ∧ v < 2 ^ (f.width - 1) else 0 ≤ v ∧ v < 2 ^ f.width

/-- The bytes are an encoding of the number, which may be padded up to the length that the width
needs. -/
structure Encodes (bs : List UInt8) (v : Int) : Prop where
  delimited : Delimited bs
  length : bs.length ≤ Reader.lebLength f.width
  value : f.value bs = v
  inRange : f.InRange v

/-! ## Canonical encodings -/

end Format

/-- The shortest encoding without a sign. -/
def ofNat (n : Nat) : List UInt8 :=
  if n < 128 then [.ofNat n] else .ofNat (128 + n % 128) :: ofNat (n / 128)
termination_by n
decreasing_by omega

/-- The shortest encoding in two's complement. -/
def ofInt (v : Int) : List UInt8 :=
  if -64 ≤ v ∧ v < 64 then [.ofNat (v % 128).toNat]
  else .ofNat (128 + (v % 128).toNat) :: ofInt (v / 128)
termination_by v.natAbs
decreasing_by omega

variable {bs : List UInt8} {b : UInt8}

theorem Delimited.cons (hb : 128 ≤ b.toNat) (h : Delimited bs) : Delimited (b :: bs) := by
  obtain ⟨more, last, rfl, hmore, hlast⟩ := h
  exact ⟨b :: more, last, rfl, forall_mem_cons.2 ⟨hb, hmore⟩, hlast⟩

theorem delimited_singleton (hb : b.toNat < 128) : Delimited [b] := ⟨[], b, rfl, nofun, hb⟩

theorem toInt_cons (b : UInt8) (h : Delimited bs) :
    toInt (b :: bs) = b.toNat % 128 + 128 * toInt bs := by
  obtain ⟨more, last, rfl, -⟩ := h
  rw [← cons_append, toInt_concat, toInt_concat, toNat, length_cons, pow_succ]
  push_cast
  ring

theorem ofNat_spec (n : Nat) : Delimited (ofNat n) ∧ toNat (ofNat n) = n ∧
    ∀ k, n < 128 ^ (k + 1) → (ofNat n).length ≤ k + 1 := by
  induction n using ofNat.induct with
  | case1 n h =>
    have hb : (UInt8.ofNat n).toNat = n := UInt8.toNat_ofNat_of_lt' (by show _ < 256; omega)
    rw [ofNat, if_pos h]
    refine ⟨delimited_singleton (by omega), ?_, fun k _ => by simp⟩
    rw [toNat, toNat, hb]
    omega
  | case2 n h ih =>
    obtain ⟨hdelimited, hvalue, hlength⟩ := ih
    have hb : (UInt8.ofNat (128 + n % 128)).toNat = 128 + n % 128 :=
      UInt8.toNat_ofNat_of_lt' (by show _ < 256; omega)
    rw [ofNat, if_neg h]
    refine ⟨hdelimited.cons (by omega), ?_, fun k hk => ?_⟩
    · rw [toNat, hvalue, hb]
      omega
    · cases k with
      | zero => omega
      | succ k =>
        rw [pow_succ] at hk
        rw [length_cons]
        have := hlength k (by omega)
        omega

theorem ofInt_spec (v : Int) : Delimited (ofInt v) ∧ toInt (ofInt v) = v ∧
    ∀ k, -(64 * 128 ^ k) ≤ v → v < 64 * 128 ^ k → (ofInt v).length ≤ k + 1 := by
  induction v using ofInt.induct with
  | case1 v h =>
    have hb : (UInt8.ofNat ((v % 128).toNat)).toNat = (v % 128).toNat :=
      UInt8.toNat_ofNat_of_lt' (by show _ < 256; omega)
    rw [ofInt, if_pos h]
    refine ⟨delimited_singleton (by omega), ?_, fun k _ _ => by simp⟩
    rw [← nil_append [_], toInt_concat, hb, signedGroup]
    simp only [toNat, length_nil]
    split <;> omega
  | case2 v h ih =>
    obtain ⟨hdelimited, hvalue, hlength⟩ := ih
    have hb : (UInt8.ofNat (128 + (v % 128).toNat)).toNat = 128 + (v % 128).toNat :=
      UInt8.toNat_ofNat_of_lt' (by show _ < 256; omega)
    rw [ofInt, if_neg h]
    refine ⟨hdelimited.cons (by omega), ?_, fun k hlow hhigh => ?_⟩
    · rw [toInt_cons _ hdelimited, hvalue, hb]
      omega
    · cases k with
      | zero => omega
      | succ k =>
        rw [pow_succ] at hlow hhigh
        rw [length_cons]
        have := hlength k (by omega) (by omega)
        omega

namespace Format

variable (f : Format)

def encode (v : Int) : List UInt8 := if f.signed then ofInt v else ofNat v.toNat

theorem exists_groups (h : 0 < width) : ∃ groups usable, Reader.lebLength width = groups + 1 ∧
    width = 7 * groups + usable ∧ 1 ≤ usable ∧ usable ≤ 7 := by
  refine ⟨(width - 1) / 7, width - 7 * ((width - 1) / 7), ?_, ?_, ?_, ?_⟩ <;>
    first | rw [Reader.lebLength]; omega | omega

theorem pow_groups (groups rest : Nat) : 2 ^ (7 * groups + rest) = 128 ^ groups * 2 ^ rest := by
  rw [pow_add, pow_mul]
  norm_num

theorem encodes_encode (hwidth : 0 < f.width) {v : Int} (h : f.InRange v) :
    f.Encodes (f.encode v) v := by
  obtain ⟨width, signed⟩ := f
  obtain ⟨groups, usable, hlength, rfl, hlow, hhigh⟩ := exists_groups hwidth
  cases signed with
  | true =>
    obtain ⟨hdelimited, hvalue, hshort⟩ := ofInt_spec v
    refine ⟨hdelimited, ?_, hvalue, h⟩
    have hrange : -2 ^ (7 * groups + usable - 1) ≤ v ∧ v < 2 ^ (7 * groups + usable - 1) := h
    have hle : (2 : Int) ^ (7 * groups + usable - 1) ≤ 64 * 128 ^ groups := by
      have hpow := Nat.pow_le_pow_right (n := 2) (by decide)
        (show 7 * groups + usable - 1 ≤ 7 * groups + 6 by omega)
      rw [pow_groups] at hpow
      have hcast : ((2 ^ (7 * groups + usable - 1) : Nat) : Int) ≤
          ((128 ^ groups * 2 ^ 6 : Nat) : Int) := by
        exact_mod_cast hpow
      push_cast at hcast
      omega
    dsimp only
    rw [hlength]
    exact hshort groups (by omega) (by omega)
  | false =>
    obtain ⟨hdelimited, hvalue, hshort⟩ := ofNat_spec v.toNat
    have hrange : 0 ≤ v ∧ v < 2 ^ (7 * groups + usable) := h
    refine ⟨hdelimited, ?_, ?_, h⟩
    · have hlt : v.toNat < 2 ^ (7 * groups + usable) := by
        have := hrange.2
        zify
        omega
      have hle : 2 ^ (7 * groups + usable) ≤ 128 ^ (groups + 1) := by
        have hpow := Nat.pow_le_pow_right (n := 2) (by decide)
          (show 7 * groups + usable ≤ 7 * (groups + 1) + 0 by omega)
        rwa [pow_groups (groups + 1), pow_zero, mul_one] at hpow
      dsimp only
      rw [hlength]
      exact hshort groups (by omega)
    · show (toNat (ofNat v.toNat) : Int) = v
      rw [hvalue]
      omega

end Format

end Leb

/-! ## Reading group by group -/

namespace Reader

variable {α β : Type}

/-- The position between two parts of the bytes. -/
def between (before rest : List UInt8) : Reader := ⟨(before ++ rest).toArray, before.length⟩

theorem run_readU8 (what : String) (before rest : List UInt8) :
    (readU8 what).run.run (between before rest) =
      match rest with
      | b :: rest => (.ok b, between (before ++ [b]) rest)
      | [] => (.error ⟨before.length, .eof what⟩, between before []) := by
  have hget (k : Reader → ReadM UInt8) (r : Reader) : (get >>= k).run.run r = (k r).run.run r := rfl
  have hpeek : (between before rest).peek? =
    rest[0]? := by simp [between, peek?, getElem?_append_right]
  rw [readU8, hget, hpeek]
  cases rest with
  | nil => rfl
  | cons b rest =>
    have hnext : between (before ++ [b]) rest =
        ⟨(before ++ b :: rest).toArray, before.length + 1⟩ := by
      simp [between]
    dsimp only
    rw [hnext]
    rfl

/-- Both ways of reading a number, without a bound on its bits: they differ in what the last
possible byte may hold and in the result. -/
def scan (start : Nat) (what : String) (reject : Nat → Nat → Bool) (result : Nat → Nat → α) :
    (left shift value : Nat) → ReadM α
  | 0, _, _ => failAt start (.varintTooLong what)
  | left + 1, shift, value => do
    let byte ← readU8 what
    let payload := byte.toNat % 128
    let value := value + payload <<< shift
    if byte.toNat < 128 then
      if left = 0 ∧ reject shift payload then failAt start (.extraBits what)
      else return result shift value
    else scan start what reject result left (shift + 7) value

/-! ## Numbers in a word -/

theorem toNat_payload (b : UInt8) : (b &&& 0x7F).toNat = b.toNat % 128 := by
  rw [UInt8.toNat_and]
  exact Nat.and_two_pow_sub_one_eq_mod b.toNat 7

theorem and_two_pow_eq_zero_iff (n k : Nat) : n &&& 2 ^ k = 0 ↔ n / 2 ^ k % 2 = 0 := by
  rw [Nat.and_two_pow, Nat.testBit_eq_decide_div_mod_eq]
  rcases Nat.mod_two_eq_zero_or_one (n / 2 ^ k) with h | h <;> simp [h]

theorem isLast_iff (b : UInt8) : b &&& 0x80 = 0 ↔ b.toNat < 128 := by
  have hlt := b.toNat_lt
  have hiff : b.toNat &&& 2 ^ 7 = 0 ↔ _ := and_two_pow_eq_zero_iff b.toNat 7
  rw [← UInt8.toNat_inj, UInt8.toNat_and]
  exact hiff.trans (by omega)

theorem isNegative_iff (b : UInt8) : b &&& 0x40 ≠ 0 ↔ 64 ≤ b.toNat % 128 := by
  have hiff : b.toNat &&& 2 ^ 6 = 0 ↔ _ := and_two_pow_eq_zero_iff b.toNat 6
  rw [Ne, ← UInt8.toNat_inj, UInt8.toNat_and]
  exact hiff.not.trans (by omega)

section

variable {shift value n : Nat} {payload byte : UInt8}

/-- The next group has its own bits of the word. -/
theorem or_group (hvalue : value < 2 ^ shift) (hshift : shift < 64) (payload : UInt8) :
    UInt64.ofNat value ||| payload.toUInt64 <<< UInt64.ofNat shift =
      .ofNat (value + payload.toNat <<< shift) := by
  have hs : shift % 2 ^ 64 % 64 = shift := by omega
  have hor : value + payload.toNat <<< shift = value ||| payload.toNat <<< shift := by
    rw [Nat.shiftLeft_eq, Nat.mul_comm, Nat.add_comm, Nat.two_pow_add_eq_or_of_lt hvalue,
      Nat.lor_comm]
  rw [← UInt64.toNat_inj, UInt64.toNat_or, UInt64.toNat_shiftLeft, UInt64.toNat_ofNat',
    UInt64.toNat_ofNat', UInt64.toNat_ofNat', hs, hor, Nat.or_mod_two_pow]
  rfl

/-- So do the copies of the sign. -/
theorem or_ones (hn : n < 64) (hvalue : value < 2 ^ n) :
    UInt64.ofNat value ||| ~~~(0 : UInt64) <<< UInt64.ofNat n =
      .ofNat (value + (2 ^ 64 - 2 ^ n)) := by
  have hs : n % 2 ^ 64 % 64 = n := by omega
  have hlt : 2 ^ n < 2 ^ 64 := Nat.pow_lt_pow_right (by decide) hn
  have hones : (2 ^ 64 - 1) * 2 ^ n % 2 ^ 64 = 2 ^ 64 - 2 ^ n := by omega
  have hpow : 2 ^ 64 - 2 ^ n = 2 ^ n * (2 ^ (64 - n) - 1) := by
    rw [Nat.mul_sub, ← pow_add, Nat.add_sub_cancel' hn.le, Nat.mul_one]
  rw [← UInt64.toNat_inj, UInt64.toNat_or, UInt64.toNat_shiftLeft, UInt64.toNat_ofNat',
    UInt64.toNat_ofNat', UInt64.toNat_ofNat', hs, Nat.shiftLeft_eq]
  show value % 2 ^ 64 ||| (2 ^ 64 - 1) * 2 ^ n % 2 ^ 64 = _
  rw [hones, Nat.mod_eq_of_lt (by omega), Nat.mod_eq_of_lt (by omega), hpow, Nat.add_comm,
    Nat.two_pow_add_eq_or_of_lt hvalue, Nat.lor_comm]

theorem ofInt_two_pow (h : 64 ≤ n) : Int64.ofInt (2 ^ n) = 0 := by
  obtain ⟨k, rfl⟩ := Nat.exists_eq_add_of_le h
  rw [Int.pow_add, Int64.ofInt_mul, show Int64.ofInt (2 ^ 64) = 0 from rfl, Int64.zero_mul]

/-- A word with its sign extended holds the bits in two's complement, or the lowest 64 of them. -/
theorem toInt64_signExtend (hvalue : value < 2 ^ n)
    (hsign : byte &&& 0x40 ≠ 0 ↔ 2 ^ n ≤ 2 * value) :
    (signExtend n byte (.ofNat value)).toInt64 = .ofInt (BitVec.ofNat n value).toInt := by
  rw [BitVec.toInt_eq_toNat_cond, BitVec.toNat_ofNat, Nat.mod_eq_of_lt hvalue, signExtend]
  by_cases hneg : 2 ^ n ≤ 2 * value
  · rw [if_neg (Nat.not_lt.2 hneg), Int64.ofInt_sub, Nat.cast_pow, Nat.cast_ofNat]
    by_cases hn : n < 64
    · have hle : 2 ^ n ≤ 2 ^ 64 := Nat.pow_le_pow_right (by decide) hn.le
      rw [if_pos ⟨hn, hsign.2 hneg⟩, or_ones hn hvalue, UInt64.toInt64_ofNat',
        ← Int64.ofInt_eq_ofNat,
        Nat.cast_add, Nat.cast_sub hle, Nat.cast_pow, Nat.cast_pow, Nat.cast_ofNat, Int64.ofInt_add,
        Int64.ofInt_sub, ofInt_two_pow (Nat.le_refl _), Int64.zero_sub, Int64.sub_eq_add_neg]
    · rw [if_neg fun h => hn h.1, ofInt_two_pow (Nat.not_lt.1 hn), Int64.sub_zero,
        UInt64.toInt64_ofNat', Int64.ofInt_eq_ofNat]
  · rw [if_pos (Nat.not_le.1 hneg), if_neg fun h => hneg (hsign.1 h.2), UInt64.toInt64_ofNat',
      Int64.ofInt_eq_ofNat]

end

section

variable (start : Nat) (what : String) {left shift value : Nat}

/-- The next group leaves room for those after it. -/
theorem add_group_lt (hvalue : value < 2 ^ shift) (b : UInt8) :
    value + (b.toNat % 128) <<< shift < 2 ^ (shift + 7) := by
  have := Nat.mul_le_mul_right (2 ^ shift) (show b.toNat % 128 ≤ 127 by omega)
  rw [Nat.shiftLeft_eq, pow_add]
  omega

theorem unsignedLoop_eq (hwidth : width ≤ 64) (hshift : shift + 7 * left = 7 * lebLength width)
    (hvalue : value < 2 ^ shift) : unsignedLoop width start what left shift (.ofNat value) =
      scan start what (fun shift payload => payload >>> (width - shift) != 0) (fun _ => .ofNat)
        left shift value := by
  induction left generalizing shift value with
  | zero => rfl
  | succ left ih =>
    rw [lebLength] at hshift
    rw [unsignedLoop, scan]
    refine congrArg (readU8 what >>= ·) (funext fun byte => ?_)
    have hreject : left = 0 ∧ (byte &&& 0x7F).toUInt32 >>> UInt32.ofNat (width - shift) ≠ 0 ↔
        left = 0 ∧ ((byte.toNat % 128) >>> (width - shift) != 0) = true := by
      refine and_congr_right fun hleft => ?_
      have hs : (width - shift) % 2 ^ 32 % 32 = width - shift := by omega
      rw [bne_iff_ne, Ne, ← UInt32.toNat_inj, UInt32.toNat_shiftRight, UInt8.toNat_toUInt32,
        toNat_payload, UInt32.toNat_ofNat', hs]
      rfl
    simp only [or_group hvalue (by omega), toNat_payload, isLast_iff, hreject]
    rw [ih (by rw [lebLength]; omega) (add_group_lt hvalue byte)]

theorem signedLoop_eq (hwidth : width ≤ 64) (hshift : shift + 7 * left = 7 * lebLength width)
    (hvalue : value < 2 ^ shift) : signedLoop width start what left shift (.ofNat value) =
      scan start what (fun shift payload => !signBitsAgree (width - shift) (.ofNat payload))
        (fun shift value => .ofInt (BitVec.ofNat (shift + 7) value).toInt) left shift value := by
  induction left generalizing shift value with
  | zero => rfl
  | succ left ih =>
    rw [lebLength] at hshift
    rw [signedLoop, scan]
    refine congrArg (readU8 what >>= ·) (funext fun byte => ?_)
    have hagree : signBitsAgree (width - shift) (byte &&& 0x7F) =
        signBitsAgree (width - shift) (.ofNat (byte.toNat % 128)) := by
      rw [← toNat_payload, UInt8.ofNat_toNat]
    have hsign : byte &&& 0x40 ≠ 0 ↔
        2 ^ (shift + 7) ≤ 2 * (value + (byte.toNat % 128) <<< shift) := by
      rw [isNegative_iff, Nat.shiftLeft_eq, pow_add]
      have hless := Nat.mul_le_mul_right (2 ^ shift) (m := 63) (n := byte.toNat % 128)
      have hmore := Nat.mul_le_mul_right (2 ^ shift) (m := byte.toNat % 128) (n := 64)
      omega
    simp only [or_group hvalue (by omega), toNat_payload, isLast_iff, hagree,
      toInt64_signExtend (add_group_lt hvalue byte) hsign]
    rw [ih (by rw [lebLength]; omega) (add_group_lt hvalue byte)]

end

section

variable (start : Nat) (what : String) (reject : Nat → Nat → Bool) (result : Nat → Nat → α)
  {left shift value : Nat} {before more rest : List UInt8}

/-- A sequence is read up to its last byte. -/
theorem run_scan {last : UInt8} (hmore : ∀ b ∈ more, 128 ≤ b.toNat) (hlast : last.toNat < 128)
    (hleft : more.length < left) :
    (scan start what reject result left shift value).run.run
      (between before (more ++ last :: rest)) =
      (if more.length + 1 = left ∧ reject (shift + 7 * more.length) (last.toNat % 128) then
        failAt start (.extraBits what)
      else pure (result (shift + 7 * more.length) (value + Leb.toNat (more ++ [last]) <<< shift)) :
        ReadM α).run.run (between (before ++ (more ++ [last])) rest) := by
  induction more generalizing left shift value before with
  | nil =>
    obtain ⟨left, rfl⟩ := Nat.exists_eq_add_of_lt hleft
    simp only [nil_append, length_nil, Nat.zero_add, scan, run_run_bind, run_readU8, if_pos hlast,
      Leb.toNat, Nat.mul_zero, Nat.add_zero]
    simp only [show left = 0 ↔ 1 = left + 1 by omega]
  | cons b more ih =>
    obtain ⟨left, rfl⟩ : ∃ n, left = n + 1 := ⟨left - 1, by omega⟩
    rw [length_cons] at hleft
    obtain ⟨hb, hmore⟩ := forall_mem_cons.1 hmore
    rw [cons_append, scan, run_run_bind, run_readU8]
    dsimp only
    rw [if_neg (by omega), ih hmore (by omega)]
    have hshift : shift + 7 + 7 * more.length = shift + 7 * (b :: more).length := by
      rw [length_cons]
      omega
    have hvalue : value + (b.toNat % 128) <<< shift + Leb.toNat (more ++ [last]) <<< (shift + 7) =
        value + Leb.toNat (b :: more ++ [last]) <<< shift := by
      rw [cons_append, Leb.toNat, Nat.shiftLeft_eq, Nat.shiftLeft_eq, Nat.shiftLeft_eq, pow_add]
      ring
    simp only [hshift, hvalue, append_assoc, cons_append, nil_append, length_cons,
      Nat.add_right_cancel_iff]

theorem run_scan_truncated (hrest : ∀ b ∈ rest, 128 ≤ b.toNat) (hleft : rest.length < left) :
    ((scan start what reject result left shift value).run.run (between before rest)).1 =
      .error ⟨(before ++ rest).length, .eof what⟩ := by
  induction rest generalizing left shift value before with
  | nil =>
    obtain ⟨left, rfl⟩ := Nat.exists_eq_add_of_lt hleft
    rw [scan, run_run_bind, run_readU8, append_nil]
  | cons b rest ih =>
    obtain ⟨left, rfl⟩ : ∃ n, left = n + 1 := ⟨left - 1, by omega⟩
    obtain ⟨hb, hrest⟩ := forall_mem_cons.1 hrest
    rw [length_cons] at hleft
    rw [scan, run_run_bind, run_readU8]
    dsimp only
    rw [if_neg (by omega), ih hrest (by omega), append_assoc, singleton_append]

theorem run_scan_overlong (hmore : ∀ b ∈ more, 128 ≤ b.toNat) (hleft : more.length = left) :
    ((scan start what reject result left shift value).run.run (between before (more ++ rest))).1 =
      .error ⟨start, .varintTooLong what⟩ := by
  induction more generalizing left shift value before with
  | nil =>
    subst hleft
    rfl
  | cons b more ih =>
    subst hleft
    obtain ⟨hb, hmore⟩ := forall_mem_cons.1 hmore
    rw [length_cons, scan, cons_append, run_run_bind, run_readU8]
    dsimp only
    rw [if_neg (by omega), ih hmore rfl]

end

/-- A sequence ends soon enough, or the bytes run out first, or too many bytes follow. -/
theorem sequence_cases (rest : List UInt8) (left : Nat) :
    (∃ more last after, rest = more ++ last :: after ∧ (∀ b ∈ more, 128 ≤ b.toNat) ∧
        last.toNat < 128 ∧ more.length < left) ∨
          ((∀ b ∈ rest, 128 ≤ b.toNat) ∧ rest.length < left) ∨
      ∃ more after, rest = more ++ after ∧ (∀ b ∈ more, 128 ≤ b.toNat) ∧ more.length = left := by
  induction rest generalizing left with
  | nil =>
    cases left with
    | zero => exact .inr (.inr ⟨[], [], rfl, nofun, rfl⟩)
    | succ left => exact .inr (.inl ⟨nofun, Nat.succ_pos _⟩)
  | cons b rest ih =>
    cases left with
    | zero => exact .inr (.inr ⟨[], b :: rest, rfl, nofun, rfl⟩)
    | succ left =>
      by_cases hb : b.toNat < 128
      · exact .inl ⟨[], b, rest, rfl, nofun, hb, Nat.succ_pos _⟩
      have hb : 128 ≤ b.toNat := Nat.le_of_not_lt hb
      rcases ih left with ⟨more, last, after, rfl, hmore, hlast, hlength⟩ | ⟨hrest, hlength⟩ |
        ⟨more, after, rfl, hmore, hlength⟩
      · exact .inl ⟨b :: more, last, after, rfl, forall_mem_cons.2 ⟨hb, hmore⟩, hlast,
          Nat.succ_lt_succ hlength⟩
      · exact .inr (.inl ⟨forall_mem_cons.2 ⟨hb, hrest⟩, Nat.succ_lt_succ hlength⟩)
      · exact .inr (.inr ⟨b :: more, after, rfl, forall_mem_cons.2 ⟨hb, hmore⟩,
          congrArg Nat.succ hlength⟩)

/-! ## Strict reading -/

/-- A number is read exactly where an encoding of it stands, and the position moves behind that.
Otherwise, if the bytes run out, that is reported at their end, and anything else where the number
begins. In particular canonical encodings are read back. -/
structure ReadsStrictly (f : Leb.Format) (m : ReadM α) (view : α → Int) (what : String) : Prop where
  succeeds_iff : ∀ before rest a r', Reads m (between before rest) a r' ↔
    ∃ bs after, rest = bs ++ after ∧ f.Encodes bs (view a) ∧ r' = between (before ++ bs) after
  truncated : ∀ before rest, (∀ b ∈ rest, 128 ≤ b.toNat) → rest.length < lebLength f.width →
    (m.run.run (between before rest)).1 = .error ⟨(before ++ rest).length, .eof what⟩
  malformed : ∀ before rest, (¬∃ bs after v, rest = bs ++ after ∧ f.Encodes bs v) →
    ¬((∀ b ∈ rest, 128 ≤ b.toNat) ∧ rest.length < lebLength f.width) →
    ∃ fault, fault.kind = .malformedLeb ∧
      (m.run.run (between before rest)).1 = .error ⟨before.length, fault⟩
  canonical : ∀ before rest v, f.InRange v → ∃ a, view a = v ∧
    Reads m (between before (f.encode v ++ rest)) a (between (before ++ f.encode v) rest)

/-- What the last possible byte may hold is what keeps the number in range. -/
structure Decides (f : Leb.Format) (reject : Nat → Nat → Bool) (result : Nat → Nat → α)
    (view : α → Int) : Prop where
  value : ∀ more last, f.InRange (f.value (more ++ [last])) →
    view (result (7 * more.length) (Leb.toNat (more ++ [last]))) = f.value (more ++ [last])
  inRange_iff : ∀ more last, more.length < lebLength f.width →
    (f.InRange (f.value (more ++ [last])) ↔
    ¬(more.length + 1 = lebLength f.width ∧ reject (7 * more.length) (last.toNat % 128)))

variable {view : α → Int} {m : ReadM α}

theorem ReadsStrictly.of_scan {f : Leb.Format} {what : String}
    {reject : Nat → Nat → Bool} {result : Nat → Nat → α} (h : Decides f reject result view)
    (hwidth : 0 < f.width) (hview : Function.Injective view)
    (hm : m = get >>= fun r => scan r.pos what reject result (lebLength f.width) 0 0) :
    ReadsStrictly f m view what := by
  have hrun (before rest : List UInt8) : m.run.run (between before rest) =
      (scan before.length what reject result (lebLength f.width) 0 0).run.run
        (between before rest) := by
    rw [hm]
    rfl
  have hsequence {before more after : List UInt8} {last : UInt8} (hmore : ∀ b ∈ more, 128 ≤ b.toNat)
      (hlast : last.toNat < 128) (hlength : more.length < lebLength f.width) :
      m.run.run (between before (more ++ last :: after)) =
        (if more.length + 1 = lebLength f.width ∧ reject (7 * more.length) (last.toNat % 128) then
          failAt before.length (.extraBits what)
        else pure (result (7 * more.length) (Leb.toNat (more ++ [last]))) : ReadM α).run.run
          (between (before ++ (more ++ [last])) after) := by
    rw [hrun, run_scan _ _ _ _ hmore hlast hlength, Nat.zero_add, Nat.zero_add, Nat.shiftLeft_zero]
  have haccepts (before after : List UInt8) {bs : List UInt8} {v : Int} (hbs : f.Encodes bs v) :
      ∃ a, view a = v ∧
      Reads m (between before (bs ++ after)) a (between (before ++ bs) after) := by
    obtain ⟨⟨more, last, rfl, hmore, hlast⟩, hlength, hvalue, hrange⟩ := hbs
    rw [length_append, length_singleton] at hlength
    rw [← hvalue] at hrange
    refine ⟨_, (h.value more last hrange).trans hvalue, ?_⟩
    rw [Reads, append_assoc, singleton_append, hsequence hmore hlast hlength,
      if_neg ((h.inRange_iff more last hlength).1 hrange)]
    rfl
  have hmalformed (before rest : List UInt8)
      (hnone : ¬∃ bs after v, rest = bs ++ after ∧ f.Encodes bs v)
      (hmore : ¬((∀ b ∈ rest, 128 ≤ b.toNat) ∧ rest.length < lebLength f.width)) :
      ∃ fault, fault.kind = .malformedLeb ∧
        (m.run.run (between before rest)).1 = .error ⟨before.length, fault⟩ := by
    rcases sequence_cases rest (lebLength f.width) with ⟨more, last, after,
      rfl, hmore, hlast, hlength⟩ | htruncated | ⟨more, after, rfl, hmore, hlength⟩
    · refine ⟨.extraBits what, rfl, ?_⟩
      have hout : ¬f.InRange (f.value (more ++ [last])) := fun hrange =>
        hnone ⟨more ++ [last], after,
          _, by simp, ⟨more, last, rfl, hmore, hlast⟩, by simp; omega, rfl, hrange⟩
      rw [hsequence hmore hlast hlength,
        if_pos (not_not.1 fun hn => hout ((h.inRange_iff more last hlength).2 hn))]
      rfl
    · exact (hmore htruncated).elim
    · refine ⟨.varintTooLong what, rfl, ?_⟩
      rw [hrun, run_scan_overlong _ _ _ _ hmore hlength]
  have htruncated (before rest : List UInt8) (hrest : ∀ b ∈ rest, 128 ≤ b.toNat)
      (hlength : rest.length < lebLength f.width) :
      (m.run.run (between before rest)).1 = .error ⟨(before ++ rest).length, .eof what⟩ := by
    rw [hrun, run_scan_truncated _ _ _ _ hrest hlength]
  refine ⟨fun before rest a r' => ⟨fun hreads => ?_, ?_⟩, htruncated, hmalformed,
    fun before rest v hv => haccepts before rest (f.encodes_encode hwidth hv)⟩
  · have hok : (m.run.run (between before rest)).1 = .ok a := congrArg Prod.fst hreads
    by_cases hsome : ∃ bs after v, rest = bs ++ after ∧ f.Encodes bs v
    · obtain ⟨bs, after, v, rfl, hbs⟩ := hsome
      obtain ⟨a', rfl, hreads'⟩ := haccepts before after hbs
      cases hreads.symm.trans hreads'
      exact ⟨bs, after, rfl, hbs, rfl⟩
    · by_cases hout : (∀ b ∈ rest, 128 ≤ b.toNat) ∧ rest.length < lebLength f.width
      · rw [htruncated before rest hout.1 hout.2] at hok
        cases hok
      · obtain ⟨fault, -, hfault⟩ := hmalformed before rest hsome hout
        rw [hfault] at hok
        cases hok
  · rintro ⟨bs, after, rfl, hbs, rfl⟩
    obtain ⟨a', ha', hreads⟩ := haccepts before after hbs
    rwa [hview ha'] at hreads

/-- A number in range may be kept in a word. -/
theorem ReadsStrictly.map {f : Leb.Format} {what : String} {g : α → β}
    {view' : β → Int} (h : ReadsStrictly f m view what) (hview' : Function.Injective view')
    (hg : ∀ a, f.InRange (view a) → view' (g a) = view a) :
    ReadsStrictly f (do return g (← m)) view' what := by
  have herror {r : Reader} {e : DecodeError} (hr : (m.run.run r).1 = .error e) :
      ((do return g (← m) : ReadM β).run.run r).1 = .error e := by
    rw [run_run_bind]
    rcases hm : m.run.run r with ⟨e' | a, r'⟩ <;> rw [hm] at hr <;> cases hr
    rfl
  refine ⟨fun before rest b r' => ?_, fun before rest hrest hlength =>
    herror (h.truncated before rest hrest hlength), fun before rest hnone hmore => ?_,
    fun before rest v hv => ?_⟩
  · rw [reads_bind]
    constructor
    · rintro ⟨a, r₁, hreads, hpure⟩
      obtain ⟨rfl, rfl⟩ := hpure.of_pure
      obtain ⟨bs, after, rfl, hbs, hr⟩ := (h.succeeds_iff before rest a r').1 hreads
      exact ⟨bs, after, rfl, (hg a hbs.inRange).symm ▸ hbs, hr⟩
    · rintro ⟨bs, after, rfl, hbs, rfl⟩
      obtain ⟨a, ha, hreads⟩ := h.canonical before [] (view' b) hbs.inRange
      have hview : view' (g a) = view' b := (hg a (ha.symm ▸ hbs.inRange)).trans ha
      refine ⟨a, _, (h.succeeds_iff before _ a _).2 ⟨bs, after, rfl, ha.symm ▸ hbs, rfl⟩, ?_⟩
      exact (reads_pure _ _ _ _).2 ⟨(hview' hview).symm, rfl⟩
  · obtain ⟨fault, hkind, hfault⟩ := h.malformed before rest hnone hmore
    exact ⟨fault, hkind, herror hfault⟩
  · obtain ⟨a, rfl, hreads⟩ := h.canonical before rest v hv
    exact ⟨g a, hg a hv, (reads_bind _ _ _ _ _).2 ⟨a, _, hreads, (reads_pure _ _ _ _).2 ⟨rfl, rfl⟩⟩⟩

theorem readUnsigned_strict (hwidth : 0 < width) (hle : width ≤ 64) (what : String) :
    ReadsStrictly ⟨width, false⟩ (readUnsigned width what) (fun n => (n.toNat : Int)) what := by
  have hvalue : ∀ v : Nat, (⟨width, false⟩ : Leb.Format).InRange v ↔ v < 2 ^ width := by
    intro v
    show (0 ≤ (v : Int) ∧ (v : Int) < 2 ^ width) ↔ _
    norm_cast
    exact ⟨And.right, fun h => ⟨Nat.zero_le _, h⟩⟩
  have hscan : readUnsigned width what = get >>= fun r => scan r.pos what
      (fun shift payload => payload >>> (width - shift) != 0) (fun _ => UInt64.ofNat)
      (lebLength width) 0 0 :=
    congrArg (get >>= ·)
      (funext fun r => unsignedLoop_eq r.pos what hle (Nat.zero_add _) (by decide))
  refine .of_scan ⟨fun more last hrange => ?_, fun more last hlength => ?_⟩ hwidth
    (fun a b heq => UInt64.toNat_inj.1 (Int.ofNat_inj.1 heq)) hscan
  · have hlt := (hvalue _).1 hrange
    have hpow := Nat.pow_le_pow_right (n := 2) (by decide) hle
    exact congrArg Int.ofNat (UInt64.toNat_ofNat_of_lt' (Nat.lt_of_lt_of_le hlt hpow))
  obtain ⟨groups, usable, hgroups, rfl, hlow, hhigh⟩ := Leb.Format.exists_groups hwidth
  dsimp only at hgroups hlength ⊢
  rw [hgroups] at hlength ⊢
  show Leb.Format.InRange _ (Leb.toNat (more ++ [last]) : Int) ↔ _
  rw [hvalue]
  have hmore := Leb.toNat_lt more
  by_cases hlast : more.length = groups
  · subst hlast
    rw [Leb.toNat_concat, Leb.Format.pow_groups, Nat.add_sub_cancel_left, Nat.shiftRight_eq_div_pow]
    have hiff := (Leb.below_iff hmore (last.toNat % 128 : Nat) (2 ^ usable : Nat)).1
    norm_cast at hiff
    rw [hiff, bne_iff_ne, Ne, Nat.div_eq_zero_iff]
    have := Nat.two_pow_pos usable
    simp only [true_and]
    omega
  · have hlt := Leb.toNat_lt (more ++ [last])
    have hle := Nat.pow_le_pow_right (n := 2) (by decide)
      (show 7 * (more ++ [last]).length + 0 ≤ 7 * groups + usable by simp; omega)
    rw [Leb.Format.pow_groups, pow_zero, mul_one] at hle
    exact iff_of_true (by omega) (by omega)

theorem signBitsAgree_iff {usable payload : Nat} (hlow : 1 ≤ usable) (hhigh : usable ≤ 7)
    (hpayload : payload < 128) : signBitsAgree usable (.ofNat payload) = true ↔
      -2 ^ (usable - 1) ≤ Leb.signedGroup payload ∧ Leb.signedGroup payload < 2 ^ (usable - 1) := by
  have hs : (usable - 1) % 2 ^ 8 % 8 = usable - 1 := by omega
  have hp : payload % 2 ^ 8 = payload := by omega
  have hones : UInt8.toNat 0x7F = 127 := rfl
  simp only [signBitsAgree, Leb.signedGroup, Bool.or_eq_true, beq_iff_eq, ← UInt8.toNat_inj,
    UInt8.toNat_shiftRight, UInt8.toNat_ofNat', hs, hp, hones, Nat.shiftRight_eq_div_pow]
  interval_cases usable <;> norm_num <;> split <;> omega

theorem readSigned_strict (hwidth : 0 < width) (hle : width ≤ 64) (what : String) :
    ReadsStrictly ⟨width, true⟩ (readSigned width what) Int64.toInt what := by
  have hscan : readSigned width what = get >>= fun r => scan r.pos what
      (fun shift payload => !signBitsAgree (width - shift) (.ofNat payload))
      (fun shift value => Int64.ofInt (BitVec.ofNat (shift + 7) value).toInt)
        (lebLength width) 0 0 :=
    congrArg (get >>= ·) (funext fun r => signedLoop_eq r.pos what hle (Nat.zero_add _) (by decide))
  refine .of_scan ⟨fun more last hrange => ?_, fun more last hlength => ?_⟩ hwidth
    (fun a b => Int64.toInt_inj.1) hscan
  · have hbits : (BitVec.ofNat (7 * more.length + 7) (Leb.toNat (more ++ [last]))).toInt =
        Leb.toInt (more ++ [last]) := by
      have hlt := Leb.toNat_lt (more ++ [last])
      have hpow : 128 ^ (more ++ [last]).length = 2 ^ (7 * more.length + 7) := by
        rw [length_append, length_singleton, Leb.Format.pow_groups, pow_succ]
        norm_num
      rw [hpow] at hlt
      rw [BitVec.toInt_eq_toNat_cond, BitVec.toNat_ofNat, Nat.mod_eq_of_lt hlt, Leb.toInt, hpow]
      norm_cast
      rw [hpow]
    have hpow : (2 : Int) ^ (width - 1) ≤ 2 ^ 63 := by
      exact_mod_cast Nat.pow_le_pow_right (n := 2) (by decide) (show width - 1 ≤ 63 by omega)
    have hrange : -2 ^ (width - 1) ≤ Leb.toInt (more ++ [last]) ∧
      Leb.toInt (more ++ [last]) < 2 ^ (width - 1) := hrange
    show (Int64.ofInt _).toInt = Leb.toInt (more ++ [last])
    rw [hbits]
    exact Int64.toInt_ofInt_of_le (by omega) (by omega)
  · obtain ⟨groups, usable, hgroups, rfl, hlow, hhigh⟩ := Leb.Format.exists_groups hwidth
    dsimp only at hgroups hlength ⊢
    rw [hgroups] at hlength ⊢
    show (-2 ^ (7 * groups + usable - 1) ≤ Leb.toInt (more ++ [last]) ∧
      Leb.toInt (more ++ [last]) < 2 ^ (7 * groups + usable - 1)) ↔ _
    have hmore := Leb.toNat_lt more
    have hpayload : last.toNat % 128 < 128 := Nat.mod_lt _ (by decide)
    rw [Leb.toInt_concat]
    have hiff (bound : Nat) := Leb.below_iff hmore (Leb.signedGroup (last.toNat % 128)) bound
    push_cast at hiff
    by_cases hlast : more.length = groups
    · subst hlast
      have hpow : (2 : Int) ^ (7 * more.length + usable - 1) =
          128 ^ more.length * (2 ^ (usable - 1) : Nat) := by
        rw [Nat.add_sub_assoc hlow]
        exact_mod_cast Leb.Format.pow_groups more.length (usable - 1)
      rw [hpow, (hiff _).1, (hiff _).2, Nat.add_sub_cancel_left]
      have hagree := signBitsAgree_iff hlow hhigh hpayload
      push_cast
      rw [← hagree]
      simp
    · have hgroup : -64 ≤ Leb.signedGroup (last.toNat % 128) ∧
          Leb.signedGroup (last.toNat % 128) < 64 := by
        unfold Leb.signedGroup
        split <;> omega
      have hle := Nat.pow_le_pow_right (n := 2) (by decide)
        (show 7 * more.length + 6 ≤ 7 * groups + usable - 1 by omega)
      rw [Leb.Format.pow_groups] at hle
      have hcast : (128 : Int) ^ more.length * (64 : Nat) ≤ 2 ^ (7 * groups + usable - 1) := by
        exact_mod_cast hle
      have hhigh := (hiff 64).1.2 hgroup.2
      have hlow := (hiff 64).2.2 hgroup.1
      exact iff_of_true ⟨by omega, by omega⟩ (by omega)

/-- Numbers are read exactly from their strict encodings: of 32 bits without a sign, and of 32, 33
and 64 bits with one. -/
theorem leb_numbers_are_read_strictly (what : String) :
    ReadsStrictly ⟨32, false⟩ (readU32 what) (fun n => (n : Int)) what ∧
      ReadsStrictly ⟨32, true⟩ (readI32 what) Int32.toInt what ∧
      ReadsStrictly ⟨33, true⟩ (readI33 what) id what ∧
      ReadsStrictly ⟨64, true⟩ (readI64 what) Int64.toInt what := by
  refine ⟨?_, ?_, ?_, readSigned_strict (by decide) (by decide) what⟩
  · refine (readUnsigned_strict (by decide) (by decide) what).map Nat.cast_injective fun n hn => ?_
    have hlt : (n.toNat : Int) < 2 ^ 32 := hn.2
    rw [UInt64.toNat_toUInt32, Nat.mod_eq_of_lt (by omega)]
  · refine (readSigned_strict (by decide) (by decide) what).map (fun a b => Int32.toInt_inj.1)
      fun v hv => ?_
    have hrange : -2 ^ 31 ≤ v.toInt ∧ v.toInt < 2 ^ 31 := hv
    rw [Int64.toInt_toInt32]
    exact Int.bmod_eq_of_le (by omega) (by omega)
  · exact (readSigned_strict (by decide) (by decide) what).map Function.injective_id fun _ _ => rfl

end Reader

end OnePass
