/-!
The types of operands, locals, globals and merge slots, with the subtype order that the decoder
checks against. Types are invariant except for `bottom`, which stands for an operand taken from
the polymorphic stack of unreachable code and lies below every type.
-/
namespace OnePass

inductive ValueType where
  | i32 | i64 | f32 | f64 | v128 | funcref | externref | bottom
  deriving DecidableEq, Repr, Inhabited

namespace ValueType

/-- The one-byte encoding. `bottom` never occurs in a body and has none. -/
def code? : ValueType → Option UInt8
  | i32 => some 0x7F
  | i64 => some 0x7E
  | f32 => some 0x7D
  | f64 => some 0x7C
  | v128 => some 0x7B
  | funcref => some 0x70
  | externref => some 0x6F
  | bottom => none

def ofCode? (code : UInt8) : Option ValueType :=
  [i32, i64, f32, f64, v128, funcref, externref].find? (·.code? == some code)

def name : ValueType → String
  | i32 => "i32"
  | i64 => "i64"
  | f32 => "f32"
  | f64 => "f64"
  | v128 => "v128"
  | funcref => "funcref"
  | externref => "externref"
  | bottom => "<bot>"

instance : ToString ValueType := ⟨name⟩

/-- Every type, `bottom` last. -/
def all : List ValueType := [i32, i64, f32, f64, v128, funcref, externref, bottom]

def ofName? (text : String) : Option ValueType :=
  all.find? (·.name == text)

def isReference : ValueType → Bool
  | funcref | externref => true
  | _ => false

def isInteger : ValueType → Bool
  | i32 | i64 => true
  | _ => false

def isFloat : ValueType → Bool
  | f32 | f64 => true
  | _ => false

/-- Bytes a value takes in memory. -/
def sizeBytes : ValueType → Nat
  | i32 | f32 => 4
  | i64 | f64 | funcref | externref => 8
  | v128 => 16
  | bottom => 0

/-- The subtype order: a type is below itself, and `bottom` is below every type. -/
def isSubtypeOf (a b : ValueType) : Bool :=
  a == b || a == bottom

/-- The greatest type below both. -/
def commonSubtype (a b : ValueType) : ValueType :=
  if a.isSubtypeOf b then a
  else if b.isSubtypeOf a then b
  else bottom

theorem ofCode?_code {t : ValueType} {c : UInt8} (h : t.code? = some c) : ofCode? c = some t := by
  cases t <;> simp [code?] at h <;> subst h <;> decide

theorem isSubtypeOf_refl (t : ValueType) : t.isSubtypeOf t = true := by
  simp [isSubtypeOf]

end ValueType

end OnePass
