import OnePass.ValueType

/-!
The shapes of linear-memory accesses: how many bytes are touched, and which type they are widened to
or narrowed from.
-/
namespace OnePass

inductive LoadType where
  | i32Load | i32Load8S | i32Load8U | i32Load16S | i32Load16U
  | i64Load | i64Load8S | i64Load8U | i64Load16S | i64Load16U | i64Load32S | i64Load32U
  | f32Load | f64Load | v128Load
  deriving DecidableEq, Repr, Inhabited

namespace LoadType

/-- In code order. -/
def all : List LoadType :=
  [i32Load, i32Load8S, i32Load8U, i32Load16S, i32Load16U,
    i64Load, i64Load8S, i64Load8U, i64Load16S, i64Load16U, i64Load32S, i64Load32U,
    f32Load, f64Load, v128Load]

/-- The byte that names the shape in a machine instruction. -/
def code : LoadType → UInt8
  | i32Load => 0
  | i32Load8S => 1
  | i32Load8U => 2
  | i32Load16S => 3
  | i32Load16U => 4
  | i64Load => 5
  | i64Load8S => 6
  | i64Load8U => 7
  | i64Load16S => 8
  | i64Load16U => 9
  | i64Load32S => 10
  | i64Load32U => 11
  | f32Load => 12
  | f64Load => 13
  | v128Load => 14

def ofCode? (c : UInt8) : Option LoadType := all.find? (·.code == c)

theorem ofCode?_code (t : LoadType) : ofCode? t.code = some t := by
  cases t <;> decide

def ident : LoadType → String
  | i32Load => "I32Load"
  | i32Load8S => "I32Load8S"
  | i32Load8U => "I32Load8U"
  | i32Load16S => "I32Load16S"
  | i32Load16U => "I32Load16U"
  | i64Load => "I64Load"
  | i64Load8S => "I64Load8S"
  | i64Load8U => "I64Load8U"
  | i64Load16S => "I64Load16S"
  | i64Load16U => "I64Load16U"
  | i64Load32S => "I64Load32S"
  | i64Load32U => "I64Load32U"
  | f32Load => "F32Load"
  | f64Load => "F64Load"
  | v128Load => "V128Load"

/-- The instruction's name in the text format. -/
def name : LoadType → String
  | i32Load => "i32.load"
  | i32Load8S => "i32.load8_s"
  | i32Load8U => "i32.load8_u"
  | i32Load16S => "i32.load16_s"
  | i32Load16U => "i32.load16_u"
  | i64Load => "i64.load"
  | i64Load8S => "i64.load8_s"
  | i64Load8U => "i64.load8_u"
  | i64Load16S => "i64.load16_s"
  | i64Load16U => "i64.load16_u"
  | i64Load32S => "i64.load32_s"
  | i64Load32U => "i64.load32_u"
  | f32Load => "f32.load"
  | f64Load => "f64.load"
  | v128Load => "v128.load"

/-- The type of the loaded value. -/
def valueType : LoadType → ValueType
  | i32Load | i32Load8S | i32Load8U | i32Load16S | i32Load16U => .i32
  | i64Load | i64Load8S | i64Load8U | i64Load16S | i64Load16U | i64Load32S | i64Load32U => .i64
  | f32Load => .f32
  | f64Load => .f64
  | v128Load => .v128

def sizeLog2 : LoadType → Nat
  | i32Load8S | i32Load8U | i64Load8S | i64Load8U => 0
  | i32Load16S | i32Load16U | i64Load16S | i64Load16U => 1
  | i32Load | i64Load32S | i64Load32U | f32Load => 2
  | i64Load | f64Load => 3
  | v128Load => 4

/-- Bytes read. -/
def size (t : LoadType) : Nat := 1 <<< t.sizeLog2

/-- The load of a whole value. References are as wide as `i64`. -/
def ofValueType : ValueType → LoadType
  | .i32 => i32Load
  | .f32 => f32Load
  | .f64 => f64Load
  | .v128 => v128Load
  | _ => i64Load

end LoadType

inductive StoreType where
  | i32Store | i32Store8 | i32Store16
  | i64Store | i64Store8 | i64Store16 | i64Store32
  | f32Store | f64Store | v128Store
  deriving DecidableEq, Repr, Inhabited

namespace StoreType

/-- In code order. -/
def all : List StoreType :=
  [i32Store, i32Store8, i32Store16, i64Store, i64Store8, i64Store16, i64Store32,
    f32Store, f64Store, v128Store]

/-- The byte that names the shape in a machine instruction. -/
def code : StoreType → UInt8
  | i32Store => 0
  | i32Store8 => 1
  | i32Store16 => 2
  | i64Store => 3
  | i64Store8 => 4
  | i64Store16 => 5
  | i64Store32 => 6
  | f32Store => 7
  | f64Store => 8
  | v128Store => 9

def ofCode? (c : UInt8) : Option StoreType := all.find? (·.code == c)

theorem ofCode?_code (t : StoreType) : ofCode? t.code = some t := by
  cases t <;> decide

def ident : StoreType → String
  | i32Store => "I32Store"
  | i32Store8 => "I32Store8"
  | i32Store16 => "I32Store16"
  | i64Store => "I64Store"
  | i64Store8 => "I64Store8"
  | i64Store16 => "I64Store16"
  | i64Store32 => "I64Store32"
  | f32Store => "F32Store"
  | f64Store => "F64Store"
  | v128Store => "V128Store"

/-- The instruction's name in the text format. -/
def name : StoreType → String
  | i32Store => "i32.store"
  | i32Store8 => "i32.store8"
  | i32Store16 => "i32.store16"
  | i64Store => "i64.store"
  | i64Store8 => "i64.store8"
  | i64Store16 => "i64.store16"
  | i64Store32 => "i64.store32"
  | f32Store => "f32.store"
  | f64Store => "f64.store"
  | v128Store => "v128.store"

/-- The type of the stored value. -/
def valueType : StoreType → ValueType
  | i32Store | i32Store8 | i32Store16 => .i32
  | i64Store | i64Store8 | i64Store16 | i64Store32 => .i64
  | f32Store => .f32
  | f64Store => .f64
  | v128Store => .v128

def sizeLog2 : StoreType → Nat
  | i32Store8 | i64Store8 => 0
  | i32Store16 | i64Store16 => 1
  | i32Store | i64Store32 | f32Store => 2
  | i64Store | f64Store => 3
  | v128Store => 4

/-- Bytes written. -/
def size (t : StoreType) : Nat := 1 <<< t.sizeLog2

/-- The store of a whole value. References are as wide as `i64`. -/
def ofValueType : ValueType → StoreType
  | .i32 => i32Store
  | .f32 => f32Store
  | .f64 => f64Store
  | .v128 => v128Store
  | _ => i64Store

end StoreType

end OnePass
