import OnePass.ValueType

/-!
Numeric and vector operators, factored by operand width and signedness. Each operator has a code
within its opcode page, an identifier, a name in the text format, and operand and result types.
-/
namespace OnePass

/-- The two widths of scalars: 32 and 64 bits. -/
inductive Width where
  | w32 | w64
  deriving DecidableEq, Repr

namespace Width

def all : List Width := [w32, w64]

def int : Width → ValueType
  | w32 => .i32
  | w64 => .i64

def float : Width → ValueType
  | w32 => .f32
  | w64 => .f64

/-- `32` or `64`, for identifiers. -/
def digits : Width → String
  | w32 => "32"
  | w64 => "64"

end Width

inductive Signedness where
  | signed | unsigned
  deriving DecidableEq, Repr

namespace Signedness

def all : List Signedness := [signed, unsigned]

def index : Signedness → Nat
  | signed => 0
  | unsigned => 1

def ident : Signedness → String
  | signed => "S"
  | unsigned => "U"

def suffix : Signedness → String
  | signed => "_s"
  | unsigned => "_u"

end Signedness

/-- Integer comparisons. -/
inductive IntRel where
  | eq | ne | ltS | ltU | gtS | gtU | leS | leU | geS | geU
  deriving DecidableEq, Repr

namespace IntRel

def all : List IntRel := [eq, ne, ltS, ltU, gtS, gtU, leS, leU, geS, geU]

def index : IntRel → Nat
  | eq => 0
  | ne => 1
  | ltS => 2
  | ltU => 3
  | gtS => 4
  | gtU => 5
  | leS => 6
  | leU => 7
  | geS => 8
  | geU => 9

def ident : IntRel → String
  | eq => "Eq"
  | ne => "Ne"
  | ltS => "LtS"
  | ltU => "LtU"
  | gtS => "GtS"
  | gtU => "GtU"
  | leS => "LeS"
  | leU => "LeU"
  | geS => "GeS"
  | geU => "GeU"

def name : IntRel → String
  | eq => "eq"
  | ne => "ne"
  | ltS => "lt_s"
  | ltU => "lt_u"
  | gtS => "gt_s"
  | gtU => "gt_u"
  | leS => "le_s"
  | leU => "le_u"
  | geS => "ge_s"
  | geU => "ge_u"

end IntRel

/-- Float comparisons. -/
inductive FloatRel where
  | eq | ne | lt | gt | le | ge
  deriving DecidableEq, Repr

namespace FloatRel

def all : List FloatRel := [eq, ne, lt, gt, le, ge]

def index : FloatRel → Nat
  | eq => 0
  | ne => 1
  | lt => 2
  | gt => 3
  | le => 4
  | ge => 5

def ident : FloatRel → String
  | eq => "Eq"
  | ne => "Ne"
  | lt => "Lt"
  | gt => "Gt"
  | le => "Le"
  | ge => "Ge"

def name : FloatRel → String
  | eq => "eq"
  | ne => "ne"
  | lt => "lt"
  | gt => "gt"
  | le => "le"
  | ge => "ge"

end FloatRel

inductive IntUnary where
  | clz | ctz | popcnt
  deriving DecidableEq, Repr

namespace IntUnary

def all : List IntUnary := [clz, ctz, popcnt]

def index : IntUnary → Nat
  | clz => 0
  | ctz => 1
  | popcnt => 2

def ident : IntUnary → String
  | clz => "Clz"
  | ctz => "Ctz"
  | popcnt => "Popcnt"

def name : IntUnary → String
  | clz => "clz"
  | ctz => "ctz"
  | popcnt => "popcnt"

end IntUnary

inductive IntBinary where
  | add | sub | mul | divS | divU | remS | remU | and | or | xor | shl | shrS | shrU | rotl | rotr
  deriving DecidableEq, Repr

namespace IntBinary

def all : List IntBinary :=
  [add, sub, mul, divS, divU, remS, remU, and, or, xor, shl, shrS, shrU, rotl, rotr]

def index : IntBinary → Nat
  | add => 0
  | sub => 1
  | mul => 2
  | divS => 3
  | divU => 4
  | remS => 5
  | remU => 6
  | and => 7
  | or => 8
  | xor => 9
  | shl => 10
  | shrS => 11
  | shrU => 12
  | rotl => 13
  | rotr => 14

def ident : IntBinary → String
  | add => "Add"
  | sub => "Sub"
  | mul => "Mul"
  | divS => "DivS"
  | divU => "DivU"
  | remS => "RemS"
  | remU => "RemU"
  | and => "And"
  | or => "Or"
  | xor => "Xor"
  | shl => "Shl"
  | shrS => "ShrS"
  | shrU => "ShrU"
  | rotl => "Rotl"
  | rotr => "Rotr"

def name : IntBinary → String
  | add => "add"
  | sub => "sub"
  | mul => "mul"
  | divS => "div_s"
  | divU => "div_u"
  | remS => "rem_s"
  | remU => "rem_u"
  | and => "and"
  | or => "or"
  | xor => "xor"
  | shl => "shl"
  | shrS => "shr_s"
  | shrU => "shr_u"
  | rotl => "rotl"
  | rotr => "rotr"

/-- Division and remainder, which trap on a zero divisor. -/
def isDivision : IntBinary → Bool
  | divS | divU | remS | remU => true
  | _ => false

def isRemainder : IntBinary → Bool
  | remS | remU => true
  | _ => false

end IntBinary

inductive FloatUnary where
  | abs | neg | ceil | floor | trunc | nearest | sqrt
  deriving DecidableEq, Repr

namespace FloatUnary

def all : List FloatUnary := [abs, neg, ceil, floor, trunc, nearest, sqrt]

def index : FloatUnary → Nat
  | abs => 0
  | neg => 1
  | ceil => 2
  | floor => 3
  | trunc => 4
  | nearest => 5
  | sqrt => 6

def ident : FloatUnary → String
  | abs => "Abs"
  | neg => "Neg"
  | ceil => "Ceil"
  | floor => "Floor"
  | trunc => "Trunc"
  | nearest => "Nearest"
  | sqrt => "Sqrt"

def name : FloatUnary → String
  | abs => "abs"
  | neg => "neg"
  | ceil => "ceil"
  | floor => "floor"
  | trunc => "trunc"
  | nearest => "nearest"
  | sqrt => "sqrt"

end FloatUnary

inductive FloatBinary where
  | add | sub | mul | div | min | max | copysign
  deriving DecidableEq, Repr

namespace FloatBinary

def all : List FloatBinary := [add, sub, mul, div, min, max, copysign]

def index : FloatBinary → Nat
  | add => 0
  | sub => 1
  | mul => 2
  | div => 3
  | min => 4
  | max => 5
  | copysign => 6

def ident : FloatBinary → String
  | add => "Add"
  | sub => "Sub"
  | mul => "Mul"
  | div => "Div"
  | min => "Min"
  | max => "Max"
  | copysign => "CopySign"

def name : FloatBinary → String
  | add => "add"
  | sub => "sub"
  | mul => "mul"
  | div => "div"
  | min => "min"
  | max => "max"
  | copysign => "copysign"

end FloatBinary

inductive VecUnary where
  | splatI8x16 | splatI32x4 | splatF32x4 | not
  deriving DecidableEq, Repr

namespace VecUnary

def all : List VecUnary := [splatI8x16, splatI32x4, splatF32x4, not]

def input : VecUnary → ValueType
  | splatI8x16 | splatI32x4 => .i32
  | splatF32x4 => .f32
  | not => .v128

def ident : VecUnary → String
  | splatI8x16 => "I8x16Splat"
  | splatI32x4 => "I32x4Splat"
  | splatF32x4 => "F32x4Splat"
  | not => "V128Not"

def name : VecUnary → String
  | splatI8x16 => "i8x16.splat"
  | splatI32x4 => "i32x4.splat"
  | splatF32x4 => "f32x4.splat"
  | not => "v128.not"

end VecUnary

inductive VecBinary where
  | and | or | xor | addI8x16 | addI32x4 | subI32x4 | mulI32x4 | addF32x4
  deriving DecidableEq, Repr

namespace VecBinary

def all : List VecBinary := [and, or, xor, addI8x16, addI32x4, subI32x4, mulI32x4, addF32x4]

def ident : VecBinary → String
  | and => "V128And"
  | or => "V128Or"
  | xor => "V128Xor"
  | addI8x16 => "I8x16Add"
  | addI32x4 => "I32x4Add"
  | subI32x4 => "I32x4Sub"
  | mulI32x4 => "I32x4Mul"
  | addF32x4 => "F32x4Add"

def name : VecBinary → String
  | and => "v128.and"
  | or => "v128.or"
  | xor => "v128.xor"
  | addI8x16 => "i8x16.add"
  | addI32x4 => "i32x4.add"
  | subI32x4 => "i32x4.sub"
  | mulI32x4 => "i32x4.mul"
  | addF32x4 => "f32x4.add"

end VecBinary

/-- Operators with one operand and no immediates. -/
inductive UnaryOp where
  | eqz (w : Width)
  | int (w : Width) (op : IntUnary)
  | float (w : Width) (op : FloatUnary)
  | wrap
  /-- Float to integer; traps when the result is not representable. -/
  | truncate (dst src : Width) (sign : Signedness)
  | extend (sign : Signedness)
  | convert (dst src : Width) (sign : Signedness)
  | demote
  | promote
  | reinterpretFloat (w : Width)
  | reinterpretInt (w : Width)
  | extend8 (w : Width)
  | extend16 (w : Width)
  | extend32
  /-- Float to integer; saturates. -/
  | truncateSat (dst src : Width) (sign : Signedness)
  | vector (op : VecUnary)
  deriving DecidableEq, Repr

namespace UnaryOp

def input : UnaryOp → ValueType
  | eqz w | int w _ | extend8 w | extend16 w | reinterpretInt w => w.int
  | float w _ | reinterpretFloat w => w.float
  | wrap | extend32 => .i64
  | truncate _ src _ | truncateSat _ src _ => src.float
  | extend _ => .i32
  | convert _ src _ => src.int
  | demote => .f64
  | promote => .f32
  | vector op => op.input

def output : UnaryOp → ValueType
  | eqz _ | wrap => .i32
  | int w _ | extend8 w | extend16 w | reinterpretFloat w => w.int
  | float w _ | reinterpretInt w => w.float
  | truncate dst _ _ | truncateSat dst _ _ => dst.int
  | extend _ | extend32 => .i64
  | convert dst _ _ => dst.float
  | demote => .f32
  | promote => .f64
  | vector _ => .v128

/-- Conversions that branch to a trap when the result is not representable. -/
def isTrapping : UnaryOp → Bool
  | truncate .. => true
  | _ => false

end UnaryOp

/-- Operators with two operands of one type and no immediates. -/
inductive BinaryOp where
  | intCompare (w : Width) (rel : IntRel)
  | floatCompare (w : Width) (rel : FloatRel)
  | int (w : Width) (op : IntBinary)
  | float (w : Width) (op : FloatBinary)
  | vector (op : VecBinary)
  deriving DecidableEq, Repr

namespace BinaryOp

/-- The type of both operands. -/
def operand : BinaryOp → ValueType
  | intCompare w _ | int w _ => w.int
  | floatCompare w _ | float w _ => w.float
  | vector _ => .v128

def output : BinaryOp → ValueType
  | intCompare .. | floatCompare .. => .i32
  | int w _ => w.int
  | float w _ => w.float
  | vector _ => .v128

def isComparison : BinaryOp → Bool
  | intCompare .. | floatCompare .. => true
  | _ => false

/-- Operators with a form for a constant right operand. -/
def hasImmediateForm : BinaryOp → Bool
  | int w op =>
    match op with
    | .add | .sub | .and | .or | .xor | .shl | .shrS | .shrU => true
    | .mul => w == .w32
    | _ => false
  | _ => false

end BinaryOp

end OnePass
