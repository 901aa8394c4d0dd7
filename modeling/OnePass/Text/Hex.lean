/-!
Hexadecimal text of numbers and of byte sequences, in lower case.
-/
namespace OnePass.Text

/-- The hexadecimal digits of `n`, without leading zeros; `0` for zero. -/
def hex (n : Nat) : String :=
  String.ofList (Nat.toDigits 16 n)

/-- The hexadecimal digits of `n`, filled with zeros to at least `width` digits. -/
def hexPadded (width n : Nat) : String :=
  let digits := Nat.toDigits 16 n
  String.ofList (List.replicate (width - digits.length) '0' ++ digits)

/-- A number with the customary `0x` in front. -/
def hexLiteral (n : Nat) : String := "0x" ++ hex n

/-- A byte with `0x` in front and always two digits. -/
def hexByte (b : UInt8) : String := "0x" ++ hexPadded 2 b.toNat

/-- Two digits per byte, in order. -/
def hexBytes (bytes : List UInt8) : String :=
  String.join (bytes.map fun b => hexPadded 2 b.toNat)

/-- The texts one after another with `separator` between neighbours. -/
def joinWith (separator : String) (parts : List String) : String :=
  String.intercalate separator parts

end OnePass.Text
