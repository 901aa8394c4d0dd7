import OnePass.ValueType
import OnePass.Text.Hex

/-!
Function types: the types of the parameters followed by those of the results.
-/
namespace OnePass

structure Signature where
  params : List ValueType
  results : List ValueType
  deriving DecidableEq, Repr, Inhabited

namespace Signature

private def parenthesized (types : List ValueType) : String :=
  "(" ++ Text.joinWith ", " (types.map ValueType.name) ++ ")"

/-- Both lists in parentheses with an arrow between them, as in `(i32, f64) -> ()`. -/
def text (s : Signature) : String :=
  parenthesized s.params ++ " -> " ++ parenthesized s.results

instance : ToString Signature := ⟨text⟩

end Signature

end OnePass
