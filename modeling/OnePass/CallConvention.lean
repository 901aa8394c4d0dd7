import OnePass.Register

/-!
How arguments are passed: the first of each class in registers, the others on the stack.
-/
namespace OnePass

inductive ArgPlace where
  | reg (r : Reg)
  /-- So many stack arguments come before it. -/
  | stack (index : Nat)
  deriving DecidableEq, Repr

namespace ArgPlace

/-- Where a function finds its arguments, given the registers left and the number of stack arguments
before. -/
def assign (gps fps : List Reg) (stacked : Nat) : List ValueType → List ArgPlace
  | [] => []
  | ty :: rest =>
    match RegClass.ofType ty, gps, fps with
    | .gp, r :: gps, fps => .reg r :: assign gps fps stacked rest
    | .fp, gps, r :: fps => .reg r :: assign gps fps stacked rest
    | _, gps, fps => .stack stacked :: assign gps fps (stacked + 1) rest

/-- The places of arguments of the given types. -/
def ofTypes (types : List ValueType) : List ArgPlace :=
  assign (Reg.params .gp) (Reg.params .fp) 0 types

/-- Where a caller puts arguments, given the numbers of integers, of floats and of stack arguments
before. -/
def count (gps fps stacked : Nat) : List ValueType → List ArgPlace
  | [] => []
  | ty :: rest =>
    let c := RegClass.ofType ty
    let next := match c with
      | .gp => gps
      | .fp => fps
    let gps := if c = .gp then gps + 1 else gps
    let fps := if c = .fp then fps + 1 else fps
    match (Reg.params c)[next]? with
    | some r => .reg r :: count gps fps stacked rest
    | none => .stack stacked :: count gps fps (stacked + 1) rest

/-- The places that a caller finds for arguments of the given types. -/
def passed (types : List ValueType) : List ArgPlace := count 0 0 0 types

@[simp] theorem length_assign (gps fps : List Reg) (stacked : Nat) (types : List ValueType) :
    (assign gps fps stacked types).length = types.length := by
  induction types generalizing gps fps stacked with
  | nil => rfl
  | cons ty rest ih =>
    cases h : RegClass.ofType ty <;> cases gps <;> cases fps <;> simp [assign, h, ih]

end ArgPlace

end OnePass
