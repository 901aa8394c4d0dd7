import OnePass.CallConvention
import OnePass.Emitter.Allocation
import OnePass.Emitter.Merge

/-!
Passing arguments and taking results.
-/
namespace OnePass

namespace Emitter

/-- Write an argument that goes on the stack; other arguments are moved later. -/
def storeArg (e : Emitter) (slot : Slot) (ty : ValueType) : ArgPlace → Emitter
  | .reg _ => e
  | .stack index =>
    match slot.loc with
    | .reg r => e.emit (.storeStackArg ty (.ofNat index) r)
    | _ =>
      let r := Reg.scratch slot.regClass
      (e.loadSlot slot r).emit (.storeStackArg ty (.ofNat index) r)

def loadArg (t : Transfer) (slot : Slot) : ArgPlace → Transfer
  | .reg r => t.load r slot
  | .stack _ => t

/-- Write the arguments that go on the stack. -/
def storeArgs (e : Emitter) (args : List (Slot × ValueType × ArgPlace)) : Emitter :=
  args.foldl (fun e (slot, ty, place) => e.storeArg slot ty place) e

/-- The transfer that loads arguments into registers. -/
def loadArgs (t : Transfer) (args : List (Slot × ValueType × ArgPlace)) : Transfer :=
  args.foldl (fun t (slot, _, place) => loadArg t slot place) t

/-- Take the topmost values as arguments and put them in their places; spill every other register.
Afterwards no register backs a slot. -/
def prepareCall (params : List ValueType) : EmitM Unit := do
  let e ← get
  if e.state.height < params.length then throw .underflow
  let base := e.state.height - params.length
  modify (·.spillWhere (·.reg?.isSome) (List.range base))
  let e ← get
  let args := (e.state.slots.toList.drop base).zip (params.zip (ArgPlace.passed params))
  let deepest := max e.state.maxOffset e.state.topOffset
  modify (·.storeArgs args)
  modify fun e => (e.transfer (loadArgs { deepest } args)).modifyState (·.dropValues params.length)

/-- Bring the instance back after a call and push the result. -/
def finishCall (result : Option ValueType) : EmitM Unit := do
  modify (·.fill .i64 .instanceReg instanceOffset)
  match result with
  | some ty => pushReg ty (.result ty)
  | none => return

end Emitter

end OnePass
