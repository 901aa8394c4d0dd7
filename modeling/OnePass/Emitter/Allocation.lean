import OnePass.Emitter.Basic

/-!
Registers for operands and results. When none is free, one is spilled.
-/
namespace OnePass

namespace Emitter

/-- Free a register of a class by spilling what it backs. -/
def spillOneReg (c : RegClass) (pinned : RegSet) : EmitM Reg := do
  let (r, state) := (← get).state.nextSpill? c pinned
  modify fun e => { e with state }
  match r with
  | some r =>
    modify (·.spillReg r)
    return r
  | none => throw (.internal s!"every {c.ident} register is pinned")

/-- A register that backs no slot. -/
def unusedReg (c : RegClass) (pinned : RegSet := .empty) : EmitM Reg := do
  match (← get).state.unused? c pinned with
  | some r => return r
  | none => spillOneReg c pinned

/-- A register that backs no slot, if possible one of the candidates: so a result can take the
register of an operand. -/
def unusedRegFrom (c : RegClass) (candidates : RegSet) (pinned : RegSet := .empty) : EmitM Reg := do
  let state := (← get).state
  let fits (r : Reg) : Bool := r.regClass == c && !state.isUsed r && !pinned.contains r
  match candidates.toList.find? fits with
  | some r => return r
  | none => unusedReg c pinned

def popSlot : EmitM Slot := do
  match (← get).state.pop? with
  | some (slot, state) =>
    modify fun e => { e with state }
    return slot
  | none => throw .underflow

def peekSlot (depth : Nat := 0) : EmitM Slot := do
  match (← get).state.peek? depth with
  | some slot => return slot
  | none => throw .underflow

/-- Pop a value into a register. The register may still back other slots. -/
def popToReg (pinned : RegSet := .empty) : EmitM Reg := do
  let slot ← popSlot
  match slot.loc with
  | .reg r => return r
  | _ =>
    let r ← unusedReg slot.regClass pinned
    modify (·.loadSlot slot r)
    return r

/-- Pop a value into a register that backs no slot, so that it may be overwritten. -/
def popToModifiableReg (pinned : RegSet := .empty) : EmitM Reg := do
  let slot ← peekSlot
  match slot.reg? with
  | some r =>
    if (← get).state.useCount r > 1 then
      let _ ← popSlot
      let copy ← unusedReg slot.regClass (pinned.insert r)
      modify (·.moveReg slot.ty copy r)
      return copy
    else popToReg pinned
  | none => popToReg pinned

/-- Push a value that a register holds. Ill-typed code in trusted mode can offer a register that
holds no values of the type. -/
def pushReg (ty : ValueType) (r : Reg) : EmitM Unit := do
  if r.regClass = .ofType ty then modify (·.modifyState (·.push ty (.reg r)))
  else throw (.internal s!"{ty.name} value in {r.regClass.ident} register {r.name}")

end Emitter

end OnePass
