import OnePass.Bisection
import OnePass.Cache.State

/-!
Where values live at selected points of the code, for a debugger that stops there: one entry per
point, each with the places of the locals and the operands.
-/
namespace OnePass

inductive DebugPlace where
  | const (value : Int32)
  | reg (r : Reg)
  | stack (offset : Nat)
  deriving DecidableEq, Repr

structure DebugValue where
  ty : ValueType
  place : DebugPlace
  deriving DecidableEq, Repr

def DebugValue.text (v : DebugValue) : String :=
  match v.place with
  | .const value => s!"{v.ty.name}:const({value.toInt})"
  | .reg r => s!"{v.ty.name}:{r.name}"
  | .stack offset => s!"{v.ty.name}:[fp-{offset}]"

structure SideEntry where
  pc : Nat
  /-- The locals, then the operands, the topmost last. -/
  values : List DebugValue
  deriving DecidableEq, Repr

namespace SideEntry

def height (e : SideEntry) : Nat := e.values.length

def text (e : SideEntry) : String :=
  String.join (s!"  @{e.pc}:" :: e.values.map fun v => " " ++ v.text)

end SideEntry

/-- How an entry shows what a register holds. -/
inductive RegisterView where
  /-- The code at this point spills registers, so they are shown in the frame. -/
  | assumeSpilled
  /-- Registers are preserved and shown as such. -/
  | allowRegs
  /-- No register backs a slot here. -/
  | didSpill
  deriving DecidableEq, Repr

def DebugValue.ofSlot (view : RegisterView) (slot : Slot) : DebugValue :=
  match slot.loc with
  | .const value => ⟨slot.ty, .const value⟩
  | .reg r => ⟨slot.ty, if view = .allowRegs then .reg r else .stack slot.offset⟩
  | .stack => ⟨slot.ty, .stack slot.offset⟩

/-- The entries recorded so far. The offset of an entry may be set later. -/
structure SideRecord where
  entries : Array SideEntry := #[]
  deriving Repr

namespace SideRecord

/-- Add an entry. The answer holds its index. -/
def add (t : SideRecord) (pc : Nat) (state : CacheState) (view : RegisterView) :
    Nat × SideRecord :=
  let entry := ⟨pc, state.slots.toList.map (.ofSlot view)⟩
  (t.entries.size, ⟨t.entries.push entry⟩)

def setPc (t : SideRecord) (index pc : Nat) : SideRecord :=
  ⟨t.entries.modify index fun e => { e with pc }⟩

end SideRecord

/-- The finished table, in the order of code offsets. -/
structure SideTable where
  numLocals : Nat
  entries : List SideEntry
  deriving DecidableEq, Repr

namespace SideTable

def ofRecord (numLocals : Nat) (t : SideRecord) : SideTable :=
  ⟨numLocals, t.entries.toList.mergeSort fun a b => a.pc ≤ b.pc⟩

/-- The entry at exactly this offset. -/
def entryAt? (t : SideTable) (pc : Nat) : Option SideEntry :=
  let index := partitionPoint (fun i => t.entries[i]?.any (·.pc < pc)) 0 t.entries.length
  t.entries[index]?.filter (·.pc == pc)

/-- Where a local lives at this offset. -/
def localAt? (t : SideTable) (pc index : Nat) : Option DebugValue :=
  if index < t.numLocals then (t.entryAt? pc).bind (·.values[index]?) else none

def lines (t : SideTable) : List String :=
  s!"debug side table ({t.numLocals} locals):" :: t.entries.map SideEntry.text

end SideTable

end OnePass
