import OnePass.Cache.State

/-!
The state that every path to a merge point agrees on.

Of the source's slots

    | locals | below | discarded | merge values |

the target keeps the locals, those below the construct and the merge values. Values below keep their
place; constants may stay there since no path can change them. Locals and merge values keep a
register that is not taken yet, and otherwise get a free one or go to the frame.
-/
namespace OnePass

namespace CacheState

/-- A free register for a value of a type, if possible one that the source does not use: then
fewer moves lead to the merge point. -/
def mergeReg? (source : CacheState) (taken : RegSet) (ty : ValueType) : Option Reg :=
  let free := (RegClass.ofType ty).cacheRegs.sdiff taken
  (free.sdiff source.used).first?.or free.first?

/-- Where the value of a slot goes at a merge point, and the registers taken after that. -/
def mergeLocation (source : CacheState) (keepConst : Bool) (taken : RegSet) (slot : Slot) :
    Location × RegSet :=
  let fresh := match source.mergeReg? taken slot.ty with
    | some r => (.reg r, taken.insert r)
    | none => (.stack, taken)
  match slot.loc with
  | .reg r => if taken.contains r then fresh else (.reg r, taken.insert r)
  | .const value => if keepConst then (.const value, taken) else fresh
  | .stack => (.stack, taken)

/-- The same for several slots, one after another. -/
def mergeLocations (source : CacheState) (keepConst : Bool) :
    RegSet → List Slot → List (ValueType × Location) × RegSet
  | taken, [] => ([], taken)
  | taken, slot :: rest =>
    let (loc, taken) := source.mergeLocation keepConst taken slot
    let (locs, taken) := source.mergeLocations keepConst taken rest
    ((slot.ty, loc) :: locs, taken)

def pushAll (s : CacheState) (slots : List (ValueType × Location)) : CacheState :=
  slots.foldl (fun s (ty, loc) => s.push ty loc) s

/-- The target for a construct entered at height `stackDepth` that `arity` values leave. Merge
values choose first, then locals, the rest last: those that change most need registers most. -/
def mergeTarget (source : CacheState) (numLocals arity stackDepth : Nat) : CacheState :=
  let slots := source.slots.toList
  let (merged, taken) := source.mergeLocations false .empty (slots.drop (source.height - arity))
  let (locals, taken) := source.mergeLocations false taken (slots.take numLocals)
  let (below, _) := source.mergeLocations true taken ((slots.drop numLocals).take stackDepth)
  ({ maxOffset := source.maxOffset } : CacheState).pushAll (locals ++ below ++ merged)

end CacheState

end OnePass
