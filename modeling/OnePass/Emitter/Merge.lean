import OnePass.Cache.Merge
import OnePass.Emitter.Basic
import OnePass.Transfer

/-!
Bringing the slots to where a merge point expects them.
-/
namespace OnePass

namespace Emitter

/-- Emit a transfer. -/
def transfer (e : Emitter) (t : Transfer) : Emitter :=
  let (code, deepest) := t.code
  (e.emitAll code).modifyState (·.recordOffset deepest)

/-- The frame is free below every slot of both states. -/
def scratchBase (e : Emitter) (target : CacheState) : Nat :=
  max (max e.state.topOffset target.topOffset) e.state.maxOffset

/-- Bring every slot to where a state of the same height has it. -/
def mergeFull (e : Emitter) (target : CacheState) : Emitter :=
  e.transfer (.ofSlots (e.scratchBase target) (target.slots.toList.zip e.state.slots.toList))

/-- Bring the slots to where the target of a branch with `arity` values has them. The slots between
are dropped. -/
def mergeBranch (e : Emitter) (target : CacheState) (arity : Nat) : Emitter :=
  let slots := e.state.slots.toList
  let kept := slots.take (target.height - arity) ++ slots.drop (e.state.height - arity)
  e.transfer (.ofSlots (e.scratchBase target) (target.slots.toList.zip kept))

/-- Go on in another state. -/
def steal (e : Emitter) (state : CacheState) : Emitter := e.modifyState (·.steal state)

end Emitter

end OnePass
