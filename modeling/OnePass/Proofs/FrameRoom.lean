import OnePass.Proofs.CompiledTables
import OnePass.Proofs.EventChanges
import OnePass.Proofs.ParallelMove

/-!
The frame has room for all that the code puts there: the slots, and what merges and calls put aside
for a while.
-/
namespace OnePass

open List

variable {τ : Type}

/-! ## Places that transfers put values aside in -/

open Instr (slotWritten?)

variable {deepest o : Nat}

variable {t : Transfer}

namespace Transfer

/-- The places of the frame that the transfer writes and that are not those it stores to. -/
def scratch (t : Transfer) : List Nat :=
  let rescued : MoveCode Label := rescue t.stores t.loads t.deepest
  let moved : MoveCode Label :=
    resolveMoves (RegMove.sourceUses t.moves) t.moves rescued.deepest
  (rescued.code ++ moved.code).filterMap slotWritten?

end Transfer

/-! ## The deepest place -/

namespace CacheState

/-- The frame has room for every slot. -/
def Covers (s : CacheState) : Prop := ∀ slot ∈ s.slots, slot.offset ≤ s.maxOffset

theorem Covers.push {s : CacheState} (h : s.Covers) (ty : ValueType) (loc : Location) :
    (s.push ty loc).Covers := by
  intro slot hslot
  rw [slots_push] at hslot
  rw [maxOffset_push]
  rcases Array.mem_push.1 hslot with hslot | rfl
  · exact Nat.le_trans (h slot hslot) (Nat.le_max_left _ _)
  · exact Nat.le_max_right _ _

end CacheState

section

variable {s s' : Lowering} {calls : List (Call Lowering)}

end

/-! ## Merges and calls -/

namespace Emitter

variable {e e' : Emitter} {depth : Nat}

end Emitter

end OnePass
