import OnePass.Alignment
import OnePass.Cache.Slot

/-!
The slots of a function at one point of its code: the locals, then the operands. A register may back
several slots; it is in use as long as it backs one.
-/
namespace OnePass

structure CacheState where
  /-- The locals, then the operands, the topmost last. -/
  slots : Array Slot := #[]
  /-- Registers that back a slot. -/
  used : RegSet := .empty
  /-- How many slots each register backs. -/
  useCounts : Vector Nat 32 := .replicate 32 0
  /-- Registers that gave way lately; others go first. -/
  lastSpilled : RegSet := .empty
  /-- The deepest place in the frame ever handed out. -/
  maxOffset : Nat := staticFrameSize
  deriving Repr

namespace CacheState

def height (s : CacheState) : Nat := s.slots.size

/-- The slot `depth` below the top. -/
def peek? (s : CacheState) (depth : Nat) : Option Slot :=
  if depth < s.height then s.slots[s.height - 1 - depth]? else none

/-- Where the topmost slot lies in the frame. -/
def topOffset (s : CacheState) : Nat :=
  match s.slots.back? with
  | some slot => slot.offset
  | none => staticFrameSize

/-- Where a slot pushed now will lie. -/
def nextOffset (s : CacheState) (ty : ValueType) : Nat :=
  roundUp (s.topOffset + slotSize ty) (slotSize ty)

def recordOffset (s : CacheState) (offset : Nat) : CacheState :=
  { s with maxOffset := max s.maxOffset offset }

def useCount (s : CacheState) (r : Reg) : Nat := s.useCounts[r.code]

def isUsed (s : CacheState) (r : Reg) : Bool := s.used.contains r

/-- One more slot is backed by the register. -/
def acquireReg (s : CacheState) (r : Reg) : CacheState :=
  { s with
    used := s.used.insert r
    useCounts := s.useCounts.set r.code (s.useCount r + 1) }

/-- One slot less is backed by the register. -/
def releaseReg (s : CacheState) (r : Reg) : CacheState :=
  { s with
    used := if s.useCount r ≤ 1 then s.used.erase r else s.used
    useCounts := s.useCounts.set r.code (s.useCount r - 1) }

def acquire (s : CacheState) : Location → CacheState
  | .reg r => s.acquireReg r
  | _ => s

def release (s : CacheState) : Location → CacheState
  | .reg r => s.releaseReg r
  | _ => s

/-- Add a slot on top. -/
def push (s : CacheState) (ty : ValueType) (loc : Location) : CacheState :=
  let offset := s.nextOffset ty
  let grown := (s.acquire loc).recordOffset offset
  { grown with slots := grown.slots.push ⟨ty, loc, offset⟩ }

/-- Take the topmost slot away. -/
def pop? (s : CacheState) : Option (Slot × CacheState) :=
  match s.slots.back? with
  | some slot => some (slot, { s.release slot.loc with slots := s.slots.pop })
  | none => none

/-- Take so many slots away, or all that there are. -/
def dropValues (s : CacheState) : Nat → CacheState
  | 0 => s
  | count + 1 =>
    match s.pop? with
    | some (_, rest) => rest.dropValues count
    | none => s

/-- Let the value of slot `index` live elsewhere. Whoever calls this emits the code that moves
it. -/
def relocate (s : CacheState) (index : Nat) (loc : Location) : CacheState :=
  match s.slots[index]? with
  | some slot =>
    { (s.release slot.loc).acquire loc with
      slots := s.slots.setIfInBounds index { slot with loc } }
  | none => s

/-- Registers of a class that back nothing and are not pinned. -/
def freeRegs (s : CacheState) (c : RegClass) (pinned : RegSet) : RegSet :=
  (c.cacheRegs.sdiff s.used).sdiff pinned

def hasUnused (s : CacheState) (c : RegClass) (pinned : RegSet) : Bool :=
  !(s.freeRegs c pinned).isEmpty

def unused? (s : CacheState) (c : RegClass) (pinned : RegSet) : Option Reg :=
  (s.freeRegs c pinned).first?

/-- The register to spill when none is free. Candidates take turns. -/
def nextSpill? (s : CacheState) (c : RegClass) (pinned : RegSet) : Option Reg × CacheState :=
  let candidates := c.cacheRegs.sdiff pinned
  let rested := candidates.sdiff s.lastSpilled
  let (pool, recent) :=
    if rested.isEmpty then (candidates, RegSet.empty) else (rested, s.lastSpilled)
  match pool.first? with
  | some r => (some r, { s with lastSpilled := recent.insert r })
  | none => (none, { s with lastSpilled := recent })

/-- The registers that back the slots from `index` on. -/
def regsFrom (s : CacheState) (index : Nat) : RegSet :=
  .ofList ((s.slots.toList.drop index).filterMap Slot.reg?)

/-- Go on with another state. The deepest place stays known. -/
def steal (s other : CacheState) : CacheState := other.recordOffset s.maxOffset

/-- How many slots a register backs, counted over the slots. -/
def countUses (slots : Array Slot) (r : Reg) : Nat := slots.countP fun s => s.reg? == some r

/-- The use counts are those of the slots. -/
def isConsistent (s : CacheState) : Bool :=
  Reg.all.all fun r =>
    s.useCount r == countUses s.slots r && s.isUsed r == (countUses s.slots r != 0)

def text (s : CacheState) : String :=
  let slots := Text.joinWith " " (s.slots.toList.map Slot.text)
  let uses := Text.joinWith " " (s.used.toList.map fun r => s!"{r.name}*{s.useCount r}")
  s!"[{slots}] used[{uses}] max={s.maxOffset} ok={s.isConsistent}"

end CacheState

end OnePass
