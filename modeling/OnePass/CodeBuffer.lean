import OnePass.Machine.Encoding

/-!
A growing code buffer with labels. A branch may name a label that is bound later: its displacement
is left zero and patched when the label is bound. Direct calls are recorded so that they can be
linked.
-/
namespace OnePass

/-- A branch target inside a code buffer. -/
structure Label where
  index : Nat
  deriving DecidableEq, Repr, Inhabited

def Label.name (l : Label) : String := s!"L{l.index}"

/-- The function index of a direct call, to be patched when the module is linked. -/
structure Relocation where
  /-- Code offset of the patched field. -/
  offset : Nat
  function : Nat
  deriving DecidableEq, Repr

structure CodeBuffer where
  code : Array UInt8 := #[]
  /-- Where each label is bound, if it is. -/
  labels : Array (Option Nat) := #[]
  /-- Displacement fields of branches to labels that are not bound yet. -/
  pending : List (Label × Nat) := []
  relocations : Array Relocation := #[]
  deriving Repr, Inhabited

/-- Overwrite bytes from position `start` on. -/
def overwrite (code : Array UInt8) (start : Nat) : List UInt8 → Array UInt8
  | [] => code
  | b :: bs => overwrite (code.setIfInBounds start b) (start + 1) bs

namespace CodeBuffer

/-- The offset of the next instruction. -/
def pc (b : CodeBuffer) : Nat := b.code.size

/-- A label that is not in use yet. -/
def nextLabel (b : CodeBuffer) : Label := ⟨b.labels.size⟩

/-- Take the next label into use. -/
def addLabel (b : CodeBuffer) : CodeBuffer := { b with labels := b.labels.push none }

/-- The offset a label is bound to. -/
def boundAt? (b : CodeBuffer) (l : Label) : Option Nat := b.labels[l.index]?.join

def isBound (b : CodeBuffer) (l : Label) : Bool := (b.boundAt? l).isSome

/-- The bytes of the displacement at `field` that leads to `target`. -/
def displacement (field target : Nat) : List UInt8 :=
  Encoding.i32 (Int32.ofInt ((target : Int) - (field + 4)))

def patchDisplacement (b : CodeBuffer) (field target : Nat) : CodeBuffer :=
  { b with code := overwrite b.code field (displacement field target) }

/-- Patch the branches to a label that wait from index `i` on. The last one takes the place of one
that is patched. Each round leaves one less of `left`. -/
def patchWaiting (l : Label) (place : Nat) : (left i : Nat) → CodeBuffer → CodeBuffer
  | 0, _, b => b
  | left + 1, i, b =>
    match b.pending[i]?, b.pending.getLast? with
    | some w, some last =>
      if w.1 = l then
        let removed := { b with pending := (b.pending.set i last).dropLast }
        patchWaiting l place left i (removed.patchDisplacement w.2 place)
      else patchWaiting l place left (i + 1) b
    | _, _ => b

/-- Bind a label to the end of the code and patch the branches that wait for it. -/
def bind (b : CodeBuffer) (l : Label) : CodeBuffer :=
  let bound := { b with labels := b.labels.setIfInBounds l.index (some b.pc) }
  patchWaiting l b.pc b.pending.length 0 bound

/-- Note the call among the relocations. The function index follows the operation byte. -/
def recordCall (b : CodeBuffer) (offset : Nat) : Instr Label → CodeBuffer
  | .call function =>
    { b with relocations := b.relocations.push ⟨offset + 1, function.toNat⟩ }
  | _ => b

/-- Resolve the displacement that ends at the end of the code, now or when its label is bound. -/
def resolve (b : CodeBuffer) (l : Label) : CodeBuffer :=
  let field := b.pc - 4
  match b.boundAt? l with
  | some target => b.patchDisplacement field target
  | none => { b with pending := b.pending ++ [(l, field)] }

/-- Append an instruction. -/
def emit (b : CodeBuffer) (i : Instr Label) : CodeBuffer :=
  let start := b.pc
  let appended := { b with code := b.code ++ i.encode }
  let recorded := appended.recordCall start i
  match i.target? with
  | some l => recorded.resolve l
  | none => recorded

/-- Overwrite the size operand of the frame setup at `offset`. -/
def patchFrameSize (b : CodeBuffer) (offset size : Nat) : CodeBuffer :=
  { b with code := overwrite b.code (offset + 1) (Encoding.u32 (UInt32.ofNat size)) }

/-- Every label that a branch names is bound. -/
def allResolved (b : CodeBuffer) : Bool := b.pending.isEmpty

end CodeBuffer

end OnePass
