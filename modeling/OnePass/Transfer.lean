import OnePass.Cache.Slot
import OnePass.Machine.Instr

/-!
Moving values from one set of places to another, all at once. The order of the code is such that no
value is overwritten before it is read:

1. frame slots that a load still reads but a store overwrites are copied away;
2. stores into the frame;
3. moves between registers, where a cycle is broken by parking a value in the frame;
4. loads from constants and from the frame.
-/
namespace OnePass

/-- A store into the frame at `dst`. -/
inductive FrameStore where
  | move (ty : ValueType) (dst src : Nat)
  | reg (ty : ValueType) (dst : Nat) (src : Reg)
  | const (ty : ValueType) (dst : Nat) (value : Int32)
  deriving DecidableEq, Repr

namespace FrameStore

def dst : FrameStore → Nat
  | move _ dst _ | reg _ dst _ | const _ dst _ => dst

def instr {τ : Type} : FrameStore → Instr τ
  | move ty dst src => .moveStackValue ty (.ofNat dst) (.ofNat src)
  | reg ty dst src => .spill ty (.ofNat dst) src
  | const ty dst value => .spillConst ty (.ofNat dst) value

end FrameStore

/-- A register that is loaded. -/
inductive RegLoad where
  | const (ty : ValueType) (dst : Reg) (value : Int32)
  | stack (ty : ValueType) (dst : Reg) (offset : Nat)
  deriving DecidableEq, Repr

def RegLoad.instr {τ : Type} : RegLoad → Instr τ
  | const ty dst value => .loadConst ty dst (constBits ty value)
  | stack ty dst offset => .fill ty dst (.ofNat offset)

/-- A move between registers. Pending moves are done as if at once. -/
structure RegMove where
  ty : ValueType
  dst : Reg
  src : Reg
  deriving DecidableEq, Repr

def RegMove.instr {τ : Type} (m : RegMove) : Instr τ := .move m.ty m.dst m.src

namespace RegMove

/-- How many moves read each register. -/
def sourceUses (ms : List RegMove) (r : Reg) : Nat := ms.countP (·.src == r)

/-- A move that reads the register is done. -/
def release (uses : Reg → Nat) (r : Reg) : Reg → Nat :=
  fun r' => if r' = r then uses r' - 1 else uses r'

/-- One pass over the pending moves: do those whose destination no pending move reads, by the counts
in `uses`. The answer is what was done, what is left and the counts then. -/
def sweep (uses : Reg → Nat) : List RegMove → List RegMove × List RegMove × (Reg → Nat)
  | [] => ([], [], uses)
  | m :: rest =>
    if uses m.dst > 0 then
      let (done, left, uses) := sweep uses rest
      (done, m :: left, uses)
    else
      let (done, left, uses) := sweep (release uses m.src) rest
      (m :: done, left, uses)

theorem perm_sweep (uses : Reg → Nat) (pending : List RegMove) :
    ((sweep uses pending).1 ++ (sweep uses pending).2.1).Perm pending := by
  induction pending generalizing uses with
  | nil => exact .nil
  | cons m rest ih =>
    rw [sweep]
    split
    · exact List.perm_middle.trans ((ih uses).cons m)
    · exact (ih _).cons m

theorem length_sweep_lt {uses : Reg → Nat} {pending : List RegMove}
    (h : (sweep uses pending).1 ≠ []) : (sweep uses pending).2.1.length < pending.length := by
  have hlength := (perm_sweep uses pending).length_eq
  have hpos := List.length_pos_iff.mpr h
  rw [List.length_append] at hlength
  omega

end RegMove

/-- Space for a parked value. -/
def parkingSize : Nat := 8

/-- Code together with what is still to be loaded after it, and the deepest place used. -/
structure MoveCode (τ : Type) where
  code : List (Instr τ)
  loads : List RegLoad
  deepest : Nat

/-- Code for the pending moves, whose sources `uses` counts. When a pass does nothing there is a
cycle: the source of the first move is parked in the frame below `deepest`. -/
def resolveMoves {τ : Type} (uses : Reg → Nat) (pending : List RegMove) (deepest : Nat) :
    MoveCode τ :=
  if h : (RegMove.sweep uses pending).1 = [] then
    match pending with
    | [] => ⟨[], [], deepest⟩
    | m :: left =>
      let place := deepest + parkingSize
      let later : MoveCode τ := resolveMoves (RegMove.release uses m.src) left place
      { later with
        code := .spill m.ty (.ofNat place) m.src :: later.code
        loads := .stack m.ty m.dst place :: later.loads }
  else
    have := RegMove.length_sweep_lt h
    let swept := RegMove.sweep uses pending
    let later : MoveCode τ := resolveMoves swept.2.2 swept.2.1 deepest
    { later with code := swept.1.map RegMove.instr ++ later.code }
termination_by pending.length

/-- Pending moves between places. -/
structure Transfer where
  stores : List FrameStore := []
  moves : List RegMove := []
  loads : List RegLoad := []
  /-- Everything below this place of the frame is free. -/
  deepest : Nat
  deriving Repr

namespace Transfer

def isEmpty (t : Transfer) : Bool := t.stores.isEmpty && t.moves.isEmpty && t.loads.isEmpty

/-- Write the value of a slot into the frame at `offset`. -/
def store (t : Transfer) (ty : ValueType) (offset : Nat) (src : Slot) : Transfer :=
  match src.loc with
  | .stack =>
    if src.offset = offset then t else { t with stores := t.stores ++ [.move ty offset src.offset] }
  | .reg r => { t with stores := t.stores ++ [.reg ty offset r] }
  | .const value => { t with stores := t.stores ++ [.const ty offset value] }

/-- Bring the value of a slot into a register. -/
def load (t : Transfer) (dst : Reg) (src : Slot) : Transfer :=
  match src.loc with
  | .reg r => if r = dst then t else { t with moves := t.moves ++ [⟨src.ty, dst, r⟩] }
  | .const value => { t with loads := t.loads ++ [.const src.ty dst value] }
  | .stack => { t with loads := t.loads ++ [.stack src.ty dst src.offset] }

/-- Make `dst` hold the value of `src`. A constant needs no code: no path can change it. -/
def add (t : Transfer) (dst src : Slot) : Transfer :=
  match dst.loc with
  | .stack => t.store dst.ty dst.offset src
  | .reg r => t.load r src
  | .const _ => t

/-- The transfers from the second to the first slot of each pair. -/
def ofSlots (deepest : Nat) (pairs : List (Slot × Slot)) : Transfer :=
  pairs.foldl (fun t (dst, src) => t.add dst src) { deepest }

/-- Copy what a load reads and a store overwrites out of the way, and load it from there. -/
def rescue {τ : Type} (stores : List FrameStore) : List RegLoad → Nat → MoveCode τ
  | [], deepest => ⟨[], [], deepest⟩
  | .stack ty dst offset :: rest, deepest =>
    if stores.any (·.dst == offset) then
      let place := deepest + parkingSize
      let later : MoveCode τ := rescue stores rest place
      { later with
        code := .moveStackValue ty (.ofNat place) (.ofNat offset) :: later.code
        loads := .stack ty dst place :: later.loads }
    else
      let later : MoveCode τ := rescue stores rest deepest
      { later with loads := .stack ty dst offset :: later.loads }
  | load :: rest, deepest =>
    let later : MoveCode τ := rescue stores rest deepest
    { later with loads := load :: later.loads }

/-- The code of the whole transfer and the deepest place it uses. -/
def code {τ : Type} (t : Transfer) : List (Instr τ) × Nat :=
  let rescued : MoveCode τ := rescue t.stores t.loads t.deepest
  let moved : MoveCode τ :=
    resolveMoves (RegMove.sourceUses t.moves) t.moves rescued.deepest
  (rescued.code ++ t.stores.map FrameStore.instr ++ moved.code ++
    (rescued.loads ++ moved.loads).map RegLoad.instr, moved.deepest)

end Transfer

end OnePass
