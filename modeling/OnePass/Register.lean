import OnePass.Text.Hex
import OnePass.ValueType

/-!
The registers of the target machine: sixteen general-purpose ones (`r0` to `r15`, codes 0 to 15) and
sixteen for floats (`f0` to `f15`, codes 16 to 31), in one code space so that a set of registers is
one word.
-/
namespace OnePass

inductive RegClass where
  | gp | fp
  deriving DecidableEq, Repr

@[ext]
structure Reg where
  code : Fin 32
  deriving DecidableEq, Repr, Inhabited

namespace Reg

def gp (index : Fin 16) : Reg := ⟨⟨index, by omega⟩⟩

def fp (index : Fin 16) : Reg := ⟨⟨16 + index, by omega⟩⟩

def ofCode? (code : Nat) : Option Reg :=
  if h : code < 32 then some ⟨⟨code, h⟩⟩ else none

@[simp] theorem ofCode?_code (r : Reg) : ofCode? r.code = some r := by
  simp [ofCode?]

def regClass (r : Reg) : RegClass := if r.code < 16 then .gp else .fp

/-- Every register, in code order. -/
def all : List Reg := (List.finRange 32).map Reg.mk

def name (r : Reg) : String :=
  match r.regClass with
  | .gp => s!"r{r.code.val}"
  | .fp => s!"f{r.code.val - 16}"

def ofName? (text : String) : Option Reg := all.find? (·.name == text)

instance : ToString Reg := ⟨name⟩

end Reg

/-- A set of registers, one bit for each code. -/
structure RegSet where
  bits : BitVec 32
  deriving DecidableEq, Repr, Inhabited

namespace RegSet

def empty : RegSet := ⟨0⟩

def contains (s : RegSet) (r : Reg) : Bool := s.bits.getLsbD r.code

def insert (s : RegSet) (r : Reg) : RegSet := ⟨s.bits ||| BitVec.twoPow 32 r.code⟩

def erase (s : RegSet) (r : Reg) : RegSet := ⟨s.bits &&& ~~~ BitVec.twoPow 32 r.code⟩

def isEmpty (s : RegSet) : Bool := s.bits == 0

def union (s t : RegSet) : RegSet := ⟨s.bits ||| t.bits⟩

def inter (s t : RegSet) : RegSet := ⟨s.bits &&& t.bits⟩

def sdiff (s t : RegSet) : RegSet := ⟨s.bits &&& ~~~ t.bits⟩

def ofList (rs : List Reg) : RegSet := rs.foldl insert empty

/-- The members in code order. -/
def toList (s : RegSet) : List Reg := Reg.all.filter s.contains

def size (s : RegSet) : Nat := s.toList.length

/-- The member with the smallest code. -/
def first? (s : RegSet) : Option Reg := Reg.all.find? s.contains

/-- The members between braces, in code order, as in `\x7br0, f1\x7d`. -/
def text (s : RegSet) : String :=
  "\x7b" ++ Text.joinWith ", " (s.toList.map Reg.name) ++ "\x7d"

@[simp] theorem contains_empty (r : Reg) : empty.contains r = false := by
  simp [contains, empty]

theorem contains_insert (s : RegSet) (r q : Reg) :
    (s.insert r).contains q = (s.contains q || decide (r = q)) := by
  simp only [contains, insert, BitVec.getLsbD_or, BitVec.getLsbD_twoPow]
  congr 1
  simp [Reg.ext_iff, Fin.ext_iff]

end RegSet

namespace RegClass

/-- The class that holds values of a type. -/
def ofType : ValueType → RegClass
  | .f32 | .f64 | .v128 => fp
  | _ => gp

/-- The registers of the class that may hold cached values: the first eight. -/
def cacheRegs : RegClass → RegSet
  | gp => ⟨0x000000FF⟩
  | fp => ⟨0x00FF0000⟩

def ident : RegClass → String
  | gp => "Gp"
  | fp => "Fp"

end RegClass

namespace Reg

/-- Holds the instance while compiled code runs. -/
def instanceReg : Reg := gp 11

/-- Holds the target of an indirect call while arguments are moved. -/
def callTarget : Reg := gp 12

/-- Never caches a value; free for temporaries within one lowering step. -/
def scratch : RegClass → Reg
  | .gp => gp 13
  | .fp => fp 15

/-- The registers that carry the first arguments of a class. -/
def params : RegClass → List Reg
  | .gp => [gp 0, gp 1, gp 2, gp 3]
  | .fp => [fp 0, fp 1, fp 2, fp 3]

/-- The register that carries a result. -/
def result (ty : ValueType) : Reg :=
  match RegClass.ofType ty with
  | .gp => gp 0
  | .fp => fp 0

end Reg

end OnePass
