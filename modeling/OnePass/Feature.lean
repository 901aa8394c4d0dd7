/-!
Language extensions that a body may or may not use.
-/
namespace OnePass

inductive Feature where
  | signExtension | saturatingTruncation | multiValue | referenceTypes
  | bulkMemory | simd | exceptions | tailCall
  deriving DecidableEq, Repr

namespace Feature

/-- Position of the feature in a `FeatureSet`. -/
def index : Feature → Nat
  | signExtension => 0
  | saturatingTruncation => 1
  | multiValue => 2
  | referenceTypes => 3
  | bulkMemory => 4
  | simd => 5
  | exceptions => 6
  | tailCall => 7

def all : List Feature :=
  [signExtension, saturatingTruncation, multiValue, referenceTypes, bulkMemory, simd, exceptions,
    tailCall]

end Feature

/-- A set of features, one bit each. -/
structure FeatureSet where
  bits : BitVec 8
  deriving DecidableEq, Repr

namespace FeatureSet

def empty : FeatureSet := ⟨0⟩

def insert (s : FeatureSet) (f : Feature) : FeatureSet :=
  ⟨s.bits ||| BitVec.twoPow 8 f.index⟩

def union (s t : FeatureSet) : FeatureSet := ⟨s.bits ||| t.bits⟩

def contains (s : FeatureSet) (f : Feature) : Bool := s.bits.getLsbD f.index

/-- Whether a construct that may require a feature is enabled. -/
def allows (s : FeatureSet) : Option Feature → Bool
  | none => true
  | some f => s.contains f

def ofList (fs : List Feature) : FeatureSet := fs.foldl insert empty

def full : FeatureSet := ofList Feature.all

/-- What is enabled when nothing is asked for: every extension up to bulk memory. -/
def standard : FeatureSet :=
  ofList [.signExtension, .saturatingTruncation, .multiValue, .referenceTypes, .bulkMemory]

end FeatureSet

end OnePass
