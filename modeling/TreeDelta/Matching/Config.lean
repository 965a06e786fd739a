import TreeDelta.Similarity

namespace TreeDelta

inductive Priority where
  | height
  | size
deriving DecidableEq, Repr

inductive Recovery where
  /-- By edit distance in small containers, and not at all in large ones. -/
  | greedy
  /-- Child by child everywhere. -/
  | simple
  /-- By edit distance in small containers, child by child in large ones. -/
  | hybrid
deriving DecidableEq, Repr

/-- An absent value stands for the default of the recovery in use. -/
structure Config where
  priority : Priority := .height
  /-- Subtrees below this priority are left to the second phase. -/
  minPriority : Nat := 1
  recovery : Recovery := .greedy
  similarity : Option Similarity := none
  /-- The least score of a container pair. -/
  threshold : Option Float := none
  /-- Containers with fewer nodes than this are small. -/
  sizeThreshold : Option Nat := none

namespace Config

def measureOf (c : Config) : Similarity :=
  c.similarity.getD <|
    match c.recovery with
    | .greedy => .dice
    | .simple | .hybrid => .chawathe

def sizeLimit (c : Config) : Nat :=
  c.sizeThreshold.getD <|
    match c.recovery with
    | .greedy => 1000
    | .simple | .hybrid => 20

end Config

end TreeDelta
