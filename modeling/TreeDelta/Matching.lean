import TreeDelta.Matching.Containers
import TreeDelta.Matching.Identical

namespace TreeDelta

def pairByDistance (src dst : Tree) : Pairer Unit :=
  Containers.recoverExactly src dst src.root dst.root

def extendMatching (c : Config) (src dst : Tree) : Pairer Unit := do
  Identical.run c src dst
  Containers.run c src dst

def matching (c : Config) (src dst : Tree) : Except Fault Pairing :=
  if src.isMeasured && dst.isMeasured then
    match (extendMatching c src dst).run (Pairing.withCapacity src.forest.size dst.forest.size) with
    | (.ok (), p) => .ok p
    | (.error fault, _) => .error fault
  else .error .noMeasures

end TreeDelta
