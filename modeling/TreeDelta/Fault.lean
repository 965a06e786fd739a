namespace TreeDelta

inductive Fault where
  /-- A node that already has a partner would get a second one. -/
  | bijection
  /-- Two subtrees that are paired node by node differ in a kind. -/
  | recursiveKinds
  /-- Two subtrees that are paired node by node differ in a number of children. -/
  | recursiveShapes
  /-- The measures of a tree are asked for before they were taken. -/
  | noMeasures
  /-- A count leaves the range of 64-bit words. -/
  | overflow
  /-- A node is looked up that does not exist, or that has no measure. -/
  | unknownNode
  /-- A node would be linked below itself, or one of the two ends does not exist. -/
  | badLink
  /-- The walk back through the distance tables reached a pair of different kinds. -/
  | backtraceKinds
deriving DecidableEq, Repr

def Fault.message : Fault → String
  | .bijection => "bijection"
  | .recursiveKinds => "recursive types"
  | .recursiveShapes => "recursive shapes"
  | .noMeasures => "no metrics"
  | .overflow => "overflow"
  | .unknownNode => "unknown node"
  | .badLink => "bad link"
  | .backtraceKinds => "backtrace types"

end TreeDelta
