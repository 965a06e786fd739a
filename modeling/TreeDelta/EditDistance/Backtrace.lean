import TreeDelta.EditDistance.Tables

namespace TreeDelta

structure Trail where
  /-- The pairs found so far, last one first. -/
  found : List (NodeId × NodeId) := []
  /-- The pairs of subtrees still to be walked, next one first. -/
  pending : List (Nat × Nat) := []

namespace Trail

variable {κ : Type} [EditCost κ]

open EditCost

/-- The walk for the nodes `i` and `j`, of which the forests up to `row` and `col` are left. Each
step shortens one of the two. -/
def walk (p : TreePair) (t : Tables κ) (i j : Nat) :
    Nat → Nat → Nat → Trail → Except Fault Trail
  | 0, _, _, trail => .ok trail
  | fuel + 1, row, col, trail =>
      let firstRow := p.src.leaf i - 1
      let firstCol := p.dst.leaf j - 1
      if row ≤ firstRow && col ≤ firstCol then .ok trail
      else
        let current := t.forestAt row col
        if firstRow < row && same (add (t.forestAt (row - 1) col) unit) current then
          walk p t i j fuel (row - 1) col trail
        else if firstCol < col && same (add (t.forestAt row (col - 1)) unit) current then
          walk p t i j fuel row (col - 1) trail
        else if p.src.leaf row == p.src.leaf i && p.dst.leaf col == p.dst.leaf j then
          if (p.src.content row).kind != (p.dst.content col).kind then .error .backtraceKinds
          else
            walk p t i j fuel (row - 1) (col - 1)
              { trail with found := (p.src.id row, p.dst.id col) :: trail.found }
        else
          walk p t i j fuel (p.src.leaf row - 1) (p.dst.leaf col - 1)
            { trail with pending := (row, col) :: trail.pending }

def unwind (p : TreePair) : Nat → Tables κ → Trail → Except Fault (List (NodeId × NodeId))
  | 0, _, trail => .ok trail.found.reverse
  | fuel + 1, t, trail =>
      match trail.pending with
      | [] => .ok trail.found.reverse
      | (i, j) :: pending => do
          let t := t.fillForest p i j
          unwind p fuel t (← walk p t i j (i + j) i j { trail with pending := pending })

end Trail

/-- The pairs of a cheapest edit of one tree into the other. The tables of the two roots are the
last ones that were filled, so the first walk needs no filling. -/
def TreePair.matched (κ : Type) [EditCost κ] (p : TreePair) :
    Except Fault (List (NodeId × NodeId)) := do
  let t : Tables κ := Tables.ofPair p
  let i := p.src.size
  let j := p.dst.size
  Trail.unwind p (i + j) t (← Trail.walk p t i j (i + j) i j {})

def editDistance (κ : Type) [EditCost κ] (src dst : Tree) (a b : NodeId) : Except Fault κ := do
  let p ← TreePair.ofSubtrees src dst a b
  return (Tables.ofPair p).distance p

def cheapestPairs (κ : Type) [EditCost κ] (src dst : Tree) (a b : NodeId) :
    Except Fault (List (NodeId × NodeId)) := do
  (← TreePair.ofSubtrees src dst a b).matched κ

end TreeDelta
