import TreeDelta.EditDistance.Cost
import TreeDelta.EditDistance.Grid
import TreeDelta.EditDistance.Numbered

namespace TreeDelta

structure Tables (κ : Type) where
  tree : Grid κ
  forest : Grid κ

structure TreePair where
  src : Numbered
  dst : Numbered

def TreePair.ofSubtrees (src dst : Tree) (a b : NodeId) : Except Fault TreePair := do
  let x ← Numbered.ofSubtree src a
  let y ← Numbered.ofSubtree dst b
  return ⟨x, y⟩

namespace Tables

variable {κ : Type} [EditCost κ]

open EditCost

def blank (p : TreePair) : Tables κ :=
  let g := Grid.filled (p.src.size + 1) (p.dst.size + 1) zero
  ⟨g, g⟩

def treeAt (t : Tables κ) (i j : Nat) : κ := t.tree.get zero i j

def forestAt (t : Tables κ) (i j : Nat) : κ := t.forest.get zero i j

def setForest (t : Tables κ) (i j : Nat) (value : κ) : Tables κ :=
  { t with forest := t.forest.set i j value }

def setBoth (t : Tables κ) (i j : Nat) (value : κ) : Tables κ :=
  ⟨t.tree.set i j value, t.forest.set i j value⟩

def span (lo hi : Nat) : List Nat := List.range' lo (hi + 1 - lo)

def fillRowEdge (li lj i : Nat) (t : Tables κ) : Tables κ :=
  (span li i).foldl
    (fun t di => t.setForest di (lj - 1) (add (t.forestAt (di - 1) (lj - 1)) unit)) t

def fillColumnEdge (li lj j : Nat) (t : Tables κ) : Tables κ :=
  (span lj j).foldl
    (fun t dj => t.setForest (li - 1) dj (add (t.forestAt (li - 1) (dj - 1)) unit)) t

def fillCell (p : TreePair) (li lj di dj : Nat) (t : Tables κ) : Tables κ :=
  let delete := add (t.forestAt (di - 1) dj) unit
  let insert := add (t.forestAt di (dj - 1)) unit
  if p.src.leaf di == li && p.dst.leaf dj == lj then
    let update :=
      add (t.forestAt (di - 1) (dj - 1)) (changeCost (p.src.content di) (p.dst.content dj))
    t.setBoth di dj (least (least delete insert) update)
  else
    let subtree :=
      add (t.forestAt (p.src.leaf di - 1) (p.dst.leaf dj - 1)) (t.treeAt di dj)
    t.setForest di dj (least (least delete insert) subtree)

def fillRow (p : TreePair) (li lj j di : Nat) (t : Tables κ) : Tables κ :=
  (span lj j).foldl (fun t dj => t.fillCell p li lj di dj) t

def fillForest (p : TreePair) (i j : Nat) (t : Tables κ) : Tables κ :=
  let li := p.src.leaf i
  let lj := p.dst.leaf j
  let t := t.setForest (li - 1) (lj - 1) zero
  let t := t.fillRowEdge li lj i
  let t := t.fillColumnEdge li lj j
  (span li i).foldl (fun t di => t.fillRow p li lj j di) t

def ofPair (p : TreePair) : Tables κ :=
  p.src.keyRoots.foldl
    (fun t i => p.dst.keyRoots.foldl (fun t j => t.fillForest p i j) t) (blank p)

def distance (p : TreePair) (t : Tables κ) : κ := t.treeAt p.src.size p.dst.size

end Tables

end TreeDelta
