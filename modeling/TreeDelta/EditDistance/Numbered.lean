import TreeDelta.Tree

namespace TreeDelta

structure Numbered where
  ids : Array NodeId
  contents : Array Content
  /-- The number of the leftmost leaf below each node; slot 0 is not used. -/
  leftmost : Array Nat

namespace Numbered

def size (n : Numbered) : Nat := n.ids.size

def id (n : Numbered) (i : Nat) : NodeId := n.ids.getD (i - 1) 0

def content (n : Numbered) (i : Nat) : Content := n.contents.getD (i - 1) ⟨.top, none⟩

def leaf (n : Numbered) (i : Nat) : Nat := n.leftmost.getD i 0

def keyRoots (n : Numbered) : List Nat :=
  (List.range' 1 n.size).filter fun i =>
    (List.range' (i + 1) (n.size - i)).all fun k => n.leaf k != n.leaf i

def leaves (t : Tree) : Nat → List NodeId → Except Fault (List Nat)
  | _, [] => .ok []
  | i, id :: ids => do
      let leaf ← subWord (i + 2) (← t.measure id).size
      return leaf :: (← leaves t (i + 1) ids)

def ofSubtree (t : Tree) (root : NodeId) : Except Fault Numbered := do
  let ids := (← t.subtree root).postorder
  let leaves ← leaves t 0 ids
  return ⟨ids.toArray, (ids.map t.forest.contentOf).toArray, (0 :: leaves).toArray⟩

end Numbered

end TreeDelta
