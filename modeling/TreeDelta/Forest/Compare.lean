import TreeDelta.Forest

namespace TreeDelta

/-- Whether the two trees of every pair on the stack agree. The roots of the pair on top are
compared, and its children take its place, the last ones uppermost. The comparison ends at the
first two roots that are not related or have different numbers of children, and at the latest
after so many pairs. -/
def Rose.agreeOn {α β : Type} (r : α → β → Bool) : Nat → List (Rose α × Rose β) → Bool
  | _, [] => true
  | 0, _ :: _ => false
  | pairs + 1, (.node a as, .node b bs) :: stack =>
      r a b && (as.length == bs.length && agreeOn r pairs ((as.zip bs).reverse ++ stack))

/-- The trees below two nodes look the same. There are no more pairs to compare than nodes on the
left. -/
def Forest.agree (same : Content → Content → Bool) (f g : Forest) (a b : NodeId) : Bool :=
  Rose.agreeOn (fun x y => same (f.contentOf x) (g.contentOf y)) (f.subtree a).size
    [(f.subtree a, g.subtree b)]

end TreeDelta
