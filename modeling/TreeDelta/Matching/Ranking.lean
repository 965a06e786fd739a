import TreeDelta.Binary64
import TreeDelta.CommonSubsequence
import TreeDelta.Similarity

namespace TreeDelta

structure RankKey where
  /-- The similarity of the parents; more is better. -/
  siblings : Binary64
  /-- The similarity of the ancestor kinds; more is better. -/
  ancestors : Binary64
  /-- The distance of the position vectors; less is better. -/
  position : Binary64
  /-- The distance of the spans; less is better. -/
  span : Nat
  /-- The distance of the post-order ranks; less is better. -/
  rank : Nat
deriving DecidableEq, Repr

def RankKey.order (x y : RankKey) : Ordering :=
  (y.siblings.order x.siblings).then <|
  (y.ancestors.order x.ancestors).then <|
  (x.position.order y.position).then <|
  (compare x.span y.span).then <|
  compare x.rank y.rank

namespace Ranking

variable (src dst : Tree)

def siblingScore (p : Pairing) (a b : NodeId) : Except Fault Float := do
  let pa ← src.parent a
  let pb ← dst.parent b
  match pa, pb with
  | some x, some y => Similarity.dice.score src dst p x y
  | _, _ => return 0.0

def ancestorScore (a b : NodeId) : Except Fault Float := do
  let ka ← (← src.ancestors a).mapM src.kind
  let kb ← (← dst.ancestors b).mapM dst.kind
  let common := commonSubsequence (· == ·) ka kb
  Similarity.dice.ofCounts common.length ka.length kb.length

/-- The index among its siblings of every node on the way from the root to `id`. -/
def positionVector (t : Tree) (id : NodeId) : Except Fault (List Nat) := do
  let up ← t.ancestors id
  return (id :: up).reverse.map t.forest.position

def vectorDistance (xs ys : List Nat) : Float :=
  let squares := (xs.zip ys).map fun (x, y) =>
    let d := Float.ofNat x - Float.ofNat y
    d * d
  (squares.foldl (· + ·) 0.0).sqrt

def spanDistance (a b : NodeId) : Except Fault Nat := do
  let x ← src.info a
  let y ← dst.info b
  addWord (absDiff x.pos y.pos) (absDiff (← x.stop) (← y.stop))

def key (p : Pairing) (a b : NodeId) : Except Fault RankKey := do
  let siblings ← siblingScore src dst p a b
  let ancestors ← ancestorScore src dst a b
  let position := vectorDistance (← positionVector src a) (← positionVector dst b)
  let span ← spanDistance src dst a b
  let rank := absDiff (← src.measure a).rank (← dst.measure b).rank
  return ⟨.ofFloat siblings, .ofFloat ancestors, .ofFloat position, span, rank⟩

/-- The pairs, best first; equally good ones keep their order. -/
def sort (p : Pairing) (pairs : List (NodeId × NodeId)) :
    Except Fault (List (NodeId × NodeId)) := do
  let keyed ← pairs.mapM fun (a, b) => return (← key src dst p a b, (a, b))
  return (keyed.mergeSort fun x y => (x.1.order y.1).isLE).map (·.2)

end Ranking

end TreeDelta
