import TreeDelta.Pairing
import TreeDelta.Word

namespace TreeDelta

inductive Similarity where
  /-- Twice the common part, against both sides together. -/
  | dice
  /-- The common part, against the larger side. -/
  | chawathe
  /-- The common part, against the union. -/
  | jaccard
deriving DecidableEq, Repr

/-- A quotient of two counts, read as 1 when it is empty. -/
structure Share where
  part : Nat
  whole : Nat
deriving DecidableEq, Repr

def Share.toFloat (s : Share) : Float :=
  if s.whole == 0 then 1.0 else Float.ofNat s.part / Float.ofNat s.whole

namespace Similarity

def name : Similarity → String
  | .dice => "Dice"
  | .chawathe => "Chawathe"
  | .jaccard => "Jaccard"

def share (common left right : Nat) : Similarity → Except Fault Share
  | .dice => return ⟨2 * common, ← addWord left right⟩
  | .chawathe => return ⟨common, max left right⟩
  | .jaccard => return ⟨common, ← subWord (← addWord left right) common⟩

def ofCounts (m : Similarity) (common left right : Nat) : Except Fault Float :=
  return (← m.share common left right).toFloat

end Similarity

def countBelow (dst : Tree) (p : Pairing) (b : NodeId) : List NodeId → Except Fault Nat
  | [] => .ok 0
  | d :: ds =>
      match p.image? d with
      | none => countBelow dst p b ds
      | some image => do
          let here ← dst.isBelow image b
          let rest ← countBelow dst p b ds
          return if here then rest + 1 else rest

def commonDescendants (src dst : Tree) (p : Pairing) (a b : NodeId) : Except Fault Nat := do
  countBelow dst p b (← src.descendants a)

def Similarity.subtreeShare (m : Similarity) (src dst : Tree) (p : Pairing) (a b : NodeId) :
    Except Fault Share := do
  let common ← commonDescendants src dst p a b
  let left ← subWord (← src.measure a).size 1
  let right ← subWord (← dst.measure b).size 1
  m.share common left right

def Similarity.score (m : Similarity) (src dst : Tree) (p : Pairing) (a b : NodeId) :
    Except Fault Float :=
  return (← m.subtreeShare src dst p a b).toFloat

end TreeDelta
