import TreeDelta.Forest

namespace TreeDelta

/-- A walk around a tree takes one token when it enters a node and one when it leaves it. A token
without a label stands for all nodes of its kind. -/
structure Token where
  leaving : Bool
  kind : Kind
  label : Option (Option String)
deriving DecidableEq

/-- The digest of a single token. Nothing is known of it: different tokens may share one. -/
class TokenHash where
  hash : Token → UInt64

/-- The worst case: all subtrees share one digest. -/
abbrev TokenHash.constant : TokenHash := ⟨fun _ => 0⟩

abbrev TokenHash.ofKind : TokenHash := ⟨fun token => token.kind.index.toUInt64 + 1⟩

def Kind.tokenHash [TokenHash] (kind : Kind) (leaving : Bool) : UInt64 :=
  TokenHash.hash ⟨leaving, kind, none⟩

def Content.tokenHash [TokenHash] (content : Content) (leaving : Bool) : UInt64 :=
  TokenHash.hash ⟨leaving, content.kind, some content.label⟩

/-- The default value is the measure of a node that the walk does not reach. -/
structure Measure where
  size : Nat := 0
  height : Nat := 0
  depth : Nat := 0
  rank : Nat := 0
  hash : UInt64 := 0
  shapeHash : UInt64 := 0
deriving DecidableEq

instance : Inhabited Measure := ⟨{}⟩

namespace Measure

/-- Squares `base` once for each binary digit of `exp`, of which there are at most `digits`. -/
def timesPower (result base : UInt64) (exp : Nat) : Nat → UInt64
  | 0 => result
  | digits + 1 =>
      if exp = 0 then result
      else
        timesPower (if exp % 2 = 1 then result * base else result) (base * base) (exp / 2) digits

/-- The weight of a token that has `offset` tokens before it, with wrap-around. -/
def weight (offset : Nat) : UInt64 := timesPower 1 33 offset offset

/-- Adds the digests of trees that stand side by side, `offset` tokens from the start, and then
the last token of the node above them. -/
def polynomial (part : Measure → UInt64) (last sum : UInt64) (offset : Nat) :
    List Measure → UInt64
  | [] => sum + last * weight offset
  | m :: ms => polynomial part last (sum + part m * weight offset) (offset + 2 * m.size) ms

def digest (token : Bool → UInt64) (part : Measure → UInt64) (ms : List Measure) : UInt64 :=
  polynomial part (token true) (token false) 1 ms

/-- Strictly below: in post-order, descendants take the ranks just before their ancestor. -/
def isBelow (m n : Measure) : Bool := m.rank < n.rank && n.rank < m.rank + n.size

def totalSize (ms : List Measure) : Nat := ms.foldr (fun m n => m.size + n) 0

def ofChildren [TokenHash] (content : Content) (depth start : Nat) (ms : List Measure) :
    Measure where
  size := totalSize ms + 1
  height := ms.foldr (fun m h => max (m.height + 1) h) 0
  depth := depth
  rank := start + totalSize ms
  hash := digest content.tokenHash hash ms
  shapeHash := digest content.kind.tokenHash shapeHash ms

mutual
/-- Walks a subtree whose first node in post-order has rank `start`, and enters the measures of
its nodes into the table. -/
def walk [TokenHash] (look : NodeId → Content) (depth start : Nat) :
    Rose NodeId → Array Measure → Measure × Array Measure
  | .node id cs, table =>
      let (ms, table) := walkAll look (depth + 1) start cs table
      let m := ofChildren (look id) depth start ms
      (m, table.setIfInBounds id m)
def walkAll [TokenHash] (look : NodeId → Content) (depth start : Nat) :
    List (Rose NodeId) → Array Measure → List Measure × Array Measure
  | [], table => ([], table)
  | c :: cs, table =>
      let (m, table) := walk look depth start c table
      let (ms, table) := walkAll look depth (start + m.size) cs table
      (m :: ms, table)
end

end Measure

/-- One slot per node of the forest and an unused slot 0. Nodes that are not below `root` keep the
default measure. -/
def Forest.measures [TokenHash] (f : Forest) (root : NodeId) : Array Measure :=
  (Measure.walk f.contentOf 0 0 (f.subtree root) (Array.replicate (f.size + 1) {})).2

end TreeDelta
