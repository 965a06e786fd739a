import TreeDelta.Forest.Compare
import TreeDelta.Forest.Layout
import TreeDelta.Forest.Link
import TreeDelta.Measure

namespace TreeDelta

structure Tree where
  forest : Forest
  root : NodeId
  measures : Option (Array Measure) := none

namespace Tree

def leaf (info : NodeInfo) : Tree := ⟨⟨#[⟨info, none, []⟩]⟩, 1, none⟩

def measured [TokenHash] (t : Tree) : Tree := { t with measures := some (t.forest.measures t.root) }

def ofRose [TokenHash] (r : Rose NodeInfo) : Tree := Tree.measured ⟨Forest.ofRose r, 1, none⟩

def isMeasured (t : Tree) : Bool := t.measures.isSome

/-- Adds a last child. Under a parent that does not exist the new node stays unlinked and the
measures are kept. -/
def addChild (t : Tree) (parent : NodeId) (info : NodeInfo) : Except Fault NodeId × Tree :=
  let (id, forest) := t.forest.alloc info
  match forest.append parent id with
  | .ok linked => (.ok id, { t with forest := linked, measures := none })
  | .error fault => (.error fault, { t with forest := forest })

/-- Changes what a node carries. The measures are gone even if the node does not exist. -/
def edit (t : Tree) (id : NodeId) (g : NodeInfo → NodeInfo) : Except Fault Unit × Tree :=
  match t.forest.get? id with
  | some _ =>
      (.ok (), { t with
        forest := t.forest.modify id fun n => { n with info := g n.info }
        measures := none })
  | none => (.error .unknownNode, { t with measures := none })

/-- Unlinks a node. The measures stay, so they describe the tree as it was. -/
def detach (t : Tree) (id : NodeId) : Tree := { t with forest := t.forest.detach id }

def measure (t : Tree) (id : NodeId) : Except Fault Measure :=
  match t.measures with
  | none => .error .noMeasures
  | some table =>
      match table[id]? with
      | some m => .ok m
      | none => .error .unknownNode

def info (t : Tree) (id : NodeId) : Except Fault NodeInfo := return (← t.forest.node id).info

def kind (t : Tree) (id : NodeId) : Except Fault Kind := return (← t.info id).kind

def parent (t : Tree) (id : NodeId) : Except Fault (Option NodeId) :=
  return (← t.forest.node id).parent

def children (t : Tree) (id : NodeId) : Except Fault (List NodeId) :=
  return (← t.forest.node id).children

def position (t : Tree) (id : NodeId) : Except Fault Nat := do
  let _ ← t.forest.node id
  return t.forest.position id

def isRoot (t : Tree) (id : NodeId) : Except Fault Bool := return (← t.parent id).isNone

def isLeaf (t : Tree) (id : NodeId) : Except Fault Bool := return (← t.children id).isEmpty

def subtree (t : Tree) (id : NodeId) : Except Fault (Rose NodeId) := do
  let _ ← t.forest.node id
  return t.forest.subtree id

def descendants (t : Tree) (id : NodeId) : Except Fault (List NodeId) :=
  return (← t.subtree id).descendants

def ancestors (t : Tree) (id : NodeId) : Except Fault (List NodeId) := do
  let _ ← t.forest.node id
  return t.forest.ancestors id

def preorder (t : Tree) : List NodeId := (t.forest.subtree t.root).preorder

def postorder (t : Tree) : List NodeId := (t.forest.subtree t.root).postorder

def breadthFirst (t : Tree) : List NodeId := (t.forest.subtree t.root).breadthFirst

def count (t : Tree) : Except Fault Nat :=
  if t.isMeasured then return (← t.measure t.root).size else return t.preorder.length

/-- Whether `node` was strictly below `ancestor` when the tree was measured. -/
def isBelow (t : Tree) (node ancestor : NodeId) : Except Fault Bool := do
  let n ← t.measure node
  let a ← t.measure ancestor
  return n.isBelow a

def agree (same : Content → Content → Bool) (s : Tree) (a : NodeId) (t : Tree) (b : NodeId) :
    Except Fault Bool := do
  let _ ← s.forest.node a
  let _ ← t.forest.node b
  return s.forest.agree same t.forest a b

/-- Compares two subtrees as they are now if their digests are equal. -/
def agreeAfter (part : Measure → UInt64) (same : Content → Content → Bool) (s : Tree)
    (a : NodeId) (t : Tree) (b : NodeId) : Except Fault Bool := do
  let m ← s.measure a
  let n ← t.measure b
  if part m == part n then s.agree same a t b else return false

/-- Same kinds, labels and order of children now, and the same digest when measured. -/
def isomorphic (s : Tree) (a : NodeId) (t : Tree) (b : NodeId) : Except Fault Bool :=
  s.agreeAfter Measure.hash (· == ·) a t b

def sameShape (s : Tree) (a : NodeId) (t : Tree) (b : NodeId) : Except Fault Bool :=
  s.agreeAfter Measure.shapeHash (fun x y => x.kind == y.kind) a t b

def sameAs (s t : Tree) : Bool :=
  s.forest.agree (· == ·) t.forest s.root t.root

end Tree

end TreeDelta
