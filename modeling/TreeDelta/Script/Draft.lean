import Std.Data.HashSet
import TreeDelta.CommonSubsequence
import TreeDelta.Pairing
import TreeDelta.Script.Action

namespace TreeDelta

/-- The journal has an entry for each action so far. -/
structure Draft (ε : Type) where
  work : Forest
  /-- Between the working copy and the destination tree. -/
  pairing : Pairing
  /-- The destination nodes whose partners stand in order among their siblings. -/
  inOrder : Std.HashSet NodeId := {}
  journal : Array ε := #[]

namespace Draft

structure Task (ε : Type) where
  dst : Tree
  /-- The node above the root of the working copy. -/
  top : NodeId
  /-- The journal entry for an action and the working copy right after it. -/
  entry : Action → Forest → ε

variable {ε : Type} (t : Task ε)

def record (d : Draft ε) (work : Forest) (a : Action) : Draft ε :=
  { d with work := work, journal := d.journal.push (t.entry a work) }

def settle (d : Draft ε) (x : NodeId) : Draft ε := { d with inOrder := d.inOrder.insert x }

/-- Where the partner of `x` belongs: under the partner of its parent, or under the top node. -/
def targetParent (d : Draft ε) (x : NodeId) : Except Fault NodeId :=
  return ((← t.dst.parent x).bind d.pairing.origin?).getD t.top

def siblings (x : NodeId) : Except Fault (List NodeId) := do
  match ← t.dst.parent x with
  | some y => t.dst.children y
  | none => return [x]

/-- The index for the partner of `x`: behind the partner of the nearest sibling before it that is
in order, or first. -/
def slotFor (d : Draft ε) (x : NodeId) : Except Fault Nat := do
  let sibs ← siblings t x
  if sibs.find? d.inOrder.contains == some x then return 0
  let before := (sibs.takeWhile (· != x)).filter d.inOrder.contains
  match before.getLast?.bind d.pairing.origin? with
  | none => return 0
  | some u => do
      let _ ← d.work.node u
      return d.work.position u + 1

def insert (d : Draft ε) (x z : NodeId) : Except Fault (NodeId × Draft ε) := do
  let k ← d.slotFor t x
  let info ← t.dst.info x
  let (w, work) := d.work.alloc info
  let work ← work.insertAt z w k
  let pairing ← d.pairing.add w x
  return (w, { d with pairing := pairing }.record t work (.insert w x z k info.kind info.label))

def update (d : Draft ε) (w x : NodeId) : Except Fault (Draft ε) := do
  let target ← t.dst.info x
  let current := (← d.work.node w).info
  if current.toContent == target.toContent then return d
  let retype := if current.kind == target.kind then none else some target.kind
  let work := d.work.modify w fun n =>
    { n with info := { n.info with kind := target.kind, label := target.label } }
  return d.record t work (.update w x current.label target.label retype)

def relocate (d : Draft ε) (w x z : NodeId) : Except Fault (Draft ε) := do
  let k ← d.slotFor t x
  return d.record t (← d.work.insertAt z w k) (.move w x z k)

def childrenToOrder (d : Draft ε) (w x : NodeId) : Except Fault (List NodeId) := do
  (← d.work.node w).children.filterM fun c =>
    match d.pairing.image? c with
    | none => return false
    | some y => return (← t.dst.parent y) == some x

def childrenInPlace (d : Draft ε) (w x : NodeId) : Except Fault (List NodeId) := do
  (← t.dst.children x).filterM fun c =>
    match d.pairing.origin? c with
    | none => return false
    | some s => return (← d.work.node s).parent == some w

def moveStray (w : NodeId) : Draft ε → List NodeId → Except Fault (Draft ε)
  | d, [] => .ok d
  | d, a :: rest =>
      match d.pairing.image? a with
      | none => moveStray w d rest
      | some b => do
          let d := { d with work := d.work.detach a }
          let k ← d.slotFor t b
          let work ← d.work.insertAt w a k
          moveStray w ((d.record t work (.move a b w k)).settle b) rest

/-- Puts the children of `w` in the order of their partners below `x`, leaving a longest run that
is in order already where it is. -/
def orderChildren (d : Draft ε) (w x : NodeId) : Except Fault (Draft ε) := do
  let all ← t.dst.children x
  let d := { d with inOrder := all.foldl Std.HashSet.erase d.inOrder }
  let left ← d.childrenToOrder t w x
  let right ← d.childrenInPlace t w x
  let common := (commonSubsequence d.pairing.joins left right).map (·.2)
  let kept := Std.HashSet.ofList common
  let d := { d with inOrder := common.foldl Std.HashSet.insert d.inOrder }
  moveStray t w d (left.filter fun a => !(d.pairing.image? a).any kept.contains)

/-- Brings the partner of `x` to its place, inserting one if there is none. -/
def bring (d : Draft ε) (x : NodeId) : Except Fault (NodeId × Draft ε) := do
  let z ← d.targetParent t x
  match d.pairing.origin? x with
  | none => d.insert t x z
  | some w => do
      let d ← d.update t w x
      if (← d.work.node w).parent == some z then return (w, d)
      else return (w, ← d.relocate t w x z)

def visit (d : Draft ε) (x : NodeId) : Except Fault (Draft ε) := do
  let (w, d) ← d.bring t x
  (d.settle x).orderChildren t w x

def visitAll : Draft ε → List NodeId → Except Fault (Draft ε)
  | d, [] => .ok d
  | d, x :: xs => do visitAll (← d.visit t x) xs

def leftovers (d : Draft ε) : List NodeId :=
  (d.work.subtree t.top).postorder.filter fun id => id != t.top && !d.pairing.srcPaired id

def run (src dst : Tree) (p : Pairing) (entry : Action → Forest → ε) :
    Except Fault (Task ε × Draft ε) := do
  let (top, work) := src.forest.underTop src.root
  let t : Task ε := ⟨dst, top, entry⟩
  return (t, ← visitAll t { work := work, pairing := p } dst.breadthFirst)

end Draft

/-- The script that turns `src` into `dst` under a pairing. -/
def Script.ofPairing (src dst : Tree) (p : Pairing) : Except Fault Script := do
  let (t, d) ← Draft.run src dst p fun a _ => a
  return ⟨d.journal.toList ++ (d.leftovers t).map .delete, t.top⟩

end TreeDelta
