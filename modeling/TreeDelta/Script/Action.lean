import TreeDelta.Node
import TreeDelta.Text.Quoted

namespace TreeDelta

inductive Action where
  /-- A new leaf `node` for the destination node `dst`, as child number `position` of `parent`. -/
  | insert (node dst parent : NodeId) (position : Nat) (kind : Kind) (label : Option String)
  /-- A copy `node` of the whole subtree at the destination node `dst`. -/
  | insertTree (node dst parent : NodeId) (position : Nat)
  | delete (node : NodeId)
  | deleteTree (node : NodeId)
  /-- A new label, and a new kind if `retype` is given. -/
  | update (node dst : NodeId) (old new : Option String) (retype : Option Kind)
  /-- The subtree at `node` becomes child number `position` of `parent`, counted without it. -/
  | move (node dst parent : NodeId) (position : Nat)
deriving DecidableEq

namespace Action

def node : Action → NodeId
  | .insert n .. | .insertTree n .. | .delete n | .deleteTree n | .update n .. | .move n .. => n

def name : Action → String
  | .insert .. => "insert"
  | .insertTree .. => "insert-tree"
  | .delete .. => "delete"
  | .deleteTree .. => "delete-tree"
  | .update .. => "update"
  | .move .. => "move"

def text : Action → String
  | .insert node dst parent position kind label =>
      let shown := (label.map fun l => " " ++ Text.quoted l).getD ""
      s!"Insert({node} " ++ kind.text ++ shown ++ s!" as b:{dst} @{position} under {parent})"
  | .insertTree node dst parent position =>
      s!"TreeInsert({node} as b:{dst} @{position} under {parent})"
  | .delete node => s!"Delete({node})"
  | .deleteTree node => s!"TreeDelete({node})"
  | .update node dst old new retype =>
      let kind := (retype.map fun k => " as " ++ k.text).getD ""
      s!"Update({node} → b:{dst} " ++ Text.quotedOption old ++ " → " ++ Text.quotedOption new ++
        kind ++ ")"
  | .move node dst parent position =>
      s!"Move({node} → b:{dst} @{position} under {parent})"

end Action

/-- Actions in the order of their application to a working copy whose root hangs under the node
`top`. -/
structure Script where
  actions : List Action
  top : NodeId
deriving DecidableEq

namespace Script

def size (s : Script) : Nat := s.actions.length

def isEmpty (s : Script) : Bool := s.actions.isEmpty

def count (s : Script) (name : String) : Nat := (s.actions.filter fun a => a.name == name).length

def take (s : Script) (n : Nat) : Script := { s with actions := s.actions.take n }

end Script

end TreeDelta
