import Std.Data.HashSet
import TreeDelta.Script.Action
import TreeDelta.Tree

namespace TreeDelta

/-- The nodes of a tree that are marked together with everything below them. -/
def markedThroughout (t : Tree) (marked : Std.HashSet NodeId) : Std.HashSet NodeId :=
  t.postorder.foldl
    (fun full id =>
      if marked.contains id && (t.forest.childrenOf id).all full.contains then full.insert id
      else full) ∅

namespace Script

def inserted (s : Script) : Std.HashSet NodeId :=
  Std.HashSet.ofList <| s.actions.filterMap fun
    | .insert _ dst .. => some dst
    | _ => none

def deleted (s : Script) : Std.HashSet NodeId :=
  Std.HashSet.ofList <| s.actions.filterMap fun
    | .delete node => some node
    | _ => none

/-- What becomes of the action for the node `id`, where `full` holds the nodes of whole subtrees:
below another such node nothing, and otherwise `whole`, or `single` for a leaf. -/
def condenseAt (t : Tree) (full : Std.HashSet NodeId) (id : NodeId) (single whole : Action) :
    Option Action :=
  if (t.forest.parent? id).any full.contains then none
  else if (t.forest.childrenOf id).isEmpty then some single
  else some whole

def condenseAction (src dst : Tree) (added removed : Std.HashSet NodeId) (a : Action) :
    Option Action :=
  match a with
  | .insert node x parent position _ _ =>
      if added.contains x then condenseAt dst added x a (.insertTree node x parent position)
      else some a
  | .delete node =>
      if removed.contains node then condenseAt src removed node a (.deleteTree node) else some a
  | _ => some a

def condense (s : Script) (src dst : Tree) : Script :=
  let added := markedThroughout dst s.inserted
  let removed := markedThroughout src s.deleted
  { s with actions := s.actions.filterMap (condenseAction src dst added removed) }

end Script

end TreeDelta
