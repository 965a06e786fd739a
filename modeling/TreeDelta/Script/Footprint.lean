import TreeDelta.Script.Action
import TreeDelta.Tree

namespace TreeDelta

def dropRepeats : List NodeId → List NodeId
  | a :: b :: rest => if a == b then dropRepeats (b :: rest) else a :: dropRepeats (b :: rest)
  | xs => xs

def ascending (xs : List NodeId) : List NodeId := dropRepeats (xs.mergeSort (· ≤ ·))

theorem mem_dropRepeats {x : NodeId} (xs : List NodeId) : x ∈ dropRepeats xs ↔ x ∈ xs := by
  fun_induction dropRepeats xs with
  | case1 => simp_all
  | case2 => simp_all
  | case3 => rfl

@[simp] theorem mem_ascending {x : NodeId} (xs : List NodeId) : x ∈ ascending xs ↔ x ∈ xs := by
  rw [ascending, mem_dropRepeats, List.mem_mergeSort]

structure Footprint where
  srcUpdated : List NodeId := []
  srcDeleted : List NodeId := []
  srcMoved : List NodeId := []
  dstUpdated : List NodeId := []
  dstInserted : List NodeId := []
  dstMoved : List NodeId := []
deriving DecidableEq

namespace Footprint

def srcChanged (f : Footprint) : List NodeId := ascending (f.srcUpdated ++ f.srcDeleted)

def dstChanged (f : Footprint) : List NodeId := ascending (f.dstUpdated ++ f.dstInserted)

def isEmpty (f : Footprint) : Bool :=
  f.srcUpdated.isEmpty && f.srcDeleted.isEmpty && f.srcMoved.isEmpty && f.dstUpdated.isEmpty &&
    f.dstInserted.isEmpty && f.dstMoved.isEmpty

def union (parts : List Footprint) : Footprint where
  srcUpdated := ascending (parts.flatMap (·.srcUpdated))
  srcDeleted := ascending (parts.flatMap (·.srcDeleted))
  srcMoved := ascending (parts.flatMap (·.srcMoved))
  dstUpdated := ascending (parts.flatMap (·.dstUpdated))
  dstInserted := ascending (parts.flatMap (·.dstInserted))
  dstMoved := ascending (parts.flatMap (·.dstMoved))

end Footprint

def Action.footprint (src dst : Tree) : Action → Except Fault Footprint
  | .insert _ x .. => return { dstInserted := [x] }
  | .insertTree _ x .. => return { dstInserted := (← dst.subtree x).preorder }
  | .delete node => return { srcDeleted := [node] }
  | .deleteTree node => return { srcDeleted := (← src.subtree node).preorder }
  | .update node x .. => return { srcUpdated := [node], dstUpdated := [x] }
  | .move node x .. =>
      return { srcMoved := (← src.subtree node).preorder, dstMoved := (← dst.subtree x).preorder }

def Script.footprint (s : Script) (src dst : Tree) : Except Fault Footprint :=
  return .union (← s.actions.mapM (Action.footprint src dst))

end TreeDelta
