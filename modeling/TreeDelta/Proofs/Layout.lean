import Mathlib.Data.List.Range
import TreeDelta.Forest.Layout
import TreeDelta.Proofs.Roses
import TreeDelta.Script.Replay

namespace TreeDelta.Forest

mutual
/-- The tree of consecutive numbers, from `id` on, in the shape of a given tree. -/
def number (id : NodeId) : Rose NodeInfo → Rose NodeId
  | .node _ cs => .node id (numberAll (id + 1) cs)
def numberAll (id : NodeId) : List (Rose NodeInfo) → List (Rose NodeId)
  | [] => []
  | c :: cs => number id c :: numberAll (id + c.size) cs
end

mutual
theorem preorder_number : ∀ (id : NodeId) (t : Rose NodeInfo),
    (number id t).preorder = List.range' id t.size
  | id, .node info cs => by
      rw [number, Rose.preorder_node, preorder_numberAll (id + 1) cs, Rose.size_node,
        List.range'_succ]
theorem preorder_numberAll : ∀ (id : NodeId) (cs : List (Rose NodeInfo)),
    (numberAll id cs).flatMap Rose.preorder = List.range' id (Rose.sizeAll cs)
  | id, [] => rfl
  | id, c :: cs => by
      rw [numberAll, List.flatMap_cons, preorder_number id c, preorder_numberAll (id + c.size) cs,
        Rose.sizeAll, ← List.range'_append_1]
end

mutual
/-- The forest holds a tree whose root has number `id`, with consecutive numbers. -/
def Laid (f : Forest) (parent : Option NodeId) (id : NodeId) : Rose NodeInfo → Prop
  | .node info cs => f.get? id = some ⟨info, parent, rootIds (id + 1) cs⟩ ∧ f.LaidAll id (id + 1) cs
def LaidAll (f : Forest) (parent id : NodeId) : List (Rose NodeInfo) → Prop
  | [] => True
  | c :: cs => f.Laid (some parent) id c ∧ f.LaidAll parent (id + c.size) cs
end

variable {f : Forest}

mutual
theorem layout_eq (parent : Option NodeId) : ∀ (id : NodeId) (t : Rose NodeInfo) (rest : List Node),
    layout parent id t rest = layout parent id t [] ++ rest
  | id, .node info cs, rest => by
      rw [layout, layout, layoutAll_eq id (id + 1) cs rest, List.cons_append]
theorem layoutAll_eq (parent : NodeId) : ∀ (id : NodeId) (cs : List (Rose NodeInfo))
    (rest : List Node), layoutAll parent id cs rest = layoutAll parent id cs [] ++ rest
  | _, [], _ => rfl
  | id, c :: cs, rest => by
      rw [layoutAll, layoutAll, layout_eq (some parent) id c, layoutAll_eq parent _ cs rest,
        layout_eq (some parent) id c (layoutAll parent (id + c.size) cs []), List.append_assoc]
end

mutual
theorem laid_of_nodes {parent : Option NodeId} : ∀ {id : NodeId} {t : Rose NodeInfo}
    (before after : List Node), f.nodes.toList = before ++ layout parent id t after →
      id = before.length + 1 → f.Laid parent id t
  | id, .node info cs, before, after, hnodes, hid => by
      subst hid
      rw [layout] at hnodes
      constructor
      · rw [get?, ← Array.getElem?_toList, hnodes]
        simp
      · apply laidAll_of_nodes (before ++ [⟨info, parent, rootIds (before.length + 2) cs⟩]) after
        · rw [hnodes, List.append_assoc, List.singleton_append]
        · simp
theorem laidAll_of_nodes {parent : NodeId} : ∀ {id : NodeId} {cs : List (Rose NodeInfo)}
    (before after : List Node), f.nodes.toList = before ++ layoutAll parent id cs after →
      id = before.length + 1 → f.LaidAll parent id cs
  | _, [], _, _, _, _ => trivial
  | id, c :: cs, before, after, hnodes, hid => by
      rw [layoutAll] at hnodes
      refine ⟨laid_of_nodes before _ hnodes hid, ?_⟩
      rw [layout_eq, ← List.append_assoc] at hnodes
      apply laidAll_of_nodes _ after hnodes
      rw [List.length_append, length_layout, hid]
      exact Nat.add_right_comm _ _ _
end

mutual
theorem Laid.subtreeUpTo {parent : Option NodeId} : ∀ {id depth : Nat} {t : Rose NodeInfo},
    f.Laid parent id t → t.size ≤ depth → f.subtreeUpTo depth id = number id t
  | id, depth, .node info cs, hlaid, hdepth => by
      cases depth with
      | zero => simp at hdepth
      | succ depth =>
          rw [Rose.size_node] at hdepth
          rw [Forest.subtreeUpTo, number, childrenOf, hlaid.1]
          congr 1
          exact LaidAll.subtreeUpTo hlaid.2 (by omega)
theorem LaidAll.subtreeUpTo {parent : NodeId} : ∀ {id depth : Nat} {cs : List (Rose NodeInfo)},
    f.LaidAll parent id cs → Rose.sizeAll cs ≤ depth →
      (rootIds id cs).map (f.subtreeUpTo depth) = numberAll id cs
  | _, _, [], _, _ => rfl
  | id, depth, c :: cs, hlaid, hdepth => by
      rw [Rose.sizeAll] at hdepth
      rw [rootIds, List.map_cons, numberAll, Laid.subtreeUpTo hlaid.1 (by omega),
        LaidAll.subtreeUpTo hlaid.2 (by omega)]
end

mutual
theorem Laid.map_infoOf {parent : Option NodeId} : ∀ {id : NodeId} {t : Rose NodeInfo},
    f.Laid parent id t → (number id t).map f.infoOf = t
  | id, .node info cs, hlaid => by
      rw [number, Rose.map_node, LaidAll.map_infoOf hlaid.2, infoOf, hlaid.1]
theorem LaidAll.map_infoOf {parent : NodeId} : ∀ {id : NodeId} {cs : List (Rose NodeInfo)},
    f.LaidAll parent id cs → (numberAll id cs).map (Rose.map f.infoOf) = cs
  | _, [], _ => rfl
  | id, c :: cs, hlaid => by
      rw [numberAll, List.map_cons, Laid.map_infoOf hlaid.1, LaidAll.map_infoOf hlaid.2]
end

theorem laid_ofRose (t : Rose NodeInfo) : (ofRose t).Laid none 1 t :=
  laid_of_nodes [] [] rfl rfl

theorem subtree_ofRose (t : Rose NodeInfo) : (ofRose t).subtree 1 = number 1 t :=
  (laid_ofRose t).subtreeUpTo (by rw [size_ofRose])

theorem preorder_ofRose (t : Rose NodeInfo) :
    ((ofRose t).subtree 1).preorder = List.range' 1 t.size := by
  rw [subtree_ofRose, preorder_number]

theorem map_infoOf_ofRose (t : Rose NodeInfo) :
    ((ofRose t).subtree 1).map (ofRose t).infoOf = t := by
  rw [subtree_ofRose, (laid_ofRose t).map_infoOf]

end TreeDelta.Forest
