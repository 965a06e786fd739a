import TreeDelta.Proofs.Layout
import TreeDelta.Proofs.Relinking

namespace TreeDelta

namespace Rose

variable {α β : Type}

mutual
def subtrees : Rose α → List (Rose α)
  | .node a cs => .node a cs :: subtreesAll cs
def subtreesAll : List (Rose α) → List (Rose α)
  | [] => []
  | c :: cs => subtrees c ++ subtreesAll cs
end

mutual
theorem map_value_subtrees : ∀ t : Rose α, t.subtrees.map value = t.preorder
  | .node a cs => by
      rw [subtrees, List.map_cons, map_value_subtreesAll cs, preorder_node]
      rfl
theorem map_value_subtreesAll : ∀ cs : List (Rose α),
    (subtreesAll cs).map value = cs.flatMap preorder
  | [] => rfl
  | c :: cs => by
      rw [subtreesAll, List.map_append, map_value_subtrees c, map_value_subtreesAll cs,
        List.flatMap_cons]
end

theorem length_subtrees (t : Rose α) : t.subtrees.length = t.size := by
  rw [← length_preorder, ← map_value_subtrees, List.length_map]

mutual
theorem subtrees_map (f : α → β) : ∀ t : Rose α, (t.map f).subtrees = t.subtrees.map (map f)
  | .node a cs => by
      rw [map_node, subtrees, subtreesAll_map f cs, subtrees, List.map_cons, map_node]
theorem subtreesAll_map (f : α → β) : ∀ cs : List (Rose α),
    subtreesAll (cs.map (map f)) = (subtreesAll cs).map (map f)
  | [] => rfl
  | c :: cs => by
      rw [List.map_cons, subtreesAll, subtrees_map f c, subtreesAll_map f cs, subtreesAll,
        List.map_append]
end

theorem map_value_children (f : α → β) (t : Rose α) :
    (t.map f).children.map value = (t.children.map value).map f := by
  obtain ⟨a, cs⟩ := t
  rw [map_node]
  change (cs.map (map f)).map value = (cs.map value).map f
  rw [List.map_map, List.map_map]
  exact List.map_congr_left fun c _ => value_map f c

mutual
theorem preorder_subset_of_mem_subtrees {s : Rose α} : ∀ {t : Rose α}, s ∈ t.subtrees →
    s.preorder ⊆ t.preorder
  | .node a cs, hs => by
      rcases List.mem_cons.1 hs with rfl | hs
      · exact List.Subset.refl _
      · rw [preorder_node]
        exact List.subset_cons_of_subset _ (preorder_subset_of_mem_subtreesAll hs)
theorem preorder_subset_of_mem_subtreesAll {s : Rose α} : ∀ {cs : List (Rose α)},
    s ∈ subtreesAll cs → s.preorder ⊆ cs.flatMap preorder
  | c :: cs, hs => by
      rw [List.flatMap_cons]
      rcases List.mem_append.1 hs with hs | hs
      · exact List.subset_append_of_subset_left _ (preorder_subset_of_mem_subtrees hs)
      · exact List.subset_append_of_subset_right _ (preorder_subset_of_mem_subtreesAll hs)
end

end Rose

namespace Forest

variable {f : Forest}

mutual
theorem Laid.exists_part {s : Rose NodeInfo} : ∀ {parent : Option NodeId} {id k : Nat}
    {t : Rose NodeInfo}, f.Laid parent id t → t.subtrees[k]? = some s →
      ∃ above, f.Laid above (id + k) s
  | parent, id, k, .node info cs, hlaid, hk => by
      rw [Rose.subtrees] at hk
      cases k with
      | zero =>
          cases hk
          exact ⟨parent, hlaid⟩
      | succ k =>
          rw [List.getElem?_cons_succ] at hk
          have hpart := hlaid.2.exists_part hk
          rwa [Nat.add_assoc, Nat.add_comm 1 k] at hpart
theorem LaidAll.exists_part {s : Rose NodeInfo} : ∀ {parent id k : Nat} {cs : List (Rose NodeInfo)},
    f.LaidAll parent id cs → (Rose.subtreesAll cs)[k]? = some s →
      ∃ above, f.Laid above (id + k) s
  | parent, id, k, [], hlaid, hk => by cases hk
  | parent, id, k, c :: cs, hlaid, hk => by
      rw [Rose.subtreesAll, List.getElem?_append, Rose.length_subtrees] at hk
      split at hk
      · exact hlaid.1.exists_part hk
      · have hpart := hlaid.2.exists_part hk
        rwa [Nat.add_assoc, Nat.add_sub_cancel' (Nat.le_of_not_lt ‹_›)] at hpart
end

mutual
theorem Laid.add_size_le : ∀ {parent : Option NodeId} {id : Nat} {t : Rose NodeInfo},
    f.Laid parent id t → id + t.size ≤ f.size + 1
  | parent, id, .node info cs, hlaid => by
      have hid : f.has id := by rw [has, hlaid.1]; rfl
      have hle := ((f.has_iff id).1 hid).2
      have hkids := hlaid.2.add_sizeAll_le (Nat.succ_le_succ hle)
      rw [Rose.size_node]
      omega
theorem LaidAll.add_sizeAll_le : ∀ {parent id : Nat} {cs : List (Rose NodeInfo)},
    f.LaidAll parent id cs → id ≤ f.size + 1 → id + Rose.sizeAll cs ≤ f.size + 1
  | _, _, [], _, hid => hid
  | parent, id, c :: cs, hlaid, _ => by
      have hkids := hlaid.2.add_sizeAll_le hlaid.1.add_size_le
      rwa [Rose.sizeAll, ← Nat.add_assoc]
end

theorem Laid.contentTree {parent : Option NodeId} {id : Nat} {t : Rose NodeInfo}
    (h : f.Laid parent id t) (hid : 0 < id) : f.contentTree id = t.map NodeInfo.toContent := by
  have hsize : t.size ≤ f.size := by
    have := h.add_size_le
    omega
  calc f.contentTree id = (number id t).map f.contentOf := by
        rw [Forest.contentTree, subtree, h.subtreeUpTo hsize]
    _ = ((number id t).map f.infoOf).map NodeInfo.toContent := by
        rw [Rose.map_map]
        apply Rose.map_congr
        intro a _
        exact contentOf_eq f a
    _ = t.map NodeInfo.toContent := by rw [h.map_infoOf]

theorem Laid.infoOf {parent : Option NodeId} {id : NodeId} {t : Rose NodeInfo}
    (h : f.Laid parent id t) : f.infoOf id = t.value := by
  obtain ⟨info, cs⟩ := t
  rw [Forest.infoOf, h.1]
  rfl

theorem LaidAll.map_infoOf_rootIds : ∀ {parent id : NodeId} {cs : List (Rose NodeInfo)},
    f.LaidAll parent id cs → (rootIds id cs).map f.infoOf = cs.map Rose.value
  | _, _, [], _ => rfl
  | _, _, c :: cs, h => by
      rw [rootIds, List.map_cons, List.map_cons, h.1.infoOf, h.2.map_infoOf_rootIds]

theorem Laid.map_infoOf_children {parent : Option NodeId} {id : NodeId} {t : Rose NodeInfo}
    (h : f.Laid parent id t) : (f.childrenOf id).map f.infoOf = t.children.map Rose.value := by
  obtain ⟨info, cs⟩ := t
  rw [childrenOf, h.1]
  exact h.2.map_infoOf_rootIds

end Forest

end TreeDelta
