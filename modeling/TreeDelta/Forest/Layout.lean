import TreeDelta.Forest

namespace TreeDelta.Forest

def rootIds (id : NodeId) : List (Rose NodeInfo) → List NodeId
  | [] => []
  | c :: cs => id :: rootIds (id + c.size) cs

mutual
def layout (parent : Option NodeId) (id : NodeId) : Rose NodeInfo → List Node → List Node
  | .node info cs, rest => ⟨info, parent, rootIds (id + 1) cs⟩ :: layoutAll id (id + 1) cs rest
def layoutAll (parent id : NodeId) : List (Rose NodeInfo) → List Node → List Node
  | [], rest => rest
  | c :: cs, rest => layout (some parent) id c (layoutAll parent (id + c.size) cs rest)
end

mutual
theorem length_layout (parent : Option NodeId) : ∀ (id : NodeId) (t : Rose NodeInfo)
    (rest : List Node), (layout parent id t rest).length = t.size + rest.length
  | id, .node info cs, rest => by
      rw [layout, List.length_cons, length_layoutAll id (id + 1) cs rest, Rose.size]
      omega
theorem length_layoutAll (parent : NodeId) : ∀ (id : NodeId) (cs : List (Rose NodeInfo))
    (rest : List Node), (layoutAll parent id cs rest).length = Rose.sizeAll cs + rest.length
  | _, [], rest => by simp [layoutAll, Rose.sizeAll]
  | id, c :: cs, rest => by
      rw [layoutAll, length_layout (some parent) id c, length_layoutAll parent _ cs rest,
        Rose.sizeAll]
      omega
end

def ofRose (t : Rose NodeInfo) : Forest := ⟨(layout none 1 t []).toArray⟩

@[simp] theorem size_ofRose (t : Rose NodeInfo) : (ofRose t).size = t.size := by
  simp [ofRose, size, length_layout]

end TreeDelta.Forest
