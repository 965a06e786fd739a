import TreeDelta.Node
import TreeDelta.Rose

namespace TreeDelta

structure Node where
  info : NodeInfo
  parent : Option NodeId := none
  children : List NodeId := []
deriving DecidableEq

structure Forest where
  nodes : Array Node
deriving DecidableEq

namespace Forest

def empty : Forest := ⟨#[]⟩

def size (f : Forest) : Nat := f.nodes.size

def get? (f : Forest) : NodeId → Option Node
  | 0 => none
  | i + 1 => f.nodes[i]?

def has (f : Forest) (id : NodeId) : Bool := (f.get? id).isSome

def node (f : Forest) (id : NodeId) : Except Fault Node :=
  match f.get? id with
  | some n => .ok n
  | none => .error .unknownNode

def parent? (f : Forest) (id : NodeId) : Option NodeId := (f.get? id).bind (·.parent)

def childrenOf (f : Forest) (id : NodeId) : List NodeId :=
  match f.get? id with
  | some n => n.children
  | none => []

def contentOf (f : Forest) (id : NodeId) : Content :=
  match f.get? id with
  | some n => n.info.toContent
  | none => ⟨.top, none⟩

def subtreeUpTo (f : Forest) : Nat → NodeId → Rose NodeId
  | 0, id => .node id []
  | depth + 1, id => .node id ((f.childrenOf id).map (f.subtreeUpTo depth))

/-- The tree of node numbers below `id`. No path in a forest is longer than its size, so nothing
is cut off. -/
def subtree (f : Forest) (id : NodeId) : Rose NodeId := f.subtreeUpTo f.size id

def contentTree (f : Forest) (id : NodeId) : Rose Content := (f.subtree id).map f.contentOf

/-- The nodes on the way up, starting with the given one and ending before the first that is not
to be kept, but at most `steps` of them. -/
def climb (f : Forest) (keep : NodeId → Bool) : Nat → Option NodeId → List NodeId
  | steps + 1, some id => if keep id then id :: f.climb keep steps (f.parent? id) else []
  | _, _ => []

def ancestorsWhile (f : Forest) (keep : NodeId → Bool) (id : NodeId) : List NodeId :=
  f.climb keep f.size (f.parent? id)

def ancestors (f : Forest) (id : NodeId) : List NodeId := f.ancestorsWhile (fun _ => true) id

def position (f : Forest) (id : NodeId) : Nat :=
  match f.parent? id with
  | some p => (f.childrenOf p).idxOf id
  | none => 0

def modify (f : Forest) (id : NodeId) (g : Node → Node) : Forest :=
  match id with
  | 0 => f
  | i + 1 => ⟨f.nodes.modify i g⟩

def alloc (f : Forest) (info : NodeInfo) : NodeId × Forest :=
  (f.nodes.size + 1, ⟨f.nodes.push ⟨info, none, []⟩⟩)

theorem has_iff (f : Forest) (id : NodeId) : f.has id ↔ 0 < id ∧ id ≤ f.size := by
  cases id with
  | zero => simp [has, get?]
  | succ i =>
      have h : f.nodes[i]?.isSome ↔ i < f.nodes.size := by
        rw [← Option.ne_none_iff_isSome, ne_eq, Array.getElem?_eq_none_iff, Nat.not_le]
      rw [has, get?, h, size]
      exact ⟨fun hi => ⟨Nat.succ_pos i, hi⟩, fun hi => hi.2⟩

@[simp] theorem size_modify (f : Forest) (id : NodeId) (g : Node → Node) :
    (f.modify id g).size = f.size := by
  cases id <;> simp [modify, size]

theorem get?_modify (f : Forest) (id : NodeId) (g : Node → Node) (j : NodeId) :
    (f.modify id g).get? j = if id = j then (f.get? j).map g else f.get? j := by
  cases id <;> cases j <;> simp [modify, get?, Array.getElem?_modify]

theorem parent?_modify (f : Forest) (id : NodeId) (g : Node → Node) (j : NodeId) :
    (f.modify id g).parent? j = (f.get? j).bind fun n => (if id = j then g n else n).parent := by
  rw [parent?, get?_modify]
  cases f.get? j <;> by_cases h : id = j <;> simp [h]

theorem childrenOf_modify (f : Forest) (id : NodeId) (g : Node → Node) (j : NodeId) :
    (f.modify id g).childrenOf j =
      match f.get? j with
      | some n => (if id = j then g n else n).children
      | none => [] := by
  rw [childrenOf, get?_modify]
  cases f.get? j <;> by_cases h : id = j <;> simp [h]

@[simp] theorem size_alloc (f : Forest) (info : NodeInfo) :
    (f.alloc info).2.size = f.size + 1 := by
  simp [alloc, size]

theorem get?_alloc (f : Forest) (info : NodeInfo) (j : NodeId) :
    (f.alloc info).2.get? j = if j = f.size + 1 then some ⟨info, none, []⟩ else f.get? j := by
  cases j <;> simp [alloc, get?, size, Array.getElem?_push]

end Forest

end TreeDelta
