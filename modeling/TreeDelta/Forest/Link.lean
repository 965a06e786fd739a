import TreeDelta.Forest

namespace TreeDelta.Forest

def detach (f : Forest) (id : NodeId) : Forest :=
  match f.parent? id with
  | some p =>
      (f.modify p fun n => { n with children := n.children.erase id }).modify id
        fun n => { n with parent := none }
  | none => f

/-- Puts a node among the children of `parent`, before the child that has index `index` once the
node has left its old place, and last if there is no such child. -/
def place (f : Forest) (parent child : NodeId) (index : Nat) : Forest :=
  ((f.detach child).modify parent fun n =>
      { n with children := n.children.take index ++ child :: n.children.drop index }).modify child
    fun n => { n with parent := some parent }

@[simp] theorem size_detach (f : Forest) (id : NodeId) : (f.detach id).size = f.size := by
  unfold detach
  split <;> simp

theorem parent?_detach (f : Forest) (id j : NodeId) :
    (f.detach id).parent? j = if id = j then none else f.parent? j := by
  unfold detach
  split
  · next p _ =>
      rw [parent?_modify, get?_modify, parent?]
      cases f.get? j <;> by_cases hj : id = j <;> by_cases hp : p = j <;> simp [hj, hp]
  · split <;> simp_all

theorem childrenOf_detach (f : Forest) (id j : NodeId) :
    (f.detach id).childrenOf j =
      if f.parent? id = some j then (f.childrenOf j).erase id else f.childrenOf j := by
  unfold detach
  split
  · next p h =>
      rw [childrenOf_modify, get?_modify, childrenOf, h]
      cases f.get? j <;> by_cases hj : id = j <;> by_cases hp : p = j <;> simp [hj, hp]
  · next h => simp [h]

@[simp] theorem size_place (f : Forest) (parent child : NodeId) (index : Nat) :
    (f.place parent child index).size = f.size := by
  simp [place]

theorem childrenOf_place (f : Forest) {parent : NodeId} (child : NodeId) (index : Nat) (j : NodeId)
    (hp : f.has parent) :
    (f.place parent child index).childrenOf j =
      if parent = j then
        ((f.detach child).childrenOf j).take index ++
          child :: ((f.detach child).childrenOf j).drop index
      else (f.detach child).childrenOf j := by
  have hd : (f.detach child).has parent := by simpa [has_iff] using hp
  rw [place, childrenOf_modify, get?_modify, childrenOf]
  by_cases h : parent = j
  · subst h
    obtain ⟨n, hn⟩ := Option.isSome_iff_exists.1 hd
    rw [if_pos rfl, if_pos rfl, hn]
    by_cases hc : child = parent <;> simp [hc]
  · cases (f.detach child).get? j <;> by_cases hc : child = j <;> simp [h, hc]

def linkable (f : Forest) (parent child : NodeId) : Bool :=
  f.has parent && f.has child && !(parent :: f.ancestors parent).contains child

def insertAt (f : Forest) (parent child : NodeId) (index : Nat) : Except Fault Forest :=
  if f.linkable parent child then .ok (f.place parent child index) else .error .badLink

def append (f : Forest) (parent child : NodeId) : Except Fault Forest :=
  f.insertAt parent child (f.childrenOf parent).length

/-- A working copy: the tree at `root` hangs under a new top node. -/
def underTop (f : Forest) (root : NodeId) : NodeId × Forest :=
  let (top, f) := f.alloc ⟨⟨.top, none⟩, 0, 0, {}⟩
  (top, f.place top root 0)

end TreeDelta.Forest
