namespace TreeDelta

inductive Rose (α : Type) where
  | node (value : α) (children : List (Rose α))

namespace Rose

variable {α β : Type}

def value : Rose α → α
  | .node a _ => a

def children : Rose α → List (Rose α)
  | .node _ cs => cs

theorem induct {motive : Rose α → Prop}
    (node : ∀ a cs, (∀ c ∈ cs, motive c) → motive (.node a cs)) (t : Rose α) : motive t :=
  @Rose.rec α motive (fun cs => ∀ c ∈ cs, motive c)
    node (by simp) (fun _ _ hc hcs => by simpa using ⟨hc, hcs⟩) t

mutual
def size : Rose α → Nat
  | .node _ cs => sizeAll cs + 1
def sizeAll : List (Rose α) → Nat
  | [] => 0
  | c :: cs => size c + sizeAll cs
end

@[simp] theorem size_node (a : α) (cs : List (Rose α)) : (node a cs).size = sizeAll cs + 1 := by
  rw [size]

theorem length_flatMap {g : Rose α → List β} {cs : List (Rose α)}
    (h : ∀ c ∈ cs, (g c).length = c.size) : (cs.flatMap g).length = sizeAll cs := by
  induction cs with
  | nil => rfl
  | cons c cs ih =>
      rw [List.flatMap_cons, List.length_append, h c (by simp), ih fun d hd => h d (by simp [hd]),
        sizeAll]

mutual
def height : Rose α → Nat
  | .node _ cs => heightAll cs
def heightAll : List (Rose α) → Nat
  | [] => 0
  | c :: cs => max (height c + 1) (heightAll cs)
end

mutual
def map (f : α → β) : Rose α → Rose β
  | .node a cs => .node (f a) (mapAll f cs)
def mapAll (f : α → β) : List (Rose α) → List (Rose β)
  | [] => []
  | c :: cs => map f c :: mapAll f cs
end

theorem mapAll_eq_map (f : α → β) (cs : List (Rose α)) : mapAll f cs = cs.map (map f) := by
  induction cs with
  | nil => rfl
  | cons c cs ih => simp [mapAll, ih]

@[simp] theorem map_node (f : α → β) (a : α) (cs : List (Rose α)) :
    (node a cs).map f = node (f a) (cs.map (map f)) := by
  rw [map, mapAll_eq_map]

mutual
/-- Same shape, with the values related position by position. -/
def agree (r : α → β → Bool) : Rose α → Rose β → Bool
  | .node a as, .node b bs => r a b && agreeAll r as bs
def agreeAll (r : α → β → Bool) : List (Rose α) → List (Rose β) → Bool
  | [], [] => true
  | a :: as, b :: bs => agree r a b && agreeAll r as bs
  | _, _ => false
end

mutual
def preorderOnto : Rose α → List α → List α
  | .node a cs, rest => a :: preorderAllOnto cs rest
def preorderAllOnto : List (Rose α) → List α → List α
  | [], rest => rest
  | c :: cs, rest => preorderOnto c (preorderAllOnto cs rest)
end

def preorder (t : Rose α) : List α := t.preorderOnto []

def descendants (t : Rose α) : List α := preorderAllOnto t.children []

mutual
def postorderOnto : Rose α → List α → List α
  | .node a cs, rest => postorderAllOnto cs (a :: rest)
def postorderAllOnto : List (Rose α) → List α → List α
  | [], rest => rest
  | c :: cs, rest => postorderOnto c (postorderAllOnto cs rest)
end

def postorder (t : Rose α) : List α := t.postorderOnto []

mutual
theorem preorderOnto_eq : ∀ (t : Rose α) (rest : List α), t.preorderOnto rest = t.preorder ++ rest
  | .node a cs, rest => by
      rw [preorder, preorderOnto, preorderOnto, preorderAllOnto_eq cs, List.cons_append]
theorem preorderAllOnto_eq : ∀ (cs : List (Rose α)) (rest : List α),
    preorderAllOnto cs rest = preorderAllOnto cs [] ++ rest
  | [], _ => rfl
  | c :: cs, rest => by
      rw [preorderAllOnto, preorderAllOnto, preorderOnto_eq c, preorderOnto_eq c,
        preorderAllOnto_eq cs rest, List.append_assoc]
end

theorem preorderAllOnto_nil (cs : List (Rose α)) :
    preorderAllOnto cs [] = cs.flatMap preorder := by
  induction cs with
  | nil => rfl
  | cons c cs ih => rw [preorderAllOnto, preorderOnto_eq, ih, List.flatMap_cons]

@[simp] theorem preorder_node (a : α) (cs : List (Rose α)) :
    (node a cs).preorder = a :: cs.flatMap preorder := by
  rw [preorder, preorderOnto, preorderAllOnto_nil]

@[simp] theorem descendants_node (a : α) (cs : List (Rose α)) :
    (node a cs).descendants = cs.flatMap preorder := preorderAllOnto_nil cs

mutual
theorem postorderOnto_eq : ∀ (t : Rose α) (rest : List α),
    t.postorderOnto rest = t.postorder ++ rest
  | .node a cs, rest => by
      rw [postorder, postorderOnto, postorderOnto, postorderAllOnto_eq cs,
        postorderAllOnto_eq cs [a], List.append_assoc, List.singleton_append]
theorem postorderAllOnto_eq : ∀ (cs : List (Rose α)) (rest : List α),
    postorderAllOnto cs rest = postorderAllOnto cs [] ++ rest
  | [], _ => rfl
  | c :: cs, rest => by
      rw [postorderAllOnto, postorderAllOnto, postorderOnto_eq c, postorderOnto_eq c,
        postorderAllOnto_eq cs rest, List.append_assoc]
end

theorem postorderAllOnto_nil (cs : List (Rose α)) :
    postorderAllOnto cs [] = cs.flatMap postorder := by
  induction cs with
  | nil => rfl
  | cons c cs ih => rw [postorderAllOnto, postorderOnto_eq, ih, List.flatMap_cons]

@[simp] theorem postorder_node (a : α) (cs : List (Rose α)) :
    (node a cs).postorder = cs.flatMap postorder ++ [a] := by
  rw [postorder, postorderOnto, postorderAllOnto_eq, postorderAllOnto_nil]

theorem length_preorder (t : Rose α) : t.preorder.length = t.size := by
  induction t using induct with
  | node a cs ih =>
      rw [preorder_node, size_node, List.length_cons, length_flatMap ih]

theorem length_postorder (t : Rose α) : t.postorder.length = t.size := by
  induction t using induct with
  | node a cs ih =>
      rw [postorder_node, size_node, List.length_append, length_flatMap ih, List.length_singleton]

/-- Appends two lists of rows row by row; the longer one keeps its remaining rows. -/
def joinRows : List (List α) → List (List α) → List (List α)
  | [], ys => ys
  | xs, [] => xs
  | x :: xs, y :: ys => (x ++ y) :: joinRows xs ys

mutual
/-- The values at depth 0, 1, 2, …, each row from left to right. -/
def levels : Rose α → List (List α)
  | .node a cs => [a] :: levelsAll cs
def levelsAll : List (Rose α) → List (List α)
  | [] => []
  | c :: cs => joinRows (levels c) (levelsAll cs)
end

def breadthFirst (t : Rose α) : List α := t.levels.flatten

end Rose

end TreeDelta
