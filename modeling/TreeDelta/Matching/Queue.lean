import TreeDelta.Matching.Config

namespace TreeDelta

structure Queue where
  entries : List (Nat × NodeId) := []

namespace Queue

def insertEntry (e : Nat × NodeId) : List (Nat × NodeId) → List (Nat × NodeId)
  | [] => [e]
  | x :: xs => if e.1 ≤ x.1 then x :: insertEntry e xs else e :: x :: xs

def insert (q : Queue) (priority : Nat) (id : NodeId) : Queue :=
  ⟨insertEntry (priority, id) q.entries⟩

def level? (q : Queue) : Option Nat := q.entries.head?.map (·.1)

def front (q : Queue) : List NodeId :=
  (q.entries.takeWhile fun e => some e.1 == q.level?).map (·.2)

def rest (q : Queue) : Queue := ⟨q.entries.dropWhile fun e => some e.1 == q.level?⟩

theorem insertEntry_perm (e : Nat × NodeId) (xs : List (Nat × NodeId)) :
    (insertEntry e xs).Perm (e :: xs) := by
  induction xs with
  | nil => exact .refl _
  | cons x xs ih =>
      unfold insertEntry
      split
      · exact (ih.cons x).trans (.swap e x xs)
      · exact .refl _

theorem front_append_rest (q : Queue) :
    q.front ++ q.rest.entries.map (·.2) = q.entries.map (·.2) := by
  rw [front, rest, ← List.map_append, List.takeWhile_append_dropWhile]

end Queue

namespace Config

def priorityOf (c : Config) (m : Measure) : Nat :=
  match c.priority with
  | .height => m.height
  | .size => m.size

def enqueue (c : Config) (t : Tree) (q : Queue) (id : NodeId) : Except Fault Queue := do
  let priority := c.priorityOf (← t.measure id)
  return if c.minPriority ≤ priority then q.insert priority id else q

def enqueueAll (c : Config) (t : Tree) (q : Queue) : List NodeId → Except Fault Queue
  | [] => .ok q
  | id :: ids => do c.enqueueAll t (← c.enqueue t q id) ids

def openNode (c : Config) (t : Tree) (q : Queue) (id : NodeId) : Except Fault Queue := do
  c.enqueueAll t q (← t.children id)

def openNodes (c : Config) (t : Tree) (q : Queue) : List NodeId → Except Fault Queue
  | [] => .ok q
  | id :: ids => do c.openNodes t (← c.openNode t q id) ids

def openFront (c : Config) (t : Tree) (q : Queue) : Except Fault Queue :=
  c.openNodes t q.rest q.front

end Config

end TreeDelta
