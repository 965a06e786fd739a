import TreeDelta.Matching.Queue
import TreeDelta.Matching.Ranking

namespace TreeDelta

/-- Subtrees whose digest is `key`. They need not be alike. -/
structure Group where
  key : UInt64
  src : List NodeId := []
  dst : List NodeId := []

namespace Group

def gather (key : UInt64) (add : Group → Group) : List Group → List Group
  | [] => [add { key }]
  | g :: gs => if g.key = key then add g :: gs else g :: gather key add gs

def gatherSrc (t : Tree) : List Group → List NodeId → Except Fault (List Group)
  | gs, [] => .ok gs
  | gs, id :: ids => do
      gatherSrc t (gather (← t.measure id).hash (fun g => { g with src := g.src ++ [id] }) gs) ids

def gatherDst (t : Tree) : List Group → List NodeId → Except Fault (List Group)
  | gs, [] => .ok gs
  | gs, id :: ids => do
      gatherDst t (gather (← t.measure id).hash (fun g => { g with dst := g.dst ++ [id] }) gs) ids

end Group

structure Descent where
  src : Queue := {}
  dst : Queue := {}
  deferred : List Group := []

namespace Identical

variable (c : Config) (src dst : Tree)

def pairIfFree (a b : NodeId) : Pairer Bool := do
  if ← (← get).subtreesFree src dst a b then
    Pairer.addSubtrees src dst a b
    return true
  else return false

def pairUnique (a b : NodeId) : Pairer Bool := do
  if ← src.isomorphic a dst b then pairIfFree src dst a b else return false

def settle (d : Descent) (g : Group) : Pairer Descent := do
  match g.src, g.dst with
  | [a], [b] =>
      if ← pairUnique src dst a b then return d
      else return { d with src := ← c.openNode src d.src a, dst := ← c.openNode dst d.dst b }
  | as, [] => return { d with src := ← c.openNodes src d.src as }
  | [], bs => return { d with dst := ← c.openNodes dst d.dst bs }
  | _, _ => return { d with deferred := d.deferred ++ [g] }

def settleAll (d : Descent) : List Group → Pairer Descent
  | [] => return d
  | g :: gs => do settleAll (← settle c src dst d g) gs

def settleLevel (d : Descent) : Pairer Descent := do
  let groups ← Group.gatherSrc src [] d.src.front
  let groups ← Group.gatherDst dst groups d.dst.front
  settleAll c src dst { d with src := d.src.rest, dst := d.dst.rest } groups

/-- One step down, or the groups put off once a side has nothing left. -/
def step (d : Descent) : Pairer (Descent ⊕ List Group) := do
  match d.src.level?, d.dst.level? with
  | some a, some b =>
      if a = b then return .inl (← settleLevel c src dst d)
      else if b < a then return .inl { d with src := ← c.openFront src d.src }
      else return .inl { d with dst := ← c.openFront dst d.dst }
  | _, _ => return .inr d.deferred

/-- Each step takes a node off a queue, and no node waits twice. -/
def descend : Nat → Descent → Pairer (List Group)
  | 0, d => return d.deferred
  | fuel + 1, d => do
      match ← step c src dst d with
      | .inl next => descend fuel next
      | .inr groups => return groups

def maxSize (t : Tree) : List NodeId → Except Fault Nat
  | [] => .ok 0
  | id :: ids => return max (← t.measure id).size (← maxSize t ids)

/-- The pairs of a group whose subtrees are alike, row by row. -/
def candidates (g : Group) : Except Fault (List (NodeId × NodeId)) := do
  let all := g.src.flatMap fun a => g.dst.map fun b => (a, b)
  all.filterM fun (a, b) => src.isomorphic a dst b

def serve : List (NodeId × NodeId) → Pairer Unit
  | [] => return
  | (a, b) :: rest => do
      let _ ← pairIfFree src dst a b
      serve rest

def serveGroups : List Group → Pairer Unit
  | [] => return
  | g :: gs => do
      let pairs ← candidates src dst g
      serve src dst (← Ranking.sort src dst (← get) pairs)
      serveGroups gs

def bySize (groups : List Group) : Except Fault (List Group) := do
  let sized ← groups.mapM fun g => return (← maxSize src g.src, g)
  return (sized.mergeSort fun x y => y.1 ≤ x.1).map (·.2)

def run : Pairer Unit := do
  let srcQueue ← c.enqueue src {} src.root
  let dstQueue ← c.enqueue dst {} dst.root
  let fuel := src.forest.size + dst.forest.size + 1
  let groups ← descend c src dst fuel ⟨srcQueue, dstQueue, []⟩
  serveGroups src dst (← bySize src groups)

end Identical

end TreeDelta
