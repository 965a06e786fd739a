import Std.Data.HashSet
import TreeDelta.CommonSubsequence
import TreeDelta.EditDistance.Backtrace
import TreeDelta.Matching.Config

namespace TreeDelta.Containers

variable (c : Config) (src dst : Tree)

def newAncestors (visited : Std.HashSet NodeId) (image : NodeId) :
    Except Fault (List NodeId) := do
  let _ ← dst.forest.node image
  return dst.forest.ancestorsWhile (fun x => !visited.contains x) image

def isCandidate (p : Pairing) (kind : Kind) (x : NodeId) : Except Fault Bool := do
  return (← dst.kind x) == kind && !p.dstPaired x && !(← dst.isRoot x)

def gatherCandidates (p : Pairing) (kind : Kind) :
    Std.HashSet NodeId → List NodeId → Except Fault (List NodeId)
  | _, [] => .ok []
  | visited, d :: ds =>
      match p.image? d with
      | none => gatherCandidates p kind visited ds
      | some image => do
          let new ← newAncestors dst visited image
          let here ← new.filterM (isCandidate dst p kind)
          return here ++ (← gatherCandidates p kind (visited.insertMany new) ds)

/-- The free destination nodes of the kind of `t`, other than a root, that have the partner of a
descendant of `t` below them; each one once, in the order in which they are first met. -/
def candidates (p : Pairing) (t : NodeId) : Except Fault (List NodeId) := do
  let kind ← src.kind t
  gatherCandidates dst p kind {} (← src.descendants t)

def threshold (t x : NodeId) : Except Fault Float :=
  match c.threshold, c.recovery with
  | some fixed, _ => return fixed
  | none, .greedy => return 0.5
  | none, _ => do
      let size ← addWord (← src.measure t).size (← dst.measure x).size
      return 1.0 / (1.0 + (Float.ofNat size).log)

/-- The best of the candidates so far, with its score. -/
def better (p : Pairing) (t : NodeId) : Float × Option NodeId → List NodeId →
    Except Fault (Option NodeId)
  | (_, best), [] => return best
  | (most, best), x :: xs => do
      let least ← threshold c src dst t x
      let score ← c.measureOf.score src dst p t x
      if score > most && score ≥ least then better p t (score, some x) xs
      else better p t (most, best) xs

/-- The first of the candidates with the highest score, if that reaches its threshold. -/
def best (p : Pairing) (t : NodeId) : Except Fault (Option NodeId) := do
  better c src dst p t (-1.0, none) (← candidates src dst p t)

def addAllowed : List (NodeId × NodeId) → Pairer Unit
  | [] => return
  | (a, b) :: rest => do
      if ← (← get).allows src dst a b then Pairer.add a b
      addAllowed rest

def recoverExactly (a b : NodeId) : Pairer Unit := do
  addAllowed src dst (← cheapestPairs Float src dst a b)

def freeSrcChildren (p : Pairing) (a : NodeId) : Except Fault (List NodeId) :=
  return (← src.children a).filter fun x => !p.srcPaired x

def freeDstChildren (p : Pairing) (b : NodeId) : Except Fault (List NodeId) :=
  return (← dst.children b).filter fun x => !p.dstPaired x

def relationRows (rel : NodeId → NodeId → Except Fault Bool) (xs ys : List NodeId) :
    Except Fault (List (NodeId × Array Bool)) :=
  xs.mapM fun x => return (x, (← ys.mapM (rel x)).toArray)

def pairFreeSubtrees : List (NodeId × NodeId) → Pairer Unit
  | [] => return
  | (a, b) :: rest => do
      if ← (← get).subtreesFree src dst a b then Pairer.addSubtrees src dst a b
      pairFreeSubtrees rest

/-- Pairs free children of `a` and `b` whose subtrees are related, as many as possible in order. -/
def pairAligned (rel : NodeId → NodeId → Except Fault Bool) (a b : NodeId) : Pairer Unit := do
  let xs ← freeSrcChildren src (← get) a
  let ys ← freeDstChildren dst (← get) b
  let rows ← relationRows rel xs ys
  let common := commonSubsequence (fun x y => x.2.getD y.2 false) rows ys.zipIdx
  pairFreeSubtrees src dst (common.map fun (x, y) => (x.1, y.1))

def byKind (t : Tree) : List NodeId → Except Fault (List (Kind × List NodeId))
  | [] => .ok []
  | x :: xs => do
      let kind ← t.kind x
      let rest ← byKind t xs
      let same := (rest.lookup kind).getD []
      return (kind, x :: same) :: rest.filter (·.1 != kind)

def onlyOnes (xs ys : List (Kind × List NodeId)) : List (NodeId × NodeId) :=
  xs.filterMap fun (kind, as) =>
    match as, ys.lookup kind with
    | [a], some [b] => some (a, b)
    | _, _ => none

/-- Pairs what is allowed and returns the pairs added, last one first. -/
def pairOnlyOnes : List (NodeId × NodeId) → List (NodeId × NodeId) →
    Pairer (List (NodeId × NodeId))
  | added, [] => return added
  | added, (a, b) :: rest => do
      if ← (← get).allows src dst a b then
        Pairer.add a b
        pairOnlyOnes ((a, b) :: added) rest
      else pairOnlyOnes added rest

/-- Pairs children of `a` and `b`: equal subtrees, then subtrees of equal shape, then children
that are the only free ones of their kind. The last are returned, last one first. -/
def recoverChildren (a b : NodeId) : Pairer (List (NodeId × NodeId)) := do
  pairAligned src dst (fun x y => src.isomorphic x dst y) a b
  pairAligned src dst (fun x y => src.sameShape x dst y) a b
  let xs ← byKind src (← freeSrcChildren src (← get) a)
  let ys ← byKind dst (← freeDstChildren dst (← get) b)
  pairOnlyOnes src dst [] (onlyOnes xs ys)

def isSmall (a b : NodeId) : Except Fault Bool := do
  if (← src.measure a).size < c.sizeLimit then return true
  return decide ((← dst.measure b).size < c.sizeLimit)

def recoverPair (a b : NodeId) : Pairer (List (NodeId × NodeId)) :=
  match c.recovery with
  | .greedy => do
      if ← isSmall c src dst a b then recoverExactly src dst a b
      return []
  | .simple => recoverChildren src dst a b
  | .hybrid => do
      if ← isSmall c src dst a b then
        recoverExactly src dst a b
        return []
      else recoverChildren src dst a b

/-- Goes through a stack of containers. Each new one was paired on the way, so there are never
more than source nodes. -/
def recoverAll : Nat → List (NodeId × NodeId) → Pairer Unit
  | fuel + 1, (a, b) :: rest => do
      let new ← recoverPair c src dst a b
      recoverAll fuel (new ++ rest)
  | _, _ => return

def recover (a b : NodeId) : Pairer Unit :=
  recoverAll c src dst (src.forest.size + 1) [(a, b)]

/-- The roots are partners of each other, whatever they were paired with. -/
def pairRoots (root : NodeId) : Pairer Unit := do
  if (← get).joins root dst.root then return
  if let some image := (← get).image? root then
    modify fun p => (p.remove root image).2
  if let some origin := (← get).origin? dst.root then
    modify fun p => (p.remove origin dst.root).2
  Pairer.add root dst.root

def visit (t : NodeId) : Pairer Unit := do
  match (← get).image? t with
  | none =>
      if ← src.isLeaf t then return
      match ← best c src dst (← get) t with
      | none => return
      | some x =>
          Pairer.add t x
          recover c src dst t x
  | some image =>
      if ← (← get).hasFreeSrcChild src t then
        if ← (← get).hasFreeDstChild dst image then recover c src dst t image

def visitAll : List NodeId → Pairer Unit
  | [] => return
  | t :: ts => do
      if ← src.isRoot t then
        pairRoots dst t
        recover c src dst t dst.root
      else
        visit c src dst t
        visitAll ts

def run : Pairer Unit := visitAll c src dst src.postorder

end TreeDelta.Containers
