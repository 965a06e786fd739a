import Std.Data.HashMap
import TreeDelta.Script.Action
import TreeDelta.Tree

namespace TreeDelta

/-- `index` is the number of the failing action, counted from 0. -/
inductive ReplayError where
  | missingNode (index : Nat) (node : NodeId)
  /-- A destination node whose subtree is to be copied does not exist. -/
  | missingSubtree (index : Nat) (node : NodeId)
  /-- A position behind the last of the `len` children. -/
  | slotOutOfRange (index : Nat) (parent : NodeId) (position len : Nat)
  | hasChildren (index : Nat) (node : NodeId)
  | ownSubtree (index : Nat) (node : NodeId)
  /-- The top node must end up with one child. -/
  | rootCount (count : Nat)
deriving DecidableEq, Repr

def ReplayError.message : ReplayError → String
  | .missingNode index node => s!"action {index}: unknown node {node}"
  | .missingSubtree index node => s!"action {index}: unknown destination node {node}"
  | .slotOutOfRange index parent position len =>
      s!"action {index}: position {position} out of bounds under node {parent} ({len} children)"
  | .hasChildren index node => s!"action {index}: node {node} still has children"
  | .ownSubtree index node =>
      s!"action {index}: node {node} cannot move into its own subtree"
  | .rootCount count => s!"replay left {count} roots under the fake root"

namespace Forest

def allocChildren (f : Forest) (parent : NodeId) : List (Rose NodeInfo) → List NodeId × Forest
  | [] => ([], f)
  | c :: cs =>
      let (id, f) := f.alloc c.value
      let f := f.place parent id (f.childrenOf parent).length
      let (ids, f) := f.allocChildren parent cs
      (id :: ids, f)

mutual
def copyBelow (parent : NodeId) : Rose NodeInfo → Forest → Forest
  | .node _ cs, f =>
      let (ids, f) := f.allocChildren parent cs
      copyEach ids cs f
/-- The children get their numbers together, and then the last one is copied first. -/
def copyEach : List NodeId → List (Rose NodeInfo) → Forest → Forest
  | id :: ids, c :: cs, f => copyBelow id c (copyEach ids cs f)
  | _, _, f => f
end

def copyTree (f : Forest) (t : Rose NodeInfo) : NodeId × Forest :=
  let (id, f) := f.alloc t.value
  (id, copyBelow id t f)

def infoOf (f : Forest) (id : NodeId) : NodeInfo :=
  match f.get? id with
  | some n => n.info
  | none => ⟨⟨.top, none⟩, 0, 0, {}⟩

end Forest

structure Replay where
  work : Forest
  /-- The nodes of the working copy that the script knows under other numbers. -/
  aliases : Std.HashMap NodeId NodeId

namespace Replay

/-- The node of the working copy that the script calls `id`. -/
def nodeOf (r : Replay) (index : Nat) (id : NodeId) : Except ReplayError NodeId :=
  let id := r.aliases.getD id id
  if r.work.has id then .ok id else .error (.missingNode index id)

def requireSlot (r : Replay) (index : Nat) (parent : NodeId) (position : Nat) :
    Except ReplayError Unit :=
  let len := (r.work.childrenOf parent).length
  if position ≤ len then .ok () else .error (.slotOutOfRange index parent position len)

def link (r : Replay) (work : Forest) (node id parent : NodeId) (position : Nat) : Replay :=
  ⟨work.place parent id position, r.aliases.insert node id⟩

def apply (dst : Tree) (r : Replay) (index : Nat) : Action → Except ReplayError Replay
  | .insert node _ parent position kind label => do
      let parent ← r.nodeOf index parent
      r.requireSlot index parent position
      let (id, work) := r.work.alloc ⟨⟨kind, label⟩, 0, 0, {}⟩
      return r.link work node id parent position
  | .insertTree node x parent position => do
      let parent ← r.nodeOf index parent
      r.requireSlot index parent position
      if !dst.forest.has x then throw (.missingSubtree index x)
      let (id, work) := r.work.copyTree ((dst.forest.subtree x).map dst.forest.infoOf)
      return r.link work node id parent position
  | .delete node => do
      let node ← r.nodeOf index node
      if !(r.work.childrenOf node).isEmpty then throw (.hasChildren index node)
      return { r with work := r.work.detach node }
  | .deleteTree node => do
      let node ← r.nodeOf index node
      return { r with work := r.work.detach node }
  | .update node _ _ new retype => do
      let node ← r.nodeOf index node
      return { r with work := r.work.modify node fun n =>
        { n with info := { n.info with label := new, kind := retype.getD n.info.kind } } }
  | .move node _ parent position => do
      let node ← r.nodeOf index node
      let parent ← r.nodeOf index parent
      if (parent :: r.work.ancestors parent).contains node then
        throw (.ownSubtree index node)
      let r := { r with work := r.work.detach node }
      r.requireSlot index parent position
      return { r with work := r.work.place parent node position }

def applyAll (dst : Tree) (r : Replay) (index : Nat) : List Action → Except ReplayError Replay
  | [] => .ok r
  | a :: rest => do (← r.apply dst index a).applyAll dst (index + 1) rest

theorem applyAll_append (dst : Tree) (r : Replay) (index : Nat) (as bs : List Action) :
    r.applyAll dst index (as ++ bs) =
      (r.applyAll dst index as).bind fun s => s.applyAll dst (index + as.length) bs := by
  induction as generalizing r index with
  | nil => rfl
  | cons a as ih =>
      simp only [List.cons_append, applyAll]
      cases r.apply dst index a with
      | error e => rfl
      | ok s =>
          change s.applyAll dst (index + 1) (as ++ bs) = _
          rw [ih, List.length_cons, Nat.add_assoc, Nat.add_comm 1]
          rfl

def result [TokenHash] (top : NodeId) (r : Replay) : Except ReplayError Tree :=
  match r.work.childrenOf top with
  | [root] => .ok (Tree.measured ⟨r.work.detach root, root, none⟩)
  | roots => .error (.rootCount roots.length)

end Replay

/-- The tree that a script makes of `src`. The destination tree is only read for the subtrees that
are inserted as a whole. -/
def Script.replay [TokenHash] (s : Script) (src dst : Tree) : Except ReplayError Tree := do
  let (top, work) := src.forest.underTop src.root
  let r : Replay := ⟨work, (∅ : Std.HashMap NodeId NodeId).insert s.top top⟩
  (← r.applyAll dst 0 s.actions).result top

end TreeDelta
