import TreeDelta.Tree
import TreeDelta.Word

namespace TreeDelta

/-- The partners of one side's nodes, in the slots of the nodes. A node past the last slot has no
partner. -/
structure Register (ι : Type := NodeId) where
  slots : Array (Option ι) := #[]

variable {ι : Type} [Slotted ι]

open Slotted (slot)

namespace Register

def blank (n : Nat) : Register ι := ⟨.replicate n none⟩

def get? (r : Register ι) (id : ι) : Option ι := r.slots[slot id]?.join

/-- Slots are added up to the node's own if it has none yet. -/
def enter (r : Register ι) (id partner : ι) : Register ι :=
  ⟨(r.slots ++ Array.replicate (slot id + 1 - r.slots.size) none).setIfInBounds (slot id)
    (some partner)⟩

def clear (r : Register ι) (id : ι) : Register ι := ⟨r.slots.setIfInBounds (slot id) none⟩

@[simp] theorem get?_mk_empty (id : ι) : (⟨#[]⟩ : Register ι).get? id = none := by simp [get?]

@[simp] theorem get?_blank (n : Nat) (id : ι) : (blank n).get? id = none := by
  rw [get?, blank, Array.getElem?_replicate]
  split <;> rfl

theorem lt_size_of_get? {r : Register ι} {id partner : ι} (h : r.get? id = some partner) :
    slot id < r.slots.size := by
  obtain ⟨hlt, _⟩ := Array.getElem?_eq_some_iff.1 (Option.join_eq_some_iff.1 h)
  exact hlt

theorem get?_enter (r : Register ι) (id partner j : ι) :
    (r.enter id partner).get? j = if slot id = slot j then some partner else r.get? j := by
  simp only [get?, enter, Array.getElem?_setIfInBounds, Array.size_append, Array.size_replicate]
  split
  · rw [if_pos (by omega), Option.join_some]
  · rw [Array.getElem?_append, Array.getElem?_replicate]
    -- past the old slots there are only blank ones
    split
    · rfl
    · rw [Array.getElem?_eq_none (by omega)]
      split <;> rfl

theorem get?_clear (r : Register ι) (id j : ι) :
    (r.clear id).get? j = if slot id = slot j then none else r.get? j := by
  simp only [get?, clear, Array.getElem?_setIfInBounds]
  split
  · split <;> rfl
  · rfl

end Register

/-- A partial one-to-one pairing of source nodes with destination nodes. -/
structure Pairing (ι : Type := NodeId) where
  images : Register ι := {}
  origins : Register ι := {}
  links : Array (ι × ι) := #[]

namespace Pairing

def empty : Pairing ι := {}

/-- An empty pairing with slots for the nodes of forests of these sizes; node numbers start at 1. -/
def withCapacity (src dst : Nat) : Pairing ι :=
  { images := .blank (src + 1)
    origins := .blank (dst + 1) }

/-- No forest is so large that the numbers of slots leave the range of words, but a caller may ask
for any. -/
def reserve (src dst : Nat) : Except Fault (Pairing ι) := do
  let _ ← addWord src 1
  let _ ← addWord dst 1
  return withCapacity src dst

def pairs (p : Pairing ι) : List (ι × ι) := p.links.toList

def size (p : Pairing ι) : Nat := p.links.size

def isEmpty (p : Pairing ι) : Bool := p.links.isEmpty

def image? (p : Pairing ι) (src : ι) : Option ι := p.images.get? src

def origin? (p : Pairing ι) (dst : ι) : Option ι := p.origins.get? dst

def srcPaired (p : Pairing ι) (src : ι) : Bool := (p.image? src).isSome

def dstPaired (p : Pairing ι) (dst : ι) : Bool := (p.origin? dst).isSome

def joins [DecidableEq ι] (p : Pairing ι) (src dst : ι) : Bool := p.image? src == some dst

def bothFree (p : Pairing ι) (src dst : ι) : Bool := !p.srcPaired src && !p.dstPaired dst

def add (p : Pairing ι) (src dst : ι) : Except Fault (Pairing ι) :=
  if p.bothFree src dst then
    .ok ⟨p.images.enter src dst, p.origins.enter dst src, p.links.push (src, dst)⟩
  else .error .bijection

def remove [DecidableEq ι] (p : Pairing ι) (src dst : ι) : Bool × Pairing ι :=
  if p.joins src dst then
    (true, ⟨p.images.clear src, p.origins.clear dst, p.links.filter (· != (src, dst))⟩)
  else (false, p)

def addAll (p : Pairing ι) : List (ι × ι) → Except Fault (Pairing ι)
  | [] => .ok p
  | (a, b) :: rest => do (← p.add a b).addAll rest

def allows (p : Pairing) (src dst : Tree) (a b : NodeId) : Except Fault Bool := do
  let ka ← src.kind a
  let kb ← dst.kind b
  return ka == kb && p.bothFree a b

def hasFreeSrcChild (p : Pairing) (src : Tree) (a : NodeId) : Except Fault Bool :=
  return (← src.children a).any fun c => !p.srcPaired c

def hasFreeDstChild (p : Pairing) (dst : Tree) (b : NodeId) : Except Fault Bool :=
  return (← dst.children b).any fun c => !p.dstPaired c

/-- Neither the node nor anything below it has a partner. A paired node is not looked up. -/
def srcSubtreeFree (p : Pairing) (src : Tree) (a : NodeId) : Except Fault Bool :=
  if p.srcPaired a then return false
  else return (← src.descendants a).all fun d => !p.srcPaired d

def dstSubtreeFree (p : Pairing) (dst : Tree) (b : NodeId) : Except Fault Bool :=
  if p.dstPaired b then return false
  else return (← dst.descendants b).all fun d => !p.dstPaired d

def subtreesFree (p : Pairing) (src dst : Tree) (a b : NodeId) : Except Fault Bool := do
  if ← p.srcSubtreeFree src a then p.dstSubtreeFree dst b else return false

theorem pairs_of_add {p q : Pairing ι} {a b : ι} (h : p.add a b = .ok q) :
    q.pairs = p.pairs ++ [(a, b)] := by
  unfold add at h
  split at h
  · cases h; simp [pairs]
  · cases h

theorem slot_image?_of_add {p q : Pairing ι} {a b : ι} (h : p.add a b = .ok q) (x : ι) :
    q.image? x = if slot a = slot x then some b else p.image? x := by
  unfold add at h
  split at h
  · cases h; simp [image?, Register.get?_enter]
  · cases h

theorem slot_origin?_of_add {p q : Pairing ι} {a b : ι} (h : p.add a b = .ok q) (y : ι) :
    q.origin? y = if slot b = slot y then some a else p.origin? y := by
  unfold add at h
  split at h
  · cases h; simp [origin?, Register.get?_enter]
  · cases h

theorem image?_of_add {p q : Pairing} {a b : NodeId} (h : p.add a b = .ok q) (x : NodeId) :
    q.image? x = if a = x then some b else p.image? x := slot_image?_of_add h x

theorem origin?_of_add {p q : Pairing} {a b : NodeId} (h : p.add a b = .ok q) (y : NodeId) :
    q.origin? y = if b = y then some a else p.origin? y := slot_origin?_of_add h y

variable [DecidableEq ι]

theorem pairs_remove (p : Pairing ι) (a b : ι) :
    (p.remove a b).2.pairs = if p.joins a b then p.pairs.filter (· != (a, b)) else p.pairs := by
  unfold remove
  split <;> simp [pairs, *]

theorem image?_remove (p : Pairing ι) (a b x : ι) :
    (p.remove a b).2.image? x = if p.joins a b ∧ slot a = slot x then none else p.image? x := by
  unfold remove
  split <;> simp_all [image?, Register.get?_clear]

theorem origin?_remove (p : Pairing ι) (a b y : ι) :
    (p.remove a b).2.origin? y = if p.joins a b ∧ slot b = slot y then none else p.origin? y := by
  unfold remove
  split <;> simp_all [origin?, Register.get?_clear]

end Pairing

/-- A computation that adds to a pairing. What was added before a fault stays. -/
abbrev PairerOn (ι : Type) := ExceptT Fault (StateM (Pairing ι))

abbrev Pairer := PairerOn NodeId

namespace Pairer

def add (a b : ι) : PairerOn ι Unit := fun p =>
  match p.add a b with
  | .ok q => (.ok (), q)
  | .error fault => (.error fault, p)

theorem run_add (p : Pairing ι) (a b : ι) :
    (add a b).run p = match p.add a b with
      | .ok q => (.ok (), q)
      | .error fault => (.error fault, p) := rfl

mutual
/-- Pairs two trees of identifiers node by node in pre-order, as long as kinds and numbers of
children agree. -/
def addRose (srcKind dstKind : ι → Except Fault Kind) : Rose ι → Rose ι → PairerOn ι Unit
  | .node a as, .node b bs => do
      let ka ← srcKind a
      let kb ← dstKind b
      if ka != kb then throw .recursiveKinds
      add a b
      if as.length != bs.length then throw .recursiveShapes
      addRoses srcKind dstKind as bs
def addRoses (srcKind dstKind : ι → Except Fault Kind) :
    List (Rose ι) → List (Rose ι) → PairerOn ι Unit
  | a :: as, b :: bs => do
      addRose srcKind dstKind a b
      addRoses srcKind dstKind as bs
  | _, _ => pure ()
end

def addSubtrees (src dst : Tree) (a b : NodeId) : Pairer Unit := do
  addRose src.kind dst.kind (src.forest.subtree a) (dst.forest.subtree b)

end Pairer

end TreeDelta
