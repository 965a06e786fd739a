import TreeDelta.Kind
import TreeDelta.Word

namespace TreeDelta

/-- The number of a node in its forest: 1 for the first one created. A forest frees no slot, so that
a number stands for one node for good. -/
abbrev NodeId := Nat

/-- Nodes are looked up by the slot that an identifier names. -/
class Slotted (ι : Type) where
  slot : ι → Nat

instance : Slotted NodeId := ⟨fun id => id⟩

/-- An identifier where slots may be used again: the next node of a slot has another stamp. -/
structure StampedId where
  index : Nat
  stamp : Int16 := 0
deriving DecidableEq

instance : Slotted StampedId := ⟨StampedId.index⟩

structure Metadata where
  entries : List (String × String) := []
deriving DecidableEq

namespace Metadata

def get? (m : Metadata) (key : String) : Option String := m.entries.lookup key

def set (m : Metadata) (key value : String) : Metadata :=
  if m.entries.any (fun e => e.1 == key) then
    ⟨m.entries.map fun e => if e.1 == key then (key, value) else e⟩
  else
    ⟨m.entries ++ [(key, value)]⟩

def same (m n : Metadata) : Bool :=
  m.entries.length == n.entries.length && m.entries.all fun e => n.get? e.1 == some e.2

end Metadata

/-- The part of a node that decides whether two nodes look alike. An absent label is different
from an empty one. -/
structure Content where
  kind : Kind
  label : Option String := none
deriving DecidableEq

structure NodeInfo extends Content where
  pos : Nat := 0
  length : Nat := 0
  metadata : Metadata := {}
deriving DecidableEq

namespace NodeInfo

def stop (n : NodeInfo) : Except Fault Nat := addWord n.pos n.length

def same (m n : NodeInfo) : Bool :=
  m.toContent == n.toContent && m.pos == n.pos && m.length == n.length &&
    m.metadata.same n.metadata

end NodeInfo

end TreeDelta
