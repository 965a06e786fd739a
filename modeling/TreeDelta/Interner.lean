import TreeDelta.Kind

namespace TreeDelta

structure Interner where
  byName : List (String × Kind) := []
  byKind : List (Kind × String) := []
  next : UInt32 := 0

namespace Interner

def size (t : Interner) : Nat := t.byName.length

def find? (t : Interner) (name : String) : Option Kind := t.byName.lookup name

def name? (t : Interner) (kind : Kind) : Option String := t.byKind.lookup kind

/-- The kind of a name, which enters both maps if it is new. There is none for a new name whose
number would be that of the top kind; this name does not enter the maps, but its number is used
up. -/
def intern (t : Interner) (name : String) : Option Kind × Interner :=
  match t.find? name with
  | some kind => (some kind, t)
  | none =>
      let kind := Kind.ofIndex t.next
      let next := t.next + 1
      if kind = .top then
        (none, { t with next := next })
      else
        (some kind, ⟨(name, kind) :: t.byName, (kind, name) :: t.byKind, next⟩)

def internAll (t : Interner) : List String → List (Option Kind) × Interner
  | [] => ([], t)
  | name :: names =>
      let (kind, t) := t.intern name
      let (kinds, t) := t.internAll names
      (kind :: kinds, t)

end Interner

end TreeDelta
