namespace TreeDelta

inductive Kind where
  | named (index : Nat)
  | top
deriving DecidableEq, Repr

namespace Kind

def text : Kind → String
  | .named index => s!"#{index}"
  | .top => "#fake"

def index : Kind → UInt32
  | .named index => .ofNat index
  | .top => 0xFFFFFFFF

def ofIndex (index : UInt32) : Kind :=
  if index = 0xFFFFFFFF then .top else .named index.toNat

def order : Kind → Kind → Ordering
  | .named i, .named j => compare i j
  | .named _, .top => .lt
  | .top, .named _ => .gt
  | .top, .top => .eq

end Kind

/-- The names met so far, in the order of their first use: name number `i` is kind `i`. -/
structure KindTable where
  names : Array String

namespace KindTable

def empty : KindTable := ⟨#[]⟩

def size (t : KindTable) : Nat := t.names.size

def find? (t : KindTable) (name : String) : Option Kind := (t.names.idxOf? name).map .named

def intern (t : KindTable) (name : String) : Kind × KindTable :=
  match t.find? name with
  | some kind => (kind, t)
  | none => (.named t.names.size, ⟨t.names.push name⟩)

def name? (t : KindTable) : Kind → Option String
  | .named i => t.names[i]?
  | .top => none

def describe (t : KindTable) (kind : Kind) : String := (t.name? kind).getD kind.text

theorem name?_of_find? {t : KindTable} {name : String} {kind : Kind}
    (h : t.find? name = some kind) : t.name? kind = some name := by
  obtain ⟨i, hi, rfl⟩ := Option.map_eq_some_iff.1 h
  obtain ⟨j, hj, rfl⟩ := Option.map_eq_some_iff.1 hi
  simpa [name?] using (Array.finIdxOf?_eq_some_iff.1 hj).1

end KindTable

end TreeDelta
