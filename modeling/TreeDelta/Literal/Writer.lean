import TreeDelta.Tree

namespace TreeDelta

namespace Literal

def escapeChar : Char → List Char
  | '"' => ['\\', '"']
  | '\\' => ['\\', '\\']
  | '\n' => ['\\', 'n']
  | '\t' => ['\\', 't']
  | c => [c]

def writeLabel (label : String) : List Char :=
  '"' :: (label.toList.flatMap escapeChar ++ ['"'])

def writeContent (name : Kind → String) (c : Content) : List Char :=
  match c.label with
  | none => (name c.kind).toList
  | some label => (name c.kind).toList ++ ' ' :: writeLabel label

mutual
def writeOnto (name : Kind → String) : Rose Content → List Char → List Char
  | .node c cs, rest => '(' :: (writeContent name c ++ writeAllOnto name cs (')' :: rest))
def writeAllOnto (name : Kind → String) : List (Rose Content) → List Char → List Char
  | [], rest => rest
  | t :: ts, rest => ' ' :: writeOnto name t (writeAllOnto name ts rest)
end

mutual
theorem writeOnto_eq (name : Kind → String) : ∀ (t : Rose Content) (rest : List Char),
    writeOnto name t rest = writeOnto name t [] ++ rest
  | .node c cs, rest => by
      rw [writeOnto, writeOnto, writeAllOnto_eq name cs (')' :: rest),
        writeAllOnto_eq name cs [')']]
      simp
theorem writeAllOnto_eq (name : Kind → String) : ∀ (ts : List (Rose Content)) (rest : List Char),
    writeAllOnto name ts rest = writeAllOnto name ts [] ++ rest
  | [], _ => rfl
  | t :: ts, rest => by
      rw [writeAllOnto, writeAllOnto, writeOnto_eq name t, writeAllOnto_eq name ts rest,
        writeOnto_eq name t (writeAllOnto name ts [])]
      simp
end

def write (kinds : KindTable) (t : Rose Content) : String :=
  String.ofList (writeOnto kinds.describe t [])

end Literal

def Tree.display (t : Tree) (kinds : KindTable) (id : NodeId) : Except Fault String := do
  let _ ← t.forest.node id
  return Literal.write kinds (t.forest.contentTree id)

def Tree.text (t : Tree) (kinds : KindTable) : String :=
  Literal.write kinds (t.forest.contentTree t.root)

end TreeDelta
