import TreeDelta.Literal.Error
import TreeDelta.Tree

namespace TreeDelta.Literal

/-- An open node: what is known of it, and its finished children, last one first. -/
structure Frame where
  kind : Kind
  label : Option String := none
  pos : Nat
  finished : List (Rose NodeInfo) := []

def Frame.close (f : Frame) (stop : Nat) : Rose NodeInfo :=
  .node ⟨⟨f.kind, f.label⟩, f.pos, stop - f.pos, {}⟩ f.finished.reverse

/-- What has just been read. Characters of a name or label are kept last one first. -/
inductive Mode where
  /-- Nothing, a label, or a whole child. -/
  | between
  /-- The opening parenthesis at `pos`. -/
  | opened (pos : Nat)
  /-- A part of the name of the node that starts at `pos`. -/
  | name (pos : Nat) (letters : List Char)
  /-- The name, and a blank after it. -/
  | named
  /-- A part of the label whose opening quote is at `start`. -/
  | label (start : Nat) (letters : List Char)
  /-- As `label`, and then a backslash at `slash`. -/
  | escape (start slash : Nat) (letters : List Char)
  /-- The whole tree. -/
  | closed (tree : Rose NodeInfo)

structure Reader where
  kinds : KindTable
  offset : Nat := 0
  mode : Mode := .between
  /-- The open nodes, innermost first. -/
  frames : List Frame := []

def isNameChar (c : Char) : Bool := !Text.isBlank c && c != '(' && c != ')' && c != '"'

def unescape? : Char → Option Char
  | '"' => some '"'
  | '\\' => some '\\'
  | 'n' => some '\n'
  | 't' => some '\t'
  | _ => none

namespace Reader

def pushFrame (r : Reader) (pos : Nat) (letters : List Char) : Reader :=
  let (kind, kinds) := r.kinds.intern (String.ofList letters.reverse)
  { r with kinds := kinds, mode := .named, frames := ⟨kind, none, pos, []⟩ :: r.frames }

def setLabel (r : Reader) (letters : List Char) : Reader :=
  match r.frames with
  | [] => { r with mode := .between }
  | f :: fs =>
      { r with
        mode := .between
        frames := { f with label := some (String.ofList letters.reverse) } :: fs }

def closeFrame (r : Reader) : Except ReadError Reader :=
  match r.frames with
  | [] => .error (.unexpectedChar r.offset ')')
  | [f] => .ok { r with mode := .closed (f.close (r.offset + 1)), frames := [] }
  | f :: g :: fs =>
      .ok { r with
        mode := .between
        frames := { g with finished := f.close (r.offset + 1) :: g.finished } :: fs }

def structural (r : Reader) (c : Char) : Except ReadError Reader :=
  if Text.isBlank c then .ok r
  else if c == '(' then .ok { r with mode := .opened r.offset }
  else if c == ')' then r.closeFrame
  else .error (.unexpectedChar r.offset c)

def afterName (r : Reader) (c : Char) : Except ReadError Reader :=
  if c == '"' then .ok { r with mode := .label r.offset [] } else r.structural c

/-- What the character at the current offset does. -/
def react (r : Reader) (c : Char) : Except ReadError Reader :=
  match r.mode with
  | .between => r.structural c
  | .opened pos =>
      if Text.isBlank c then .ok r
      else if isNameChar c then .ok { r with mode := .name pos [c] }
      else .error (.missingKind r.offset)
  | .name pos letters =>
      if isNameChar c then .ok { r with mode := .name pos (c :: letters) }
      else (r.pushFrame pos letters).afterName c
  | .named => r.afterName c
  | .label start letters =>
      if c == '"' then .ok (r.setLabel letters)
      else if c == '\\' then .ok { r with mode := .escape start r.offset letters }
      else .ok { r with mode := .label start (c :: letters) }
  | .escape start slash letters =>
      match unescape? c with
      | some d => .ok { r with mode := .label start (d :: letters) }
      | none => .error (.invalidEscape slash c)
  | .closed _ => if Text.isBlank c then .ok r else .error (.trailingInput r.offset)

def step (r : Reader) (c : Char) : Except ReadError Reader := do
  let next ← r.react c
  return { next with offset := r.offset + c.utf8Size }

/-- Reads on until the text ends or a character is refused, and returns the state before that. -/
def feed (r : Reader) : List Char → Reader × Option ReadError
  | [] => (r, none)
  | c :: cs =>
      match r.step c with
      | .ok next => next.feed cs
      | .error e => (r, some e)

theorem feed_append (r : Reader) (as bs : List Char) :
    r.feed (as ++ bs) =
      match r.feed as with
      | (s, none) => s.feed bs
      | (s, some e) => (s, some e) := by
  induction as generalizing r with
  | nil => rfl
  | cons c cs ih =>
      simp only [List.cons_append, feed]
      split
      · exact ih _
      · rfl

def finish (r : Reader) : KindTable × Except ReadError (Rose NodeInfo) :=
  match r.mode with
  | .between =>
      (r.kinds, .error (if r.frames.isEmpty then .empty else .unexpectedEnd r.offset))
  | .opened _ => (r.kinds, .error (.missingKind r.offset))
  | .name pos letters => ((r.pushFrame pos letters).kinds, .error (.unexpectedEnd r.offset))
  | .named => (r.kinds, .error (.unexpectedEnd r.offset))
  | .label start _ => (r.kinds, .error (.unterminatedLabel start))
  | .escape start _ _ => (r.kinds, .error (.unterminatedLabel start))
  | .closed tree => (r.kinds, .ok tree)

end Reader

/-- Reads a text as a tree of what its nodes carry. The table holds the kinds named up to the end
of the text or the first error. -/
def readRose (kinds : KindTable) (text : List Char) :
    KindTable × Except ReadError (Rose NodeInfo) :=
  match Reader.feed { kinds := kinds } text with
  | (r, none) => r.finish
  | (r, some e) => (r.kinds, .error e)

def read [TokenHash] (kinds : KindTable) (text : String) : KindTable × Except ReadError Tree :=
  let (kinds, result) := readRose kinds text.toList
  (kinds, result.map Tree.ofRose)

end TreeDelta.Literal
