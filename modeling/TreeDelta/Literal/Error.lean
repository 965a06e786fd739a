import TreeDelta.Text.Quoted

namespace TreeDelta.Literal

inductive ReadError where
  | empty
  | unexpectedEnd (offset : Nat)
  /-- A character that can start neither a child nor the end of a node. -/
  | unexpectedChar (offset : Nat) (found : Char)
  /-- A label without its closing quote; the offset is that of the opening one. -/
  | unterminatedLabel (offset : Nat)
  /-- A node that does not start with the name of its kind. -/
  | missingKind (offset : Nat)
  /-- A backslash before a character that has no escape; the offset is that of the backslash. -/
  | invalidEscape (offset : Nat) (found : Char)
  /-- Something follows the tree. -/
  | trailingInput (offset : Nat)
deriving DecidableEq, Repr

def ReadError.message : ReadError → String
  | .empty => "empty input"
  | .unexpectedEnd offset => s!"unexpected end of input at byte {offset}"
  | .unexpectedChar offset found =>
      "unexpected character " ++ Text.quotedChar found ++ s!" at byte {offset}"
  | .unterminatedLabel offset => s!"unterminated string starting at byte {offset}"
  | .missingKind offset => s!"missing node type at byte {offset}"
  | .invalidEscape offset found =>
      "invalid escape " ++ Text.quotedChar found ++ s!" at byte {offset}"
  | .trailingInput offset => s!"trailing input at byte {offset}"

end TreeDelta.Literal
