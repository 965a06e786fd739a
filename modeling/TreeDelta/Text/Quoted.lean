import TreeDelta.Text.Blank

namespace TreeDelta.Text

/-- Characters that are written by their code point: controls, spaces other than the plain one,
format characters, variation selectors, the blocks of combining diacritical marks, and the private
use areas. The table is not complete: marks of single scripts, such as U+0483, and code points that
are not assigned would belong in it, but are written as they are. -/
def hiddenRanges : List (Nat × Nat) :=
  [(0x00, 0x1F), (0x7F, 0xA0), (0xAD, 0xAD), (0x0300, 0x036F), (0x0600, 0x0605), (0x061C, 0x061C),
   (0x06DD, 0x06DD), (0x070F, 0x070F), (0x0890, 0x0891), (0x08E2, 0x08E2), (0x1680, 0x1680),
   (0x180B, 0x180F), (0x1AB0, 0x1ACE), (0x1DC0, 0x1DFF), (0x2000, 0x200F), (0x2028, 0x202F),
   (0x205F, 0x206F), (0x20D0, 0x20F0), (0x3000, 0x3000), (0xE000, 0xF8FF), (0xFE00, 0xFE0F),
   (0xFE20, 0xFE2F), (0xFEFF, 0xFEFF), (0xFFF0, 0xFFFB), (0xFFFE, 0xFFFF), (0xE0000, 0xE0FFF),
   (0xF0000, 0x10FFFF)]

def codePoint (c : Char) : String :=
  "\\u\x7b" ++ String.ofList (Nat.toDigits 16 c.toNat) ++ "\x7d"

def escape (quote c : Char) : String :=
  match c with
  | '\\' => "\\\\"
  | '\n' => "\\n"
  | '\r' => "\\r"
  | '\t' => "\\t"
  | '\x00' => "\\0"
  | c =>
      if c == quote then "\\" ++ c.toString
      else if inRanges hiddenRanges c then codePoint c
      else c.toString

def quotedChar (c : Char) : String := "'" ++ escape '\'' c ++ "'"

def quoted (s : String) : String :=
  "\"" ++ s.toList.foldl (fun acc c => acc ++ escape '"' c) "" ++ "\""

def quotedOption : Option String → String
  | some s => "Some(" ++ quoted s ++ ")"
  | none => "None"

end TreeDelta.Text
