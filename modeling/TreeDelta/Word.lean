import TreeDelta.Fault

namespace TreeDelta

def wordLimit : Nat := 0x10000000000000000

def addWord (a b : Nat) : Except Fault Nat :=
  if a + b < wordLimit then .ok (a + b) else .error .overflow

def subWord (a b : Nat) : Except Fault Nat :=
  if b ≤ a then .ok (a - b) else .error .overflow

def absDiff (a b : Nat) : Nat := (a - b) + (b - a)

theorem subWord_eq_ok_iff {a b c : Nat} : subWord a b = .ok c ↔ a = b + c := by
  unfold subWord
  split <;> simp <;> omega

end TreeDelta
