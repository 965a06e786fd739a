import Std.Data.HashMap

namespace TreeDelta.Trigram

structure Gram where
  first : Char
  second : Char
  third : Char
deriving DecidableEq, Repr

instance : Hashable Gram where
  hash g := mixHash g.first.val.toUInt64 (mixHash g.second.val.toUInt64 g.third.val.toUInt64)

def windows : List Char → List Gram
  | a :: b :: c :: rest => ⟨a, b, c⟩ :: windows (b :: c :: rest)
  | _ => []

/-- The trigrams of a label with two marks put before and behind it. -/
def grams (label : String) : List Gram :=
  windows ('#' :: '#' :: (label.toList ++ ['#', '#']))

abbrev Profile := Std.HashMap Gram Nat

namespace Profile

def tally (p : Profile) (g : Gram) : Profile := p.insert g (p.getD g 0 + 1)

def weight (p : Profile) : Nat := p.fold (fun sum _ n => sum + n) 0

/-- The differences are added up in a pass over the first profile, and a pass over the second one
adds what is missing from the first. -/
def distance (p q : Profile) : Nat :=
  let first := p.fold (fun sum g (n : Nat) => sum + ((n : Int) - q.getD g 0).natAbs) 0
  q.fold (fun sum g n => if p.contains g then sum else sum + n) first

end Profile

def profile (label : String) : Profile := (grams label).foldl Profile.tally ∅

def distance (a b : String) : Nat := (profile a).distance (profile b)

def total (a b : String) : Nat := (profile a).weight + (profile b).weight

def similarity (a b : String) : Float :=
  1.0 - Float.ofNat (distance a b) / Float.ofNat (total a b)

end TreeDelta.Trigram
