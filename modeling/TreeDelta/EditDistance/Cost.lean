import TreeDelta.Node
import TreeDelta.Trigram

namespace TreeDelta

class EditCost (κ : Type) where
  zero : κ
  unit : κ
  /-- More than any sum of finite costs. -/
  infinite : κ
  add : κ → κ → κ
  least : κ → κ → κ
  same : κ → κ → Bool
  /-- The price of changing a label into another one, whose bags of trigrams differ in `distance`
  out of `total` places. It is never zero. -/
  relabel (distance total : Nat) : κ

def floatStep : Float := Float.scaleB 1.0 (-52)

instance : EditCost Float where
  zero := 0.0
  unit := 1.0
  infinite := 1.0 / 0.0
  add := (· + ·)
  least a b := if b < a then b else a
  same := (· == ·)
  relabel distance total :=
    let price := 1.0 - (1.0 - Float.ofNat distance / Float.ofNat total)
    if price < floatStep then floatStep else price

def changeCost {κ : Type} [EditCost κ] (a b : Content) : κ :=
  if a.kind != b.kind then EditCost.infinite
  else
    match a.label, b.label with
    | none, none => EditCost.zero
    | some x, some y =>
        if x == y then EditCost.zero
        else EditCost.relabel (Trigram.distance x y) (Trigram.total x y)
    | _, _ => EditCost.unit

end TreeDelta
