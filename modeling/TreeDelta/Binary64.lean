namespace TreeDelta

/-- A floating-point value by its bits: zeros have a sign, NaNs a sign and a payload. -/
structure Binary64 where
  bits : UInt64
deriving DecidableEq, Repr

namespace Binary64

def ofFloat (x : Float) : Binary64 := ⟨x.toBits⟩

/-- The place of a value among all: negative ones by falling magnitude, then positive ones by
rising magnitude, NaNs at the two ends. -/
def place (x : Binary64) : Int :=
  let bits := x.bits.toNat
  if bits < 0x8000000000000000 then bits else -1 - ((bits : Int) - 0x8000000000000000)

def order (x y : Binary64) : Ordering := compare x.place y.place

end Binary64

end TreeDelta
