namespace TreeDelta

structure Grid (κ : Type) where
  cols : Nat
  cells : Array κ

namespace Grid

variable {κ : Type}

def filled (rows cols : Nat) (value : κ) : Grid κ := ⟨cols, Array.replicate (rows * cols) value⟩

def get (g : Grid κ) (fallback : κ) (i j : Nat) : κ := g.cells.getD (i * g.cols + j) fallback

def set (g : Grid κ) (i j : Nat) (value : κ) : Grid κ :=
  ⟨g.cols, g.cells.setIfInBounds (i * g.cols + j) value⟩

theorem index_eq_iff {cols i j k l : Nat} (hj : j < cols) (hl : l < cols) :
    i * cols + j = k * cols + l ↔ i = k ∧ j = l := by
  constructor
  · intro h
    have hik : i = k := by
      have h' := congrArg (· / cols) h
      simpa [Nat.mul_comm _ cols, Nat.mul_add_div (Nat.zero_lt_of_lt hj), Nat.div_eq_of_lt, hj, hl]
        using h'
    subst hik
    exact ⟨rfl, by omega⟩
  · rintro ⟨rfl, rfl⟩; rfl

theorem get_set (g : Grid κ) (fallback value : κ) {i j k l : Nat} (hj : j < g.cols)
    (hl : l < g.cols) (hk : k * g.cols + l < g.cells.size) :
    (g.set i j value).get fallback k l = if i = k ∧ j = l then value else g.get fallback k l := by
  simp [get, set, Array.getD, hk, Array.getElem_setIfInBounds, index_eq_iff hj hl]

end Grid

end TreeDelta
