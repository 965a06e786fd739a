import TreeDelta.EditDistance.Backtrace
import TreeDelta.Proofs.KeyRoots

namespace TreeDelta

namespace Checked

section Program

variable {κ : Type} [EditCost κ]

open EditCost

def pred : Nat → Option Nat
  | 0 => none
  | n + 1 => some n

def cell (g : Grid κ) (i j : Nat) : Option κ :=
  if j < g.cols then g.cells[i * g.cols + j]? else none

def store (g : Grid κ) (i j : Nat) (value : κ) : Option (Grid κ) :=
  if j < g.cols ∧ i * g.cols + j < g.cells.size then some (g.set i j value) else none

def leaf (n : Numbered) (i : Nat) : Option Nat := n.leftmost[i]?

def id (n : Numbered) (i : Nat) : Option NodeId := do n.ids[← pred i]?

def content (n : Numbered) (i : Nat) : Option Content := do n.contents[← pred i]?

def setForest (t : Tables κ) (i j : Nat) (value : κ) : Option (Tables κ) := do
  return { t with forest := ← store t.forest i j value }

def setBoth (t : Tables κ) (i j : Nat) (value : κ) : Option (Tables κ) := do
  return ⟨← store t.tree i j value, ← store t.forest i j value⟩

def fillRowEdge (li lj i : Nat) (t : Tables κ) : Option (Tables κ) :=
  (Tables.span li i).foldlM (fun t di => do
    setForest t di (← pred lj) (add (← cell t.forest (← pred di) (← pred lj)) unit)) t

def fillColumnEdge (li lj j : Nat) (t : Tables κ) : Option (Tables κ) :=
  (Tables.span lj j).foldlM (fun t dj => do
    setForest t (← pred li) dj (add (← cell t.forest (← pred li) (← pred dj)) unit)) t

def fillCell (p : TreePair) (li lj di dj : Nat) (t : Tables κ) : Option (Tables κ) := do
  let delete := add (← cell t.forest (← pred di) dj) unit
  let insert := add (← cell t.forest di (← pred dj)) unit
  let left ← leaf p.src di
  let right ← leaf p.dst dj
  if left == li && right == lj then
    let update := add (← cell t.forest (← pred di) (← pred dj))
      (changeCost (← content p.src di) (← content p.dst dj))
    setBoth t di dj (least (least delete insert) update)
  else
    let subtree := add (← cell t.forest (← pred left) (← pred right)) (← cell t.tree di dj)
    setForest t di dj (least (least delete insert) subtree)

def fillRow (p : TreePair) (li lj j di : Nat) (t : Tables κ) : Option (Tables κ) :=
  (Tables.span lj j).foldlM (fun t dj => fillCell p li lj di dj t) t

def fillForest (p : TreePair) (i j : Nat) (t : Tables κ) : Option (Tables κ) := do
  let li ← leaf p.src i
  let lj ← leaf p.dst j
  let t ← setForest t (← pred li) (← pred lj) zero
  let t ← fillRowEdge li lj i t
  let t ← fillColumnEdge li lj j t
  (Tables.span li i).foldlM (fun t di => fillRow p li lj j di t) t

def ofPair (p : TreePair) : Option (Tables κ) :=
  p.src.keyRoots.foldlM
    (fun t i => p.dst.keyRoots.foldlM (fun t j => fillForest p i j t) t) (Tables.blank p)

def explains (t : Tables κ) (step : Bool) (row col : Option Nat) (current : κ) : Option Bool :=
  if step then do return same (add (← cell t.forest (← row) (← col)) unit) current
  else return false

def walk (p : TreePair) (t : Tables κ) (i j : Nat) :
    Nat → Nat → Nat → Trail → Option Trail
  | fuel, row, col, trail => do
      let firstRow ← pred (← leaf p.src i)
      let firstCol ← pred (← leaf p.dst j)
      if row ≤ firstRow && col ≤ firstCol then return trail
      match fuel with
      | 0 => none
      | fuel + 1 =>
          let current ← cell t.forest row col
          if ← explains t (firstRow < row) (pred row) (some col) current then
            walk p t i j fuel (← pred row) col trail
          else if ← explains t (firstCol < col) (some row) (pred col) current then
            walk p t i j fuel row (← pred col) trail
          else
            let left ← leaf p.src row
            let right ← leaf p.dst col
            if left == (← leaf p.src i) && right == (← leaf p.dst j) then
              if (← content p.src row).kind != (← content p.dst col).kind then none
              else
                walk p t i j fuel (← pred row) (← pred col)
                  { trail with found := (← id p.src row, ← id p.dst col) :: trail.found }
            else
              walk p t i j fuel (← pred left) (← pred right)
                { trail with pending := (row, col) :: trail.pending }

def unwind (p : TreePair) : Nat → Tables κ → Trail → Option (List (NodeId × NodeId))
  | fuel, t, trail =>
      match trail.pending with
      | [] => some trail.found.reverse
      | (i, j) :: pending =>
          match fuel with
          | 0 => none
          | fuel + 1 => do
              let t ← fillForest p i j t
              unwind p fuel t (← walk p t i j (i + j) i j { trail with pending := pending })

def matched (κ : Type) [EditCost κ] (p : TreePair) : Option (List (NodeId × NodeId)) := do
  let t : Tables κ ← ofPair p
  let i := p.src.size
  let j := p.dst.size
  unwind p (i + j) t (← walk p t i j (i + j) i j {})

def cheapestPairs (κ : Type) [EditCost κ] (src dst : Tree) (a b : NodeId) :
    Option (List (NodeId × NodeId)) :=
  match TreePair.ofSubtrees src dst a b with
  | .ok p => matched κ p
  | .error _ => none

end Program

variable {κ : Type} {g : Grid κ} {rows cols i j : Nat} {n : Numbered} {p : TreePair}
  {t : Tables κ}

theorem pred_of_pos (hi : 0 < i) : pred i = some (i - 1) := by
  obtain ⟨k, rfl⟩ := Nat.exists_eq_add_one.2 hi
  rfl

theorem cell_eq (h : g.Shaped rows cols) (hi : i < rows) (hj : j < cols) (fallback : κ) :
    cell g i j = some (g.get fallback i j) := by
  have hlt := h.index_lt hi hj
  rw [cell, if_pos (h.cols_eq.symm ▸ hj), Grid.get, Array.getElem?_eq_getElem hlt,
    Array.getD_eq_getD_getElem?, Array.getElem?_eq_getElem hlt, Option.getD_some]

theorem store_eq (h : g.Shaped rows cols) (hi : i < rows) (hj : j < cols) (value : κ) :
    store g i j value = some (g.set i j value) :=
  if_pos ⟨h.cols_eq.symm ▸ hj, h.index_lt hi hj⟩

theorem setForest_eq (h : t.Shaped p) (hi : i ≤ p.src.size) (hj : j ≤ p.dst.size) (value : κ) :
    setForest t i j value = some (t.setForest i j value) := by
  rw [setForest, store_eq h.forest (Nat.lt_succ_of_le hi) (Nat.lt_succ_of_le hj)]
  rfl

theorem setBoth_eq (h : t.Shaped p) (hi : i ≤ p.src.size) (hj : j ≤ p.dst.size) (value : κ) :
    setBoth t i j value = some (t.setBoth i j value) := by
  rw [setBoth, store_eq h.forest (Nat.lt_succ_of_le hi) (Nat.lt_succ_of_le hj),
    store_eq h.tree (Nat.lt_succ_of_le hi) (Nat.lt_succ_of_le hj)]
  rfl

theorem leaf_eq (hn : n.leftmost.size = n.size + 1) (hi : i ≤ n.size) :
    leaf n i = some (n.leaf i) := by
  have hlt : i < n.leftmost.size := by omega
  rw [leaf, Numbered.leaf, Array.getD_eq_getD_getElem?, Array.getElem?_eq_getElem hlt,
    Option.getD_some]

theorem id_eq (hi : 0 < i) (hin : i ≤ n.size) : id n i = some (n.id i) := by
  have hlt : i - 1 < n.ids.size := by
    rw [← Numbered.size]
    omega
  rw [id, pred_of_pos hi, Numbered.id, Array.getD_eq_getD_getElem?]
  change n.ids[i - 1]? = _
  rw [Array.getElem?_eq_getElem hlt, Option.getD_some]

theorem content_eq (hn : n.contents.size = n.size) (hi : 0 < i) (hin : i ≤ n.size) :
    content n i = some (n.content i) := by
  have hlt : i - 1 < n.contents.size := by omega
  rw [content, pred_of_pos hi, Numbered.content, Array.getD_eq_getD_getElem?]
  change n.contents[i - 1]? = _
  rw [Array.getElem?_eq_getElem hlt, Option.getD_some]

theorem foldlM_eq {σ α : Type} {f : σ → α → Option σ} {g : σ → α → σ} {I : σ → Prop} {l : List α}
    {s : σ} (hs : I s) (step : ∀ s, I s → ∀ a ∈ l, f s a = some (g s a) ∧ I (g s a)) :
    l.foldlM f s = some (l.foldl g s) ∧ I (l.foldl g s) := by
  induction l generalizing s with
  | nil => exact ⟨rfl, hs⟩
  | cons a l ih =>
      obtain ⟨heq, hI⟩ := step s hs a (by simp)
      rw [List.foldlM_cons, heq]
      exact ih hI fun s hs b hb => step s hs b (by simp [hb])

variable [EditCost κ] {lo lo' di dj : Nat}

theorem forestAt_eq (h : t.Shaped p) (hi : i ≤ p.src.size) (hj : j ≤ p.dst.size) :
    cell t.forest i j = some (t.forestAt i j) :=
  cell_eq h.forest (Nat.lt_succ_of_le hi) (Nat.lt_succ_of_le hj) _

theorem treeAt_eq (h : t.Shaped p) (hi : i ≤ p.src.size) (hj : j ≤ p.dst.size) :
    cell t.tree i j = some (t.treeAt i j) :=
  cell_eq h.tree (Nat.lt_succ_of_le hi) (Nat.lt_succ_of_le hj) _

theorem mem_span {lo hi k : Nat} (h : k ∈ Tables.span (lo + 1) hi) : lo < k ∧ k ≤ hi := by
  rw [Tables.span, List.mem_range'_1] at h
  omega

theorem fillRowEdge_eq (lo : Nat) (h : t.Shaped p) (hi : i ≤ p.src.size)
    (hlo' : lo' ≤ p.dst.size) :
    fillRowEdge (lo + 1) (lo' + 1) i t = some (t.fillRowEdge (lo + 1) (lo' + 1) i) ∧
      (t.fillRowEdge (lo + 1) (lo' + 1) i).Shaped p := by
  apply foldlM_eq h
  intro t ht k hk
  obtain ⟨hlo, hki⟩ := mem_span hk
  refine ⟨?_, ht.setForest ..⟩
  rw [pred_of_pos (Nat.zero_lt_of_lt hlo)]
  change (cell t.forest (k - 1) lo' >>= fun v => setForest t k lo' (EditCost.add v EditCost.unit)) = _
  rw [forestAt_eq ht (by omega) hlo']
  exact setForest_eq ht (by omega) hlo' _

theorem fillColumnEdge_eq (lo' : Nat) (h : t.Shaped p) (hj : j ≤ p.dst.size)
    (hlo : lo ≤ p.src.size) :
    fillColumnEdge (lo + 1) (lo' + 1) j t = some (t.fillColumnEdge (lo + 1) (lo' + 1) j) ∧
      (t.fillColumnEdge (lo + 1) (lo' + 1) j).Shaped p := by
  apply foldlM_eq h
  intro t ht k hk
  obtain ⟨hlo', hkj⟩ := mem_span hk
  refine ⟨?_, ht.setForest ..⟩
  rw [pred_of_pos (Nat.zero_lt_of_lt hlo')]
  change (cell t.forest lo (k - 1) >>= fun v => setForest t lo k (EditCost.add v EditCost.unit)) = _
  rw [forestAt_eq ht hlo (by omega)]
  exact setForest_eq ht hlo (by omega) _

structure Listed (p : TreePair) : Prop where
  nested : p.Nested
  leaves : p.src.leftmost.size = p.src.size + 1 ∧ p.dst.leftmost.size = p.dst.size + 1
  contents : p.src.contents.size = p.src.size ∧ p.dst.contents.size = p.dst.size

theorem fillCell_eq (hp : Listed p) (h : t.Shaped p) (hdi : 0 < di) (hi : di ≤ p.src.size)
    (hdj : 0 < dj) (hj : dj ≤ p.dst.size) (li lj : Nat) :
    fillCell p li lj di dj t = some (t.fillCell p li lj di dj) ∧
      (t.fillCell p li lj di dj).Shaped p := by
  have hleft := hp.nested.src.leaf_pos di hdi hi
  have hright := hp.nested.dst.leaf_pos dj hdj hj
  have hle := hp.nested.src.leaf_le di hdi hi
  have hle' := hp.nested.dst.leaf_le dj hdj hj
  rw [fillCell, Tables.fillCell]
  simp only [pred_of_pos hdi, pred_of_pos hdj, Option.bind_eq_bind, Option.bind_some,
    forestAt_eq h (Nat.sub_le_of_le_add (by omega : di ≤ p.src.size + 1)) hj,
    forestAt_eq h hi (Nat.sub_le_of_le_add (by omega : dj ≤ p.dst.size + 1)),
    leaf_eq hp.leaves.1 hi, leaf_eq hp.leaves.2 hj]
  split
  · simp only [forestAt_eq h (Nat.sub_le_of_le_add (by omega : di ≤ p.src.size + 1))
      (Nat.sub_le_of_le_add (by omega : dj ≤ p.dst.size + 1)), content_eq hp.contents.1 hdi hi,
      content_eq hp.contents.2 hdj hj, Option.bind_some]
    exact ⟨setBoth_eq h hi hj _, h.setBoth ..⟩
  · simp only [pred_of_pos hleft, pred_of_pos hright, Option.bind_some,
      forestAt_eq h (by omega : p.src.leaf di - 1 ≤ p.src.size)
        (by omega : p.dst.leaf dj - 1 ≤ p.dst.size), treeAt_eq h hi hj]
    exact ⟨setForest_eq h hi hj _, h.setForest ..⟩

theorem fillRow_eq (hp : Listed p) (h : t.Shaped p) (hdi : 0 < di) (hi : di ≤ p.src.size)
    (hj : j ≤ p.dst.size) (li : Nat) :
    fillRow p li (lo' + 1) j di t = some (t.fillRow p li (lo' + 1) j di) ∧
      (t.fillRow p li (lo' + 1) j di).Shaped p := by
  apply foldlM_eq h
  intro t ht k hk
  obtain ⟨hlo', hkj⟩ := mem_span hk
  exact fillCell_eq hp ht hdi hi (Nat.zero_lt_of_lt hlo') (hkj.trans hj) li _

theorem fillForest_eq (hp : Listed p) (h : t.Shaped p) (hi : 0 < i) (hin : i ≤ p.src.size)
    (hj : 0 < j) (hjn : j ≤ p.dst.size) :
    fillForest p i j t = some (t.fillForest p i j) ∧ (t.fillForest p i j).Shaped p := by
  have hblock := Tables.block_of_le hp.nested hi hin hj hjn
  obtain ⟨lo, hlo⟩ := Nat.exists_eq_add_one.2 (hp.nested.src.leaf_pos i hi hin)
  obtain ⟨lo', hlo'⟩ := Nat.exists_eq_add_one.2 (hp.nested.dst.leaf_pos j hj hjn)
  rw [hlo, hlo'] at hblock
  have hle : lo ≤ p.src.size := hblock.lo_lt.le.trans hin
  have hle' : lo' ≤ p.dst.size := hblock.lo_lt'.le.trans hjn
  obtain ⟨hrow, hrowShaped⟩ := fillRowEdge_eq lo (h.setForest lo lo' EditCost.zero) hin hle'
  obtain ⟨hcol, hcolShaped⟩ := fillColumnEdge_eq lo' hrowShaped hjn hle
  have hrows := foldlM_eq (f := fun t di => fillRow p (lo + 1) (lo' + 1) j di t)
    (g := fun t di => t.fillRow p (lo + 1) (lo' + 1) j di) (l := Tables.span (lo + 1) i)
    hcolShaped fun t ht k hk =>
      fillRow_eq hp ht (Nat.zero_lt_of_lt (mem_span hk).1) ((mem_span hk).2.trans hin) hjn _
  rw [fillForest, Tables.fillForest, leaf_eq hp.leaves.1 hin, leaf_eq hp.leaves.2 hjn, hlo, hlo']
  change (setForest t lo lo' EditCost.zero >>= _) = _ ∧ _
  rw [setForest_eq h hle hle']
  change (fillRowEdge (lo + 1) (lo' + 1) i _ >>= _) = _ ∧ _
  rw [hrow]
  change (fillColumnEdge (lo + 1) (lo' + 1) j _ >>= _) = _ ∧ _
  rw [hcol]
  exact hrows

theorem ofPair_eq (hp : Listed p) : ofPair p = some (Tables.ofPair p : Tables κ) := by
  refine (foldlM_eq (I := fun t => t.Shaped p) (Tables.shaped_blank p) fun t ht i hi => ?_).1
  obtain ⟨hi₀, hin, -⟩ := Numbered.mem_keyRoots.1 hi
  refine foldlM_eq ht fun t ht j hj => ?_
  obtain ⟨hj₀, hjn, -⟩ := Numbered.mem_keyRoots.1 hj
  exact fillForest_eq hp ht hi₀ hin hj₀ hjn

end Checked

end TreeDelta
