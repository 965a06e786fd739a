import TreeDelta.Proofs.EditMappings

namespace TreeDelta

section Loops

variable {σ α : Type}

theorem foldl_induct {f : σ → α → σ} {I : List α → σ → Prop} {l : List α} {s : σ} (start : I [] s)
    (step : ∀ pre x post s, l = pre ++ x :: post → I pre s → I (pre ++ [x]) (f s x)) :
    I l (l.foldl f s) := by
  have hrun : ∀ post pre s, l = pre ++ post → I pre s → I l (post.foldl f s) := by
    intro post
    induction post with
    | nil =>
        intro pre s hl hI
        rw [List.append_nil] at hl
        exact hl ▸ hI
    | cons x post ih =>
        intro pre s hl hI
        exact ih (pre ++ [x]) (f s x) (by simp [hl]) (step pre x post s hl hI)
  exact hrun l [] s rfl start

theorem foldl_span_induct {f : σ → Nat → σ} {I : Nat → σ → Prop} {lo hi : Nat} {s : σ}
    (hlo : lo ≤ hi + 1) (start : I lo s)
    (step : ∀ k s, lo ≤ k → k ≤ hi → I k s → I (k + 1) (f s k)) :
    I (hi + 1) ((Tables.span lo hi).foldl f s) := by
  have hend := foldl_induct (I := fun pre s => I (lo + pre.length) s) (f := f)
    (l := Tables.span lo hi) (s := s) start ?step
  · rw [Tables.span, List.length_range', Nat.add_sub_cancel' hlo] at hend
    exact hend
  · intro pre x post s hl hI
    have hx : (Tables.span lo hi)[pre.length]? = some x := by simp [hl]
    obtain ⟨hlt, hget⟩ := List.getElem?_eq_some_iff.1 hx
    rw [Tables.span, List.length_range'] at hlt
    have hx : lo + pre.length = x := by simpa [Tables.span] using hget
    rw [List.length_append, List.length_singleton, ← Nat.add_assoc]
    rw [hx] at hI ⊢
    exact step x s (by omega) (by omega) hI

end Loops

namespace Grid

variable {κ : Type} {g : Grid κ} {rows cols i j k l : Nat}

structure Shaped (g : Grid κ) (rows cols : Nat) : Prop where
  cols_eq : g.cols = cols
  cells_eq : g.cells.size = rows * cols

theorem shaped_filled (rows cols : Nat) (value : κ) : (filled rows cols value).Shaped rows cols :=
  ⟨rfl, Array.size_replicate⟩

theorem Shaped.set (h : g.Shaped rows cols) (i j : Nat) (value : κ) :
    (g.set i j value).Shaped rows cols :=
  ⟨h.cols_eq, Array.size_setIfInBounds.trans h.cells_eq⟩

theorem Shaped.index_lt (h : g.Shaped rows cols) (hi : i < rows) (hj : j < cols) :
    i * g.cols + j < g.cells.size := by
  rw [h.cols_eq, h.cells_eq]
  calc i * cols + j < i * cols + cols := Nat.add_lt_add_left hj _
    _ = (i + 1) * cols := (Nat.succ_mul i cols).symm
    _ ≤ rows * cols := Nat.mul_le_mul_right cols hi

theorem Shaped.get_set (h : g.Shaped rows cols) (fallback value : κ) (hj : j < cols)
    (hk : k < rows) (hl : l < cols) :
    (g.set i j value).get fallback k l = if i = k ∧ j = l then value else g.get fallback k l :=
  Grid.get_set g fallback value (h.cols_eq.symm ▸ hj) (h.cols_eq.symm ▸ hl) (h.index_lt hk hl)

end Grid

namespace Tables

section Cells

variable {κ : Type} {p : TreePair} {t : Tables κ} {i j k l : Nat} {v : κ}

structure Shaped (p : TreePair) (t : Tables κ) : Prop where
  tree : t.tree.Shaped (p.src.size + 1) (p.dst.size + 1)
  forest : t.forest.Shaped (p.src.size + 1) (p.dst.size + 1)

theorem Shaped.setForest (h : t.Shaped p) (i j : Nat) (v : κ) : (t.setForest i j v).Shaped p :=
  ⟨h.tree, h.forest.set i j v⟩

theorem Shaped.setBoth (h : t.Shaped p) (i j : Nat) (v : κ) : (t.setBoth i j v).Shaped p :=
  ⟨h.tree.set i j v, h.forest.set i j v⟩

variable [EditCost κ]

theorem shaped_blank (p : TreePair) : (blank p : Tables κ).Shaped p :=
  ⟨Grid.shaped_filled .., Grid.shaped_filled ..⟩

theorem forestAt_setForest (h : t.Shaped p) (hj : j ≤ p.dst.size) (hk : k ≤ p.src.size)
    (hl : l ≤ p.dst.size) :
    (t.setForest i j v).forestAt k l = if i = k ∧ j = l then v else t.forestAt k l :=
  h.forest.get_set _ v (Nat.lt_succ_of_le hj) (Nat.lt_succ_of_le hk) (Nat.lt_succ_of_le hl)

theorem forestAt_setBoth (h : t.Shaped p) (hj : j ≤ p.dst.size) (hk : k ≤ p.src.size)
    (hl : l ≤ p.dst.size) :
    (t.setBoth i j v).forestAt k l = if i = k ∧ j = l then v else t.forestAt k l :=
  h.forest.get_set _ v (Nat.lt_succ_of_le hj) (Nat.lt_succ_of_le hk) (Nat.lt_succ_of_le hl)

theorem treeAt_setBoth (h : t.Shaped p) (hj : j ≤ p.dst.size) (hk : k ≤ p.src.size)
    (hl : l ≤ p.dst.size) :
    (t.setBoth i j v).treeAt k l = if i = k ∧ j = l then v else t.treeAt k l :=
  h.tree.get_set _ v (Nat.lt_succ_of_le hj) (Nat.lt_succ_of_le hk) (Nat.lt_succ_of_le hl)

@[simp] theorem treeAt_setForest (t : Tables κ) (i j : Nat) (v : κ) (k l : Nat) :
    (t.setForest i j v).treeAt k l = t.treeAt k l := rfl

end Cells

variable {p : TreePair} {t t₀ : Tables ExactCost} {lo i lo' j r c : Nat}

def TreeRight (p : TreePair) (t : Tables ExactCost) (x y : Nat) : Prop :=
  p.Optimal (p.src.leaf x - 1) x (p.dst.leaf y - 1) y (t.treeAt x y)

/-- The cells in `cells` hold the least costs for the forests that begin behind `lo` and `lo'`, and
the tree cells are those of `t₀`. -/
structure Known (p : TreePair) (lo lo' : Nat) (cells : Nat → Nat → Prop)
    (t₀ t : Tables ExactCost) : Prop where
  shaped : t.Shaped p
  right : ∀ row col, cells row col → row ≤ p.src.size ∧ col ≤ p.dst.size ∧
    p.Optimal lo row lo' col (t.forestAt row col)
  tree : t.tree = t₀.tree

theorem Known.set {cells cells' : Nat → Nat → Prop} {v : ExactCost}
    (h : Known p lo lo' cells t₀ t) (hr : r ≤ p.src.size) (hc : c ≤ p.dst.size)
    (hv : p.Optimal lo r lo' c v)
    (hcells : ∀ row col, cells' row col → r = row ∧ c = col ∨ cells row col) :
    Known p lo lo' cells' t₀ (t.setForest r c v) := by
  refine ⟨h.shaped.setForest r c v, fun row col hrc => ?_, h.tree⟩
  by_cases he : r = row ∧ c = col
  · obtain ⟨rfl, rfl⟩ := he
    refine ⟨hr, hc, ?_⟩
    rw [forestAt_setForest h.shaped hc hr hc, if_pos ⟨rfl, rfl⟩]
    exact hv
  · obtain ⟨hrow, hcol, hopt⟩ := h.right row col ((hcells row col hrc).resolve_left he)
    refine ⟨hrow, hcol, ?_⟩
    rw [forestAt_setForest h.shaped hc hrow hcol, if_neg he]
    exact hopt

theorem known_corner (ht : t.Shaped p) (hlo : lo ≤ p.src.size) (hlo' : lo' ≤ p.dst.size) :
    Known p lo lo' (fun row col => row = lo ∧ col = lo') t (t.setForest lo lo' 0) := by
  have hnone : Known p lo lo' (fun _ _ => False) t t := ⟨ht, by simp, rfl⟩
  apply hnone.set hlo hlo' (.empty p lo lo')
  rintro row col ⟨rfl, rfl⟩
  exact .inl ⟨rfl, rfl⟩

theorem known_fillRowEdge (hlo : lo ≤ i) (hi : i ≤ p.src.size)
    (h : Known p lo lo' (fun row col => row = lo ∧ col = lo') t₀ t) :
    Known p lo lo' (fun row col => lo ≤ row ∧ row ≤ i ∧ col = lo') t₀
      (t.fillRowEdge (lo + 1) (lo' + 1) i) := by
  have hend := foldl_span_induct
    (I := fun k t => Known p lo lo' (fun row col => lo ≤ row ∧ row < k ∧ col = lo') t₀ t)
    (f := fun t di => t.setForest di lo' (t.forestAt (di - 1) lo' + 1)) (Nat.succ_le_succ hlo)
    ⟨h.shaped, fun row col hrc => h.right row col (by omega), h.tree⟩
    fun k t hk hki hI => by
      obtain ⟨k, rfl⟩ : ∃ n, k = n + 1 := ⟨k - 1, by omega⟩
      obtain ⟨_, hcol, hopt⟩ := hI.right k lo' ⟨by omega, by omega, rfl⟩
      exact hI.set (by omega) hcol (hopt.delete (by omega)) (by omega)
  exact ⟨hend.shaped, fun row col hrc => hend.right row col (by omega), hend.tree⟩

theorem known_fillColumnEdge (hlo' : lo' ≤ j) (hj : j ≤ p.dst.size)
    (h : Known p lo lo' (fun row col => lo ≤ row ∧ row ≤ i ∧ col = lo') t₀ t) (hlo : lo ≤ i) :
    Known p lo lo' (fun row col => lo ≤ row ∧ row ≤ i ∧ lo' ≤ col ∧ col ≤ j ∧
      (row = lo ∨ col = lo')) t₀ (t.fillColumnEdge (lo + 1) (lo' + 1) j) := by
  have hend := foldl_span_induct
    (I := fun k t => Known p lo lo' (fun row col => lo ≤ row ∧ row ≤ i ∧ lo' ≤ col ∧ col < k ∧
      (row = lo ∨ col = lo')) t₀ t)
    (f := fun t dj => t.setForest lo dj (t.forestAt lo (dj - 1) + 1)) (Nat.succ_le_succ hlo')
    ⟨h.shaped, fun row col hrc => h.right row col (by omega), h.tree⟩
    fun k t hk hkj hI => by
      obtain ⟨k, rfl⟩ : ∃ n, k = n + 1 := ⟨k - 1, by omega⟩
      obtain ⟨hrow, _, hopt⟩ := hI.right lo k ⟨by omega, by omega, by omega, by omega, .inl rfl⟩
      exact hI.set hrow (by omega) (hopt.insert (by omega)) (by omega)
  exact ⟨hend.shaped, fun row col hrc => hend.right row col (by omega), hend.tree⟩

/-- All cells before `(di, dj)` are filled, row by row. Tree cells that were right still are, and
those of trees that begin behind `lo` and `lo'` have become so. -/
structure Filling (p : TreePair) (lo i lo' j : Nat) (t₀ t : Tables ExactCost) (di dj : Nat) :
    Prop where
  shaped : t.Shaped p
  forest : ∀ row col, lo ≤ row → row ≤ i → lo' ≤ col → col ≤ j →
    row < di ∨ row = di ∧ col < dj ∨ col = lo' → p.Optimal lo row lo' col (t.forestAt row col)
  kept : ∀ x y, x ≤ p.src.size → y ≤ p.dst.size → TreeRight p t₀ x y → TreeRight p t x y
  fresh : ∀ x y, lo < x → x ≤ i → lo' < y → y ≤ j → p.src.leaf x = lo + 1 →
    p.dst.leaf y = lo' + 1 → x < di ∨ x = di ∧ y < dj → TreeRight p t x y

structure Block (p : TreePair) (lo i lo' j : Nat) : Prop where
  nested : p.Nested
  row_le : i ≤ p.src.size
  col_le : j ≤ p.dst.size
  lo_lt : lo < i
  lo_lt' : lo' < j
  leaf : p.src.leaf i = lo + 1
  leaf' : p.dst.leaf j = lo' + 1

theorem block_of_le (hp : p.Nested) (hi : 0 < i) (hin : i ≤ p.src.size) (hj : 0 < j)
    (hjn : j ≤ p.dst.size) : Block p (p.src.leaf i - 1) i (p.dst.leaf j - 1) j := by
  have := hp.src.leaf_pos i hi hin
  have := hp.dst.leaf_pos j hj hjn
  have := hp.src.leaf_le i hi hin
  have := hp.dst.leaf_le j hj hjn
  exact ⟨hp, hin, hjn, by omega, by omega, by omega, by omega⟩

theorem Block.lt_leaf (h : Block p lo i lo' j) {k : Nat} (hk : lo < k) (hki : k ≤ i) :
    lo < p.src.leaf k := by
  have := h.nested.src.leaf_le_leaf i k (by omega) h.row_le (by rw [h.leaf]; exact hk) hki
  rw [h.leaf] at this
  exact this

theorem Block.lt_leaf' (h : Block p lo i lo' j) {k : Nat} (hk : lo' < k) (hkj : k ≤ j) :
    lo' < p.dst.leaf k := by
  have := h.nested.dst.leaf_le_leaf j k (by have := h.lo_lt'; omega) h.col_le
    (by rw [h.leaf']; exact hk) hkj
  rw [h.leaf'] at this
  exact this

def pairingCost (p : TreePair) (t : Tables ExactCost) (lo lo' row col : Nat) : ExactCost :=
  if p.src.leaf row = lo + 1 ∧ p.dst.leaf col = lo' + 1 then
    t.forestAt (row - 1) (col - 1) + p.price (row, col)
  else t.forestAt (p.src.leaf row - 1) (p.dst.leaf col - 1) + t.treeAt row col

theorem Block.optimal (h : Block p lo i lo' j) (hlo : lo ≤ r) (hr : r + 1 ≤ i) (hlo' : lo' ≤ c)
    (hc : c + 1 ≤ j)
    (hforest : ∀ row col, lo ≤ row → row ≤ i → lo' ≤ col → col ≤ j →
      row < r + 1 ∨ row = r + 1 ∧ col < c + 1 → p.Optimal lo row lo' col (t.forestAt row col))
    (htree : ¬ (p.src.leaf (r + 1) = lo + 1 ∧ p.dst.leaf (c + 1) = lo' + 1) →
      TreeRight p t (r + 1) (c + 1)) :
    p.Optimal lo (r + 1) lo' (c + 1) (min (min (t.forestAt r (c + 1) + 1)
      (t.forestAt (r + 1) c + 1)) (pairingCost p t lo lo' (r + 1) (c + 1))) := by
  have hdelete := hforest r (c + 1) hlo (by omega) (by omega) hc (by omega)
  have hinsert := hforest (r + 1) c (by omega) hr hlo' (by omega) (by omega)
  rw [pairingCost]
  split
  · next hroots =>
    exact .tree hlo hlo' hroots.1 hroots.2 hdelete hinsert
      (hforest r c hlo (by omega) hlo' (by omega) (by omega))
  · next hroots =>
    have hle := h.lt_leaf (k := r + 1) (by omega) hr
    have hle' := h.lt_leaf' (k := c + 1) (by omega) hc
    obtain ⟨mid, hmid⟩ := Nat.exists_eq_add_one.2 (Nat.zero_lt_of_lt hle)
    obtain ⟨mid', hmid'⟩ := Nat.exists_eq_add_one.2 (Nat.zero_lt_of_lt hle')
    have hblock := block_of_le h.nested (Nat.succ_pos r) (hr.trans h.row_le) (Nat.succ_pos c)
      (hc.trans h.col_le)
    have htree := htree hroots
    rw [TreeRight] at htree
    rw [hmid, hmid'] at htree hblock ⊢
    have hlt := hblock.lo_lt
    have hlt' := hblock.lo_lt'
    exact .forest hlo hlo' (by omega) (by omega) hmid hmid'
      (fun k hk hkr => hblock.lt_leaf hk hkr) (fun k hk hkc => hblock.lt_leaf' hk hkc) (by omega)
      (by omega) hdelete hinsert
      (hforest mid mid' (by omega) (by omega) (by omega) (by omega) (by omega)) htree

/-- What filling the forests of `i` and `j` starts from: the tree cells of smaller trees are
right, except those that are filled now. -/
structure Prepared (p : TreePair) (lo i lo' j : Nat) (t : Tables ExactCost) : Prop
    extends Block p lo i lo' j where
  tree : ∀ x y, lo < x → x ≤ i → lo' < y → y ≤ j →
    ¬ (p.src.leaf x = lo + 1 ∧ p.dst.leaf y = lo' + 1) → TreeRight p t x y

theorem Filling.setBoth {v : ExactCost} (h : Filling p lo i lo' j t₀ t (r + 1) (c + 1))
    (hp : Prepared p lo i lo' j t₀) (hr : r + 1 ≤ i) (hc : c + 1 ≤ j)
    (hrow : p.src.leaf (r + 1) = lo + 1) (hcol : p.dst.leaf (c + 1) = lo' + 1)
    (hv : p.Optimal lo (r + 1) lo' (c + 1) v) :
    Filling p lo i lo' j t₀ (t.setBoth (r + 1) (c + 1) v) (r + 1) (c + 2) := by
  have hrs := hr.trans hp.row_le
  have hcs := hc.trans hp.col_le
  have htree : ∀ x y, x ≤ p.src.size → y ≤ p.dst.size →
      (r + 1 = x ∧ c + 1 = y) ∨ TreeRight p t x y →
      TreeRight p (t.setBoth (r + 1) (c + 1) v) x y := by
    intro x y hx hy hright
    rw [TreeRight, treeAt_setBoth h.shaped hcs hx hy]
    split
    · next he =>
      rw [← he.1, ← he.2, hrow, hcol]
      exact hv
    · next he => exact hright.resolve_left he
  constructor
  case shaped => exact h.shaped.setBoth ..
  case forest =>
    intro row col hlo hrowi hlo' hcolj hdone
    rw [forestAt_setBoth h.shaped hcs (hrowi.trans hp.row_le) (hcolj.trans hp.col_le)]
    split
    · next he =>
      rw [← he.1, ← he.2]
      exact hv
    · exact h.forest row col hlo hrowi hlo' hcolj (by omega)
  case kept =>
    intro x y hx hy hright
    exact htree x y hx hy (.inr (h.kept x y hx hy hright))
  case fresh =>
    intro x y hx hxi hy hyj hleaf hleaf' hdone
    apply htree x y (hxi.trans hp.row_le) (hyj.trans hp.col_le)
    by_cases he : r + 1 = x ∧ c + 1 = y
    · exact .inl he
    · exact .inr (h.fresh x y hx hxi hy hyj hleaf hleaf' (by omega))

theorem Filling.setForest {v : ExactCost} (h : Filling p lo i lo' j t₀ t (r + 1) (c + 1))
    (hp : Prepared p lo i lo' j t₀) (hc : c + 1 ≤ j)
    (hother : ¬ (p.src.leaf (r + 1) = lo + 1 ∧ p.dst.leaf (c + 1) = lo' + 1))
    (hv : p.Optimal lo (r + 1) lo' (c + 1) v) :
    Filling p lo i lo' j t₀ (t.setForest (r + 1) (c + 1) v) (r + 1) (c + 2) := by
  constructor
  case shaped => exact h.shaped.setForest ..
  case forest =>
    intro row col hlo hrowi hlo' hcolj hdone
    rw [forestAt_setForest h.shaped (hc.trans hp.col_le) (hrowi.trans hp.row_le)
      (hcolj.trans hp.col_le)]
    split
    · next he =>
      rw [← he.1, ← he.2]
      exact hv
    · exact h.forest row col hlo hrowi hlo' hcolj (by omega)
  case kept => exact h.kept
  case fresh =>
    intro x y hx hxi hy hyj hleaf hleaf' hdone
    refine h.fresh x y hx hxi hy hyj hleaf hleaf' ?_
    have : ¬ (r + 1 = x ∧ c + 1 = y) := by
      rintro ⟨rfl, rfl⟩
      exact hother ⟨hleaf, hleaf'⟩
    omega

theorem Filling.fillCell (h : Filling p lo i lo' j t₀ t (r + 1) (c + 1))
    (hp : Prepared p lo i lo' j t₀) (hlo : lo ≤ r) (hr : r + 1 ≤ i) (hlo' : lo' ≤ c)
    (hc : c + 1 ≤ j) :
    Filling p lo i lo' j t₀ (t.fillCell p (lo + 1) (lo' + 1) (r + 1) (c + 1)) (r + 1) (c + 2) := by
  have hv := hp.optimal (t := t) hlo hr hlo' hc
    (fun row col hrow hrowi hcol hcolj hdone => h.forest row col hrow hrowi hcol hcolj (by omega))
    (fun hother => h.kept _ _ (hr.trans hp.row_le) (hc.trans hp.col_le)
      (hp.tree _ _ (by omega) hr (by omega) hc hother))
  rw [pairingCost] at hv
  rw [Tables.fillCell]
  dsimp only
  split
  · next hroots =>
    simp only [Bool.and_eq_true, beq_iff_eq] at hroots
    rw [if_pos hroots] at hv
    exact h.setBoth hp hr hc hroots.1 hroots.2 hv
  · next hroots =>
    simp only [Bool.and_eq_true, beq_iff_eq] at hroots
    rw [if_neg hroots] at hv
    exact h.setForest hp hc hroots hv

theorem Filling.fillRow (h : Filling p lo i lo' j t₀ t (r + 1) (lo' + 1))
    (hp : Prepared p lo i lo' j t₀) (hlo : lo ≤ r) (hr : r + 1 ≤ i) :
    Filling p lo i lo' j t₀ (t.fillRow p (lo + 1) (lo' + 1) j (r + 1)) (r + 2) (lo' + 1) := by
  have hend := foldl_span_induct (I := fun k t => Filling p lo i lo' j t₀ t (r + 1) k)
    (f := fun t dj => t.fillCell p (lo + 1) (lo' + 1) (r + 1) dj)
    (Nat.succ_le_succ hp.lo_lt'.le) h fun k t hk hkj hI => by
      obtain ⟨c, rfl⟩ : ∃ c, k = c + 1 := ⟨k - 1, by omega⟩
      exact hI.fillCell hp hlo hr (by omega) hkj
  refine ⟨hend.shaped, fun row col hlo hrow hlo' hcol hdone => ?_, hend.kept,
    fun x y hx hxi hy hyj hleaf hleaf' hdone => ?_⟩
  · exact hend.forest row col hlo hrow hlo' hcol (by omega)
  · exact hend.fresh x y hx hxi hy hyj hleaf hleaf' (by omega)

/-- The result of filling the forests of `i` and `j`. -/
structure Filled (p : TreePair) (i j : Nat) (t₀ t : Tables ExactCost) : Prop where
  shaped : t.Shaped p
  forest : ∀ row col, p.src.leaf i - 1 ≤ row → row ≤ i → p.dst.leaf j - 1 ≤ col → col ≤ j →
    p.Optimal (p.src.leaf i - 1) row (p.dst.leaf j - 1) col (t.forestAt row col)
  kept : ∀ x y, x ≤ p.src.size → y ≤ p.dst.size → TreeRight p t₀ x y → TreeRight p t x y
  fresh : ∀ x y, 0 < x → x ≤ i → 0 < y → y ≤ j → p.src.leaf x = p.src.leaf i →
    p.dst.leaf y = p.dst.leaf j → TreeRight p t x y

theorem filled_fillForest (hp : Prepared p lo i lo' j t) (ht : t.Shaped p) :
    Filled p i j t (t.fillForest p i j) := by
  have hlo := hp.lo_lt
  have hlo' := hp.lo_lt'
  have hedges := known_fillColumnEdge hlo'.le hp.col_le (known_fillRowEdge hlo.le hp.row_le
    (known_corner ht (hlo.le.trans hp.row_le) (hlo'.le.trans hp.col_le))) hlo.le
  have hstart : Filling p lo i lo' j t (((t.setForest lo lo' 0).fillRowEdge (lo + 1) (lo' + 1)
      i).fillColumnEdge (lo + 1) (lo' + 1) j) (lo + 1) (lo' + 1) := by
    refine ⟨hedges.shaped, fun row col hlo hrow hlo' hcol hdone => ?_, fun x y _ _ hright => ?_, ?_⟩
    · exact (hedges.right row col (by omega)).2.2
    · rw [TreeRight, treeAt, hedges.tree]
      exact hright
    · intro x y hx _ hy _ _ _ hdone
      omega
  have hend := foldl_span_induct (I := fun k t' => Filling p lo i lo' j t t' k (lo' + 1))
    (f := fun t di => t.fillRow p (lo + 1) (lo' + 1) j di) (Nat.succ_le_succ hlo.le) hstart
    fun k t' hk hki hI => by
      obtain ⟨r, rfl⟩ : ∃ r, k = r + 1 := ⟨k - 1, by omega⟩
      exact hI.fillRow hp (by omega) hki
  have heq : t.fillForest p i j = (span (lo + 1) i).foldl
      (fun t di => t.fillRow p (lo + 1) (lo' + 1) j di)
      (((t.setForest lo lo' 0).fillRowEdge (lo + 1) (lo' + 1) i).fillColumnEdge (lo + 1)
        (lo' + 1) j) := by
    rw [fillForest, hp.leaf, hp.leaf']
    rfl
  rw [heq]
  refine ⟨hend.shaped, ?_, hend.kept, ?_⟩
  · rw [hp.leaf, hp.leaf']
    intro row col hrow hrowi hcol hcolj
    exact hend.forest row col hrow hrowi hcol hcolj (by omega)
  · rw [hp.leaf, hp.leaf']
    intro x y hx hxi hy hyj hleaf hleaf'
    have hx' := hp.nested.src.leaf_le x hx (hxi.trans hp.row_le)
    have hy' := hp.nested.dst.leaf_le y hy (hyj.trans hp.col_le)
    exact hend.fresh x y (by omega) hxi (by omega) hyj hleaf hleaf' (by omega)

end Tables

end TreeDelta
