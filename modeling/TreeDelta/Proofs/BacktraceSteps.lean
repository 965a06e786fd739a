import TreeDelta.Proofs.CheckedDistance
import TreeDelta.Proofs.OptimalDistance

namespace TreeDelta

namespace TreePair

/-- The pairs in the list are different and make an edit mapping of cost `c`. -/
structure Attains (p : TreePair) (lo hi lo' hi' : Nat) (l : List (Nat × Nat)) (c : ExactCost) :
    Prop where
  nodup : l.Nodup
  aligns : p.Aligns lo hi lo' hi' l.toFinset
  cost : p.cost lo hi lo' hi' l.toFinset = c

variable {p : TreePair} {lo mid hi lo' mid' hi' i j : Nat} {l l' found pending : List (Nat × Nat)}
  {c c' : ExactCost} {q : Nat × Nat}

namespace Attains

theorem perm (h : p.Attains lo hi lo' hi' l c) (hl : l.Perm l') : p.Attains lo hi lo' hi' l' c := by
  have heq := List.toFinset_eq_of_perm l l' hl
  exact ⟨hl.nodup_iff.1 h.nodup, heq ▸ h.aligns, heq ▸ h.cost⟩

theorem empty (p : TreePair) (lo lo' : Nat) : p.Attains lo lo lo' lo' [] 0 :=
  ⟨List.nodup_nil, p.aligns_empty .., p.cost_empty lo lo'⟩

theorem delete (h : p.Attains lo hi lo' hi' l c) (hlo : lo ≤ hi) :
    p.Attains lo (hi + 1) lo' hi' l (c + 1) :=
  ⟨h.nodup, h.aligns.mono (Nat.le_succ hi) le_rfl, by rw [cost_delete hlo, h.cost]⟩

theorem insert (h : p.Attains lo hi lo' hi' l c) (hlo' : lo' ≤ hi') :
    p.Attains lo hi lo' (hi' + 1) l (c + 1) :=
  ⟨h.nodup, h.aligns.mono le_rfl (Nat.le_succ hi'), by rw [cost_insert hlo', h.cost]⟩

theorem pair (h : p.Attains lo hi lo' hi' l c) (hlo : lo ≤ hi) (hlo' : lo' ≤ hi')
    (hrow : p.src.leaf (hi + 1) = lo + 1) (hcol : p.dst.leaf (hi' + 1) = lo' + 1) :
    p.Attains lo (hi + 1) lo' (hi' + 1) ((hi + 1, hi' + 1) :: l)
      (c + p.price (hi + 1, hi' + 1)) := by
  have hnot : (hi + 1, hi' + 1) ∉ l := by
    intro hmem
    have := h.aligns.rows _ (List.mem_toFinset.2 hmem)
    omega
  refine ⟨List.nodup_cons.2 ⟨hnot, h.nodup⟩, ?_, ?_⟩
  · rw [List.toFinset_cons]
    exact h.aligns.pair hlo hlo' hrow hcol
  · rw [List.toFinset_cons, cost_pair (fun hmem => hnot (List.mem_toFinset.1 hmem)) hlo hlo', h.cost]

theorem append (h : p.Attains lo mid lo' mid' l c) (h' : p.Attains mid hi mid' hi' l' c')
    (hlo : lo ≤ mid) (hhi : mid ≤ hi) (hlo' : lo' ≤ mid') (hhi' : mid' ≤ hi')
    (hrow : ∀ k, mid < k → k ≤ hi → mid < p.src.leaf k)
    (hcol : ∀ k, mid' < k → k ≤ hi' → mid' < p.dst.leaf k) :
    p.Attains lo hi lo' hi' (l ++ l') (c + c') := by
  have hdisj := h.aligns.disjoint h'.aligns
  refine ⟨h.nodup.append h'.nodup (List.disjoint_toFinset_iff_disjoint.1 hdisj), ?_, ?_⟩
  · rw [List.toFinset_append]
    exact h.aligns.union h'.aligns hlo hhi hlo' hhi' hrow hcol
  · rw [List.toFinset_append, cost_union hdisj hlo hhi hlo' hhi', h.cost, h'.cost]

end Attains

/-- `l` consists of cheapest pairs for each of the pending subtrees. -/
def Fills (p : TreePair) : List (Nat × Nat) → List (Nat × Nat) → Prop
  | [], l => l = []
  | q :: pending, l => ∃ l₁ l₂ c, p.Optimal (p.src.leaf q.1 - 1) q.1 (p.dst.leaf q.2 - 1) q.2 c ∧
      p.Attains (p.src.leaf q.1 - 1) q.1 (p.dst.leaf q.2 - 1) q.2 l₁ c ∧
      Fills p pending l₂ ∧ l = l₁ ++ l₂

theorem fills_append {pending' : List (Nat × Nat)} (h : p.Fills (pending ++ pending') l) :
    ∃ l₁ l₂, p.Fills pending l₁ ∧ p.Fills pending' l₂ ∧ l = l₁ ++ l₂ := by
  induction pending generalizing l with
  | nil => exact ⟨[], l, rfl, h, rfl⟩
  | cons q pending ih =>
      obtain ⟨l₁, l₂, c, hopt, hq, hrest, rfl⟩ := h
      obtain ⟨l₃, l₄, h₃, h₄, rfl⟩ := ih hrest
      exact ⟨l₁ ++ l₃, l₄, ⟨l₁, l₃, c, hopt, hq, h₃, rfl⟩, h₄, (List.append_assoc ..).symm⟩

/-- Whatever cheapest pairs are chosen for the pending subtrees, with the pairs found they make a
mapping of cost `c`. -/
def Covers (p : TreePair) (lo hi lo' hi' : Nat) (found pending : List (Nat × Nat))
    (c : ExactCost) : Prop :=
  ∀ l, p.Fills pending l → p.Attains lo hi lo' hi' (found ++ l) c

theorem Covers.refine {found' pending' : List (Nat × Nat)}
    (h : p.Covers lo hi lo' hi' found (q :: pending) c)
    (hopt : p.Optimal (p.src.leaf q.1 - 1) q.1 (p.dst.leaf q.2 - 1) q.2 c')
    (hq : p.Covers (p.src.leaf q.1 - 1) q.1 (p.dst.leaf q.2 - 1) q.2 found' pending' c') :
    p.Covers lo hi lo' hi' (found' ++ found) (pending' ++ pending) c := by
  intro l hl
  obtain ⟨l₁, l₂, h₁, h₂, rfl⟩ := fills_append hl
  have hall := h _ ⟨found' ++ l₁, l₂, c', hopt, hq l₁ h₁, h₂, rfl⟩
  apply hall.perm
  simpa only [List.append_assoc] using List.perm_append_comm_assoc found found' (l₁ ++ l₂)

theorem Optimal.ne_top (h : p.Optimal lo hi lo' hi' c) : c ≠ ⊤ := by
  rintro rfl
  have hle := h.least ∅ (p.aligns_empty ..)
  rw [TreePair.cost, Finset.sum_empty, top_le_iff] at hle
  simp at hle

def weight (p : TreePair) (q : Nat × Nat) : Nat :=
  (q.1 - (p.src.leaf q.1 - 1)) + (q.2 - (p.dst.leaf q.2 - 1))

def load (p : TreePair) (pending : List (Nat × Nat)) : Nat := (pending.map p.weight).sum

end TreePair

namespace Trail

open Tables

variable {p : TreePair} {t : Tables ExactCost} {lo i lo' j row col : Nat} {trail : Trail}

/-- What the walk for `i` and `j` relies on: all tree cells and the forest cells of the two blocks
are right. -/
structure Walkable (p : TreePair) (t : Tables ExactCost) (lo i lo' j : Nat) : Prop
    extends Block p lo i lo' j where
  listed : Checked.Listed p
  complete : Complete p t
  forests : ∀ row col, lo ≤ row → row ≤ i → lo' ≤ col → col ≤ j →
    p.Optimal lo row lo' col (t.forestAt row col)

def Deletes (t : Tables ExactCost) (lo row col : Nat) : Prop :=
  lo < row ∧ t.forestAt (row - 1) col + 1 = t.forestAt row col

def Inserts (t : Tables ExactCost) (lo' row col : Nat) : Prop :=
  lo' < col ∧ t.forestAt row (col - 1) + 1 = t.forestAt row col

instance : Decidable (Deletes t lo row col) := inferInstanceAs (Decidable (_ ∧ _))

instance : Decidable (Inserts t lo' row col) := inferInstanceAs (Decidable (_ ∧ _))

theorem add_eq (a b : ExactCost) : EditCost.add a b = a + b := rfl

theorem unit_eq : (EditCost.unit : ExactCost) = 1 := rfl

theorem same_eq (a b : ExactCost) : EditCost.same a b = decide (a = b) := rfl

section Rounds

variable (h : Walkable p t lo i lo' j) (fuel : Nat) (trail : Trail)

include h

theorem walk_done (hrow : row ≤ lo) (hcol : col ≤ lo') :
    walk p t i j fuel row col trail = .ok trail := by
  cases fuel with
  | zero => rfl
  | succ fuel => simp [walk, h.leaf, h.leaf', hrow, hcol]

theorem walk_delete (hd : Deletes t lo row col) :
    walk p t i j (fuel + 1) row col trail = walk p t i j fuel (row - 1) col trail := by
  obtain ⟨hlo, heq⟩ := hd
  simp [walk, h.leaf, h.leaf', hlo, hlo.not_ge, same_eq, add_eq, unit_eq, heq]

theorem walk_insert (hd : ¬ Deletes t lo row col) (hi : Inserts t lo' row col) :
    walk p t i j (fuel + 1) row col trail = walk p t i j fuel row (col - 1) trail := by
  obtain ⟨hlo', heq⟩ := hi
  rw [Deletes] at hd
  simp [walk, h.leaf, h.leaf', hlo', hlo'.not_ge, same_eq, add_eq, unit_eq, heq, hd]

theorem walk_pair (hlo : lo < row) (hd : ¬ Deletes t lo row col) (hi : ¬ Inserts t lo' row col)
    (hrow : p.src.leaf row = lo + 1) (hcol : p.dst.leaf col = lo' + 1)
    (hkind : (p.src.content row).kind = (p.dst.content col).kind) :
    walk p t i j (fuel + 1) row col trail = walk p t i j fuel (row - 1) (col - 1)
      { trail with found := (p.src.id row, p.dst.id col) :: trail.found } := by
  rw [Deletes] at hd
  rw [Inserts] at hi
  simp [walk, h.leaf, h.leaf', hlo.not_ge, same_eq, add_eq, unit_eq, hd, hi, hrow, hcol, hkind]

theorem walk_postpone (hlo : lo < row) (hd : ¬ Deletes t lo row col) (hi : ¬ Inserts t lo' row col)
    (hnot : ¬ (p.src.leaf row = lo + 1 ∧ p.dst.leaf col = lo' + 1)) :
    walk p t i j (fuel + 1) row col trail =
      walk p t i j fuel (p.src.leaf row - 1) (p.dst.leaf col - 1)
        { trail with pending := (row, col) :: trail.pending } := by
  rw [Deletes] at hd
  rw [Inserts] at hi
  simp [walk, h.leaf, h.leaf', hlo.not_ge, same_eq, add_eq, unit_eq, hd, hi, hnot]

end Rounds

end Trail

namespace Checked

open Tables Trail

variable {p : TreePair} {t : Tables ExactCost} {lo i lo' j row col : Nat}

theorem explains_row (h : t.Shaped p) (hrow : row ≤ p.src.size) (hcol : col ≤ p.dst.size) :
    explains t (lo < row) (pred row) (some col) (t.forestAt row col) =
      some (decide (Deletes t lo row col)) := by
  by_cases hlo : lo < row
  · simp [explains, Deletes, hlo, pred_of_pos (Nat.zero_lt_of_lt hlo),
      forestAt_eq h (by omega : row - 1 ≤ p.src.size) hcol, same_eq, add_eq, unit_eq]
  · simp [explains, Deletes, hlo]

theorem explains_col (h : t.Shaped p) (hrow : row ≤ p.src.size) (hcol : col ≤ p.dst.size) :
    explains t (lo' < col) (some row) (pred col) (t.forestAt row col) =
      some (decide (Inserts t lo' row col)) := by
  by_cases hlo : lo' < col
  · simp [explains, Inserts, hlo, pred_of_pos (Nat.zero_lt_of_lt hlo),
      forestAt_eq h hrow (by omega : col - 1 ≤ p.dst.size), same_eq, add_eq, unit_eq]
  · simp [explains, Inserts, hlo]

section Rounds

variable (h : Walkable p t lo i lo' j) (fuel : Nat) (trail : Trail)

include h

theorem walk_done (hrow : row ≤ lo) (hcol : col ≤ lo') :
    walk p t i j fuel row col trail = some trail := by
  rw [walk, leaf_eq h.listed.leaves.1 h.row_le, leaf_eq h.listed.leaves.2 h.col_le, h.leaf, h.leaf']
  simp [pred, hrow, hcol]

theorem walk_round (hrow : row ≤ i) (hcol : col ≤ j) (hlo : lo < row ∨ lo' < col) :
    walk p t i j (fuel + 1) row col trail =
      if Deletes t lo row col then (pred row).bind fun row => walk p t i j fuel row col trail
      else if Inserts t lo' row col then (pred col).bind fun col => walk p t i j fuel row col trail
      else if p.src.leaf row = lo + 1 ∧ p.dst.leaf col = lo' + 1 then
        (content p.src row).bind fun x => (content p.dst col).bind fun y =>
          if x.kind = y.kind then
            (pred row).bind fun row' => (pred col).bind fun col' =>
              (id p.src row).bind fun a => (id p.dst col).bind fun b =>
                walk p t i j fuel row' col' { trail with found := (a, b) :: trail.found }
          else none
      else
        (pred (p.src.leaf row)).bind fun row' => (pred (p.dst.leaf col)).bind fun col' =>
          walk p t i j fuel row' col' { trail with pending := (row, col) :: trail.pending } := by
  have hs := h.complete.shaped
  have hrow' := hrow.trans h.row_le
  have hcol' := hcol.trans h.col_le
  have hnot : ¬ (row ≤ lo ∧ col ≤ lo') := by omega
  have hpred : ∀ n, pred (n + 1) = some n := fun _ => rfl
  rw [walk, leaf_eq h.listed.leaves.1 h.row_le, leaf_eq h.listed.leaves.2 h.col_le, h.leaf,
    h.leaf', leaf_eq h.listed.leaves.1 hrow', leaf_eq h.listed.leaves.2 hcol']
  simp [hpred, forestAt_eq hs hrow' hcol', explains_row hs hrow' hcol', explains_col hs hrow' hcol',
    hnot]

theorem walk_delete (hrow : row ≤ i) (hcol : col ≤ j) (hd : Deletes t lo row col) :
    walk p t i j (fuel + 1) row col trail = walk p t i j fuel (row - 1) col trail := by
  rw [walk_round h fuel trail hrow hcol (.inl hd.1), if_pos hd,
    pred_of_pos (Nat.zero_lt_of_lt hd.1)]
  rfl

theorem walk_insert (hrow : row ≤ i) (hcol : col ≤ j) (hd : ¬ Deletes t lo row col)
    (hi : Inserts t lo' row col) :
    walk p t i j (fuel + 1) row col trail = walk p t i j fuel row (col - 1) trail := by
  rw [walk_round h fuel trail hrow hcol (.inr hi.1), if_neg hd, if_pos hi,
    pred_of_pos (Nat.zero_lt_of_lt hi.1)]
  rfl

theorem walk_pair (hrow : row ≤ i) (hcol : col ≤ j) (hlo : lo < row) (hlo' : lo' < col)
    (hd : ¬ Deletes t lo row col) (hi : ¬ Inserts t lo' row col)
    (hleaf : p.src.leaf row = lo + 1) (hleaf' : p.dst.leaf col = lo' + 1)
    (hkind : (p.src.content row).kind = (p.dst.content col).kind) :
    walk p t i j (fuel + 1) row col trail = walk p t i j fuel (row - 1) (col - 1)
      { trail with found := (p.src.id row, p.dst.id col) :: trail.found } := by
  have hpos := Nat.zero_lt_of_lt hlo
  have hpos' := Nat.zero_lt_of_lt hlo'
  have hin := hrow.trans h.row_le
  have hin' := hcol.trans h.col_le
  rw [walk_round h fuel trail hrow hcol (.inl hlo), if_neg hd, if_neg hi, if_pos ⟨hleaf, hleaf'⟩,
    content_eq h.listed.contents.1 hpos hin, content_eq h.listed.contents.2 hpos' hin',
    Option.bind_some, Option.bind_some, if_pos hkind, pred_of_pos hpos, pred_of_pos hpos',
    id_eq hpos hin, id_eq hpos' hin']
  rfl

theorem walk_postpone (hrow : row ≤ i) (hcol : col ≤ j) (hlo : lo < row) (hlo' : lo' < col)
    (hd : ¬ Deletes t lo row col) (hi : ¬ Inserts t lo' row col)
    (hnot : ¬ (p.src.leaf row = lo + 1 ∧ p.dst.leaf col = lo' + 1)) :
    walk p t i j (fuel + 1) row col trail =
      walk p t i j fuel (p.src.leaf row - 1) (p.dst.leaf col - 1)
        { trail with pending := (row, col) :: trail.pending } := by
  rw [walk_round h fuel trail hrow hcol (.inl hlo), if_neg hd, if_neg hi, if_neg hnot,
    pred_of_pos (Nat.zero_lt_of_lt (h.lt_leaf hlo hrow)),
    pred_of_pos (Nat.zero_lt_of_lt (h.lt_leaf' hlo' hcol))]
  rfl

end Rounds

end Checked

namespace Trail

open Tables

variable {p : TreePair} {t : Tables ExactCost} {lo i lo' j row col row' col' : Nat}
  {found pending found' pending' : List (Nat × Nat)} {trail : Trail}

def extend (p : TreePair) (found pending : List (Nat × Nat)) (trail : Trail) : Trail :=
  ⟨found.map p.label ++ trail.found, pending ++ trail.pending⟩

theorem extend_extend : (trail.extend p found pending).extend p found' pending' =
    trail.extend p (found' ++ found) (pending' ++ pending) := by
  simp [extend]

/-- One step of a walk, with the reason why the cost of the cell it leaves is explained by the
cell it comes to. -/
inductive Step (p : TreePair) (t : Tables ExactCost) (lo lo' : Nat) :
    Nat → Nat → Nat → Nat → List (Nat × Nat) → List (Nat × Nat) → Prop
  | delete {row col : Nat} (hlo : lo ≤ row)
      (hcost : t.forestAt row col + 1 = t.forestAt (row + 1) col) :
      Step p t lo lo' (row + 1) col row col [] []
  | insert {row col : Nat} (hlo' : lo' ≤ col)
      (hcost : t.forestAt row col + 1 = t.forestAt row (col + 1)) :
      Step p t lo lo' row (col + 1) row col [] []
  | pair {row col : Nat} (hlo : lo ≤ row) (hlo' : lo' ≤ col)
      (hleaf : p.src.leaf (row + 1) = lo + 1) (hleaf' : p.dst.leaf (col + 1) = lo' + 1)
      (hcost : t.forestAt row col + p.price (row + 1, col + 1) = t.forestAt (row + 1) (col + 1)) :
      Step p t lo lo' (row + 1) (col + 1) row col [(row + 1, col + 1)] []
  | postpone {row col mid mid' : Nat} (hmid : p.src.leaf row = mid + 1)
      (hmid' : p.dst.leaf col = mid' + 1) (hlo : lo ≤ mid) (hlo' : lo' ≤ mid') (hlt : mid < row)
      (hlt' : mid' < col) (hnot : ¬ (p.src.leaf row = lo + 1 ∧ p.dst.leaf col = lo' + 1))
      (hcost : t.forestAt mid mid' + t.treeAt row col = t.forestAt row col) :
      Step p t lo lo' row col mid mid' [] [(row, col)]

theorem kind_eq_of_price {q : Nat × Nat} (h : p.price q ≠ ⊤) :
    (p.src.content q.1).kind = (p.dst.content q.2).kind := by
  by_contra hne
  apply h
  rw [TreePair.price, changeCost, if_pos (bne_iff_ne.2 hne)]
  rfl

theorem Walkable.pairs (h : Walkable p t lo i lo' j) (hlo : lo ≤ row) (hrow : row ≤ i)
    (hlo' : lo' ≤ col) (hcol : col ≤ j) (hmore : lo < row ∨ lo' < col)
    (hd : ¬ Deletes t lo row col) (hi : ¬ Inserts t lo' row col) :
    lo < row ∧ lo' < col ∧ pairingCost p t lo lo' row col = t.forestAt row col := by
  have hopt := h.forests row col hlo hrow hlo' hcol
  -- on the edges of the table there is nothing else to explain a cell by
  have hrow₀ : lo < row := by
    by_contra hle
    obtain rfl : row = lo := by omega
    obtain ⟨c, rfl⟩ : ∃ c, col = c + 1 := ⟨col - 1, by omega⟩
    have hprev := (h.forests row c hlo hrow (by omega) (by omega)).insert (by omega)
    exact hi ⟨by omega, hprev.unique hopt⟩
  have hcol₀ : lo' < col := by
    by_contra hle
    obtain rfl : col = lo' := by omega
    obtain ⟨r, rfl⟩ : ∃ r, row = r + 1 := ⟨row - 1, by omega⟩
    have hprev := (h.forests r col (by omega) (by omega) hlo' hcol).delete (by omega)
    exact hd ⟨by omega, hprev.unique hopt⟩
  refine ⟨hrow₀, hcol₀, ?_⟩
  obtain ⟨r, rfl⟩ : ∃ r, row = r + 1 := ⟨row - 1, by omega⟩
  obtain ⟨c, rfl⟩ : ∃ c, col = c + 1 := ⟨col - 1, by omega⟩
  have hbest := (h.optimal (t := t) (by omega) hrow (by omega) hcol
    (fun row col hrow hrowi hcol hcolj _ => h.forests row col hrow hrowi hcol hcolj)
    fun _ => h.complete.tree _ _ (by omega) (hrow.trans h.row_le) (by omega)
      (hcol.trans h.col_le)).unique hopt
  have hd' : t.forestAt r (c + 1) + 1 ≠ t.forestAt (r + 1) (c + 1) := fun he => hd ⟨hrow₀, he⟩
  have hi' : t.forestAt (r + 1) c + 1 ≠ t.forestAt (r + 1) (c + 1) := fun he => hi ⟨hcol₀, he⟩
  rcases min_choice (min (t.forestAt r (c + 1) + 1) (t.forestAt (r + 1) c + 1))
    (pairingCost p t lo lo' (r + 1) (c + 1)) with he | he
  · rw [he] at hbest
    rcases min_choice (t.forestAt r (c + 1) + 1) (t.forestAt (r + 1) c + 1) with he | he
    · exact absurd (he.symm.trans hbest) hd'
    · exact absurd (he.symm.trans hbest) hi'
  · exact he.symm.trans hbest

theorem Walkable.exists_step (h : Walkable p t lo i lo' j) (hlo : lo ≤ row) (hrow : row ≤ i)
    (hlo' : lo' ≤ col) (hcol : col ≤ j) (hmore : lo < row ∨ lo' < col) :
    ∃ row' col' found pending, Step p t lo lo' row col row' col' found pending ∧
      ∀ fuel trail,
        walk p t i j (fuel + 1) row col trail =
          walk p t i j fuel row' col' (trail.extend p found pending) ∧
        Checked.walk p t i j (fuel + 1) row col trail =
          Checked.walk p t i j fuel row' col' (trail.extend p found pending) := by
  by_cases hd : Deletes t lo row col
  · obtain ⟨r, rfl⟩ : ∃ r, row = r + 1 := ⟨row - 1, by have := hd.1; omega⟩
    exact ⟨_, _, _, _, .delete (Nat.le_of_lt_succ hd.1) hd.2, fun fuel trail =>
      ⟨walk_delete h fuel trail hd, Checked.walk_delete h fuel trail hrow hcol hd⟩⟩
  by_cases hi : Inserts t lo' row col
  · obtain ⟨c, rfl⟩ : ∃ c, col = c + 1 := ⟨col - 1, by have := hi.1; omega⟩
    exact ⟨_, _, _, _, .insert (Nat.le_of_lt_succ hi.1) hi.2, fun fuel trail =>
      ⟨walk_insert h fuel trail hd hi, Checked.walk_insert h fuel trail hrow hcol hd hi⟩⟩
  obtain ⟨hlt, hlt', hcost⟩ := h.pairs hlo hrow hlo' hcol hmore hd hi
  by_cases hroots : p.src.leaf row = lo + 1 ∧ p.dst.leaf col = lo' + 1
  · rw [pairingCost, if_pos hroots] at hcost
    have hkind : (p.src.content row).kind = (p.dst.content col).kind := by
      refine kind_eq_of_price (q := (row, col)) fun htop => ?_
      rw [htop, WithTop.add_top] at hcost
      exact (h.forests row col hlo hrow hlo' hcol).ne_top hcost.symm
    obtain ⟨r, rfl⟩ : ∃ r, row = r + 1 := ⟨row - 1, by omega⟩
    obtain ⟨c, rfl⟩ : ∃ c, col = c + 1 := ⟨col - 1, by omega⟩
    exact ⟨_, _, _, _, .pair (by omega) (by omega) hroots.1 hroots.2 hcost, fun fuel trail =>
      ⟨walk_pair h fuel trail hlt hd hi hroots.1 hroots.2 hkind,
        Checked.walk_pair h fuel trail hrow hcol hlt hlt' hd hi hroots.1 hroots.2 hkind⟩⟩
  · rw [pairingCost, if_neg hroots] at hcost
    have hleaf := h.lt_leaf hlt hrow
    have hleaf' := h.lt_leaf' hlt' hcol
    have hle := h.nested.src.leaf_le row (by omega) (hrow.trans h.row_le)
    have hle' := h.nested.dst.leaf_le col (by omega) (hcol.trans h.col_le)
    exact ⟨_, _, _, _, .postpone (by omega) (by omega) (by omega) (by omega) (by omega) (by omega)
      hroots hcost, fun fuel trail => ⟨walk_postpone h fuel trail hlt hd hi hroots,
        Checked.walk_postpone h fuel trail hrow hcol hlt hlt' hd hi hroots⟩⟩

theorem Step.covers (h : Walkable p t lo i lo' j) (hrow : row ≤ i) (hcol : col ≤ j)
    (hstep : Step p t lo lo' row col row' col' found pending)
    (hrest : p.Covers lo row' lo' col' found' pending' (t.forestAt row' col')) :
    p.Covers lo row lo' col (found' ++ found) (pending' ++ pending) (t.forestAt row col) := by
  cases hstep with
  | delete hlo hcost =>
      rw [← hcost, List.append_nil, List.append_nil]
      exact fun l hl => (hrest l hl).delete hlo
  | insert hlo' hcost =>
      rw [← hcost, List.append_nil, List.append_nil]
      exact fun l hl => (hrest l hl).insert hlo'
  | pair hlo hlo' hleaf hleaf' hcost =>
      rw [← hcost, List.append_nil]
      intro l hl
      apply ((hrest l hl).pair hlo hlo' hleaf hleaf').perm
      rw [List.append_assoc]
      exact List.perm_middle.symm
  | postpone hmid hmid' hlo hlo' hlt hlt' hnot hcost =>
      rw [← hcost, List.append_nil]
      intro l hl
      obtain ⟨l₁, _, h₁, ⟨l₂, _, c, hopt, h₂, rfl, rfl⟩, rfl⟩ := TreePair.fills_append hl
      have htree := h.complete.tree row col (by omega) (hrow.trans h.row_le) (by omega)
        (hcol.trans h.col_le)
      have hblock := block_of_le h.nested (by omega) (hrow.trans h.row_le)
        (Nat.zero_lt_of_lt hlt') (hcol.trans h.col_le)
      rw [hopt.unique htree] at h₂
      rw [hmid, hmid'] at h₂ hblock
      rw [List.append_nil, ← List.append_assoc]
      exact (hrest l₁ h₁).append h₂ hlo hlt.le hlo' hlt'.le (fun k hk hkr => hblock.lt_leaf hk hkr)
        fun k hk hkc => hblock.lt_leaf' hk hkc

/-- A step leaves fewer nodes to walk, and what it postpones are some of those it leaves. -/
theorem Step.shrinks (hstep : Step p t lo lo' row col row' col' found pending) (hlo : lo ≤ row)
    (hlo' : lo' ≤ col) :
    lo ≤ row' ∧ row' ≤ row ∧ lo' ≤ col' ∧ col' ≤ col ∧
      row' - lo + (col' - lo') < row - lo + (col - lo') ∧
      p.load pending + (row' - lo + (col' - lo')) ≤ row - lo + (col - lo') := by
  cases hstep with
  | delete | insert | pair =>
      simp only [TreePair.load, List.map_nil, List.sum_nil]
      omega
  | postpone hmid hmid' =>
      simp only [TreePair.load, TreePair.weight, List.map_cons, List.map_nil, List.sum_cons,
        List.sum_nil, hmid, hmid']
      omega

theorem Step.pending_eq_nil (hstep : Step p t lo lo' row col row' col' found pending)
    (hleaf : p.src.leaf row = lo + 1) (hleaf' : p.dst.leaf col = lo' + 1) : pending = [] := by
  cases hstep with
  | delete | insert | pair => rfl
  | postpone _ _ _ _ _ _ hnot => exact absurd ⟨hleaf, hleaf'⟩ hnot

theorem Step.pending_le (hstep : Step p t lo lo' row col row' col' found pending) :
    ∀ q ∈ pending, lo < q.1 ∧ q.1 ≤ row ∧ lo' < q.2 ∧ q.2 ≤ col := by
  cases hstep with
  | delete | insert | pair => simp
  | postpone =>
      intro q hq
      obtain rfl := List.mem_singleton.1 hq
      omega

end Trail

end TreeDelta
