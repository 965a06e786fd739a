import TreeDelta.Proofs.KeyRoots

namespace TreeDelta

namespace TreePair

/-- The distance of the forests `lo + 1, …, hi` and `lo' + 1, …, hi'`. The last node on one side is
left out, or the two last nodes are paired; in the latter case what stands before their blocks and
what is below them in their blocks are two problems of their own. Blocks end at their nodes, so the
bounds `hi` and `hi'` on where they begin make no difference. -/
def forestDistance (p : TreePair) (lo hi lo' hi' : Nat) : ExactCost :=
  if hi ≤ lo then
    if hi' ≤ lo' then 0 else p.forestDistance lo hi lo' (hi' - 1) + 1
  else if hi' ≤ lo' then p.forestDistance lo (hi - 1) lo' hi' + 1
  else
    let mid := min (p.src.leaf hi) hi - 1
    let mid' := min (p.dst.leaf hi') hi' - 1
    min (min (p.forestDistance lo (hi - 1) lo' hi' + 1) (p.forestDistance lo hi lo' (hi' - 1) + 1))
      (p.forestDistance lo mid lo' mid' +
        (p.forestDistance mid (hi - 1) mid' (hi' - 1) + p.price (hi, hi')))
termination_by hi + hi'

variable {p : TreePair} {lo hi lo' hi' i j : Nat}

theorem forestDistance_empty (p : TreePair) (lo lo' : Nat) :
    p.forestDistance lo lo lo' lo' = 0 := by
  rw [forestDistance, if_pos le_rfl, if_pos le_rfl]

theorem forestDistance_delete (hlo : lo ≤ hi) :
    p.forestDistance lo (hi + 1) lo' lo' = p.forestDistance lo hi lo' lo' + 1 := by
  rw [forestDistance, if_neg (by omega), if_pos le_rfl]
  rfl

theorem forestDistance_insert (hlo' : lo' ≤ hi') :
    p.forestDistance lo lo lo' (hi' + 1) = p.forestDistance lo lo lo' hi' + 1 := by
  rw [forestDistance, if_pos le_rfl, if_neg (by omega)]
  rfl

def Uncut (n : Numbered) (lo hi : Nat) : Prop := ∀ k, lo < k → k ≤ hi → lo < n.leaf k

theorem forestDistance_pair (hlo : lo ≤ hi) (hlo' : lo' ≤ hi')
    (hleaf : p.src.leaf (hi + 1) ≤ hi + 1) (hleaf' : p.dst.leaf (hi' + 1) ≤ hi' + 1) :
    p.forestDistance lo (hi + 1) lo' (hi' + 1) =
      min (min (p.forestDistance lo hi lo' (hi' + 1) + 1)
          (p.forestDistance lo (hi + 1) lo' hi' + 1))
        (p.forestDistance lo (p.src.leaf (hi + 1) - 1) lo' (p.dst.leaf (hi' + 1) - 1) +
          (p.forestDistance (p.src.leaf (hi + 1) - 1) hi (p.dst.leaf (hi' + 1) - 1) hi' +
            p.price (hi + 1, hi' + 1))) := by
  rw [forestDistance, if_neg (by omega), if_neg (by omega)]
  dsimp only
  rw [Nat.min_eq_left hleaf, Nat.min_eq_left hleaf']
  rfl

theorem Nested.optimal_forestDistance (hp : p.Nested) (hlo : lo ≤ hi) (hhi : hi ≤ p.src.size)
    (hlo' : lo' ≤ hi') (hhi' : hi' ≤ p.dst.size) (hrow : Uncut p.src lo hi)
    (hcol : Uncut p.dst lo' hi') :
    p.Optimal lo hi lo' hi' (p.forestDistance lo hi lo' hi') := by
  -- on the number of the last nodes, as the recurrence goes
  induction hn : hi + hi' using Nat.strong_induction_on generalizing lo hi lo' hi' with
  | _ n ih =>
      rcases Nat.eq_or_lt_of_le hlo with rfl | hlt
      · rcases Nat.eq_or_lt_of_le hlo' with rfl | hlt'
        · rw [forestDistance_empty]
          exact .empty p lo lo'
        · obtain ⟨hi', rfl⟩ : ∃ k, hi' = k + 1 := ⟨hi' - 1, by omega⟩
          rw [forestDistance_insert (by omega)]
          exact (ih _ (by omega) le_rfl hhi (by omega) (by omega) hrow
            (fun k hk hkh => hcol k hk (by omega)) rfl).insert (by omega)
      · obtain ⟨hi, rfl⟩ : ∃ k, hi = k + 1 := ⟨hi - 1, by omega⟩
        rcases Nat.eq_or_lt_of_le hlo' with rfl | hlt'
        · rw [forestDistance_delete (by omega)]
          exact (ih _ (by omega) (by omega) (by omega) le_rfl hhi'
            (fun k hk hkh => hrow k hk (by omega)) hcol rfl).delete (by omega)
        · obtain ⟨hi', rfl⟩ : ∃ k, hi' = k + 1 := ⟨hi' - 1, by omega⟩
          have hle := hp.src.leaf_le (hi + 1) (by omega) hhi
          have hle' := hp.dst.leaf_le (hi' + 1) (by omega) hhi'
          rw [forestDistance_pair (by omega) (by omega) hle hle']
          have hmid := hrow (hi + 1) hlt le_rfl
          have hmid' := hcol (hi' + 1) hlt' le_rfl
          -- nothing in the block of a last node begins before the block does
          have hblock : ∀ k, p.src.leaf (hi + 1) - 1 < k → k ≤ hi + 1 →
              p.src.leaf (hi + 1) - 1 < p.src.leaf k := by
            intro k hk hkh
            have := hp.src.leaf_le_leaf (hi + 1) k (by omega) hhi (by omega) hkh
            omega
          have hblock' : ∀ k, p.dst.leaf (hi' + 1) - 1 < k → k ≤ hi' + 1 →
              p.dst.leaf (hi' + 1) - 1 < p.dst.leaf k := by
            intro k hk hkh
            have := hp.dst.leaf_le_leaf (hi' + 1) k (by omega) hhi' (by omega) hkh
            omega
          refine .lastPair (by omega) (by omega) (by omega) (by omega) (by omega) (by omega) hblock
            hblock' ?_ ?_ ?_ ?_
          · exact ih _ (by omega) (by omega) (by omega) hlo' hhi'
              (fun k hk hkh => hrow k hk (by omega)) hcol rfl
          · exact ih _ (by omega) hlo hhi (by omega) (by omega) hrow
              (fun k hk hkh => hcol k hk (by omega)) rfl
          · exact ih _ (by omega) (by omega) (by omega) (by omega) (by omega)
              (fun k hk hkh => hrow k hk (by omega)) (fun k hk hkh => hcol k hk (by omega)) rfl
          · exact ih _ (by omega) (by omega) (by omega) (by omega) (by omega)
              (fun k hk hkh => hblock k hk (by omega)) (fun k hk hkh => hblock' k hk (by omega)) rfl

def Indexes (p : TreePair) (q : Nat × Nat) : Prop :=
  (0 < q.1 ∧ q.1 ≤ p.src.size) ∧ 0 < q.2 ∧ q.2 ≤ p.dst.size

end TreePair

namespace Grid

theorem Shaped.ext {κ : Type} {g h : Grid κ} {rows cols : Nat} (fallback : κ)
    (hg : g.Shaped rows cols) (hh : h.Shaped rows cols)
    (heq : ∀ i j, i < rows → j < cols → g.get fallback i j = h.get fallback i j) : g = h := by
  obtain ⟨gcols, gcells⟩ := g
  obtain ⟨hcols, hcells⟩ := h
  obtain ⟨rfl, hsize⟩ := hg
  obtain ⟨rfl, hsize'⟩ := hh
  congr 1
  refine Array.ext (hsize.trans hsize'.symm) fun n hn hn' => ?_
  dsimp only at hsize hsize'
  rw [hsize] at hn
  have hpos : 0 < hcols := Nat.pos_of_mul_pos_left (Nat.zero_lt_of_lt hn)
  have hcell := heq (n / hcols) (n % hcols) (Nat.div_lt_of_lt_mul (Nat.mul_comm rows hcols ▸ hn))
    (Nat.mod_lt n hpos)
  simpa [get, Array.getD, Nat.div_add_mod', hsize, hsize', hn] using hcell

end Grid

namespace Tables

variable {p : TreePair} {t t₀ : Tables ExactCost} {i j x y : Nat}

structure Framed (p : TreePair) (t₀ t : Tables ExactCost) : Prop where
  shaped : t.Shaped p
  border : ∀ x y, x ≤ p.src.size → y ≤ p.dst.size → x = 0 ∨ y = 0 → t.treeAt x y = t₀.treeAt x y

theorem Framed.setForest (h : Framed p t₀ t) (i j : Nat) (v : ExactCost) :
    Framed p t₀ (t.setForest i j v) :=
  ⟨h.shaped.setForest i j v, h.border⟩

theorem Framed.fillCell (h : Framed p t₀ t) (li lj : Nat) (hi : 0 < i) (hj : 0 < j)
    (hjn : j ≤ p.dst.size) : Framed p t₀ (t.fillCell p li lj i j) := by
  rw [Tables.fillCell]
  dsimp only
  split
  · refine ⟨h.shaped.setBoth .., fun x y hx hy hzero => ?_⟩
    rw [treeAt_setBoth h.shaped hjn hx hy, if_neg (by omega)]
    exact h.border x y hx hy hzero
  · exact h.setForest ..

theorem framed_fillForest (hp : p.Nested) (hq : p.Indexes (i, j)) (ht : t.Shaped p) :
    Framed p t (t.fillForest p i j) := by
  obtain ⟨⟨hi, hin⟩, hj, hjn⟩ := hq
  have hleaf := hp.src.leaf_pos i hi hin
  have hleaf' := hp.dst.leaf_pos j hj hjn
  have hle := hp.src.leaf_le i hi hin
  have hle' := hp.dst.leaf_le j hj hjn
  have hcorner : Framed p t (t.setForest (p.src.leaf i - 1) (p.dst.leaf j - 1) 0) :=
    Framed.setForest ⟨ht, fun _ _ _ _ _ => rfl⟩ ..
  have hrows := foldl_span_induct (I := fun _ t' => Framed p t t')
    (f := fun t' di => t'.setForest di (p.dst.leaf j - 1)
      (t'.forestAt (di - 1) (p.dst.leaf j - 1) + 1))
    (show p.src.leaf i ≤ i + 1 by omega) hcorner fun _ _ _ _ h => h.setForest ..
  have hcols := foldl_span_induct (I := fun _ t' => Framed p t t')
    (f := fun t' dj => t'.setForest (p.src.leaf i - 1) dj
      (t'.forestAt (p.src.leaf i - 1) (dj - 1) + 1))
    (show p.dst.leaf j ≤ j + 1 by omega) hrows fun _ _ _ _ h => h.setForest ..
  refine foldl_span_induct (I := fun _ t' => Framed p t t') (by omega) hcols ?_
  intro di t' hdi _ h
  refine foldl_span_induct (I := fun _ t' => Framed p t t') (by omega) h ?_
  intro dj t'' hdj hdj' h
  exact h.fillCell _ _ (by omega) (by omega) (by omega)

namespace Complete

theorem filled_fillForest (h : Complete p t) (hp : p.Nested) (hq : p.Indexes (i, j)) :
    Filled p i j t (t.fillForest p i j) :=
  Tables.filled_fillForest (h.prepared hp hq.1.1 hq.1.2 hq.2.1 hq.2.2) h.shaped

theorem of_tree (h : Complete p t) {t' : Tables ExactCost} (ht : t'.Shaped p)
    (htree : t'.tree = t.tree) : Complete p t' := by
  refine ⟨ht, fun x y hx hxn hy hyn => ?_⟩
  rw [TreeRight, treeAt, htree]
  exact h.tree x y hx hxn hy hyn

theorem tree_fillForest (h : Complete p t) (hp : p.Nested) (hq : p.Indexes (i, j)) :
    (t.fillForest p i j).tree = t.tree := by
  have hfilled := h.filled_fillForest hp hq
  have hframed := framed_fillForest hp hq h.shaped
  refine hfilled.shaped.tree.ext EditCost.zero h.shaped.tree fun x y hx hy => ?_
  have hx := Nat.le_of_lt_succ hx
  have hy := Nat.le_of_lt_succ hy
  by_cases hzero : x = 0 ∨ y = 0
  · exact hframed.border x y hx hy hzero
  · -- both values are the least cost for the two trees
    have hright := h.tree x y (by omega) hx (by omega) hy
    exact (hfilled.kept x y hx hy hright).unique hright

theorem forestAt_fillForest (h : Complete p t) (hp : p.Nested) (hq : p.Indexes (i, j))
    (hx : p.src.leaf i ≤ x + 1) (hxi : x ≤ i) (hy : p.dst.leaf j ≤ y + 1) (hyj : y ≤ j) :
    (t.fillForest p i j).forestAt x y =
      p.forestDistance (p.src.leaf i - 1) x (p.dst.leaf j - 1) y := by
  have hblock := block_of_le hp hq.1.1 hq.1.2 hq.2.1 hq.2.2
  have hcell := (h.filled_fillForest hp hq).forest x y (by omega) hxi (by omega) hyj
  refine hcell.unique (hp.optimal_forestDistance (by omega) (hxi.trans hblock.row_le) (by omega)
    (hyj.trans hblock.col_le) (fun k hk hkx => ?_) fun k hk hky => ?_)
  · exact hblock.lt_leaf hk (hkx.trans hxi)
  · exact hblock.lt_leaf' hk (hky.trans hyj)

end Complete

def refill (p : TreePair) (pairs : List (Nat × Nat)) (t : Tables ExactCost) : Tables ExactCost :=
  pairs.foldl (fun t q => t.fillForest p q.1 q.2) t

theorem Complete.refill (h : Complete p t) (hp : p.Nested) {pairs : List (Nat × Nat)}
    (hpairs : ∀ q ∈ pairs, p.Indexes q) :
    Complete p (t.refill p pairs) ∧ (t.refill p pairs).tree = t.tree := by
  induction pairs generalizing t with
  | nil => exact ⟨h, rfl⟩
  | cons q pairs ih =>
      rw [List.forall_mem_cons] at hpairs
      have htree := h.tree_fillForest hp hpairs.1
      have hshaped := (h.filled_fillForest hp hpairs.1).shaped
      obtain ⟨hcomplete, hsame⟩ := ih (h.of_tree hshaped htree) hpairs.2
      exact ⟨hcomplete, hsame.trans htree⟩

end Tables

open Tables in
/-- Once the distances are computed, filling the forests of any nodes again, in any order, leaves
the whole tree table as it is; and over whatever the forest table holds by then, filling those of
`i` and `j` gives each of their cells the distance of its two forests. -/
theorem refill_harmless [TokenHash] {src dst : Tree} {a b : NodeId} (hs : src.Surveyed)
    (hd : dst.Surveyed)
    (ha : src.Reaches a) (hb : dst.Reaches b) :
    ∃ p, TreePair.ofSubtrees src dst a b = .ok p ∧
      ∀ pairs, (∀ q ∈ pairs, p.Indexes q) →
        ((ofPair p).refill p pairs).tree = (ofPair p).tree ∧
        ∀ i j, p.Indexes (i, j) →
          ∀ forest : Grid ExactCost, forest.Shaped (p.src.size + 1) (p.dst.size + 1) →
          ∀ x y, p.src.leaf i ≤ x + 1 → x ≤ i → p.dst.leaf j ≤ y + 1 → y ≤ j →
            (fillForest p i j ⟨((ofPair p).refill p pairs).tree, forest⟩).forestAt x y =
              p.forestDistance (p.src.leaf i - 1) x (p.dst.leaf j - 1) y := by
  obtain ⟨p, hp, h⟩ := TreePair.gives_ofSubtrees hs hd ha hb
  have hcomplete := (complete_ofPair h.nested h.src.size_pos h.dst.size_pos).1
  refine ⟨p, hp, fun pairs hpairs => ?_⟩
  obtain ⟨hagain, htree⟩ := hcomplete.refill h.nested hpairs
  refine ⟨htree, fun i j hq forest hforest x y hx hxi hy hyj => ?_⟩
  have hshaped : Tables.Shaped p ⟨((ofPair p).refill p pairs).tree, forest⟩ :=
    ⟨hagain.shaped.tree, hforest⟩
  exact (hagain.of_tree hshaped rfl).forestAt_fillForest h.nested hq hx hxi hy hyj

attribute [local instance] TokenHash.constant

/-- Two small trees, with the forests of smaller and larger subtrees filled again and the forest
table overwritten. -/
theorem refill_harmless_twigs :
    ∃ p, TreePair.ofSubtrees (twig 0 1).measured (twig 2 1).measured 1 1 = .ok p ∧
      p.Indexes (2, 2) ∧
      ((Tables.ofPair p).refill p [(2, 1), (1, 2)]).tree = (Tables.ofPair p).tree ∧
      (Tables.fillForest p 2 2 ⟨((Tables.ofPair p).refill p [(2, 1), (1, 2)]).tree,
        Grid.filled 3 3 ⊤⟩).forestAt 2 2 = p.forestDistance 0 2 0 2 := by
  obtain ⟨p, hp, hharmless⟩ := refill_harmless (sound_twig 0 1).surveyed (sound_twig 2 1).surveyed
    (a := 1) (b := 1) .refl .refl
  have hnumbers : TreePair.ofSubtrees (twig 0 1).measured (twig 2 1).measured 1 1 =
      .ok ⟨⟨#[2, 1], #[⟨.named 1, none⟩, ⟨.named 0, none⟩], #[0, 1, 1]⟩,
        ⟨#[2, 1], #[⟨.named 1, none⟩, ⟨.named 2, none⟩], #[0, 1, 1]⟩⟩ := by rfl
  obtain rfl := Except.ok.inj (hp.symm.trans hnumbers)
  obtain ⟨htree, hforest⟩ := hharmless [(2, 1), (1, 2)] (by simp [TreePair.Indexes, Numbered.size])
  exact ⟨_, hp, by simp [TreePair.Indexes, Numbered.size], htree,
    hforest 2 2 (by simp [TreePair.Indexes, Numbered.size]) _ (Grid.shaped_filled 3 3 ⊤) 2 2
      (by decide) le_rfl (by decide) le_rfl⟩

end TreeDelta
