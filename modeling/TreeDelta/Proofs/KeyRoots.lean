import TreeDelta.Proofs.DistanceTables

namespace TreeDelta

namespace Numbered

variable {n : Numbered} {i k x : Nat} {pre post : List Nat}

theorem mem_keyRoots : i ∈ n.keyRoots ↔
    0 < i ∧ i ≤ n.size ∧ ∀ k, i < k → k ≤ n.size → n.leaf k ≠ n.leaf i := by
  simp only [keyRoots, List.mem_filter, List.mem_range'_1, List.all_eq_true, bne_iff_ne]
  constructor
  · rintro ⟨hi, hlast⟩
    exact ⟨by omega, by omega, fun k hik hk => hlast k (by omega)⟩
  · rintro ⟨hi, hin, hlast⟩
    exact ⟨by omega, fun k hk => hlast k (by omega) (by omega)⟩

theorem pairwise_keyRoots (n : Numbered) : n.keyRoots.Pairwise (· < ·) :=
  List.Pairwise.filter _ List.pairwise_lt_range'

theorem mem_of_lt_of_split (hsplit : n.keyRoots = pre ++ i :: post) (hk : k ∈ n.keyRoots)
    (hki : k < i) : k ∈ pre := by
  have hsorted := n.pairwise_keyRoots
  rw [hsplit] at hk hsorted
  rcases List.mem_append.1 hk with hk | hk
  · exact hk
  · rcases List.mem_cons.1 hk with rfl | hk
    · exact absurd hki (Nat.lt_irrefl k)
    · have := (List.pairwise_cons.1 (List.pairwise_append.1 hsorted).2.1).1 k hk
      omega

theorem exists_keyRoot (hx : 0 < x) (hxn : x ≤ n.size) :
    ∃ i ∈ n.keyRoots, x ≤ i ∧ n.leaf x = n.leaf i := by
  -- towards the end of the numbering, as long as there is a later node with the same leaf
  induction hd : n.size - x using Nat.strong_induction_on generalizing x with
  | _ d ih =>
      by_cases hlast : ∀ k, x < k → k ≤ n.size → n.leaf k ≠ n.leaf x
      · exact ⟨x, mem_keyRoots.2 ⟨hx, hxn, hlast⟩, le_rfl, rfl⟩
      · push Not at hlast
        obtain ⟨k, hxk, hk, hleaf⟩ := hlast
        obtain ⟨i, hi, hki, hleaf'⟩ := ih (n.size - k) (by omega) (by omega) hk rfl
        exact ⟨i, hi, by omega, hleaf.symm.trans hleaf'⟩

theorem keyRoot_le (hn : n.Nested) (hi : i ∈ n.keyRoots) (hk : k ∈ n.keyRoots)
    (hix : n.leaf i ≤ x) (hxi : x ≤ i) (hleaf : n.leaf x = n.leaf k) : k ≤ i := by
  obtain ⟨hi₀, hin, hlast⟩ := mem_keyRoots.1 hi
  obtain ⟨hk₀, hkn, -⟩ := mem_keyRoots.1 hk
  by_contra hlt
  have hwithin := hn.leaf_le_leaf i x hi₀ hin hix hxi
  have hx := hn.leaf_le x (Nat.lt_of_lt_of_le (hn.leaf_pos i hi₀ hin) hix) (hxi.trans hin)
  have hback := hn.leaf_le_leaf k i hk₀ hkn (by omega) (by omega)
  exact hlast k (by omega) hkn (by omega)

theorem getLast?_keyRoots (hn : 0 < n.size) : n.keyRoots.getLast? = some n.size := by
  obtain ⟨m, hm⟩ := Nat.exists_eq_add_one.2 hn
  rw [keyRoots]
  simp only [hm, List.range'_concat, List.filter_append]
  simp [Nat.add_comm]

end Numbered

namespace Tables

variable {p : TreePair} {t : Tables ExactCost} {i j : Nat}

def Settled (p : TreePair) (t : Tables ExactCost) (i j : Nat) : Prop :=
  ∀ x y, 0 < x → x ≤ i → 0 < y → y ≤ j → p.src.leaf x = p.src.leaf i →
    p.dst.leaf y = p.dst.leaf j → TreeRight p t x y

def ForestsRight (p : TreePair) (t : Tables ExactCost) (i j : Nat) : Prop :=
  ∀ row col, p.src.leaf i - 1 ≤ row → row ≤ i → p.dst.leaf j - 1 ≤ col → col ≤ j →
    p.Optimal (p.src.leaf i - 1) row (p.dst.leaf j - 1) col (t.forestAt row col)

/-- For the key roots in `rows` everything is done, and for `i` the key roots in `cols` are. -/
structure Progress (p : TreePair) (rows : List Nat) (i : Nat) (cols : List Nat)
    (t : Tables ExactCost) : Prop where
  shaped : t.Shaped p
  above : ∀ i' ∈ rows, ∀ j ∈ p.dst.keyRoots, Settled p t i' j
  left : ∀ j ∈ cols, Settled p t i j
  latest : ∀ j, cols.getLast? = some j → ForestsRight p t i j

variable {rows rows' cols cols' : List Nat}

theorem Progress.prepared (h : Progress p rows i cols t) (hp : p.Nested)
    (hrows : p.src.keyRoots = rows ++ i :: rows') (hcols : p.dst.keyRoots = cols ++ j :: cols') :
    Prepared p (p.src.leaf i - 1) i (p.dst.leaf j - 1) j t := by
  have hi : i ∈ p.src.keyRoots := by simp [hrows]
  have hj : j ∈ p.dst.keyRoots := by simp [hcols]
  obtain ⟨hi₀, hin, -⟩ := Numbered.mem_keyRoots.1 hi
  obtain ⟨hj₀, hjn, -⟩ := Numbered.mem_keyRoots.1 hj
  have hblock := block_of_le hp hi₀ hin hj₀ hjn
  have hleaf := hblock.leaf
  have hleaf' := hblock.leaf'
  refine ⟨hblock, fun x y hx hxi hy hyj hnot => ?_⟩
  -- the key roots of `x` and `y` were done before `i` and `j`
  obtain ⟨r, hr, hxr, hleafr⟩ := Numbered.exists_keyRoot (n := p.src) (x := x) (by omega) (by omega)
  obtain ⟨s, hs, hys, hleafs⟩ := Numbered.exists_keyRoot (n := p.dst) (x := y) (by omega) (by omega)
  have hri := Numbered.keyRoot_le hp.src hi hr (by omega) hxi hleafr
  have hsj := Numbered.keyRoot_le hp.dst hj hs (by omega) hyj hleafs
  rcases Nat.lt_or_eq_of_le hri with hlt | rfl
  · exact h.above r (Numbered.mem_of_lt_of_split hrows hr hlt) s hs x y (by omega) hxr (by omega)
      hys hleafr hleafs
  · have hlt : s < j := by
      refine Nat.lt_of_le_of_ne hsj ?_
      rintro rfl
      exact hnot (by omega)
    exact h.left s (Numbered.mem_of_lt_of_split hcols hs hlt) x y (by omega) hxr (by omega) hys
      hleafr hleafs

theorem Progress.fillForest (h : Progress p rows i cols t) (hp : p.Nested)
    (hrows : p.src.keyRoots = rows ++ i :: rows') (hcols : p.dst.keyRoots = cols ++ j :: cols') :
    Progress p rows i (cols ++ [j]) (t.fillForest p i j) := by
  have hfilled := filled_fillForest (h.prepared hp hrows hcols) h.shaped
  have hkeep : ∀ i' ∈ p.src.keyRoots, ∀ j' ∈ p.dst.keyRoots, Settled p t i' j' →
      Settled p (t.fillForest p i j) i' j' := by
    intro i' hi' j' hj' hsettled x y hx hxi hy hyj hleaf hleaf'
    have hin := (Numbered.mem_keyRoots.1 hi').2.1
    have hjn := (Numbered.mem_keyRoots.1 hj').2.1
    exact hfilled.kept x y (hxi.trans hin) (hyj.trans hjn) (hsettled x y hx hxi hy hyj hleaf hleaf')
  constructor
  case shaped => exact hfilled.shaped
  case above =>
    intro i' hi' j' hj'
    exact hkeep i' (by simp [hrows, hi']) j' hj' (h.above i' hi' j' hj')
  case left =>
    intro j' hj'
    rcases List.mem_append.1 hj' with hj' | hj'
    · exact hkeep i (by simp [hrows]) j' (by simp [hcols, hj']) (h.left j' hj')
    · rw [List.mem_singleton.1 hj']
      exact hfilled.fresh
  case latest =>
    intro j' hj'
    rw [List.getLast?_concat] at hj'
    rw [← Option.some.inj hj']
    exact hfilled.forest

structure Complete (p : TreePair) (t : Tables ExactCost) : Prop where
  shaped : t.Shaped p
  tree : ∀ x y, 0 < x → x ≤ p.src.size → 0 < y → y ≤ p.dst.size → TreeRight p t x y

theorem Complete.prepared (h : Complete p t) (hp : p.Nested) (hi : 0 < i) (hin : i ≤ p.src.size)
    (hj : 0 < j) (hjn : j ≤ p.dst.size) :
    Prepared p (p.src.leaf i - 1) i (p.dst.leaf j - 1) j t := by
  refine ⟨block_of_le hp hi hin hj hjn, fun x y hx hxi hy hyj _ => ?_⟩
  exact h.tree x y (by omega) (hxi.trans hin) (by omega) (hyj.trans hjn)

theorem complete_ofPair (hp : p.Nested) (hs : 0 < p.src.size) (hd : 0 < p.dst.size) :
    Complete p (ofPair p) ∧ ForestsRight p (ofPair p) p.src.size p.dst.size := by
  have hlast := Numbered.getLast?_keyRoots hd
  have hend := foldl_induct (l := p.src.keyRoots) (s := (blank p : Tables ExactCost))
    (f := fun t i => p.dst.keyRoots.foldl (fun t j => t.fillForest p i j) t)
    (I := fun rows t => t.Shaped p ∧ (∀ i ∈ rows, ∀ j ∈ p.dst.keyRoots, Settled p t i j) ∧
      ∀ i, rows.getLast? = some i → ForestsRight p t i p.dst.size)
    ⟨shaped_blank p, by simp, by simp⟩ fun rows i rows' t hrows hI => by
      have hrow := foldl_induct (l := p.dst.keyRoots) (s := t) (f := fun t j => t.fillForest p i j)
        (I := fun cols t => Progress p rows i cols t) ⟨hI.1, hI.2.1, by simp, by simp⟩
        fun cols j cols' t hcols h => h.fillForest hp hrows hcols
      refine ⟨hrow.shaped, fun i' hi' j hj => ?_, fun i' hi' => ?_⟩
      · rcases List.mem_append.1 hi' with hi' | hi'
        · exact hrow.above i' hi' j hj
        · rw [List.mem_singleton.1 hi']
          exact hrow.left j hj
      · rw [List.getLast?_concat] at hi'
        rw [← Option.some.inj hi']
        exact hrow.latest p.dst.size hlast
  obtain ⟨hshaped, hsettled, hforests⟩ := hend
  refine ⟨⟨hshaped, fun x y hx hxn hy hyn => ?_⟩, hforests _ (Numbered.getLast?_keyRoots hs)⟩
  obtain ⟨i, hi, hxi, hleaf⟩ := Numbered.exists_keyRoot hx hxn
  obtain ⟨j, hj, hyj, hleaf'⟩ := Numbered.exists_keyRoot hy hyn
  exact hsettled i hi j hj x y hx hxi hy hyj hleaf hleaf'

theorem optimal_distance (hp : p.Nested) (hs : 0 < p.src.size) (hd : 0 < p.dst.size) :
    p.Optimal 0 p.src.size 0 p.dst.size ((ofPair p).distance p) := by
  have hroots := (complete_ofPair hp hs hd).1.tree _ _ hs le_rfl hd le_rfl
  rw [TreeRight, hp.src.leaf_size, hp.dst.leaf_size] at hroots
  exact hroots

end Tables

end TreeDelta
