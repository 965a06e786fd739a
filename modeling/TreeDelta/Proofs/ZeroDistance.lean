import Mathlib.Order.Interval.Finset.Nat
import Mathlib.Tactic.Positivity
import TreeDelta.Proofs.BacktraceSound
import TreeDelta.Proofs.Profiles

namespace TreeDelta

theorem relabel_pos (distance total : Nat) :
    0 < (EditCost.relabel distance total : ExactCost) := by
  have hfloor : (0 : ℚ) < 1 / 2 ^ 52 := by positivity
  exact WithTop.coe_lt_coe.2 (lt_max_of_lt_right hfloor)

theorem changeCost_nonneg (x y : Content) : 0 ≤ (changeCost x y : ExactCost) := by
  rw [changeCost]
  split
  · exact le_top
  · split
    · exact le_rfl
    · split
      · exact le_rfl
      · exact (relabel_pos _ _).le
    · exact zero_le_one

theorem changeCost_eq_zero_iff {x y : Content} : (changeCost x y : ExactCost) = 0 ↔ x = y := by
  obtain ⟨kind, label⟩ := x
  obtain ⟨kind', label'⟩ := y
  have hzero : (EditCost.zero : ExactCost) = 0 := rfl
  have hunit : (EditCost.unit : ExactCost) ≠ 0 := one_ne_zero
  have hinfinite : (EditCost.infinite : ExactCost) ≠ 0 := WithTop.top_ne_zero
  have hrelabel (d t : Nat) : (EditCost.relabel d t : ExactCost) ≠ 0 := (relabel_pos d t).ne'
  by_cases hkind : kind = kind'
  · cases label with
    | none => cases label' <;> simp [changeCost, hkind, hzero, hunit]
    | some l =>
        cases label' with
        | none => simp [changeCost, hkind, hunit]
        | some l' => by_cases hl : l = l' <;> simp [changeCost, hkind, hl, hzero, hrelabel]
  · simp [changeCost, hkind, hinfinite]

namespace Numbered.Numbers

variable {n : Numbered} {t : Tree} {a : NodeId} {i : Nat}

theorem length_profile (h : n.Numbers t a) : (t.forest.contentTree a).profile.length = n.size := by
  rw [Rose.length_profile, Forest.contentTree, Rose.size_map, h.size_subtree]

/-- An entry of the profile tells the content of a node and the length of its block. -/
theorem getElem?_profile (h : n.Numbers t a) (hi : 0 < i) (hin : i ≤ n.size) :
    (t.forest.contentTree a).profile[i - 1]? = some (n.content i, i + 1 - n.leaf i) := by
  have hadd := h.leaf_add i hi hin
  have hsize : (t.forest.subtree (n.id i)).size = i + 1 - n.leaf i := by omega
  rw [h.sound.forest.profile_contentTree, List.getElem?_map, h.getElem?_id hi hin,
    h.content_eq hi hin, ← hsize]
  rfl

end Numbered.Numbers

namespace TreePair

variable {p : TreePair} {src dst : Tree} {a b : NodeId} {m : Finset (Nat × Nat)} {c : ExactCost}

/-- The two trees have the same contents and the same blocks at every number. -/
structure Twins (p : TreePair) : Prop where
  size : p.src.size = p.dst.size
  content : ∀ i, 0 < i → i ≤ p.src.size → p.src.content i = p.dst.content i
  leaf : ∀ i, 0 < i → i ≤ p.src.size → p.src.leaf i = p.dst.leaf i

theorem Numbers.twins_iff_contentTree (h : p.Numbers src dst a b) :
    p.Twins ↔ src.forest.contentTree a = dst.forest.contentTree b := by
  rw [← Rose.profile_inj]
  constructor
  · intro ht
    apply List.ext_getElem?
    intro k
    by_cases hk : k < p.src.size
    · have hsrc := h.src.getElem?_profile (Nat.succ_pos k) hk
      have hdst := h.dst.getElem?_profile (Nat.succ_pos k) (ht.size ▸ hk)
      rw [Nat.succ_sub_one] at hsrc hdst
      rw [hsrc, hdst, ht.content _ (Nat.succ_pos k) hk, ht.leaf _ (Nat.succ_pos k) hk]
    · rw [List.getElem?_eq_none (by rw [h.src.length_profile]; omega),
        List.getElem?_eq_none (by rw [h.dst.length_profile, ← ht.size]; omega)]
  · intro heq
    have hsize : p.src.size = p.dst.size := by
      rw [← h.src.length_profile, heq, h.dst.length_profile]
    have hentry : ∀ i, 0 < i → i ≤ p.src.size → p.src.content i = p.dst.content i ∧
        i + 1 - p.src.leaf i = i + 1 - p.dst.leaf i := by
      intro i hi hin
      have hsrc := h.src.getElem?_profile hi hin
      rw [heq, h.dst.getElem?_profile hi (hsize ▸ hin)] at hsrc
      simpa [eq_comm] using hsrc
    refine ⟨hsize, fun i hi hin => (hentry i hi hin).1, fun i hi hin => ?_⟩
    have := (hentry i hi hin).2
    have := h.src.leaf_le hi hin
    have := h.dst.leaf_le hi (hsize ▸ hin)
    omega

section Counting

variable {f : Nat × Nat → Nat} {n k : Nat} (hinj : Set.InjOn f m)
  (hrange : ∀ q ∈ m, 0 < f q ∧ f q ≤ n)
include hinj hrange

theorem card_le_of_range : m.card ≤ n := by
  have hsub : m.image f ⊆ Finset.Ioc 0 n := by
    intro i hi
    obtain ⟨q, hq, rfl⟩ := Finset.mem_image.1 hi
    exact Finset.mem_Ioc.2 (hrange q hq)
  have hle := Finset.card_le_card hsub
  rwa [Finset.card_image_of_injOn hinj, Nat.card_Ioc] at hle

theorem card_filter_le_eq (hcard : m.card = n) (hk : k ≤ n) :
    (m.filter fun q => f q ≤ k).card = k := by
  have hall : m.image f = Finset.Ioc 0 n := by
    apply Finset.eq_of_subset_of_card_le
    · intro i hi
      obtain ⟨q, hq, rfl⟩ := Finset.mem_image.1 hi
      exact Finset.mem_Ioc.2 (hrange q hq)
    · rw [Finset.card_image_of_injOn hinj, Nat.card_Ioc, hcard, Nat.sub_zero]
  have hupTo : (m.filter fun q => f q ≤ k).image f = Finset.Ioc 0 k := by
    ext i
    have hi : i ∈ m.image f ↔ 0 < i ∧ i ≤ n := by rw [hall, Finset.mem_Ioc]
    simp only [Finset.mem_image, Finset.mem_filter, Finset.mem_Ioc] at hi ⊢
    constructor
    · rintro ⟨q, ⟨hq, hle⟩, rfl⟩
      exact ⟨(hrange q hq).1, hle⟩
    · rintro ⟨hpos, hle⟩
      obtain ⟨q, hq, rfl⟩ := hi.2 ⟨hpos, hle.trans hk⟩
      exact ⟨q, ⟨hq, hle⟩, rfl⟩
  rw [← Finset.card_image_of_injOn (hinj.mono (Finset.filter_subset _ _)), hupTo, Nat.card_Ioc,
    Nat.sub_zero]

end Counting

def diagonal (n : Nat) : Finset (Nat × Nat) := (Finset.Ioc 0 n).image fun i => (i, i)

theorem mem_diagonal {n : Nat} {q : Nat × Nat} :
    q ∈ diagonal n ↔ q.1 = q.2 ∧ 0 < q.1 ∧ q.1 ≤ n := by
  obtain ⟨i, j⟩ := q
  simp only [diagonal, Finset.mem_image, Finset.mem_Ioc, Prod.mk.injEq]
  constructor
  · rintro ⟨k, hk, rfl, rfl⟩
    exact ⟨rfl, hk⟩
  · rintro ⟨rfl, hi⟩
    exact ⟨i, hi, rfl, rfl⟩

theorem card_diagonal (n : Nat) : (diagonal n).card = n := by
  rw [diagonal, Finset.card_image_of_injective _ fun i j he => congrArg Prod.fst he, Nat.card_Ioc,
    Nat.sub_zero]

namespace Aligns

section Whole

variable (h : p.Aligns 0 p.src.size 0 p.dst.size m)
include h

theorem injOn_rows : Set.InjOn Prod.fst (m : Set (Nat × Nat)) :=
  fun _ hq _ hr he => h.eq_of_row hq hr he

theorem injOn_cols : Set.InjOn Prod.snd (m : Set (Nat × Nat)) :=
  fun _ hq _ hr he => h.eq_of_col hq hr he

theorem cost_eq : p.cost 0 p.src.size 0 p.dst.size m =
    ((p.src.size - m.card : Nat) : ExactCost) + ((p.dst.size - m.card : Nat) : ExactCost) +
      ∑ q ∈ m, p.price q := by
  have hrows := card_le_of_range h.injOn_rows h.rows
  have hcols := card_le_of_range h.injOn_cols h.cols
  have hsrc : (p.src.size : ExactCost) = (p.src.size - m.card : Nat) + (m.card : ExactCost) := by
    rw [← Nat.cast_add, Nat.sub_add_cancel hrows]
  have hdst : (p.dst.size : ExactCost) = (p.dst.size - m.card : Nat) + (m.card : ExactCost) := by
    rw [← Nat.cast_add, Nat.sub_add_cancel hcols]
  rw [← p.refund_all m, cost, Nat.sub_zero, Nat.sub_zero, hsrc, hdst]
  abel

theorem cost_nonneg : 0 ≤ p.cost 0 p.src.size 0 p.dst.size m := by
  rw [h.cost_eq]
  apply add_nonneg
  · exact add_nonneg (Nat.cast_nonneg' _) (Nat.cast_nonneg' _)
  · exact Finset.sum_nonneg fun q _ => changeCost_nonneg _ _

theorem all_kept (hcost : p.cost 0 p.src.size 0 p.dst.size m = 0) :
    m.card = p.src.size ∧ m.card = p.dst.size ∧
      ∀ q ∈ m, p.src.content q.1 = p.dst.content q.2 := by
  have hrows := card_le_of_range h.injOn_rows h.rows
  have hcols := card_le_of_range h.injOn_cols h.cols
  have hprice : ∀ q ∈ m, 0 ≤ p.price q := fun q _ => changeCost_nonneg _ _
  rw [h.cost_eq, add_eq_zero_iff_of_nonneg (add_nonneg (Nat.cast_nonneg' _) (Nat.cast_nonneg' _))
    (Finset.sum_nonneg hprice), add_eq_zero_iff_of_nonneg (Nat.cast_nonneg' _) (Nat.cast_nonneg' _),
    Finset.sum_eq_zero_iff_of_nonneg hprice, Nat.cast_eq_zero, Nat.cast_eq_zero] at hcost
  obtain ⟨⟨hleft, hright⟩, hchanges⟩ := hcost
  refine ⟨by omega, by omega, fun q hq => ?_⟩
  exact changeCost_eq_zero_iff.1 (hchanges q hq)

theorem eq_diagonal (hsrc : m.card = p.src.size) (hdst : m.card = p.dst.size) :
    m = diagonal p.src.size := by
  apply Finset.eq_of_subset_of_card_le
  · intro q hq
    have hrow := h.rows q hq
    have hcol := h.cols q hq
    have hbefore : (m.filter fun r => r.1 ≤ q.1) = m.filter fun r => r.2 ≤ q.2 := by
      apply Finset.filter_congr
      intro r hr
      have := h.order q hq r hr
      omega
    have hcount := congrArg Finset.card hbefore
    rw [card_filter_le_eq h.injOn_rows h.rows hsrc hrow.2,
      card_filter_le_eq h.injOn_cols h.cols hdst hcol.2] at hcount
    exact mem_diagonal.2 ⟨hcount, hrow⟩
  · rw [card_diagonal, hsrc]

end Whole

theorem twins (h : p.Aligns 0 p.src.size 0 p.dst.size m) (hp : p.Nested)
    (hcost : p.cost 0 p.src.size 0 p.dst.size m = 0) : p.Twins ∧ m = diagonal p.src.size := by
  obtain ⟨hsrc, hdst, hcontent⟩ := h.all_kept hcost
  have hm := h.eq_diagonal hsrc hdst
  have hmem : ∀ i, 0 < i → i ≤ p.src.size → (i, i) ∈ m := by
    intro i hi hin
    rw [hm]
    exact mem_diagonal.2 ⟨rfl, hi, hin⟩
  have hsize := hsrc.symm.trans hdst
  refine ⟨⟨hsize, fun i hi hin => hcontent _ (hmem i hi hin), fun i hi hin => ?_⟩, hm⟩
  -- each of the two blocks begins inside the other
  have hpos := hp.src.leaf_pos i hi hin
  have hle := hp.src.leaf_le i hi hin
  have hpos' := hp.dst.leaf_pos i hi (hsize ▸ hin)
  have hle' := hp.dst.leaf_le i hi (hsize ▸ hin)
  apply le_antisymm
  · exact (h.below _ (hmem _ hpos' (hle'.trans hin)) _ (hmem i hi hin) hle').2 le_rfl
  · exact (h.below _ (hmem _ hpos (hle.trans hin)) _ (hmem i hi hin) hle).1 le_rfl

end Aligns

namespace Twins

variable (h : p.Twins)
include h

theorem aligns_diagonal : p.Aligns 0 p.src.size 0 p.dst.size (diagonal p.src.size) := by
  constructor
  case rows => exact fun q hq => (mem_diagonal.1 hq).2
  case cols =>
    intro q hq
    obtain ⟨heq, hpos, hle⟩ := mem_diagonal.1 hq
    rw [← heq, ← h.size]
    exact ⟨hpos, hle⟩
  case order =>
    intro q hq r hr
    rw [(mem_diagonal.1 hq).1, (mem_diagonal.1 hr).1]
  case below =>
    intro q hq r hr _
    obtain ⟨heq, hpos, hle⟩ := mem_diagonal.1 hr
    rw [h.leaf _ hpos hle, heq, (mem_diagonal.1 hq).1]

theorem cost_diagonal : p.cost 0 p.src.size 0 p.dst.size (diagonal p.src.size) = 0 := by
  have hchanges : ∑ q ∈ diagonal p.src.size, p.price q = 0 := by
    apply Finset.sum_eq_zero
    intro q hq
    obtain ⟨heq, hpos, hle⟩ := mem_diagonal.1 hq
    rw [price, ← heq, changeCost_eq_zero_iff]
    exact h.content _ hpos hle
  rw [h.aligns_diagonal.cost_eq, hchanges, card_diagonal, ← h.size, Nat.sub_self,
    Nat.cast_zero, add_zero, add_zero]

end Twins

/-- The least cost is zero exactly for twins. -/
theorem Optimal.eq_zero_iff (h : p.Optimal 0 p.src.size 0 p.dst.size c) (hp : p.Nested) :
    c = 0 ↔ p.Twins := by
  obtain ⟨m, hm, hcost⟩ := h.attained
  constructor
  · rintro rfl
    exact (hm.twins hp hcost).1
  · intro ht
    apply le_antisymm
    · rw [← ht.cost_diagonal]
      exact h.least _ ht.aligns_diagonal
    · rw [← hcost]
      exact hm.cost_nonneg

theorem Attains.perm_diagonal {pairs : List (Nat × Nat)} (hp : p.Nested)
    (h : p.Attains 0 p.src.size 0 p.dst.size pairs 0) :
    pairs.Perm ((List.range' 1 p.src.size).map fun i => (i, i)) := by
  have hm := (h.aligns.twins hp h.cost).2
  have hnodup : ((List.range' 1 p.src.size).map fun i => (i, i)).Nodup :=
    (List.nodup_range' ..).map fun i j he => congrArg Prod.fst he
  apply (List.perm_ext_iff_of_nodup h.nodup hnodup).2
  rintro ⟨i, j⟩
  rw [← List.mem_toFinset, hm, mem_diagonal]
  simp only [List.mem_map, List.mem_range'_1, Prod.mk.injEq]
  constructor
  · rintro ⟨rfl, hpos, hle⟩
    exact ⟨i, by omega, rfl, rfl⟩
  · rintro ⟨k, hk, rfl, rfl⟩
    exact ⟨rfl, by omega, by omega⟩

end TreePair

theorem Numbered.Numbers.map_id_range {n : Numbered} {t : Tree} {a : NodeId} (h : n.Numbers t a) :
    (List.range' 1 n.size).map n.id = (t.forest.subtree a).postorder := by
  apply List.ext_getElem?
  intro k
  by_cases hk : k < n.size
  · have hget := h.getElem?_id (Nat.succ_pos k) hk
    rw [Nat.succ_sub_one] at hget
    rw [hget, List.getElem?_map, List.getElem?_range' hk]
    simp [Nat.add_comm]
  · rw [List.getElem?_eq_none (by simpa using hk),
      List.getElem?_eq_none (by rw [← h.size_eq]; exact Nat.le_of_not_lt hk)]

namespace TreePair

variable {p : TreePair} {src dst : Tree} {a b : NodeId}

theorem Numbers.map_label_perm (h : p.Numbers src dst a b) (ht : p.Twins) :
    (((List.range' 1 p.src.size).map fun i => (i, i)).map p.label).Perm
      (alignedPairs src dst a b) := by
  have hshape : SameShape src dst a b := sameShape_of_eq (h.twins_iff_contentTree.1 ht)
  have hzip : ((List.range' 1 p.src.size).map fun i => (i, i)).map p.label =
      (src.forest.subtree a).postorder.zip (dst.forest.subtree b).postorder := by
    rw [← h.src.map_id_range, ← h.dst.map_id_range, ← ht.size, List.map_map, List.zip_map']
    rfl
  rw [hzip]
  exact Rose.zip_postorder_perm hshape

end TreePair

theorem nodup_alignedPairs {src dst : Tree} {a b : NodeId} (hs : src.forest.Sound)
    (h : src.forest.contentTree a = dst.forest.contentTree b) :
    (alignedPairs src dst a b).Nodup := by
  apply List.Nodup.of_map Prod.fst
  rw [alignedPairs, List.map_fst_zip (Nat.le_of_eq (length_preorder_eq h))]
  exact hs.nodup_preorder a

/-- In exact numbers, two subtrees have distance zero exactly if they are isomorphic: the same
kinds, labels and order of children. Then the pairs of a cheapest edit are the nodes at equal
places, each pair once. -/
theorem editDistance_eq_zero_iff [TokenHash] {src dst : Tree} {a b : NodeId} (hs : src.Surveyed)
    (hd : dst.Surveyed) (ha : src.Reaches a) (hb : dst.Reaches b) :
    (∃ d, editDistance ExactCost src dst a b = .ok d ∧
      (d = 0 ↔ src.forest.contentTree a = dst.forest.contentTree b)) ∧
    (src.isomorphic a dst b = .ok true ↔
      src.forest.contentTree a = dst.forest.contentTree b) ∧
    (src.forest.contentTree a = dst.forest.contentTree b →
      ∃ pairs, cheapestPairs ExactCost src dst a b = .ok pairs ∧ pairs.Nodup ∧
        pairs.Perm (alignedPairs src dst a b)) := by
  obtain ⟨p, hp, h⟩ := TreePair.gives_ofSubtrees hs hd ha hb
  have hopt := Tables.optimal_distance h.nested h.src.size_pos h.dst.size_pos
  have hzero := (hopt.eq_zero_iff h.nested).trans h.twins_iff_contentTree
  refine ⟨⟨(Tables.ofPair p).distance p, ?_, hzero⟩, ?_, ?_⟩
  · rw [editDistance, hp]
    rfl
  · obtain ⟨same, hsame, hiff⟩ := Gives.isomorphic hs hd ha hb
    rw [hsame, Except.ok.injEq, hiff]
  · intro heq
    obtain ⟨pairs, hpairs, hrun, _⟩ :=
      TreePair.matched_spec h.listed h.src.size_pos h.dst.size_pos
    rw [hzero.2 heq] at hpairs
    have hperm : (pairs.map p.label).reverse.Perm (alignedPairs src dst a b) :=
      (List.reverse_perm _).trans (((hpairs.perm_diagonal h.nested).map p.label).trans
        (h.map_label_perm (h.twins_iff_contentTree.2 heq)))
    have hnodup := nodup_alignedPairs hs.sound.forest heq
    refine ⟨_, ?_, hperm.nodup_iff.2 hnodup, hperm⟩
    rw [cheapestPairs, hp]
    exact hrun

def besom [TokenHash] : Tree := ((twig 0 1).addChild 1 { kind := .named 1 }).2.measured

theorem surveyed_besom [TokenHash] : besom.Surveyed := ((sound_twig 0 1).addChild 1 _).surveyed

attribute [local instance] TokenHash.constant

/-- Each leaf is paired with the one at its own place. -/
theorem editDistance_eq_zero_iff_besom :
    besom.Surveyed ∧ besom.forest.contentTree 2 = besom.forest.contentTree 3 ∧
      (∃ d, editDistance ExactCost besom besom 1 1 = .ok d ∧
        (d = 0 ↔ besom.forest.contentTree 1 = besom.forest.contentTree 1)) ∧
      besom.isomorphic 1 besom 1 = .ok true ∧
      ∃ pairs, cheapestPairs ExactCost besom besom 1 1 = .ok pairs ∧ pairs.Nodup ∧
        pairs.Perm [(1, 1), (2, 2), (3, 3)] :=
  have h := editDistance_eq_zero_iff surveyed_besom surveyed_besom .refl .refl
  ⟨surveyed_besom, rfl, h.1, h.2.1.2 rfl, h.2.2 rfl⟩

end TreeDelta
