import Mathlib.Order.Bounds.Basic
import TreeDelta.EditDistance.Backtrace
import TreeDelta.Proofs.KeyRoots

namespace TreeDelta

/-- Pairs of nodes below `a` and `b`. -/
structure EditMapping (src dst : Tree) (a b : NodeId) (m : Finset (NodeId × NodeId)) : Prop where
  within : ∀ q ∈ m, src.forest.Under a q.1 ∧ dst.forest.Under b q.2
  one_to_one : ∀ q ∈ m, ∀ r ∈ m, q.1 = r.1 ↔ q.2 = r.2
  order : ∀ q ∈ m, ∀ r ∈ m,
    (src.forest.subtree a).postorder.idxOf q.1 < (src.forest.subtree a).postorder.idxOf r.1 ↔
      (dst.forest.subtree b).postorder.idxOf q.2 < (dst.forest.subtree b).postorder.idxOf r.2
  below : ∀ q ∈ m, ∀ r ∈ m, src.forest.Under q.1 r.1 ↔ dst.forest.Under q.2 r.2

def Forest.others (f : Forest) (a : NodeId) (given : Finset NodeId) : Finset NodeId :=
  (f.subtree a).preorder.toFinset \ given

/-- One unit for each node that has no partner, and for each pair the price of the change. -/
def editCost (src dst : Tree) (a b : NodeId) (m : Finset (NodeId × NodeId)) : ExactCost :=
  ((src.forest.others a (m.image Prod.fst)).card : ExactCost) +
    ((dst.forest.others b (m.image Prod.snd)).card : ExactCost) +
    ∑ q ∈ m, changeCost (src.forest.contentOf q.1) (dst.forest.contentOf q.2)

theorem Forest.Sound.card_others {f : Forest} (h : f.Sound) {a : NodeId} {given : Finset NodeId}
    (hgiven : ∀ x ∈ given, f.Under a x) :
    (f.others a given).card + given.card = (f.subtree a).size := by
  have hsub : given ⊆ (f.subtree a).preorder.toFinset := by
    intro x hx
    exact List.mem_toFinset.2 (h.mem_preorder_iff.2 (hgiven x hx))
  rw [others, Finset.card_sdiff_add_card_eq_card hsub,
    List.toFinset_card_of_nodup (h.nodup_preorder a), Rose.length_preorder]

namespace TreePair

variable {p : TreePair} {src dst : Tree} {a b : NodeId} {m : Finset (Nat × Nat)} {q r : Nat × Nat}

def label (p : TreePair) (q : Nat × Nat) : NodeId × NodeId := (p.src.id q.1, p.dst.id q.2)

def InRange (p : TreePair) (m : Finset (Nat × Nat)) : Prop :=
  ∀ q ∈ m, (0 < q.1 ∧ q.1 ≤ p.src.size) ∧ 0 < q.2 ∧ q.2 ≤ p.dst.size

theorem Aligns.inRange (h : p.Aligns 0 p.src.size 0 p.dst.size m) : p.InRange m :=
  fun q hq => ⟨h.rows q hq, h.cols q hq⟩

theorem Numbers.aligns_iff (h : p.Numbers src dst a b) (hm : p.InRange m) :
    p.Aligns 0 p.src.size 0 p.dst.size m ↔ EditMapping src dst a b (m.image p.label) := by
  have hid : ∀ q ∈ m, ∀ r ∈ m, p.src.id q.1 = p.src.id r.1 → q.1 = r.1 := fun q hq r hr =>
    h.src.id_inj (hm q hq).1.1 (hm q hq).1.2 (hm r hr).1.1 (hm r hr).1.2
  have hid' : ∀ q ∈ m, ∀ r ∈ m, p.dst.id q.2 = p.dst.id r.2 → q.2 = r.2 := fun q hq r hr =>
    h.dst.id_inj (hm q hq).2.1 (hm q hq).2.2 (hm r hr).2.1 (hm r hr).2.2
  have horder : ∀ q ∈ m, ∀ r ∈ m,
      ((src.forest.subtree a).postorder.idxOf (p.src.id q.1) <
        (src.forest.subtree a).postorder.idxOf (p.src.id r.1) ↔
      (dst.forest.subtree b).postorder.idxOf (p.dst.id q.2) <
        (dst.forest.subtree b).postorder.idxOf (p.dst.id r.2)) ↔ (q.1 < r.1 ↔ q.2 < r.2) := by
    intro q hq r hr
    obtain ⟨⟨hq₁, hq₁'⟩, hq₂, hq₂'⟩ := hm q hq
    obtain ⟨⟨hr₁, hr₁'⟩, hr₂, hr₂'⟩ := hm r hr
    rw [h.src.idxOf_id hq₁ hq₁', h.src.idxOf_id hr₁ hr₁', h.dst.idxOf_id hq₂ hq₂',
      h.dst.idxOf_id hr₂ hr₂']
    omega
  have hbelow : ∀ q ∈ m, ∀ r ∈ m,
      (src.forest.Under (p.src.id q.1) (p.src.id r.1) ↔
        dst.forest.Under (p.dst.id q.2) (p.dst.id r.2)) ↔
      (p.src.leaf q.1 ≤ r.1 ∧ r.1 ≤ q.1 ↔ p.dst.leaf q.2 ≤ r.2 ∧ r.2 ≤ q.2) := by
    intro q hq r hr
    obtain ⟨⟨hq₁, hq₁'⟩, hq₂, hq₂'⟩ := hm q hq
    obtain ⟨⟨hr₁, hr₁'⟩, hr₂, hr₂'⟩ := hm r hr
    rw [h.src.under_iff hq₁ hq₁' hr₁ hr₁', h.dst.under_iff hq₂ hq₂' hr₂ hr₂']
  constructor
  · intro hal
    constructor
    case within =>
      intro x hx
      obtain ⟨q, hq, rfl⟩ := Finset.mem_image.1 hx
      exact ⟨h.src.under (hm q hq).1.1 (hm q hq).1.2, h.dst.under (hm q hq).2.1 (hm q hq).2.2⟩
    case one_to_one =>
      intro x hx y hy
      obtain ⟨q, hq, rfl⟩ := Finset.mem_image.1 hx
      obtain ⟨r, hr, rfl⟩ := Finset.mem_image.1 hy
      have := hal.order q hq r hr
      have := hal.order r hr q hq
      constructor
      · intro he
        have := hid q hq r hr he
        exact congrArg p.dst.id (by omega)
      · intro he
        have := hid' q hq r hr he
        exact congrArg p.src.id (by omega)
    case order =>
      intro x hx y hy
      obtain ⟨q, hq, rfl⟩ := Finset.mem_image.1 hx
      obtain ⟨r, hr, rfl⟩ := Finset.mem_image.1 hy
      exact (horder q hq r hr).2 (hal.order q hq r hr)
    case below =>
      intro x hx y hy
      obtain ⟨q, hq, rfl⟩ := Finset.mem_image.1 hx
      obtain ⟨r, hr, rfl⟩ := Finset.mem_image.1 hy
      refine (hbelow q hq r hr).2 ?_
      have := hal.order q hq r hr
      have := hal.below r hr q hq
      omega
  · intro hmap
    have hmem : ∀ {q}, q ∈ m → p.label q ∈ m.image p.label := fun hq =>
      Finset.mem_image_of_mem p.label hq
    constructor
    case rows => exact fun q hq => (hm q hq).1
    case cols => exact fun q hq => (hm q hq).2
    case order =>
      intro q hq r hr
      exact (horder q hq r hr).1 (hmap.order _ (hmem hq) _ (hmem hr))
    case below =>
      intro q hq r hr hle
      have := (horder r hr q hq).1 (hmap.order _ (hmem hr) _ (hmem hq))
      have := (hbelow r hr q hq).1 (hmap.below _ (hmem hr) _ (hmem hq))
      omega

theorem Numbers.exists_aligns (h : p.Numbers src dst a b) {m' : Finset (NodeId × NodeId)}
    (hm' : EditMapping src dst a b m') :
    ∃ m, p.Aligns 0 p.src.size 0 p.dst.size m ∧ m.image p.label = m' := by
  let number : NodeId × NodeId → Nat × Nat := fun q =>
    ((src.forest.subtree a).postorder.idxOf q.1 + 1, (dst.forest.subtree b).postorder.idxOf q.2 + 1)
  have hback : ∀ q ∈ m', p.label (number q) = q ∧
      ((number q).1 ≤ p.src.size ∧ (number q).2 ≤ p.dst.size) := by
    intro q hq
    obtain ⟨hq₁, hq₂⟩ := hm'.within q hq
    exact ⟨Prod.ext (h.src.id_number hq₁).1 (h.dst.id_number hq₂).1, (h.src.id_number hq₁).2,
      (h.dst.id_number hq₂).2⟩
  have himage : (m'.image number).image p.label = m' := by
    rw [Finset.image_image]
    refine (Finset.image_congr fun q hq => (hback q hq).1).trans Finset.image_id'
  refine ⟨m'.image number, (h.aligns_iff fun x hx => ?_).2 (himage.symm ▸ hm'), himage⟩
  obtain ⟨q, hq, rfl⟩ := Finset.mem_image.1 hx
  exact ⟨⟨Nat.succ_pos _, (hback q hq).2.1⟩, Nat.succ_pos _, (hback q hq).2.2⟩

theorem refund_all (p : TreePair) (m : Finset (Nat × Nat)) :
    (m.card : ExactCost) + m.card + ∑ q ∈ m, (p.price q + ((-2 : ℚ) : ExactCost)) =
      ∑ q ∈ m, p.price q := by
  induction m using Finset.induction_on with
  | empty => simp
  | insert q m hq ih =>
      rw [Finset.sum_insert hq, Finset.sum_insert hq, Finset.card_insert_of_notMem hq, ← ih,
        Nat.cast_succ]
      conv_rhs => rw [← refund (p.price q)]
      abel

theorem Numbers.editCost_eq (h : p.Numbers src dst a b)
    (hm : p.Aligns 0 p.src.size 0 p.dst.size m) :
    editCost src dst a b (m.image p.label) = p.cost 0 p.src.size 0 p.dst.size m := by
  have hr := hm.inRange
  have hmap := (h.aligns_iff hr).1 hm
  have hsrc : Set.InjOn (fun q : Nat × Nat => p.src.id q.1) m := by
    intro q hq r hr' he
    apply hm.eq_of_row hq hr'
    exact h.src.id_inj (hr q hq).1.1 (hr q hq).1.2 (hr r hr').1.1 (hr r hr').1.2 he
  have hdst : Set.InjOn (fun q : Nat × Nat => p.dst.id q.2) m := by
    intro q hq r hr' he
    apply hm.eq_of_col hq hr'
    exact h.dst.id_inj (hr q hq).2.1 (hr q hq).2.2 (hr r hr').2.1 (hr r hr').2.2 he
  -- as many nodes are left on each side as the pairs leave
  have hleft : (src.forest.others a ((m.image p.label).image Prod.fst)).card + m.card =
      p.src.size := by
    rw [← h.src.size_subtree, ← Finset.card_image_of_injOn hsrc, Finset.image_image]
    apply h.src.sound.forest.card_others
    intro x hx
    obtain ⟨q, hq, rfl⟩ := Finset.mem_image.1 hx
    exact h.src.under (hr q hq).1.1 (hr q hq).1.2
  have hright : (dst.forest.others b ((m.image p.label).image Prod.snd)).card + m.card =
      p.dst.size := by
    rw [← h.dst.size_subtree, ← Finset.card_image_of_injOn hdst, Finset.image_image]
    apply h.dst.sound.forest.card_others
    intro x hx
    obtain ⟨q, hq, rfl⟩ := Finset.mem_image.1 hx
    exact h.dst.under (hr q hq).2.1 (hr q hq).2.2
  have hsum : ∑ q ∈ m.image p.label, changeCost (src.forest.contentOf q.1)
      (dst.forest.contentOf q.2) = ∑ q ∈ m, p.price q := by
    rw [Finset.sum_image fun q hq r hr' he => hsrc hq hr' (congrArg Prod.fst he)]
    refine Finset.sum_congr rfl fun q hq => ?_
    rw [price, h.src.content_eq (hr q hq).1.1 (hr q hq).1.2,
      h.dst.content_eq (hr q hq).2.1 (hr q hq).2.2]
    rfl
  rw [editCost, cost, hsum, Nat.sub_zero, Nat.sub_zero, ← hleft, ← hright, Nat.cast_add,
    Nat.cast_add, ← p.refund_all m]
  abel

end TreePair

/-- The edit distance of two subtrees, in exact numbers, is the least cost of an edit mapping
between them. -/
theorem editDistance_isLeast [TokenHash] {src dst : Tree} {a b : NodeId} (hs : src.Surveyed)
    (hd : dst.Surveyed) (ha : src.Reaches a) (hb : dst.Reaches b) :
    ∃ d, editDistance ExactCost src dst a b = .ok d ∧
      IsLeast {c | ∃ m, EditMapping src dst a b m ∧ editCost src dst a b m = c} d := by
  obtain ⟨p, hp, h⟩ := TreePair.gives_ofSubtrees hs hd ha hb
  have hopt := Tables.optimal_distance h.nested h.src.size_pos h.dst.size_pos
  refine ⟨(Tables.ofPair p).distance p, ?_, ?_, ?_⟩
  · rw [editDistance, hp]
    rfl
  · obtain ⟨m, hm, hcost⟩ := hopt.attained
    exact ⟨m.image p.label, (h.aligns_iff hm.inRange).1 hm, (h.editCost_eq hm).trans hcost⟩
  · rintro c ⟨m', hm', rfl⟩
    obtain ⟨m, hm, rfl⟩ := h.exists_aligns hm'
    rw [h.editCost_eq hm]
    exact hopt.least m hm

attribute [local instance] TokenHash.constant

/-- The distance of two small trees whose roots are of different kinds. -/
theorem editDistance_isLeast_twigs :
    (twig 0 1).measured.Surveyed ∧ (twig 2 1).measured.Surveyed ∧
      ∃ d, editDistance ExactCost (twig 0 1).measured (twig 2 1).measured 1 1 = .ok d ∧
        IsLeast {c | ∃ m, EditMapping (twig 0 1).measured (twig 2 1).measured 1 1 m ∧
          editCost (twig 0 1).measured (twig 2 1).measured 1 1 m = c} d :=
  ⟨(sound_twig 0 1).surveyed, (sound_twig 2 1).surveyed,
    editDistance_isLeast (sound_twig 0 1).surveyed (sound_twig 2 1).surveyed .refl .refl⟩

end TreeDelta
