import Mathlib.Algebra.Order.Field.Rat
import Mathlib.Data.Set.Function
import Mathlib.Tactic.NormNum
import TreeDelta.Proofs.ContainerCandidates

namespace TreeDelta

variable {src dst : Tree} {p : Pairing} {a b : NodeId}

namespace Share

/-- The exact value of a share. -/
def quotient (s : Share) : ℚ := if s.whole = 0 then 1 else s.part / s.whole

variable {s t : Share}

theorem quotient_nonneg (s : Share) : 0 ≤ s.quotient := by
  rw [quotient]
  split
  · exact zero_le_one
  · exact div_nonneg s.part.cast_nonneg s.whole.cast_nonneg

theorem quotient_le_one (h : s.part ≤ s.whole) : s.quotient ≤ 1 := by
  rw [quotient]
  split
  · exact le_rfl
  · exact div_le_one_of_le₀ (Nat.cast_le.2 h) s.whole.cast_nonneg

theorem quotient_eq_one_iff (h : s.part ≤ s.whole) : s.quotient = 1 ↔ s.part = s.whole := by
  rw [quotient]
  split
  · next hzero => simp only [true_iff]; omega
  · next hpos => rw [div_eq_one_iff_eq (Nat.cast_ne_zero.2 hpos), Nat.cast_inj]

theorem quotient_le_quotient (hs : s.part ≤ s.whole) (hempty : s.whole = 0 → t.whole = 0)
    (h : s.part * t.whole ≤ t.part * s.whole) : s.quotient ≤ t.quotient := by
  by_cases ht : t.whole = 0
  · calc s.quotient ≤ 1 := quotient_le_one hs
      _ = t.quotient := by rw [quotient, if_pos ht]
  · have hspos : (0 : ℚ) < s.whole := by exact_mod_cast Nat.pos_of_ne_zero (mt hempty ht)
    have htpos : (0 : ℚ) < t.whole := by exact_mod_cast Nat.pos_of_ne_zero ht
    rw [quotient, quotient, if_neg (mt hempty ht), if_neg ht, div_le_div_iff₀ hspos htpos]
    exact_mod_cast h

end Share

namespace Similarity

variable {common left right : Nat}

def parts (common left right : Nat) : Similarity → Share
  | .dice => ⟨2 * common, left + right⟩
  | .chawathe => ⟨common, max left right⟩
  | .jaccard => ⟨common, left + right - common⟩

theorem share_eq (x : Similarity) (h : common ≤ left) : x.share common left right =
    if x = .chawathe ∨ left + right < wordLimit then .ok (x.parts common left right)
    else .error .overflow := by
  have hsub : subWord (left + right) common = .ok (left + right - common) :=
    subWord_eq_ok_iff.2 (by omega)
  by_cases hsum : left + right < wordLimit
  · have hadd : addWord left right = .ok (left + right) := if_pos hsum
    rw [if_pos (.inr hsum)]
    cases x with
    | dice => rw [share, hadd]; rfl
    | chawathe => rfl
    | jaccard =>
        rw [share, hadd]
        change (subWord (left + right) common >>= _) = _
        rw [hsub]
        rfl
  · have hadd : addWord left right = .error .overflow := if_neg hsum
    cases x with
    | dice => rw [share, hadd, if_neg (by simp [hsum])]; rfl
    | chawathe => rfl
    | jaccard => rw [share, hadd, if_neg (by simp [hsum])]; rfl

section Bounds

variable (hleft : common ≤ left) (hright : common ≤ right)
include hleft hright

theorem part_le_whole (x : Similarity) :
    (x.parts common left right).part ≤ (x.parts common left right).whole := by
  cases x <;> dsimp only [parts] <;> omega

theorem part_eq_whole_iff (x : Similarity) :
    (x.parts common left right).part = (x.parts common left right).whole ↔
      common = left ∧ common = right := by
  cases x <;> dsimp only [parts] <;> omega

theorem jaccard_le_chawathe : (jaccard.parts common left right).quotient ≤
    (chawathe.parts common left right).quotient := by
  apply Share.quotient_le_quotient (part_le_whole hleft hright _)
  · dsimp only [parts]
    omega
  · exact Nat.mul_le_mul_left common (by dsimp only [parts]; omega)

theorem jaccard_le_dice : (jaccard.parts common left right).quotient ≤
    (dice.parts common left right).quotient := by
  apply Share.quotient_le_quotient (part_le_whole hleft hright _)
  · dsimp only [parts]
    omega
  · calc common * (left + right) ≤ common * (2 * (left + right - common)) :=
          Nat.mul_le_mul_left common (by omega)
      _ = 2 * common * (left + right - common) := by rw [Nat.mul_left_comm, Nat.mul_assoc]

end Bounds

end Similarity

namespace Pairing

variable {ds es : List NodeId}

def partnersIn (p : Pairing) (ds es : List NodeId) : List NodeId :=
  (ds.filterMap p.image?).filter (· ∈ es)

/-- The pairing maps `ds` one to one onto `es`. -/
def MapsOnto (p : Pairing) (ds es : List NodeId) : Prop :=
  Set.BijOn p.image? {d | d ∈ ds} (Set.image some {e | e ∈ es})

theorem mem_partnersIn {e : NodeId} :
    e ∈ p.partnersIn ds es ↔ (∃ d ∈ ds, p.image? d = some e) ∧ e ∈ es := by
  simp [partnersIn]

theorem length_partnersIn : (p.partnersIn ds es).length =
    ds.countP fun d => (p.image? d).any fun e => decide (e ∈ es) := by
  rw [partnersIn, ← List.countP_eq_length_filter, List.countP_filterMap]
  congr 1
  funext d
  cases p.image? d <;> rfl

theorem length_partnersIn_le_left : (p.partnersIn ds es).length ≤ ds.length := by
  rw [length_partnersIn]
  exact List.countP_le_length

theorem length_partnersIn_eq_left_iff :
    (p.partnersIn ds es).length = ds.length ↔ ∀ d ∈ ds, ∃ e ∈ es, p.image? d = some e := by
  rw [length_partnersIn, List.countP_eq_length]
  simp [Option.any_eq_true, and_comm]

namespace Sound

variable (hp : p.Sound) (hds : ds.Nodup)
include hp hds

theorem subperm_partnersIn : (p.partnersIn ds es).Subperm es := by
  apply List.Nodup.subperm
  · exact (hds.filterMap fun d d' e hd hd' => hp.image_inj hd hd').filter _
  · intro e he
    exact (mem_partnersIn.1 he).2

theorem length_partnersIn_le_right : (p.partnersIn ds es).length ≤ es.length :=
  (hp.subperm_partnersIn hds).length_le

theorem length_partnersIn_eq_right_iff (hes : es.Nodup) :
    (p.partnersIn ds es).length = es.length ↔ ∀ e ∈ es, ∃ d ∈ ds, p.image? d = some e := by
  constructor
  · intro hlength e he
    have hperm := (hp.subperm_partnersIn hds).perm_of_length_le hlength.ge
    exact (mem_partnersIn.1 (hperm.mem_iff.2 he)).1
  · intro hall
    apply Nat.le_antisymm (hp.length_partnersIn_le_right hds)
    exact (hes.subperm fun e he => mem_partnersIn.2 ⟨hall e he, he⟩).length_le

/-- Partners are found for all of `ds` and for all of `es` exactly if the pairing is a bijection
of the two. -/
theorem mapsOnto_iff (hes : es.Nodup) : p.MapsOnto ds es ↔
    (p.partnersIn ds es).length = ds.length ∧ (p.partnersIn ds es).length = es.length := by
  rw [length_partnersIn_eq_left_iff, hp.length_partnersIn_eq_right_iff hds hes]
  constructor
  · rintro ⟨hmaps, _, hsurj⟩
    constructor
    · intro d hd
      obtain ⟨e, he, heq⟩ := hmaps hd
      exact ⟨e, he, heq.symm⟩
    · intro e he
      exact hsurj ⟨e, he, rfl⟩
  · rintro ⟨hall, honto⟩
    refine ⟨?_, ?_, ?_⟩
    · intro d hd
      obtain ⟨e, he, heq⟩ := hall d hd
      exact ⟨e, he, heq.symm⟩
    · intro d hd d' _ heq
      obtain ⟨e, _, himage⟩ := hall d hd
      exact hp.image_inj himage (heq ▸ himage)
    · rintro _ ⟨e, he, rfl⟩
      exact honto e he

end Sound

end Pairing

namespace Forest.Sound

variable {f : Forest}

theorem mem_descendants_iff_ancestor (h : f.Sound) :
    b ∈ (f.subtree a).descendants ↔ a ∈ f.ancestors b := by
  rw [h.mem_descendants_iff_under, h.mem_ancestors_iff_under]

theorem nodup_descendants (h : f.Sound) (a : NodeId) : (f.subtree a).descendants.Nodup := by
  have hnodup := h.nodup_preorder a
  rw [Rose.preorder_eq_cons] at hnodup
  exact hnodup.of_cons

end Forest.Sound

theorem commonDescendants_eq_ok [TokenHash] (hd : dst.Surveyed) (hp : p.Within src dst)
    (ha : src.forest.has a) (hb : dst.Reaches b) : commonDescendants src dst p a b =
      .ok (p.partnersIn (src.forest.subtree a).descendants
        (dst.forest.subtree b).descendants).length := by
  rw [commonDescendants, Tree.descendants_eq_ok ha]
  change countBelow dst p b _ = _
  rw [countBelow_eq_ok hd hp hb, Pairing.length_partnersIn]
  simp only [hd.sound.forest.mem_descendants_iff_ancestor]

/-- What the scores take from the two trees: the numbers of descendants, and how many of these are
paired with each other. -/
structure Overlap (src dst : Tree) (p : Pairing) (a b : NodeId) (common left right : Nat) :
    Prop where
  count : commonDescendants src dst p a b = .ok common
  left : Gives (src.measure a) fun m => m.size = left + 1
  right : Gives (dst.measure b) fun m => m.size = right + 1

namespace Overlap

variable {common left right : Nat} (h : Overlap src dst p a b common left right)
include h

theorem subtreeShare_eq_share (x : Similarity) :
    x.subtreeShare src dst p a b = x.share common left right := by
  obtain ⟨m, hm, hleft⟩ := h.left
  obtain ⟨n, hn, hright⟩ := h.right
  have hl : subWord m.size 1 = .ok left := subWord_eq_ok_iff.2 (by omega)
  have hr : subWord n.size 1 = .ok right := subWord_eq_ok_iff.2 (by omega)
  rw [Similarity.subtreeShare, h.count, hm, hn]
  change (subWord m.size 1 >>= fun left => subWord n.size 1 >>= fun right =>
    x.share common left right) = _
  rw [hl, hr]
  rfl

theorem subtreeShare_eq (hle : common ≤ left) (x : Similarity) :
    x.subtreeShare src dst p a b =
      if x = .chawathe ∨ left + right < wordLimit then .ok (x.parts common left right)
      else .error .overflow := by
  rw [h.subtreeShare_eq_share, x.share_eq hle]

theorem score_eq (hle : common ≤ left) (x : Similarity) :
    x.score src dst p a b =
      if x = .chawathe ∨ left + right < wordLimit then .ok (x.parts common left right).toFloat
      else .error .overflow := by
  rw [Similarity.score, h.subtreeShare_eq hle]
  split <;> rfl

end Overlap

theorem exists_overlap [TokenHash] (hs : src.Surveyed) (hd : dst.Surveyed) (hp : p.Between src dst)
    (ha : src.Reaches a) (hb : dst.Reaches b) :
    ∃ common left right, Overlap src dst p a b common left right ∧
      common ≤ left ∧ common ≤ right ∧ (common = left ∧ common = right ↔
        p.MapsOnto (src.forest.subtree a).descendants (dst.forest.subtree b).descendants) := by
  have hds := hs.sound.forest.nodup_descendants a
  have hes := hd.sound.forest.nodup_descendants b
  refine ⟨_, _, _, ⟨commonDescendants_eq_ok hd hp.within (hs.has ha) hb, ?_, ?_⟩,
    Pairing.length_partnersIn_le_left, hp.sound.length_partnersIn_le_right hds,
    (hp.sound.mapsOnto_iff hds hes).symm⟩
  · exact (Gives.measure hs ha).mono fun m hm => by rw [hm, Rose.length_descendants]
  · exact (Gives.measure hd hb).mono fun m hm => by rw [hm, Rose.length_descendants]

/-- The descendants that two nodes have in common are no more than either has. So a difference
does not fall below zero, and only the sum of the numbers of descendants can leave the range of
words. The exact shares are between 0 and 1, the Jaccard share is the least of them, and each of
them is 1 exactly if the pairing is a bijection of the descendants. -/
theorem shares_bounded [TokenHash] (hs : src.Surveyed) (hd : dst.Surveyed) (hp : p.Between src dst)
    (ha : src.Reaches a) (hb : dst.Reaches b) :
    ∃ common left right, Overlap src dst p a b common left right ∧
      common ≤ left ∧ common ≤ right ∧
      (∀ x : Similarity,
        (x.subtreeShare src dst p a b =
          if x = .chawathe ∨ left + right < wordLimit then .ok (x.parts common left right)
          else .error .overflow) ∧
        (x.score src dst p a b =
          if x = .chawathe ∨ left + right < wordLimit then .ok (x.parts common left right).toFloat
          else .error .overflow) ∧
        0 ≤ (x.parts common left right).quotient ∧ (x.parts common left right).quotient ≤ 1 ∧
        ((x.parts common left right).quotient = 1 ↔
          p.MapsOnto (src.forest.subtree a).descendants (dst.forest.subtree b).descendants)) ∧
      (Similarity.jaccard.parts common left right).quotient ≤
        (Similarity.chawathe.parts common left right).quotient ∧
      (Similarity.jaccard.parts common left right).quotient ≤
        (Similarity.dice.parts common left right).quotient := by
  obtain ⟨common, left, right, hoverlap, hleft, hright, hfull⟩ := exists_overlap hs hd hp ha hb
  refine ⟨common, left, right, hoverlap, hleft, hright, fun x => ?_,
    Similarity.jaccard_le_chawathe hleft hright, Similarity.jaccard_le_dice hleft hright⟩
  have hpart := x.part_le_whole hleft hright
  refine ⟨hoverlap.subtreeShare_eq hleft x, hoverlap.score_eq hleft x, Share.quotient_nonneg _,
    Share.quotient_le_one hpart, ?_⟩
  rw [Share.quotient_eq_one_iff hpart, x.part_eq_whole_iff hleft hright, hfull]

attribute [local instance] TokenHash.constant

/-- Both leaves are shared, and the node between has no partner. -/
theorem shares_bounded_crown :
    ∃ p, Pairing.empty.addAll [(3, 4), (4, 5)] = .ok p ∧
      Similarity.subtreeShare .jaccard Containers.crown.measured Containers.deepCrown.measured p
        2 2 = .ok ⟨2, 3⟩ ∧
      Similarity.subtreeShare .dice Containers.crown.measured Containers.deepCrown.measured p
        2 2 = .ok ⟨4, 5⟩ ∧
      ¬ p.MapsOnto [3, 4] [3, 4, 5] := by
  refine ⟨_, rfl, ?_⟩
  have hbetween := Pairing.between_of_addAll Containers.sound_crown.measured
    Containers.sound_deepCrown.measured (l := [(3, 4), (4, 5)]) rfl (by decide)
  obtain ⟨common, left, right, hoverlap, -, -, hshares, -⟩ :=
    shares_bounded Containers.sound_crown.surveyed Containers.sound_deepCrown.surveyed hbetween
      (a := 2) (b := 2) (.single rfl) (.single rfl)
  have hcommon : common = 2 := by
    cases hoverlap.count
    rfl
  have hleft : left = 2 := by
    obtain ⟨m, hm, hsize⟩ := hoverlap.left
    cases hm
    exact (Nat.succ.inj hsize).symm
  have hright : right = 3 := by
    obtain ⟨m, hm, hsize⟩ := hoverlap.right
    cases hm
    exact (Nat.succ.inj hsize).symm
  subst hcommon hleft hright
  refine ⟨(hshares .jaccard).1, (hshares .dice).1, fun hmaps => ?_⟩
  have hone := (hshares .dice).2.2.2.2.2 hmaps
  norm_num [Similarity.parts, Share.quotient] at hone

end TreeDelta
