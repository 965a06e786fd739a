import Mathlib.Algebra.BigOperators.Group.Finset.Basic
import Mathlib.Algebra.Order.Field.Rat
import Mathlib.Algebra.Order.Monoid.WithTop
import Mathlib.Tactic.Abel
import Mathlib.Tactic.Ring
import TreeDelta.Proofs.Numbering

namespace TreeDelta

/-- Costs without rounding. -/
abbrev ExactCost := WithTop ℚ

instance : EditCost ExactCost where
  zero := 0
  unit := 1
  infinite := ⊤
  add := (· + ·)
  least := min
  same a b := decide (a = b)
  relabel distance total := ((max (1 - (1 - (distance : ℚ) / total)) (1 / 2 ^ 52) : ℚ) : ExactCost)

namespace TreePair

/-- `m` pairs some of the nodes `lo + 1, …, hi` with some of the nodes `lo' + 1, …, hi'`. It keeps
their order and which of them are below each other. -/
structure Aligns (p : TreePair) (lo hi lo' hi' : Nat) (m : Finset (Nat × Nat)) : Prop where
  rows : ∀ q ∈ m, lo < q.1 ∧ q.1 ≤ hi
  cols : ∀ q ∈ m, lo' < q.2 ∧ q.2 ≤ hi'
  order : ∀ q ∈ m, ∀ r ∈ m, q.1 < r.1 ↔ q.2 < r.2
  below : ∀ q ∈ m, ∀ r ∈ m, q.1 ≤ r.1 → (p.src.leaf r.1 ≤ q.1 ↔ p.dst.leaf r.2 ≤ q.2)

def price (p : TreePair) (q : Nat × Nat) : ExactCost :=
  changeCost (p.src.content q.1) (p.dst.content q.2)

/-- The cost of a mapping. Were nothing paired, each node would cost one unit; each pair saves two
of them and has its own price. -/
def cost (p : TreePair) (lo hi lo' hi' : Nat) (m : Finset (Nat × Nat)) : ExactCost :=
  ((hi - lo : Nat) : ExactCost) + ((hi' - lo' : Nat) : ExactCost) +
    ∑ q ∈ m, (p.price q + ((-2 : ℚ) : ExactCost))

/-- `c` is the least cost of a mapping. -/
structure Optimal (p : TreePair) (lo hi lo' hi' : Nat) (c : ExactCost) : Prop where
  attained : ∃ m, p.Aligns lo hi lo' hi' m ∧ p.cost lo hi lo' hi' m = c
  least : ∀ m, p.Aligns lo hi lo' hi' m → c ≤ p.cost lo hi lo' hi' m

variable {p : TreePair} {lo mid hi lo' mid' hi' : Nat} {m m' : Finset (Nat × Nat)}
  {c c₁ c₂ c₃ c₄ : ExactCost}

theorem Optimal.unique (h : p.Optimal lo hi lo' hi' c) (h' : p.Optimal lo hi lo' hi' c₁) :
    c = c₁ := by
  obtain ⟨m, hm, rfl⟩ := h.attained
  obtain ⟨m', hm', rfl⟩ := h'.attained
  exact le_antisymm (h.least m' hm') (h'.least m hm)

theorem cost_empty (p : TreePair) (lo lo' : Nat) : p.cost lo lo lo' lo' ∅ = 0 := by
  simp [cost]

theorem cost_delete (hlo : lo ≤ hi) :
    p.cost lo (hi + 1) lo' hi' m = p.cost lo hi lo' hi' m + 1 := by
  rw [cost, cost, Nat.succ_sub hlo, Nat.cast_succ]
  abel

theorem cost_insert (hlo : lo' ≤ hi') :
    p.cost lo hi lo' (hi' + 1) m = p.cost lo hi lo' hi' m + 1 := by
  rw [cost, cost, Nat.succ_sub hlo, Nat.cast_succ]
  abel

theorem refund (c : ExactCost) : 1 + 1 + (c + ((-2 : ℚ) : ExactCost)) = c := by
  induction c using WithTop.recTopCoe with
  | top => rfl
  | coe c =>
      have hsum : (1 : ℚ) + 1 + (c + -2) = c := by ring
      exact congrArg WithTop.some hsum

theorem cost_pair {q : Nat × Nat} (hq : q ∉ m) (hlo : lo ≤ hi) (hlo' : lo' ≤ hi') :
    p.cost lo (hi + 1) lo' (hi' + 1) (insert q m) = p.cost lo hi lo' hi' m + p.price q := by
  rw [cost_delete hlo, cost_insert hlo']
  conv_rhs => rw [← refund (p.price q)]
  rw [cost, cost, Finset.sum_insert hq]
  abel

theorem cost_union (hm : Disjoint m m') (hlo : lo ≤ mid) (hhi : mid ≤ hi) (hlo' : lo' ≤ mid')
    (hhi' : mid' ≤ hi') :
    p.cost lo hi lo' hi' (m ∪ m') = p.cost lo mid lo' mid' m + p.cost mid hi mid' hi' m' := by
  have hsum : hi - lo = (mid - lo) + (hi - mid) := by omega
  have hsum' : hi' - lo' = (mid' - lo') + (hi' - mid') := by omega
  rw [cost, cost, cost, Finset.sum_union hm, hsum, hsum', Nat.cast_add, Nat.cast_add]
  abel

theorem aligns_empty (p : TreePair) (lo hi lo' hi' : Nat) : p.Aligns lo hi lo' hi' ∅ :=
  ⟨by simp, by simp, by simp, by simp⟩

namespace Aligns

theorem mono (h : p.Aligns lo hi lo' hi' m) {k k' : Nat} (hk : hi ≤ k) (hk' : hi' ≤ k') :
    p.Aligns lo k lo' k' m where
  rows q hq := ⟨(h.rows q hq).1, (h.rows q hq).2.trans hk⟩
  cols q hq := ⟨(h.cols q hq).1, (h.cols q hq).2.trans hk'⟩
  order := h.order
  below := h.below

theorem eq_of_row {q r : Nat × Nat} (h : p.Aligns lo hi lo' hi' m) (hq : q ∈ m) (hr : r ∈ m)
    (he : q.1 = r.1) : q = r := by
  have := h.order q hq r hr
  have := h.order r hr q hq
  exact Prod.ext he (by omega)

theorem eq_of_col {q r : Nat × Nat} (h : p.Aligns lo hi lo' hi' m) (hq : q ∈ m) (hr : r ∈ m)
    (he : q.2 = r.2) : q = r := by
  have := h.order q hq r hr
  have := h.order r hr q hq
  exact Prod.ext (by omega) he

theorem pair (h : p.Aligns lo hi lo' hi' m) (hlo : lo ≤ hi) (hlo' : lo' ≤ hi')
    (hrow : p.src.leaf (hi + 1) = lo + 1) (hcol : p.dst.leaf (hi' + 1) = lo' + 1) :
    p.Aligns lo (hi + 1) lo' (hi' + 1) (insert (hi + 1, hi' + 1) m) := by
  constructor
  case rows =>
    intro q hq
    rcases Finset.mem_insert.1 hq with rfl | hq
    · exact ⟨Nat.lt_succ_of_le hlo, le_rfl⟩
    · exact ⟨(h.rows q hq).1, Nat.le_succ_of_le (h.rows q hq).2⟩
  case cols =>
    intro q hq
    rcases Finset.mem_insert.1 hq with rfl | hq
    · exact ⟨Nat.lt_succ_of_le hlo', le_rfl⟩
    · exact ⟨(h.cols q hq).1, Nat.le_succ_of_le (h.cols q hq).2⟩
  case order =>
    intro q hq r hr
    rcases Finset.mem_insert.1 hq with rfl | hq <;> rcases Finset.mem_insert.1 hr with rfl | hr
    · simp
    · have := h.rows r hr
      have := h.cols r hr
      omega
    · have := h.rows q hq
      have := h.cols q hq
      omega
    · exact h.order q hq r hr
  case below =>
    intro q hq r hr hle
    rcases Finset.mem_insert.1 hq with rfl | hq <;> rcases Finset.mem_insert.1 hr with rfl | hr
    · simp only [hrow, hcol]
      omega
    · have := h.rows r hr
      omega
    · have := h.rows q hq
      have := h.cols q hq
      simp only [hrow, hcol]
      omega
    · exact h.below q hq r hr hle

theorem disjoint (h : p.Aligns lo mid lo' mid' m) (h' : p.Aligns mid hi mid' hi' m') :
    Disjoint m m' := by
  rw [Finset.disjoint_left]
  intro q hq hq'
  have := h.rows q hq
  have := h'.rows q hq'
  omega

theorem union (h : p.Aligns lo mid lo' mid' m) (h' : p.Aligns mid hi mid' hi' m')
    (hlo : lo ≤ mid) (hhi : mid ≤ hi) (hlo' : lo' ≤ mid') (hhi' : mid' ≤ hi')
    (hrow : ∀ k, mid < k → k ≤ hi → mid < p.src.leaf k)
    (hcol : ∀ k, mid' < k → k ≤ hi' → mid' < p.dst.leaf k) :
    p.Aligns lo hi lo' hi' (m ∪ m') := by
  constructor
  case rows =>
    intro q hq
    rcases Finset.mem_union.1 hq with hq | hq
    · have := h.rows q hq
      omega
    · have := h'.rows q hq
      omega
  case cols =>
    intro q hq
    rcases Finset.mem_union.1 hq with hq | hq
    · have := h.cols q hq
      omega
    · have := h'.cols q hq
      omega
  case order =>
    intro q hq r hr
    rcases Finset.mem_union.1 hq with hq | hq <;> rcases Finset.mem_union.1 hr with hr | hr
    · exact h.order q hq r hr
    · have := h.rows q hq
      have := h.cols q hq
      have := h'.rows r hr
      have := h'.cols r hr
      omega
    · have := h'.rows q hq
      have := h'.cols q hq
      have := h.rows r hr
      have := h.cols r hr
      omega
    · exact h'.order q hq r hr
  case below =>
    intro q hq r hr hle
    rcases Finset.mem_union.1 hq with hq | hq <;> rcases Finset.mem_union.1 hr with hr | hr
    · exact h.below q hq r hr hle
    · have := h.rows q hq
      have := h.cols q hq
      have := hrow r.1 (h'.rows r hr).1 (h'.rows r hr).2
      have := hcol r.2 (h'.cols r hr).1 (h'.cols r hr).2
      omega
    · have := h'.rows q hq
      have := h.rows r hr
      omega
    · exact h'.below q hq r hr hle

theorem filter (h : p.Aligns lo hi lo' hi' m) (keep : Nat × Nat → Prop) [DecidablePred keep]
    {k l k' l' : Nat} (hrow : ∀ q ∈ m, keep q → k < q.1 ∧ q.1 ≤ l)
    (hcol : ∀ q ∈ m, keep q → k' < q.2 ∧ q.2 ≤ l') : p.Aligns k l k' l' (m.filter keep) where
  rows q hq := hrow q (Finset.mem_filter.1 hq).1 (Finset.mem_filter.1 hq).2
  cols q hq := hcol q (Finset.mem_filter.1 hq).1 (Finset.mem_filter.1 hq).2
  order q hq r hr := h.order q (Finset.mem_filter.1 hq).1 r (Finset.mem_filter.1 hr).1
  below q hq r hr := h.below q (Finset.mem_filter.1 hq).1 r (Finset.mem_filter.1 hr).1

theorem eq_empty (h : p.Aligns lo hi lo' lo' m) : m = ∅ := by
  rw [Finset.eq_empty_iff_forall_notMem]
  intro q hq
  have := h.cols q hq
  omega

theorem eq_empty' (h : p.Aligns lo lo lo' hi' m) : m = ∅ := by
  rw [Finset.eq_empty_iff_forall_notMem]
  intro q hq
  have := h.rows q hq
  omega

theorem last_cases (h : p.Aligns lo (hi + 1) lo' (hi' + 1) m) :
    p.Aligns lo hi lo' (hi' + 1) m ∨ p.Aligns lo (hi + 1) lo' hi' m ∨ (hi + 1, hi' + 1) ∈ m := by
  by_cases hrow : ∃ q ∈ m, q.1 = hi + 1
  · by_cases hcol : ∃ q ∈ m, q.2 = hi' + 1
    · obtain ⟨q, hq, hq₁⟩ := hrow
      obtain ⟨r, hr, hr₂⟩ := hcol
      have := h.order q hq r hr
      have := h.order r hr q hq
      have := h.rows r hr
      have := h.cols q hq
      have he : q = (hi + 1, hi' + 1) := Prod.ext hq₁ (by omega)
      exact .inr (.inr (he ▸ hq))
    · refine .inr (.inl ⟨h.rows, fun q hq => ?_, h.order, h.below⟩)
      have := h.cols q hq
      have : q.2 ≠ hi' + 1 := fun he => hcol ⟨q, hq, he⟩
      omega
  · refine .inl ⟨fun q hq => ?_, h.cols, h.order, h.below⟩
    have := h.rows q hq
    have : q.1 ≠ hi + 1 := fun he => hrow ⟨q, hq, he⟩
    omega

theorem lt_of_last (h : p.Aligns lo (hi + 1) lo' (hi' + 1) m) (hlast : (hi + 1, hi' + 1) ∈ m)
    {q : Nat × Nat} (hq : q ∈ m) (hne : q ≠ (hi + 1, hi' + 1)) : q.1 ≤ hi ∧ q.2 ≤ hi' := by
  have := h.order q hq _ hlast
  have := h.rows q hq
  have := h.cols q hq
  have : ¬ (q.1 = hi + 1 ∧ q.2 = hi' + 1) := fun he => hne (Prod.ext he.1 he.2)
  omega

theorem erase_last (h : p.Aligns lo (hi + 1) lo' (hi' + 1) m) (hlast : (hi + 1, hi' + 1) ∈ m) :
    p.Aligns lo hi lo' hi' (m.erase (hi + 1, hi' + 1)) where
  rows q hq := ⟨(h.rows q (Finset.mem_of_mem_erase hq)).1,
    (h.lt_of_last hlast (Finset.mem_of_mem_erase hq) (Finset.ne_of_mem_erase hq)).1⟩
  cols q hq := ⟨(h.cols q (Finset.mem_of_mem_erase hq)).1,
    (h.lt_of_last hlast (Finset.mem_of_mem_erase hq) (Finset.ne_of_mem_erase hq)).2⟩
  order q hq r hr := h.order q (Finset.mem_of_mem_erase hq) r (Finset.mem_of_mem_erase hr)
  below q hq r hr := h.below q (Finset.mem_of_mem_erase hq) r (Finset.mem_of_mem_erase hr)

theorem block_iff (h : p.Aligns lo (hi + 1) lo' (hi' + 1) m) (hlast : (hi + 1, hi' + 1) ∈ m)
    {q : Nat × Nat} (hq : q ∈ m) :
    p.src.leaf (hi + 1) ≤ q.1 ↔ p.dst.leaf (hi' + 1) ≤ q.2 :=
  h.below q hq _ hlast (h.rows q hq).2

theorem split_last (h : p.Aligns lo (hi + 1) lo' (hi' + 1) m) (hlast : (hi + 1, hi' + 1) ∈ m)
    (hleaf : p.src.leaf (hi + 1) = mid + 1) (hleaf' : p.dst.leaf (hi' + 1) = mid' + 1)
    (hmid : lo ≤ mid) (hmid' : lo' ≤ mid') (hle : mid ≤ hi) (hle' : mid' ≤ hi') :
    p.Aligns lo mid lo' mid' (m.filter fun q => q.1 ≤ mid) ∧
      p.Aligns mid (hi + 1) mid' (hi' + 1) (m.filter fun q => ¬ q.1 ≤ mid) ∧
      p.cost lo (hi + 1) lo' (hi' + 1) m =
        p.cost lo mid lo' mid' (m.filter fun q => q.1 ≤ mid) +
          p.cost mid (hi + 1) mid' (hi' + 1) (m.filter fun q => ¬ q.1 ≤ mid) := by
  have hbefore : p.Aligns lo mid lo' mid' (m.filter fun q => q.1 ≤ mid) := by
    apply h.filter
    · intro q hq hkeep
      exact ⟨(h.rows q hq).1, hkeep⟩
    · intro q hq hkeep
      have := h.block_iff hlast hq
      have := h.cols q hq
      omega
  have hwithin : p.Aligns mid (hi + 1) mid' (hi' + 1) (m.filter fun q => ¬ q.1 ≤ mid) := by
    apply h.filter
    · intro q hq hkeep
      have := h.rows q hq
      omega
    · intro q hq hkeep
      have := h.block_iff hlast hq
      have := h.cols q hq
      omega
  refine ⟨hbefore, hwithin, ?_⟩
  conv_lhs => rw [← Finset.filter_union_filter_not_eq (fun q => q.1 ≤ mid) m]
  exact cost_union (hbefore.disjoint hwithin) hmid (by omega) hmid' (by omega)

end Aligns

namespace Optimal

theorem empty (p : TreePair) (lo lo' : Nat) : p.Optimal lo lo lo' lo' 0 := by
  refine ⟨⟨∅, p.aligns_empty .., p.cost_empty lo lo'⟩, fun m hm => ?_⟩
  rw [hm.eq_empty, cost_empty]

theorem delete (h : p.Optimal lo hi lo' lo' c) (hlo : lo ≤ hi) :
    p.Optimal lo (hi + 1) lo' lo' (c + 1) := by
  obtain ⟨⟨m, hm, rfl⟩, hleast⟩ := h
  refine ⟨⟨m, hm.mono (Nat.le_succ hi) le_rfl, cost_delete hlo⟩, fun m' hm' => ?_⟩
  rw [hm'.eq_empty, cost_delete hlo]
  gcongr
  exact hleast ∅ (p.aligns_empty ..)

theorem insert (h : p.Optimal lo lo lo' hi' c) (hlo' : lo' ≤ hi') :
    p.Optimal lo lo lo' (hi' + 1) (c + 1) := by
  obtain ⟨⟨m, hm, rfl⟩, hleast⟩ := h
  refine ⟨⟨m, hm.mono le_rfl (Nat.le_succ hi'), cost_insert hlo'⟩, fun m' hm' => ?_⟩
  rw [hm'.eq_empty', cost_insert hlo']
  gcongr
  exact hleast ∅ (p.aligns_empty ..)

/-- The least cost from those of three smaller problems: one of the last nodes is left out, or the
two are paired at a cost of `c₃`, which is attained. -/
theorem of_last (hlo : lo ≤ hi) (hlo' : lo' ≤ hi') (h₁ : p.Optimal lo hi lo' (hi' + 1) c₁)
    (h₂ : p.Optimal lo (hi + 1) lo' hi' c₂)
    (h₃ : ∃ m, p.Aligns lo (hi + 1) lo' (hi' + 1) m ∧ p.cost lo (hi + 1) lo' (hi' + 1) m = c₃)
    (hleast : ∀ m, p.Aligns lo (hi + 1) lo' (hi' + 1) m → (hi + 1, hi' + 1) ∈ m →
      c₃ ≤ p.cost lo (hi + 1) lo' (hi' + 1) m) :
    p.Optimal lo (hi + 1) lo' (hi' + 1) (min (min (c₁ + 1) (c₂ + 1)) c₃) := by
  constructor
  · rcases min_choice (min (c₁ + 1) (c₂ + 1)) c₃ with he | he
    · rw [he]
      rcases min_choice (c₁ + 1) (c₂ + 1) with he | he
      · obtain ⟨m, hm, rfl⟩ := h₁.attained
        exact ⟨m, hm.mono (Nat.le_succ hi) le_rfl, by rw [he, cost_delete hlo]⟩
      · obtain ⟨m, hm, rfl⟩ := h₂.attained
        exact ⟨m, hm.mono le_rfl (Nat.le_succ hi'), by rw [he, cost_insert hlo']⟩
    · rw [he]
      exact h₃
  · intro m hm
    rcases hm.last_cases with hdelete | hinsert | hlast
    · refine (min_le_left _ _).trans ((min_le_left _ _).trans ?_)
      rw [cost_delete hlo]
      gcongr
      exact h₁.least m hdelete
    · refine (min_le_left _ _).trans ((min_le_right _ _).trans ?_)
      rw [cost_insert hlo']
      gcongr
      exact h₂.least m hinsert
    · exact (min_le_right _ _).trans (hleast m hm hlast)

theorem tree (hlo : lo ≤ hi) (hlo' : lo' ≤ hi') (hrow : p.src.leaf (hi + 1) = lo + 1)
    (hcol : p.dst.leaf (hi' + 1) = lo' + 1) (h₁ : p.Optimal lo hi lo' (hi' + 1) c₁)
    (h₂ : p.Optimal lo (hi + 1) lo' hi' c₂) (h₃ : p.Optimal lo hi lo' hi' c₃) :
    p.Optimal lo (hi + 1) lo' (hi' + 1)
      (min (min (c₁ + 1) (c₂ + 1)) (c₃ + p.price (hi + 1, hi' + 1))) := by
  apply of_last hlo hlo' h₁ h₂
  · obtain ⟨m, hm, rfl⟩ := h₃.attained
    have hnot : (hi + 1, hi' + 1) ∉ m := by
      intro hmem
      have := hm.rows _ hmem
      omega
    exact ⟨_, hm.pair hlo hlo' hrow hcol, cost_pair hnot hlo hlo'⟩
  · intro m hm hlast
    rw [← Finset.insert_erase hlast, cost_pair (Finset.notMem_erase _ _) hlo hlo']
    gcongr
    exact h₃.least _ (hm.erase_last hlast)

theorem forest (hlo : lo ≤ hi) (hlo' : lo' ≤ hi') (hmid : lo ≤ mid) (hmid' : lo' ≤ mid')
    (hleaf : p.src.leaf (hi + 1) = mid + 1) (hleaf' : p.dst.leaf (hi' + 1) = mid' + 1)
    (hrow : ∀ k, mid < k → k ≤ hi + 1 → mid < p.src.leaf k)
    (hcol : ∀ k, mid' < k → k ≤ hi' + 1 → mid' < p.dst.leaf k)
    (hle : mid ≤ hi) (hle' : mid' ≤ hi') (h₁ : p.Optimal lo hi lo' (hi' + 1) c₁)
    (h₂ : p.Optimal lo (hi + 1) lo' hi' c₂) (h₃ : p.Optimal lo mid lo' mid' c₃)
    (h₄ : p.Optimal mid (hi + 1) mid' (hi' + 1) c₄) :
    p.Optimal lo (hi + 1) lo' (hi' + 1) (min (min (c₁ + 1) (c₂ + 1)) (c₃ + c₄)) := by
  apply of_last hlo hlo' h₁ h₂
  · obtain ⟨m, hm, rfl⟩ := h₃.attained
    obtain ⟨m', hm', rfl⟩ := h₄.attained
    exact ⟨m ∪ m', hm.union hm' hmid (by omega) hmid' (by omega) hrow hcol,
      cost_union (hm.disjoint hm') hmid (by omega) hmid' (by omega)⟩
  · intro m hm hlast
    obtain ⟨hbefore, hwithin, hcost⟩ := hm.split_last hlast hleaf hleaf' hmid hmid' hle hle'
    rw [hcost]
    exact add_le_add (h₃.least _ hbefore) (h₄.least _ hwithin)

theorem lastPair (hmid : lo ≤ mid) (hmid' : lo' ≤ mid') (hle : mid ≤ hi) (hle' : mid' ≤ hi')
    (hleaf : p.src.leaf (hi + 1) = mid + 1) (hleaf' : p.dst.leaf (hi' + 1) = mid' + 1)
    (hrow : ∀ k, mid < k → k ≤ hi + 1 → mid < p.src.leaf k)
    (hcol : ∀ k, mid' < k → k ≤ hi' + 1 → mid' < p.dst.leaf k)
    (h₁ : p.Optimal lo hi lo' (hi' + 1) c₁) (h₂ : p.Optimal lo (hi + 1) lo' hi' c₂)
    (h₃ : p.Optimal lo mid lo' mid' c₃) (h₄ : p.Optimal mid hi mid' hi' c₄) :
    p.Optimal lo (hi + 1) lo' (hi' + 1)
      (min (min (c₁ + 1) (c₂ + 1)) (c₃ + (c₄ + p.price (hi + 1, hi' + 1)))) := by
  apply of_last (hmid.trans hle) (hmid'.trans hle') h₁ h₂
  · obtain ⟨m, hm, rfl⟩ := h₃.attained
    obtain ⟨m', hm', rfl⟩ := h₄.attained
    have hpair := hm'.pair hle hle' hleaf hleaf'
    have hnot : (hi + 1, hi' + 1) ∉ m' := by
      intro hmem
      have := hm'.rows _ hmem
      omega
    refine ⟨m ∪ Insert.insert (hi + 1, hi' + 1) m',
      hm.union hpair hmid (by omega) hmid' (by omega) hrow hcol, ?_⟩
    rw [cost_union (hm.disjoint hpair) hmid (by omega) hmid' (by omega), cost_pair hnot hle hle']
  · intro m hm hlast
    obtain ⟨hbefore, hwithin, hcost⟩ := hm.split_last hlast hleaf hleaf' hmid hmid' hle hle'
    have hlast' : (hi + 1, hi' + 1) ∈ m.filter fun q => ¬ q.1 ≤ mid :=
      Finset.mem_filter.2 ⟨hlast, by simpa using Nat.lt_succ_of_le hle⟩
    rw [hcost, ← Finset.insert_erase hlast', cost_pair (Finset.notMem_erase _ _) hle hle']
    exact add_le_add (h₃.least _ hbefore)
      (add_le_add_left (h₄.least _ (hwithin.erase_last hlast')) _)

end Optimal

end TreePair

end TreeDelta
