import Std.Data.HashMap.Lemmas
import Mathlib.Algebra.BigOperators.Group.Finset.Basic
import Mathlib.Algebra.Order.Field.Rat
import Mathlib.Data.Multiset.OrderedMonoid
import Mathlib.Order.Interval.Set.Defs
import TreeDelta.Trigram

namespace TreeDelta.Trigram

def marked (label : String) : List Char := ['#', '#'] ++ label.toList ++ ['#', '#']

/-- What is seen of a marked label through a window of three characters, at all its places. -/
def bag (label : String) : Multiset Gram :=
  (Multiset.range (label.length + 2)).map fun i =>
    ⟨(marked label).getD i '#', (marked label).getD (i + 1) '#', (marked label).getD (i + 2) '#'⟩

theorem card_bag (label : String) : (bag label).card = label.length + 2 := by
  rw [bag, Multiset.card_map, Multiset.card_range]

theorem windows_eq_map (cs : List Char) (mark : Char) :
    windows cs = (List.range (cs.length - 2)).map fun i =>
      ⟨cs.getD i mark, cs.getD (i + 1) mark, cs.getD (i + 2) mark⟩ := by
  fun_induction windows cs with
  | case1 a b c rest ih =>
      have hlength : (a :: b :: c :: rest).length - 2 = (b :: c :: rest).length - 2 + 1 := rfl
      rw [ih, hlength, List.range_succ_eq_map, List.map_cons, List.map_map]
      rfl
  | case2 cs hshort =>
      have hlt : cs.length < 3 := by
        match cs, hshort with
        | [], _ | [_], _ | [_, _], _ => simp
        | a :: b :: c :: rest, hshort => exact absurd rfl (hshort a b c rest)
      rw [Nat.sub_eq_zero_of_le (Nat.le_of_lt_succ hlt)]
      rfl

theorem coe_grams (label : String) : (grams label : Multiset Gram) = bag label := by
  have hlength : (marked label).length - 2 = label.length + 2 := by
    simp [marked, String.length_toList]
  rw [grams, bag, Multiset.range, Multiset.map_coe, ← hlength]
  exact congrArg _ (windows_eq_map (marked label) '#')

/-- The differences between the numbers of occurrences, added up over all members. -/
def apart (x y : Multiset Gram) : Nat :=
  ∑ g ∈ (x + y).toFinset, ((x.count g : Int) - y.count g).natAbs

section Apart

variable (x y z : Multiset Gram)

theorem apart_eq_card : apart x y = (x - y).card + (y - x).card := by
  have hcard {w : Multiset Gram} (hw : w ≤ x + y) :
      ∑ g ∈ (x + y).toFinset, w.count g = w.card :=
    Multiset.sum_count_eq_card fun g hg => Multiset.mem_toFinset.2 (Multiset.mem_of_le hw hg)
  have hleft : x - y ≤ x + y := tsub_le_self.trans (Multiset.le_add_right x y)
  have hright : y - x ≤ x + y := tsub_le_self.trans (Multiset.le_add_left y x)
  rw [apart, ← hcard hleft, ← hcard hright, ← Finset.sum_add_distrib]
  apply Finset.sum_congr rfl
  intro g _
  rw [Multiset.count_sub, Multiset.count_sub]
  omega

theorem apart_comm : apart x y = apart y x := by
  rw [apart_eq_card, apart_eq_card, Nat.add_comm]

theorem apart_eq_zero_iff : apart x y = 0 ↔ x = y := by
  rw [apart_eq_card, Nat.add_eq_zero_iff, Multiset.card_eq_zero, Multiset.card_eq_zero,
    tsub_eq_zero_iff_le, tsub_eq_zero_iff_le, ← le_antisymm_iff]

theorem apart_triangle : apart x z ≤ apart x y + apart y z := by
  have hcard (u v w : Multiset Gram) : (u - w).card ≤ (u - v).card + (v - w).card := by
    rw [← Multiset.card_add]
    exact Multiset.card_le_card tsub_le_tsub_add_tsub
  have hthere := hcard x y z
  have hback := hcard z y x
  rw [apart_eq_card, apart_eq_card, apart_eq_card]
  omega

theorem apart_add_card_inter : apart x y + 2 * (x ∩ y).card = x.card + y.card := by
  have hleft : (x - y).card + (x ∩ y).card = x.card := by
    rw [← Multiset.card_add, Multiset.sub_add_inter]
  have hright : (y - x).card + (x ∩ y).card = y.card := by
    rw [← Multiset.card_add, Multiset.inter_comm, Multiset.sub_add_inter]
  rw [apart_eq_card]
  omega

theorem apart_eq_card_add_iff : apart x y = x.card + y.card ↔ Disjoint x y := by
  have hinter := apart_add_card_inter x y
  rw [← Multiset.inter_eq_zero_iff_disjoint, ← Multiset.card_eq_zero]
  omega

end Apart

namespace Profile

variable {p q : Profile} {x y : Multiset Gram}

def Counts (p : Profile) (x : Multiset Gram) : Prop :=
  ∀ g, p[g]? = if g ∈ x then some (x.count g) else none

namespace Counts

theorem empty : Counts ∅ 0 := by
  intro g
  simp

theorem getD (h : p.Counts x) (g : Gram) : p.getD g 0 = x.count g := by
  rw [Std.HashMap.getD_eq_getD_getElem?, h g]
  split
  · rfl
  · next hg => exact (Multiset.count_eq_zero.2 hg).symm

theorem contains_iff (h : p.Counts x) (g : Gram) : p.contains g ↔ g ∈ x := by
  rw [Std.HashMap.contains_eq_isSome_getElem?, h g]
  split
  · next hg => simp [hg]
  · next hg => simp [hg]

theorem tally (h : p.Counts x) (g : Gram) : (p.tally g).Counts (g ::ₘ x) := by
  intro k
  rw [Profile.tally, Std.HashMap.getElem?_insert, h.getD]
  by_cases hk : g = k
  · subst hk
    rw [if_pos (beq_self_eq_true g), if_pos (Multiset.mem_cons_self g x), Multiset.count_cons_self]
  · rw [if_neg (by simpa using hk), h k, Multiset.count_cons_of_ne (Ne.symm hk)]
    simp only [Multiset.mem_cons, Ne.symm hk, false_or]

theorem tallyAll (h : p.Counts x) (l : List Gram) : (l.foldl Profile.tally p).Counts (↑l + x) := by
  induction l generalizing p x with
  | nil => simpa using h
  | cons g l ih =>
      rw [List.foldl_cons, ← Multiset.cons_coe, Multiset.cons_add, ← Multiset.add_cons]
      exact ih (h.tally g)

theorem fold_add (h : p.Counts x) (f : Gram → Nat → Nat) (start : Nat) :
    p.fold (fun sum g n => sum + f g n) start = start + ∑ g ∈ x.toFinset, f g (x.count g) := by
  have hkeys : p.keys.toFinset = x.toFinset := by
    ext g
    rw [List.mem_toFinset, Std.HashMap.mem_keys, Multiset.mem_toFinset, ← h.contains_iff,
      Std.HashMap.contains_iff_mem]
  have hcount : ∀ e ∈ p.toList, f e.1 e.2 = f e.1 (x.count e.1) := by
    intro e he
    have hget := Std.HashMap.mem_toList_iff_getElem?_eq_some.1 he
    rw [← h.getD e.1, Std.HashMap.getD_eq_getD_getElem?, hget, Option.getD_some]
  calc p.fold (fun sum g n => sum + f g n) start
      = start + (p.toList.map fun e => f e.1 e.2).sum := by
        rw [Std.HashMap.fold_eq_foldl_toList]
        induction p.toList generalizing start with
        | nil => rfl
        | cons e l ih => rw [List.foldl_cons, ih, List.map_cons, List.sum_cons, Nat.add_assoc]
    _ = start + (p.keys.map fun g => f g (x.count g)).sum := by
        rw [List.map_congr_left hcount, ← Std.HashMap.map_fst_toList_eq_keys, List.map_map]
        rfl
    _ = start + ∑ g ∈ x.toFinset, f g (x.count g) := by
        rw [← List.sum_toFinset _ Std.HashMap.nodup_keys, hkeys]

theorem weight_eq (h : p.Counts x) : p.weight = x.card := by
  rw [weight, h.fold_add fun _ n => n, Nat.zero_add, Multiset.toFinset_sum_count_eq]

theorem distance_eq (hp : p.Counts x) (hq : q.Counts y) : p.distance q = apart x y := by
  have hpass : (fun (sum : Nat) (g : Gram) (n : Nat) => if p.contains g then sum else sum + n) =
      fun sum g n => sum + if g ∈ x then 0 else n := by
    funext sum g n
    simp only [hp.contains_iff]
    split <;> rfl
  -- the second pass adds something just for those trigrams that the first one does not meet
  have hrest : ∑ g ∈ y.toFinset, (if g ∈ x then 0 else y.count g) =
      ∑ g ∈ y.toFinset \ x.toFinset, ((x.count g : Int) - y.count g).natAbs := by
    symm
    apply Finset.sum_subset_zero_on_sdiff Finset.sdiff_subset
    · intro g hg
      rw [sdiff_sdiff_right_self, Finset.inf_eq_inter, Finset.mem_inter, Multiset.mem_toFinset,
        Multiset.mem_toFinset] at hg
      exact if_pos hg.2
    · intro g hg
      rw [Finset.mem_sdiff, Multiset.mem_toFinset, Multiset.mem_toFinset] at hg
      rw [if_neg hg.2, Multiset.count_eq_zero.2 hg.2]
      omega
  rw [distance, hpass, hp.fold_add fun g n => ((n : Int) - q.getD g 0).natAbs,
    hq.fold_add fun g n => if g ∈ x then 0 else n, hrest, Nat.zero_add, apart,
    Multiset.toFinset_add, ← Finset.union_sdiff_self_eq_union,
    Finset.sum_union Finset.disjoint_sdiff]
  simp only [hq.getD]

end Counts

end Profile

theorem counts_profile (label : String) : (profile label).Counts (bag label) := by
  rw [← coe_grams, ← Multiset.add_zero (grams label : Multiset Gram)]
  exact Profile.Counts.empty.tallyAll (grams label)

theorem total_eq (a b : String) : total a b = (bag a).card + (bag b).card := by
  rw [total, (counts_profile a).weight_eq, (counts_profile b).weight_eq]

theorem distance_eq_apart (a b : String) : distance a b = apart (bag a) (bag b) :=
  (counts_profile a).distance_eq (counts_profile b)

/-- The distance of two labels, which is the L1 distance of their bags of trigrams, is at most the
number of their trigrams, and that number is known from their lengths and never 0. The distance is
symmetric and satisfies the triangle inequality. It is 0 exactly for equal bags, and greatest
exactly for bags without a common member. -/
theorem distance_normalised (a b : String) :
    total a b = a.length + b.length + 4 ∧ 0 < total a b ∧ distance a b ≤ total a b ∧
      distance a b = apart (bag a) (bag b) ∧
      distance a b = distance b a ∧
      (distance a b = 0 ↔ bag a = bag b) ∧ distance a a = 0 ∧
      (distance a b = total a b ↔ Disjoint (bag a) (bag b)) ∧
      (∀ c, distance a c ≤ distance a b + distance b c) ∧
      1 - (distance a b : ℚ) / total a b ∈ Set.Icc (0 : ℚ) 1 := by
  have htotal : total a b = a.length + b.length + 4 := by
    rw [total_eq, card_bag, card_bag]
    omega
  have hpos : 0 < total a b := by omega
  have hle : distance a b ≤ total a b := by
    have hinter := apart_add_card_inter (bag a) (bag b)
    rw [distance_eq_apart, total_eq]
    omega
  have hquotient : (distance a b : ℚ) / total a b ≤ 1 :=
    div_le_one_of_le₀ (Nat.cast_le.2 hle) (Nat.cast_nonneg _)
  have hnonneg : 0 ≤ (distance a b : ℚ) / total a b :=
    div_nonneg (Nat.cast_nonneg _) (Nat.cast_nonneg _)
  refine ⟨htotal, hpos, hle, distance_eq_apart a b, ?_, ?_, ?_, ?_, ?_, ?_⟩
  · rw [distance_eq_apart, distance_eq_apart, apart_comm]
  · rw [distance_eq_apart, apart_eq_zero_iff]
  · rw [distance_eq_apart, apart_eq_zero_iff]
  · rw [distance_eq_apart, total_eq, apart_eq_card_add_iff]
  · intro c
    rw [distance_eq_apart, distance_eq_apart, distance_eq_apart]
    exact apart_triangle (bag a) (bag b) (bag c)
  · exact ⟨sub_nonneg.2 hquotient, sub_le_self 1 hnonneg⟩

/-- A label that is a mark differs from the empty one in the number of its trigrams only. -/
example : distance "" "#" = 1 := by
  rw [distance_eq_apart]
  decide

end TreeDelta.Trigram
