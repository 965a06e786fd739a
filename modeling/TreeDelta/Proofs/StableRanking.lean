import TreeDelta.Matching.Ranking
import TreeDelta.Proofs.FloatOrder
import TreeDelta.Proofs.Outcome
import TreeDelta.Proofs.Pairs

namespace TreeDelta

open Std (TransCmp)

section Sorting

variable {α κ : Type}

/-- A comparison by which lists can be sorted. -/
structure Consistent (order : κ → κ → Ordering) : Prop where
  self : ∀ k, order k k = .eq
  swap : ∀ k l, order l k = (order k l).swap
  trans : ∀ k l m, (order k l).isLE → (order l m).isLE → (order k m).isLE

/-- The list `after` is `before` in the order of the ranks, and items of equal rank are in the order
in which they were. -/
structure StablySorted (order : κ → κ → Ordering) (rank : α → κ) (before after : List α) :
    Prop where
  perm : after.Perm before
  ordered : after.Pairwise fun x y => (order (rank x) (rank y)).isLE
  stable : ∀ k, after.filter (fun x => order (rank x) k == .eq) =
    before.filter fun x => order (rank x) k == .eq

theorem consistent_of_transCmp (order : κ → κ → Ordering) [TransCmp order] : Consistent order where
  self _ := Std.ReflCmp.compare_self
  swap _ _ := Std.OrientedCmp.eq_swap
  trans _ _ _ := TransCmp.isLE_trans

theorem filter_mergeSort {le : α → α → Bool} (htrans : ∀ a b c, le a b → le b c → le a c)
    (htotal : ∀ a b, le a b || le b a) {keep : α → Bool}
    (hkeep : ∀ a b, keep a → keep b → le a b) (l : List α) :
    (l.mergeSort le).filter keep = l.filter keep := by
  have hordered : (l.filter keep).Pairwise fun a b => le a b := by
    apply List.pairwise_of_forall_mem_list
    intro a ha b hb
    exact hkeep a b (List.mem_filter.1 ha).2 (List.mem_filter.1 hb).2
  have hsub : (l.filter keep).Sublist ((l.mergeSort le).filter keep) := by
    have hsorted := List.sublist_mergeSort htrans htotal hordered List.filter_sublist
    simpa using hsorted.filter keep
  have hlength := ((List.mergeSort_perm l le).filter keep).length_eq
  exact (hsub.eq_of_length hlength.symm).symm

theorem stablySorted_mergeSort (order : κ → κ → Ordering) [TransCmp order] (rank : α → κ)
    (l : List α) :
    StablySorted order rank l (l.mergeSort fun x y => (order (rank x) (rank y)).isLE) := by
  have hc := consistent_of_transCmp order
  have htrans (a b c : α) (hab : (order (rank a) (rank b)).isLE)
      (hbc : (order (rank b) (rank c)).isLE) : (order (rank a) (rank c)).isLE :=
    hc.trans _ _ _ hab hbc
  have htotal (a b : α) : (order (rank a) (rank b)).isLE || (order (rank b) (rank a)).isLE := by
    rw [hc.swap (rank a) (rank b)]
    cases order (rank a) (rank b) <;> rfl
  constructor
  case perm => exact List.mergeSort_perm l _
  case ordered => exact List.pairwise_mergeSort htrans htotal l
  case stable =>
    intro k
    apply filter_mergeSort htrans htotal
    intro a b ha hb
    have hak := eq_of_beq ha
    have hkb : order k (rank b) = .eq := by
      rw [hc.swap (rank b) k, eq_of_beq hb]
      rfl
    apply hc.trans _ k _
    · rw [hak]
      rfl
    · rw [hkb]
      rfl

end Sorting

namespace RankKey

variable {x y : RankKey}

instance : TransCmp RankKey.order :=
  inferInstanceAs <| TransCmp <|
    compareLex (fun x y => compareOn (·.siblings.place) y x) <|
    compareLex (fun x y => compareOn (·.ancestors.place) y x) <|
    compareLex (compareOn (·.position.place)) <|
    compareLex (compareOn span) (compareOn rank)

/-- What makes a pair better than another one: the first number in which their keys differ. -/
def Before (x y : RankKey) : Prop :=
  y.siblings.Below x.siblings ∨ y.siblings = x.siblings ∧
    (y.ancestors.Below x.ancestors ∨ y.ancestors = x.ancestors ∧
      (x.position.Below y.position ∨ x.position = y.position ∧
        (x.span < y.span ∨ x.span = y.span ∧ x.rank < y.rank)))

theorem order_eq_lt_iff : x.order y = .lt ↔ x.Before y := by
  simp only [order, Before, Ordering.then_eq_lt, Binary64.order_eq_lt_iff,
    Binary64.order_eq_eq_iff, Nat.compare_eq_lt, Nat.compare_eq_eq]

end RankKey

namespace Ranking

variable {src dst : Tree} {p : Pairing} {pairs : List (NodeId × NodeId)}

theorem sort_eq_mergeSort {rank : NodeId × NodeId → RankKey}
    (h : ∀ x ∈ pairs, key src dst p x.1 x.2 = .ok (rank x)) :
    sort src dst p pairs = .ok (pairs.mergeSort fun x y => ((rank x).order (rank y)).isLE) := by
  obtain ⟨keyed, hkeyed, hall⟩ := Gives.mapM
    (g := fun x => return (← key src dst p x.1 x.2, (x.1, x.2))) (r := fun x e => e = (rank x, x))
    fun x hx => (Gives.of_eq (h x hx)).bind fun k hk => .pure (by rw [hk])
  have hmap : keyed = pairs.map fun x => (rank x, x) := by
    clear h hkeyed
    induction hall with
    | nil => rfl
    | cons hx _ ih => rw [List.map_cons, hx, ih]
  have hsort := List.map_mergeSort (f := fun x => (rank x, x)) (l := pairs)
    (r := fun x y => ((rank x).order (rank y)).isLE) (s := fun x y => (x.1.order y.1).isLE)
    fun _ _ _ _ => rfl
  rw [sort, hkeyed]
  change Except.ok ((keyed.mergeSort _).map _) = _
  rw [hmap, ← hsort, List.map_map]
  exact congrArg Except.ok (List.map_id _)

/-- Ranking keys compare consistently, whatever their bits, NaNs and signed zeros among them: the
first of the five numbers that differs decides, and a floating-point number is below every greater
one. Wherever all keys can be computed the pairs are sorted by them, and the sort is stable. -/
theorem sort_stablySorted (src dst : Tree) (p : Pairing) (pairs : List (NodeId × NodeId))
    (h : ∀ x ∈ pairs, ∃ k, key src dst p x.1 x.2 = .ok k) :
    Consistent RankKey.order ∧
      (∀ k l : RankKey, k.order l = .lt ↔ k.Before l) ∧
      (∀ a b : Float, a < b → (Binary64.ofFloat a).Below (Binary64.ofFloat b)) ∧
      ∃ rank sorted, (∀ x ∈ pairs, key src dst p x.1 x.2 = .ok (rank x)) ∧
        sort src dst p pairs = .ok sorted ∧
        StablySorted RankKey.order rank pairs sorted := by
  refine ⟨consistent_of_transCmp _, fun k l => RankKey.order_eq_lt_iff,
    fun a b => Binary64.below_of_lt, ?_⟩
  have hkey (x : NodeId × NodeId) : ∃ k, x ∈ pairs → key src dst p x.1 x.2 = .ok k := by
    by_cases hx : x ∈ pairs
    · obtain ⟨k, hk⟩ := h x hx
      exact ⟨k, fun _ => hk⟩
    · exact ⟨⟨⟨0⟩, ⟨0⟩, ⟨0⟩, 0, 0⟩, fun hmem => absurd hmem hx⟩
  choose rank hrank using hkey
  exact ⟨rank, _, hrank, sort_eq_mergeSort hrank, stablySorted_mergeSort RankKey.order rank pairs⟩

attribute [local instance] TokenHash.constant

def twinLeaves : Tree := ((twig 0 1).addChild 1 { kind := .named 1 }).2.measured

def leafKey (same : Bool) : RankKey :=
  ⟨.ofFloat 0, .ofFloat 1, .ofFloat (if same then 0 else 1), 0, if same then 0 else 1⟩

/-- Leaves at the same index come before those at different ones, and both groups keep their
order. -/
theorem sort_stablySorted_twinLeaves :
    ∃ rank, sort twinLeaves twinLeaves .empty [(2, 3), (2, 2), (3, 2), (3, 3)] =
        .ok [(2, 2), (3, 3), (2, 3), (3, 2)] ∧
      StablySorted RankKey.order rank [(2, 3), (2, 2), (3, 2), (3, 3)]
        [(2, 2), (3, 3), (2, 3), (3, 2)] := by
  have hkeys : ∀ x ∈ [(2, 3), (2, 2), (3, 2), (3, 3)],
      key twinLeaves twinLeaves .empty x.1 x.2 = .ok (leafKey (x.1 == x.2)) := by
    decide +kernel
  have horder : ∀ k l, ((leafKey k).order (leafKey l)).isLE = (k || !l) := by decide +kernel
  obtain ⟨-, -, -, rank, sorted, -, hsort, hstable⟩ :=
    sort_stablySorted twinLeaves twinLeaves .empty _ fun x hx => ⟨_, hkeys x hx⟩
  have hsorted : sorted = [(2, 2), (3, 3), (2, 3), (3, 2)] := by
    rw [sort_eq_mergeSort hkeys, Except.ok.injEq] at hsort
    rw [← hsort]
    simp [List.mergeSort, List.MergeSort.Internal.splitInTwo, horder]
  subst hsorted
  exact ⟨rank, hsort, hstable⟩

end Ranking

end TreeDelta
