import TreeDelta.Proofs.Twins

namespace TreeDelta

variable {src dst : Tree} {a b x y : NodeId}

theorem Forest.Sound.contentTree_node {f : Forest} (h : f.Sound) (a : NodeId) :
    f.contentTree a = .node (f.contentOf a) ((f.childrenOf a).map f.contentTree) := by
  rw [contentTree, h.subtree_eq, Rose.map_node, List.map_map]
  rfl

theorem contentTree_eq_iff (hs : src.forest.Sound) (hd : dst.forest.Sound) :
    src.forest.contentTree a = dst.forest.contentTree b ↔
      src.forest.contentOf a = dst.forest.contentOf b ∧
        List.Forall₂ (fun x y => src.forest.contentTree x = dst.forest.contentTree y)
          (src.forest.childrenOf a) (dst.forest.childrenOf b) := by
  rw [hs.contentTree_node, hd.contentTree_node, Rose.node.injEq, ← List.forall₂_eq_eq_eq,
    List.forall₂_map_left_iff, List.forall₂_map_right_iff]

/-- The nodes of two subtrees, paired in pre-order. -/
def alignedPairs (src dst : Tree) (a b : NodeId) : List (NodeId × NodeId) :=
  (src.forest.subtree a).preorder.zip (dst.forest.subtree b).preorder

theorem length_preorder_eq (h : src.forest.contentTree a = dst.forest.contentTree b) :
    (src.forest.subtree a).preorder.length = (dst.forest.subtree b).preorder.length :=
  (Rose.forall₂_preorder (sameShape_of_eq h)).length_eq

theorem zip_flatMap_preorder {as bs : List NodeId}
    (h : List.Forall₂ (fun x y => src.forest.contentTree x = dst.forest.contentTree y) as bs) :
    (as.flatMap fun x => (src.forest.subtree x).preorder).zip
        (bs.flatMap fun y => (dst.forest.subtree y).preorder) =
      (as.zip bs).flatMap fun z => alignedPairs src dst z.1 z.2 := by
  induction h with
  | nil => rfl
  | cons hxy _ ih =>
      rw [List.flatMap_cons, List.flatMap_cons, List.zip_append (length_preorder_eq hxy), ih,
        List.zip_cons_cons, List.flatMap_cons]
      rfl

section Places

variable (hs : src.forest.Sound) (hd : dst.forest.Sound)
  (h : src.forest.contentTree a = dst.forest.contentTree b)
include hs hd

theorem under_of_mem_alignedPairs (hxy : (x, y) ∈ alignedPairs src dst a b) :
    src.forest.Under a x ∧ dst.forest.Under b y := by
  obtain ⟨hx, hy⟩ := List.of_mem_zip hxy
  exact ⟨hs.mem_preorder_iff.1 hx, hd.mem_preorder_iff.1 hy⟩

include h

theorem alignedPairs_eq_cons : alignedPairs src dst a b = (a, b) ::
    ((src.forest.childrenOf a).zip (dst.forest.childrenOf b)).flatMap fun z =>
      alignedPairs src dst z.1 z.2 := by
  rw [alignedPairs, hs.preorder_subtree, hd.preorder_subtree, List.zip_cons_cons,
    zip_flatMap_preorder ((contentTree_eq_iff hs hd).1 h).2]

theorem mem_alignedPairs_self : (a, b) ∈ alignedPairs src dst a b := by
  rw [alignedPairs_eq_cons hs hd h]
  exact List.mem_cons_self

theorem alignedPairs_subset_of_children
    (hxy : (x, y) ∈ (src.forest.childrenOf a).zip (dst.forest.childrenOf b)) :
    alignedPairs src dst x y ⊆ alignedPairs src dst a b := by
  intro z hz
  rw [alignedPairs_eq_cons hs hd h]
  exact List.mem_cons_of_mem _ (List.mem_flatMap.2 ⟨(x, y), hxy, hz⟩)

theorem places_of_mem_alignedPairs (hxy : (x, y) ∈ alignedPairs src dst a b) :
    src.forest.contentTree x = dst.forest.contentTree y ∧
      List.Forall₂ (fun x' y' => (x', y') ∈ alignedPairs src dst a b)
        (src.forest.childrenOf x) (dst.forest.childrenOf y) := by
  induction a using hs.induction_children generalizing b with
  | step a ih =>
      have hchildren := ((contentTree_eq_iff hs hd).1 h).2
      rw [alignedPairs_eq_cons hs hd h] at hxy
      rcases List.mem_cons.1 hxy with heq | hxy
      · cases heq
        refine ⟨h, List.forall₂_iff_zip.2 ⟨hchildren.length_eq, fun hz => ?_⟩⟩
        exact alignedPairs_subset_of_children hs hd h hz
          (mem_alignedPairs_self hs hd (List.forall₂_zip hchildren hz))
      · obtain ⟨z, hz, hxy⟩ := List.mem_flatMap.1 hxy
        obtain ⟨hsame, hbelow⟩ :=
          ih z.1 (List.of_mem_zip hz).1 (List.forall₂_zip hchildren hz) hxy
        refine ⟨hsame, hbelow.imp fun x' y' hmem => ?_⟩
        exact alignedPairs_subset_of_children hs hd h hz hmem

theorem exists_copy (hx : src.forest.Under a x) :
    ∃ y, (x, y) ∈ alignedPairs src dst a b ∧ dst.forest.Under b y ∧
      src.forest.contentTree x = dst.forest.contentTree y := by
  have hmem : x ∈ (alignedPairs src dst a b).map Prod.fst := by
    rw [alignedPairs, List.map_fst_zip (Nat.le_of_eq (length_preorder_eq h))]
    exact hs.mem_preorder_iff.2 hx
  obtain ⟨⟨_, y⟩, hxy, rfl⟩ := List.mem_map.1 hmem
  exact ⟨y, hxy, (under_of_mem_alignedPairs hs hd hxy).2,
    (places_of_mem_alignedPairs hs hd h hxy).1⟩

end Places

end TreeDelta
