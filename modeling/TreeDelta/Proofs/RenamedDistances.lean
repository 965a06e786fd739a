import TreeDelta.Proofs.DistancePairs
import TreeDelta.Proofs.RenamedPairings

namespace TreeDelta

variable {r s : NodeId → NodeId → Prop} {t u : Tree} {a b : NodeId}

namespace Numbered

structure Renamed (r : NodeId → NodeId → Prop) (n n' : Numbered) : Prop where
  size : n.size = n'.size
  leaf : n.leaf = n'.leaf
  content : n.content = n'.content
  id : ∀ i ≤ n.size, r (n.id i) (n'.id i)

theorem leaves_eq_of_renamed [TokenHash] (h : t.Renamed r u) {ids ids' : List NodeId}
    (hids : List.Forall₂ r ids ids') (i : Nat) : leaves t i ids = leaves u i ids' := by
  induction hids generalizing i with
  | nil => rfl
  | cons hx _ ih => rw [leaves, leaves, h.measure_eq hx, ih]

theorem lockstep_ofSubtree [TokenHash] (h : t.Renamed r u) (hab : r a b) :
    Lockstep (Renamed r) (ofSubtree t a) (ofSubtree u b) := by
  refine (h.subtree hab).bind fun x y hxy => ?_
  have hpost := hxy.postorder
  refine .after (leaves_eq_of_renamed h hpost 0) fun leaves => .pure ?_
  refine ⟨hpost.length_eq, rfl, ?_, fun i hi => ?_⟩
  · funext i
    simp only [content, hpost.map_eq_map fun _ _ hz => h.forest.content hz]
  · -- number 0 stands for the first node as well
    have hpos : 0 < x.postorder.length := x.length_postorder ▸ x.size_pos
    have hi : i ≤ x.postorder.length := hi
    have hlt : i - 1 < x.postorder.length := by omega
    simpa [Numbered.id, hlt, hpost.length_eq ▸ hlt] using
      hpost.get hlt (hpost.length_eq ▸ hlt)

theorem Renamed.keyRoots_eq {n n' : Numbered} (h : Renamed r n n') : n.keyRoots = n'.keyRoots := by
  rw [keyRoots, keyRoots, h.size, h.leaf]

end Numbered

structure TreePair.Renamed (r s : NodeId → NodeId → Prop) (p p' : TreePair) : Prop where
  src : Numbered.Renamed r p.src p'.src
  dst : Numbered.Renamed s p.dst p'.dst

section Walk

variable {κ : Type} [EditCost κ] {p p' : TreePair} (hp : TreePair.Renamed r s p p')
include hp

theorem Tables.fillForest_eq_of_renamed (i j : Nat) (tables : Tables κ) :
    tables.fillForest p i j = tables.fillForest p' i j := by
  simp only [fillForest, fillRow, fillCell, hp.src.leaf, hp.dst.leaf, hp.src.content,
    hp.dst.content]

theorem Tables.ofPair_eq_of_renamed : (Tables.ofPair p : Tables κ) = Tables.ofPair p' := by
  simp only [ofPair, blank, hp.src.keyRoots_eq, hp.dst.keyRoots_eq, hp.src.size, hp.dst.size,
    fillForest_eq_of_renamed hp]

namespace Trail

structure Renamed (r s : NodeId → NodeId → Prop) (trail trail' : Trail) : Prop where
  found : List.Forall₂ (Both r s) trail.found trail'.found
  pending : trail.pending = trail'.pending

variable {src dst : Tree} {a b : NodeId} {trail trail' : Trail} {tables : Tables κ}
  (hfits : p.Fits src dst a b)
include hfits

theorem lockstep_walk (i j fuel : Nat) {row col : Nat} (hrow : row ≤ p.src.size)
    (hcol : col ≤ p.dst.size) (h : Renamed r s trail trail') :
    Lockstep (Renamed r s) (walk p tables i j fuel row col trail)
      (walk p' tables i j fuel row col trail') := by
  induction fuel generalizing row col trail trail' with
  | zero => exact .ok h
  | succ fuel ih =>
      have hrow' : row - 1 ≤ p.src.size := by omega
      have hcol' : col - 1 ≤ p.dst.size := by omega
      have hleft := hfits.src.leaf row hrow
      have hright := hfits.dst.leaf col hcol
      rw [walk, walk, ← hp.src.leaf, ← hp.dst.leaf, ← hp.src.content, ← hp.dst.content]
      dsimp only
      split
      · exact .ok h
      · split
        · exact ih hrow' hcol h
        · split
          · exact ih hrow hcol' h
          · split
            · split
              · exact .error _
              · refine ih hrow' hcol' ⟨.cons ?_ h.found, h.pending⟩
                exact ⟨hp.src.id row hrow, hp.dst.id col hcol⟩
            · refine ih (by omega) (by omega) ⟨h.found, ?_⟩
              dsimp only
              rw [h.pending]

theorem lockstep_unwind (fuel : Nat) (h : Renamed r s trail trail')
    (hwithin : trail.Within p src dst a b) :
    Lockstep (List.Forall₂ (Both r s)) (unwind p fuel tables trail)
      (unwind p' fuel tables trail') := by
  have hfound := List.rel_reverse h.found
  induction fuel generalizing tables trail trail' with
  | zero => exact .ok hfound
  | succ fuel ih =>
      rw [unwind, unwind, ← h.pending]
      cases hpending : trail.pending with
      | nil => exact .ok hfound
      | cons x pending =>
          obtain ⟨hi, hj⟩ := hwithin.pending x (by simp [hpending])
          have hrest : Within { trail with pending := pending } p src dst a b :=
            ⟨hwithin.found, fun y hy => hwithin.pending y (by simp [hpending, hy])⟩
          dsimp only
          rw [← Tables.fillForest_eq_of_renamed hp]
          have hnext : Renamed r s { trail with pending := pending }
              { trail' with pending := pending } := ⟨h.found, rfl⟩
          refine ((lockstep_walk hp hfits x.1 x.2 _ hi hj hnext).and_left
            (traces_walk hfits x.1 x.2 _ hi hj hrest)).bind fun last last' hlast => ?_
          exact ih hlast.1 hlast.2 (List.rel_reverse hlast.1.found)

end Trail

end Walk

theorem lockstep_cheapestPairs [TokenHash] (κ : Type) [EditCost κ] {src src' dst dst' : Tree}
    {a a' b b' : NodeId} (hs : src.Renamed r src') (hd : dst.Renamed s dst') (ha : r a a')
    (hb : s b b') :
    Lockstep (List.Forall₂ (Both r s)) (cheapestPairs κ src dst a b)
      (cheapestPairs κ src' dst' a' b') := by
  have hpair : Lockstep (TreePair.Renamed r s) (TreePair.ofSubtrees src dst a b)
      (TreePair.ofSubtrees src' dst' a' b') :=
    (Numbered.lockstep_ofSubtree hs ha).bind fun _ _ hx =>
      (Numbered.lockstep_ofSubtree hd hb).bind fun _ _ hy => .pure ⟨hx, hy⟩
  have hfits : GivesOr (fun _ => False) (TreePair.ofSubtrees src dst a b) (·.Fits src dst a b) :=
    .inl ((TreePair.gives_ofSubtrees hs.left hd.left (hs.reaches ha).1 (hd.reaches hb).1).mono
      fun p hp => ⟨hp.src.fits, hp.dst.fits⟩)
  refine (hpair.and_left hfits).bind fun p p' hp => ?_
  obtain ⟨hp, hfits⟩ := hp
  rw [TreePair.matched, TreePair.matched, ← Tables.ofPair_eq_of_renamed hp, ← hp.src.size,
    ← hp.dst.size]
  refine ((Trail.lockstep_walk hp hfits _ _ _ le_rfl le_rfl ⟨.nil, rfl⟩).and_left
    (Trail.traces_walk hfits _ _ _ le_rfl le_rfl Trail.within_start)).bind fun next next' hnext => ?_
  exact Trail.lockstep_unwind hp hfits _ hnext.1 hnext.2

end TreeDelta
