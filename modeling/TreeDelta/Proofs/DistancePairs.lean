import TreeDelta.Proofs.Numbering
import TreeDelta.Proofs.PairingRuns

namespace TreeDelta

variable {src dst t : Tree} {a b : NodeId}

/-- The computation gives a value of which `post` holds, or meets a pair of different kinds. -/
abbrev Traces {α : Type} (x : Except Fault α) (post : α → Prop) : Prop :=
  GivesOr (· = .backtraceKinds) x post

namespace Numbered

structure Fits (n : Numbered) (t : Tree) (a : NodeId) : Prop where
  id : ∀ i ≤ n.size, t.forest.Under a (n.id i)
  leaf : ∀ i ≤ n.size, n.leaf i ≤ i

theorem Numbers.fits {n : Numbered} (h : n.Numbers t a) : n.Fits t a := by
  refine ⟨fun i hi => ?_, fun i hi => ?_⟩
  · -- number 0 stands for the first node as well
    cases i with
    | zero => exact h.under (i := 1) Nat.one_pos h.size_pos
    | succ i => exact h.under (Nat.succ_pos i) hi
  · cases i with
    | zero => exact Nat.le_of_eq h.leaf_zero
    | succ i => exact h.leaf_le (Nat.succ_pos i) hi

end Numbered

structure TreePair.Fits (p : TreePair) (src dst : Tree) (a b : NodeId) : Prop where
  src : p.src.Fits src a
  dst : p.dst.Fits dst b

namespace Trail

variable {κ : Type} [EditCost κ] {p : TreePair} {tables : Tables κ} {trail : Trail}

/-- Whatever was found lies in the two subtrees, and whatever is pending has a number. -/
structure Within (trail : Trail) (p : TreePair) (src dst : Tree) (a b : NodeId) : Prop where
  found : PairsUnder src dst a b trail.found
  pending : ∀ x ∈ trail.pending, x.1 ≤ p.src.size ∧ x.2 ≤ p.dst.size

theorem within_start : Within {} p src dst a b := ⟨.nil, by simp⟩

theorem Within.find (h : trail.Within p src dst a b) (hp : p.Fits src dst a b) {row col : Nat}
    (hrow : row ≤ p.src.size) (hcol : col ≤ p.dst.size) :
    Within { trail with found := (p.src.id row, p.dst.id col) :: trail.found } p src dst
      a b := by
  exact ⟨h.found.cons ⟨hp.src.id row hrow, hp.dst.id col hcol⟩, h.pending⟩

theorem Within.postpone (h : trail.Within p src dst a b) {row col : Nat}
    (hrow : row ≤ p.src.size) (hcol : col ≤ p.dst.size) :
    Within { trail with pending := (row, col) :: trail.pending } p src dst a b := by
  refine ⟨h.found, fun x hx => ?_⟩
  rcases List.mem_cons.1 hx with rfl | hx
  · exact ⟨hrow, hcol⟩
  · exact h.pending x hx

theorem traces_walk (hp : p.Fits src dst a b) (i j fuel : Nat) {row col : Nat}
    (hrow : row ≤ p.src.size) (hcol : col ≤ p.dst.size) (h : trail.Within p src dst a b) :
    Traces (walk p tables i j fuel row col trail) fun trail => trail.Within p src dst a b := by
  induction fuel generalizing row col trail with
  | zero => exact .ok h
  | succ fuel ih =>
      have hrow' : row - 1 ≤ p.src.size := by omega
      have hcol' : col - 1 ≤ p.dst.size := by omega
      have hleft := hp.src.leaf row hrow
      have hright := hp.dst.leaf col hcol
      rw [walk]
      dsimp only
      split
      · exact .ok h
      · split
        · exact ih hrow' hcol h
        · split
          · exact ih hrow hcol' h
          · split
            · split
              · exact .inr ⟨_, rfl, rfl⟩
              · exact ih hrow' hcol' (h.find hp hrow hcol)
            · exact ih (by omega) (by omega) (h.postpone hrow hcol)

theorem traces_unwind (hp : p.Fits src dst a b) (fuel : Nat) (h : trail.Within p src dst a b) :
    Traces (unwind p fuel tables trail) (PairsUnder src dst a b) := by
  have hfound : PairsUnder src dst a b trail.found.reverse :=
    fun x hx => h.found x (List.mem_reverse.1 hx)
  induction fuel generalizing tables trail with
  | zero => exact .ok hfound
  | succ fuel ih =>
      rw [unwind]
      cases hpending : trail.pending with
      | nil => exact .ok hfound
      | cons x pending =>
          obtain ⟨hi, hj⟩ := h.pending x (by simp [hpending])
          have hrest : Within { trail with pending := pending } p src dst a b :=
            ⟨h.found, fun y hy => h.pending y (by simp [hpending, hy])⟩
          apply (traces_walk hp _ _ _ hi hj hrest).bind
          intro next hnext
          exact ih hnext fun y hy => hnext.found y (List.mem_reverse.1 hy)

end Trail

theorem traces_cheapestPairs [TokenHash] (κ : Type) [EditCost κ] (hs : src.Surveyed)
    (hd : dst.Surveyed)
    (ha : src.Reaches a) (hb : dst.Reaches b) :
    Traces (cheapestPairs κ src dst a b) (PairsUnder src dst a b) := by
  have hpair : Gives (TreePair.ofSubtrees src dst a b) fun p => p.Fits src dst a b :=
    (TreePair.gives_ofSubtrees hs hd ha hb).mono fun p hp => ⟨hp.src.fits, hp.dst.fits⟩
  obtain ⟨p, hp, hfits⟩ := hpair
  rw [cheapestPairs, hp]
  change Traces (p.matched κ) _
  rw [TreePair.matched]
  apply (Trail.traces_walk hfits _ _ _ le_rfl le_rfl Trail.within_start).bind
  intro next hnext
  exact Trail.traces_unwind hfits _ hnext

end TreeDelta
