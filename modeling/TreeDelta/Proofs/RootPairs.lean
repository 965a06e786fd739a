import TreeDelta.Proofs.PairingRuns

namespace TreeDelta.Pairing

variable {src dst : Tree} {p q r : Pairing} {a b : NodeId}

namespace Sound

theorem pairs_remove_left (hp : p.Sound) (h : p.image? a = some b) :
    (p.remove a b).2.pairs = p.pairs.filter (·.1 != a) := by
  rw [pairs_remove, if_pos (by simp [joins, h])]
  refine List.filter_congr fun z hz => ?_
  have hz := (hp.mem_pairs z.1 z.2).1 hz
  rw [Bool.eq_iff_iff, bne_iff_ne, bne_iff_ne, not_iff_not, Prod.ext_iff]
  refine and_iff_left_of_imp fun ha => ?_
  rw [ha, h] at hz
  exact (Option.some.inj hz).symm

theorem pairs_remove_right (hp : p.Sound) (h : p.image? a = some b) :
    (p.remove a b).2.pairs = p.pairs.filter (·.2 != b) := by
  rw [pairs_remove, if_pos (by simp [joins, h])]
  refine List.filter_congr fun z hz => ?_
  have hz := (hp.mem_pairs z.1 z.2).1 hz
  rw [Bool.eq_iff_iff, bne_iff_ne, bne_iff_ne, not_iff_not, Prod.ext_iff]
  refine and_iff_right_of_imp fun hb => ?_
  rw [hb] at hz
  exact hp.image_inj hz h

theorem filter_left (hp : p.Sound) (h : p.image? a = none) :
    p.pairs.filter (·.1 != a) = p.pairs := by
  refine List.filter_eq_self.2 fun z hz => bne_iff_ne.2 ?_
  rintro rfl
  cases h.symm.trans ((hp.mem_pairs z.1 z.2).1 hz)

theorem filter_right (hp : p.Sound) (h : p.origin? b = none) :
    p.pairs.filter (·.2 != b) = p.pairs := by
  refine List.filter_eq_self.2 fun z hz => bne_iff_ne.2 ?_
  rintro rfl
  cases h.symm.trans ((hp.image_iff_origin z.1 z.2).1 ((hp.mem_pairs z.1 z.2).1 hz))

end Sound

def besideRoots (src dst : Tree) (p : Pairing) : List (NodeId × NodeId) :=
  p.pairs.filter fun z => z.2 != dst.root && z.1 != src.root

/-- The pairs that stay when the roots become partners. -/
def keptPairs (src dst : Tree) (p : Pairing) : List (NodeId × NodeId) :=
  if p.joins src.root dst.root then p.pairs else p.besideRoots src dst

/-- The roots are partners already, or they become so and leave the partners that they have. -/
inductive JoinsRoots (src dst : Tree) : Pairing → Pairing → Prop where
  | already {p : Pairing} (roots : p.image? src.root = some dst.root) : JoinsRoots src dst p p
  | anew {p q r : Pairing} (apart : p.image? src.root ≠ some dst.root) (sound : q.Sound)
      (kept : q.pairs = p.besideRoots src dst) (added : q.add src.root dst.root = .ok r) :
      JoinsRoots src dst p r

/-- What the second phase does to a pairing: it adds joinable pairs, joins the roots, and then adds
joinable pairs again. -/
def Completes (src dst : Tree) (p s : Pairing) : Prop :=
  ∃ q r, p.Grows src dst q ∧ q.JoinsRoots src dst r ∧ r.Grows src dst s

namespace JoinsRoots

theorem sound (h : p.JoinsRoots src dst r) (hp : p.Sound) : r.Sound := by
  cases h with
  | already => exact hp
  | anew _ hq _ hadd => exact hq.add hadd

theorem image? (h : p.JoinsRoots src dst r) : r.image? src.root = some dst.root := by
  cases h with
  | already hroots => exact hroots
  | anew _ _ _ hadd => rw [image?_of_add hadd, if_pos rfl]

theorem image?_cases (h : p.JoinsRoots src dst r) (hp : p.Sound) (hab : r.image? a = some b) :
    (a, b) = (src.root, dst.root) ∨ p.image? a = some b := by
  cases h with
  | already => exact .inr hab
  | anew _ hq hkept hadd =>
      rw [image?_of_add hadd] at hab
      split at hab
      · next ha =>
        cases hab
        exact .inl (by rw [ha])
      · rw [← hq.mem_pairs, hkept] at hab
        exact .inr ((hp.mem_pairs a b).1 (List.mem_filter.1 hab).1)

theorem between (h : p.JoinsRoots src dst r) (hp : p.Between src dst) : r.Between src dst := by
  refine ⟨h.sound hp.sound, fun a b hab => ?_⟩
  rcases h.image?_cases hp.sound hab with hroots | hold
  · cases hroots
    exact ⟨.refl, .refl⟩
  · exact hp.within a b hold

theorem alike (h : p.JoinsRoots src dst r) (hp : p.Sound) (halike : p.Alike src dst) :
    r.Alike src dst :=
  fun a b hab hne => halike a b ((h.image?_cases hp hab).resolve_left hne) hne

end JoinsRoots

theorem Grows.keptPairs_eq (h : p.Grows src dst q) (hp : p.Between src dst)
    (hroots : q.image? src.root = some dst.root) : p.keptPairs src dst = p.pairs := by
  rw [keptPairs]
  split
  · rfl
  · next hnot =>
    obtain ⟨new, heq, hfree⟩ := h.exists_new
    rw [joins, beq_iff_eq, ← hp.sound.mem_pairs] at hnot
    rw [← (h.between hp).sound.mem_pairs, heq, List.mem_append] at hroots
    obtain ⟨_, hsrc, hdst⟩ := hfree _ (hroots.resolve_left hnot)
    rw [besideRoots, ← List.filter_filter, hp.sound.filter_left hsrc, hp.sound.filter_right hdst]

namespace Completes

theorem between (h : p.Completes src dst r) (hp : p.Between src dst) :
    r.Between src dst := by
  obtain ⟨q, q', hgrows, hroots, hlast⟩ := h
  exact hlast.between (hroots.between (hgrows.between hp))

theorem image? (h : p.Completes src dst r) : r.image? src.root = some dst.root := by
  obtain ⟨q, q', hgrows, hroots, hlast⟩ := h
  exact hlast.image hroots.image?

theorem matched (h : p.Completes src dst r) (hp : p.Between src dst)
    (halike : p.Alike src dst) : r.Matched src dst := by
  obtain ⟨q, q', hgrows, hroots, hlast⟩ := h
  have hq := hgrows.between hp
  exact hlast.matched
    ⟨hroots.between hq, hroots.alike hq.sound (hgrows.alike halike), hroots.image?⟩

theorem exists_new (h : p.Completes src dst r) (hp : p.Between src dst) :
    ∃ new, r.pairs = p.keptPairs src dst ++ new ∧
      ∀ z ∈ new, z = (src.root, dst.root) ∨ Joinable src dst z.1 z.2 := by
  obtain ⟨q, q', hgrows, hroots, hlast⟩ := h
  obtain ⟨mid, hmid, hfree⟩ := hgrows.exists_new
  obtain ⟨last, hend, hjoin⟩ := hlast.exists_new
  cases hroots with
  | already hroots =>
      refine ⟨mid ++ last, ?_, ?_⟩
      · rw [hend, hmid, hgrows.keptPairs_eq hp hroots, List.append_assoc]
      · exact List.forall_mem_append.2
          ⟨fun z hz => .inr (hfree z hz).1, fun z hz => .inr (hjoin z hz).1⟩
  | @anew s _ hapart _ hkept hadd =>
      have hnot : ¬ p.joins src.root dst.root := by
        rw [joins, beq_iff_eq]
        exact fun hroots => hapart (hgrows.image hroots)
      obtain ⟨rest, hsplit, hrest⟩ :
          ∃ rest, s.pairs = p.besideRoots src dst ++ rest ∧ rest ⊆ mid := by
        rw [hkept, besideRoots, hmid, List.filter_append]
        exact ⟨_, rfl, List.filter_subset_self _⟩
      refine ⟨rest ++ ([(src.root, dst.root)] ++ last), ?_, ?_⟩
      · rw [hend, pairs_of_add hadd, hsplit, keptPairs, if_neg hnot, List.append_assoc,
          List.append_assoc]
      · refine List.forall_mem_append.2 ⟨fun z hz => .inr (hfree z (hrest hz)).1, ?_⟩
        exact List.forall_mem_append.2
          ⟨List.forall_mem_singleton.2 (.inl rfl), fun z hz => .inr (hjoin z hz).1⟩

end Completes

end TreeDelta.Pairing
