import TreeDelta.Matching
import TreeDelta.Proofs.ContainerPhase
import TreeDelta.Proofs.IdenticalPhase

namespace TreeDelta

variable {src dst : Tree}

theorem Pairing.between_withCapacity (src dst : Tree) (n m : Nat) :
    (withCapacity n m).Between src dst :=
  ⟨.withCapacity n m, fun a b h => by simp [image?, withCapacity] at h⟩

theorem Pairing.alike_withCapacity (src dst : Tree) (n m : Nat) :
    (withCapacity n m).Alike src dst :=
  fun a b h => by simp [image?, withCapacity] at h

theorem yields_extendMatching [TokenHash] (c : Config) (hs : src.Surveyed) (hd : dst.Surveyed)
    {p : Pairing}
    (hp : p.Between src dst) (halike : p.Alike src dst) :
    Yields (Excuse c src dst) (extendMatching c src dst) p fun _ q => q.Matched src dst := by
  refine .bind ((Identical.adds_run hs hd hp).mono fun _ q hq => ?_)
  have hp := hq.1.between hp
  exact (Containers.yields_run hs hd hp).mono fun _ r hr => hr.matched hp (hq.1.alike halike)

theorem givesOr_matching_of_yields [TokenHash] {c : Config} {excuse : Fault → Prop}
    {post : Pairing → Prop}
    (hs : src.Surveyed) (hd : dst.Surveyed)
    (h : Yields excuse (extendMatching c src dst)
      (.withCapacity src.forest.size dst.forest.size) fun _ q => post q) :
    GivesOr excuse (matching c src dst) post := by
  unfold Yields at h
  rw [matching, if_pos (by rw [hs.isMeasured, hd.isMeasured]; rfl)]
  split at h
  · next q hq =>
    rw [hq]
    exact .ok h
  · next fault q hq =>
    rw [hq]
    exact .inr ⟨fault, rfl, h⟩

theorem givesOr_matching [TokenHash] (c : Config) (hs : src.Surveyed) (hd : dst.Surveyed) :
    GivesOr (Excuse c src dst) (matching c src dst) (·.Matched src dst) :=
  givesOr_matching_of_yields hs hd <| yields_extendMatching c hs hd
    (Pairing.between_withCapacity src dst src.forest.size dst.forest.size)
    (Pairing.alike_withCapacity src dst src.forest.size dst.forest.size)

theorem gives_matching [TokenHash] (c : Config) (hs : src.Ready) (hd : dst.Ready) :
    Gives (matching c src dst) (·.Matched src dst) ∨
      matching c src dst = .error .backtraceKinds ∧ DistanceFails c src dst := by
  refine (givesOr_matching c hs.surveyed hd.surveyed).imp_right ?_
  rintro ⟨_, hfail, hdistance | hlarge⟩
  · exact ⟨hfail, hdistance⟩
  · exact absurd ⟨hs.small, hd.small⟩ hlarge

/-- Whatever the configuration, a matching is a one-to-one pairing of nodes that the two roots
reach, with the roots as partners and equal kinds in every other pair. No fault arises but from an
edit distance, and none at all where nodes are recovered child by child. -/
theorem matching_pairs_like_nodes [TokenHash] (c : Config) (hs : src.Ready) (hd : dst.Ready) :
    (∃ p, matching c src dst = .ok p ∧ p.Sound ∧ p.Within src dst ∧
      p.image? src.root = some dst.root ∧
      ∀ a b, p.image? a = some b → (a, b) ≠ (src.root, dst.root) →
        src.kind a = dst.kind b) ∨
      matching c src dst = .error .backtraceKinds ∧ DistanceFails c src dst := by
  rcases gives_matching c hs hd with ⟨p, hp, hm⟩ | hfail
  · refine .inl ⟨p, hp, hm.between.sound, hm.between.within, hm.roots, fun a b hab hne => ?_⟩
    obtain ⟨ha, hb⟩ := hm.between.within a b hab
    rw [Tree.kind_eq_ok (hs.has ha), Tree.kind_eq_ok (hd.has hb), hm.alike a b hab hne]
  · exact .inr hfail

theorem preorder_twig [TokenHash] (a b : Nat) : (twig a b).measured.preorder = [1, 2] := rfl

theorem ready_twig [TokenHash] (a b : Nat) : (twig a b).measured.Ready where
  sound := (sound_twig a b).measured
  measures := rfl
  count := by
    rw [preorder_twig]
    decide
  span x hx := by
    have hmem := (sound_twig a b).measured.mem_preorder_iff.2 hx
    rw [preorder_twig] at hmem
    have hzero : ∀ y ∈ [1, 2], (twig a b).measured.forest.spanEnd y = 0 := by
      intro y hy
      rcases List.mem_pair.1 hy with rfl | rfl <;> rfl
    rw [hzero x hmem]
    decide

attribute [local instance] TokenHash.constant

/-- Roots of different kinds are partners all the same. -/
theorem matching_twigs :
    (twig 0 1).measured.Ready ∧ (twig 2 1).measured.Ready ∧
      ∃ p, matching { recovery := .simple } (twig 0 1).measured (twig 2 1).measured = .ok p ∧
        p.Sound ∧ p.Within (twig 0 1).measured (twig 2 1).measured ∧ p.image? 1 = some 1 ∧
        ∀ a b, p.image? a = some b → (a, b) ≠ (1, 1) →
          (twig 0 1).measured.kind a = (twig 2 1).measured.kind b :=
  ⟨ready_twig 0 1, ready_twig 2 1,
    (matching_pairs_like_nodes _ (ready_twig 0 1) (ready_twig 2 1)).resolve_right
      fun hfail => hfail.2.1 rfl⟩

end TreeDelta
