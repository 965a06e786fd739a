import TreeDelta.Proofs.MatchingFuel

namespace TreeDelta

variable {c : Config} {src dst : Tree} {p q : Pairing} {a b x y : NodeId}

theorem Forest.Sound.mem_descendants_of_under {f : Forest} (h : f.Sound) (hx : f.Under a x)
    (hne : x ≠ a) : x ∈ (f.subtree a).descendants :=
  h.mem_descendants_iff_under.2 ⟨hx, hne⟩

namespace Pairing

/-- A pair of one kind properly inside `a` and `b`, of nodes that were free. -/
structure NewInside (src dst : Tree) (p : Pairing) (a b : NodeId) (z : NodeId × NodeId) :
    Prop where
  kind : src.kind z.1 = dst.kind z.2
  left : z.1 ∈ (src.forest.subtree a).descendants
  right : z.2 ∈ (dst.forest.subtree b).descendants
  srcFree : p.image? z.1 = none
  dstFree : p.origin? z.2 = none

theorem Grows.exists_newInside [TokenHash] (h : p.Grows src dst q) (hs : src.Surveyed)
    (hd : dst.Surveyed)
    (hp : p.Between src dst) (hab : p.image? a = some b) (hnew : p.NewUnder src dst a b q) :
    ∃ new, q.pairs = p.pairs ++ new ∧ ∀ z ∈ new, p.NewInside src dst a b z := by
  obtain ⟨new, heq, hfree⟩ := h.exists_new
  refine ⟨new, heq, fun z hz => ?_⟩
  obtain ⟨hjoin, hleft, hright⟩ := hfree z hz
  have hunder : src.forest.Under a z.1 ∧ dst.forest.Under b z.2 := by
    refine (hnew z (heq ▸ List.mem_append_right _ hz)).resolve_left fun hold => ?_
    cases hleft.symm.trans ((hp.sound.mem_pairs _ _).1 hold)
  refine ⟨?_, hs.sound.forest.mem_descendants_of_under hunder.1 ?_,
    hd.sound.forest.mem_descendants_of_under hunder.2 ?_, hleft, hright⟩
  · rw [Tree.kind_eq_ok (hs.has hjoin.left), Tree.kind_eq_ok (hd.has hjoin.right), hjoin.kind]
  · rintro rfl
    cases hleft.symm.trans hab
  · rintro rfl
    cases hright.symm.trans ((hp.sound.image_iff_origin _ _).1 hab)

theorem image?_eq_of_append {new : List (NodeId × NodeId)} (hp : p.Sound) (hq : q.Sound)
    (h : q.pairs = p.pairs ++ new) (hx : ∀ z ∈ new, z.1 ≠ x) : q.image? x = p.image? x := by
  ext y
  rw [← hq.mem_pairs, ← hp.mem_pairs, h, List.mem_append]
  exact or_iff_left fun hmem => hx _ hmem rfl

theorem origin?_eq_of_append {new : List (NodeId × NodeId)} (hp : p.Sound) (hq : q.Sound)
    (h : q.pairs = p.pairs ++ new) (hy : ∀ z ∈ new, z.2 ≠ y) : q.origin? y = p.origin? y := by
  ext x
  rw [← hq.image_iff_origin, ← hp.image_iff_origin, ← hq.mem_pairs, ← hp.mem_pairs, h,
    List.mem_append]
  exact or_iff_left fun hmem => hy _ hmem rfl

end Pairing

namespace Containers

/-- One turn: the container on top of the stack gives way to those that it has paired inside. -/
inductive Turn (c : Config) (src dst : Tree) :
    List (NodeId × NodeId) × Pairing → List (NodeId × NodeId) × Pairing → Prop where
  | recover {a b : NodeId} {p q : Pairing} {new : List (NodeId × NodeId)}
      (rest : List (NodeId × NodeId)) (run : (recoverPair c src dst a b).run p = (.ok new, q)) :
      Turn c src dst ((a, b) :: rest, p) (new ++ rest, q)

theorem ifYields_recoverAll [TokenHash] (hs : src.Surveyed) (hd : dst.Surveyed)
    (hp : p.Between src dst)
    {stack : List (NodeId × NodeId)} (hstack : PairsWithin src dst stack) {fuel : Nat}
    (hfuel : stack.length + src.forest.size ≤ fuel + p.pairs.length) :
    IfYields (recoverAll c src dst fuel stack) p fun _ q =>
      Relation.ReflTransGen (Turn c src dst) (stack, p) ([], q) := by
  induction fuel generalizing stack p with
  | zero =>
      have hle := hp.length_le hs.sound
      obtain rfl : stack = [] := List.length_eq_zero_iff.1 (by omega)
      rw [recoverAll_nil]
      exact .pure .refl
  | succ fuel ih =>
      cases stack with
      | nil =>
          rw [recoverAll_nil]
          exact .pure .refl
      | cons x rest =>
          obtain ⟨hx, hrest⟩ := List.forall_mem_cons.1 hstack
          have hpair : IfYields (recoverPair c src dst x.1 x.2) p _ :=
            adds_recoverPair hs hd hx.1 hx.2 (fun _ => trivial) hp
          rw [recoverAll]
          refine .bind ((hpair.and_if (.run_eq _ p)).mono ?_)
          rintro new q ⟨⟨hgrows, hnew⟩, hrun⟩
          refine (ih (hgrows.between hp) (hnew.within hx hrest) (hnew.covered hfuel)).mono ?_
          intro _ r hturns
          exact .head (.recover rest hrun) hturns

/-- Whatever the configuration, a recovery inside partners ends with an empty stack. It appends
pairs of one kind that lie properly inside the two, of nodes that were free, and changes nothing
else. No fault arises but from an edit distance. -/
theorem recover_inside [TokenHash] (hs : src.Surveyed) (hd : dst.Surveyed) (hp : p.Between src dst)
    (hab : p.image? a = some b) :
    (∃ q new, (recover c src dst a b).run p = (.ok (), q) ∧
      Relation.ReflTransGen (Turn c src dst) ([(a, b)], p) ([], q) ∧
      q.pairs = p.pairs ++ new ∧ (∀ z ∈ new, p.NewInside src dst a b z) ∧
      (∀ x, x ∉ (src.forest.subtree a).descendants → q.image? x = p.image? x) ∧
      ∀ y, y ∉ (dst.forest.subtree b).descendants → q.origin? y = p.origin? y) ∨
    ((recover c src dst a b).run p).1 = .error .backtraceKinds ∧ DistanceFails c src dst := by
  obtain ⟨ha, hb⟩ := hp.within a b hab
  have hadds : Yields (fun fault => fault = .backtraceKinds ∧ DistanceFails c src dst)
      (recover c src dst a b) p _ :=
    adds_recover hs hd ha hb (fun hfail => ⟨rfl, hfail⟩) hp
  have hturns : IfYields (recover c src dst a b) p _ :=
    ifYields_recoverAll hs hd hp (by simpa [PairsWithin] using ⟨ha, hb⟩) (by simp; omega)
  rcases (hadds.and_if hturns).exists_run with
    ⟨_, q, hrun, ⟨hgrows, hunder⟩, hturns⟩ | ⟨_, q, hrun, rfl, hfail⟩
  · obtain ⟨new, heq, hnew⟩ := hgrows.exists_newInside hs hd hp hab hunder
    have hq := (hgrows.between hp).sound
    refine .inl ⟨q, new, hrun, hturns, heq, hnew, fun x hx => ?_, fun y hy => ?_⟩
    · apply Pairing.image?_eq_of_append hp.sound hq heq
      rintro z hz rfl
      exact hx (hnew z hz).left
    · apply Pairing.origin?_eq_of_append hp.sound hq heq
      rintro z hz rfl
      exact hy (hnew z hz).right
  · exact .inr ⟨by rw [hrun], hfail⟩

attribute [local instance] TokenHash.constant

/-- Recovery goes on inside the nodes below the roots, which are the only ones of their kind. -/
theorem recover_inside_crown :
    ∃ p, Pairing.empty.addAll [(1, 1)] = .ok p ∧
      ∃ q new, (recover { recovery := .simple } crown.measured deepCrown.measured 1 1).run p =
          (.ok (), q) ∧
        Relation.ReflTransGen (Turn { recovery := .simple } crown.measured deepCrown.measured)
          ([(1, 1)], p) ([], q) ∧
        q.pairs = p.pairs ++ new ∧ new = [(2, 2), (4, 5)] ∧
        (∀ z ∈ new, p.NewInside crown.measured deepCrown.measured 1 1 z) ∧
        (∀ x, x ∉ (crown.measured.forest.subtree 1).descendants → q.image? x = p.image? x) ∧
        ∀ y, y ∉ (deepCrown.measured.forest.subtree 1).descendants → q.origin? y = p.origin? y := by
  refine ⟨_, rfl, ?_⟩
  have hbetween := Pairing.between_of_addAll sound_crown.measured sound_deepCrown.measured
    (l := [(1, 1)]) rfl (by decide)
  have hinside := recover_inside (c := { recovery := .simple }) (a := 1) (b := 1)
    sound_crown.surveyed sound_deepCrown.surveyed hbetween rfl
  obtain ⟨q, new, hrun, hturns, heq, hrest⟩ := hinside.resolve_right fun hfail => hfail.2.1 rfl
  refine ⟨q, new, hrun, hturns, heq, ?_, hrest⟩
  have hpairs : q.pairs = [(1, 1)] ++ [(2, 2), (4, 5)] :=
    (congrArg (fun out => out.2.pairs) hrun).symm.trans (by decide +kernel)
  exact List.append_cancel_left (heq.symm.trans hpairs)

end Containers

end TreeDelta
