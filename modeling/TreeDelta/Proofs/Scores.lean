import TreeDelta.Matching.Ranking
import TreeDelta.Proofs.Comparison
import TreeDelta.Proofs.Measures
import TreeDelta.Proofs.Outcome

namespace TreeDelta

variable {src dst t : Tree} {p : Pairing} {a b : NodeId}

theorem add_lt_wordLimit {m n : Nat} (hm : m < halfWord) (hn : n < halfWord) :
    m + n < wordLimit := by
  simp only [halfWord] at hm hn
  simp only [wordLimit]
  omega

theorem absDiff_lt {m n k : Nat} (hm : m < k) (hn : n < k) : absDiff m n < k := by
  unfold absDiff
  omega

theorem Forest.Sound.mem_descendants_iff {f : Forest} (h : f.Sound) :
    b ∈ (f.subtree a).descendants ↔ ∃ c, f.parent? c = some a ∧ f.Under c b := by
  rw [h.subtree_eq, Rose.descendants_node, List.mem_flatMap]
  simp only [List.mem_map, exists_exists_and_eq_and, h.mem_preorder_iff, h.mem_children]

theorem Forest.Sound.mem_descendants_iff_under {f : Forest} (h : f.Sound) :
    b ∈ (f.subtree a).descendants ↔ f.Under a b ∧ b ≠ a := by
  rw [h.mem_descendants_iff]
  constructor
  · rintro ⟨c, hparent, hcb⟩
    refine ⟨.head hparent hcb, ?_⟩
    rintro rfl
    exact h.not_under_parent hparent hcb
  · rintro ⟨hab, hne⟩
    exact hab.cases_head.resolve_left (Ne.symm hne)

theorem Tree.Sound.reaches_of_under (h : t.Sound) (hab : t.forest.Under a b) (hb : t.Reaches b) :
    t.Reaches a := by
  induction hab with
  | refl => exact hb
  | tail _ hparent ih => exact ih (h.reaches_parent hb hparent)

theorem Tree.Sound.reaches_of_mem_ancestors (h : t.Sound) (hb : t.Reaches b)
    (ha : a ∈ t.forest.ancestors b) : t.Reaches a :=
  h.reaches_of_under (h.forest.mem_self_ancestors_iff.1 (List.mem_cons_of_mem b ha)) hb

theorem Tree.Small.length_ancestors_lt (h : t.Small) (hs : t.Sound) (ha : t.Reaches a) :
    (t.forest.ancestors a).length < halfWord := by
  have hnodup : (t.forest.ancestors a).Nodup := hs.forest.nodup_way (Nat.le_succ _) _
  refine Nat.lt_of_le_of_lt (hnodup.subperm fun x hx => ?_).length_le h.count
  exact hs.mem_preorder_iff.2 (hs.reaches_of_mem_ancestors ha hx)

namespace Gives

theorem measure [TokenHash] (h : t.Surveyed) (ha : t.Reaches a) :
    Gives (t.measure a) fun m => m.size = (t.forest.subtree a).size :=
  ⟨_, h.measure_eq_ok ha, rfl⟩

theorem isBelow [TokenHash] (h : t.Surveyed) (ha : t.Reaches a) (hb : t.Reaches b) :
    Gives (t.isBelow a b) fun _ => True :=
  (measure h ha).bind fun _ _ => (measure h hb).bind fun _ _ => .pure trivial

theorem countBelow [TokenHash] (hd : dst.Surveyed) (hp : p.Within src dst) (hb : dst.Reaches b)
    (ds : List NodeId) : Gives (countBelow dst p b ds) (· ≤ ds.length) := by
  induction ds with
  | nil => exact .ok (Nat.le_refl 0)
  | cons d ds ih =>
      rw [TreeDelta.countBelow]
      cases hd' : p.image? d with
      | none => exact ih.mono fun n hn => Nat.le_succ_of_le hn
      | some image =>
          refine (isBelow hd (hp d image hd').2 hb).bind fun here _ => ih.bind fun n hn => .pure ?_
          rw [List.length_cons]
          split <;> omega

theorem subWord_size {m : Measure} (hm : m.size = (t.forest.subtree a).size) :
    Gives (subWord m.size 1) fun n => n + 1 = (t.forest.subtree a).size := by
  have hpos := (t.forest.subtree a).size_pos
  exact ⟨m.size - 1, subWord_eq_ok_iff.2 (by omega), by omega⟩

theorem positionVector [TokenHash] (h : t.Surveyed) (ha : t.Reaches a) :
    Gives (Ranking.positionVector t a) fun _ => True :=
  (of_eq (Tree.ancestors_eq_ok (h.has ha))).bind fun _ _ => .pure trivial

end Gives

/-- The computation gives a value of which `post` holds, or a sum leaves the range of words. The
latter does not happen with small trees. -/
abbrev Reckons {α : Type} (src dst : Tree) (x : Except Fault α) (post : α → Prop) : Prop :=
  GivesOr (fun fault => fault = .overflow ∧ ¬ (src.Small ∧ dst.Small)) x post

namespace Reckons

theorem addWord {m n : Nat} (h : src.Small → dst.Small → m + n < wordLimit) :
    Reckons src dst (addWord m n) (· = m + n) := by
  by_cases hlt : m + n < wordLimit
  · exact .inl (.of_eq (if_pos hlt))
  · exact .inr ⟨.overflow, if_neg hlt, rfl, fun hsmall => hlt (h hsmall.1 hsmall.2)⟩

theorem diceShare (common : Nat) {left right : Nat}
    (h : src.Small → dst.Small → left + right < wordLimit) :
    Reckons src dst (Similarity.dice.share common left right) fun _ => True :=
  (addWord h).bind fun _ _ => .pure trivial

theorem share (m : Similarity) {common left right : Nat} (hcommon : common ≤ left)
    (h : src.Small → dst.Small → left + right < wordLimit) :
    Reckons src dst (m.share common left right) fun _ => True := by
  cases m with
  | dice => exact diceShare common h
  | chawathe => exact .pure trivial
  | jaccard =>
      apply (addWord h).bind
      intro n hn
      have hsub : subWord n common = .ok (n - common) := subWord_eq_ok_iff.2 (by omega)
      exact .inl ((Gives.of_eq hsub).bind fun _ _ => .pure trivial)

theorem sizes_lt (hs : src.Sound) (hd : dst.Sound) (ha : src.Reaches a) (hb : dst.Reaches b)
    (hsrc : src.Small) (hdst : dst.Small) :
    (src.forest.subtree a).size + (dst.forest.subtree b).size < wordLimit :=
  add_lt_wordLimit (hsrc.size_lt hs ha) (hdst.size_lt hd hb)

variable [TokenHash]

theorem score (m : Similarity) (hs : src.Surveyed) (hd : dst.Surveyed)
    (hp : p.Within src dst)
    (ha : src.Reaches a) (hb : dst.Reaches b) :
    Reckons src dst (m.score src dst p a b) fun _ => True := by
  have hcommon : Gives (commonDescendants src dst p a b) (· + 1 ≤ (src.forest.subtree a).size) := by
    apply (Gives.of_eq (Tree.descendants_eq_ok (hs.has ha))).bind
    intro ds hds
    apply (Gives.countBelow hd hp hb ds).mono
    intro n hn
    rw [← Rose.length_descendants, ← hds]
    exact Nat.succ_le_succ hn
  have hshare : Reckons src dst (m.subtreeShare src dst p a b) fun _ => True := by
    apply hcommon.bindOr
    intro common hle
    apply (Gives.measure hs ha).bindOr
    intro x hx
    apply (Gives.subWord_size hx).bindOr
    intro left hleft
    apply (Gives.measure hd hb).bindOr
    intro y hy
    apply (Gives.subWord_size hy).bindOr
    intro right hright
    refine share m (by omega) fun hsrc hdst => ?_
    have hlt := sizes_lt hs.sound hd.sound ha hb hsrc hdst
    omega
  exact hshare.bind fun _ _ => .pure trivial

theorem siblingScore (hs : src.Surveyed) (hd : dst.Surveyed) (hp : p.Within src dst)
    (ha : src.Reaches a) (hb : dst.Reaches b) :
    Reckons src dst (Ranking.siblingScore src dst p a b) fun _ => True := by
  apply (Gives.of_eq (Tree.parent_eq_ok (hs.has ha))).bindOr
  intro pa hpa
  apply (Gives.of_eq (Tree.parent_eq_ok (hd.has hb))).bindOr
  intro pb hpb
  cases pa with
  | none => exact .pure trivial
  | some x =>
      cases pb with
      | none => exact .pure trivial
      | some y =>
          exact score .dice hs hd hp (hs.sound.reaches_parent ha hpa.symm)
            (hd.sound.reaches_parent hb hpb.symm)

theorem ancestorKinds (h : t.Surveyed) (ha : t.Reaches a) :
    Gives ((t.forest.ancestors a).mapM t.kind) (·.length = (t.forest.ancestors a).length) := by
  refine (Gives.mapM fun x hx => Gives.of_eq (Tree.kind_eq_ok (h.has ?_))).mono fun ks hks => ?_
  · exact h.sound.reaches_of_mem_ancestors ha hx
  · exact hks.length_eq.symm

theorem ancestorScore (hs : src.Surveyed) (hd : dst.Surveyed) (ha : src.Reaches a)
    (hb : dst.Reaches b) :
    Reckons src dst (Ranking.ancestorScore src dst a b) fun _ => True := by
  apply (Gives.of_eq (Tree.ancestors_eq_ok (hs.has ha))).bindOr
  intro _ hup
  subst hup
  apply (ancestorKinds hs ha).bindOr
  intro ka hka
  apply (Gives.of_eq (Tree.ancestors_eq_ok (hd.has hb))).bindOr
  intro _ hup
  subst hup
  apply (ancestorKinds hd hb).bindOr
  intro kb hkb
  refine (diceShare _ fun hsrc hdst => ?_).bind fun _ _ => .pure trivial
  rw [hka, hkb]
  exact add_lt_wordLimit (hsrc.length_ancestors_lt hs.sound ha)
    (hdst.length_ancestors_lt hd.sound hb)

theorem spanDistance (hs : src.Surveyed) (hd : dst.Surveyed) (ha : src.Reaches a)
    (hb : dst.Reaches b) :
    Reckons src dst (Ranking.spanDistance src dst a b) fun _ => True := by
  apply (Gives.of_eq (Tree.info_eq_ok (hs.has ha))).bindOr
  intro x hx
  apply (Gives.of_eq (Tree.info_eq_ok (hd.has hb))).bindOr
  intro y hy
  subst hx hy
  have hhalf : halfWord < wordLimit := by simp [halfWord, wordLimit]
  apply (addWord fun hsrc _ => Nat.lt_trans (hsrc.span a ha) hhalf).bind
  intro m hm
  apply (addWord fun _ hdst => Nat.lt_trans (hdst.span b hb) hhalf).bind
  intro n hn
  refine (addWord fun hsrc hdst => ?_).mono fun _ _ => trivial
  have hleft := hsrc.span a ha
  have hright := hdst.span b hb
  rw [Forest.spanEnd] at hleft hright
  exact add_lt_wordLimit (absDiff_lt (by omega) (by omega)) (absDiff_lt (by omega) (by omega))

theorem rankKey (hs : src.Surveyed) (hd : dst.Surveyed) (hp : p.Within src dst)
    (ha : src.Reaches a) (hb : dst.Reaches b) :
    Reckons src dst (Ranking.key src dst p a b) fun _ => True := by
  apply (siblingScore hs hd hp ha hb).bind
  intro _ _
  apply (ancestorScore hs hd ha hb).bind
  intro _ _
  apply (Gives.positionVector hs ha).bindOr
  intro _ _
  apply (Gives.positionVector hd hb).bindOr
  intro _ _
  apply (spanDistance hs hd ha hb).bind
  intro _ _
  apply (Gives.measure hs ha).bindOr
  intro _ _
  exact (Gives.measure hd hb).bindOr fun _ _ => .pure trivial

theorem sort (hs : src.Surveyed) (hd : dst.Surveyed) (hp : p.Within src dst)
    {pairs : List (NodeId × NodeId)} (h : ∀ x ∈ pairs, src.Reaches x.1 ∧ dst.Reaches x.2) :
    Reckons src dst (Ranking.sort src dst p pairs) (·.Perm pairs) := by
  refine (GivesOr.mapM (r := fun x (k : RankKey × NodeId × NodeId) => k.2 = x) fun x hx => ?_).bind
    fun keyed hk => .pure ?_
  · exact (rankKey hs hd hp (h x hx).1 (h x hx).2).bind fun _ _ => .pure rfl
  have hsnd : keyed.map (·.2) = pairs := by
    clear h
    induction hk with
    | nil => rfl
    | cons hx _ ih => rw [List.map_cons, hx, ih]
  exact hsnd ▸ (List.mergeSort_perm keyed _).map _

end Reckons

namespace Gives

theorem agree (ha : src.forest.has a) (hb : dst.forest.has b)
    (same : Content → Content → Bool) :
    Gives (src.agree same a dst b) fun yes =>
      (yes ↔ (src.forest.contentTree a).agree same (dst.forest.contentTree b)) := by
  apply (of_eq (Forest.node_eq_ok ha)).bind
  intro _ _
  apply (of_eq (Forest.node_eq_ok hb)).bind
  intro _ _
  exact .pure (by rw [Forest.agree_eq])

theorem agreeAfter {part : Measure → UInt64} {same : Content → Content → Bool} {prop : Prop}
    {m n : Measure} (hm : src.measure a = .ok m) (hn : dst.measure b = .ok n)
    (h : Gives (src.agree same a dst b) fun yes => (yes ↔ prop)) (hpart : prop → part m = part n) :
    Gives (src.agreeAfter part same a dst b) fun yes => (yes ↔ prop) := by
  apply (of_eq hm).bind
  rintro _ rfl
  apply (of_eq hn).bind
  rintro _ rfl
  split
  · exact h
  · next hfail => exact .pure ⟨nofun, fun hprop => absurd (beq_iff_eq.2 (hpart hprop)) hfail⟩

theorem isomorphic [TokenHash] (hs : src.Surveyed) (hd : dst.Surveyed) (ha : src.Reaches a)
    (hb : dst.Reaches b) :
    Gives (src.isomorphic a dst b) fun same =>
      (same ↔ src.forest.contentTree a = dst.forest.contentTree b) := by
  -- the digests in the measures are those of the present trees
  refine agreeAfter (hs.measure_eq_ok ha) (hd.measure_eq_ok hb) ?_ (congrArg Rose.hash)
  exact (agree (hs.has ha) (hd.has hb) _).mono fun yes hyes => hyes.trans Rose.agree_eq_iff

theorem sameShape [TokenHash] (hs : src.Surveyed) (hd : dst.Surveyed) (ha : src.Reaches a)
    (hb : dst.Reaches b) :
    Gives (src.sameShape a dst b) fun same =>
      (same ↔ (src.forest.contentTree a).agree (fun x y => x.kind == y.kind)
        (dst.forest.contentTree b)) :=
  agreeAfter (hs.measure_eq_ok ha) (hd.measure_eq_ok hb) (agree (hs.has ha) (hd.has hb) _)
    fun h => congrArg (Rose.digest Kind.tokenHash) ((Rose.agree_on_iff Content.kind).1 h)

end Gives

end TreeDelta
