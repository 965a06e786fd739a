import TreeDelta.Proofs.MatchingFuel
import TreeDelta.Proofs.RenamedDistances

namespace TreeDelta

variable {c : Config} {r s : NodeId → NodeId → Prop} {src src' dst dst' : Tree} {p p' : Pairing}

theorem Pairing.Renamed.between [TokenHash] (h : p.Renamed r s p') (hs : src.Renamed r src')
    (hd : dst.Renamed s dst') : p.Between src dst ∧ p'.Between src' dst' := by
  refine ⟨⟨h.left, fun a b hab => ?_⟩, ⟨h.right, fun a b hab => ?_⟩⟩
  · obtain ⟨x, _, hx⟩ := forall₂_exists_of_mem h.pairs ((h.left.mem_pairs a b).2 hab)
    exact ⟨(hs.reaches hx.1).1, (hd.reaches hx.2).1⟩
  · obtain ⟨x, _, hx⟩ := forall₂_exists_of_mem h.pairs.flip ((h.right.mem_pairs a b).2 hab)
    exact ⟨(hs.reaches hx.1).2, (hd.reaches hx.2).2⟩

namespace Containers

variable [TokenHash] {a a' b b' x x' : NodeId} (hs : src.Renamed r src') (hd : dst.Renamed s dst')
include hs hd

omit hs in
theorem lockstep_newAncestors {visited visited' : Std.HashSet NodeId}
    (hv : SameMembers s visited visited') (hb : s b b') :
    Lockstep (List.Forall₂ s) (newAncestors dst visited b) (newAncestors dst' visited' b') :=
  (hd.forest.node hb).bind fun _ _ _ => .pure <|
    hd.forest.ancestorsWhile hb fun x y hxy => congrArg not (hv x y hxy)

omit hs in
theorem isCandidate_eq_of_renamed (hp : p.Renamed r s p') (kind : Kind) (hx : s x x') :
    isCandidate dst p kind x = isCandidate dst' p' kind x' := by
  rw [isCandidate, isCandidate, hd.kind_eq hx, hd.isRoot_eq hx, hp.dstPaired_eq hd.unique hx]

theorem lockstep_gatherCandidates (hp : p.Renamed r s p') (kind : Kind)
    {visited visited' : Std.HashSet NodeId} (hv : SameMembers s visited visited')
    {ds ds' : List NodeId} (hds : List.Forall₂ r ds ds') :
    Lockstep (List.Forall₂ s) (gatherCandidates dst p kind visited ds)
      (gatherCandidates dst' p' kind visited' ds') := by
  induction hds generalizing visited visited' with
  | nil => exact .ok .nil
  | cons hx _ ih =>
      rw [gatherCandidates, gatherCandidates]
      rcases (hp.image? hs.unique hx).cases with ⟨hnone, hnone'⟩ | ⟨y, y', hy, hy', hyy⟩
      · rw [hnone, hnone']
        exact ih hv
      · rw [hy, hy']
        refine (lockstep_newAncestors hd hv hyy).bind fun new new' hnew => ?_
        refine (Lockstep.filterM hnew fun _ _ hz =>
          isCandidate_eq_of_renamed hd hp kind hz).bind fun here here' hhere => ?_
        exact (ih (hv.insertMany hd.unique hnew)).bind fun rest rest' hrest =>
          .pure (List.rel_append hhere hrest)

theorem lockstep_candidates (hp : p.Renamed r s p') (ha : r a a') :
    Lockstep (List.Forall₂ s) (candidates src dst p a) (candidates src' dst' p' a') := by
  refine .after (hs.kind_eq ha) fun kind => (hs.descendants ha).bind fun ds ds' hds => ?_
  exact lockstep_gatherCandidates hs hd hp kind .empty hds

theorem threshold_eq_of_renamed (ha : r a a') (hx : s x x') :
    threshold c src dst a x = threshold c src' dst' a' x' := by
  rw [threshold, threshold, hs.measure_eq ha, hd.measure_eq hx]

theorem lockstep_better (hp : p.Renamed r s p') (ha : r a a') {xs xs' : List NodeId}
    (hxs : List.Forall₂ s xs xs') (most : Float) {best best' : Option NodeId}
    (hbest : Option.Rel s best best') :
    Lockstep (Option.Rel s) (better c src dst p a (most, best) xs)
      (better c src' dst' p' a' (most, best') xs') := by
  induction hxs generalizing most best best' with
  | nil => exact .pure hbest
  | cons hx _ ih =>
      rw [better, better]
      refine .after (threshold_eq_of_renamed hs hd ha hx) fun least => ?_
      refine .after (score_eq_of_renamed hs hd hp _ ha hx) fun score => ?_
      split
      · exact ih score (.some hx)
      · exact ih most hbest

theorem lockstep_best (hp : p.Renamed r s p') (ha : r a a') :
    Lockstep (Option.Rel s) (best c src dst p a) (best c src' dst' p' a') :=
  (lockstep_candidates hs hd hp ha).bind fun _ _ hxs => lockstep_better hs hd hp ha hxs _ .none

variable {pairs pairs' : List (NodeId × NodeId)}

theorem inStep_addAllowed (h : List.Forall₂ (Both r s) pairs pairs') :
    InStep r s (fun _ _ => True) (addAllowed src dst pairs) (addAllowed src' dst' pairs') := by
  induction h with
  | nil => exact .pure trivial
  | cons hx _ ih =>
      rw [addAllowed, addAllowed]
      refine .get fun p p' hp => .after (hp.allows_eq hs hd hx.1 hx.2) fun allowed => ?_
      cases allowed with
      | false => exact ih
      | true => exact (InStep.add hs.unique hd.unique hx.1 hx.2).bind fun _ _ _ => ih

theorem inStep_recoverExactly (ha : r a a') (hb : s b b') :
    InStep r s (fun _ _ => True) (recoverExactly src dst a b) (recoverExactly src' dst' a' b') :=
  .lift_bind (lockstep_cheapestPairs Float hs hd ha hb) fun _ _ h => inStep_addAllowed hs hd h

omit hd in
theorem lockstep_freeSrcChildren (hp : p.Renamed r s p') (ha : r a a') :
    Lockstep (List.Forall₂ r) (freeSrcChildren src p a) (freeSrcChildren src' p' a') :=
  (hs.children ha).bind fun _ _ hcs => .pure <|
    hcs.filter fun _ _ hx => congrArg not (hp.srcPaired_eq hs.unique hx)

omit hs in
theorem lockstep_freeDstChildren (hp : p.Renamed r s p') (hb : s b b') :
    Lockstep (List.Forall₂ s) (freeDstChildren dst p b) (freeDstChildren dst' p' b') :=
  (hd.children hb).bind fun _ _ hcs => .pure <|
    hcs.filter fun _ _ hy => congrArg not (hp.dstPaired_eq hd.unique hy)

theorem inStep_pairFreeSubtrees (h : List.Forall₂ (Both r s) pairs pairs') :
    InStep r s (fun _ _ => True) (pairFreeSubtrees src dst pairs)
      (pairFreeSubtrees src' dst' pairs') := by
  induction h with
  | nil => exact .pure trivial
  | cons hx _ ih =>
      rw [pairFreeSubtrees, pairFreeSubtrees]
      refine .get fun p p' hp => .after (hp.subtreesFree_eq hs hd hx.1 hx.2) fun free => ?_
      cases free with
      | false => exact ih
      | true => exact (inStep_addSubtrees hs hd hx.1 hx.2).bind fun _ _ _ => ih

omit [TokenHash] hs hd in
theorem lockstep_relationRows {rel rel' : NodeId → NodeId → Except Fault Bool}
    (hrel : ∀ x x', r x x' → ∀ y y', s y y' → rel x y = rel' x' y') {xs xs' ys ys' : List NodeId}
    (hxs : List.Forall₂ r xs xs') (hys : List.Forall₂ s ys ys') :
    Lockstep (List.Forall₂ (Both r (· = ·))) (relationRows rel xs ys)
      (relationRows rel' xs' ys') :=
  .mapM hxs fun x x' hx => .after (mapM_eq_mapM hys fun y y' hy => hrel x x' hx y y' hy)
    fun _ => .pure ⟨hx, rfl⟩

theorem inStep_pairAligned {rel rel' : NodeId → NodeId → Except Fault Bool}
    (hrel : ∀ x x', r x x' → ∀ y y', s y y' → rel x y = rel' x' y') (ha : r a a') (hb : s b b') :
    InStep r s (fun _ _ => True) (pairAligned src dst rel a b)
      (pairAligned src' dst' rel' a' b') := by
  refine .get fun p p' hp => .lift_bind (lockstep_freeSrcChildren hs hp ha) fun xs xs' hxs => ?_
  refine .get fun p p' hp => .lift_bind (lockstep_freeDstChildren hd hp hb) fun ys ys' hys => ?_
  refine .lift_bind (lockstep_relationRows hrel hxs hys) fun rows rows' hrows => ?_
  have hcommon : List.Forall₂ (Both (Both r (· = ·)) (Both s (· = ·)))
      (commonSubsequence (fun x y => x.2.getD y.2 false) rows ys.zipIdx)
      (commonSubsequence (fun x y => x.2.getD y.2 false) rows' ys'.zipIdx) :=
    forall₂_commonSubsequence (fun x x' hx y y' hy => by rw [hx.2, hy.2]) hrows
      (forall₂_zipIdx hys 0)
  exact inStep_pairFreeSubtrees hs hd
    (List.rel_map (fun _ _ hz => Both.mk hz.1.1 hz.2.1) hcommon)

abbrev KindsRenamed (r : NodeId → NodeId → Prop) :
    List (Kind × List NodeId) → List (Kind × List NodeId) → Prop :=
  List.Forall₂ (Both (· = ·) (List.Forall₂ r))

omit hd in
theorem lockstep_byKind {xs xs' : List NodeId} (hxs : List.Forall₂ r xs xs') :
    Lockstep (KindsRenamed r) (byKind src xs) (byKind src' xs') := by
  induction hxs with
  | nil => exact .ok .nil
  | cons hx _ ih =>
      rw [byKind, byKind]
      refine .after (hs.kind_eq hx) fun kind => ih.bind fun rest rest' hrest => .pure ?_
      refine .cons ⟨rfl, .cons hx ((rel_lookup hrest kind).getD .nil)⟩ ?_
      exact hrest.filter fun _ _ he => by rw [he.1]

omit [TokenHash] hs hd in
theorem forall₂_onlyOnes {xs xs' ys ys' : List (Kind × List NodeId)} (hxs : KindsRenamed r xs xs')
    (hys : KindsRenamed s ys ys') :
    List.Forall₂ (Both r s) (onlyOnes xs ys) (onlyOnes xs' ys') := by
  refine List.rel_filterMap (fun e e' he => ?_) hxs
  obtain ⟨kind, as⟩ := e
  obtain ⟨kind', as'⟩ := e'
  obtain ⟨hkind, has⟩ := he
  dsimp only at hkind has ⊢
  subst hkind
  have hbs := rel_lookup hys kind
  generalize ys.lookup kind = o at hbs
  generalize ys'.lookup kind = o' at hbs
  -- only a list of one node on both sides makes a pair
  cases has with
  | nil => exact .none
  | cons ha has =>
      cases has with
      | cons _ _ => exact .none
      | nil =>
          cases hbs with
          | none => exact .none
          | some hbs =>
              cases hbs with
              | nil => exact .none
              | cons hb hbs =>
                  cases hbs with
                  | cons _ _ => exact .none
                  | nil => exact .some (Both.mk ha hb)

theorem inStep_pairOnlyOnes {added added' : List (NodeId × NodeId)}
    (hadded : List.Forall₂ (Both r s) added added') (h : List.Forall₂ (Both r s) pairs pairs') :
    InStep r s (List.Forall₂ (Both r s)) (pairOnlyOnes src dst added pairs)
      (pairOnlyOnes src' dst' added' pairs') := by
  induction h generalizing added added' with
  | nil => exact .pure hadded
  | cons hx _ ih =>
      rw [pairOnlyOnes, pairOnlyOnes]
      refine .get fun p p' hp => .after (hp.allows_eq hs hd hx.1 hx.2) fun allowed => ?_
      cases allowed with
      | false => exact ih hadded
      | true =>
          exact (InStep.add hs.unique hd.unique hx.1 hx.2).bind fun _ _ _ =>
            ih (.cons (Both.mk hx.1 hx.2) hadded)

theorem inStep_recoverChildren (ha : r a a') (hb : s b b') :
    InStep r s (List.Forall₂ (Both r s)) (recoverChildren src dst a b)
      (recoverChildren src' dst' a' b') := by
  refine (inStep_pairAligned hs hd
    (fun x x' hx y y' hy => Tree.isomorphic_eq_of_renamed hs hd hx hy) ha hb).bind fun _ _ _ => ?_
  refine (inStep_pairAligned hs hd
    (fun x x' hx y y' hy => Tree.sameShape_eq_of_renamed hs hd hx hy) ha hb).bind fun _ _ _ => ?_
  refine .get fun p p' hp => .lift_bind (lockstep_freeSrcChildren hs hp ha) fun xs xs' hxs => ?_
  refine .lift_bind (lockstep_byKind hs hxs) fun left left' hleft => ?_
  refine .get fun p p' hp => .lift_bind (lockstep_freeDstChildren hd hp hb) fun ys ys' hys => ?_
  refine .lift_bind (lockstep_byKind hd hys) fun right right' hright => ?_
  exact inStep_pairOnlyOnes hs hd .nil (forall₂_onlyOnes hleft hright)

theorem isSmall_eq_of_renamed (ha : r a a') (hb : s b b') :
    isSmall c src dst a b = isSmall c src' dst' a' b' := by
  rw [isSmall, isSmall, hs.measure_eq ha, hd.measure_eq hb]

theorem inStep_recoverPair (ha : r a a') (hb : s b b') :
    InStep r s (List.Forall₂ (Both r s)) (recoverPair c src dst a b)
      (recoverPair c src' dst' a' b') := by
  unfold recoverPair
  cases c.recovery with
  | greedy =>
      refine .after (isSmall_eq_of_renamed hs hd ha hb) fun small => ?_
      cases small with
      | false => exact .pure .nil
      | true => exact (inStep_recoverExactly hs hd ha hb).bind fun _ _ _ => .pure .nil
  | simple => exact inStep_recoverChildren hs hd ha hb
  | hybrid =>
      refine .after (isSmall_eq_of_renamed hs hd ha hb) fun small => ?_
      cases small with
      | false => exact inStep_recoverChildren hs hd ha hb
      | true => exact (inStep_recoverExactly hs hd ha hb).bind fun _ _ _ => .pure .nil

theorem inStep_recoverAll (fuel : Nat) {stack stack' : List (NodeId × NodeId)}
    (h : List.Forall₂ (Both r s) stack stack') :
    InStep r s (fun _ _ => True) (recoverAll c src dst fuel stack)
      (recoverAll c src' dst' fuel stack') := by
  induction fuel generalizing stack stack' with
  | zero =>
      rw [recoverAll_zero, recoverAll_zero]
      exact .pure trivial
  | succ fuel ih =>
      cases h with
      | nil =>
          rw [recoverAll_nil, recoverAll_nil]
          exact .pure trivial
      | cons hx hrest =>
          rw [recoverAll, recoverAll]
          exact (inStep_recoverPair hs hd hx.1 hx.2).bind fun _ _ hnew =>
            ih (List.rel_append hnew hrest)

theorem inStep_recover (ha : r a a') (hb : s b b') :
    InStep r s (fun _ _ => True) (recover c src dst a b) (recover c src' dst' a' b') := by
  intro p p' hp
  obtain ⟨hbetween, hbetween'⟩ := hp.between hs hd
  have hstack : PairsWithin src dst [(a, b)] := by
    simpa [PairsWithin] using And.intro (hs.reaches ha).1 (hd.reaches hb).1
  have hstack' : PairsWithin src' dst' [(a', b')] := by
    simpa [PairsWithin] using And.intro (hs.reaches ha).2 (hd.reaches hb).2
  -- both runs are those with the larger of the two amounts of fuel
  have hfuel := run_recoverAll_eq (c := c) hs.left hd.left hbetween hstack
    (m := src.forest.size + 1) (n := max (src.forest.size + 1) (src'.forest.size + 1))
    (by rw [List.length_singleton]; omega) (by rw [List.length_singleton]; omega)
  have hfuel' := run_recoverAll_eq (c := c) hs.right hd.right hbetween' hstack'
    (m := src'.forest.size + 1) (n := max (src.forest.size + 1) (src'.forest.size + 1))
    (by rw [List.length_singleton]; omega) (by rw [List.length_singleton]; omega)
  rw [recover, recover, hfuel, hfuel']
  exact inStep_recoverAll hs hd _ (.cons (Both.mk ha hb) .nil) p p' hp

theorem inStep_takeRoot (ha : r a a') : InStep r s (fun _ _ => True)
    (do
      if let some origin := (← get).origin? dst.root then
        modify fun p => (p.remove origin dst.root).2
      Pairer.add a dst.root)
    (do
      if let some origin := (← get).origin? dst'.root then
        modify fun p => (p.remove origin dst'.root).2
      Pairer.add a' dst'.root) := by
  have hjoin : InStep r s (fun _ _ => True) (Pairer.add a dst.root) (Pairer.add a' dst'.root) :=
    .add hs.unique hd.unique ha hd.root
  refine .get fun p p' hp => ?_
  dsimp only
  rcases (hp.origin? hd.unique hd.root).cases with ⟨hnone, hnone'⟩ | ⟨x, x', hx, hx', hxx⟩
  · rw [hnone, hnone']
    exact hjoin
  · rw [hx, hx']
    exact (InStep.remove hs.unique hd.unique hxx hd.root).bind fun _ _ _ => hjoin

theorem inStep_pairRoots (ha : r a a') :
    InStep r s (fun _ _ => True) (pairRoots dst a) (pairRoots dst' a') := by
  have hclear := inStep_takeRoot hs hd ha
  refine .get fun p p' hp => ?_
  rw [hp.joins_eq hs.unique hd.unique ha hd.root]
  split
  · exact .pure trivial
  · refine .get fun p p' hp => ?_
    dsimp only
    rcases (hp.image? hs.unique ha).cases with ⟨hnone, hnone'⟩ | ⟨y, y', hy, hy', hyy⟩
    · rw [hnone, hnone']
      exact hclear
    · rw [hy, hy']
      exact (InStep.remove hs.unique hd.unique ha hyy).bind fun _ _ _ => hclear

theorem inStep_visit (ha : r a a') :
    InStep r s (fun _ _ => True) (visit c src dst a) (visit c src' dst' a') := by
  refine .get fun p p' hp => ?_
  rcases (hp.image? hs.unique ha).cases with ⟨hnone, hnone'⟩ | ⟨y, y', hy, hy', hyy⟩
  · rw [hnone, hnone']
    refine .after (hs.isLeaf_eq ha) fun leaf => ?_
    cases leaf with
    | true => exact .pure trivial
    | false =>
        refine .get fun p p' hp => .lift_bind (lockstep_best hs hd hp ha) fun o o' ho => ?_
        cases ho with
        | none => exact .pure trivial
        | some hx =>
            exact (InStep.add hs.unique hd.unique ha hx).bind fun _ _ _ =>
              inStep_recover hs hd ha hx
  · rw [hy, hy']
    refine .get fun p p' hp => .after (hp.hasFreeSrcChild_eq hs ha) fun left => ?_
    cases left with
    | false => exact .pure trivial
    | true =>
        refine .get fun p p' hp => .after (hp.hasFreeDstChild_eq hd hyy) fun right => ?_
        cases right with
        | false => exact .pure trivial
        | true => exact inStep_recover hs hd ha hyy

theorem inStep_visitAll {ts ts' : List NodeId} (hts : List.Forall₂ r ts ts') :
    InStep r s (fun _ _ => True) (visitAll c src dst ts) (visitAll c src' dst' ts') := by
  induction hts with
  | nil => exact .pure trivial
  | cons ha _ ih =>
      refine .after (hs.isRoot_eq ha) fun is => ?_
      cases is with
      | true =>
          exact (inStep_pairRoots hs hd ha).bind fun _ _ _ => inStep_recover hs hd ha hd.root
      | false => exact (inStep_visit hs hd ha).bind fun _ _ _ => ih

theorem inStep_run : InStep r s (fun _ _ => True) (run c src dst) (run c src' dst') :=
  inStep_visitAll hs hd hs.postorder

end Containers

end TreeDelta
