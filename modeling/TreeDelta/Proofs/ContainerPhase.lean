import TreeDelta.Proofs.CommonSubsequences
import TreeDelta.Proofs.ContainerCandidates
import TreeDelta.Proofs.DistancePairs
import TreeDelta.Proofs.RootPairs

namespace TreeDelta

theorem mem_of_lookup {α β : Type} [BEq α] [LawfulBEq α] {k : α} {v : β} {l : List (α × β)}
    (h : l.lookup k = some v) : (k, v) ∈ l := by
  induction l with
  | nil => cases h
  | cons x l ih =>
      rw [List.lookup_cons] at h
      split at h
      · next hk =>
        cases h
        rw [eq_of_beq hk]
        exact List.mem_cons_self
      · exact List.mem_cons_of_mem _ (ih h)

/-- Every pair of `q` that `p` does not have lies in the subtrees at `a` and `b`. -/
def Pairing.NewUnder (src dst : Tree) (a b : NodeId) (p q : Pairing) : Prop :=
  ∀ z ∈ q.pairs, z ∈ p.pairs ∨ src.forest.Under a z.1 ∧ dst.forest.Under b z.2

namespace Pairing.NewUnder

variable {src dst : Tree} {p q r : Pairing} {a b : NodeId}

theorem refl : p.NewUnder src dst a b p := fun _ hz => .inl hz

theorem trans (h : p.NewUnder src dst a b q) (h' : q.NewUnder src dst a b r) :
    p.NewUnder src dst a b r :=
  fun z hz => (h' z hz).elim (h z) .inr

theorem mono {a' b' : NodeId} (h : p.NewUnder src dst a' b' q) (ha : src.forest.Under a a')
    (hb : dst.forest.Under b b') : p.NewUnder src dst a b q :=
  fun z hz => (h z hz).imp_right fun hin => ⟨ha.trans hin.1, hb.trans hin.2⟩

theorem of_addAll {l : List (NodeId × NodeId)} (h : p.addAll l = .ok q)
    (hl : PairsUnder src dst a b l) : p.NewUnder src dst a b q := by
  intro z hz
  rw [pairs_of_addAll h, List.mem_append] at hz
  exact hz.imp_right (hl z)

theorem of_add {z : NodeId × NodeId} (h : p.add z.1 z.2 = .ok q)
    (hz : src.forest.Under a z.1 ∧ dst.forest.Under b z.2) : p.NewUnder src dst a b q := by
  intro y hy
  rw [pairs_of_add h, List.mem_append, List.mem_singleton] at hy
  refine hy.imp_right ?_
  rintro rfl
  exact hz

end Pairing.NewUnder

theorem pairsUnder_subtrees [TokenHash] {src dst : Tree} {a b : NodeId} (hs : src.Surveyed)
    (hd : dst.Surveyed) :
    PairsUnder src dst a b
      ((src.forest.subtree a).preorder.zip (dst.forest.subtree b).preorder) :=
  fun _ hz => ⟨hs.sound.forest.mem_preorder_iff.1 (List.of_mem_zip hz).1,
    hd.sound.forest.mem_preorder_iff.1 (List.of_mem_zip hz).2⟩

def PairsWithin (src dst : Tree) (pairs : List (NodeId × NodeId)) : Prop :=
  ∀ x ∈ pairs, src.Reaches x.1 ∧ dst.Reaches x.2

theorem Gives.allows [TokenHash] {src dst : Tree} {p : Pairing} {a b : NodeId} (hs : src.Surveyed)
    (hd : dst.Surveyed) (ha : src.Reaches a) (hb : dst.Reaches b) :
    Gives (p.allows src dst a b) fun allowed => allowed →
      Joinable src dst a b ∧ p.image? a = none ∧ p.origin? b = none := by
  apply (of_eq (Tree.kind_eq_ok (hs.has ha))).bind
  intro ka hka
  refine (of_eq (Tree.kind_eq_ok (hd.has hb))).bind fun kb hkb => .pure fun h => ?_
  subst hka hkb
  rw [Bool.and_eq_true, beq_iff_eq, Pairing.bothFree_iff] at h
  exact ⟨⟨ha, hb, h.1⟩, h.2⟩

namespace Containers

variable {c : Config} {src dst t : Tree} {p q : Pairing} {a b x : NodeId}

theorem reckons_threshold [TokenHash] (hs : src.Surveyed) (hd : dst.Surveyed) (ha : src.Reaches a)
    (hx : dst.Reaches x) : Reckons src dst (threshold c src dst a x) fun _ => True := by
  unfold threshold
  split
  · exact .pure trivial
  · exact .pure trivial
  · apply (Gives.measure hs ha).bindOr
    intro m hm
    apply (Gives.measure hd hx).bindOr
    intro n hn
    refine (Reckons.addWord fun hsrc hdst => ?_).bind fun _ _ => .pure trivial
    rw [hm, hn]
    exact Reckons.sizes_lt hs.sound hd.sound ha hx hsrc hdst

theorem reckons_better [TokenHash] (hs : src.Surveyed) (hd : dst.Surveyed) (hp : p.Within src dst)
    (ha : src.Reaches a) {xs : List NodeId} (hxs : ∀ x ∈ xs, Candidate src dst p a x)
    {best : Float × Option NodeId} (hbest : ∀ x, best.2 = some x → Candidate src dst p a x) :
    Reckons src dst (better c src dst p a best xs) fun out =>
      ∀ x, out = some x → Candidate src dst p a x := by
  induction xs generalizing best with
  | nil => exact .pure hbest
  | cons x xs ih =>
      rw [List.forall_mem_cons] at hxs
      have hx := (hxs.1.joinable hd hp ha).right
      apply (reckons_threshold hs hd ha hx).bind
      intro least _
      apply (Reckons.score _ hs hd hp ha hx).bind
      intro score _
      split
      · refine ih hxs.2 fun y hy => ?_
        cases hy
        exact hxs.1
      · exact ih hxs.2 hbest

theorem reckons_best [TokenHash] (hs : src.Surveyed) (hd : dst.Surveyed) (hp : p.Within src dst)
    (ha : src.Reaches a) :
    Reckons src dst (best c src dst p a) fun out => ∀ x, out = some x → Candidate src dst p a x :=
  (gives_candidates hd hp (hs.has ha)).bindOr fun _ hxs =>
    reckons_better hs hd hp ha (fun x hx => (hxs.2 x).1 hx) nofun

theorem gives_freeSrcChildren [TokenHash] (hs : src.Surveyed) (ha : src.Reaches a) :
    Gives (freeSrcChildren src p a) fun xs => ∀ x ∈ xs, src.forest.Under a x := by
  refine (Gives.of_eq (Tree.children_eq_ok (hs.has ha))).bind fun cs hcs => .pure fun x hx => ?_
  subst hcs
  exact .single ((hs.sound.forest.mem_children a x).1 (List.mem_filter.1 hx).1)

theorem gives_freeDstChildren [TokenHash] (hd : dst.Surveyed) (hb : dst.Reaches b) :
    Gives (freeDstChildren dst p b) fun ys => ∀ y ∈ ys, dst.forest.Under b y := by
  refine (Gives.of_eq (Tree.children_eq_ok (hd.has hb))).bind fun cs hcs => .pure fun y hy => ?_
  subst hcs
  exact .single ((hd.sound.forest.mem_children b y).1 (List.mem_filter.1 hy).1)

/-- The answers of a relation are available, and it holds of subtrees of one shape only. -/
def Recognises (src dst : Tree) (rel : NodeId → NodeId → Except Fault Bool) : Prop :=
  ∀ x y, src.Reaches x → dst.Reaches y → Gives (rel x y) fun same => same → SameShape src dst x y

theorem gives_relationRows {rel : NodeId → NodeId → Except Fault Bool}
    (hrel : Recognises src dst rel) (ha : src.Reaches a) (hb : dst.Reaches b)
    {xs ys : List NodeId} (hxs : ∀ x ∈ xs, src.forest.Under a x)
    (hys : ∀ y ∈ ys, dst.forest.Under b y) :
    Gives (relationRows rel xs ys) fun rows => ∀ row ∈ rows, src.forest.Under a row.1 ∧
      ∀ y ∈ ys.zipIdx, row.2.getD y.2 false → SameShape src dst row.1 y.1 := by
  have hrows : Gives (relationRows rel xs ys) (List.Forall₂ (fun x row => row.1 = x ∧
      ∀ y ∈ ys.zipIdx, row.2.getD y.2 false → SameShape src dst x y.1) xs) := by
    refine .mapM fun x hx => ?_
    refine (Gives.mapM fun y hy => hrel x y (ha.trans (hxs x hx)) (hb.trans (hys y hy))).bind
      fun row hrow => ?_
    refine .pure ⟨rfl, fun y hy hyes => ?_⟩
    obtain ⟨y, i⟩ := y
    obtain ⟨hi, hyi⟩ := List.mem_zipIdx' hy
    have hlen := hrow.length_eq
    have hget := (List.forall₂_iff_get.1 hrow).2 i hi (hlen ▸ hi)
    simp only [Array.getD_eq_getD_getElem?, List.getElem?_toArray,
      List.getElem?_eq_getElem (hlen ▸ hi), Option.getD_some] at hyes
    exact hyi ▸ hget hyes
  apply hrows.mono
  intro rows hrows row hrow
  obtain ⟨x, hx, rfl, hshape⟩ := forall₂_exists_of_mem hrows.flip hrow
  exact ⟨hxs _ hx, hshape⟩

theorem gives_byKind [TokenHash] (h : t.Surveyed) (ha : t.Reaches a) {xs : List NodeId}
    (hxs : ∀ x ∈ xs, t.forest.Under a x) :
    Gives (byKind t xs) fun table => ∀ e ∈ table, ∀ x ∈ e.2, t.forest.Under a x := by
  induction xs with
  | nil => exact .ok (by simp)
  | cons x xs ih =>
      rw [List.forall_mem_cons] at hxs
      apply (Gives.of_eq (Tree.kind_eq_ok (h.has (ha.trans hxs.1)))).bind
      intro kind _
      refine (ih hxs.2).bind fun rest hrest => .pure fun e he y hy => ?_
      rcases List.mem_cons.1 he with rfl | he
      · rcases List.mem_cons.1 hy with rfl | hy
        · exact hxs.1
        · cases hsame : rest.lookup kind with
          | none => simp [hsame] at hy
          | some same =>
              rw [hsame] at hy
              exact hrest _ (mem_of_lookup hsame) y hy
      · exact hrest e (List.mem_filter.1 he).1 y hy

theorem pairsUnder_onlyOnes {xs ys : List (Kind × List NodeId)}
    (hxs : ∀ e ∈ xs, ∀ x ∈ e.2, src.forest.Under a x)
    (hys : ∀ e ∈ ys, ∀ y ∈ e.2, dst.forest.Under b y) :
    PairsUnder src dst a b (onlyOnes xs ys) := by
  intro z hz
  obtain ⟨⟨kind, as⟩, he, hz⟩ := List.mem_filterMap.1 hz
  dsimp only at hz
  split at hz
  · next a b hb =>
    cases hz
    exact ⟨hxs _ he a (by simp), hys _ (mem_of_lookup hb) b (by simp)⟩
  · cases hz

/-- What a recovery inside `a` and `b` has done: its pairs lie in the two subtrees, and every
container to go on with is one of them. -/
structure Recovered (src dst : Tree) (a b : NodeId) (p : Pairing)
    (new : List (NodeId × NodeId)) (q : Pairing) : Prop where
  inside : p.NewUnder src dst a b q
  containers : PairsUnder src dst a b new
  count : new.length + p.pairs.length ≤ q.pairs.length

theorem Recovered.done (h : p.NewUnder src dst a b q) (hgrows : p.Grows src dst q) :
    Recovered src dst a b p [] q :=
  ⟨h, .nil, by simpa using hgrows.length_le⟩

section Recovery

variable [TokenHash] {excuse : Fault → Prop} (hs : src.Surveyed) (hd : dst.Surveyed) (ha : src.Reaches a)
  (hb : dst.Reaches b)
include hs hd ha hb

theorem adds_addAllowed {pairs : List (NodeId × NodeId)} (h : PairsUnder src dst a b pairs) :
    AddsOr excuse src dst (addAllowed src dst pairs) p fun _ q => p.NewUnder src dst a b q := by
  induction pairs generalizing p with
  | nil => exact .pure .refl
  | cons y pairs ih =>
      obtain ⟨hy, hpairs⟩ := List.forall_mem_cons.1 h
      have hallows := Gives.allows (p := p) hs hd (ha.trans hy.1) (hb.trans hy.2)
      refine .get (.lift hallows fun allowed hallowed => ?_)
      dsimp only
      split
      · next hok =>
        obtain ⟨hjoin, hleft, hright⟩ := hallowed hok
        refine .bind ((AddsOr.add hjoin hleft hright).mono fun _ q hq => ?_)
        exact (ih hpairs).mono fun _ _ hnew => (Pairing.NewUnder.of_add hq hy).trans hnew
      · exact ih hpairs

theorem adds_recoverExactly (hfail : DistanceFails c src dst → excuse .backtraceKinds)
    (hc : c.recovery ≠ .simple) :
    AddsOr excuse src dst (recoverExactly src dst a b) p fun _ q => p.NewUnder src dst a b q := by
  unfold recoverExactly
  rcases traces_cheapestPairs Float hs hd ha hb with hpairs | ⟨_, herror, rfl⟩
  · exact .lift hpairs fun pairs h => adds_addAllowed hs hd ha hb h
  · rw [herror]
    exact fun _ => hfail ⟨hc, a, b, ha, hb, herror⟩

theorem adds_pairFreeSubtrees {pairs : List (NodeId × NodeId)}
    (h : PairsUnder src dst a b pairs) (hshape : ∀ y ∈ pairs, SameShape src dst y.1 y.2) :
    AddsOr excuse src dst (pairFreeSubtrees src dst pairs) p fun _ q =>
      p.NewUnder src dst a b q := by
  induction pairs generalizing p with
  | nil => exact .pure .refl
  | cons y pairs ih =>
      obtain ⟨hy, hpairs⟩ := List.forall_mem_cons.1 h
      obtain ⟨hsame, hshape⟩ := List.forall_mem_cons.1 hshape
      have hleft := ha.trans hy.1
      have hright := hb.trans hy.2
      refine .get (.lift (.subtreesFree hs hd hleft hright) fun free hfree => ?_)
      dsimp only
      split
      · next hok =>
        have hfree := hfree.1 hok
        refine .bind ((AddsOr.addSubtrees hs hd hleft hright hsame hfree).mono fun _ q hq => ?_)
        refine (ih hpairs hshape).mono fun _ _ hnew => ?_
        have hblock := Pairing.NewUnder.of_addAll hq (pairsUnder_subtrees hs hd)
        exact (hblock.mono hy.1 hy.2).trans hnew
      · exact ih hpairs hshape

theorem adds_pairAligned {rel : NodeId → NodeId → Except Fault Bool}
    (hrel : Recognises src dst rel) :
    AddsOr excuse src dst (pairAligned src dst rel a b) p fun _ q => p.NewUnder src dst a b q := by
  refine .get (.lift (gives_freeSrcChildren hs ha) fun xs hxs => ?_)
  refine .get (.lift (gives_freeDstChildren hd hb) fun ys hys => ?_)
  refine .lift (gives_relationRows hrel ha hb hxs hys) fun rows hrows => ?_
  obtain ⟨hleft, hright, hrelated⟩ := commonSubsequence_follows
    (fun (x : NodeId × Array Bool) (y : NodeId × Nat) => x.2.getD y.2 false) rows ys.zipIdx
  refine adds_pairFreeSubtrees hs hd ha hb (fun y hy => ?_) fun y hy => ?_
  · obtain ⟨⟨row, z⟩, hmem, rfl⟩ := List.mem_map.1 hy
    have hz : z ∈ ys.zipIdx := hright.subset (List.mem_map.2 ⟨_, hmem, rfl⟩)
    exact ⟨(hrows row (hleft.subset (List.mem_map.2 ⟨_, hmem, rfl⟩))).1,
      hys _ (List.fst_mem_of_mem_zipIdx hz)⟩
  · obtain ⟨⟨row, z⟩, hmem, rfl⟩ := List.mem_map.1 hy
    exact (hrows row (hleft.subset (List.mem_map.2 ⟨_, hmem, rfl⟩))).2 z
      (hright.subset (List.mem_map.2 ⟨_, hmem, rfl⟩)) (hrelated _ hmem)

theorem adds_pairOnlyOnes {added pairs : List (NodeId × NodeId)}
    (hadded : PairsUnder src dst a b added) (h : PairsUnder src dst a b pairs) :
    AddsOr excuse src dst (pairOnlyOnes src dst added pairs) p fun new q =>
      p.NewUnder src dst a b q ∧ PairsUnder src dst a b new ∧
        new.length + p.pairs.length ≤ q.pairs.length + added.length := by
  induction pairs generalizing added p with
  | nil => exact .pure ⟨.refl, hadded, Nat.le_of_eq (Nat.add_comm _ _)⟩
  | cons y pairs ih =>
      obtain ⟨hy, hpairs⟩ := List.forall_mem_cons.1 h
      have hallows := Gives.allows (p := p) hs hd (ha.trans hy.1) (hb.trans hy.2)
      refine .get (.lift hallows fun allowed hallowed => ?_)
      split
      · next hok =>
        obtain ⟨hjoin, hleft, hright⟩ := hallowed hok
        refine .bind ((AddsOr.add hjoin hleft hright).mono fun _ q hq => ?_)
        refine (ih (hadded.cons hy) hpairs).mono fun new last hnew => ?_
        obtain ⟨hinside, hnew, hcount⟩ := hnew
        rw [Pairing.pairs_of_add hq, List.length_append, List.length_singleton,
          List.length_cons] at hcount
        exact ⟨(Pairing.NewUnder.of_add hq hy).trans hinside, hnew, by omega⟩
      · exact ih hadded hpairs

theorem adds_recoverChildren :
    AddsOr excuse src dst (recoverChildren src dst a b) p (Recovered src dst a b p) := by
  have hequal : Recognises src dst fun x y => src.isomorphic x dst y := fun x y hx hy =>
    (Gives.isomorphic hs hd hx hy).mono fun _ hsame h => sameShape_of_eq (hsame.1 h)
  have hshape : Recognises src dst fun x y => src.sameShape x dst y := fun x y hx hy =>
    (Gives.sameShape hs hd hx hy).mono fun _ hsame h => sameShape_of_agree (hsame.1 h)
  refine .bind ((adds_pairAligned hs hd ha hb hequal).grows.mono fun _ _ hequals => ?_)
  refine .bind ((adds_pairAligned hs hd ha hb hshape).grows.mono fun _ _ hshapes => ?_)
  refine .get (.lift (gives_freeSrcChildren hs ha) fun xs hxs => ?_)
  refine .lift (gives_byKind hs ha hxs) fun left hleft => ?_
  refine .get (.lift (gives_freeDstChildren hd hb) fun ys hys => ?_)
  refine .lift (gives_byKind hd hb hys) fun right hright => ?_
  have hones := pairsUnder_onlyOnes hleft hright
  refine (adds_pairOnlyOnes hs hd ha hb .nil hones).mono fun new q hnew => ?_
  obtain ⟨hinside, hnew, hcount⟩ := hnew
  refine ⟨(hequals.2.trans hshapes.2).trans hinside, hnew, ?_⟩
  exact (Nat.add_le_add_left (hequals.1.length_le.trans hshapes.1.length_le) _).trans hcount

theorem gives_isSmall : Gives (isSmall c src dst a b) fun _ => True := by
  apply (Gives.measure hs ha).bind
  intro m _
  split
  · exact .pure trivial
  · exact (Gives.measure hd hb).bind fun n _ => .pure trivial

variable (hfail : DistanceFails c src dst → excuse .backtraceKinds)
include hfail

theorem adds_recoverPair :
    AddsOr excuse src dst (recoverPair c src dst a b) p (Recovered src dst a b p) := by
  have hexact : c.recovery ≠ .simple → AddsOr excuse src dst
      (do recoverExactly src dst a b; return []) p (Recovered src dst a b p) := fun hc =>
    .bind ((adds_recoverExactly hs hd ha hb hfail hc).grows.mono
      fun _ _ hq => .pure (.done hq.2 hq.1))
  unfold recoverPair
  cases hc : c.recovery with
  | greedy =>
      refine .lift (gives_isSmall hs hd ha hb) fun small _ => ?_
      dsimp only
      split
      · exact hexact (by simp [hc])
      · exact .pure (.done .refl .refl)
  | simple => exact adds_recoverChildren hs hd ha hb
  | hybrid =>
      refine .lift (gives_isSmall hs hd ha hb) fun small _ => ?_
      split
      · exact hexact (by simp [hc])
      · exact adds_recoverChildren hs hd ha hb

theorem adds_recoverAll (fuel : Nat) {stack : List (NodeId × NodeId)}
    (h : PairsUnder src dst a b stack) :
    AddsOr excuse src dst (recoverAll c src dst fuel stack) p fun _ q =>
      p.NewUnder src dst a b q := by
  induction fuel generalizing stack p with
  | zero =>
      rw [recoverAll]
      · exact .pure .refl
      · exact nofun
  | succ fuel ih =>
      cases stack with
      | nil =>
          rw [recoverAll]
          · exact .pure .refl
          · exact nofun
      | cons y stack =>
          obtain ⟨⟨hleft, hright⟩, hstack⟩ := List.forall_mem_cons.1 h
          have hpair := adds_recoverPair (p := p) hs hd (ha.trans hleft) (hb.trans hright) hfail
          refine .bind (hpair.mono fun new q hq => ?_)
          refine (ih ((hq.containers.mono hleft hright).append hstack)).mono fun _ _ hrest => ?_
          exact (hq.inside.mono hleft hright).trans hrest

theorem adds_recover :
    AddsOr excuse src dst (recover c src dst a b) p fun _ q => p.NewUnder src dst a b q :=
  adds_recoverAll hs hd ha hb hfail _ (PairsUnder.nil.cons ⟨.refl, .refl⟩)

end Recovery

theorem adds_visit [TokenHash] (hs : src.Surveyed) (hd : dst.Surveyed) (ha : src.Reaches a) :
    Adds c src dst (visit c src dst a) p fun _ _ => True := by
  refine .get (.of_between fun hp => ?_)
  cases himage : p.image? a with
  | none =>
      have hleaf : Gives (src.isLeaf a) fun _ => True :=
        (Gives.of_eq (Tree.children_eq_ok (hs.has ha))).bind fun _ _ => .pure trivial
      refine .lift hleaf fun leaf _ => ?_
      split
      · exact .pure trivial
      · refine .get (.reckon (reckons_best hs hd hp.within ha) fun best hbest => ?_)
        cases best with
        | none => exact .pure trivial
        | some x =>
            have hjoin := (hbest x rfl).joinable hd hp.within ha
            refine .bind ((AddsOr.add hjoin himage (hbest x rfl).suits.free).mono fun _ q _ => ?_)
            exact (adds_recover hs hd ha hjoin.right .distance).mono fun _ _ _ => trivial
  | some image =>
      have hb := (hp.within a image himage).2
      have hleft : Gives (p.hasFreeSrcChild src a) fun _ => True :=
        (Gives.of_eq (Tree.children_eq_ok (hs.has ha))).bind fun _ _ => .pure trivial
      have hright : Gives (p.hasFreeDstChild dst image) fun _ => True :=
        (Gives.of_eq (Tree.children_eq_ok (hd.has hb))).bind fun _ _ => .pure trivial
      refine .get (.lift hleft fun left _ => ?_)
      split
      · refine .get (.lift hright fun right _ => ?_)
        split
        · exact (adds_recover hs hd ha hb .distance).mono fun _ _ _ => trivial
        · exact .pure trivial
      · exact .pure trivial

theorem yields_joinRoots (hp : p.Sound) (hsrc : p.image? src.root = none) :
    Yields (Excuse c src dst)
      (do
        if let some origin := (← get).origin? dst.root then
          modify fun p => (p.remove origin dst.root).2
        Pairer.add src.root dst.root) p fun _ r => ∃ q : Pairing, q.Sound ∧
      q.pairs = p.pairs.filter (·.2 != dst.root) ∧ q.add src.root dst.root = .ok r := by
  refine .bind (.get ?_)
  split
  · next origin ho =>
    have hpair := (hp.image_iff_origin origin dst.root).2 ho
    refine .bind (.modify (.add ?_ ?_ fun r hr => ⟨_, hp.remove _ _, ?_, hr⟩))
    · exact Pairing.image?_remove_of_none hsrc _ _
    · exact Pairing.origin?_remove_self hpair
    · exact hp.pairs_remove_right hpair
  · next ho =>
    have hdst := Option.eq_none_iff_forall_ne_some.2 ho
    exact .add hsrc hdst fun r hr => ⟨p, hp, (hp.filter_right hdst).symm, hr⟩

theorem yields_pairRoots (hp : p.Sound) :
    Yields (Excuse c src dst) (pairRoots dst src.root) p fun _ r => p.JoinsRoots src dst r := by
  refine .bind (.get ?_)
  split
  · next h => exact .pure (.already (by simpa [Pairing.joins] using h))
  · next h =>
    have hnot : p.image? src.root ≠ some dst.root := by simpa [Pairing.joins] using h
    refine .bind (.get ?_)
    dsimp only
    split
    · next image himage =>
      refine .bind (.modify ((yields_joinRoots (hp.remove _ _) ?_).mono ?_))
      · exact Pairing.image?_remove_self himage
      rintro _ r ⟨q, hq, hpairs, hadd⟩
      rw [hp.pairs_remove_left himage, List.filter_filter] at hpairs
      exact .anew hnot hq hpairs hadd
    · next hno =>
      have hsrc := Option.eq_none_iff_forall_ne_some.2 hno
      refine (yields_joinRoots hp hsrc).mono ?_
      rintro _ r ⟨q, hq, hpairs, hadd⟩
      rw [← hp.filter_left hsrc, List.filter_filter] at hpairs
      exact .anew hnot hq hpairs hadd

theorem yields_visitAll [TokenHash] (hs : src.Surveyed) (hd : dst.Surveyed) (hp : p.Between src dst)
    {ts : List NodeId} (hts : ∀ x ∈ ts, src.Reaches x) (hroot : src.root ∈ ts) :
    Yields (Excuse c src dst) (visitAll c src dst ts) p fun _ q => p.Completes src dst q := by
  induction ts generalizing p with
  | nil => cases hroot
  | cons x ts ih =>
      rw [List.forall_mem_cons] at hts
      refine .bind (.lift (hs.gives_isRoot hts.1) fun is his => ?_)
      split
      · next h =>
        obtain rfl := his.1 h
        refine .bind ((yields_pairRoots hp.sound).mono fun _ q hq => ?_)
        refine (adds_recover hs hd .refl .refl .distance (hq.between hp)).mono fun _ r hr => ?_
        exact ⟨p, q, .refl, hq, hr.1⟩
      · next h =>
        have hne : src.root ≠ x := fun he => h (his.2 he.symm)
        refine .bind ((adds_visit hs hd hts.1 hp).mono fun _ q hq => ?_)
        refine (ih (hq.1.between hp) hts.2 ((List.mem_cons.1 hroot).resolve_left hne)).mono ?_
        rintro _ r ⟨q', r', hgrows, hrest⟩
        exact ⟨q', r', hq.1.trans hgrows, hrest⟩

theorem yields_run [TokenHash] (hs : src.Surveyed) (hd : dst.Surveyed) (hp : p.Between src dst) :
    Yields (Excuse c src dst) (run c src dst) p fun _ q => p.Completes src dst q :=
  yields_visitAll hs hd hp (fun _ hx => hs.sound.forest.mem_postorder_iff.1 hx)
    (hs.sound.forest.mem_postorder_iff.2 .refl)

/-- After the second phase the roots are partners. All earlier pairs are there in their order, but
for those that the roots had if they were not partners before; the new ones come after them, and
join nodes of one kind unless they are the roots. -/
theorem run_keeps_pairs [TokenHash] (hs : src.Surveyed) (hd : dst.Surveyed)
    (hp : p.Between src dst) :
    (∃ q new, (run c src dst).run p = (.ok (), q) ∧ q.Between src dst ∧
      q.image? src.root = some dst.root ∧ q.pairs = p.keptPairs src dst ++ new ∧
      ∀ z ∈ new, z ≠ (src.root, dst.root) → src.kind z.1 = dst.kind z.2) ∨
    ∃ fault, ((run c src dst).run p).1 = .error fault ∧ Excuse c src dst fault := by
  rcases (yields_run (c := c) hs hd hp).exists_run with ⟨_, q, hrun, hq⟩ | ⟨fault, q, hrun, hfault⟩
  · obtain ⟨new, heq, hnew⟩ := hq.exists_new hp
    refine .inl ⟨q, new, hrun, hq.between hp, hq.image?, heq, fun z hz hne => ?_⟩
    have hjoin := (hnew z hz).resolve_left hne
    rw [Tree.kind_eq_ok (hs.has hjoin.left), Tree.kind_eq_ok (hd.has hjoin.right), hjoin.kind]
  · exact .inr ⟨fault, by rw [hrun], hfault⟩

attribute [local instance] TokenHash.constant

/-- Both roots have partners, in each other's tree; they give them up. -/
theorem run_keeps_pairs_crown :
    ∃ p, Pairing.empty.addAll [(1, 2), (3, 4), (2, 1), (4, 5)] = .ok p ∧
      ∃ q new, (run { recovery := .simple } crown.measured deepCrown.measured).run p =
          (.ok (), q) ∧ q.Between crown.measured deepCrown.measured ∧ q.image? 1 = some 1 ∧
        q.pairs = [(3, 4), (4, 5)] ++ new ∧
        ∀ z ∈ new, z ≠ (1, 1) → crown.measured.kind z.1 = deepCrown.measured.kind z.2 := by
  refine ⟨_, rfl, ?_⟩
  have hbetween := Pairing.between_of_addAll sound_crown.measured sound_deepCrown.measured
    (l := [(1, 2), (3, 4), (2, 1), (4, 5)]) rfl (by decide)
  have hsmall : crown.measured.Small ∧ deepCrown.measured.Small :=
    ⟨sound_crown.measured.small (by decide) (by decide),
      sound_deepCrown.measured.small (by decide) (by decide)⟩
  refine (run_keeps_pairs sound_crown.surveyed sound_deepCrown.surveyed hbetween).resolve_right ?_
  rintro ⟨_, _, hdistance | hlarge⟩
  · exact hdistance.1 rfl
  · exact hlarge hsmall

end Containers

end TreeDelta
