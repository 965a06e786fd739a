import TreeDelta.Proofs.MatchingContract

namespace TreeDelta

variable {c : Config} {src dst : Tree} {p q : Pairing} {a b x y : NodeId} {excuse : Fault → Prop}

theorem Forest.Sound.agree_subtree_iff {f g : Forest} (hf : f.Sound) (hg : g.Sound)
    {r : NodeId → NodeId → Bool} :
    (f.subtree a).agree r (g.subtree b) ↔ r a b ∧
      List.Forall₂ (fun x y => (f.subtree x).agree r (g.subtree y))
        (f.childrenOf a) (g.childrenOf b) := by
  rw [hf.subtree_eq, hg.subtree_eq, Rose.agree_node, List.forall₂_map_left_iff,
    List.forall₂_map_right_iff]

theorem Tree.agree_of_sameAs (h : src.sameAs dst) :
    (src.forest.subtree src.root).agree
      (fun a b => src.forest.contentOf a == dst.forest.contentOf b)
      (dst.forest.subtree dst.root) :=
  (Rose.agree_map _ _ _ _).1 (Rose.agree_eq_iff.2 (Tree.sameAs_iff.1 h))

namespace Pairing

def twins (p : Pairing) (src dst : Tree) (a b : NodeId) : Bool :=
  p.joins a b && src.forest.contentOf a == dst.forest.contentOf b

theorem twins_iff : p.twins src dst a b ↔
    p.image? a = some b ∧ src.forest.contentOf a = dst.forest.contentOf b := by
  rw [twins, Bool.and_eq_true, joins, beq_iff_eq, beq_iff_eq]

/-- The pairing joins the two trees position by position, and partners have one content. -/
structure Parallel (src dst : Tree) (p : Pairing) : Prop where
  between : p.Between src dst
  agree : (src.forest.subtree src.root).agree (p.twins src dst) (dst.forest.subtree dst.root)

namespace Parallel

theorem of_addAll [TokenHash] (hs : src.Surveyed) (hd : dst.Surveyed) (hsame : src.sameAs dst)
    (hp : p.Between src dst) (hq : p.addAll (src.preorder.zip dst.preorder) = .ok q) :
    q.Parallel src dst := by
  have hagree := Tree.agree_of_sameAs hsame
  have hshape := sameShape_of_eq (Tree.sameAs_iff.1 hsame)
  have hbetween : q.Between src dst :=
    (grows_of_addAll hq fun _ hx => joinable_of_mem_zip hs hd .refl .refl hshape hx).between hp
  refine ⟨hbetween, Rose.agree_of_zip hagree fun z hz => twins_iff.2 ⟨?_, ?_⟩⟩
  · refine (hbetween.sound.mem_pairs z.1 z.2).1 ?_
    rw [pairs_of_addAll hq]
    exact List.mem_append_right _ hz
  · exact eq_of_beq (List.forall₂_zip (Rose.forall₂_preorder hagree) hz)

theorem roots (h : p.Parallel src dst) (hs : src.Sound) (hd : dst.Sound) :
    p.image? src.root = some dst.root :=
  (twins_iff.1 ((hs.forest.agree_subtree_iff hd.forest).1 h.agree).1).1

theorem exists_image (h : p.Parallel src dst) (hs : src.Sound) (ha : src.Reaches a) :
    ∃ b, p.image? a = some b := by
  obtain ⟨b, _, hab⟩ :=
    forall₂_exists_of_mem (Rose.forall₂_preorder h.agree) (hs.mem_preorder_iff.2 ha)
  exact ⟨b, (twins_iff.1 hab).1⟩

theorem exists_agree (h : p.Parallel src dst) (hs : src.Sound) (hd : dst.Sound)
    (hb : dst.Reaches b) :
    ∃ a, (src.forest.subtree a).agree (p.twins src dst) (dst.forest.subtree b) := by
  induction hb with
  | refl => exact ⟨src.root, h.agree⟩
  | @tail y z _ hyz ih =>
      obtain ⟨x, hxy⟩ := ih
      have hchildren := ((hs.forest.agree_subtree_iff hd.forest).1 hxy).2
      obtain ⟨w, _, hwz⟩ := forall₂_exists_of_mem hchildren.flip
        ((hd.forest.mem_children y z).2 hyz)
      exact ⟨w, hwz⟩

theorem exists_origin (h : p.Parallel src dst) (hs : src.Sound) (hd : dst.Sound)
    (hb : dst.Reaches b) : ∃ a, p.image? a = some b := by
  obtain ⟨a, hagree⟩ := h.exists_agree hs hd hb
  exact ⟨a, (twins_iff.1 ((hs.forest.agree_subtree_iff hd.forest).1 hagree).1).1⟩

theorem children (h : p.Parallel src dst) (hs : src.Sound) (hd : dst.Sound)
    (hab : p.image? a = some b) :
    src.forest.contentOf a = dst.forest.contentOf b ∧
      List.Forall₂ (fun x y => p.image? x = some y)
        (src.forest.childrenOf a) (dst.forest.childrenOf b) := by
  obtain ⟨a', hagree⟩ := h.exists_agree hs hd (h.between.within a b hab).2
  obtain ⟨htwins, hchildren⟩ := (hs.forest.agree_subtree_iff hd.forest).1 hagree
  obtain ⟨himage, hcontent⟩ := twins_iff.1 htwins
  obtain rfl := h.between.sound.image_inj himage hab
  refine ⟨hcontent, hchildren.imp fun x y hxy => ?_⟩
  exact (twins_iff.1 ((hs.forest.agree_subtree_iff hd.forest).1 hxy).1).1

theorem parent (h : p.Parallel src dst) (hs : src.Sound) (hd : dst.Sound)
    (hab : p.image? a = some b) (hy : dst.forest.parent? b = some y) :
    ∃ x, p.image? x = some y ∧ src.forest.parent? a = some x := by
  have hreach := hd.reaches_parent (h.between.within a b hab).2 hy
  obtain ⟨x, hxy⟩ := h.exists_origin hs hd hreach
  obtain ⟨a', ha', hab'⟩ := forall₂_exists_of_mem (h.children hs hd hxy).2.flip
    ((hd.forest.mem_children y b).2 hy)
  obtain rfl := h.between.sound.image_inj hab' hab
  exact ⟨x, hxy, (hs.forest.mem_children x a').1 ha'⟩

end Parallel

end Pairing

theorem Config.enqueue_root [TokenHash] {t : Tree} (h : t.Surveyed) :
    c.enqueue t {} t.root =
      .ok (if c.minPriority ≤ c.priorityOf (t.forest.measureOf t.root t.root) then
        ⟨[(c.priorityOf (t.forest.measureOf t.root t.root), t.root)]⟩ else {}) := by
  rw [Config.enqueue, h.measure_eq_ok .refl]
  rfl

theorem Config.priorityOf_root [TokenHash] (hsame : src.sameAs dst) :
    c.priorityOf (dst.forest.measureOf dst.root dst.root) =
      c.priorityOf (src.forest.measureOf src.root src.root) := by
  have hagree := Tree.agree_of_sameAs hsame
  unfold Config.priorityOf
  cases c.priority with
  | height => exact (Rose.height_eq hagree).symm
  | size => exact (Rose.size_eq hagree).symm

namespace Identical

theorem yields_pairUnique [TokenHash] (hs : src.Surveyed) (hd : dst.Surveyed) (ha : src.Reaches a)
    (hb : dst.Reaches b) (hsame : src.forest.contentTree a = dst.forest.contentTree b)
    (hfree : SubtreesFree src dst p a b) (hp : p.Sound) :
    Yields excuse (pairUnique src dst a b) p fun paired q => paired ∧
      p.addAll ((src.forest.subtree a).preorder.zip (dst.forest.subtree b).preorder) = .ok q := by
  refine .bind (.lift (.isomorphic hs hd ha hb) fun same hiso => ?_)
  rw [if_pos (hiso.2 hsame)]
  refine .bind (.get (.bind (.lift (.subtreesFree hs hd ha hb) fun free hfree' => ?_)))
  rw [if_pos (hfree'.2 hfree)]
  have hadd : Yields excuse (Pairer.addSubtrees src dst a b) p _ :=
    .addSubtrees hs hd ha hb (sameShape_of_eq hsame) hfree hp
  exact .bind (hadd.mono fun _ q hq => .pure ⟨rfl, hq⟩)

theorem yields_settleLevel [TokenHash] (hs : src.Surveyed) (hd : dst.Surveyed) (ha : src.Reaches a)
    (hb : dst.Reaches b) (hsame : src.forest.contentTree a = dst.forest.contentTree b)
    (hfree : SubtreesFree src dst p a b) (hp : p.Sound) (k : Nat) :
    Yields excuse (settleLevel c src dst { src := ⟨[(k, a)]⟩, dst := ⟨[(k, b)]⟩ }) p fun next q =>
      next = {} ∧
      p.addAll ((src.forest.subtree a).preorder.zip (dst.forest.subtree b).preorder) = .ok q := by
  have hfront : ∀ x, Queue.front ⟨[(k, x)]⟩ = [x] := by simp [Queue.front, Queue.level?]
  have hrest : ∀ x, Queue.rest ⟨[(k, x)]⟩ = {} := by simp [Queue.rest, Queue.level?]
  have hsrc : Group.gatherSrc src [] [a] = .ok [⟨(src.forest.contentTree a).hash, [a], []⟩] := by
    rw [Group.gatherSrc, hs.measure_eq_ok ha]
    rfl
  have hdst : Group.gatherDst dst [⟨(src.forest.contentTree a).hash, [a], []⟩] [b] =
      .ok [⟨(src.forest.contentTree a).hash, [a], [b]⟩] := by
    have hkey : (src.forest.contentTree a).hash = (dst.forest.measureOf dst.root b).hash :=
      congrArg Rose.hash hsame
    rw [Group.gatherDst, hd.measure_eq_ok hb]
    change Group.gatherDst dst (if _ then _ else _) [] = _
    rw [if_pos hkey]
    rfl
  unfold settleLevel
  simp only [hfront, hrest]
  refine .bind (.lift (.of_eq hsrc) ?_)
  rintro _ rfl
  refine .bind (.lift (.of_eq hdst) ?_)
  rintro _ rfl
  refine .bind (.bind ((yields_pairUnique hs hd ha hb hsame hfree hp).mono fun paired q hq => ?_))
  rw [if_pos hq.1]
  exact .pure (.pure ⟨rfl, hq.2⟩)

theorem yields_descend_empty (fuel : Nat) {d : Descent} (hsrc : d.src = {}) :
    Yields excuse (descend c src dst fuel d) p fun groups q => groups = d.deferred ∧ q = p := by
  cases fuel with
  | zero => exact .pure ⟨rfl, rfl⟩
  | succ fuel =>
      have hstep : step c src dst d = pure (.inr d.deferred) := by
        rw [step, hsrc]
        rfl
      rw [descend, hstep]
      exact .bind (.pure (.pure ⟨rfl, rfl⟩))

theorem yields_descend_pair [TokenHash] (hs : src.Surveyed) (hd : dst.Surveyed) (ha : src.Reaches a)
    (hb : dst.Reaches b) (hsame : src.forest.contentTree a = dst.forest.contentTree b)
    (hfree : SubtreesFree src dst p a b) (hp : p.Sound) (k fuel : Nat) :
    Yields excuse (descend c src dst (fuel + 1) { src := ⟨[(k, a)]⟩, dst := ⟨[(k, b)]⟩ }) p
      fun groups q => groups = [] ∧
        p.addAll ((src.forest.subtree a).preorder.zip (dst.forest.subtree b).preorder) = .ok q := by
  have hstep : step c src dst { src := ⟨[(k, a)]⟩, dst := ⟨[(k, b)]⟩ } =
      settleLevel c src dst { src := ⟨[(k, a)]⟩, dst := ⟨[(k, b)]⟩ } >>= fun next =>
        pure (.inl next) := by
    change (if k = k then _ else _) = _
    rw [if_pos rfl]
  rw [descend, hstep]
  refine .bind (.bind ((yields_settleLevel hs hd ha hb hsame hfree hp k).mono fun next q hq => ?_))
  obtain ⟨rfl, hq⟩ := hq
  refine .pure ((yields_descend_empty fuel rfl).mono ?_)
  rintro groups _ ⟨rfl, rfl⟩
  exact ⟨rfl, hq⟩

theorem gives_bySize_nil : Gives (bySize src []) (· = []) := ⟨_, rfl, by simp⟩

/-- The roots of trees of one content are compared first, and with them all nodes are paired. -/
theorem yields_run_twins [TokenHash] (hs : src.Surveyed) (hd : dst.Surveyed)
    (hsame : src.sameAs dst)
    (hmin : c.minPriority ≤ c.priorityOf (src.forest.measureOf src.root src.root))
    (hfree : SubtreesFree src dst p src.root dst.root) (hp : p.Sound) :
    Yields excuse (run c src dst) p fun _ q =>
      p.addAll (src.preorder.zip dst.preorder) = .ok q := by
  refine .bind (.lift (.of_eq (Config.enqueue_root hs)) ?_)
  rintro _ rfl
  refine .bind (.lift (.of_eq (Config.enqueue_root hd)) ?_)
  rintro _ rfl
  rw [Config.priorityOf_root hsame, if_pos hmin, if_pos hmin]
  refine .bind ((yields_descend_pair hs hd .refl .refl (Tree.sameAs_iff.1 hsame) hfree hp _
    _).mono ?_)
  rintro _ q ⟨rfl, hq⟩
  refine .bind (.lift gives_bySize_nil ?_)
  rintro _ rfl
  exact .pure hq

theorem yields_run_low [TokenHash] (hs : src.Surveyed) (hd : dst.Surveyed)
    (hmin : ¬ c.minPriority ≤ c.priorityOf (src.forest.measureOf src.root src.root)) :
    Yields excuse (run c src dst) p fun _ q => q = p := by
  refine .bind (.lift (.of_eq (Config.enqueue_root hs)) ?_)
  rintro _ rfl
  refine .bind (.lift (.of_eq (Config.enqueue_root hd)) ?_)
  rintro _ rfl
  rw [if_neg hmin]
  refine .bind ((yields_descend_empty _ rfl).mono ?_)
  rintro _ _ ⟨rfl, rfl⟩
  refine .bind (.lift gives_bySize_nil ?_)
  rintro _ rfl
  exact .pure rfl

end Identical

def Pairing.Full (src : Tree) (p : Pairing) : Prop := ∀ a, src.Reaches a → ∃ b, p.image? a = some b

namespace Containers

variable [TokenHash]

theorem yields_addAllowed_full (hs : src.Surveyed) (hd : dst.Surveyed)
    (hfull : p.Full src)
    {pairs : List (NodeId × NodeId)} (h : PairsWithin src dst pairs) :
    Yields excuse (addAllowed src dst pairs) p fun _ q => q = p := by
  induction pairs with
  | nil => exact .pure rfl
  | cons z pairs ih =>
      obtain ⟨hz, hpairs⟩ := List.forall_mem_cons.1 h
      refine .bind (.get (.bind (.lift (.allows hs hd hz.1 hz.2) fun allowed hallowed => ?_)))
      have hno : ¬ allowed := by
        intro hok
        obtain ⟨b, hb⟩ := hfull z.1 hz.1
        rw [(hallowed hok).2.1] at hb
        cases hb
      dsimp only
      rw [if_neg hno]
      exact ih hpairs

theorem yields_recoverExactly_full (hs : src.Surveyed) (hd : dst.Surveyed)
    (hfull : p.Full src)
    (h : Gives (cheapestPairs Float src dst a b) (PairsWithin src dst)) :
    Yields excuse (recoverExactly src dst a b) p fun _ q => q = p :=
  .bind (.lift h fun _ hpairs => yields_addAllowed_full hs hd hfull hpairs)

theorem gives_freeSrcChildren_full (hs : src.Surveyed) (hfull : p.Full src)
    (ha : src.Reaches a) :
    Gives (freeSrcChildren src p a) (· = []) := by
  refine (Gives.of_eq (Tree.children_eq_ok (hs.has ha))).bind fun cs hcs => .pure ?_
  subst hcs
  refine List.filter_eq_nil_iff.2 fun x hx => ?_
  obtain ⟨y, hy⟩ := hfull x (ha.tail ((hs.sound.forest.mem_children a x).1 hx))
  simp [Pairing.srcPaired, hy]

theorem yields_pairAligned_full (hs : src.Surveyed) (hd : dst.Surveyed)
    (hfull : p.Full src)
    (rel : NodeId → NodeId → Except Fault Bool) (ha : src.Reaches a) (hb : dst.Reaches b) :
    Yields excuse (pairAligned src dst rel a b) p fun _ q => q = p := by
  refine .bind (.get (.bind (.lift (gives_freeSrcChildren_full hs hfull ha) ?_)))
  rintro _ rfl
  refine .bind (.get (.bind (.lift (gives_freeDstChildren hd hb) fun ys _ => ?_)))
  refine .bind (.lift (.of_eq (show relationRows rel [] ys = .ok [] from rfl)) ?_)
  rintro _ rfl
  rw [commonSubsequence_nil_left]
  exact .pure rfl

theorem yields_recoverChildren_full (hs : src.Surveyed) (hd : dst.Surveyed)
    (hfull : p.Full src)
    (ha : src.Reaches a) (hb : dst.Reaches b) :
    Yields excuse (recoverChildren src dst a b) p fun new q => new = [] ∧ q = p := by
  refine .bind ((yields_pairAligned_full hs hd hfull _ ha hb).mono ?_)
  rintro _ _ rfl
  refine .bind ((yields_pairAligned_full hs hd hfull _ ha hb).mono ?_)
  rintro _ _ rfl
  refine .bind (.get (.bind (.lift (gives_freeSrcChildren_full hs hfull ha) ?_)))
  rintro _ rfl
  refine .bind (.lift (.of_eq (show byKind src [] = .ok [] from rfl)) ?_)
  rintro _ rfl
  refine .bind (.get (.bind (.lift (gives_freeDstChildren hd hb) fun ys hys => ?_)))
  exact .bind (.lift (gives_byKind hd hb hys) fun _ _ => .pure ⟨rfl, rfl⟩)

theorem yields_recoverPair_full (hs : src.Surveyed) (hd : dst.Surveyed)
    (hfull : p.Full src)
    (hdistance : ¬ DistanceFails c src dst) (ha : src.Reaches a) (hb : dst.Reaches b) :
    Yields excuse (recoverPair c src dst a b) p fun new q => new = [] ∧ q = p := by
  have hexact : c.recovery ≠ .simple →
      Yields excuse (recoverExactly src dst a b) p fun _ q => q = p := by
    intro hc
    apply yields_recoverExactly_full hs hd hfull
    rcases traces_cheapestPairs Float hs hd ha hb with hpairs | ⟨_, hfail, rfl⟩
    · exact hpairs.mono fun _ h => h.mono ha hb
    · exact absurd ⟨hc, a, b, ha, hb, hfail⟩ hdistance
  unfold recoverPair
  cases hc : c.recovery with
  | greedy =>
      refine .bind (.lift (gives_isSmall hs hd ha hb) fun small _ => ?_)
      dsimp only
      split
      · refine .bind ((hexact (by simp [hc])).mono ?_)
        rintro _ _ rfl
        exact .pure ⟨rfl, rfl⟩
      · exact .pure ⟨rfl, rfl⟩
  | simple => exact yields_recoverChildren_full hs hd hfull ha hb
  | hybrid =>
      refine .bind (.lift (gives_isSmall hs hd ha hb) fun small _ => ?_)
      split
      · refine .bind ((hexact (by simp [hc])).mono ?_)
        rintro _ _ rfl
        exact .pure ⟨rfl, rfl⟩
      · exact yields_recoverChildren_full hs hd hfull ha hb

theorem yields_recover_full (hs : src.Surveyed) (hd : dst.Surveyed) (hfull : p.Full src)
    (hdistance : ¬ DistanceFails c src dst) (ha : src.Reaches a) (hb : dst.Reaches b) :
    Yields excuse (recover c src dst a b) p fun _ q => q = p := by
  rw [recover, recoverAll]
  refine .bind ((yields_recoverPair_full hs hd hfull hdistance ha hb).mono ?_)
  rintro _ _ ⟨rfl, rfl⟩
  cases src.forest.size <;> exact .pure rfl

theorem yields_visit_full (hs : src.Surveyed) (hfull : p.Full src)
    (ha : src.Reaches a) :
    Yields excuse (visit c src dst a) p fun _ q => q = p := by
  obtain ⟨b, hab⟩ := hfull a ha
  have hnone : Gives (p.hasFreeSrcChild src a) (· = false) := by
    refine (Gives.of_eq (Tree.children_eq_ok (hs.has ha))).bind fun cs hcs => .pure ?_
    subst hcs
    refine List.any_eq_false.2 fun x hx => ?_
    obtain ⟨y, hy⟩ := hfull x (ha.tail ((hs.sound.forest.mem_children a x).1 hx))
    simp [Pairing.srcPaired, hy]
  refine .bind (.get ?_)
  rw [hab]
  refine .bind (.get (.bind (.lift hnone ?_)))
  rintro _ rfl
  exact .pure rfl

theorem yields_visitAll_full (hs : src.Surveyed) (hd : dst.Surveyed)
    (hfull : p.Full src)
    (hroots : p.image? src.root = some dst.root) (hdistance : ¬ DistanceFails c src dst)
    {ts : List NodeId} (hts : ∀ x ∈ ts, src.Reaches x) :
    Yields excuse (visitAll c src dst ts) p fun _ q => q = p := by
  induction ts with
  | nil => exact .pure rfl
  | cons x ts ih =>
      rw [List.forall_mem_cons] at hts
      refine .bind (.lift (hs.gives_isRoot hts.1) fun is his => ?_)
      split
      · next h =>
        obtain rfl := his.1 h
        have hpair : Yields excuse (pairRoots dst src.root) p fun _ q => q = p := by
          refine .bind (.get ?_)
          rw [if_pos (by simp [Pairing.joins, hroots])]
          exact .pure rfl
        refine .bind (hpair.mono ?_)
        rintro _ _ rfl
        exact yields_recover_full hs hd hfull hdistance .refl .refl
      · refine .bind ((yields_visit_full hs hfull hts.1).mono ?_)
        rintro _ _ rfl
        exact ih hts.2

theorem yields_run_single (hs : src.Surveyed) (hd : dst.Surveyed)
    (hsingle : src.preorder = [src.root]) (hsame : src.sameAs dst) (hp : p.Between src dst) (hsrc : p.image? src.root = none)
    (hdst : p.origin? dst.root = none) (hdistance : ¬ DistanceFails c src dst) :
    Yields excuse (run c src dst) p fun _ q =>
      p.addAll (src.preorder.zip dst.preorder) = .ok q := by
  have hpost : src.postorder = [src.root] :=
    List.perm_singleton.1 (hsingle ▸ (src.forest.subtree src.root).postorder_perm)
  have hzip : src.preorder.zip dst.preorder = [(src.root, dst.root)] := by
    rw [hsingle, Tree.preorder, Rose.preorder_eq_cons, hd.sound.forest.value_subtree]
    rfl
  have hpair : Yields excuse (pairRoots dst src.root) p fun _ q =>
      p.addAll (src.preorder.zip dst.preorder) = .ok q := by
    refine .bind (.get ?_)
    rw [if_neg (by simp [Pairing.joins, hsrc])]
    refine .bind (.get ?_)
    rw [hsrc]
    refine .bind (.get ?_)
    rw [hdst]
    refine .add hsrc hdst fun q hq => ?_
    rw [hzip, Pairing.addAll, hq]
    rfl
  rw [run, hpost]
  refine .bind (.lift (hs.gives_isRoot .refl) fun is his => ?_)
  rw [if_pos (his.2 rfl)]
  refine .bind (hpair.mono fun _ q hq => ?_)
  have hparallel := Pairing.Parallel.of_addAll hs hd hsame hp hq
  refine (yields_recover_full hs hd (fun a => hparallel.exists_image hs.sound) hdistance .refl
    .refl).mono ?_
  rintro _ _ rfl
  exact hq

end Containers

theorem yields_extendMatching_twins [TokenHash] (hs : src.Surveyed) (hd : dst.Surveyed)
    (hsame : src.sameAs dst)
    (hroot : c.minPriority ≤ c.priorityOf (src.forest.measureOf src.root src.root) ∨
      src.preorder = [src.root])
    (hdistance : ¬ DistanceFails c src dst) (hp : p.Between src dst)
    (hfree : SubtreesFree src dst p src.root dst.root) :
    Yields excuse (extendMatching c src dst) p fun _ q =>
      p.addAll (src.preorder.zip dst.preorder) = .ok q := by
  by_cases hmin : c.minPriority ≤ c.priorityOf (src.forest.measureOf src.root src.root)
  · refine .bind ((Identical.yields_run_twins hs hd hsame hmin hfree hp.sound).mono
      fun _ q hq => ?_)
    have hparallel := Pairing.Parallel.of_addAll hs hd hsame hp hq
    refine (Containers.yields_visitAll_full hs hd (fun a => hparallel.exists_image hs.sound)
      (hparallel.roots hs.sound hd.sound) hdistance fun x hx => ?_).mono ?_
    · exact hs.sound.forest.mem_postorder_iff.1 hx
    · rintro _ _ rfl
      exact hq
  · refine .bind ((Identical.yields_run_low hs hd hmin).mono ?_)
    rintro _ _ rfl
    exact Containers.yields_run_single hs hd (hroot.resolve_left hmin) hsame hp
      (hfree.left _ (hs.sound.mem_preorder_iff.2 .refl))
      (hfree.right _ (hd.sound.mem_preorder_iff.2 .refl)) hdistance

/-- The matching of two trees of one content pairs them position by position, in pre-order. -/
theorem gives_matching_twins [TokenHash] (hs : src.Surveyed) (hd : dst.Surveyed)
    (hsame : src.sameAs dst)
    (hroot : c.minPriority ≤ c.priorityOf (src.forest.measureOf src.root src.root) ∨
      src.preorder = [src.root]) (hdistance : ¬ DistanceFails c src dst) :
    Gives (matching c src dst) fun p =>
      p.Parallel src dst ∧ p.pairs = src.preorder.zip dst.preorder := by
  have hempty := Pairing.between_withCapacity src dst src.forest.size dst.forest.size
  have hfree : SubtreesFree src dst (.withCapacity src.forest.size dst.forest.size) src.root
      dst.root := by
    constructor <;> intro x _ <;> simp [Pairing.image?, Pairing.origin?, Pairing.withCapacity]
  have hrun : GivesOr (fun _ => False) (matching c src dst) fun q =>
      (Pairing.withCapacity src.forest.size dst.forest.size).addAll
        (src.preorder.zip dst.preorder) = .ok q :=
    givesOr_matching_of_yields hs hd
      (yields_extendMatching_twins hs hd hsame hroot hdistance hempty hfree)
  refine hrun.gives.mono fun q hq => ⟨?_, ?_⟩
  · exact .of_addAll hs hd hsame hempty hq
  · rw [Pairing.pairs_of_addAll hq]
    simp [Pairing.pairs, Pairing.withCapacity]

end TreeDelta
