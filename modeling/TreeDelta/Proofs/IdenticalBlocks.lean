import TreeDelta.Proofs.IdenticalSteps

namespace TreeDelta

variable {c : Config} {src dst : Tree} {p q r : Pairing} {a b : NodeId} {d d' : Descent}
  {blocks blocks' : List (NodeId × NodeId)}

def blockPairs (src dst : Tree) (blocks : List (NodeId × NodeId)) : List (NodeId × NodeId) :=
  blocks.flatMap fun x => alignedPairs src dst x.1 x.2

/-- The subtrees at these roots are paired one after the other. -/
inductive Commits (c : Config) (src dst : Tree) :
    List (NodeId × NodeId) → Pairing → Pairing → Prop
  | nil (p : Pairing) : Commits c src dst [] p p
  | cons {a b : NodeId} {blocks : List (NodeId × NodeId)} {p q r : Pairing}
      (head : Commit c src dst a b p q) (tail : Commits c src dst blocks q r) :
      Commits c src dst ((a, b) :: blocks) p r

/-- Some subtrees are paired on the way from `p` to `q`, and nothing else happens. -/
def Committed (c : Config) (src dst : Tree) (p q : Pairing) : Prop :=
  ∃ blocks, Commits c src dst blocks p q

theorem Commit.grows [TokenHash] (h : Commit c src dst a b p q) (hs : src.Surveyed)
    (hd : dst.Surveyed) :
    p.Grows src dst q :=
  Pairing.grows_of_addAll h.added fun _ hx =>
    joinable_of_mem_zip hs hd h.left.reaches h.right.reaches (sameShape_of_eq h.content) hx

namespace Commits

theorem trans (h : Commits c src dst blocks p q) (h' : Commits c src dst blocks' q r) :
    Commits c src dst (blocks ++ blocks') p r := by
  induction h with
  | nil => exact h'
  | cons head _ ih => exact .cons head (ih h')

theorem grows [TokenHash] (h : Commits c src dst blocks p q) (hs : src.Surveyed)
    (hd : dst.Surveyed) :
    p.Grows src dst q := by
  induction h with
  | nil => exact .refl
  | cons head _ ih => exact (head.grows hs hd).trans ih

theorem pairs_eq (h : Commits c src dst blocks p q) :
    q.pairs = p.pairs ++ blockPairs src dst blocks := by
  induction h with
  | nil => exact (List.append_nil _).symm
  | cons head _ ih =>
      rw [ih, Pairing.pairs_of_addAll head.added, List.append_assoc, blockPairs, blockPairs,
        List.flatMap_cons]

theorem exists_commit {earlier later : List (NodeId × NodeId)}
    (h : Commits c src dst (earlier ++ (a, b) :: later) p q) :
    ∃ r s, Commits c src dst earlier p r ∧ Commit c src dst a b r s := by
  induction earlier generalizing p with
  | nil =>
      cases h with
      | cons head _ => exact ⟨p, _, .nil p, head⟩
  | cons x earlier ih =>
      cases h with
      | cons head tail =>
          obtain ⟨r, s, hr, hs⟩ := ih tail
          exact ⟨r, s, .cons head hr, hs⟩

end Commits

namespace Committed

theorem refl (p : Pairing) : Committed c src dst p p := ⟨[], .nil p⟩

theorem single (h : Commit c src dst a b p q) : Committed c src dst p q :=
  ⟨[(a, b)], .cons h (.nil q)⟩

theorem trans (h : Committed c src dst p q) (h' : Committed c src dst q r) :
    Committed c src dst p r := by
  obtain ⟨blocks, hblocks⟩ := h
  obtain ⟨blocks', hblocks'⟩ := h'
  exact ⟨blocks ++ blocks', hblocks.trans hblocks'⟩

theorem grows [TokenHash] (h : Committed c src dst p q) (hs : src.Surveyed) (hd : dst.Surveyed) :
    p.Grows src dst q := by
  obtain ⟨_, hblocks⟩ := h
  exact hblocks.grows hs hd

end Committed

def Queue.start (c : Config) (t : Tree) : Queue :=
  if c.minPriority ≤ c.priorityAt t t.root then ⟨[(c.priorityAt t t.root, t.root)]⟩ else {}

def Descent.start (c : Config) (src dst : Tree) : Descent :=
  { src := .start c src, dst := .start c dst }

theorem Config.enqueue_start [TokenHash] {t : Tree} (h : t.Surveyed) :
    c.enqueue t {} t.root = .ok (.start c t) := enqueue_root h

theorem Queue.orderly_start (c : Config) (t : Tree) : (Queue.start c t).Orderly c t := by
  unfold start
  split
  · next hmin => exact .insert .empty ⟨.refl, hmin⟩
  · exact .empty

theorem Queue.weight_start_le [TokenHash] {t : Tree} (h : t.Surveyed) :
    (Queue.start c t).weight t ≤ t.forest.size := by
  have hgives := Identical.weight_start (c := c) h
  rw [Config.enqueue_start h] at hgives
  rcases hgives with ⟨_, ⟨⟩, hweight⟩ | ⟨_, ⟨⟩, _⟩
  exact hweight

theorem Descent.orderly_start (c : Config) (src dst : Tree) :
    (Descent.start c src dst).Orderly c src dst :=
  ⟨Queue.orderly_start c src, Queue.orderly_start c dst, by simp [start]⟩

theorem Descent.weight_start_le [TokenHash] (hs : src.Surveyed) (hd : dst.Surveyed) :
    (Descent.start c src dst).weight src dst ≤ src.forest.size + dst.forest.size :=
  Nat.add_le_add (Queue.weight_start_le hs) (Queue.weight_start_le hd)

theorem Settles.committed {g : Group} (h : Settles c src dst g d p d' q) :
    Committed c src dst p q := by
  cases h with
  | pair _ _ commit => exact .single commit
  | opened | putOff => exact .refl p

theorem SettlesAll.committed {gs : List Group} (h : SettlesAll c src dst gs d p d' q) :
    Committed c src dst p q := by
  induction h with
  | nil => exact .refl _
  | cons head _ ih => exact head.committed.trans ih

theorem Round.committed [TokenHash] {s s' : Descent × Pairing} (h : Round c src dst s s') :
    Committed c src dst s.2 s'.2 := by
  cases h with
  | level _ _ _ settles => exact settles.committed
  | openSrc | openDst => exact .refl _

theorem rounds_committed [TokenHash] {s s' : Descent × Pairing}
    (h : Relation.ReflTransGen (Round c src dst) s s') (hd : s.1.Orderly c src dst) :
    s'.1.Orderly c src dst ∧ Committed c src dst s.2 s'.2 := by
  induction h with
  | refl => exact ⟨hd, .refl _⟩
  | tail _ hround ih => exact ⟨hround.orderly ih.1, ih.2.trans hround.committed⟩

/-- Of the pairing that the computation leaves behind `post` holds, whether it fails or not, and it
fails only for a reason that is excused. -/
def Leaves {α : Type} (excuse : Fault → Prop) (m : Pairer α) (p : Pairing)
    (post : Pairing → Prop) : Prop :=
  post (m.run p).2 ∧ ∀ fault, (m.run p).1 = .error fault → excuse fault

namespace Leaves

variable {α β : Type} {excuse : Fault → Prop} {m : Pairer α} {k : α → Pairer β}
  {post post' : Pairing → Prop}

theorem pure {x : α} (h : post p) : Leaves excuse (Pure.pure x) p post := ⟨h, nofun⟩

theorem mono (h : Leaves excuse m p post) (hpost : ∀ q, post q → post' q) :
    Leaves excuse m p post' :=
  ⟨hpost _ h.1, h.2⟩

theorem bind (h : Yields (fun _ => False) m p fun x q => Leaves excuse (k x) q post) :
    Leaves excuse (m >>= k) p post := by
  have hrun : (m >>= k).run p = (ExceptT.bindCont k (m.run p).1).run (m.run p).2 := rfl
  unfold Leaves
  unfold Yields at h
  rw [hrun]
  generalize m.run p = out at h ⊢
  rcases out with ⟨fault | x, q⟩
  · exact h.elim
  · exact h

theorem liftOr {x : Except Fault α} {P : α → Prop} (hx : GivesOr excuse x P) (hp : post p)
    (h : ∀ y, P y → Leaves excuse (k y) p post) : Leaves excuse (liftM x >>= k) p post := by
  rcases hx with ⟨y, rfl, hy⟩ | ⟨fault, rfl, hfault⟩
  · exact h y hy
  · refine ⟨hp, ?_⟩
    rintro _ ⟨⟩
    exact hfault

end Leaves

structure Candidate (c : Config) (src dst : Tree) (x : NodeId × NodeId) : Prop where
  left : c.Eligible src x.1
  right : c.Eligible dst x.2
  content : src.forest.contentTree x.1 = dst.forest.contentTree x.2

theorem Candidate.reaches {x : NodeId × NodeId} (h : Candidate c src dst x) :
    src.Reaches x.1 ∧ dst.Reaches x.2 := ⟨h.left.reaches, h.right.reaches⟩

/-- Pairs of subtrees are served in this order: what is free when its turn comes is paired. -/
inductive Served (c : Config) (src dst : Tree) :
    List (NodeId × NodeId) → Pairing → Pairing → Prop
  | nil (p : Pairing) : Served c src dst [] p p
  | pair {x : NodeId × NodeId} {rest : List (NodeId × NodeId)} {p q r : Pairing}
      (head : Commit c src dst x.1 x.2 p q) (tail : Served c src dst rest q r) :
      Served c src dst (x :: rest) p r
  | skip {x : NodeId × NodeId} {rest : List (NodeId × NodeId)} {p r : Pairing}
      (busy : ¬ SubtreesFree src dst p x.1 x.2) (tail : Served c src dst rest p r) :
      Served c src dst (x :: rest) p r

theorem Served.committed {pairs : List (NodeId × NodeId)} (h : Served c src dst pairs p q) :
    Committed c src dst p q := by
  induction h with
  | nil => exact .refl _
  | pair head _ ih => exact (Committed.single head).trans ih
  | skip _ _ ih => exact ih

/-- A word is too small for some sum of two counts or offsets of the trees. -/
def Overflows (src dst : Tree) (fault : Fault) : Prop :=
  fault = .overflow ∧ ¬ (src.Small ∧ dst.Small)

theorem Leaves.outcome {m : Pairer Unit} {post : Pairing → Prop}
    (h : Leaves (Overflows src dst) m p post) :
    (m.run p).1 = .ok () ∨ (m.run p).1 = .error .overflow ∧ ¬ (src.Small ∧ dst.Small) := by
  have hfault := h.2
  cases hout : (m.run p).1 with
  | ok => exact .inl rfl
  | error fault =>
      obtain ⟨rfl, hlarge⟩ := hfault fault hout
      exact .inr ⟨rfl, hlarge⟩

namespace Identical

def deferredGroups (c : Config) (src dst : Tree) : Pairer (List Group) := do
  let srcQueue ← c.enqueue src {} src.root
  let dstQueue ← c.enqueue dst {} dst.root
  descend c src dst (src.forest.size + dst.forest.size + 1) ⟨srcQueue, dstQueue, []⟩

theorem run_eq (c : Config) (src dst : Tree) :
    run c src dst = (do
      let groups ← deferredGroups c src dst
      serveGroups src dst (← bySize src groups)) := by
  simp only [run, deferredGroups, bind_assoc]

theorem gives_bySize_perm [TokenHash] (hs : src.Surveyed) {groups : List Group}
    (h : ∀ g ∈ groups, ∀ a ∈ g.src, src.Reaches a) :
    Gives (bySize src groups) (·.Perm groups) := by
  have hsized : Gives (groups.mapM fun g => return (← maxSize src g.src, g))
      (List.Forall₂ (fun g s => s.2 = g) groups) :=
    .mapM fun g hg => (gives_maxSize hs (h g hg)).bind fun _ _ => .pure rfl
  refine hsized.bind fun sized hsized => .pure ?_
  have hsnd : sized.map (·.2) = groups := by
    rw [← List.forall₂_eq_eq_eq, List.forall₂_map_left_iff]
    exact hsized.flip
  exact hsnd ▸ (List.mergeSort_perm sized _).map _

variable [TokenHash] (hs : src.Surveyed) (hd : dst.Surveyed)
include hs hd

theorem gives_candidates_alike {g : Group} (hg : g.Eligible c src dst) :
    Gives (candidates src dst g) fun pairs => ∀ x ∈ pairs,
      x.1 ∈ g.src ∧ x.2 ∈ g.dst ∧ Candidate c src dst x := by
  refine .filterM fun x hx => ?_
  obtain ⟨a, ha, hx⟩ := List.mem_flatMap.1 hx
  obtain ⟨b, hb, rfl⟩ := List.mem_map.1 hx
  apply (Gives.isomorphic hs hd (hg.left a ha).reaches (hg.right b hb).reaches).mono
  exact fun same hsame hyes => ⟨ha, hb, hg.left a ha, hg.right b hb, hsame.1 hyes⟩

theorem yields_serve {excuse : Fault → Prop} {pairs : List (NodeId × NodeId)}
    (h : ∀ x ∈ pairs, Candidate c src dst x) (hp : p.Sound) :
    Yields excuse (serve src dst pairs) p fun _ q => Served c src dst pairs p q := by
  induction pairs generalizing p with
  | nil => exact .pure (.nil p)
  | cons x pairs ih =>
      obtain ⟨hx, hpairs⟩ := List.forall_mem_cons.1 h
      refine .bind ((yields_pairIfFree hs hd hx.left hx.right hx.content hp).mono ?_)
      intro paired q hq
      cases paired with
      | true => exact (ih hpairs (hp.of_addAll hq.added)).mono fun _ _ => .pair hq
      | false =>
          obtain ⟨rfl, hbusy⟩ := hq
          exact (ih hpairs hp).mono fun _ _ => .skip hbusy

theorem leaves_serveGroups {groups : List Group} (h : ∀ g ∈ groups, g.Eligible c src dst)
    (hp : p.Between src dst) :
    Leaves (Overflows src dst) (serveGroups src dst groups) p (Committed c src dst p) := by
  induction groups generalizing p with
  | nil => exact .pure (.refl p)
  | cons g groups ih =>
      obtain ⟨hg, hgroups⟩ := List.forall_mem_cons.1 h
      refine .bind (.lift (gives_candidates_alike hs hd hg) fun pairs hpairs => ?_)
      refine .bind (.get ?_)
      -- only the sums in the ranking can be too large, and before it nothing has changed
      refine .liftOr (Reckons.sort hs hd hp.within fun x hx => ?_) (.refl p) fun sorted hperm => ?_
      · exact (hpairs x hx).2.2.reaches
      refine .bind ((yields_serve hs hd
        (fun x hx => (hpairs x (hperm.mem_iff.1 hx)).2.2) hp.sound).mono fun _ q hq => ?_)
      have hq := hq.committed
      exact (ih hgroups ((hq.grows hs hd).between hp)).mono fun r hr => hq.trans hr

theorem yields_deferredGroups {excuse : Fault → Prop} (hp : p.Sound) :
    Yields excuse (deferredGroups c src dst) p fun groups q => ∃ d,
      Relation.ReflTransGen (Round c src dst) (Descent.start c src dst, p) (d, q) ∧
        (d.src.nodes = [] ∨ d.dst.nodes = []) ∧ groups = d.deferred := by
  refine .bind (.lift (.of_eq (Config.enqueue_start hs)) ?_)
  rintro _ rfl
  refine .bind (.lift (.of_eq (Config.enqueue_start hd)) ?_)
  rintro _ rfl
  have hweight := Nat.le_succ_of_le (Descent.weight_start_le (c := c) hs hd)
  exact yields_descend hs hd (Descent.orderly_start c src dst) hp hweight

theorem leaves_run (hp : p.Between src dst) :
    Leaves (Overflows src dst) (run c src dst) p fun r => ∃ d q,
      Relation.ReflTransGen (Round c src dst) (Descent.start c src dst, p) (d, q) ∧
        (d.src.nodes = [] ∨ d.dst.nodes = []) ∧ Committed c src dst q r := by
  rw [run_eq]
  refine .bind ((yields_deferredGroups hs hd hp.sound).mono ?_)
  rintro groups q ⟨d, hrounds, hempty, rfl⟩
  obtain ⟨hdesc, hcommitted⟩ := rounds_committed hrounds (Descent.orderly_start c src dst)
  refine .bind (.lift (gives_bySize_perm hs fun g hg a ha => ?_) fun sorted hperm => ?_)
  · exact ((hdesc.deferred g hg).left a ha).reaches
  have hsorted : ∀ g ∈ sorted, g.Eligible c src dst := fun g hg =>
    hdesc.deferred g (hperm.mem_iff.1 hg)
  refine (leaves_serveGroups hs hd hsorted ((hcommitted.grows hs hd).between hp)).mono ?_
  exact fun r hr => ⟨d, q, hrounds, hempty, hr⟩

end Identical

/-- Two subtrees that can be added as a block to these pairs: they have one content, their roots
are not too low, and none of their nodes is in a pair. -/
structure Block (c : Config) (src dst : Tree) (pairs : List (NodeId × NodeId)) (a b : NodeId) :
    Prop where
  left : c.Eligible src a
  right : c.Eligible dst b
  content : src.forest.contentTree a = dst.forest.contentTree b
  untouched : ∀ x y, (x, y) ∈ pairs → ¬ src.forest.Under a x ∧ ¬ dst.forest.Under b y

theorem Commit.block (h : Commit c src dst a b p q) (hs : src.forest.Sound)
    (hd : dst.forest.Sound) (hp : p.Sound) : Block c src dst p.pairs a b := by
  refine ⟨h.left, h.right, h.content, fun x y hxy => ⟨fun hx => ?_, fun hy => ?_⟩⟩
  · rw [hp.mem_pairs, h.free.left x (hs.mem_preorder_iff.2 hx)] at hxy
    cases hxy
  · rw [hp.mem_pairs, hp.image_iff_origin, h.free.right y (hd.mem_preorder_iff.2 hy)] at hxy
    cases hxy

/-- The pairs of `q` are those of `p` and then those of the blocks, of which none touches a pair
before it. So new partners have one content, and their children are new partners one by one. -/
structure AppendsBlocks (c : Config) (src dst : Tree) (p q : Pairing)
    (blocks : List (NodeId × NodeId)) : Prop where
  pairs : q.pairs = p.pairs ++ blockPairs src dst blocks
  block : ∀ earlier a b later, blocks = earlier ++ (a, b) :: later →
    Block c src dst (p.pairs ++ blockPairs src dst earlier) a b
  partners : ∀ a b, (a, b) ∈ blockPairs src dst blocks →
    src.forest.contentTree a = dst.forest.contentTree b ∧
      List.Forall₂ (fun x y => (x, y) ∈ blockPairs src dst blocks)
        (src.forest.childrenOf a) (dst.forest.childrenOf b)

theorem Commits.appendsBlocks [TokenHash] (h : Commits c src dst blocks p q) (hs : src.Surveyed)
    (hd : dst.Surveyed) (hp : p.Between src dst) : AppendsBlocks c src dst p q blocks := by
  have hblock : ∀ earlier a b later, blocks = earlier ++ (a, b) :: later →
      Block c src dst (p.pairs ++ blockPairs src dst earlier) a b := by
    rintro earlier a b later rfl
    obtain ⟨r, s, hearlier, hcommit⟩ := h.exists_commit
    rw [← hearlier.pairs_eq]
    exact hcommit.block hs.sound.forest hd.sound.forest ((hearlier.grows hs hd).between hp).sound
  refine ⟨h.pairs_eq, hblock, fun a b hab => ?_⟩
  obtain ⟨z, hz, hab⟩ := List.mem_flatMap.1 hab
  obtain ⟨earlier, later, hsplit⟩ := List.append_of_mem hz
  obtain ⟨hcontent, hchildren⟩ := places_of_mem_alignedPairs hs.sound.forest hd.sound.forest
    (hblock earlier z.1 z.2 later hsplit).content hab
  exact ⟨hcontent, hchildren.imp fun x y hxy => List.mem_flatMap.2 ⟨z, hz, hxy⟩⟩

/-- From any pairing between the two trees, the first phase leaves the old pairs in place and
appends blocks, each of two whole subtrees of one content that no earlier pair touches. -/
theorem run_appends_blocks [TokenHash] (c : Config) (hs : src.Surveyed) (hd : dst.Surveyed)
    (hp : p.Between src dst) :
    ∃ out q blocks, (Identical.run c src dst).run p = (out, q) ∧
      (out = .ok () ∨ out = .error .overflow ∧ ¬ (src.Small ∧ dst.Small)) ∧
      q.Between src dst ∧ AppendsBlocks c src dst p q blocks := by
  have hrun := Identical.leaves_run (c := c) hs hd hp
  obtain ⟨d, r, hrounds, _, hserved⟩ := hrun.1
  obtain ⟨blocks, hblocks⟩ :=
    (rounds_committed hrounds (Descent.orderly_start c src dst)).2.trans hserved
  exact ⟨_, _, blocks, rfl, hrun.outcome, (hblocks.grows hs hd).between hp,
    hblocks.appendsBlocks hs hd hp⟩

attribute [local instance] TokenHash.constant

/-- All subtrees share one digest, so the roots are alone in their group. They differ, and are opened
in place of being paired. -/
theorem run_appends_blocks_twigs :
    ((Identical.run { minPriority := 0 } (twig 0 1).measured (twig 2 1).measured).run .empty).2.pairs
        = [(2, 2)] ∧
      ∃ out q blocks, (Identical.run { minPriority := 0 } (twig 0 1).measured
          (twig 2 1).measured).run .empty = (out, q) ∧
        (out = .ok () ∨ out = .error .overflow ∧
          ¬ ((twig 0 1).measured.Small ∧ (twig 2 1).measured.Small)) ∧
        q.Between (twig 0 1).measured (twig 2 1).measured ∧
        AppendsBlocks { minPriority := 0 } (twig 0 1).measured (twig 2 1).measured .empty q
          blocks := by
  refine ⟨by decide +kernel, run_appends_blocks _ (sound_twig 0 1).surveyed
    (sound_twig 2 1).surveyed ⟨.empty, fun x y hxy => ?_⟩⟩
  simp [Pairing.image?, Pairing.empty] at hxy

end TreeDelta
