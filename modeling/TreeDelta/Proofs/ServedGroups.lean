import Mathlib.Data.List.ProdSigma
import TreeDelta.Proofs.DeferredGroups

namespace TreeDelta

variable {c : Config} {src dst t : Tree} {p q r : Pairing} {a b x y : NodeId} {g h : Group}
  {groups gs : List Group} {pairs : List (NodeId × NodeId)}

/-- Subtrees of the groups that share a node are one subtree of one group. -/
def Tree.Scatters (t : Tree) (side : Group → List NodeId) (groups : List Group) : Prop :=
  ∀ g ∈ groups, ∀ h ∈ groups, ∀ x ∈ side g, ∀ y ∈ side h, ∀ z,
    t.forest.Under x z → t.forest.Under y z → g = h ∧ x = y

theorem Tree.Clear.scatters {free : NodeId → Prop} {side : Group → List NodeId}
    (hclear : t.Clear free (groups.flatMap side)) : t.Scatters side groups := by
  have hsymm := t.symm_apart
  have hsymm' : Std.Symm fun g h => ∀ x ∈ side g, ∀ y ∈ side h,
      ∀ z, t.forest.Under x z → ¬ t.forest.Under y z :=
    ⟨fun g h hgh y hy x hx => hsymm.symm x y (hgh x hx y hy)⟩
  obtain ⟨hinside, hacross⟩ := List.pairwise_flatMap.1 hclear.apart
  intro g hg h hh x hx y hy z hxz hyz
  obtain rfl : g = h := by
    by_contra hne
    exact hacross.forall hg hh hne x hx y hy z hxz hyz
  refine ⟨rfl, ?_⟩
  by_contra hne
  exact (hinside g hg).forall hx hy hne z hxz hyz

def Tree.FreeOrUsed (t : Tree) (partner? : NodeId → Option NodeId) (others : List NodeId)
    (x : NodeId) : Prop :=
  (∀ z, t.forest.Under x z → partner? z = none) ∨ ∃ y ∈ others, partner? x = some y

namespace Tree.FreeOrUsed

variable {partner? partner?' : NodeId → Option NodeId} {others : List NodeId}

theorem free (h : t.FreeOrUsed partner? others x) (hx : partner? x = none) {z : NodeId}
    (hz : t.forest.Under x z) : partner? z = none := by
  refine h.resolve_right ?_ z hz
  rintro ⟨y, _, hxy⟩
  cases hx.symm.trans hxy

theorem mem (h : t.FreeOrUsed partner? others x) (hxy : partner? x = some y) : y ∈ others := by
  rcases h with hfree | ⟨y', hy, hxy'⟩
  · cases (hfree x .refl).symm.trans hxy
  · cases hxy.symm.trans hxy'
    exact hy

theorem step (h : t.FreeOrUsed partner? others x) (a : NodeId)
    (hkeep : ∀ y, partner? x = some y → partner?' x = some y)
    (hout : ∀ z, partner? z = none → ¬ t.forest.Under a z → partner?' z = none)
    (hshared : ∀ z, t.forest.Under x z → t.forest.Under a z → ∃ y ∈ others, partner?' x = some y) :
    t.FreeOrUsed partner?' others x := by
  rcases h with hfree | ⟨y, hy, hxy⟩
  · by_cases hz : ∃ z, t.forest.Under x z ∧ t.forest.Under a z
    · obtain ⟨z, hxz, haz⟩ := hz
      exact .inr (hshared z hxz haz)
    · exact .inl fun z hxz => hout z (hfree z hxz) fun haz => hz ⟨z, hxz, haz⟩
  · exact .inr ⟨y, hy, hkeep y hxy⟩

end Tree.FreeOrUsed

namespace Group

/-- No subtree of the group is used outside of it. -/
structure Exclusive (src dst : Tree) (p : Pairing) (g : Group) : Prop where
  left : ∀ x ∈ g.src, src.FreeOrUsed p.image? g.dst x
  right : ∀ y ∈ g.dst, dst.FreeOrUsed p.origin? g.src y

def Exhausted (p : Pairing) (g : Group) : Prop :=
  ∀ a ∈ g.src, ∀ b ∈ g.dst, ¬ p.bothFree a b

/-- As many subtrees of the group as there are on both sides have partners, all of them different,
and no member of the group has its partner outside. -/
structure UsedUp (p : Pairing) (g : Group) : Prop where
  count : g.src.countP p.srcPaired = min g.src.length g.dst.length
  distinct : (g.src.filterMap p.image?).Nodup
  images : ∀ a ∈ g.src, ∀ b, p.image? a = some b → b ∈ g.dst
  origins : ∀ b ∈ g.dst, ∀ a, p.origin? b = some a → a ∈ g.src

theorem Exclusive.subtreesFree (hs : src.forest.Sound) (hd : dst.forest.Sound)
    (hg : g.Exclusive src dst p) (ha : a ∈ g.src) (hb : b ∈ g.dst) (hfree : p.bothFree a b) :
    SubtreesFree src dst p a b := by
  obtain ⟨hsrc, hdst⟩ := Pairing.bothFree_iff.1 hfree
  exact ⟨fun x hx => (hg.left a ha).free hsrc (hs.mem_preorder_iff.1 hx),
    fun y hy => (hg.right b hb).free hdst (hd.mem_preorder_iff.1 hy)⟩

theorem Exclusive.usedUp (hg : g.Exclusive src dst p) (hexhausted : g.Exhausted p)
    (hcrowded : g.Crowded) (hp : p.Sound) : g.UsedUp p := by
  have hdistinct : (g.src.filterMap p.image?).Nodup :=
    hcrowded.nodupLeft.filterMap fun a a' b ha ha' => hp.image_inj ha ha'
  have hlength : (g.src.filterMap p.image?).length = g.src.countP p.srcPaired :=
    List.length_filterMap_eq_countP
  refine ⟨le_antisymm (le_min List.countP_le_length ?_) ?_, hdistinct,
    fun a ha b => (hg.left a ha).mem, fun b hb a => (hg.right b hb).mem⟩
  · -- the partners are different members of the other side
    rw [← hlength]
    refine (hdistinct.subperm fun b hb => ?_).length_le
    obtain ⟨a, ha, hab⟩ := List.mem_filterMap.1 hb
    exact (hg.left a ha).mem hab
  · by_cases hall : ∀ a ∈ g.src, p.srcPaired a
    · rw [List.countP_eq_length.2 hall]
      exact min_le_left _ _
    · -- one source subtree is left, so all of the other side are partners
      obtain ⟨a, ha, hfree⟩ : ∃ a ∈ g.src, p.image? a = none := by
        simpa [Pairing.srcPaired] using hall
      refine (min_le_right _ _).trans (hlength ▸ (hcrowded.nodupRight.subperm ?_).length_le)
      intro b hb
      obtain ⟨a', hab⟩ := Option.ne_none_iff_exists'.1 fun hnone =>
        hexhausted a ha b hb (Pairing.bothFree_iff.2 ⟨hfree, hnone⟩)
      exact List.mem_filterMap.2
        ⟨a', (hg.right b hb).mem hab, (hp.image_iff_origin a' b).2 hab⟩

end Group

inductive ServedAll (c : Config) (src dst : Tree) : List Group → Pairing → Pairing → Prop
  | nil (p : Pairing) : ServedAll c src dst [] p p
  | cons {g : Group} {gs : List Group} {order : List (NodeId × NodeId)} {p q r : Pairing}
      (perm : order.Perm (g.src ×ˢ g.dst)) (head : Served c src dst order p q)
      (tail : ServedAll c src dst gs q r) : ServedAll c src dst (g :: gs) p r

theorem ServedAll.committed (hserved : ServedAll c src dst gs p q) : Committed c src dst p q := by
  induction hserved with
  | nil => exact .refl _
  | cons _ head _ ih => exact head.committed.trans ih

theorem Commit.image?_self [TokenHash] (hcommit : Commit c src dst a b p q) (hs : src.Surveyed)
    (hd : dst.Surveyed) (hp : p.Sound) : q.image? a = some b :=
  (hcommit.image?_eq_some_iff hp).2
    (.inr (mem_alignedPairs_self hs.sound.forest hd.sound.forest hcommit.content))

section Serving

variable [TokenHash] (hs : src.Surveyed) (hd : dst.Surveyed) (hsrc : src.Scatters (·.src) groups)
  (hdst : dst.Scatters (·.dst) groups) (hg : g ∈ groups) (hh : h ∈ groups)
include hs hd hsrc hdst hg hh

theorem Commit.exclusive (hcommit : Commit c src dst a b p q) (ha : a ∈ h.src) (hb : b ∈ h.dst)
    (hp : p.Sound) (hexclusive : g.Exclusive src dst p) : g.Exclusive src dst q := by
  have hgrows := hcommit.grows hs hd
  have himage := hcommit.image?_self hs hd hp
  refine ⟨fun x hx => ?_, fun y hy => ?_⟩
  · refine (hexclusive.left x hx).step a (fun y hxy => hgrows.image hxy) (fun z hz hout => ?_)
      fun z hxz haz => ?_
    · exact hcommit.image?_eq_none hs.sound.forest hd.sound.forest hp hz hout
    · obtain ⟨rfl, rfl⟩ := hsrc g hg h hh x hx a ha z hxz haz
      exact ⟨b, hb, himage⟩
  · refine (hexclusive.right y hy).step b (fun x hyx => hgrows.origin hyx) (fun z hz hout => ?_)
      fun z hyz hbz => ?_
    · exact hcommit.origin?_eq_none hs.sound.forest hd.sound.forest hp hz hout
    · obtain ⟨rfl, rfl⟩ := hdst g hg h hh y hy b hb z hyz hbz
      exact ⟨a, ha, ((hp.of_addAll hcommit.added).image_iff_origin a _).1 himage⟩

theorem Served.exclusive (hserved : Served c src dst pairs p q)
    (hpairs : ∀ z ∈ pairs, z.1 ∈ h.src ∧ z.2 ∈ h.dst) (hp : p.Sound)
    (hexclusive : g.Exclusive src dst p) : g.Exclusive src dst q := by
  induction hserved with
  | nil => exact hexclusive
  | pair head _ ih =>
      obtain ⟨⟨ha, hb⟩, hpairs⟩ := List.forall_mem_cons.1 hpairs
      exact ih hpairs (hp.of_addAll head.added)
        (head.exclusive hs hd hsrc hdst hg hh ha hb hp hexclusive)
  | skip _ _ ih => exact ih (List.forall_mem_cons.1 hpairs).2 hp hexclusive

omit hh in
theorem Served.exhausts (hserved : Served c src dst pairs p q)
    (hpairs : ∀ z ∈ pairs, z.1 ∈ g.src ∧ z.2 ∈ g.dst) (hp : p.Sound)
    (hexclusive : g.Exclusive src dst p) : ∀ z ∈ pairs, ¬ q.bothFree z.1 z.2 := by
  induction hserved with
  | nil => simp
  | @pair z rest p q r head tail ih =>
      obtain ⟨⟨ha, hb⟩, hpairs⟩ := List.forall_mem_cons.1 hpairs
      refine List.forall_mem_cons.2 ⟨fun hfree => ?_, ?_⟩
      · have hnone := (Pairing.bothFree_iff.1 ((tail.committed.grows hs hd).bothFree hfree)).1
        cases hnone.symm.trans (head.image?_self hs hd hp)
      · exact ih hpairs (hp.of_addAll head.added)
          (head.exclusive hs hd hsrc hdst hg hg ha hb hp hexclusive)
  | @skip z rest p r busy tail ih =>
      obtain ⟨⟨ha, hb⟩, hpairs⟩ := List.forall_mem_cons.1 hpairs
      refine List.forall_mem_cons.2 ⟨fun hfree => busy ?_, ih hpairs hp hexclusive⟩
      exact hexclusive.subtreesFree hs.sound.forest hd.sound.forest ha hb
        ((tail.committed.grows hs hd).bothFree hfree)

omit hg hh in
theorem ServedAll.exhausts (hserved : ServedAll c src dst gs p q) (hgs : ∀ g ∈ gs, g ∈ groups)
    (hp : p.Between src dst) (hexclusive : ∀ g ∈ groups, g.Exclusive src dst p) :
    (∀ g ∈ groups, g.Exclusive src dst q) ∧ ∀ g ∈ gs, g.Exhausted q := by
  induction hserved with
  | nil => exact ⟨hexclusive, by simp⟩
  | @cons h gs order p q r perm head tail ih =>
      obtain ⟨hh, hgs⟩ := List.forall_mem_cons.1 hgs
      have horder : ∀ z ∈ order, z.1 ∈ h.src ∧ z.2 ∈ h.dst := fun z hz =>
        List.mem_product.1 (perm.mem_iff.1 hz)
      obtain ⟨hlast, hrest⟩ := ih hgs ((head.committed.grows hs hd).between hp) fun g hg =>
        head.exclusive hs hd hsrc hdst hg hh horder hp.sound (hexclusive g hg)
      refine ⟨hlast, List.forall_mem_cons.2 ⟨fun a ha b hb hfree => ?_, hrest⟩⟩
      refine head.exhausts hs hd hsrc hdst hh horder hp.sound (hexclusive h hh) (a, b) ?_
        ((tail.committed.grows hs hd).bothFree hfree)
      exact perm.mem_iff.2 (List.mem_product.2 ⟨ha, hb⟩)

end Serving

/-- The groups are crowded, and their subtrees are free and have no node in common. -/
structure Reserved (src dst : Tree) (groups : List Group) (p : Pairing) : Prop where
  left : src.Clear (fun x => p.image? x = none) (groups.flatMap (·.src))
  right : dst.Clear (fun y => p.origin? y = none) (groups.flatMap (·.dst))
  crowded : ∀ g ∈ groups, g.Crowded

theorem Reserved.exclusive (hres : Reserved src dst groups p) :
    ∀ g ∈ groups, g.Exclusive src dst p :=
  fun g hg => ⟨fun x hx => .inl (hres.left.free x (List.mem_flatMap.2 ⟨g, hg, hx⟩)),
    fun y hy => .inl (hres.right.free y (List.mem_flatMap.2 ⟨g, hg, hy⟩))⟩

theorem ServedAll.usedUp [TokenHash] (hserved : ServedAll c src dst gs p q) (hs : src.Surveyed)
    (hd : dst.Surveyed) (hp : p.Between src dst) (hres : Reserved src dst groups p)
    (hperm : gs.Perm groups) : ∀ g ∈ groups, g.UsedUp q := by
  obtain ⟨hexclusive, hexhausted⟩ := hserved.exhausts hs hd hres.left.scatters
    hres.right.scatters (fun g hg => hperm.mem_iff.1 hg) hp hres.exclusive
  intro g hg
  exact (hexclusive g hg).usedUp (hexhausted g (hperm.mem_iff.2 hg)) (hres.crowded g hg)
    ((hserved.committed.grows hs hd).between hp).sound

theorem Descent.Reserves.reserved {d : Descent} (hres : d.Reserves src dst gs p) :
    Reserved src dst d.deferred p :=
  ⟨hres.left.left_of_append, hres.right.left_of_append, hres.crowded⟩

/-- More than two subtrees of one content, with some in either tree. -/
structure Group.Ambiguous (src dst : Tree) (g : Group) : Prop extends g.Crowded where
  content : ∀ a ∈ g.src, ∀ b ∈ g.dst, src.forest.contentTree a = dst.forest.contentTree b

section Keys

variable [TokenHash] {d' : Descent}

theorem Settles.keyed {d : Descent} (hsettles : Settles c src dst g d p d' q)
    (hg : g.Keyed src dst) (hkeyed : ∀ h ∈ d.deferred, h.Keyed src dst) :
    ∀ h ∈ d'.deferred, h.Keyed src dst := by
  cases hsettles with
  | pair | opened => exact hkeyed
  | putOff => exact List.forall_mem_append.2 ⟨hkeyed, List.forall_mem_singleton.2 hg⟩

theorem SettlesAll.keyed {d : Descent} (hsettles : SettlesAll c src dst gs d p d' q)
    (hgs : ∀ g ∈ gs, g.Keyed src dst) (hkeyed : ∀ h ∈ d.deferred, h.Keyed src dst) :
    ∀ h ∈ d'.deferred, h.Keyed src dst := by
  induction hsettles with
  | nil => exact hkeyed
  | cons head _ ih =>
      rw [List.forall_mem_cons] at hgs
      exact ih hgs.2 (head.keyed hgs.1 hkeyed)

theorem rounds_keyed {s s' : Descent × Pairing}
    (hrounds : Relation.ReflTransGen (Round c src dst) s s')
    (hkeyed : ∀ h ∈ s.1.deferred, h.Keyed src dst) : ∀ h ∈ s'.1.deferred, h.Keyed src dst := by
  induction hrounds with
  | refl => exact hkeyed
  | tail _ hround ih =>
      cases hround with
      | level _ _ sorts settles => exact settles.keyed sorts.keyed ih
      | openSrc | openDst => exact ih

theorem Group.Crowded.ambiguous (hcrowded : g.Crowded) (hkeyed : g.Keyed src dst)
    (heligible : g.Eligible c src dst) (hfaithful : FaithfulDigests src dst) :
    g.Ambiguous src dst where
  toCrowded := hcrowded
  content a ha b hb := hfaithful a b (heligible.left a ha).reaches (heligible.right b hb).reaches
    ((hkeyed.left a ha).trans (hkeyed.right b hb).symm)

end Keys

namespace Identical

section Computing

variable [TokenHash] (hs : src.Surveyed) (hd : dst.Surveyed)
include hs hd

theorem candidates_eq_ok (hg : g.Eligible c src dst) (hambiguous : g.Ambiguous src dst) :
    candidates src dst g = .ok (g.src ×ˢ g.dst) := by
  have hyes : ∀ z ∈ g.src ×ˢ g.dst, src.isomorphic z.1 dst z.2 = .ok true := by
    intro z hz
    obtain ⟨ha, hb⟩ := List.mem_product.1 hz
    obtain ⟨same, heq, hsame⟩ :=
      Gives.isomorphic hs hd (hg.left z.1 ha).reaches (hg.right z.2 hb).reaches
    rw [heq, hsame.2 (hambiguous.content z.1 ha z.2 hb)]
  refine (filterM_eq_ok hyes).trans ?_
  rw [List.filter_true]

theorem yields_serveGroups (hgroups : ∀ g ∈ groups, g.Eligible c src dst ∧ g.Ambiguous src dst)
    (hp : p.Between src dst) :
    Yields (Overflows src dst) (serveGroups src dst groups) p fun _ q =>
      ServedAll c src dst groups p q := by
  induction groups generalizing p with
  | nil => exact .pure (.nil p)
  | cons g groups ih =>
      obtain ⟨⟨hg, hambiguous⟩, hgroups⟩ := List.forall_mem_cons.1 hgroups
      have hcandidate : ∀ z ∈ g.src ×ˢ g.dst, Candidate c src dst z := by
        intro z hz
        obtain ⟨ha, hb⟩ := List.mem_product.1 hz
        exact ⟨hg.left z.1 ha, hg.right z.2 hb, hambiguous.content z.1 ha z.2 hb⟩
      refine .bind (.lift (.of_eq (candidates_eq_ok hs hd hg hambiguous)) ?_)
      rintro _ rfl
      refine .bind (.get ?_)
      refine .bind (.liftOr (Reckons.sort hs hd hp.within fun z hz => ?_) fun order hperm => ?_)
      · exact ⟨(hcandidate z hz).left.reaches, (hcandidate z hz).right.reaches⟩
      refine .bind ((yields_serve hs hd
        (fun z hz => hcandidate z (hperm.mem_iff.1 hz)) hp.sound).mono fun _ q hq => ?_)
      exact (ih hgroups ((hq.committed.grows hs hd).between hp)).mono fun _ r => .cons hperm hq

end Computing

/-- If digests are faithful, the first phase puts off groups of more than two subtrees of one
content, and then uses them up, whatever the order in which it serves the groups and the pairs of
each. -/
theorem run_uses_up_groups [TokenHash] (c : Config) (hs : src.Surveyed) (hd : dst.Surveyed)
    (hfaithful : FaithfulDigests src dst) (hp : p.Sound) (hempty : p.isEmpty) :
    ∃ groups q, (deferredGroups c src dst).run p = (.ok groups, q) ∧
      (∀ g ∈ groups, g.Ambiguous src dst) ∧
      (∀ gs r, gs.Perm groups → ServedAll c src dst gs q r → ∀ g ∈ groups, g.UsedUp r) ∧
      ∃ out r, (run c src dst).run p = (out, r) ∧
        (out = .ok () ∧ (∀ g ∈ groups, g.UsedUp r) ∨
          out = .error .overflow ∧ ¬ (src.Small ∧ dst.Small)) := by
  have hdescent : Yields (fun _ => False) (deferredGroups c src dst) p _ :=
    yields_deferredGroups hs hd hp
  obtain ⟨_, q, hdeferred, d, hrounds, _, rfl⟩ := hdescent.exists_run.resolve_right (by simp)
  obtain ⟨hdesc, hcommitted⟩ := rounds_committed hrounds (Descent.orderly_start c src dst)
  have hq := (hcommitted.grows hs hd).between (hp.between_of_isEmpty hempty)
  have hres := (rounds_reserves hs.sound.forest hd.sound.forest hrounds hp
    (Descent.reserves_start hp hempty)).reserved
  have hkeyed := rounds_keyed hrounds (by simp [Descent.start])
  have hambiguous : ∀ g ∈ d.deferred, g.Ambiguous src dst := fun g hg =>
    (hres.crowded g hg).ambiguous (hkeyed g hg) (hdesc.deferred g hg) hfaithful
  have hrun : Yields (Overflows src dst) (run c src dst) p fun _ r =>
      ∀ g ∈ d.deferred, g.UsedUp r := by
    rw [run_eq]
    refine .bind (.of_run hdeferred ?_)
    refine .bind (.lift (gives_bySize_perm hs fun g hg a ha => ?_) fun sorted hperm => ?_)
    · exact ((hdesc.deferred g hg).left a ha).reaches
    have hsorted : ∀ g ∈ sorted, g.Eligible c src dst ∧ g.Ambiguous src dst := fun g hg =>
      ⟨hdesc.deferred g (hperm.mem_iff.1 hg), hambiguous g (hperm.mem_iff.1 hg)⟩
    exact (yields_serveGroups hs hd hsorted hq).mono fun _ r hr => hr.usedUp hs hd hq hres hperm
  refine ⟨_, q, hdeferred, hambiguous, fun gs r hperm hr => hr.usedUp hs hd hq hres hperm, ?_⟩
  rcases hrun.exists_run with ⟨_, r, hrun, hused⟩ | ⟨_, r, hrun, rfl, hlarge⟩
  · exact ⟨_, r, hrun, .inl ⟨rfl, hused⟩⟩
  · exact ⟨_, r, hrun, .inr ⟨rfl, hlarge⟩⟩

def hedge : Tree := (((twig 5 0).grow 2 1).grow 1 0).grow 4 1

def longHedge : Tree := (((((twig 6 0).grow 2 1).grow 1 0).grow 4 1).grow 1 0).grow 6 1

attribute [local instance] TokenHash.ofKind

/-- The equal subtrees make one group, and two of them are paired. -/
theorem run_uses_up_groups_hedge :
    ∃ groups q, (deferredGroups {} hedge.measured longHedge.measured).run .empty =
        (.ok groups, q) ∧
      groups.map (fun g => (g.src, g.dst)) = [([2, 4], [2, 4, 6])] ∧
      (∀ g ∈ groups, g.Ambiguous hedge.measured longHedge.measured) ∧
      (∀ gs r, gs.Perm groups → ServedAll {} hedge.measured longHedge.measured gs q r →
        ∀ g ∈ groups, g.UsedUp r) ∧
      ∃ r, (run {} hedge.measured longHedge.measured).run .empty = (.ok (), r) ∧
        ∀ g ∈ groups, g.UsedUp r := by
  have hhedge : hedge.Sound := (((sound_twig 5 0).addChild 2 _).addChild 1 _).addChild 4 _
  have hlong : longHedge.Sound :=
    (((((sound_twig 6 0).addChild 2 _).addChild 1 _).addChild 4 _).addChild 1 _).addChild 6 _
  have hfaithful : FaithfulDigests hedge.measured longHedge.measured :=
    .of_preorder hhedge.measured hlong.measured (by decide +kernel)
  obtain ⟨groups, q, hdeferred, hambiguous, hany, out, r, hrun, hout⟩ :=
    run_uses_up_groups {} hhedge.surveyed hlong.surveyed hfaithful .empty rfl
  have hmembers : (match ((deferredGroups {} hedge.measured longHedge.measured).run .empty).1 with
      | .ok groups => groups.map fun g => (g.src, g.dst)
      | .error _ => []) = [([2, 4], [2, 4, 6])] := by decide +kernel
  rw [hdeferred] at hmembers
  refine ⟨groups, q, hdeferred, hmembers, hambiguous, hany, r, ?_⟩
  rcases hout with ⟨rfl, hused⟩ | ⟨_, hlarge⟩
  · exact ⟨hrun, hused⟩
  · refine absurd ⟨hhedge.measured.small ?_ ?_, hlong.measured.small ?_ ?_⟩ hlarge <;> decide

end Identical

end TreeDelta
