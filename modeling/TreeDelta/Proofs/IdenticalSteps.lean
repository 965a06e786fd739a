import TreeDelta.Proofs.QueueOrder
import TreeDelta.Proofs.RenamedIdentical
import TreeDelta.Proofs.SubtreeCopies

namespace TreeDelta

variable {c : Config} {src dst : Tree} {p q : Pairing} {a b : NodeId} {d d' : Descent}
  {excuse : Fault → Prop}

namespace Group

variable {g : Group} {gs : List Group} {xs ys ids : List NodeId}

/-- What the group says of itself: all its subtrees have its digest. -/
structure Keyed [TokenHash] (src dst : Tree) (g : Group) : Prop where
  left : ∀ x ∈ g.src, (src.forest.contentTree x).hash = g.key
  right : ∀ y ∈ g.dst, (dst.forest.contentTree y).hash = g.key

/-- The groups sort the nodes `xs` of one tree and `ys` of the other by digest. -/
structure Sorts [TokenHash] (src dst : Tree) (gs : List Group) (xs ys : List NodeId) : Prop where
  left : (gs.flatMap (·.src)).Perm xs
  right : (gs.flatMap (·.dst)).Perm ys
  keyed : ∀ g ∈ gs, g.Keyed src dst
  distinct : gs.Pairwise fun g h => g.key ≠ h.key

theorem gather_cases (key : UInt64) (add : Group → Group) (gs : List Group) :
    (∃ pre g post, gs = pre ++ g :: post ∧ g.key = key ∧
      gather key add gs = pre ++ add g :: post) ∨
    (∀ g ∈ gs, g.key ≠ key) ∧ gather key add gs = gs ++ [add { key }] := by
  induction gs with
  | nil => exact .inr ⟨by simp, rfl⟩
  | cons g gs ih =>
      rw [gather]
      split
      · next hsame => exact .inl ⟨[], g, gs, rfl, hsame, rfl⟩
      · next hdiffer =>
        rcases ih with ⟨pre, h, post, rfl, hkey, heq⟩ | ⟨hnone, heq⟩
        · exact .inl ⟨g :: pre, h, post, rfl, hkey, by rw [heq]; rfl⟩
        · exact .inr ⟨List.forall_mem_cons.2 ⟨hdiffer, hnone⟩, by rw [heq]; rfl⟩

variable {key : UInt64} {add : Group → Group}

theorem pairwise_gather (hadd : ∀ g, (add g).key = g.key)
    (h : gs.Pairwise fun g h => g.key ≠ h.key) :
    (gather key add gs).Pairwise fun g h => g.key ≠ h.key := by
  rcases gather_cases key add gs with ⟨pre, g, post, rfl, _, heq⟩ | ⟨hnone, heq⟩
  · rw [heq]
    simpa [List.pairwise_append, hadd] using h
  · rw [heq, List.pairwise_append]
    refine ⟨h, List.pairwise_singleton _ _, fun g hg g' hg' => ?_⟩
    rw [List.mem_singleton.1 hg', hadd]
    exact hnone g hg

theorem forall_mem_gather {P : Group → Prop} (hadd : ∀ g, g.key = key → P g → P (add g))
    (hnew : P { key }) (h : ∀ g ∈ gs, P g) : ∀ g ∈ gather key add gs, P g := by
  rcases gather_cases key add gs with ⟨pre, g, post, rfl, hkey, heq⟩ | ⟨_, heq⟩
  · rw [List.forall_mem_append, List.forall_mem_cons] at h
    rw [heq, List.forall_mem_append, List.forall_mem_cons]
    exact ⟨h.1, hadd g hkey h.2.1, h.2.2⟩
  · rw [heq, List.forall_mem_append]
    exact ⟨h, List.forall_mem_singleton.2 (hadd _ rfl hnew)⟩

theorem flatMap_gather_perm {side : Group → List NodeId} {new : List NodeId}
    (hadd : ∀ g, side (add g) = side g ++ new) (hnew : side { key } = []) (gs : List Group) :
    ((gather key add gs).flatMap side).Perm (gs.flatMap side ++ new) := by
  rcases gather_cases key add gs with ⟨pre, g, post, rfl, _, heq⟩ | ⟨_, heq⟩
  · rw [heq]
    simp only [List.flatMap_append, List.flatMap_cons, hadd, List.append_assoc]
    exact (List.perm_append_comm.append_left _).append_left _
  · rw [heq, List.flatMap_append, List.flatMap_singleton, hadd, hnew, List.nil_append]

theorem flatMap_gather_of_eq {side : Group → List NodeId} (hadd : ∀ g, side (add g) = side g)
    (hnew : side { key } = []) (gs : List Group) :
    (gather key add gs).flatMap side = gs.flatMap side := by
  rcases gather_cases key add gs with ⟨pre, g, post, rfl, _, heq⟩ | ⟨_, heq⟩
  · rw [heq]
    simp only [List.flatMap_append, List.flatMap_cons, hadd]
  · rw [heq, List.flatMap_append, List.flatMap_singleton, hadd, hnew, List.append_nil]

structure Eligible (c : Config) (src dst : Tree) (g : Group) : Prop where
  left : ∀ a ∈ g.src, c.Eligible src a
  right : ∀ b ∈ g.dst, c.Eligible dst b

variable [TokenHash]

theorem Sorts.gather_src (h : Sorts src dst gs xs ys) (a : NodeId) :
    Sorts src dst (gather (src.forest.measureOf src.root a).hash
      (fun g => { g with src := g.src ++ [a] }) gs) (xs ++ [a]) ys where
  left := (flatMap_gather_perm (fun _ => rfl) rfl gs).trans (h.left.append_right _)
  right := by
    refine (List.Perm.of_eq (flatMap_gather_of_eq ?_ rfl gs)).trans h.right
    exact fun _ => rfl
  keyed := by
    refine forall_mem_gather (fun g hg hkeyed => ⟨?_, hkeyed.right⟩) ⟨by simp, by simp⟩ h.keyed
    exact List.forall_mem_append.2 ⟨hkeyed.left, List.forall_mem_singleton.2 hg.symm⟩
  distinct := pairwise_gather (fun _ => rfl) h.distinct

theorem Sorts.gather_dst (h : Sorts src dst gs xs ys) (b : NodeId) :
    Sorts src dst (gather (dst.forest.measureOf dst.root b).hash
      (fun g => { g with dst := g.dst ++ [b] }) gs) xs (ys ++ [b]) where
  left := by
    refine (List.Perm.of_eq (flatMap_gather_of_eq ?_ rfl gs)).trans h.left
    exact fun _ => rfl
  right := (flatMap_gather_perm (fun _ => rfl) rfl gs).trans (h.right.append_right _)
  keyed := by
    refine forall_mem_gather (fun g hg hkeyed => ⟨hkeyed.left, ?_⟩) ⟨by simp, by simp⟩ h.keyed
    exact List.forall_mem_append.2 ⟨hkeyed.right, List.forall_mem_singleton.2 hg.symm⟩
  distinct := pairwise_gather (fun _ => rfl) h.distinct

theorem sorts_gatherSrc (hs : src.Surveyed) (h : Sorts src dst gs xs ys)
    (hids : ∀ x ∈ ids, src.Reaches x) :
    Gives (gatherSrc src gs ids) fun gs' => Sorts src dst gs' (xs ++ ids) ys := by
  induction ids generalizing gs xs with
  | nil => exact .ok (by rwa [List.append_nil])
  | cons x ids ih =>
      rw [List.forall_mem_cons] at hids
      refine (Gives.of_eq (hs.measure_eq_ok hids.1)).bind fun m hm => ?_
      rw [hm, List.append_cons]
      exact ih (h.gather_src x) hids.2

theorem sorts_gatherDst (hd : dst.Surveyed) (h : Sorts src dst gs xs ys)
    (hids : ∀ y ∈ ids, dst.Reaches y) :
    Gives (gatherDst dst gs ids) fun gs' => Sorts src dst gs' xs (ys ++ ids) := by
  induction ids generalizing gs ys with
  | nil => exact .ok (by rwa [List.append_nil])
  | cons y ids ih =>
      rw [List.forall_mem_cons] at hids
      refine (Gives.of_eq (hd.measure_eq_ok hids.1)).bind fun m hm => ?_
      rw [hm, List.append_cons]
      exact ih (h.gather_dst y) hids.2

end Group

/-- Two free subtrees of one content are paired place by place. -/
structure Commit (c : Config) (src dst : Tree) (a b : NodeId) (p q : Pairing) : Prop where
  left : c.Eligible src a
  right : c.Eligible dst b
  content : src.forest.contentTree a = dst.forest.contentTree b
  free : SubtreesFree src dst p a b
  added : p.addAll (alignedPairs src dst a b) = .ok q

/-- A group that is opened: it is on one side only, or its only two subtrees cannot be paired. -/
def Group.Opens (src dst : Tree) (p : Pairing) (g : Group) : Prop :=
  g.src = [] ∨ g.dst = [] ∨ ∃ a b, g.src = [a] ∧ g.dst = [b] ∧
    ¬ (src.forest.contentTree a = dst.forest.contentTree b ∧ SubtreesFree src dst p a b)

/-- One group is settled. -/
inductive Settles (c : Config) (src dst : Tree) (g : Group) (d : Descent) (p : Pairing) :
    Descent → Pairing → Prop
  | pair {a b : NodeId} {q : Pairing} (left : g.src = [a]) (right : g.dst = [b])
      (commit : Commit c src dst a b p q) : Settles c src dst g d p d q
  | opened {x y : Queue} (opens : g.Opens src dst p) (left : d.src.Opened c src g.src x)
      (right : d.dst.Opened c dst g.dst y) : Settles c src dst g d p { d with src := x, dst := y } p
  | putOff (left : g.src ≠ []) (right : g.dst ≠ [])
      (many : 2 ≤ g.src.length ∨ 2 ≤ g.dst.length) :
      Settles c src dst g d p { d with deferred := d.deferred ++ [g] } p

inductive SettlesAll (c : Config) (src dst : Tree) :
    List Group → Descent → Pairing → Descent → Pairing → Prop
  | nil (d : Descent) (p : Pairing) : SettlesAll c src dst [] d p d p
  | cons {g : Group} {gs : List Group} {d d' d'' : Descent} {p p' p'' : Pairing}
      (head : Settles c src dst g d p d' p') (tail : SettlesAll c src dst gs d' p' d'' p'') :
      SettlesAll c src dst (g :: gs) d p d'' p''

/-- One round of the descent. -/
inductive Round [TokenHash] (c : Config) (src dst : Tree) :
    Descent × Pairing → Descent × Pairing → Prop
  | level {n : Nat} {gs : List Group} {d d' : Descent} {p q : Pairing}
      (left : d.src.level? = some n) (right : d.dst.level? = some n)
      (sorts : Group.Sorts src dst gs d.src.front d.dst.front)
      (settles : SettlesAll c src dst gs { d with src := d.src.rest, dst := d.dst.rest } p d' q) :
      Round c src dst (d, p) (d', q)
  | openSrc {m n : Nat} {d : Descent} {p : Pairing} {x : Queue}
      (left : d.src.level? = some m) (right : d.dst.level? = some n) (lt : n < m)
      (opened : d.src.rest.Opened c src d.src.front x) :
      Round c src dst (d, p) ({ d with src := x }, p)
  | openDst {m n : Nat} {d : Descent} {p : Pairing} {y : Queue}
      (left : d.src.level? = some m) (right : d.dst.level? = some n) (lt : m < n)
      (opened : d.dst.rest.Opened c dst d.dst.front y) :
      Round c src dst (d, p) ({ d with dst := y }, p)

/-- Both queues are in order, and only nodes that may wait are put off. -/
structure Descent.Orderly (c : Config) (src dst : Tree) (d : Descent) : Prop where
  left : d.src.Orderly c src
  right : d.dst.Orderly c dst
  deferred : ∀ g ∈ d.deferred, g.Eligible c src dst

theorem Settles.orderly {g : Group} (h : Settles c src dst g d p d' q)
    (hg : g.Eligible c src dst) (hd : d.Orderly c src dst) : d'.Orderly c src dst := by
  cases h with
  | pair => exact hd
  | opened _ left right => exact ⟨left.orderly, right.orderly, hd.deferred⟩
  | putOff =>
      refine ⟨hd.left, hd.right, List.forall_mem_append.2 ⟨hd.deferred, ?_⟩⟩
      exact List.forall_mem_singleton.2 hg

theorem Settles.sound {g : Group} (h : Settles c src dst g d p d' q) (hp : p.Sound) :
    q.Sound := by
  cases h with
  | pair _ _ commit => exact hp.of_addAll commit.added
  | opened => exact hp
  | putOff => exact hp

theorem Group.Sorts.eligible [TokenHash] {gs : List Group}
    (h : Sorts src dst gs d.src.front d.dst.front)
    (hd : d.Orderly c src dst) : ∀ g ∈ gs, g.Eligible c src dst := by
  refine fun g hg => ⟨fun a ha => hd.left.eligible_of_mem_front ?_,
    fun b hb => hd.right.eligible_of_mem_front ?_⟩
  · exact h.left.mem_iff.1 (List.mem_flatMap.2 ⟨g, hg, ha⟩)
  · exact h.right.mem_iff.1 (List.mem_flatMap.2 ⟨g, hg, hb⟩)

theorem Descent.Orderly.exists_groups [TokenHash] (hd : d.Orderly c src dst) (hsrc : src.Surveyed)
    (hdst : dst.Surveyed) :
    ∃ gs gs', Group.gatherSrc src [] d.src.front = .ok gs ∧
      Group.gatherDst dst gs d.dst.front = .ok gs' ∧
      Group.Sorts src dst gs' d.src.front d.dst.front := by
  have hnone : Group.Sorts src dst [] [] [] := ⟨.refl _, .refl _, by simp, .nil⟩
  obtain ⟨gs, hgs, hsorts⟩ := Group.sorts_gatherSrc hsrc hnone
    fun a ha => (hd.left.eligible_of_mem_front ha).reaches
  obtain ⟨gs', hgs', hsorts'⟩ := Group.sorts_gatherDst hdst hsorts
    fun b hb => (hd.right.eligible_of_mem_front hb).reaches
  exact ⟨gs, gs', hgs, hgs', hsorts'⟩

theorem SettlesAll.orderly {gs : List Group} (h : SettlesAll c src dst gs d p d' q)
    (hgs : ∀ g ∈ gs, g.Eligible c src dst) (hd : d.Orderly c src dst) :
    d'.Orderly c src dst := by
  induction h with
  | nil => exact hd
  | cons head _ ih =>
      rw [List.forall_mem_cons] at hgs
      exact ih hgs.2 (head.orderly hgs.1 hd)

theorem SettlesAll.sound {gs : List Group} (h : SettlesAll c src dst gs d p d' q)
    (hp : p.Sound) : q.Sound := by
  induction h with
  | nil => exact hp
  | cons head _ ih => exact ih (head.sound hp)

theorem Descent.Orderly.rest (h : d.Orderly c src dst) :
    Descent.Orderly c src dst { d with src := d.src.rest, dst := d.dst.rest } :=
  ⟨h.left.rest, h.right.rest, h.deferred⟩

theorem Round.orderly [TokenHash] {s s' : Descent × Pairing} (h : Round c src dst s s')
    (hd : s.1.Orderly c src dst) : s'.1.Orderly c src dst := by
  cases h with
  | level _ _ sorts settles => exact settles.orderly (sorts.eligible hd) hd.rest
  | openSrc _ _ _ opened => exact ⟨opened.orderly, hd.right, hd.deferred⟩
  | openDst _ _ _ opened => exact ⟨hd.left, opened.orderly, hd.deferred⟩

theorem Round.sound [TokenHash] {s s' : Descent × Pairing} (h : Round c src dst s s')
    (hp : s.2.Sound) :
    s'.2.Sound := by
  cases h with
  | level _ _ _ settles => exact settles.sound hp
  | openSrc => exact hp
  | openDst => exact hp

theorem Descent.nodes_eq_nil
    (h : ∀ m n, d.src.level? = some m → d.dst.level? = some n → False) :
    d.src.nodes = [] ∨ d.dst.nodes = [] := by
  cases hm : d.src.level? with
  | none => exact .inl (Queue.nodes_eq_nil hm)
  | some m =>
      cases hn : d.dst.level? with
      | none => exact .inr (Queue.nodes_eq_nil hn)
      | some n => exact (h m n hm hn).elim

namespace Identical

variable [TokenHash] (hs : src.Surveyed) (hd : dst.Surveyed)
include hs hd

theorem yields_pairIfFree (ha : c.Eligible src a) (hb : c.Eligible dst b)
    (h : src.forest.contentTree a = dst.forest.contentTree b) (hp : p.Sound) :
    Yields excuse (pairIfFree src dst a b) p fun paired q =>
      if paired then Commit c src dst a b p q else q = p ∧ ¬ SubtreesFree src dst p a b := by
  refine .bind (.get (.bind (.lift (.subtreesFree hs hd ha.reaches hb.reaches) ?_)))
  intro free hfree
  split
  · next hyes =>
    have hadd : Yields excuse (Pairer.addSubtrees src dst a b) p _ :=
      .addSubtrees hs hd ha.reaches hb.reaches (sameShape_of_eq h) (hfree.1 hyes) hp
    exact .bind (hadd.mono fun _ q hq => .pure ⟨ha, hb, h, hfree.1 hyes, hq⟩)
  · next hno => exact .pure ⟨rfl, fun hyes => hno (hfree.2 hyes)⟩

theorem yields_pairUnique_cases (ha : c.Eligible src a) (hb : c.Eligible dst b) (hp : p.Sound) :
    Yields excuse (pairUnique src dst a b) p fun paired q =>
      if paired then Commit c src dst a b p q else q = p ∧
        ¬ (src.forest.contentTree a = dst.forest.contentTree b ∧ SubtreesFree src dst p a b) := by
  refine .bind (.lift (.isomorphic hs hd ha.reaches hb.reaches) fun same hsame => ?_)
  split
  · next hyes =>
    refine (yields_pairIfFree hs hd ha hb (hsame.1 hyes) hp).mono fun paired q hq => ?_
    cases paired with
    | true => exact hq
    | false => exact ⟨hq.1, fun hall => hq.2 hall.2⟩
  · next hno => exact .pure ⟨rfl, fun hall => hno (hsame.2 hall.1)⟩

theorem yields_settle (hdesc : d.Orderly c src dst) {g : Group} (hg : g.Eligible c src dst)
    (hp : p.Sound) :
    Yields excuse (settle c src dst d g) p (Settles c src dst g d p) := by
  have hsrc : Gives (c.openNodes src d.src g.src) (d.src.Opened c src g.src) :=
    .opened_openNodes hs hdesc.left fun a ha => (hg.left a ha).reaches
  have hdst : Gives (c.openNodes dst d.dst g.dst) (d.dst.Opened c dst g.dst) :=
    .opened_openNodes hd hdesc.right fun b hb => (hg.right b hb).reaches
  unfold settle
  split
  · next a b hga hgb =>
    have ha := hg.left a (by simp [hga])
    have hb := hg.right b (by simp [hgb])
    refine .bind ((yields_pairUnique_cases hs hd ha hb hp).mono fun paired q hq => ?_)
    cases paired with
    | true => exact .pure (.pair hga hgb hq)
    | false =>
        obtain ⟨rfl, hno⟩ := hq
        refine .bind (.lift (.opened_openNode hs hdesc.left ha.reaches) fun x hx => ?_)
        refine .bind (.lift (.opened_openNode hd hdesc.right hb.reaches) fun y hy => ?_)
        exact .pure (.opened (.inr (.inr ⟨a, b, hga, hgb, hno⟩)) (hga ▸ hx) (hgb ▸ hy))
  · next hgb =>
    refine .bind (.lift hsrc fun x hx => .pure (.opened (.inr (.inl hgb)) hx ?_))
    rw [hgb]
    exact ⟨hdesc.right, .refl _⟩
  · next hga _ =>
    refine .bind (.lift hdst fun y hy => .pure (.opened (.inl hga) ?_ hy))
    rw [hga]
    exact ⟨hdesc.left, .refl _⟩
  · next hleft hright hone =>
    refine .pure (.putOff hleft hright ?_)
    by_contra hfew
    obtain ⟨a, ha⟩ : ∃ a, g.src = [a] := by
      have hpos := List.length_pos_of_ne_nil hleft
      exact List.length_eq_one_iff.1 (by omega)
    obtain ⟨b, hb⟩ : ∃ b, g.dst = [b] := by
      have hpos := List.length_pos_of_ne_nil hright
      exact List.length_eq_one_iff.1 (by omega)
    exact hone a b ha hb

theorem yields_settleAll (hdesc : d.Orderly c src dst) {gs : List Group}
    (hgs : ∀ g ∈ gs, g.Eligible c src dst) (hp : p.Sound) :
    Yields excuse (settleAll c src dst d gs) p (SettlesAll c src dst gs d p) := by
  induction gs generalizing d p with
  | nil => exact .pure (.nil d p)
  | cons g gs ih =>
      rw [List.forall_mem_cons] at hgs
      refine .bind ((yields_settle hs hd hdesc hgs.1 hp).mono fun next q hnext => ?_)
      exact (ih (hnext.orderly hgs.1 hdesc) hgs.2 (hnext.sound hp)).mono fun _ _ => .cons hnext

theorem yields_settleLevel_round {n : Nat} (hdesc : d.Orderly c src dst) (hp : p.Sound)
    (hleft : d.src.level? = some n) (hright : d.dst.level? = some n) :
    Yields excuse (settleLevel c src dst d) p fun next q => Round c src dst (d, p) (next, q) := by
  obtain ⟨gs, gs', hgs, hgs', hsorts⟩ := hdesc.exists_groups hs hd
  refine .bind (.lift (.of_eq hgs) ?_)
  rintro _ rfl
  refine .bind (.lift (.of_eq hgs') ?_)
  rintro _ rfl
  refine (yields_settleAll hs hd hdesc.rest (hsorts.eligible hdesc) hp).mono fun next q hnext => ?_
  exact .level hleft hright hsorts hnext

theorem yields_step (hdesc : d.Orderly c src dst) (hp : p.Sound) :
    Yields excuse (step c src dst d) p fun out q =>
      (∃ next, out = .inl next ∧ Round c src dst (d, p) (next, q)) ∨
      out = .inr d.deferred ∧ q = p ∧ (d.src.nodes = [] ∨ d.dst.nodes = []) := by
  unfold step
  split
  · next m n hm hn =>
    split
    · next heq =>
      refine .bind ((yields_settleLevel_round hs hd hdesc hp hm (heq ▸ hn)).mono ?_)
      exact fun next q hnext => .pure (.inl ⟨next, rfl, hnext⟩)
    · split
      · next hlt =>
        refine .bind (.lift (.opened_openFront hs hdesc.left) fun x hx => ?_)
        exact .pure (.inl ⟨_, rfl, .openSrc hm hn hlt hx⟩)
      · next hne hle =>
        refine .bind (.lift (.opened_openFront hd hdesc.right) fun y hy => ?_)
        exact .pure (.inl ⟨_, rfl, .openDst hm hn (by omega) hy⟩)
  · next hnone => exact .pure (.inr ⟨rfl, rfl, Descent.nodes_eq_nil hnone⟩)

omit [TokenHash] hs hd in
theorem yields_descend_induct (hs : src.forest.Sound) (hd : dst.forest.Sound)
    {I : Descent → Pairing → Prop}
    (hstep : ∀ d p, I d p → Yields excuse (step c src dst d) p fun out q =>
      (∃ next, out = .inl next ∧ I next q) ∨
        out = .inr d.deferred ∧ q = p ∧ (d.src.nodes = [] ∨ d.dst.nodes = []))
    (h : I d p) {fuel : Nat} (hfuel : d.weight src dst ≤ fuel) :
    Yields excuse (descend c src dst fuel d) p fun groups q => ∃ d', I d' q ∧
      (d'.src.nodes = [] ∨ d'.dst.nodes = []) ∧ groups = d'.deferred := by
  induction fuel generalizing d p with
  | zero =>
      have hweight : d.src.weight src = 0 := (Nat.eq_zero_of_add_eq_zero (Nat.le_zero.1 hfuel)).1
      exact .pure ⟨d, h, .inl (Queue.nodes_eq_nil (Queue.level?_eq_none hweight)), rfl⟩
  | succ fuel ih =>
      refine .bind (((hstep d p h).and_if (ifYields_step hs hd)).mono ?_)
      rintro out q ⟨⟨next, rfl, hnext⟩ | ⟨rfl, rfl, hempty⟩, hless⟩
      · exact ih hnext (Nat.le_of_lt_succ ((hless next rfl).trans_le hfuel))
      · exact .pure ⟨d, h, hempty, rfl⟩

/-- With enough fuel, rounds follow one another until a queue is empty. -/
theorem yields_descend (hdesc : d.Orderly c src dst) (hp : p.Sound) {fuel : Nat}
    (hfuel : d.weight src dst ≤ fuel) :
    Yields excuse (descend c src dst fuel d) p fun groups q => ∃ d',
      Relation.ReflTransGen (Round c src dst) (d, p) (d', q) ∧
        (d'.src.nodes = [] ∨ d'.dst.nodes = []) ∧ groups = d'.deferred := by
  refine (yields_descend_induct hs.sound.forest hd.sound.forest
    (I := fun d' q => d'.Orderly c src dst ∧ q.Sound ∧
      Relation.ReflTransGen (Round c src dst) (d, p) (d', q))
    (fun d' q ⟨hdesc', hq, hrounds⟩ => ?_) ⟨hdesc, hp, .refl⟩ hfuel).mono ?_
  · refine (yields_step hs hd hdesc' hq).mono fun out r hout => hout.imp_left ?_
    rintro ⟨next, rfl, hround⟩
    exact ⟨next, rfl, hround.orderly hdesc', hround.sound hq, hrounds.tail hround⟩
  · exact fun groups q ⟨d', h, hend⟩ => ⟨d', h.2.2, hend⟩

end Identical

end TreeDelta
