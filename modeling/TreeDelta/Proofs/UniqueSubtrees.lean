import TreeDelta.Proofs.IdenticalBlocks

namespace TreeDelta

variable {c : Config} {src dst t u : Tree} {p q : Pairing} {a b x y : NodeId}
  {ids xs ys xs' ys' : List NodeId}

def Tree.Ahead (t : Tree) (ids : List NodeId) (a : NodeId) : Prop := ∃ x ∈ ids, t.forest.Under x a

/-- These subtrees have no node in common, and all their nodes are free. -/
structure Tree.Clear (t : Tree) (free : NodeId → Prop) (ids : List NodeId) : Prop where
  apart : ids.Pairwise fun x y => ∀ z, t.forest.Under x z → ¬ t.forest.Under y z
  free : ∀ x ∈ ids, ∀ z, t.forest.Under x z → free z

namespace Tree

theorem Ahead.perm (h : t.Ahead xs a) (hperm : xs'.Perm xs) : t.Ahead xs' a := by
  obtain ⟨x, hx, hxa⟩ := h
  exact ⟨x, hperm.mem_iff.2 hx, hxa⟩

theorem Ahead.of_append (h : t.Ahead (ids ++ xs) a) (hno : ∀ x ∈ ids, ¬ t.forest.Under x a) :
    t.Ahead xs a := by
  obtain ⟨x, hx, hxa⟩ := h
  exact ⟨x, (List.mem_append.1 hx).resolve_left fun hid => hno x hid hxa, hxa⟩

theorem Ahead.opened (ht : t.forest.Sound) (ha : c.Eligible t a) (h : t.Ahead (ids ++ xs) a)
    (hne : a ∉ ids) : t.Ahead (ids.flatMap (c.heirs t) ++ xs) a := by
  obtain ⟨x, hx, hxa⟩ := h
  rcases List.mem_append.1 hx with hid | hrest
  · rcases hxa.cases_head with rfl | ⟨y, hxy, hya⟩
    · exact absurd hid hne
    · have hleast := ha.least.trans (Config.priorityAt_le_of_under ht hya)
      have hheir : y ∈ c.heirs t x := (Config.mem_heirs_iff ht).2 ⟨hxy, hleast⟩
      exact ⟨y, List.mem_append_left _ (List.mem_flatMap.2 ⟨x, hid, hheir⟩), hya⟩
  · exact ⟨x, List.mem_append_right _ hrest, hxa⟩

namespace Clear

variable {free free' : NodeId → Prop}

theorem perm (h : t.Clear free xs) (hperm : xs'.Perm xs) : t.Clear free xs' := by
  refine ⟨(hperm.pairwise_iff fun hxy z hy hx => hxy z hx hy).2 h.apart, fun x hx => ?_⟩
  exact h.free x (hperm.mem_iff.1 hx)

theorem of_append (h : t.Clear free (ids ++ xs)) : t.Clear free xs :=
  ⟨(List.pairwise_append.1 h.apart).2.1, fun x hx => h.free x (List.mem_append_right _ hx)⟩

theorem left_of_append (h : t.Clear free (ids ++ xs)) : t.Clear free ids :=
  ⟨(List.pairwise_append.1 h.apart).1, fun x hx => h.free x (List.mem_append_left _ hx)⟩

theorem mono (h : t.Clear free xs) (hfree : ∀ x ∈ xs, ∀ z, t.forest.Under x z → free z → free' z) :
    t.Clear free' xs :=
  ⟨h.apart, fun x hx z hz => hfree x hx z hz (h.free x hx z hz)⟩

theorem length_le_one (h : t.Clear free xs) (hall : ∀ x ∈ xs, t.forest.Under x a) :
    xs.length ≤ 1 := by
  match xs with
  | [] => exact Nat.zero_le 1
  | [_] => exact Nat.le_refl 1
  | x :: y :: _ =>
      have hxy := (List.pairwise_cons.1 h.apart).1 y List.mem_cons_self
      exact absurd (hall y (by simp)) (hxy a (hall x (by simp)))

theorem opened (ht : t.forest.Sound) (h : t.Clear free (ids ++ xs)) :
    t.Clear free (ids.flatMap (c.heirs t) ++ xs) := by
  have hbelow : ∀ {x y z}, y ∈ c.heirs t x → t.forest.Under y z → t.forest.Under x z :=
    fun hy hyz => .head ((Config.mem_heirs_iff ht).1 hy).1 hyz
  obtain ⟨hids, hxs, hcross⟩ := List.pairwise_append.1 h.apart
  refine ⟨List.pairwise_append.2 ⟨List.pairwise_flatMap.2 ⟨fun a _ => ?_, ?_⟩, hxs, ?_⟩, ?_⟩
  · -- siblings are apart
    refine ((ht.nodup_children a).filter _).imp_of_mem fun {x y} hx hy hne z hxz hyz => hne ?_
    exact ht.eq_of_siblings ((Config.mem_heirs_iff ht).1 hx).1 ((Config.mem_heirs_iff ht).1 hy).1
      hxz hyz
  · refine hids.imp fun {a b} hab x hx y hy z hxz hyz => ?_
    exact hab z (hbelow hx hxz) (hbelow hy hyz)
  · intro x hx y hy z hxz hyz
    obtain ⟨a, ha, hx⟩ := List.mem_flatMap.1 hx
    exact hcross a ha y hy z (hbelow hx hxz) hyz
  · intro x hx z hxz
    rcases List.mem_append.1 hx with hx | hx
    · obtain ⟨a, ha, hx⟩ := List.mem_flatMap.1 hx
      exact h.free a (List.mem_append_left _ ha) z (hbelow hx hxz)
    · exact h.free x (List.mem_append_right _ hx) z hxz

end Clear

def Only (t : Tree) (a : NodeId) : Prop :=
  ∀ x, t.Reaches x → t.forest.contentTree x = t.forest.contentTree a → x = a

theorem Only.under (hb : u.Only b) (ht : t.forest.Sound) (hu : u.forest.Sound)
    (hab : t.forest.contentTree a = u.forest.contentTree b) (hy : u.Reaches y)
    (hxy : t.forest.contentTree x = u.forest.contentTree y) (ha : t.forest.Under x a) :
    (a, b) ∈ alignedPairs t u x y ∧ u.forest.Under y b := by
  obtain ⟨z, hz, hyz, hcontent⟩ := exists_copy ht hu hxy ha
  obtain rfl := hb z (hy.trans hyz) (hcontent.symm.trans hab)
  exact ⟨hz, hyz⟩

end Tree

/-- The only two subtrees of their content. -/
structure SolePair (c : Config) (src dst : Tree) (a b : NodeId) : Prop where
  left : c.Eligible src a
  right : c.Eligible dst b
  content : src.forest.contentTree a = dst.forest.contentTree b
  onlyLeft : src.Only a
  onlyRight : dst.Only b

theorem Commit.image?_eq_some_iff (h : Commit c src dst a b p q) (hp : p.Sound) :
    q.image? x = some y ↔ p.image? x = some y ∨ (x, y) ∈ alignedPairs src dst a b := by
  rw [← (hp.of_addAll h.added).mem_pairs, Pairing.pairs_of_addAll h.added, List.mem_append,
    hp.mem_pairs]

theorem Commit.image?_eq_none (h : Commit c src dst a b p q) (hs : src.forest.Sound)
    (hd : dst.forest.Sound) (hp : p.Sound) (hx : p.image? x = none)
    (hout : ¬ src.forest.Under a x) : q.image? x = none := by
  refine Option.eq_none_iff_forall_ne_some.2 fun y hxy => ?_
  rw [h.image?_eq_some_iff hp, hx] at hxy
  exact hout (under_of_mem_alignedPairs hs hd (hxy.resolve_left nofun)).1

theorem Commit.origin?_eq_none (h : Commit c src dst a b p q) (hs : src.forest.Sound)
    (hd : dst.forest.Sound) (hp : p.Sound) (hy : p.origin? y = none)
    (hout : ¬ dst.forest.Under b y) : q.origin? y = none := by
  refine Option.eq_none_iff_forall_ne_some.2 fun x hxy => ?_
  rw [← (hp.of_addAll h.added).image_iff_origin, h.image?_eq_some_iff hp, hp.image_iff_origin,
    hy] at hxy
  exact hout (under_of_mem_alignedPairs hs hd (hxy.resolve_left nofun)).2

theorem Commit.clear (h : Commit c src dst a b p q) (hs : src.forest.Sound) (hd : dst.forest.Sound)
    (hp : p.Sound) (hleft : src.Clear (fun x => p.image? x = none) ([a] ++ xs))
    (hright : dst.Clear (fun y => p.origin? y = none) ([b] ++ ys)) :
    src.Clear (fun x => q.image? x = none) xs ∧ dst.Clear (fun y => q.origin? y = none) ys := by
  obtain ⟨hapart, _⟩ := List.pairwise_cons.1 hleft.apart
  obtain ⟨hapart', _⟩ := List.pairwise_cons.1 hright.apart
  refine ⟨hleft.of_append.mono fun w hw z hwz hz => ?_,
    hright.of_append.mono fun w hw z hwz hz => ?_⟩
  · exact h.image?_eq_none hs hd hp hz fun hxz => hapart w hw z hxz hwz
  · exact h.origin?_eq_none hs hd hp hz fun hyz => hapart' w hw z hyz hwz

/-- Free subtrees wait on both sides, and two nodes are partners or both still ahead. -/
structure Pending (src dst : Tree) (a b : NodeId) (xs ys : List NodeId) (p : Pairing) : Prop where
  left : src.Clear (fun x => p.image? x = none) xs
  right : dst.Clear (fun y => p.origin? y = none) ys
  ahead : p.image? a = some b ∨ src.Ahead xs a ∧ dst.Ahead ys b

namespace Pending

theorem perm (h : Pending src dst a b xs ys p) (hxs : xs'.Perm xs) (hys : ys'.Perm ys) :
    Pending src dst a b xs' ys' p :=
  ⟨h.left.perm hxs, h.right.perm hys, h.ahead.imp_right (.imp (·.perm hxs) (·.perm hys))⟩

theorem image?_eq_some (h : Pending src dst a b xs ys p) (hempty : xs = [] ∨ ys = []) :
    p.image? a = some b := by
  refine h.ahead.resolve_right ?_
  rintro ⟨⟨x, hx, _⟩, y, hy, _⟩
  rcases hempty with rfl | rfl
  · cases hx
  · cases hy

variable (hs : src.forest.Sound) (hd : dst.forest.Sound) (hsole : SolePair c src dst a b)
include hs hd hsole

theorem opened {as bs : List NodeId} (h : Pending src dst a b (as ++ xs) (bs ++ ys) p)
    (hne : src.Ahead (as ++ xs) a → dst.Ahead (bs ++ ys) b → a ∉ as ∧ b ∉ bs) :
    Pending src dst a b (as.flatMap (c.heirs src) ++ xs) (bs.flatMap (c.heirs dst) ++ ys) p := by
  refine ⟨h.left.opened hs, h.right.opened hd, h.ahead.imp_right fun ⟨hleft, hright⟩ => ?_⟩
  obtain ⟨ha, hb⟩ := hne hleft hright
  exact ⟨hleft.opened hs hsole.left ha, hright.opened hd hsole.right hb⟩

theorem pair (h : Pending src dst a b ([x] ++ xs) ([y] ++ ys) p) (hxy : Commit c src dst x y p q)
    (hp : p.Sound) : Pending src dst a b xs ys q := by
  obtain ⟨hleft, hright⟩ := hxy.clear hs hd hp h.left h.right
  have hpaired : src.forest.Under x a → q.image? a = some b := by
    intro hxa
    have hmem := (hsole.onlyRight.under hs hd hsole.content hxy.right.reaches hxy.content hxa).1
    exact (hxy.image?_eq_some_iff hp).2 (.inr hmem)
  refine ⟨hleft, hright, ?_⟩
  by_cases hxa : src.forest.Under x a
  · exact .inl (hpaired hxa)
  · by_cases hyb : dst.forest.Under y b
    · refine .inl (hpaired ?_)
      exact (hsole.onlyLeft.under hd hs hsole.content.symm hxy.left.reaches hxy.content.symm
        hyb).2
    · refine h.ahead.imp (fun hab => ?_) fun ⟨ha, hb⟩ => ⟨?_, ?_⟩
      · exact (hxy.image?_eq_some_iff hp).2 (.inl hab)
      · exact ha.of_append (List.forall_mem_singleton.2 hxa)
      · exact hb.of_append (List.forall_mem_singleton.2 hyb)

theorem putOff {as bs : List NodeId} (content : Rose Content)
    (h : Pending src dst a b (as ++ xs) (bs ++ ys) p)
    (has : ∀ x ∈ as, src.Reaches x ∧ src.forest.contentTree x = content)
    (hbs : ∀ y ∈ bs, dst.Reaches y ∧ dst.forest.contentTree y = content)
    (hmany : 2 ≤ as.length ∨ 2 ≤ bs.length) : Pending src dst a b xs ys p := by
  have hfew : (∀ x ∈ as, src.forest.Under x a) → ¬ ∀ y ∈ bs, dst.forest.Under y b := by
    intro hall hall'
    have hone := h.left.left_of_append.length_le_one hall
    have hone' := h.right.left_of_append.length_le_one hall'
    omega
  -- if one of them holds its half of the pair, all of them do
  have hleft : ∀ x ∈ as, ¬ src.forest.Under x a := by
    refine fun x hx hxa => hfew (fun x' hx' => ?_) fun y hy => ?_
    · exact (hsole.onlyLeft.under hs hs rfl (has x' hx').1
        ((has x hx).2.trans (has x' hx').2.symm) hxa).2
    · exact (hsole.onlyRight.under hs hd hsole.content (hbs y hy).1
        ((has x hx).2.trans (hbs y hy).2.symm) hxa).2
  have hright : ∀ y ∈ bs, ¬ dst.forest.Under y b := by
    refine fun y hy hyb => hfew (fun x hx => ?_) fun y' hy' => ?_
    · exact (hsole.onlyLeft.under hd hs hsole.content.symm (has x hx).1
        ((hbs y hy).2.trans (has x hx).2.symm) hyb).2
    · exact (hsole.onlyRight.under hd hd rfl (hbs y' hy').1
        ((hbs y hy).2.trans (hbs y' hy').2.symm) hyb).2
  exact ⟨h.left.of_append, h.right.of_append,
    h.ahead.imp_right fun hahead => ⟨hahead.1.of_append hleft, hahead.2.of_append hright⟩⟩

end Pending

/-- One side of a level: the nodes in the groups have the priority of the level and the digest of
their group, and what waits behind them has a smaller priority. -/
structure OnLevel [TokenHash] (c : Config) (t : Tree) (n : Nat) (side : Group → List NodeId) (gs : List Group)
    (behind : List NodeId) : Prop where
  reaches : ∀ g ∈ gs, ∀ x ∈ side g, t.Reaches x
  priority : ∀ g ∈ gs, ∀ x ∈ side g, c.priorityAt t x = n
  key : ∀ g ∈ gs, ∀ x ∈ side g, (t.forest.contentTree x).hash = g.key
  lower : ∀ x ∈ behind, c.priorityAt t x < n

namespace OnLevel

variable [TokenHash] {n : Nat} {side : Group → List NodeId} {g : Group} {gs : List Group}

theorem tail (h : OnLevel c t n side (g :: gs) xs) : OnLevel c t n side gs xs :=
  ⟨(List.forall_mem_cons.1 h.reaches).2, (List.forall_mem_cons.1 h.priority).2,
    (List.forall_mem_cons.1 h.key).2, h.lower⟩

theorem opened (h : OnLevel c t n side (g :: gs) xs) (ht : t.forest.Sound)
    (hperm : xs'.Perm ((side g).flatMap (c.heirs t) ++ xs)) : OnLevel c t n side gs xs' := by
  refine ⟨h.tail.reaches, h.tail.priority, h.tail.key, fun x hx => ?_⟩
  rcases List.mem_append.1 (hperm.mem_iff.1 hx) with hx | hx
  · obtain ⟨y, hy, hxy⟩ := List.mem_flatMap.1 hx
    rw [← h.priority g List.mem_cons_self y hy]
    exact Config.priorityAt_lt_of_parent ht ((Config.mem_heirs_iff ht).1 hxy).1
  · exact h.lower x hx

theorem mem_of_ahead (h : OnLevel c t n side (g :: gs) xs) (ht : t.forest.Sound)
    (hdistinct : (g :: gs).Pairwise fun g h => g.key ≠ h.key)
    (hkey : (t.forest.contentTree a).hash = g.key) (hn : c.priorityAt t a = n)
    (hahead : t.Ahead (side g ++ (gs.flatMap side ++ xs)) a) : a ∈ side g := by
  obtain ⟨x, hx, hxa⟩ := hahead
  have hle := Config.priorityAt_le_of_under (c := c) ht hxa
  rw [← List.append_assoc, ← List.flatMap_cons] at hx
  rcases List.mem_append.1 hx with hgrouped | hbehind
  · obtain ⟨g', hg', hmember⟩ := List.mem_flatMap.1 hgrouped
    have hxn := h.priority g' hg' x hmember
    obtain rfl := Config.eq_of_under_of_priorityAt_le (c := c) ht hxa (by omega)
    rcases List.mem_cons.1 hg' with rfl | htail
    · exact hmember
    · have hne := (List.pairwise_cons.1 hdistinct).1 g' htail
      exact absurd (hkey.symm.trans (h.key g' hg' x hmember)) hne
  · have hlower := h.lower x hbehind
    omega

end OnLevel

variable {n : Nat} {g : Group} {gs : List Group} {d d' : Descent}

structure Level [TokenHash] (c : Config) (src dst : Tree) (n : Nat) (gs : List Group) (d : Descent) : Prop where
  left : OnLevel c src n (·.src) gs d.src.nodes
  right : OnLevel c dst n (·.dst) gs d.dst.nodes
  distinct : gs.Pairwise fun g h => g.key ≠ h.key

def PendingAt (src dst : Tree) (a b : NodeId) (gs : List Group) (d : Descent) (p : Pairing) :
    Prop :=
  Pending src dst a b (gs.flatMap (·.src) ++ d.src.nodes) (gs.flatMap (·.dst) ++ d.dst.nodes) p

section Settling

variable [TokenHash] (hs : src.forest.Sound) (hd : dst.forest.Sound)
include hs hd

theorem Settles.level (h : Settles c src dst g d p d' q) (hlevel : Level c src dst n (g :: gs) d) :
    Level c src dst n gs d' := by
  have hdistinct := (List.pairwise_cons.1 hlevel.distinct).2
  cases h with
  | pair | putOff => exact ⟨hlevel.left.tail, hlevel.right.tail, hdistinct⟩
  | opened _ left right =>
      exact ⟨hlevel.left.opened hs left.nodes, hlevel.right.opened hd right.nodes, hdistinct⟩

theorem Level.mem_iff (h : Level c src dst n (g :: gs) d) (hsole : SolePair c src dst a b)
    (ha : src.Ahead (g.src ++ (gs.flatMap (·.src) ++ d.src.nodes)) a)
    (hb : dst.Ahead (g.dst ++ (gs.flatMap (·.dst) ++ d.dst.nodes)) b) :
    a ∈ g.src ↔ b ∈ g.dst := by
  have hpriority := Config.priorityAt_congr (c := c) hsole.content
  constructor
  · intro hmem
    refine h.right.mem_of_ahead hd h.distinct ?_ ?_ hb
    · rw [← hsole.content, h.left.key g List.mem_cons_self a hmem]
    · rw [← hpriority, h.left.priority g List.mem_cons_self a hmem]
  · intro hmem
    refine h.left.mem_of_ahead hs h.distinct ?_ ?_ ha
    · rw [hsole.content, h.right.key g List.mem_cons_self b hmem]
    · rw [hpriority, h.right.priority g List.mem_cons_self b hmem]

omit hs hd in
/-- If digests are faithful, a group with nodes on both sides has one content. -/
theorem Level.exists_content (h : Level c src dst n (g :: gs) d)
    (hfaithful : FaithfulDigests src dst) (hsrc : g.src ≠ []) (hdst : g.dst ≠ []) :
    ∃ content, (∀ x ∈ g.src, src.Reaches x ∧ src.forest.contentTree x = content) ∧
      ∀ y ∈ g.dst, dst.Reaches y ∧ dst.forest.contentTree y = content := by
  have hequal : ∀ x ∈ g.src, ∀ y ∈ g.dst,
      src.forest.contentTree x = dst.forest.contentTree y := fun x hx y hy =>
    hfaithful x y (h.left.reaches g List.mem_cons_self x hx)
      (h.right.reaches g List.mem_cons_self y hy)
      ((h.left.key g List.mem_cons_self x hx).trans (h.right.key g List.mem_cons_self y hy).symm)
  obtain ⟨x, hx⟩ := List.exists_mem_of_ne_nil _ hsrc
  obtain ⟨y, hy⟩ := List.exists_mem_of_ne_nil _ hdst
  refine ⟨src.forest.contentTree x, fun x' hx' => ⟨?_, ?_⟩, fun y' hy' => ⟨?_, ?_⟩⟩
  · exact h.left.reaches g List.mem_cons_self x' hx'
  · exact (hequal x' hx' y hy).trans (hequal x hx y hy).symm
  · exact h.right.reaches g List.mem_cons_self y' hy'
  · exact (hequal x hx y' hy').symm

theorem Settles.pendingAt (h : Settles c src dst g d p d' q) (hfaithful : FaithfulDigests src dst)
    (hsole : SolePair c src dst a b)
    (hlevel : Level c src dst n (g :: gs) d) (hp : p.Sound)
    (hpend : PendingAt src dst a b (g :: gs) d p) : PendingAt src dst a b gs d' q := by
  unfold PendingAt at hpend ⊢
  rw [List.flatMap_cons, List.flatMap_cons, List.append_assoc, List.append_assoc] at hpend
  cases h with
  | pair left right commit =>
      rw [left, right] at hpend
      exact hpend.pair hs hd hsole commit hp
  | opened opens left right =>
      refine (hpend.opened hs hd hsole fun ha hb => ?_).perm
        ((left.nodes.append_left _).trans (List.perm_append_comm_assoc _ _ _))
        ((right.nodes.append_left _).trans (List.perm_append_comm_assoc _ _ _))
      have hiff := hlevel.mem_iff hs hd hsole ha hb
      have hno : a ∉ g.src := by
        rcases opens with hnil | hnil | ⟨x, y, hx, hy, hno⟩
        · simp [hnil]
        · simp [hiff, hnil]
        · -- the two would have been paired
          intro hmem
          have hmem' := hiff.1 hmem
          obtain rfl : a = x := by simpa [hx] using hmem
          obtain rfl : b = y := by simpa [hy] using hmem'
          refine hno ⟨hsole.content, fun z hz => ?_, fun z hz => ?_⟩
          · exact hpend.left.free a (List.mem_append_left _ hmem) z (hs.mem_preorder_iff.1 hz)
          · exact hpend.right.free b (List.mem_append_left _ hmem') z (hd.mem_preorder_iff.1 hz)
      exact ⟨hno, fun hmem => hno (hiff.2 hmem)⟩
  | putOff left right many =>
      obtain ⟨content, hleft, hright⟩ := hlevel.exists_content hfaithful left right
      exact Pending.putOff hs hd hsole content hpend hleft hright many

theorem SettlesAll.pending (h : SettlesAll c src dst gs d p d' q)
    (hfaithful : FaithfulDigests src dst) (hsole : SolePair c src dst a b)
    (hlevel : Level c src dst n gs d) (hp : p.Sound) (hpend : PendingAt src dst a b gs d p) :
    Pending src dst a b d'.src.nodes d'.dst.nodes q := by
  induction h with
  | nil => exact hpend
  | cons head _ ih =>
      exact ih (head.level hs hd hlevel) (head.sound hp)
        (head.pendingAt hs hd hfaithful hsole hlevel hp hpend)

end Settling

theorem OnLevel.of_front [TokenHash] {side : Group → List NodeId} {q : Queue} (hq : q.Orderly c t)
    (hn : q.level? = some n) (hperm : (gs.flatMap side).Perm q.front)
    (hkey : ∀ g ∈ gs, ∀ x ∈ side g, (t.forest.contentTree x).hash = g.key) :
    OnLevel c t n side gs q.rest.nodes := by
  have hfront : ∀ g ∈ gs, ∀ x ∈ side g, x ∈ q.front := fun g hg x hx =>
    hperm.mem_iff.1 (List.mem_flatMap.2 ⟨g, hg, hx⟩)
  exact ⟨fun g hg x hx => (hq.eligible_of_mem_front (hfront g hg x hx)).reaches,
    fun g hg x hx => hq.priority_of_mem_front hn (hfront g hg x hx), hkey,
    fun x hx => hq.lt_level_of_mem_rest hn hx⟩

theorem Tree.Ahead.priorityAt_le {q : Queue} (h : t.Ahead q.nodes a) (ht : t.forest.Sound)
    (hq : q.Orderly c t) (hn : q.level? = some n) : c.priorityAt t a ≤ n := by
  obtain ⟨x, hx, hxa⟩ := h
  exact (Config.priorityAt_le_of_under ht hxa).trans (hq.le_level hn hx)

section Descending

variable [TokenHash] (hs : src.forest.Sound) (hd : dst.forest.Sound)
  (hfaithful : FaithfulDigests src dst) (hsole : SolePair c src dst a b)
include hs hd hfaithful hsole

theorem Round.pending {s s' : Descent × Pairing} (h : Round c src dst s s')
    (hdesc : s.1.Orderly c src dst) (hp : s.2.Sound)
    (hpend : Pending src dst a b s.1.src.nodes s.1.dst.nodes s.2) :
    Pending src dst a b s'.1.src.nodes s'.1.dst.nodes s'.2 := by
  have hpriority := Config.priorityAt_congr (c := c) hsole.content
  cases h with
  | @level n gs d d' p q left right sorts settles =>
      have hlevel : Level c src dst n gs { d with src := d.src.rest, dst := d.dst.rest } :=
        ⟨.of_front hdesc.left left sorts.left fun g hg => (sorts.keyed g hg).left,
          .of_front hdesc.right right sorts.right fun g hg => (sorts.keyed g hg).right,
          sorts.distinct⟩
      refine settles.pending hs hd hfaithful hsole hlevel hp (hpend.perm ?_ ?_)
      · rw [d.src.nodes_eq]
        exact sorts.left.append_right _
      · rw [d.dst.nodes_eq]
        exact sorts.right.append_right _
  | @openSrc m n d p x left right lt opened =>
      have hwait : Pending src dst a b (d.src.front ++ d.src.rest.nodes) ([] ++ d.dst.nodes) p := by
        rwa [← d.src.nodes_eq]
      refine (hwait.opened hs hd hsole fun _ hb => ⟨fun hmem => ?_, by simp⟩).perm
        opened.nodes (.refl _)
      -- the other node would wait above its side's level
      have hle := hb.priorityAt_le hd hdesc.right right
      rw [← hpriority, hdesc.left.priority_of_mem_front left hmem] at hle
      omega
  | @openDst m n d p y left right lt opened =>
      have hwait : Pending src dst a b ([] ++ d.src.nodes) (d.dst.front ++ d.dst.rest.nodes) p := by
        rwa [← d.dst.nodes_eq]
      refine (hwait.opened hs hd hsole fun ha _ => ⟨by simp, fun hmem => ?_⟩).perm
        (.refl _) opened.nodes
      have hle := ha.priorityAt_le hs hdesc.left left
      rw [hpriority, hdesc.right.priority_of_mem_front right hmem] at hle
      omega

theorem rounds_pending {s s' : Descent × Pairing}
    (h : Relation.ReflTransGen (Round c src dst) s s') (hdesc : s.1.Orderly c src dst)
    (hp : s.2.Sound) (hpend : Pending src dst a b s.1.src.nodes s.1.dst.nodes s.2) :
    Pending src dst a b s'.1.src.nodes s'.1.dst.nodes s'.2 := by
  induction h using Relation.ReflTransGen.head_induction_on with
  | refl => exact hpend
  | head hround _ ih =>
      exact ih (hround.orderly hdesc) (hround.sound hp)
        (hround.pending hs hd hfaithful hsole hdesc hp hpend)

end Descending

theorem Queue.nodes_start (ha : c.Eligible t a) (ht : t.forest.Sound) :
    (Queue.start c t).nodes = [t.root] := by
  have hleast := ha.least.trans (Config.priorityAt_le_of_under ht ha.reaches)
  rw [start, if_pos hleast]
  rfl

theorem Pairing.Sound.image?_of_isEmpty (hp : p.Sound) (h : p.isEmpty) (x : NodeId) :
    p.image? x = none := by
  have hpairs : p.pairs = [] := by simpa [pairs, isEmpty] using h
  refine Option.eq_none_iff_forall_ne_some.2 fun y hxy => ?_
  rw [← hp.mem_pairs, hpairs] at hxy
  cases hxy

theorem Pairing.Sound.origin?_of_isEmpty (hp : p.Sound) (h : p.isEmpty) (y : NodeId) :
    p.origin? y = none := by
  refine Option.eq_none_iff_forall_ne_some.2 fun x hxy => ?_
  rw [← hp.image_iff_origin, hp.image?_of_isEmpty h] at hxy
  cases hxy

theorem Pairing.Sound.between_of_isEmpty (hp : p.Sound) (h : p.isEmpty) : p.Between src dst := by
  refine ⟨hp, fun x y hxy => ?_⟩
  rw [hp.image?_of_isEmpty h] at hxy
  cases hxy

theorem pending_start (hs : src.forest.Sound) (hd : dst.forest.Sound)
    (hsole : SolePair c src dst a b) (hp : p.Sound) (hempty : p.isEmpty) :
    Pending src dst a b (Descent.start c src dst).src.nodes (Descent.start c src dst).dst.nodes
      p := by
  have himage := hp.image?_of_isEmpty hempty
  have horigin := hp.origin?_of_isEmpty hempty
  rw [Descent.start, Queue.nodes_start hsole.left hs, Queue.nodes_start hsole.right hd]
  exact ⟨⟨List.pairwise_singleton _ _, fun _ _ x _ => himage x⟩,
    ⟨List.pairwise_singleton _ _, fun _ _ y _ => horigin y⟩,
    .inr ⟨⟨_, List.mem_singleton_self _, hsole.left.reaches⟩, _, List.mem_singleton_self _,
      hsole.right.reaches⟩⟩

/-- If digests are faithful, two subtrees of one content that occurs nowhere else in either tree
become partners, wherever they are, if their priority is not too low and no pair has been made
before. -/
theorem run_pairs_unique_subtrees [TokenHash] (c : Config) (hs : src.Surveyed) (hd : dst.Surveyed)
    (hfaithful : FaithfulDigests src dst) (hp : p.Sound) (hempty : p.isEmpty) (ha : src.Reaches a) (hb : dst.Reaches b)
    (hcontent : src.forest.contentTree a = dst.forest.contentTree b)
    (hmin : c.minPriority ≤ c.priorityAt src a)
    (hsrc : ∀ x, src.Reaches x → src.forest.contentTree x = src.forest.contentTree a → x = a)
    (hdst : ∀ y, dst.Reaches y → dst.forest.contentTree y = dst.forest.contentTree b → y = b) :
    ∃ out q, (Identical.run c src dst).run p = (out, q) ∧
      (out = .ok () ∨ out = .error .overflow ∧ ¬ (src.Small ∧ dst.Small)) ∧
      q.image? a = some b := by
  have hsole : SolePair c src dst a b :=
    ⟨⟨ha, hmin⟩, ⟨hb, Config.priorityAt_congr (c := c) hcontent ▸ hmin⟩, hcontent, hsrc, hdst⟩
  have hstart := pending_start hs.sound.forest hd.sound.forest hsole hp hempty
  have hrun := Identical.leaves_run (c := c) hs hd (hp.between_of_isEmpty hempty)
  obtain ⟨d, r, hrounds, hend, hserved⟩ := hrun.1
  have hpend := rounds_pending hs.sound.forest hd.sound.forest hfaithful hsole hrounds
    (Descent.orderly_start c src dst) hp hstart
  exact ⟨_, _, rfl, hrun.outcome, (hserved.grows hs hd).image (hpend.image?_eq_some hend)⟩

def Tree.grow (t : Tree) (parent : NodeId) (kind : Nat) : Tree :=
  (t.addChild parent { kind := .named kind }).2

def bough : Tree := ((twig 5 0).grow 2 1).grow 2 2

def thicket : Tree := ((((twig 6 7).grow 1 8).grow 3 0).grow 4 1).grow 4 2

attribute [local instance] TokenHash.ofKind

theorem run_pairs_unique_subtrees_thicket :
    ((Identical.run {} bough.measured thicket.measured).run .empty).2.pairs =
        [(2, 4), (3, 5), (4, 6)] ∧
      ∃ out q, (Identical.run {} bough.measured thicket.measured).run .empty = (out, q) ∧
        (out = .ok () ∨ out = .error .overflow ∧
          ¬ (bough.measured.Small ∧ thicket.measured.Small)) ∧
        q.image? 2 = some 4 := by
  have hbough : bough.Sound := ((sound_twig 5 0).addChild 2 _).addChild 2 _
  have hthicket : thicket.Sound :=
    ((((sound_twig 6 7).addChild 1 _).addChild 3 _).addChild 4 _).addChild 4 _
  have hsize : ∀ x ∈ bough.measured.preorder, (bough.measured.forest.contentTree x).size =
      (bough.measured.forest.contentTree 2).size → x = 2 := by decide
  have hsize' : ∀ y ∈ thicket.measured.preorder, (thicket.measured.forest.contentTree y).size =
      (thicket.measured.forest.contentTree 4).size → y = 4 := by decide
  have hfaithful : FaithfulDigests bough.measured thicket.measured :=
    .of_preorder hbough.measured hthicket.measured (by decide +kernel)
  refine ⟨by decide +kernel, run_pairs_unique_subtrees {} hbough.surveyed hthicket.surveyed
    hfaithful .empty rfl (.single rfl) (.tail (.single rfl) rfl) rfl (by decide)
    (fun x hx hcontent => ?_) fun y hy hcontent => ?_⟩
  · exact hsize x (hbough.measured.mem_preorder_iff.2 hx) (by rw [hcontent])
  · exact hsize' y (hthicket.measured.mem_preorder_iff.2 hy) (by rw [hcontent])

end TreeDelta
