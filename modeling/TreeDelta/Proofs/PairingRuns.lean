import TreeDelta.EditDistance.Backtrace
import TreeDelta.Matching.Config
import TreeDelta.Proofs.Scores

namespace TreeDelta

variable {c : Config} {src dst : Tree} {p q r : Pairing} {a b : NodeId}

def SameKind (src dst : Tree) (a b : NodeId) : Prop :=
  (src.forest.contentOf a).kind = (dst.forest.contentOf b).kind

/-- A pair that a matching may make. -/
structure Joinable (src dst : Tree) (a b : NodeId) : Prop where
  left : src.Reaches a
  right : dst.Reaches b
  kind : SameKind src dst a b

def PairsUnder (src dst : Tree) (a b : NodeId) (pairs : List (NodeId × NodeId)) : Prop :=
  ∀ x ∈ pairs, src.forest.Under a x.1 ∧ dst.forest.Under b x.2

namespace PairsUnder

variable {l l' : List (NodeId × NodeId)} {x : NodeId × NodeId}

theorem nil : PairsUnder src dst a b [] := by simp [PairsUnder]

theorem cons (h : PairsUnder src dst a b l)
    (hx : src.forest.Under a x.1 ∧ dst.forest.Under b x.2) : PairsUnder src dst a b (x :: l) :=
  List.forall_mem_cons.2 ⟨hx, h⟩

theorem append (h : PairsUnder src dst a b l) (h' : PairsUnder src dst a b l') :
    PairsUnder src dst a b (l ++ l') :=
  List.forall_mem_append.2 ⟨h, h'⟩

theorem mono {a' b' : NodeId} (h : PairsUnder src dst a' b' l) (ha : src.forest.Under a a')
    (hb : dst.forest.Under b b') : PairsUnder src dst a b l :=
  fun x hx => ⟨ha.trans (h x hx).1, hb.trans (h x hx).2⟩

end PairsUnder

namespace Pairing

structure Between (src dst : Tree) (p : Pairing) : Prop where
  sound : p.Sound
  within : p.Within src dst

/-- Pairs are of one kind, the pair of the roots excepted. -/
def Alike (src dst : Tree) (p : Pairing) : Prop :=
  ∀ a b, p.image? a = some b → (a, b) ≠ (src.root, dst.root) → SameKind src dst a b

def Grow (src dst : Tree) (p q : Pairing) : Prop :=
  ∃ a b, Joinable src dst a b ∧ p.add a b = .ok q

abbrev Grows (src dst : Tree) : Pairing → Pairing → Prop := Relation.ReflTransGen (Grow src dst)

theorem Grow.between (h : Grow src dst p q) (hp : p.Between src dst) : q.Between src dst := by
  obtain ⟨a, b, hab, hadd⟩ := h
  refine ⟨hp.sound.add hadd, fun x y hxy => ?_⟩
  rw [image?_of_add hadd] at hxy
  split at hxy
  · next hx =>
    cases hxy
    exact hx ▸ ⟨hab.left, hab.right⟩
  · exact hp.within x y hxy

theorem Grow.alike (h : Grow src dst p q) (hp : p.Alike src dst) : q.Alike src dst := by
  obtain ⟨a, b, hab, hadd⟩ := h
  intro x y hxy hne
  rw [image?_of_add hadd] at hxy
  split at hxy
  · next hx =>
    cases hxy
    exact hx ▸ hab.kind
  · exact hp x y hxy hne

theorem Grow.image (h : Grow src dst p q) (hab : p.image? a = some b) : q.image? a = some b := by
  obtain ⟨x, y, _, hadd⟩ := h
  have hne : x ≠ a := by
    rintro rfl
    rw [(free_of_add hadd).1] at hab
    cases hab
  rw [image?_of_add hadd, if_neg hne, hab]

theorem Grow.origin (h : Grow src dst p q) (hab : p.origin? b = some a) :
    q.origin? b = some a := by
  obtain ⟨x, y, _, hadd⟩ := h
  have hne : y ≠ b := by
    rintro rfl
    rw [(free_of_add hadd).2] at hab
    cases hab
  rw [origin?_of_add hadd, if_neg hne, hab]

theorem Grows.between (h : Grows src dst p q) (hp : p.Between src dst) : q.Between src dst := by
  induction h with
  | refl => exact hp
  | tail _ hstep ih => exact hstep.between ih

theorem Grows.alike (h : Grows src dst p q) (hp : p.Alike src dst) : q.Alike src dst := by
  induction h with
  | refl => exact hp
  | tail _ hstep ih => exact hstep.alike ih

theorem Grows.image (h : Grows src dst p q) (hab : p.image? a = some b) :
    q.image? a = some b := by
  induction h with
  | refl => exact hab
  | tail _ hstep ih => exact hstep.image ih

theorem Grows.origin (h : Grows src dst p q) (hab : p.origin? b = some a) :
    q.origin? b = some a := by
  induction h with
  | refl => exact hab
  | tail _ hstep ih => exact hstep.origin ih

theorem Grows.bothFree (h : Grows src dst p q) (hfree : q.bothFree a b) : p.bothFree a b := by
  rw [bothFree_iff] at hfree ⊢
  refine ⟨Option.eq_none_iff_forall_ne_some.2 fun y hy => ?_,
    Option.eq_none_iff_forall_ne_some.2 fun x hx => ?_⟩
  · cases hfree.1.symm.trans (h.image hy)
  · cases hfree.2.symm.trans (h.origin hx)

/-- The pairs stay, in their order; after them come joinable pairs of nodes that were free. -/
theorem Grows.exists_new (h : Grows src dst p q) :
    ∃ new, q.pairs = p.pairs ++ new ∧
      ∀ z ∈ new, Joinable src dst z.1 z.2 ∧ p.image? z.1 = none ∧ p.origin? z.2 = none := by
  induction h with
  | refl => exact ⟨[], by simp⟩
  | @tail r q hgrows hstep ih =>
      obtain ⟨new, hnew, hfree⟩ := ih
      obtain ⟨a, b, hab, hadd⟩ := hstep
      refine ⟨new ++ [(a, b)], by rw [pairs_of_add hadd, hnew, List.append_assoc], ?_⟩
      refine List.forall_mem_append.2 ⟨hfree, List.forall_mem_singleton.2 ⟨hab, ?_⟩⟩
      exact bothFree_iff.1 (Grows.bothFree hgrows (bothFree_iff.2 (free_of_add hadd)))

theorem Grows.length_le (h : Grows src dst p q) : p.pairs.length ≤ q.pairs.length := by
  induction h with
  | refl => exact Nat.le_refl _
  | tail _ hstep ih =>
      obtain ⟨a, b, _, hadd⟩ := hstep
      rw [pairs_of_add hadd, List.length_append]
      exact Nat.le_add_right_of_le ih

theorem image?_remove_self (h : p.image? a = some b) : (p.remove a b).2.image? a = none := by
  rw [image?_remove, if_pos ⟨by simp [joins, h], rfl⟩]

theorem origin?_remove_self (h : p.image? a = some b) : (p.remove a b).2.origin? b = none := by
  rw [origin?_remove, if_pos ⟨by simp [joins, h], rfl⟩]

theorem image?_remove_of_none {x : NodeId} (h : p.image? x = none) (a b : NodeId) :
    (p.remove a b).2.image? x = none := by
  rw [image?_remove, h, ite_self]

/-- What a finished matching is. -/
structure Matched (src dst : Tree) (p : Pairing) : Prop where
  between : p.Between src dst
  alike : p.Alike src dst
  roots : p.image? src.root = some dst.root

theorem Grows.matched (h : Grows src dst p q) (hp : p.Matched src dst) : q.Matched src dst :=
  ⟨h.between hp.between, h.alike hp.alike, h.image hp.roots⟩

theorem of_addAll_cons {x : NodeId × NodeId} {l : List (NodeId × NodeId)}
    (h : p.addAll (x :: l) = .ok q) : ∃ r, p.add x.1 x.2 = .ok r ∧ r.addAll l = .ok q := by
  rw [addAll] at h
  cases hadd : p.add x.1 x.2 with
  | error fault =>
      rw [hadd] at h
      cases h
  | ok r =>
      rw [hadd] at h
      exact ⟨r, rfl, h⟩

theorem pairs_of_addAll {l : List (NodeId × NodeId)} (h : p.addAll l = .ok q) :
    q.pairs = p.pairs ++ l := by
  induction l generalizing p with
  | nil =>
      cases h
      rw [List.append_nil]
  | cons x l ih =>
      obtain ⟨r, hadd, hr⟩ := of_addAll_cons h
      rw [ih hr, pairs_of_add hadd, List.append_assoc]
      rfl

theorem Sound.of_addAll {l : List (NodeId × NodeId)} (hp : p.Sound)
    (h : p.addAll l = .ok q) : q.Sound := by
  induction l generalizing p with
  | nil =>
      cases h
      exact hp
  | cons x l ih =>
      obtain ⟨r, hadd, hr⟩ := of_addAll_cons h
      exact ih (hp.add hadd) hr

theorem between_of_addAll (hs : src.Sound) (hd : dst.Sound) {l : List (NodeId × NodeId)}
    (h : empty.addAll l = .ok p) (hl : ∀ z ∈ l, z.1 ∈ src.preorder ∧ z.2 ∈ dst.preorder) :
    p.Between src dst := by
  have hp := Sound.empty.of_addAll h
  refine ⟨hp, fun a b hab => ?_⟩
  rw [← hp.mem_pairs, pairs_of_addAll h] at hab
  exact ⟨hs.mem_preorder_iff.1 (hl _ hab).1, hd.mem_preorder_iff.1 (hl _ hab).2⟩

theorem of_addAll_append {l l' : List (NodeId × NodeId)} (h : p.addAll (l ++ l') = .ok q) :
    ∃ r, p.addAll l = .ok r ∧ r.addAll l' = .ok q := by
  induction l generalizing p with
  | nil => exact ⟨p, rfl, h⟩
  | cons x l ih =>
      obtain ⟨s, hadd, hs⟩ := of_addAll_cons h
      obtain ⟨r, hr, hq⟩ := ih hs
      refine ⟨r, ?_, hq⟩
      rw [addAll, hadd]
      exact hr

theorem grows_of_addAll {l : List (NodeId × NodeId)} (h : p.addAll l = .ok q)
    (hl : ∀ x ∈ l, Joinable src dst x.1 x.2) : Grows src dst p q := by
  induction l generalizing p with
  | nil => cases h; exact .refl
  | cons x l ih =>
      obtain ⟨r, hadd, hr⟩ := of_addAll_cons h
      exact .head ⟨x.1, x.2, hl x (by simp), hadd⟩ (ih hr fun y hy => hl y (by simp [hy]))

end Pairing

/-- The recovery goes by edit distance, and somewhere in the two trees the walk back through the
distance tables gives up. -/
def DistanceFails (c : Config) (src dst : Tree) : Prop :=
  c.recovery ≠ .simple ∧ ∃ a b, src.Reaches a ∧ dst.Reaches b ∧
    cheapestPairs Float src dst a b = .error .backtraceKinds

/-- Why a matching may fail: an edit distance does, or a count or an offset is too large. -/
inductive Excuse (c : Config) (src dst : Tree) : Fault → Prop where
  | distance : DistanceFails c src dst → Excuse c src dst .backtraceKinds
  | overflow : ¬ (src.Small ∧ dst.Small) → Excuse c src dst .overflow

/-- From `p` the computation gives a value and a pairing of which `post` holds, or fails for a
reason that is excused. -/
def Yields {α : Type} (excuse : Fault → Prop) (m : Pairer α) (p : Pairing)
    (post : α → Pairing → Prop) : Prop :=
  match m.run p with
  | (.ok a, q) => post a q
  | (.error fault, _) => excuse fault

/-- From a pairing between the two trees, the computation only adds joinable pairs, or fails for a
reason that is excused. -/
def AddsOr {α : Type} (excuse : Fault → Prop) (src dst : Tree) (m : Pairer α) (p : Pairing)
    (post : α → Pairing → Prop) : Prop :=
  p.Between src dst → Yields excuse m p fun a q => p.Grows src dst q ∧ post a q

abbrev Adds {α : Type} (c : Config) (src dst : Tree) (m : Pairer α) (p : Pairing)
    (post : α → Pairing → Prop) : Prop :=
  AddsOr (Excuse c src dst) src dst m p post

section Rules

variable {α β : Type} {excuse : Fault → Prop} {m : Pairer α} {k : α → Pairer β}
  {x : Except Fault α} {P : α → Prop}
  {post post' : α → Pairing → Prop} {next : β → Pairing → Prop}

namespace Yields

theorem pure {a : α} (h : post a p) : Yields excuse (Pure.pure a) p post := h

theorem mono (h : Yields excuse m p post) (hpost : ∀ a q, post a q → post' a q) :
    Yields excuse m p post' := by
  unfold Yields at h ⊢
  split
  · next a q hm => exact hpost a q (by simpa only [hm] using h)
  · next fault q hm => simpa only [hm] using h

theorem bind (h : Yields excuse m p fun a q => Yields excuse (k a) q next) :
    Yields excuse (m >>= k) p next := by
  have hrun : (m >>= k).run p = (ExceptT.bindCont k (m.run p).1).run (m.run p).2 := rfl
  unfold Yields at h ⊢
  rw [hrun]
  generalize m.run p = out at h ⊢
  rcases out with ⟨fault | a, q⟩
  · exact h
  · exact h

theorem liftOr (h : GivesOr excuse x P) (hpost : ∀ a, P a → post a p) :
    Yields excuse (liftM x) p post := by
  rcases h with ⟨a, rfl, ha⟩ | ⟨fault, rfl, hfault⟩
  · exact hpost a ha
  · exact hfault

theorem lift (h : Gives x P) (hpost : ∀ a, P a → post a p) :
    Yields excuse (liftM x) p post :=
  liftOr (.inl h) hpost

theorem exists_run (h : Yields excuse m p post) :
    (∃ x q, m.run p = (.ok x, q) ∧ post x q) ∨ ∃ fault q, m.run p = (.error fault, q) ∧
      excuse fault := by
  unfold Yields at h
  split at h
  · next x q hrun => exact .inl ⟨x, q, hrun, h⟩
  · next fault q hrun => exact .inr ⟨fault, q, hrun, h⟩

theorem of_run {x : α} (hrun : m.run p = (.ok x, q)) (h : post x q) : Yields excuse m p post := by
  unfold Yields
  rw [hrun]
  exact h

theorem post_of_run {x : α} (h : Yields excuse m p post) (hrun : m.run p = (.ok x, q)) :
    post x q := by
  unfold Yields at h
  rwa [hrun] at h

theorem get {post : Pairing → Pairing → Prop} (h : post p p) : Yields excuse get p post := h

theorem modify {g : Pairing → Pairing} {post : Unit → Pairing → Prop} (h : post () (g p)) :
    Yields excuse (modify g) p post := h

theorem add {post : Unit → Pairing → Prop} (ha : p.image? a = none) (hb : p.origin? b = none)
    (h : ∀ q, p.add a b = .ok q → post () q) : Yields excuse (Pairer.add a b) p post := by
  obtain ⟨q, hq⟩ := Pairing.add_eq_ok_iff.2 ⟨ha, hb⟩
  unfold Yields
  rw [Pairer.run_add, hq]
  exact h q hq

end Yields

namespace AddsOr

theorem pure {a : α} (h : post a p) : AddsOr excuse src dst (Pure.pure a) p post :=
  fun _ => ⟨.refl, h⟩

theorem of_between (h : p.Between src dst → AddsOr excuse src dst m p post) :
    AddsOr excuse src dst m p post :=
  fun hp => h hp hp

theorem mono (h : AddsOr excuse src dst m p post) (hpost : ∀ a q, post a q → post' a q) :
    AddsOr excuse src dst m p post' :=
  fun hp => (h hp).mono fun a q hq => ⟨hq.1, hpost a q hq.2⟩

theorem grows (h : AddsOr excuse src dst m p post) :
    AddsOr excuse src dst m p fun a q => p.Grows src dst q ∧ post a q :=
  fun hp => (h hp).mono fun _ _ hq => ⟨hq.1, hq⟩

theorem bind (h : AddsOr excuse src dst m p fun a q => AddsOr excuse src dst (k a) q next) :
    AddsOr excuse src dst (m >>= k) p next := by
  intro hp
  refine Yields.bind ((h hp).mono fun a q hq => ?_)
  exact (hq.2 (hq.1.between hp)).mono fun b r hr => ⟨hq.1.trans hr.1, hr.2⟩

theorem seq (h : AddsOr excuse src dst m p fun _ _ => True)
    (hk : ∀ a q, AddsOr excuse src dst (k a) q next) : AddsOr excuse src dst (m >>= k) p next :=
  bind (h.mono fun a q _ => hk a q)

theorem lift (h : Gives x P) (hk : ∀ a, P a → AddsOr excuse src dst (k a) p next) :
    AddsOr excuse src dst (liftM x >>= k) p next :=
  bind fun _ => Yields.lift h fun a ha => ⟨.refl, hk a ha⟩

theorem get {k : Pairing → Pairer β} (h : AddsOr excuse src dst (k p) p next) :
    AddsOr excuse src dst (get >>= k) p next :=
  bind fun _ => Yields.get ⟨.refl, h⟩

theorem add (hab : Joinable src dst a b) (ha : p.image? a = none) (hb : p.origin? b = none) :
    AddsOr excuse src dst (Pairer.add a b) p fun _ q => p.add a b = .ok q :=
  fun _ => Yields.add ha hb fun _ hq => ⟨.single ⟨a, b, hab, hq⟩, hq⟩

end AddsOr

theorem AddsOr.reckon (h : Reckons src dst x P) (hk : ∀ a, P a → Adds c src dst (k a) p next) :
    Adds c src dst (liftM x >>= k) p next := by
  have hexcused : GivesOr (Excuse c src dst) x P :=
    h.weaken fun _ hfault => hfault.1 ▸ .overflow hfault.2
  exact .bind fun _ => Yields.liftOr hexcused fun a ha => ⟨.refl, hk a ha⟩

end Rules

/-- The nodes of the two trees of node numbers are of one kind position by position. -/
def AgreeInKind (src dst : Tree) (t u : Rose NodeId) : Prop :=
  t.agree (fun x y => (src.forest.contentOf x).kind == (dst.forest.contentOf y).kind) u

/-- The subtrees at two nodes have one shape, with equal kinds. -/
def SameShape (src dst : Tree) (a b : NodeId) : Prop :=
  AgreeInKind src dst (src.forest.subtree a) (dst.forest.subtree b)

theorem sameShape_of_agree
    (h : (src.forest.contentTree a).agree (fun x y => x.kind == y.kind)
      (dst.forest.contentTree b)) : SameShape src dst a b :=
  (Rose.agree_map src.forest.contentOf dst.forest.contentOf _ _).1 h

theorem sameShape_of_eq (h : src.forest.contentTree a = dst.forest.contentTree b) :
    SameShape src dst a b := by
  refine sameShape_of_agree (Rose.agree_mono (Rose.agree_eq_iff.2 h) fun x _ y _ hxy => ?_)
  rw [eq_of_beq hxy, beq_self_eq_true]

/-- No node of the two subtrees has a partner. -/
structure SubtreesFree (src dst : Tree) (p : Pairing) (a b : NodeId) : Prop where
  left : ∀ x ∈ (src.forest.subtree a).preorder, p.image? x = none
  right : ∀ y ∈ (dst.forest.subtree b).preorder, p.origin? y = none

theorem Gives.subtreesFree [TokenHash] (hs : src.Surveyed) (hd : dst.Surveyed) (ha : src.Reaches a)
    (hb : dst.Reaches b) :
    Gives (p.subtreesFree src dst a b) fun free => (free ↔ SubtreesFree src dst p a b) := by
  have hleft : Gives (p.srcSubtreeFree src a) fun free =>
      (free ↔ ∀ x ∈ (src.forest.subtree a).preorder, p.image? x = none) := by
    rw [Rose.preorder_eq_cons, hs.sound.forest.value_subtree]
    unfold Pairing.srcSubtreeFree
    split
    · next hpaired =>
      refine .pure ⟨fun hno => absurd hno Bool.false_ne_true, fun hall => ?_⟩
      simp [Pairing.srcPaired, hall _ List.mem_cons_self] at hpaired
    · next hfree =>
      refine (of_eq (Tree.descendants_eq_ok (hs.has ha))).bind fun ds hds => .pure ?_
      subst hds
      simp only [Pairing.srcPaired, Bool.not_eq_true, Option.isSome_eq_false_iff,
        Option.isNone_iff_eq_none] at hfree
      simp [Pairing.srcPaired, hfree]
  have hright : Gives (p.dstSubtreeFree dst b) fun free =>
      (free ↔ ∀ y ∈ (dst.forest.subtree b).preorder, p.origin? y = none) := by
    rw [Rose.preorder_eq_cons, hd.sound.forest.value_subtree]
    unfold Pairing.dstSubtreeFree
    split
    · next hpaired =>
      refine .pure ⟨fun hno => absurd hno Bool.false_ne_true, fun hall => ?_⟩
      simp [Pairing.dstPaired, hall _ List.mem_cons_self] at hpaired
    · next hfree =>
      refine (of_eq (Tree.descendants_eq_ok (hd.has hb))).bind fun ds hds => .pure ?_
      subst hds
      simp only [Pairing.dstPaired, Bool.not_eq_true, Option.isSome_eq_false_iff,
        Option.isNone_iff_eq_none] at hfree
      simp [Pairing.dstPaired, hfree]
  apply hleft.bind
  intro free hfree
  split
  · next hl => exact hright.mono fun _ hr => ⟨fun h => ⟨hfree.1 hl, hr.1 h⟩, fun h => hr.2 h.right⟩
  · next hl =>
    exact .pure ⟨fun hno => absurd hno Bool.false_ne_true, fun h => absurd (hfree.2 h.left) hl⟩

def PairsInOrder (excuse : Fault → Prop) (src dst : Tree) (t : Rose NodeId) : Prop :=
  ∀ (u : Rose NodeId) (p q : Pairing), AgreeInKind src dst t u →
    (∀ x ∈ t.preorder, src.forest.has x) → (∀ y ∈ u.preorder, dst.forest.has y) →
    p.addAll (t.preorder.zip u.preorder) = .ok q →
    Yields excuse (Pairer.addRose src.kind dst.kind t u) p fun _ r => r = q

theorem Yields.addRoses {excuse : Fault → Prop} {ts us : List (Rose NodeId)}
    (hts : ∀ t ∈ ts, PairsInOrder excuse src dst t)
    (h : List.Forall₂ (AgreeInKind src dst) ts us)
    (ht : ∀ x ∈ ts.flatMap Rose.preorder, src.forest.has x)
    (hu : ∀ y ∈ us.flatMap Rose.preorder, dst.forest.has y)
    (hq : p.addAll ((ts.flatMap Rose.preorder).zip (us.flatMap Rose.preorder)) = .ok q) :
    Yields excuse (Pairer.addRoses src.kind dst.kind ts us) p fun _ r => r = q := by
  induction h generalizing p with
  | nil =>
      cases hq
      rw [Pairer.addRoses]
      · exact pure rfl
      · intro _ _ _ _ hnil
        cases hnil
  | @cons t u ts us htu _ ih =>
      rw [List.flatMap_cons, List.flatMap_cons,
        List.zip_append (Rose.forall₂_preorder htu).length_eq] at hq
      obtain ⟨s, hs, hq⟩ := Pairing.of_addAll_append hq
      simp only [List.flatMap_cons, List.mem_append] at ht hu
      rw [Pairer.addRoses]
      refine bind ((hts t (by simp) u p s htu (fun x hx => ht x (.inl hx))
        (fun y hy => hu y (.inl hy)) hs).mono ?_)
      rintro _ _ rfl
      exact ih (fun t ht => hts t (by simp [ht])) (fun x hx => ht x (.inr hx))
        (fun y hy => hu y (.inr hy)) hq

theorem pairsInOrder (excuse : Fault → Prop) (src dst : Tree) (t : Rose NodeId) :
    PairsInOrder excuse src dst t := by
  induction t using Rose.induct with
  | node a as ih =>
      intro u p q h ht hu hq
      obtain ⟨b, bs⟩ := u
      obtain ⟨hkind, hrest⟩ := Rose.agree_node.1 h
      simp only [Rose.preorder_node, List.mem_cons, forall_eq_or_imp] at ht hu
      rw [Rose.preorder_node, Rose.preorder_node, List.zip_cons_cons] at hq
      obtain ⟨s, hadd, hs⟩ := Pairing.of_addAll_cons hq
      obtain ⟨ha, hb⟩ := Pairing.free_of_add hadd
      rw [Pairer.addRose]
      refine .bind (.lift (.of_eq (Tree.kind_eq_ok ht.1)) ?_)
      rintro ka rfl
      refine .bind (.lift (.of_eq (Tree.kind_eq_ok hu.1)) ?_)
      rintro kb rfl
      rw [if_neg (by simpa using hkind)]
      refine .bind (.add ha hb fun r hr => ?_)
      cases Except.ok.inj (hr.symm.trans hadd)
      rw [if_neg (by simpa using hrest.length_eq)]
      exact .addRoses ih hrest ht.2 hu.2 hs

theorem joinable_of_mem_zip [TokenHash] (hs : src.Surveyed) (hd : dst.Surveyed) (ha : src.Reaches a)
    (hb : dst.Reaches b) (h : SameShape src dst a b) {x : NodeId × NodeId}
    (hx : x ∈ (src.forest.subtree a).preorder.zip (dst.forest.subtree b).preorder) :
    Joinable src dst x.1 x.2 := by
  obtain ⟨hleft, hright⟩ := List.of_mem_zip hx
  refine ⟨ha.trans (hs.sound.forest.mem_preorder_iff.1 hleft),
    hb.trans (hd.sound.forest.mem_preorder_iff.1 hright), ?_⟩
  have hkinds := Rose.forall₂_preorder h
  exact eq_of_beq (List.forall₂_zip hkinds hx)

theorem Yields.addSubtrees [TokenHash] {excuse : Fault → Prop} (hs : src.Surveyed)
    (hd : dst.Surveyed)
    (ha : src.Reaches a) (hb : dst.Reaches b) (h : SameShape src dst a b)
    (hfree : SubtreesFree src dst p a b) (hp : p.Sound) :
    Yields excuse (Pairer.addSubtrees src dst a b) p fun _ q =>
      p.addAll ((src.forest.subtree a).preorder.zip (dst.forest.subtree b).preorder) = .ok q := by
  have hlen := (Rose.forall₂_preorder h).length_eq
  obtain ⟨q, hq, _, _⟩ := hp.addAll
    (l := (src.forest.subtree a).preorder.zip (dst.forest.subtree b).preorder)
    (by rw [List.map_fst_zip (Nat.le_of_eq hlen)]; exact hs.sound.forest.nodup_preorder a)
    (by rw [List.map_snd_zip (Nat.le_of_eq hlen.symm)]; exact hd.sound.forest.nodup_preorder b)
    fun x hx => ⟨hfree.left _ (List.of_mem_zip hx).1, hfree.right _ (List.of_mem_zip hx).2⟩
  refine (pairsInOrder _ src dst _ _ p q h ?_ ?_ hq).mono ?_
  · exact fun x hx => hs.has (ha.trans (hs.sound.forest.mem_preorder_iff.1 hx))
  · exact fun y hy => hd.has (hb.trans (hd.sound.forest.mem_preorder_iff.1 hy))
  · rintro _ _ rfl
    exact hq

theorem AddsOr.addSubtrees [TokenHash] {excuse : Fault → Prop} (hs : src.Surveyed)
    (hd : dst.Surveyed)
    (ha : src.Reaches a) (hb : dst.Reaches b) (h : SameShape src dst a b)
    (hfree : SubtreesFree src dst p a b) :
    AddsOr excuse src dst (Pairer.addSubtrees src dst a b) p fun _ q =>
      p.addAll ((src.forest.subtree a).preorder.zip (dst.forest.subtree b).preorder) = .ok q :=
  fun hp => (Yields.addSubtrees hs hd ha hb h hfree hp.sound).mono fun _ _ hq =>
    ⟨Pairing.grows_of_addAll hq fun _ hx => joinable_of_mem_zip hs hd ha hb h hx, hq⟩

end TreeDelta
