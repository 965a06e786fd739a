import TreeDelta.Proofs.PairingAttempts
import TreeDelta.Proofs.PairingRuns

namespace TreeDelta

theorem zip_prefix_zip_append {α β : Type} (xs xs' : List α) (ys ys' : List β) :
    xs.zip ys <+: (xs ++ xs').zip (ys ++ ys') := by
  induction xs generalizing ys with
  | nil => exact List.nil_prefix
  | cons x xs ih =>
      cases ys with
      | nil => exact List.nil_prefix
      | cons y ys => exact (List.prefix_cons_inj _).2 (ih ys)

namespace Pairing

variable {p q : Pairing} {l : List (NodeId × NodeId)} {ending : Except Fault Unit}

theorem addAll_eq_ok_iff : (∃ q, p.addAll l = .ok q) ↔
    (l.map Prod.fst).Nodup ∧ (l.map Prod.snd).Nodup ∧
      ∀ x ∈ l, p.image? x.1 = none ∧ p.origin? x.2 = none := by
  induction l generalizing p with
  | nil => simp [addAll]
  | cons x l ih =>
      obtain ⟨a, b⟩ := x
      -- after the first pair the nodes that are free are those that were, less its own two
      have hfree {r : Pairing} (hr : p.add a b = .ok r) : (∀ x ∈ l, r.image? x.1 = none ∧
          r.origin? x.2 = none) ↔ a ∉ l.map Prod.fst ∧ b ∉ l.map Prod.snd ∧
            ∀ x ∈ l, p.image? x.1 = none ∧ p.origin? x.2 = none := by
        simp only [image?_of_add hr, origin?_of_add hr, List.mem_map, not_exists, not_and,
          ← forall_and]
        refine forall₂_congr fun x _ => ?_
        by_cases hx : a = x.1 <;> by_cases hy : b = x.2 <;> simp [hx, hy, eq_comm]
      simp only [List.map_cons, List.nodup_cons, List.forall_mem_cons]
      constructor
      · rintro ⟨q, hq⟩
        obtain ⟨r, hr, hrest⟩ := of_addAll_cons hq
        obtain ⟨hfst, hsnd, hall⟩ := ih.1 ⟨q, hrest⟩
        obtain ⟨ha, hb, hall⟩ := (hfree hr).1 hall
        exact ⟨⟨ha, hfst⟩, ⟨hb, hsnd⟩, free_of_add hr, hall⟩
      · rintro ⟨⟨ha, hfst⟩, ⟨hb, hsnd⟩, hab, hall⟩
        obtain ⟨r, hr⟩ := add_eq_ok_iff.2 hab
        obtain ⟨q, hq⟩ := ih.2 ⟨hfst, hsnd, (hfree hr).2 ⟨ha, hb, hall⟩⟩
        refine ⟨q, ?_⟩
        rw [addAll, hr]
        exact hq

theorem attempt_eq_ok_iff : p.attempt l ending = (.ok (), q) ↔ ending = .ok () ∧ p.addAll l = .ok q := by
  induction l generalizing p with
  | nil => simp [attempt, addAll]
  | cons x l ih =>
      obtain ⟨a, b⟩ := x
      rw [attempt, addAll]
      cases p.add a b with
      | error fault => simp [bind, Except.bind]
      | ok r => exact ih

theorem addAll_fitting (p : Pairing) (l : List (NodeId × NodeId)) (ending : Except Fault Unit) :
    p.addAll (p.fitting l) = .ok (p.attempt l ending).2 := by
  induction l generalizing p with
  | nil => rfl
  | cons x l ih =>
      obtain ⟨a, b⟩ := x
      rw [attempt, fitting]
      cases hadd : p.add a b with
      | error fault => rfl
      | ok r =>
          change p.addAll ((a, b) :: r.fitting l) = .ok (r.attempt l ending).2
          rw [addAll, hadd]
          exact ih r

theorem fitting_begins (p : Pairing) (l : List (NodeId × NodeId)) : p.fitting l <+: l := by
  induction l generalizing p with
  | nil => exact List.prefix_refl _
  | cons x l ih =>
      obtain ⟨a, b⟩ := x
      rw [fitting]
      cases p.add a b with
      | error fault => exact List.nil_prefix
      | ok r => exact (List.prefix_cons_inj _).2 (ih r)

end Pairing

variable {src dst : Tree} {p q : Pairing} {a b : NodeId}

/-- What a route says about two lists of nodes, of which `places` are the nodes at one place: it
pairs nodes of one kind at the first places, and if it does not end in a fault then the lists are
alike in the given sense and it pairs them whole. -/
structure Routed (src dst : Tree) (places : List (NodeId × NodeId)) (alike : Prop)
    (r : List (NodeId × NodeId) × Except Fault Unit) : Prop where
  begins : r.1 <+: places
  kinds : ∀ z ∈ r.1, SameKind src dst z.1 z.2
  ends : r.2 = .ok () → alike ∧ r.1 = places

theorem Tree.kind_of_ok {t : Tree} {k : Kind} (h : t.kind a = .ok k) :
    (t.forest.contentOf a).kind = k := by
  by_cases hhas : t.forest.has a
  · rw [Tree.kind_eq_ok hhas] at h
    exact Except.ok.inj h
  · rw [Tree.kind, Tree.info, Forest.node, Option.not_isSome_iff_eq_none.1 hhas] at h
    cases h

namespace Pairer

mutual
theorem routed_route (src dst : Tree) : ∀ s t : Rose NodeId,
    Routed src dst (s.preorder.zip t.preorder) (AgreeInKind src dst s t) (route src.kind dst.kind s t)
  | .node a as, .node b bs => by
      rw [Rose.preorder_node, Rose.preorder_node, List.zip_cons_cons, route]
      cases hka : src.kind a with
      | error fault => exact ⟨by simp, by simp, nofun⟩
      | ok ka =>
      cases hkb : dst.kind b with
      | error fault => exact ⟨by simp, by simp, nofun⟩
      | ok kb =>
      by_cases hne : ka = kb
      · have hkind : SameKind src dst a b := by
          rw [SameKind, Tree.kind_of_ok hka, Tree.kind_of_ok hkb, hne]
        by_cases hlen : as.length = bs.length
        · have hrest := routed_routes src dst as bs hlen
          simp only [hne, hlen, bne_self_eq_false, Bool.false_eq_true, if_false]
          refine ⟨(List.prefix_cons_inj _).2 hrest.begins, ?_, fun hok => ?_⟩
          · exact List.forall_mem_cons.2 ⟨hkind, hrest.kinds⟩
          · obtain ⟨hagree, hall⟩ := hrest.ends hok
            exact ⟨Rose.agree_node.2 ⟨beq_iff_eq.2 hkind, hagree⟩, by rw [hall]⟩
        · simp only [hne, hlen, bne_self_eq_false, Bool.false_eq_true, if_false, bne_iff_ne, ne_eq,
            not_false_eq_true, if_true]
          exact ⟨(List.prefix_cons_inj _).2 List.nil_prefix, by simpa using hkind, nofun⟩
      · simp only [hne, bne_iff_ne, ne_eq, not_false_eq_true, if_true]
        exact ⟨by simp, by simp, nofun⟩
theorem routed_routes (src dst : Tree) : ∀ ss ts : List (Rose NodeId), ss.length = ts.length →
    Routed src dst ((ss.flatMap Rose.preorder).zip (ts.flatMap Rose.preorder))
      (List.Forall₂ (AgreeInKind src dst) ss ts) (routes src.kind dst.kind ss ts)
  | s :: ss, t :: ts, hlen => by
      have hhead := routed_route src dst s t
      have hrest := routed_routes src dst ss ts (Nat.succ.inj hlen)
      rw [List.flatMap_cons, List.flatMap_cons, routes]
      rcases h : route src.kind dst.kind s t with ⟨l, fault | _⟩ <;> rw [h] at hhead
      · exact ⟨hhead.begins.trans (zip_prefix_zip_append _ _ _ _), hhead.kinds, nofun⟩
      · -- the first trees are alike, so the second parts of both lists stand side by side
        obtain ⟨hagree, rfl⟩ := hhead.ends rfl
        rw [List.zip_append (Rose.forall₂_preorder hagree).length_eq]
        refine ⟨(List.prefix_append_right_inj _).2 hrest.begins, ?_, fun hok => ?_⟩
        · exact List.forall_mem_append.2 ⟨hhead.kinds, hrest.kinds⟩
        · obtain ⟨hagrees, hall⟩ := hrest.ends hok
          exact ⟨.cons hagree hagrees, by rw [hall]⟩
  | [], [], _ => by
      rw [routes]
      · exact ⟨by simp, by simp, fun _ => ⟨.nil, rfl⟩⟩
      · nofun
end

end Pairer

/-- How pairing the subtrees at `a` and `b` comes out, starting from `p`. -/
structure PairsSubtrees (src dst : Tree) (a b : NodeId) (p : Pairing) : Prop where
  completes_iff : (∃ q, (Pairer.addSubtrees src dst a b).run p = (.ok (), q)) ↔
    SameShape src dst a b ∧ SubtreesFree src dst p a b
  completed : ∀ q, (Pairer.addSubtrees src dst a b).run p = (.ok (), q) →
    q.pairs = p.pairs ++ (src.forest.subtree a).preorder.zip (dst.forest.subtree b).preorder
  /-- The pairing has grown by the first `k` places only, all of them of one kind. -/
  stopped : ∀ fault q, (Pairer.addSubtrees src dst a b).run p = (.error fault, q) →
    ∃ k new, k ≤ (src.forest.subtree a).preorder.length ∧
      k ≤ (dst.forest.subtree b).preorder.length ∧
      new = ((src.forest.subtree a).preorder.take k).zip ((dst.forest.subtree b).preorder.take k) ∧
      (∀ z ∈ new, src.kind z.1 = dst.kind z.2) ∧ p.addAll new = .ok q ∧ q.pairs = p.pairs ++ new

theorem subtreesFree_iff (h : SameShape src dst a b) : SubtreesFree src dst p a b ↔
    ∀ z ∈ (src.forest.subtree a).preorder.zip (dst.forest.subtree b).preorder,
      p.image? z.1 = none ∧ p.origin? z.2 = none := by
  have hlen := (Rose.forall₂_preorder h).length_eq
  have hfst := List.map_fst_zip (Nat.le_of_eq hlen)
  have hsnd := List.map_snd_zip (Nat.le_of_eq hlen.symm)
  constructor
  · intro hfree z hz
    exact ⟨hfree.left _ (List.of_mem_zip hz).1, hfree.right _ (List.of_mem_zip hz).2⟩
  · intro hall
    constructor
    case left =>
      intro x hx
      rw [← hfst] at hx
      obtain ⟨z, hz, rfl⟩ := List.mem_map.1 hx
      exact (hall z hz).1
    case right =>
      intro y hy
      rw [← hsnd] at hy
      obtain ⟨z, hz, rfl⟩ := List.mem_map.1 hy
      exact (hall z hz).2

theorem exists_addAll_zip (hs : src.forest.Sound) (hd : dst.forest.Sound)
    (h : SameShape src dst a b) (hfree : SubtreesFree src dst p a b) :
    ∃ q, p.addAll ((src.forest.subtree a).preorder.zip (dst.forest.subtree b).preorder) = .ok q := by
  have hlen := (Rose.forall₂_preorder h).length_eq
  apply Pairing.addAll_eq_ok_iff.2
  rw [List.map_fst_zip (Nat.le_of_eq hlen), List.map_snd_zip (Nat.le_of_eq hlen.symm)]
  exact ⟨hs.nodup_preorder a, hd.nodup_preorder b, (subtreesFree_iff h).1 hfree⟩

/-- Pairing two subtrees node by node completes exactly if they have one shape, with equal kinds,
and no node of either has a partner; it then adds the pairs of the two pre-orders, and otherwise
those of the first few places. -/
theorem addSubtrees_pairsSubtrees (hs : src.forest.Sound) (hd : dst.forest.Sound)
    (ha : src.forest.has a) (hb : dst.forest.has b) (p : Pairing) :
    PairsSubtrees src dst a b p := by
  have hleft : ∀ x ∈ (src.forest.subtree a).preorder, src.forest.has x :=
    fun x hx => hs.has_of_under (hs.mem_preorder_iff.1 hx) ha
  have hright : ∀ y ∈ (dst.forest.subtree b).preorder, dst.forest.has y :=
    fun y hy => hd.has_of_under (hd.mem_preorder_iff.1 hy) hb
  have hroute := Pairer.routed_route src dst (src.forest.subtree a) (dst.forest.subtree b)
  have hrun := Pairer.attempts_addRose src.kind dst.kind (src.forest.subtree a) (dst.forest.subtree b) p
  constructor
  case completes_iff =>
    constructor
    · rintro ⟨q, hq⟩
      obtain ⟨hending, hadded⟩ := Pairing.attempt_eq_ok_iff.1 (hrun.symm.trans hq)
      obtain ⟨hshape, hwhole⟩ := hroute.ends hending
      rw [hwhole] at hadded
      exact ⟨hshape, (subtreesFree_iff hshape).2 (Pairing.addAll_eq_ok_iff.1 ⟨q, hadded⟩).2.2⟩
    · rintro ⟨hshape, hfree⟩
      obtain ⟨q, hq⟩ := exists_addAll_zip hs hd hshape hfree
      have hyields := pairsInOrder (fun _ => False) src dst _ _ p q hshape hleft hright hq
      obtain ⟨_, q, hok, _⟩ | ⟨_, _, _, hno⟩ := hyields.exists_run
      · exact ⟨q, hok⟩
      · exact hno.elim
  case completed =>
    intro q hq
    obtain ⟨hending, hadded⟩ := Pairing.attempt_eq_ok_iff.1 (hrun.symm.trans hq)
    rw [← (hroute.ends hending).2]
    exact Pairing.pairs_of_addAll hadded
  case stopped =>
    intro fault q hq
    let route := Pairer.route src.kind dst.kind (src.forest.subtree a) (dst.forest.subtree b)
    have hstate : (p.attempt route.1 route.2).2 = q := congrArg Prod.snd (hrun.symm.trans hq)
    have hadded := p.addAll_fitting route.1 route.2
    rw [hstate] at hadded
    have hbegins := (p.fitting_begins route.1).trans hroute.begins
    have htake := List.prefix_iff_eq_take.1 hbegins
    have hlen := hbegins.length_le
    rw [List.length_zip] at hlen
    rw [List.zip, List.take_zipWith] at htake
    refine ⟨(p.fitting route.1).length, p.fitting route.1, hlen.trans (Nat.min_le_left _ _),
      hlen.trans (Nat.min_le_right _ _), htake, ?_, hadded, Pairing.pairs_of_addAll hadded⟩
    intro z hz
    obtain ⟨hx, hy⟩ := List.of_mem_zip (hbegins.subset hz)
    have hkind := hroute.kinds z ((p.fitting_begins route.1).subset hz)
    rw [Tree.kind_eq_ok (hleft _ hx), Tree.kind_eq_ok (hright _ hy), hkind]

/-- The roots of two small trees are of one kind and their children are not, so that only the pair
of the roots is made. -/
theorem addSubtrees_pairsSubtrees_twigs :
    (twig 0 1).forest.Sound ∧ (twig 0 2).forest.Sound ∧
      PairsSubtrees (twig 0 1) (twig 0 2) 1 1 .empty ∧
      ((Pairer.addSubtrees (twig 0 1) (twig 0 2) 1 1).run .empty).1 = .error .recursiveKinds ∧
      ((Pairer.addSubtrees (twig 0 1) (twig 0 2) 1 1).run .empty).2.pairs = [(1, 1)] :=
  ⟨(sound_twig 0 1).forest, (sound_twig 0 2).forest,
    addSubtrees_pairsSubtrees (sound_twig 0 1).forest (sound_twig 0 2).forest rfl rfl .empty,
    by decide, by decide⟩

end TreeDelta
