import TreeDelta.Proofs.RenamedForests
import TreeDelta.Proofs.Scores

namespace TreeDelta

open Relator (BiUnique)

def NodeInfo.bare (i : NodeInfo) : NodeInfo := { i with metadata := {} }

theorem NodeInfo.bare_eq_iff {i j : NodeInfo} :
    i.bare = j.bare ↔ i.toContent = j.toContent ∧ i.pos = j.pos ∧ i.length = j.length := by
  simp [bare]

namespace Tree

variable {t u : Tree} {a b c d : NodeId} {r : NodeId → NodeId → Prop}

/-- What a tree shows from its root down: contents and spans, without node numbers and
annotations. -/
def outline (t : Tree) : Rose NodeInfo :=
  (t.forest.subtree t.root).map fun a => (t.forest.infoOf a).bare

/-- Both nodes are reached from the roots by the same child indices. -/
inductive SamePlace (t u : Tree) : NodeId → NodeId → Prop where
  | root : SamePlace t u t.root u.root
  | child {a b c d : NodeId} {i : Nat} (h : SamePlace t u a b)
      (hc : (t.forest.childrenOf a)[i]? = some c) (hd : (u.forest.childrenOf b)[i]? = some d) :
      SamePlace t u c d

namespace SamePlace

theorem symm (h : SamePlace t u a b) : SamePlace u t b a := by
  induction h with
  | root => exact .root
  | child _ hc hd ih => exact ih.child hd hc

theorem reaches (h : SamePlace t u a b) (ht : t.Sound) : t.Reaches a := by
  induction h with
  | root => exact .refl
  | child _ hc _ ih => exact ih.tail ((ht.forest.mem_children _ _).1 (List.mem_of_getElem? hc))

theorem parent_left {i : Nat} (ht : t.Sound) (hc : (t.forest.childrenOf a)[i]? = some c) :
    t.forest.parent? c = some a :=
  (ht.forest.mem_children a c).1 (List.mem_of_getElem? hc)

theorem rightUnique (ht : t.Sound) : Relator.RightUnique (SamePlace t u) := by
  intro a b b' hb hb'
  induction hb generalizing b' with
  | root =>
      cases hb' with
      | root => rfl
      | child _ hc _ =>
          have hp := parent_left ht hc
          rw [ht.root_parent] at hp
          cases hp
  | @child x y c d i _ hc hd ih =>
      have hp := parent_left ht hc
      cases hb' with
      | root =>
          rw [ht.root_parent] at hp
          cases hp
      | @child x' y' _ d' j h' hc' hd' =>
          -- a node has one parent, and one index among its children
          obtain rfl : x = x' := Option.some.inj (hp.symm.trans (parent_left ht hc'))
          obtain rfl := ih h'
          obtain ⟨hi, rfl⟩ := List.getElem?_eq_some_iff.1 hc
          obtain rfl : i = j := (List.getElem?_inj hi (ht.forest.nodup_children x)).1
            (hc.trans hc'.symm)
          exact Option.some.inj (hd.symm.trans hd')

theorem biUnique (ht : t.Sound) (hu : u.Sound) : BiUnique (SamePlace t u) :=
  ⟨fun _ _ _ ha ha' => rightUnique hu ha.symm ha'.symm, rightUnique ht⟩

end SamePlace

/-- The trees differ in the numbers of their nodes only, and `r` relates the nodes that stand at
one place. -/
structure Renamed [TokenHash] (r : NodeId → NodeId → Prop) (t u : Tree) : Prop where
  left : t.Surveyed
  right : u.Surveyed
  forest : t.forest.Renamed r u.forest
  root : r t.root u.root
  reaches : ∀ {a b}, r a b → t.Reaches a ∧ u.Reaches b
  bare : ∀ {a b}, r a b → (t.forest.infoOf a).bare = (u.forest.infoOf b).bare

section Outline

variable (ht : t.Sound) (hu : u.Sound) (h : t.outline = u.outline)
include ht hu h

theorem SamePlace.related (hab : SamePlace t u a b) :
    (t.forest.subtree a).Related
      (fun x y => (t.forest.infoOf x).bare = (u.forest.infoOf y).bare) (u.forest.subtree b) := by
  induction hab with
  | root => exact Rose.Related.of_map_eq_map h
  | child _ hc hd ih =>
      have hrest := ((Forest.related_subtree_iff ht.forest hu.forest).1 ih).2
      obtain ⟨hi, rfl⟩ := List.getElem?_eq_some_iff.1 hc
      obtain ⟨hj, rfl⟩ := List.getElem?_eq_some_iff.1 hd
      exact hrest.get hi hj

theorem SamePlace.children (hab : SamePlace t u a b) :
    List.Forall₂ (SamePlace t u) (t.forest.childrenOf a) (u.forest.childrenOf b) := by
  have hlen := ((Forest.related_subtree_iff ht.forest hu.forest).1
    (hab.related ht hu h)).2.length_eq
  refine List.forall₂_iff_get.2 ⟨hlen, fun i hi hj => ?_⟩
  exact hab.child (List.getElem?_eq_getElem hi) (List.getElem?_eq_getElem hj)

omit h in
theorem SamePlace.parent (hab : SamePlace t u a b) :
    Option.Rel (SamePlace t u) (t.forest.parent? a) (u.forest.parent? b) := by
  cases hab with
  | root =>
      rw [ht.root_parent, hu.root_parent]
      exact .none
  | child hxy hc hd =>
      rw [parent_left ht hc, parent_left hu hd]
      exact .some hxy

end Outline

variable [TokenHash]

theorem renamed_of_outline_eq (ht : t.Surveyed) (hu : u.Surveyed)
    (h : t.outline = u.outline) :
    Renamed (SamePlace t u) t u := by
  have hinfo : ∀ {a b}, SamePlace t u a b →
      (t.forest.infoOf a).bare = (u.forest.infoOf b).bare := fun hab =>
    ((Forest.related_subtree_iff ht.sound.forest hu.sound.forest).1
      (hab.related ht.sound hu.sound h)).1
  have hreaches : ∀ {a b}, SamePlace t u a b → t.Reaches a ∧ u.Reaches b := fun hab =>
    ⟨hab.reaches ht.sound, hab.symm.reaches hu.sound⟩
  refine ⟨ht, hu, ?_, .root, hreaches, hinfo⟩
  refine ⟨ht.sound.forest, hu.sound.forest, SamePlace.biUnique ht.sound hu.sound, ?_,
    fun hab => hab.parent ht.sound hu.sound, fun hab => hab.children ht.sound hu.sound h, ?_⟩
  · intro a b hab
    exact iff_of_true (ht.has (hreaches hab).1) (hu.has (hreaches hab).2)
  · intro a b hab
    rw [Forest.contentOf_eq, Forest.contentOf_eq, (NodeInfo.bare_eq_iff.1 (hinfo hab)).1]

namespace Renamed

theorem unique (h : Renamed r t u) : BiUnique r := h.forest.unique

theorem preorder (h : Renamed r t u) : List.Forall₂ r t.preorder u.preorder :=
  (h.forest.subtree h.root).preorder

theorem postorder (h : Renamed r t u) : List.Forall₂ r t.postorder u.postorder :=
  (h.forest.subtree h.root).postorder

theorem breadthFirst (h : Renamed r t u) :
    List.Forall₂ r t.breadthFirst u.breadthFirst :=
  (h.forest.subtree h.root).breadthFirst

theorem measure_eq (h : Renamed r t u) (hab : r a b) : t.measure a = u.measure b := by
  have hsub := h.forest.subtree hab
  rw [h.left.measure_eq_ok (h.reaches hab).1, h.right.measure_eq_ok (h.reaches hab).2]
  simp only [Forest.measureOf]
  rw [hsub.size_eq, hsub.height_eq, (h.forest.ancestors hab).length_eq,
    (h.forest.subtree h.root).postorder.idxOf_eq h.unique hab, h.forest.contentTree_eq hab]

theorem kind_eq (h : Renamed r t u) (hab : r a b) : t.kind a = u.kind b := by
  rw [kind_eq_ok (h.left.has (h.reaches hab).1), kind_eq_ok (h.right.has (h.reaches hab).2),
    h.forest.content hab]

theorem info (h : Renamed r t u) (hab : r a b) :
    Lockstep (fun i j => i.toContent = j.toContent) (t.info a) (u.info b) :=
  (h.forest.node hab).bind fun _ _ hnode => .pure hnode.content

theorem parent (h : Renamed r t u) (hab : r a b) :
    Lockstep (Option.Rel r) (t.parent a) (u.parent b) :=
  (h.forest.node hab).bind fun _ _ hnode => .pure hnode.parent

theorem children (h : Renamed r t u) (hab : r a b) :
    Lockstep (List.Forall₂ r) (t.children a) (u.children b) :=
  (h.forest.node hab).bind fun _ _ hnode => .pure hnode.children

theorem isRoot_eq (h : Renamed r t u) (hab : r a b) : t.isRoot a = u.isRoot b :=
  bind_eq_bind (h.parent hab) fun _ _ hp => congrArg pure hp.isNone_eq

theorem isLeaf_eq (h : Renamed r t u) (hab : r a b) : t.isLeaf a = u.isLeaf b :=
  bind_eq_bind (h.children hab) fun _ _ hcs => congrArg pure hcs.isEmpty_eq

theorem subtree (h : Renamed r t u) (hab : r a b) :
    Lockstep (Rose.Related r) (t.subtree a) (u.subtree b) :=
  (h.forest.node hab).bind fun _ _ _ => .pure (h.forest.subtree hab)

theorem descendants (h : Renamed r t u) (hab : r a b) :
    Lockstep (List.Forall₂ r) (t.descendants a) (u.descendants b) :=
  (h.subtree hab).bind fun _ _ hsub => .pure hsub.descendants

theorem ancestors (h : Renamed r t u) (hab : r a b) :
    Lockstep (List.Forall₂ r) (t.ancestors a) (u.ancestors b) :=
  (h.forest.node hab).bind fun _ _ _ => .pure (h.forest.ancestors hab)

theorem isBelow_eq (h : Renamed r t u) (hab : r a b) (hcd : r c d) :
    t.isBelow a c = u.isBelow b d := by
  rw [isBelow, isBelow, h.measure_eq hab, h.measure_eq hcd]

theorem positionVector_eq (h : Renamed r t u) (hab : r a b) :
    Ranking.positionVector t a = Ranking.positionVector u b := by
  refine bind_eq_bind (h.ancestors hab) fun up up' hup => congrArg pure ?_
  exact (List.rel_reverse (List.Forall₂.cons hab hup)).map_eq_map fun _ _ hxy =>
    h.forest.position_eq hxy

end Renamed

section Comparison

variable {src src' dst dst' : Tree} {s : NodeId → NodeId → Prop} {a a' b b' : NodeId}
  (hs : src.Renamed r src') (hd : dst.Renamed s dst') (ha : r a a') (hb : s b b')
include hs hd ha hb

theorem agree_eq_of_renamed (same : Content → Content → Bool) :
    src.agree same a dst b = src'.agree same a' dst' b' := by
  refine bind_eq_bind (hs.forest.node ha) fun _ _ _ => ?_
  refine bind_eq_bind (hd.forest.node hb) fun _ _ _ => congrArg pure ?_
  rw [Forest.agree_eq, Forest.agree_eq, hs.forest.contentTree_eq ha, hd.forest.contentTree_eq hb]

theorem agreeAfter_eq_of_renamed (part : Measure → UInt64) (same : Content → Content → Bool) :
    src.agreeAfter part same a dst b = src'.agreeAfter part same a' dst' b' := by
  rw [agreeAfter, agreeAfter, hs.measure_eq ha, hd.measure_eq hb,
    agree_eq_of_renamed hs hd ha hb]

theorem isomorphic_eq_of_renamed : src.isomorphic a dst b = src'.isomorphic a' dst' b' :=
  agreeAfter_eq_of_renamed hs hd ha hb _ _

theorem sameShape_eq_of_renamed : src.sameShape a dst b = src'.sameShape a' dst' b' :=
  agreeAfter_eq_of_renamed hs hd ha hb _ _

theorem ancestorScore_eq_of_renamed :
    Ranking.ancestorScore src dst a b = Ranking.ancestorScore src' dst' a' b' := by
  refine bind_eq_bind (hs.ancestors ha) fun xs xs' hxs => ?_
  rw [mapM_eq_mapM hxs fun _ _ hx => hs.kind_eq hx]
  congr 1
  funext ka
  refine bind_eq_bind (hd.ancestors hb) fun ys ys' hys => ?_
  rw [mapM_eq_mapM hys fun _ _ hy => hd.kind_eq hy]

theorem spanDistance_eq_of_renamed :
    Ranking.spanDistance src dst a b = Ranking.spanDistance src' dst' a' b' := by
  have hspan : ∀ {i j : NodeInfo}, i.bare = j.bare → i.pos = j.pos ∧ i.stop = j.stop := by
    intro i j h
    obtain ⟨_, hpos, hlength⟩ := NodeInfo.bare_eq_iff.1 h
    exact ⟨hpos, by rw [NodeInfo.stop, NodeInfo.stop, hpos, hlength]⟩
  have hleft := hspan (hs.bare ha)
  have hright := hspan (hd.bare hb)
  rw [Ranking.spanDistance, Ranking.spanDistance, info_eq_ok (hs.left.has (hs.reaches ha).1),
    info_eq_ok (hs.right.has (hs.reaches ha).2), info_eq_ok (hd.left.has (hd.reaches hb).1),
    info_eq_ok (hd.right.has (hd.reaches hb).2)]
  simp only [hleft.1, hleft.2, hright.1, hright.2, bind, Except.bind]

end Comparison

end Tree

end TreeDelta
