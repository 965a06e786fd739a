import TreeDelta.Matching.Identical
import TreeDelta.Proofs.PairingRuns

namespace TreeDelta

variable {c : Config} {src dst t : Tree} {p : Pairing} {a b : NodeId}

def Queue.Within (q : Queue) (t : Tree) : Prop := ∀ e ∈ q.entries, t.Reaches e.2

namespace Queue

variable {q : Queue}

theorem Within.insert (h : q.Within t) (ha : t.Reaches a) (priority : Nat) :
    (q.insert priority a).Within t := by
  intro e he
  rcases List.mem_cons.1 ((insertEntry_perm _ _).mem_iff.1 he) with rfl | he
  · exact ha
  · exact h e he

theorem Within.front (h : q.Within t) : ∀ x ∈ q.front, t.Reaches x := by
  intro x hx
  obtain ⟨e, he, rfl⟩ := List.mem_map.1 hx
  exact h e (List.takeWhile_subset _ he)

theorem Within.rest (h : q.Within t) : q.rest.Within t :=
  fun e he => h e (List.dropWhile_subset _ he)

end Queue

namespace Gives

variable {q : Queue} {ids : List NodeId}

variable [TokenHash]

theorem enqueue (h : t.Surveyed) (hq : q.Within t) (ha : t.Reaches a) :
    Gives (c.enqueue t q a) (·.Within t) := by
  refine (measure h ha).bind fun m _ => .pure ?_
  split
  · exact hq.insert ha _
  · exact hq

theorem enqueueAll (h : t.Surveyed) (hq : q.Within t) (hids : ∀ x ∈ ids, t.Reaches x) :
    Gives (c.enqueueAll t q ids) (·.Within t) := by
  induction ids generalizing q with
  | nil => exact .ok hq
  | cons x ids ih =>
      apply (enqueue h hq (hids x (by simp))).bind
      intro q' hq'
      exact ih hq' fun y hy => hids y (by simp [hy])

theorem openNode (h : t.Surveyed) (hq : q.Within t) (ha : t.Reaches a) :
    Gives (c.openNode t q a) (·.Within t) := by
  apply (of_eq (Tree.children_eq_ok (h.has ha))).bind
  intro cs hcs
  subst hcs
  exact enqueueAll h hq fun x hx => ha.tail ((h.sound.forest.mem_children a x).1 hx)

theorem openNodes (h : t.Surveyed) (hq : q.Within t) (hids : ∀ x ∈ ids, t.Reaches x) :
    Gives (c.openNodes t q ids) (·.Within t) := by
  induction ids generalizing q with
  | nil => exact .ok hq
  | cons x ids ih =>
      apply (openNode h hq (hids x (by simp))).bind
      intro q' hq'
      exact ih hq' fun y hy => hids y (by simp [hy])

theorem openFront (h : t.Surveyed) (hq : q.Within t) : Gives (c.openFront t q)
    (·.Within t) :=
  openNodes h hq.rest hq.front

end Gives

structure Group.Within (g : Group) (src dst : Tree) : Prop where
  left : ∀ a ∈ g.src, src.Reaches a
  right : ∀ b ∈ g.dst, dst.Reaches b

namespace Group

variable {groups : List Group} {ids : List NodeId}

theorem within_gather {add : Group → Group} (key : UInt64)
    (hadd : ∀ g : Group, g.Within src dst → (add g).Within src dst)
    (h : ∀ g ∈ groups, g.Within src dst) : ∀ g ∈ gather key add groups, g.Within src dst := by
  induction groups with
  | nil =>
      have hnew : Group.Within { key } src dst := ⟨by simp, by simp⟩
      simpa [gather] using hadd _ hnew
  | cons g groups ih =>
      rw [List.forall_mem_cons] at h
      rw [gather]
      split
      · exact List.forall_mem_cons.2 ⟨hadd g h.1, h.2⟩
      · exact List.forall_mem_cons.2 ⟨h.1, ih h.2⟩

theorem gives_gatherSrc [TokenHash] (hs : src.Surveyed) (h : ∀ g ∈ groups, g.Within src dst)
    (hids : ∀ x ∈ ids, src.Reaches x) :
    Gives (gatherSrc src groups ids) fun gs => ∀ g ∈ gs, g.Within src dst := by
  induction ids generalizing groups with
  | nil => exact .ok h
  | cons x ids ih =>
      rw [List.forall_mem_cons] at hids
      refine (Gives.measure hs hids.1).bind fun m _ => ih ?_ hids.2
      refine within_gather m.hash (fun g hg => ⟨fun a ha => ?_, hg.right⟩) h
      rcases List.mem_append.1 ha with ha | ha
      · exact hg.left a ha
      · exact List.mem_singleton.1 ha ▸ hids.1

theorem gives_gatherDst [TokenHash] (hd : dst.Surveyed) (h : ∀ g ∈ groups, g.Within src dst)
    (hids : ∀ x ∈ ids, dst.Reaches x) :
    Gives (gatherDst dst groups ids) fun gs => ∀ g ∈ gs, g.Within src dst := by
  induction ids generalizing groups with
  | nil => exact .ok h
  | cons x ids ih =>
      rw [List.forall_mem_cons] at hids
      refine (Gives.measure hd hids.1).bind fun m _ => ih ?_ hids.2
      refine within_gather m.hash (fun g hg => ⟨hg.left, fun b hb => ?_⟩) h
      rcases List.mem_append.1 hb with hb | hb
      · exact hg.right b hb
      · exact List.mem_singleton.1 hb ▸ hids.1

end Group

structure Descent.Within (d : Descent) (src dst : Tree) : Prop where
  left : d.src.Within src
  right : d.dst.Within dst
  deferred : ∀ g ∈ d.deferred, g.Within src dst

namespace Identical

variable {d : Descent}

theorem adds_pairIfFree [TokenHash] (hs : src.Surveyed) (hd : dst.Surveyed) (ha : src.Reaches a)
    (hb : dst.Reaches b) (hab : SameShape src dst a b) :
    Adds c src dst (pairIfFree src dst a b) p fun _ _ => True := by
  refine .get (.lift (.subtreesFree hs hd ha hb) fun free hfree => ?_)
  split
  · next h =>
    exact .bind ((AddsOr.addSubtrees hs hd ha hb hab (hfree.1 h)).mono fun _ _ _ => .pure trivial)
  · exact .pure trivial

theorem adds_pairUnique [TokenHash] (hs : src.Surveyed) (hd : dst.Surveyed) (ha : src.Reaches a)
    (hb : dst.Reaches b) : Adds c src dst (pairUnique src dst a b) p fun _ _ => True := by
  refine .lift (.isomorphic hs hd ha hb) fun same hsame => ?_
  split
  · next h => exact adds_pairIfFree hs hd ha hb (sameShape_of_eq (hsame.1 h))
  · exact .pure trivial

theorem adds_settle [TokenHash] (hs : src.Surveyed) (hd : dst.Surveyed) (h : d.Within src dst)
    {g : Group} (hg : g.Within src dst) :
    Adds c src dst (settle c src dst d g) p fun next _ => next.Within src dst := by
  unfold settle
  split
  · next a b hga hgb =>
    have ha : src.Reaches a := hg.left a (by simp [hga])
    have hb : dst.Reaches b := hg.right b (by simp [hgb])
    refine .seq (adds_pairUnique hs hd ha hb) fun paired q => ?_
    split
    · exact .pure h
    · refine .lift (.openNode hs h.left ha) fun x hx => ?_
      refine .lift (.openNode hd h.right hb) fun y hy => ?_
      exact .pure ⟨hx, hy, h.deferred⟩
  · exact .lift (.openNodes hs h.left hg.left) fun x hx => .pure ⟨hx, h.right, h.deferred⟩
  · exact .lift (.openNodes hd h.right hg.right) fun y hy => .pure ⟨h.left, hy, h.deferred⟩
  · refine .pure ⟨h.left, h.right, fun x hx => ?_⟩
    rcases List.mem_append.1 hx with hx | hx
    · exact h.deferred x hx
    · exact List.mem_singleton.1 hx ▸ hg

theorem adds_settleAll [TokenHash] (hs : src.Surveyed) (hd : dst.Surveyed) (h : d.Within src dst)
    {groups : List Group} (hgs : ∀ g ∈ groups, g.Within src dst) :
    Adds c src dst (settleAll c src dst d groups) p fun next _ => next.Within src dst := by
  induction groups generalizing d p with
  | nil => exact .pure h
  | cons g groups ih =>
      rw [List.forall_mem_cons] at hgs
      exact .bind ((adds_settle hs hd h hgs.1).mono fun next q hnext => ih hnext hgs.2)

theorem adds_settleLevel [TokenHash] (hs : src.Surveyed) (hd : dst.Surveyed)
    (h : d.Within src dst) :
    Adds c src dst (settleLevel c src dst d) p fun next _ => next.Within src dst := by
  have hnone : ∀ g ∈ ([] : List Group), g.Within src dst := by simp
  refine .lift (Group.gives_gatherSrc hs hnone h.left.front) fun gs hgs => ?_
  refine .lift (Group.gives_gatherDst hd hgs h.right.front) fun gs' hgs' => ?_
  exact adds_settleAll (d := { d with src := d.src.rest, dst := d.dst.rest }) hs hd
    ⟨h.left.rest, h.right.rest, h.deferred⟩ hgs'

/-- Where one step leads: to a descent within the two trees, or to groups within them. -/
def Leads (src dst : Tree) : Descent ⊕ List Group → Prop
  | .inl next => next.Within src dst
  | .inr groups => ∀ g ∈ groups, g.Within src dst

variable [TokenHash]

theorem adds_step (hs : src.Surveyed) (hd : dst.Surveyed) (h : d.Within src dst) :
    Adds c src dst (step c src dst d) p fun out _ => Leads src dst out := by
  unfold step
  split
  · split
    · exact .bind ((adds_settleLevel hs hd h).mono fun next q hnext => .pure hnext)
    · split
      · exact .lift (.openFront hs h.left) fun x hx => .pure ⟨hx, h.right, h.deferred⟩
      · exact .lift (.openFront hd h.right) fun y hy => .pure ⟨h.left, hy, h.deferred⟩
  · exact .pure h.deferred

theorem adds_descend (hs : src.Surveyed) (hd : dst.Surveyed) (fuel : Nat)
    (h : d.Within src dst) :
    Adds c src dst (descend c src dst fuel d) p fun groups _ => ∀ g ∈ groups, g.Within src dst := by
  induction fuel generalizing d p with
  | zero => exact .pure h.deferred
  | succ fuel ih =>
      refine .bind ((adds_step hs hd h).mono fun out q hout => ?_)
      cases out with
      | inl next => exact ih hout
      | inr groups => exact .pure hout

theorem gives_maxSize (hs : src.Surveyed) {ids : List NodeId}
    (hids : ∀ x ∈ ids, src.Reaches x) :
    Gives (maxSize src ids) fun _ => True := by
  induction ids with
  | nil => exact .ok trivial
  | cons x ids ih =>
      apply (Gives.measure hs (hids x (by simp))).bind
      intro m _
      exact (ih fun y hy => hids y (by simp [hy])).bind fun _ _ => .pure trivial

theorem gives_bySize (hs : src.Surveyed) {groups : List Group}
    (h : ∀ g ∈ groups, g.Within src dst) :
    Gives (bySize src groups) fun gs => ∀ g ∈ gs, g.Within src dst := by
  have hsized : Gives (groups.mapM fun g => return (← maxSize src g.src, g))
      (List.Forall₂ (fun g s => s.2 = g) groups) :=
    .mapM fun g hg => (gives_maxSize hs (h g hg).left).bind fun _ _ => .pure rfl
  refine hsized.bind fun sized hs => .pure fun g hg => ?_
  obtain ⟨s, hs', rfl⟩ := List.mem_map.1 hg
  obtain ⟨x, hx, hsx⟩ := forall₂_exists_of_mem hs.flip (List.mem_mergeSort.1 hs')
  exact hsx ▸ h x hx

theorem gives_candidates (hs : src.Surveyed) (hd : dst.Surveyed) {g : Group}
    (hg : g.Within src dst) :
    Gives (candidates src dst g) fun pairs => ∀ x ∈ pairs,
      src.Reaches x.1 ∧ dst.Reaches x.2 ∧ SameShape src dst x.1 x.2 := by
  refine .filterM fun x hx => ?_
  obtain ⟨a, ha, hx⟩ := List.mem_flatMap.1 hx
  obtain ⟨b, hb, rfl⟩ := List.mem_map.1 hx
  apply (Gives.isomorphic hs hd (hg.left a ha) (hg.right b hb)).mono
  intro same hsame h
  exact ⟨hg.left a ha, hg.right b hb, sameShape_of_eq (hsame.1 h)⟩

theorem adds_serve (hs : src.Surveyed) (hd : dst.Surveyed)
    {pairs : List (NodeId × NodeId)}
    (h : ∀ x ∈ pairs, src.Reaches x.1 ∧ dst.Reaches x.2 ∧ SameShape src dst x.1 x.2) :
    Adds c src dst (serve src dst pairs) p fun _ _ => True := by
  induction pairs generalizing p with
  | nil => exact .pure trivial
  | cons x pairs ih =>
      rw [List.forall_mem_cons] at h
      exact .seq (adds_pairIfFree hs hd h.1.1 h.1.2.1 h.1.2.2) fun _ _ => ih h.2

theorem adds_serveGroups (hs : src.Surveyed) (hd : dst.Surveyed) {groups : List Group}
    (h : ∀ g ∈ groups, g.Within src dst) :
    Adds c src dst (serveGroups src dst groups) p fun _ _ => True := by
  induction groups generalizing p with
  | nil => exact .pure trivial
  | cons g groups ih =>
      rw [List.forall_mem_cons] at h
      refine .lift (gives_candidates hs hd h.1) fun pairs hpairs => .get (.of_between fun hp => ?_)
      refine .reckon (.sort hs hd hp.within fun x hx => ⟨(hpairs x hx).1, (hpairs x hx).2.1⟩) ?_
      intro sorted hperm
      refine .seq (adds_serve hs hd fun x hx => hpairs x (hperm.mem_iff.1 hx)) ?_
      exact fun _ _ => ih h.2

theorem adds_run (hs : src.Surveyed) (hd : dst.Surveyed) :
    Adds c src dst (run c src dst) p fun _ _ => True := by
  have hempty : ∀ t, Queue.Within {} t := fun t => by simp [Queue.Within]
  refine .lift (.enqueue hs (hempty src) .refl) fun x hx => ?_
  refine .lift (.enqueue hd (hempty dst) .refl) fun y hy => ?_
  refine .bind ((adds_descend hs hd _ ⟨hx, hy, by simp⟩).mono fun groups q hgroups => ?_)
  exact .lift (gives_bySize hs hgroups) fun sorted hsorted => adds_serveGroups hs hd hsorted

end Identical

end TreeDelta
