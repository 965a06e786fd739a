import TreeDelta.Proofs.MatchingFuel
import TreeDelta.Proofs.RenamedPairings

namespace TreeDelta

variable {c : Config} {r s : NodeId → NodeId → Prop} {t u : Tree} {a b : NodeId}

def Queue.Renamed (r : NodeId → NodeId → Prop) (q q' : Queue) : Prop :=
  List.Forall₂ (Both (· = ·) r) q.entries q'.entries

namespace Queue.Renamed

variable {q q' : Queue}

theorem insertEntry {e e' : Nat × NodeId} (he : Both (· = ·) r e e')
    {xs xs' : List (Nat × NodeId)} (h : List.Forall₂ (Both (· = ·) r) xs xs') :
    List.Forall₂ (Both (· = ·) r) (Queue.insertEntry e xs) (Queue.insertEntry e' xs') := by
  induction h with
  | nil => exact .cons he .nil
  | @cons x x' xs xs' hx htail ih =>
      rw [Queue.insertEntry, Queue.insertEntry, he.1, hx.1]
      split
      · exact .cons hx ih
      · exact .cons he (.cons hx htail)

theorem insert (h : Queue.Renamed r q q') (hab : r a b) (priority : Nat) :
    Queue.Renamed r (q.insert priority a) (q'.insert priority b) :=
  insertEntry (Both.mk rfl hab) h

theorem level?_eq (h : Queue.Renamed r q q') : q.level? = q'.level? := by
  unfold level?
  rcases (List.Forall₂.head? h).cases with ⟨hnone, hnone'⟩ | ⟨e, e', he, he', hee⟩
  · rw [hnone, hnone']
  · rw [he, he', Option.map_some, Option.map_some, hee.1]

theorem front (h : Queue.Renamed r q q') : List.Forall₂ r q.front q'.front := by
  rw [Queue.front, Queue.front, h.level?_eq]
  exact List.rel_map (fun _ _ he => he.2)
    (List.Forall₂.takeWhile h fun _ _ he => by rw [he.1])

theorem rest (h : Queue.Renamed r q q') : Queue.Renamed r q.rest q'.rest := by
  rw [Queue.rest, Queue.rest, h.level?_eq]
  exact List.Forall₂.dropWhile h fun _ _ he => by rw [he.1]

variable [TokenHash]

theorem enqueue (h : Queue.Renamed r q q') (ht : t.Renamed r u) (hab : r a b) :
    Lockstep (Queue.Renamed r) (c.enqueue t q a) (c.enqueue u q' b) := by
  refine .after (ht.measure_eq hab) fun m => .pure ?_
  split
  · exact h.insert hab _
  · exact h

theorem enqueueAll (h : Queue.Renamed r q q') (ht : t.Renamed r u)
    {ids ids' : List NodeId}
    (hids : List.Forall₂ r ids ids') :
    Lockstep (Queue.Renamed r) (c.enqueueAll t q ids) (c.enqueueAll u q' ids') := by
  induction hids generalizing q q' with
  | nil => exact .ok h
  | cons hx _ ih => exact (h.enqueue ht hx).bind fun _ _ hq => ih hq

theorem openNode (h : Queue.Renamed r q q') (ht : t.Renamed r u) (hab : r a b) :
    Lockstep (Queue.Renamed r) (c.openNode t q a) (c.openNode u q' b) :=
  (ht.children hab).bind fun _ _ hcs => h.enqueueAll ht hcs

theorem openNodes (h : Queue.Renamed r q q') (ht : t.Renamed r u)
    {ids ids' : List NodeId}
    (hids : List.Forall₂ r ids ids') :
    Lockstep (Queue.Renamed r) (c.openNodes t q ids) (c.openNodes u q' ids') := by
  induction hids generalizing q q' with
  | nil => exact .ok h
  | cons hx _ ih => exact (h.openNode ht hx).bind fun _ _ hq => ih hq

theorem openFront (h : Queue.Renamed r q q') (ht : t.Renamed r u) :
    Lockstep (Queue.Renamed r) (c.openFront t q) (c.openFront u q') :=
  h.rest.openNodes ht h.front

end Queue.Renamed

structure Group.Renamed (r s : NodeId → NodeId → Prop) (g g' : Group) : Prop where
  key : g.key = g'.key
  src : List.Forall₂ r g.src g'.src
  dst : List.Forall₂ s g.dst g'.dst

abbrev Group.RenamedAll (r s : NodeId → NodeId → Prop) : List Group → List Group → Prop :=
  List.Forall₂ (Group.Renamed r s)

namespace Group

variable {groups groups' : List Group}

theorem renamed_gather (key : UInt64) {add add' : Group → Group}
    (hadd : ∀ g g', Renamed r s g g' → Renamed r s (add g) (add' g'))
    (h : RenamedAll r s groups groups') :
    RenamedAll r s (gather key add groups) (gather key add' groups') := by
  induction h with
  | nil => exact .cons (hadd _ _ ⟨rfl, .nil, .nil⟩) .nil
  | @cons g g' gs gs' hg htail ih =>
      rw [gather, gather, hg.key]
      split
      · exact .cons (hadd _ _ hg) htail
      · exact .cons hg ih

theorem lockstep_gatherSrc [TokenHash] (ht : t.Renamed r u) (h : RenamedAll r s groups groups')
    {ids ids' : List NodeId} (hids : List.Forall₂ r ids ids') :
    Lockstep (RenamedAll r s) (gatherSrc t groups ids) (gatherSrc u groups' ids') := by
  induction hids generalizing groups groups' with
  | nil => exact .ok h
  | cons hx _ ih =>
      refine .after (ht.measure_eq hx) fun m => ih (renamed_gather m.hash (fun g g' hg => ?_) h)
      exact ⟨hg.key, List.rel_append hg.src (.cons hx .nil), hg.dst⟩

theorem lockstep_gatherDst [TokenHash] (ht : t.Renamed s u) (h : RenamedAll r s groups groups')
    {ids ids' : List NodeId} (hids : List.Forall₂ s ids ids') :
    Lockstep (RenamedAll r s) (gatherDst t groups ids) (gatherDst u groups' ids') := by
  induction hids generalizing groups groups' with
  | nil => exact .ok h
  | cons hx _ ih =>
      refine .after (ht.measure_eq hx) fun m => ih (renamed_gather m.hash (fun g g' hg => ?_) h)
      exact ⟨hg.key, hg.src, List.rel_append hg.dst (.cons hx .nil)⟩

end Group

structure Descent.Renamed (r s : NodeId → NodeId → Prop) (d d' : Descent) : Prop where
  src : Queue.Renamed r d.src d'.src
  dst : Queue.Renamed s d.dst d'.dst
  deferred : Group.RenamedAll r s d.deferred d'.deferred

namespace Identical

variable [TokenHash] {src src' dst dst' : Tree} {a a' b b' : NodeId} {d d' : Descent}
  (hs : src.Renamed r src') (hd : dst.Renamed s dst')
include hs hd

theorem inStep_pairIfFree (ha : r a a') (hb : s b b') :
    InStep r s (· = ·) (pairIfFree src dst a b) (pairIfFree src' dst' a' b') := by
  refine .get fun p p' hp => .after (hp.subtreesFree_eq hs hd ha hb) fun free => ?_
  cases free with
  | false => exact .pure rfl
  | true => exact (inStep_addSubtrees hs hd ha hb).bind fun _ _ _ => .pure rfl

theorem inStep_pairUnique (ha : r a a') (hb : s b b') :
    InStep r s (· = ·) (pairUnique src dst a b) (pairUnique src' dst' a' b') := by
  refine .after (Tree.isomorphic_eq_of_renamed hs hd ha hb) fun same => ?_
  cases same with
  | false => exact .pure rfl
  | true => exact inStep_pairIfFree hs hd ha hb

theorem inStep_settle (h : Descent.Renamed r s d d') {g g' : Group} (hg : Group.Renamed r s g g') :
    InStep r s (Descent.Renamed r s) (settle c src dst d g) (settle c src' dst' d' g') := by
  obtain ⟨k, as, bs⟩ := g
  obtain ⟨k', as', bs'⟩ := g'
  have hsrc : List.Forall₂ r as as' := hg.src
  have hdst : List.Forall₂ s bs bs' := hg.dst
  have hleft : InStep r s (Descent.Renamed r s)
      (do return { d with src := ← c.openNodes src d.src as })
      (do return { d' with src := ← c.openNodes src' d'.src as' }) :=
    .lift_bind (h.src.openNodes hs hsrc) fun _ _ hx => .pure ⟨hx, h.dst, h.deferred⟩
  have hright : InStep r s (Descent.Renamed r s)
      (do return { d with dst := ← c.openNodes dst d.dst bs })
      (do return { d' with dst := ← c.openNodes dst' d'.dst bs' }) :=
    .lift_bind (h.dst.openNodes hd hdst) fun _ _ hy => .pure ⟨h.src, hy, h.deferred⟩
  have hlater : InStep r s (Descent.Renamed r s)
      (pure { d with deferred := d.deferred ++ [⟨k, as, bs⟩] } : Pairer Descent)
      (pure { d' with deferred := d'.deferred ++ [⟨k', as', bs'⟩] }) :=
    .pure ⟨h.src, h.dst, List.rel_append h.deferred (.cons hg .nil)⟩
  cases hdst with
  | nil =>
      cases hsrc with
      | nil => exact hleft
      | cons ha has => cases has <;> exact hleft
  | cons hb hbs =>
      cases hsrc with
      | nil => cases hbs <;> exact hright
      | cons ha has =>
          cases has with
          | cons _ _ => cases hbs <;> exact hlater
          | nil =>
              cases hbs with
              | cons _ _ => exact hlater
              | nil =>
                  refine (inStep_pairUnique hs hd ha hb).bind ?_
                  rintro paired _ rfl
                  cases paired with
                  | true => exact .pure h
                  | false =>
                      refine .lift_bind (h.src.openNode hs ha) fun _ _ hx => ?_
                      refine .lift_bind (h.dst.openNode hd hb) fun _ _ hy => ?_
                      exact .pure ⟨hx, hy, h.deferred⟩

theorem inStep_settleAll (h : Descent.Renamed r s d d') {groups groups' : List Group}
    (hg : Group.RenamedAll r s groups groups') :
    InStep r s (Descent.Renamed r s) (settleAll c src dst d groups)
      (settleAll c src' dst' d' groups') := by
  induction hg generalizing d d' with
  | nil => exact .pure h
  | cons hg _ ih => exact (inStep_settle hs hd h hg).bind fun _ _ hnext => ih hnext

theorem inStep_settleLevel (h : Descent.Renamed r s d d') :
    InStep r s (Descent.Renamed r s) (settleLevel c src dst d) (settleLevel c src' dst' d') := by
  refine .lift_bind (Group.lockstep_gatherSrc (s := s) hs .nil h.src.front) fun gs gs' hgs => ?_
  refine .lift_bind (Group.lockstep_gatherDst hd hgs h.dst.front) fun gs gs' hgs => ?_
  have hrest : Descent.Renamed r s { d with src := d.src.rest, dst := d.dst.rest }
      { d' with src := d'.src.rest, dst := d'.dst.rest } :=
    ⟨h.src.rest, h.dst.rest, h.deferred⟩
  exact inStep_settleAll hs hd hrest hgs

theorem inStep_step (h : Descent.Renamed r s d d') :
    InStep r s (Sum.LiftRel (Descent.Renamed r s) (Group.RenamedAll r s)) (step c src dst d)
      (step c src' dst' d') := by
  unfold step
  rw [h.src.level?_eq, h.dst.level?_eq]
  split
  · split
    · exact (inStep_settleLevel hs hd h).bind fun _ _ hnext => .pure (.inl hnext)
    · split
      · exact .lift_bind (h.src.openFront hs) fun _ _ hx => .pure (.inl ⟨hx, h.dst, h.deferred⟩)
      · exact .lift_bind (h.dst.openFront hd) fun _ _ hy => .pure (.inl ⟨h.src, hy, h.deferred⟩)
  · exact .pure (.inr h.deferred)

theorem inStep_descend (fuel : Nat) (h : Descent.Renamed r s d d') :
    InStep r s (Group.RenamedAll r s) (descend c src dst fuel d)
      (descend c src' dst' fuel d') := by
  induction fuel generalizing d d' with
  | zero => exact .pure h.deferred
  | succ fuel ih =>
      refine (inStep_step hs hd h).bind fun out out' hout => ?_
      cases hout with
      | inl hnext => exact ih hnext
      | inr hgroups => exact .pure hgroups

omit hd in
theorem maxSize_eq_of_renamed {ids ids' : List NodeId} (hids : List.Forall₂ r ids ids') :
    maxSize src ids = maxSize src' ids' := by
  induction hids with
  | nil => rfl
  | cons hx _ ih => rw [maxSize, maxSize, hs.measure_eq hx, ih]

theorem lockstep_candidates {g g' : Group} (hg : Group.Renamed r s g g') :
    Lockstep (List.Forall₂ (Both r s)) (candidates src dst g) (candidates src' dst' g') := by
  have hall : List.Forall₂ (Both r s) (g.src.flatMap fun a => g.dst.map fun b => (a, b))
      (g'.src.flatMap fun a => g'.dst.map fun b => (a, b)) :=
    List.rel_flatMap hg.src fun _ _ ha => List.rel_map (fun _ _ hb => ⟨ha, hb⟩) hg.dst
  exact .filterM hall fun _ _ hx => Tree.isomorphic_eq_of_renamed hs hd hx.1 hx.2

theorem inStep_serve {pairs pairs' : List (NodeId × NodeId)}
    (h : List.Forall₂ (Both r s) pairs pairs') :
    InStep r s (fun _ _ => True) (serve src dst pairs) (serve src' dst' pairs') := by
  induction h with
  | nil => exact .pure trivial
  | cons hx _ ih => exact (inStep_pairIfFree hs hd hx.1 hx.2).bind fun _ _ _ => ih

theorem inStep_serveGroups {groups groups' : List Group}
    (h : Group.RenamedAll r s groups groups') :
    InStep r s (fun _ _ => True) (serveGroups src dst groups) (serveGroups src' dst' groups') := by
  induction h with
  | nil => exact .pure trivial
  | cons hg _ ih =>
      refine .lift_bind (lockstep_candidates hs hd hg) fun pairs pairs' hpairs => ?_
      refine .get fun p p' hp => ?_
      refine .lift_bind (Ranking.sort_of_renamed hs hd hp hpairs) fun sorted sorted' hsorted => ?_
      exact (inStep_serve hs hd hsorted).bind fun _ _ _ => ih

omit hd in
theorem lockstep_bySize {groups groups' : List Group} (h : Group.RenamedAll r s groups groups') :
    Lockstep (Group.RenamedAll r s) (bySize src groups) (bySize src' groups') := by
  have hsized : Lockstep (List.Forall₂ (Both (· = ·) (Group.Renamed r s)))
      (groups.mapM fun g => return (← maxSize src g.src, g))
      (groups'.mapM fun g => return (← maxSize src' g.src, g)) :=
    .mapM h fun g g' hg => .after (maxSize_eq_of_renamed hs hg.src) fun n => .pure ⟨rfl, hg⟩
  refine hsized.bind fun sized sized' hsized => .pure ?_
  exact List.rel_map (fun _ _ hx => hx.2) (forall₂_mergeSort hsized fun x y => y ≤ x)

omit hs hd in
theorem weight_start {t : Tree} (ht : t.Surveyed) :
    IfGives (c.enqueue t {} t.root) fun q => q.weight t ≤ t.forest.size := by
  refine IfGives.enqueue.mono fun q hq => hq.trans ?_
  rw [← Rose.length_preorder, Queue.weight, List.map_nil, Tree.load_nil, Nat.zero_add]
  exact Forest.length_le_size (ht.sound.forest.nodup_preorder t.root)
    fun a ha => ht.has (ht.sound.forest.mem_preorder_iff.1 ha)

theorem inStep_descend_start (h : Descent.Renamed r s d d') {m m' : Nat}
    (hm : d.weight src dst ≤ m) (hm' : d'.weight src' dst' ≤ m') :
    InStep r s (Group.RenamedAll r s) (descend c src dst m d) (descend c src' dst' m' d') := by
  intro p p' hp
  rw [run_descend_eq hs.left.sound.forest hd.left.sound.forest hm
      (hm.trans (Nat.le_max_left m m')),
    run_descend_eq hs.right.sound.forest hd.right.sound.forest hm'
      (hm'.trans (Nat.le_max_right m m'))]
  exact inStep_descend hs hd _ h p p' hp

theorem inStep_run : InStep r s (fun _ _ => True) (run c src dst) (run c src' dst') := by
  have hstart : ∀ {r : NodeId → NodeId → Prop} {t u : Tree}, t.Renamed r u →
      Lockstep (fun q q' => (Queue.Renamed r q q' ∧ q.weight t ≤ t.forest.size) ∧
        q'.weight u ≤ u.forest.size) (c.enqueue t {} t.root) (c.enqueue u {} u.root) := by
    intro r t u ht
    have hempty : Queue.Renamed r {} {} := List.Forall₂.nil
    exact ((hempty.enqueue ht ht.root).and_left (weight_start ht.left)).and_right
      (weight_start ht.right)
  refine .lift_bind (hstart hs) fun x x' hx => .lift_bind (hstart hd) fun y y' hy => ?_
  refine (inStep_descend_start hs hd ⟨hx.1.1, hy.1.1, .nil⟩ ?_ ?_).bind fun gs gs' hgs => ?_
  · simp only [Descent.weight]
    omega
  · simp only [Descent.weight]
    omega
  · exact .lift_bind (lockstep_bySize hs hgs) fun sorted sorted' hsorted =>
      inStep_serveGroups hs hd hsorted

end Identical

end TreeDelta
