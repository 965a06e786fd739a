import Mathlib.Data.List.TakeWhile
import TreeDelta.Matching.Queue
import TreeDelta.Proofs.CurrentMeasures
import TreeDelta.Proofs.Scores

namespace TreeDelta

variable {c : Config} {t u : Tree} {a b : NodeId}

theorem Rose.size_le_sizeAll {α : Type} {t : Rose α} {ts : List (Rose α)} (h : t ∈ ts) :
    t.size ≤ sizeAll ts := by
  induction ts with
  | nil => cases h
  | cons r ts ih =>
      rw [sizeAll]
      rcases List.mem_cons.1 h with rfl | h
      · exact Nat.le_add_right _ _
      · exact Nat.le_add_left_of_le (ih h)

namespace Config

/-- The priority of a node, by the present shape of its subtree. -/
def priorityAt (c : Config) (t : Tree) (a : NodeId) : Nat :=
  match c.priority with
  | .height => (t.forest.subtree a).height
  | .size => (t.forest.subtree a).size

theorem priorityAt_lt_of_parent (ht : t.forest.Sound) (hab : t.forest.parent? b = some a) :
    c.priorityAt t b < c.priorityAt t a := by
  have hb : t.forest.subtree b ∈ (t.forest.childrenOf a).map t.forest.subtree :=
    List.mem_map_of_mem ((ht.mem_children a b).2 hab)
  unfold priorityAt
  cases c.priority with
  | height =>
      simp only [ht.subtree_eq a, Rose.height]
      exact (Rose.isGreatest_heightAll (List.ne_nil_of_mem hb)).2 ⟨_, hb, rfl⟩
  | size =>
      simp only [ht.subtree_eq a, Rose.size_node]
      exact Nat.lt_succ_of_le (Rose.size_le_sizeAll hb)

theorem priorityAt_le_of_under (ht : t.forest.Sound) (hab : t.forest.Under a b) :
    c.priorityAt t b ≤ c.priorityAt t a := by
  induction hab with
  | refl => exact Nat.le_refl _
  | tail _ hparent ih => exact (Nat.le_of_lt (priorityAt_lt_of_parent ht hparent)).trans ih

theorem eq_of_under_of_priorityAt_le (ht : t.forest.Sound) (hab : t.forest.Under a b)
    (h : c.priorityAt t a ≤ c.priorityAt t b) : a = b := by
  rcases hab.cases_head with rfl | ⟨x, hax, hxb⟩
  · rfl
  · have hlt := priorityAt_lt_of_parent (c := c) ht hax
    have hle := priorityAt_le_of_under (c := c) ht hxb
    omega

theorem priorityAt_congr (h : t.forest.contentTree a = u.forest.contentTree b) :
    c.priorityAt t a = c.priorityAt u b := by
  have hagree := (Rose.agree_map _ _ _ _).1 (Rose.agree_eq_iff.2 h)
  unfold priorityAt
  cases c.priority with
  | height => exact Rose.height_eq hagree
  | size => exact Rose.size_eq hagree

structure Eligible (c : Config) (t : Tree) (a : NodeId) : Prop where
  reaches : t.Reaches a
  least : c.minPriority ≤ c.priorityAt t a

/-- The children that wait in the place of a node that is opened. -/
def heirs (c : Config) (t : Tree) (a : NodeId) : List NodeId :=
  (t.forest.childrenOf a).filter fun x => c.minPriority ≤ c.priorityAt t x

theorem mem_heirs_iff (ht : t.forest.Sound) :
    b ∈ c.heirs t a ↔ t.forest.parent? b = some a ∧ c.minPriority ≤ c.priorityAt t b := by
  rw [heirs, List.mem_filter, ht.mem_children, decide_eq_true_iff]

end Config

namespace Queue

variable {q : Queue} {n : Nat}

def nodes (q : Queue) : List NodeId := q.entries.map (·.2)

theorem nodes_eq (q : Queue) : q.nodes = q.front ++ q.rest.nodes := q.front_append_rest.symm

theorem nodes_eq_nil (h : q.level? = none) : q.nodes = [] := by
  rw [level?, Option.map_eq_none_iff, List.head?_eq_none_iff] at h
  rw [nodes, h, List.map_nil]

/-- Nodes that may wait stand in the queue with their priorities, the greatest first. -/
structure Orderly (c : Config) (t : Tree) (q : Queue) : Prop where
  eligible : ∀ e ∈ q.entries, c.Eligible t e.2
  priority : ∀ e ∈ q.entries, e.1 = c.priorityAt t e.2
  sorted : q.entries.Pairwise fun x y => y.1 ≤ x.1

theorem pairwise_insertEntry (e : Nat × NodeId) {xs : List (Nat × NodeId)}
    (h : xs.Pairwise fun x y => y.1 ≤ x.1) :
    (insertEntry e xs).Pairwise fun x y => y.1 ≤ x.1 := by
  induction xs with
  | nil => exact List.pairwise_singleton _ _
  | cons x xs ih =>
      obtain ⟨hx, hxs⟩ := List.pairwise_cons.1 h
      rw [insertEntry]
      split
      · next hle =>
        refine List.pairwise_cons.2 ⟨fun y hy => ?_, ih hxs⟩
        rcases List.mem_cons.1 ((insertEntry_perm e xs).mem_iff.1 hy) with rfl | hy
        · exact hle
        · exact hx y hy
      · next hlt =>
        refine List.pairwise_cons.2 ⟨fun y hy => ?_, h⟩
        rcases List.mem_cons.1 hy with rfl | hy
        · omega
        · have hle := hx y hy
          omega

theorem lt_of_mem_dropWhile {xs : List (Nat × NodeId)} {e : Nat × NodeId}
    (hsorted : xs.Pairwise fun x y => y.1 ≤ x.1) (hle : ∀ x ∈ xs, x.1 ≤ n)
    (he : e ∈ xs.dropWhile fun x => some x.1 == some n) : e.1 < n := by
  induction xs with
  | nil => cases he
  | cons x xs ih =>
      rw [List.pairwise_cons] at hsorted
      rw [List.forall_mem_cons] at hle
      rw [List.dropWhile_cons] at he
      split at he
      · exact ih hsorted.2 hle.2 he
      · next hne =>
        have hlt : x.1 < n := lt_of_le_of_ne hle.1 (by simpa using hne)
        rcases List.mem_cons.1 he with rfl | he
        · exact hlt
        · exact (hsorted.1 e he).trans_lt hlt

namespace Orderly

theorem empty : Orderly c t {} := ⟨by simp, by simp, .nil⟩

theorem insert (h : q.Orderly c t) (ha : c.Eligible t a) :
    (q.insert (c.priorityAt t a) a).Orderly c t := by
  have hperm := insertEntry_perm (c.priorityAt t a, a) q.entries
  refine ⟨fun e he => ?_, fun e he => ?_, pairwise_insertEntry _ h.sorted⟩
  all_goals rcases List.mem_cons.1 (hperm.mem_iff.1 he) with rfl | he
  · exact ha
  · exact h.eligible e he
  · rfl
  · exact h.priority e he

theorem eligible_of_mem (h : q.Orderly c t) (ha : a ∈ q.nodes) : c.Eligible t a := by
  obtain ⟨e, he, rfl⟩ := List.mem_map.1 ha
  exact h.eligible e he

theorem rest (h : q.Orderly c t) : q.rest.Orderly c t :=
  ⟨fun e he => h.eligible e (List.dropWhile_subset _ he),
    fun e he => h.priority e (List.dropWhile_subset _ he),
    h.sorted.sublist (List.dropWhile_sublist _)⟩

theorem eligible_of_mem_front (h : q.Orderly c t) (ha : a ∈ q.front) : c.Eligible t a :=
  h.eligible_of_mem (q.nodes_eq ▸ List.mem_append_left _ ha)

theorem le_level (h : q.Orderly c t) (hn : q.level? = some n) (ha : a ∈ q.nodes) :
    c.priorityAt t a ≤ n := by
  obtain ⟨e, he, rfl⟩ := List.mem_map.1 ha
  rw [← h.priority e he]
  obtain ⟨first, hfirst, rfl⟩ := Option.map_eq_some_iff.1 hn
  obtain ⟨tail, htail⟩ := List.head?_eq_some_iff.1 hfirst
  have hsorted := h.sorted
  rw [htail] at hsorted he
  rcases List.mem_cons.1 he with rfl | he
  · exact Nat.le_refl _
  · exact (List.pairwise_cons.1 hsorted).1 e he

theorem priority_of_mem_front (h : q.Orderly c t) (hn : q.level? = some n) (ha : a ∈ q.front) :
    c.priorityAt t a = n := by
  obtain ⟨e, he, rfl⟩ := List.mem_map.1 ha
  rw [← h.priority e (List.takeWhile_subset _ he)]
  have hlevel := List.mem_takeWhile_imp he
  rw [hn, beq_iff_eq] at hlevel
  exact Option.some.inj hlevel

theorem lt_level_of_mem_rest (h : q.Orderly c t) (hn : q.level? = some n) (ha : a ∈ q.rest.nodes) :
    c.priorityAt t a < n := by
  obtain ⟨e, he, rfl⟩ := List.mem_map.1 ha
  rw [← h.priority e (List.dropWhile_subset _ he)]
  refine lt_of_mem_dropWhile h.sorted (fun x hx => ?_) (hn ▸ he)
  rw [h.priority x hx]
  exact h.le_level hn (List.mem_map_of_mem hx)

end Orderly

structure Opened (c : Config) (t : Tree) (q : Queue) (ids : List NodeId) (q' : Queue) : Prop where
  orderly : q'.Orderly c t
  nodes : q'.nodes.Perm (ids.flatMap (c.heirs t) ++ q.nodes)

end Queue

variable [TokenHash]

theorem Config.priorityOf_measureOf :
    c.priorityOf (t.forest.measureOf t.root a) = c.priorityAt t a := by
  unfold priorityOf priorityAt
  cases c.priority <;> rfl

theorem Config.enqueue_eq_ok {q : Queue} (h : t.Surveyed) (ha : t.Reaches a) :
    c.enqueue t q a = .ok (if c.minPriority ≤ c.priorityAt t a then
      q.insert (c.priorityAt t a) a else q) := by
  rw [enqueue, h.measure_eq_ok ha]
  change Except.ok _ = _
  rw [priorityOf_measureOf]

namespace Gives

variable {q : Queue} {ids : List NodeId}

theorem enqueue_orderly (h : t.Surveyed) (hq : q.Orderly c t) (ha : t.Reaches a) :
    Gives (c.enqueue t q a) fun q' => q'.Orderly c t ∧
      q'.nodes.Perm (([a].filter fun x => c.minPriority ≤ c.priorityAt t x) ++ q.nodes) := by
  refine ⟨_, Config.enqueue_eq_ok h ha, ?_⟩
  split
  · next hmin =>
    rw [List.filter_cons_of_pos (by simpa using hmin)]
    exact ⟨hq.insert ⟨ha, hmin⟩, (Queue.insertEntry_perm _ _).map _⟩
  · next hmin =>
    rw [List.filter_cons_of_neg (by simpa using hmin)]
    exact ⟨hq, .refl _⟩

theorem enqueueAll_orderly (h : t.Surveyed) (hq : q.Orderly c t) (hids : ∀ x ∈ ids, t.Reaches x) :
    Gives (c.enqueueAll t q ids) fun q' => q'.Orderly c t ∧
      q'.nodes.Perm ((ids.filter fun x => c.minPriority ≤ c.priorityAt t x) ++ q.nodes) := by
  induction ids generalizing q with
  | nil => exact .ok ⟨hq, .refl _⟩
  | cons x ids ih =>
      rw [List.forall_mem_cons] at hids
      refine (enqueue_orderly h hq hids.1).bind fun q' hq' =>
        (ih hq'.1 hids.2).mono fun q'' hq'' => ?_
      refine ⟨hq''.1, (hq''.2.trans (hq'.2.append_left _)).trans ?_⟩
      rw [← List.singleton_append (l := ids), List.filter_append, ← List.append_assoc]
      exact List.perm_append_comm.append_right _

theorem opened_openNode (h : t.Surveyed) (hq : q.Orderly c t) (ha : t.Reaches a) :
    Gives (c.openNode t q a) (q.Opened c t [a]) := by
  refine (of_eq (Tree.children_eq_ok (h.has ha))).bind fun cs hcs => ?_
  subst hcs
  refine (enqueueAll_orderly h hq fun x hx => ?_).mono fun q' hq' => ⟨hq'.1, ?_⟩
  · exact ha.tail ((h.sound.forest.mem_children a x).1 hx)
  · rw [List.flatMap_singleton]
    exact hq'.2

theorem opened_openNodes (h : t.Surveyed) (hq : q.Orderly c t) (hids : ∀ x ∈ ids, t.Reaches x) :
    Gives (c.openNodes t q ids) (q.Opened c t ids) := by
  induction ids generalizing q with
  | nil => exact .ok ⟨hq, .refl _⟩
  | cons x ids ih =>
      rw [List.forall_mem_cons] at hids
      refine (opened_openNode h hq hids.1).bind fun q' hq' =>
        (ih hq'.orderly hids.2).mono fun q'' hq'' => ⟨hq''.orderly, ?_⟩
      refine (hq''.nodes.trans (hq'.nodes.append_left _)).trans ?_
      rw [← List.singleton_append (l := ids), List.flatMap_append, ← List.append_assoc]
      exact List.perm_append_comm.append_right _

theorem opened_openFront (h : t.Surveyed) (hq : q.Orderly c t) :
    Gives (c.openFront t q) (q.rest.Opened c t q.front) :=
  opened_openNodes h hq.rest fun _ ha => (hq.eligible_of_mem_front ha).reaches

end Gives

end TreeDelta
