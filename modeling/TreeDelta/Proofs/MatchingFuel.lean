import Mathlib.Algebra.GroupWithZero.Nat
import TreeDelta.Proofs.IdenticalPhase
import TreeDelta.Proofs.ContainerPhase

namespace TreeDelta

variable {α β : Type}

/-- The computation may fail, but whatever it gives, `post` holds of it. -/
abbrev IfGives (x : Except Fault α) (post : α → Prop) : Prop := GivesOr (fun _ => True) x post

abbrev IfYields (m : Pairer α) (p : Pairing) (post : α → Pairing → Prop) : Prop :=
  Yields (fun _ => True) m p post

theorem IfGives.always (x : Except Fault α) : IfGives x fun _ => True := by
  cases x with
  | error e => exact .inr ⟨e, rfl, trivial⟩
  | ok a => exact .ok trivial

theorem IfYields.of_forall {m : Pairer α} {p : Pairing} {post : α → Pairing → Prop}
    (h : ∀ a q, post a q) : IfYields m p post := by
  unfold IfYields Yields
  split
  · exact h _ _
  · trivial

theorem IfYields.run_eq (m : Pairer α) (p : Pairing) :
    IfYields m p fun x q => m.run p = (.ok x, q) := by
  unfold IfYields Yields
  split
  · next x q hrun => exact hrun
  · trivial

theorem Yields.and_if {excuse : Fault → Prop} {m : Pairer α} {p : Pairing}
    {post post' : α → Pairing → Prop}
    (h : Yields excuse m p post) (h' : IfYields m p post') :
    Yields excuse m p fun x q => post x q ∧ post' x q := by
  unfold IfYields at h'
  unfold Yields at h h' ⊢
  generalize m.run p = out at h h' ⊢
  rcases out with ⟨fault | x, q⟩
  · exact h
  · exact ⟨h, h'⟩

theorem run_bind_congr {m : Pairer α} {k k' : α → Pairer β} {p : Pairing}
    (h : IfYields m p fun a q => (k a).run q = (k' a).run q) :
    (m >>= k).run p = (m >>= k').run p := by
  have hrun : ∀ k : α → Pairer β,
      (m >>= k).run p = (ExceptT.bindCont k (m.run p).1).run (m.run p).2 := fun _ => rfl
  unfold IfYields Yields at h
  rw [hrun, hrun]
  generalize m.run p = out at h ⊢
  rcases out with ⟨fault | a, q⟩
  · rfl
  · exact h

section Weight

variable {c : Config} {t : Tree} {a : NodeId} {q : Queue} {ids : List NodeId}

def Tree.load (t : Tree) (ids : List NodeId) : Nat :=
  (ids.map fun a => (t.forest.subtree a).size).sum

def Tree.below (t : Tree) (ids : List NodeId) : Nat :=
  (ids.map fun a => (t.forest.subtree a).size - 1).sum

def Queue.weight (q : Queue) (t : Tree) : Nat := t.load (q.entries.map (·.2))

@[simp] theorem Tree.load_nil (t : Tree) : t.load [] = 0 := rfl

@[simp] theorem Tree.load_cons (t : Tree) (a : NodeId) (ids : List NodeId) :
    t.load (a :: ids) = (t.forest.subtree a).size + t.load ids := by
  simp [Tree.load]

@[simp] theorem Tree.below_nil (t : Tree) : t.below [] = 0 := rfl

@[simp] theorem Tree.below_cons (t : Tree) (a : NodeId) (ids : List NodeId) :
    t.below (a :: ids) = (t.forest.subtree a).size - 1 + t.below ids := by
  simp [Tree.below]

theorem Tree.below_append (t : Tree) (ids ids' : List NodeId) :
    t.below (ids ++ ids') = t.below ids + t.below ids' := by
  simp [Tree.below]

theorem Tree.load_eq (t : Tree) (ids : List NodeId) : t.load ids = t.below ids + ids.length := by
  induction ids with
  | nil => rfl
  | cons a ids ih =>
      have hpos := (t.forest.subtree a).size_pos
      rw [Tree.load_cons, Tree.below_cons, List.length_cons, ih]
      omega

theorem Queue.weight_insert (q : Queue) (priority : Nat) (a : NodeId) :
    (q.insert priority a).weight t = (t.forest.subtree a).size + q.weight t := by
  have hperm := ((insertEntry_perm (priority, a) q.entries).map (·.2)).map
    fun a => (t.forest.subtree a).size
  simpa [Queue.weight, Tree.load, Queue.insert] using hperm.sum_nat

theorem Queue.weight_eq (q : Queue) : q.weight t = t.load q.front + q.rest.weight t := by
  rw [Queue.weight, ← q.front_append_rest, Queue.weight, Tree.load, List.map_append,
    List.sum_append, Tree.load, Tree.load]

theorem Queue.front_ne_nil {n : Nat} (h : q.level? = some n) : 0 < q.front.length := by
  obtain ⟨entries⟩ := q
  cases entries with
  | nil => cases h
  | cons e entries => simp [Queue.front, Queue.level?]

theorem Queue.level?_eq_none (h : q.weight t = 0) : q.level? = none := by
  obtain ⟨entries⟩ := q
  cases entries with
  | nil => rfl
  | cons e entries =>
      have hpos := (t.forest.subtree e.2).size_pos
      rw [Queue.weight, List.map_cons, Tree.load_cons] at h
      omega

namespace IfGives

theorem enqueue : IfGives (c.enqueue t q a) fun q' =>
    q'.weight t ≤ q.weight t + (t.forest.subtree a).size := by
  refine (IfGives.always _).bind fun m _ => .pure ?_
  split
  · rw [Queue.weight_insert, Nat.add_comm]
  · exact Nat.le_add_right _ _

theorem enqueueAll (ids : List NodeId) :
    IfGives (c.enqueueAll t q ids) fun q' => q'.weight t ≤ q.weight t + t.load ids := by
  induction ids generalizing q with
  | nil => exact .ok (Nat.le_refl _)
  | cons a ids ih =>
      refine enqueue.bind fun q' hq' => ih.mono fun q'' hq'' => ?_
      rw [Tree.load_cons]
      omega

theorem openNode (h : t.forest.Sound) : IfGives (c.openNode t q a) fun q' =>
    q'.weight t ≤ q.weight t + ((t.forest.subtree a).size - 1) := by
  have hload : t.load (t.forest.childrenOf a) = (t.forest.subtree a).size - 1 := by
    rw [h.subtree_eq, Rose.size_node, Nat.add_sub_cancel, Rose.sizeAll_eq_sum, List.map_map]
    rfl
  have hchildren : IfGives (t.children a) (· = t.forest.childrenOf a) := by
    by_cases ha : t.forest.has a
    · exact .inl (.of_eq (Tree.children_eq_ok ha))
    · refine .inr ⟨.unknownNode, ?_, trivial⟩
      rw [Tree.children, Forest.node, Option.not_isSome_iff_eq_none.1 ha]
      rfl
  refine hchildren.bind fun cs hcs => ?_
  rw [hcs, ← hload]
  exact enqueueAll _

theorem openNodes (h : t.forest.Sound) (ids : List NodeId) :
    IfGives (c.openNodes t q ids) fun q' => q'.weight t ≤ q.weight t + t.below ids := by
  induction ids generalizing q with
  | nil => exact .ok (Nat.le_refl _)
  | cons a ids ih =>
      refine (openNode h).bind fun q' hq' => ih.mono fun q'' hq'' => ?_
      rw [Tree.below_cons]
      omega

theorem openFront (h : t.forest.Sound) {n : Nat} (hlevel : q.level? = some n) :
    IfGives (c.openFront t q) fun q' => q'.weight t < q.weight t := by
  refine (openNodes h q.front).mono fun q' hq' => ?_
  have hfront := Queue.front_ne_nil hlevel
  rw [q.weight_eq, Tree.load_eq]
  omega

end IfGives

end Weight

namespace Group

variable {src dst : Tree} {groups : List Group}

def below (g : Group) (src dst : Tree) : Nat := src.below g.src + dst.below g.dst

def belowAll (groups : List Group) (src dst : Tree) : Nat :=
  (groups.map fun g => g.below src dst).sum

theorem belowAll_gather (key : UInt64) {add : Group → Group} {n : Nat}
    (hadd : ∀ g : Group, (add g).below src dst = g.below src dst + n) :
    belowAll (gather key add groups) src dst = belowAll groups src dst + n := by
  induction groups with
  | nil =>
      rw [gather]
      simp only [belowAll, List.map_cons, List.map_nil, List.sum_cons, List.sum_nil, hadd]
      simp [below]
  | cons g groups ih =>
      rw [gather]
      split
      · simp only [belowAll, List.map_cons, List.sum_cons, hadd]
        omega
      · simp only [belowAll, List.map_cons, List.sum_cons] at ih ⊢
        omega

theorem ifGives_gatherSrc (dst : Tree) (ids : List NodeId) : IfGives (gatherSrc src groups ids) fun gs =>
    belowAll gs src dst = belowAll groups src dst + src.below ids := by
  induction ids generalizing groups with
  | nil => exact .ok rfl
  | cons a ids ih =>
      refine (IfGives.always _).bind fun m _ => ?_
      refine ih.mono fun gs hgs => ?_
      rw [hgs, belowAll_gather m.hash (n := (src.forest.subtree a).size - 1), Tree.below_cons,
        Nat.add_assoc]
      intro g
      simp only [below, Tree.below_append, Tree.below_cons, Tree.below_nil]
      omega

theorem ifGives_gatherDst (src : Tree) (ids : List NodeId) : IfGives (gatherDst dst groups ids) fun gs =>
    belowAll gs src dst = belowAll groups src dst + dst.below ids := by
  induction ids generalizing groups with
  | nil => exact .ok rfl
  | cons a ids ih =>
      refine (IfGives.always _).bind fun m _ => ?_
      refine ih.mono fun gs hgs => ?_
      rw [hgs, belowAll_gather m.hash (n := (dst.forest.subtree a).size - 1), Tree.below_cons,
        Nat.add_assoc]
      intro g
      simp only [below, Tree.below_append, Tree.below_cons, Tree.below_nil]
      omega

end Group

/-- The number of nodes in the subtrees that wait on both sides. -/
def Descent.weight (d : Descent) (src dst : Tree) : Nat := d.src.weight src + d.dst.weight dst

namespace Identical

variable {c : Config} {src dst : Tree} {d : Descent} {p : Pairing}
  (hs : src.forest.Sound) (hd : dst.forest.Sound)
include hs hd

theorem ifYields_settle (g : Group) : IfYields (settle c src dst d g) p fun next _ =>
    next.weight src dst ≤ d.weight src dst + g.below src dst := by
  unfold settle
  split
  · next a b hga hgb =>
    refine .bind (IfYields.of_forall fun paired q => ?_)
    split
    · exact Nat.le_add_right _ _
    · refine .bind (Yields.liftOr (IfGives.openNode hs) fun x hx => ?_)
      refine .bind (Yields.liftOr (IfGives.openNode hd) fun y hy => .pure ?_)
      simp only [Descent.weight, Group.below, hga, hgb, Tree.below_cons, Tree.below_nil]
      omega
  · refine .bind (Yields.liftOr (IfGives.openNodes hs _) fun x hx => .pure ?_)
    simp only [Descent.weight, Group.below]
    omega
  · refine .bind (Yields.liftOr (IfGives.openNodes hd _) fun y hy => .pure ?_)
    simp only [Descent.weight, Group.below]
    omega
  · exact .pure (Nat.le_add_right _ _)

theorem ifYields_settleAll (groups : List Group) :
    IfYields (settleAll c src dst d groups) p fun next _ =>
      next.weight src dst ≤ d.weight src dst + Group.belowAll groups src dst := by
  induction groups generalizing d p with
  | nil => exact .pure (Nat.le_refl _)
  | cons g groups ih =>
      refine .bind ((ifYields_settle hs hd g).mono fun next q hnext => ih.mono fun last _ hlast => ?_)
      simp only [Group.belowAll, List.map_cons, List.sum_cons] at hlast ⊢
      omega

theorem ifYields_settleLevel {m n : Nat} (hm : d.src.level? = some m) (hn : d.dst.level? = some n) :
    IfYields (settleLevel c src dst d) p fun next _ => next.weight src dst < d.weight src dst := by
  refine .bind (Yields.liftOr (Group.ifGives_gatherSrc dst _) fun gs hgs => ?_)
  refine .bind (Yields.liftOr (Group.ifGives_gatherDst src _) fun gs' hgs' => ?_)
  refine (ifYields_settleAll hs hd gs').mono fun next _ hnext => ?_
  have hleft := Queue.front_ne_nil hm
  have hright := Queue.front_ne_nil hn
  have hsrc := d.src.weight_eq (t := src)
  have hdst := d.dst.weight_eq (t := dst)
  rw [Tree.load_eq] at hsrc hdst
  rw [hgs', hgs] at hnext
  simp only [Descent.weight, Group.belowAll, List.map_nil, List.sum_nil] at hnext ⊢
  omega

theorem ifYields_step : IfYields (step c src dst d) p fun out _ =>
    ∀ next, out = .inl next → next.weight src dst < d.weight src dst := by
  unfold step
  split
  · next m n hm hn =>
    split
    · refine .bind ((ifYields_settleLevel hs hd hm hn).mono fun next _ hnext => .pure ?_)
      rintro _ ⟨⟩
      exact hnext
    · split
      · refine .bind (Yields.liftOr (IfGives.openFront hs hm) fun x hx => .pure ?_)
        rintro _ ⟨⟩
        simp only [Descent.weight]
        omega
      · refine .bind (Yields.liftOr (IfGives.openFront hd hn) fun y hy => .pure ?_)
        rintro _ ⟨⟩
        simp only [Descent.weight]
        omega
  · exact .pure nofun

omit hs hd in
theorem run_descend_zero (h : d.weight src dst = 0) (n : Nat) :
    (descend c src dst n d).run p = (.ok d.deferred, p) := by
  cases n with
  | zero => rfl
  | succ n =>
      have hnone : d.src.level? = none := Queue.level?_eq_none (t := src) (Nat.eq_zero_of_add_eq_zero h).1
      rw [descend, step, hnone]
      rfl

theorem run_descend_eq {m n : Nat} (hm : d.weight src dst ≤ m) (hn : d.weight src dst ≤ n) :
    (descend c src dst m d).run p = (descend c src dst n d).run p := by
  induction m generalizing n d p with
  | zero => rw [run_descend_zero (Nat.le_zero.1 hm), run_descend_zero (Nat.le_zero.1 hm)]
  | succ m ih =>
      cases n with
      | zero => rw [run_descend_zero (Nat.le_zero.1 hn), run_descend_zero (Nat.le_zero.1 hn)]
      | succ n =>
          rw [descend, descend]
          refine run_bind_congr ((ifYields_step hs hd).mono fun out q hout => ?_)
          cases out with
          | inr groups => rfl
          | inl next =>
              have hlt := hout next rfl
              exact ih (by omega) (by omega)

end Identical

theorem Pairing.Between.length_le {src dst : Tree} {p : Pairing} (h : p.Between src dst)
    (hs : src.Sound) : p.pairs.length ≤ src.forest.size := by
  have hinj : (p.pairs.map Prod.fst).Nodup := by
    refine h.sound.nodup_pairs.map_on ?_
    rintro ⟨a, b⟩ hab ⟨_, b'⟩ hab' rfl
    rw [h.sound.mem_pairs] at hab hab'
    rw [Option.some.inj (hab.symm.trans hab')]
  have hhas : ∀ a ∈ p.pairs.map Prod.fst, src.forest.has a := by
    intro a ha
    obtain ⟨⟨a, b⟩, hab, rfl⟩ := List.mem_map.1 ha
    exact hs.has_of_reaches (h.within a b ((h.sound.mem_pairs a b).1 hab)).1
  simpa using Forest.length_le_size hinj hhas

namespace Containers

variable {c : Config} {src dst : Tree} {p : Pairing}

theorem recoverAll_zero (stack : List (NodeId × NodeId)) :
    recoverAll c src dst 0 stack = pure () := by
  simp [recoverAll]

theorem recoverAll_nil (fuel : Nat) : recoverAll c src dst fuel [] = pure () := by
  simp [recoverAll]

namespace Recovered

variable {q : Pairing} {x : NodeId × NodeId} {new rest : List (NodeId × NodeId)}

theorem within (h : Recovered src dst x.1 x.2 p new q) (hx : src.Reaches x.1 ∧ dst.Reaches x.2)
    (hrest : PairsWithin src dst rest) : PairsWithin src dst (new ++ rest) :=
  (h.containers.mono hx.1 hx.2).append hrest

/-- With each new container a source node got a partner. -/
theorem covered (h : Recovered src dst x.1 x.2 p new q) {fuel : Nat}
    (hfuel : (x :: rest).length + src.forest.size ≤ fuel + 1 + p.pairs.length) :
    (new ++ rest).length + src.forest.size ≤ fuel + q.pairs.length := by
  have hcount := h.count
  rw [List.length_cons] at hfuel
  rw [List.length_append]
  omega

end Recovered

/-- Fuel that covers the stack and the source nodes without partner is as good as any other such
fuel. -/
theorem run_recoverAll_eq [TokenHash] (hs : src.Surveyed) (hd : dst.Surveyed)
    (hp : p.Between src dst)
    {stack : List (NodeId × NodeId)} (hstack : PairsWithin src dst stack) {m n : Nat}
    (hm : stack.length + src.forest.size ≤ m + p.pairs.length)
    (hn : stack.length + src.forest.size ≤ n + p.pairs.length) :
    (recoverAll c src dst m stack).run p = (recoverAll c src dst n stack).run p := by
  induction m generalizing n stack p with
  | zero =>
      have hle := hp.length_le hs.sound
      obtain rfl : stack = [] := List.length_eq_zero_iff.1 (by omega)
      rw [recoverAll_nil, recoverAll_nil]
  | succ m ih =>
      cases stack with
      | nil => rw [recoverAll_nil, recoverAll_nil]
      | cons x rest =>
          obtain ⟨hx, hrest⟩ := List.forall_mem_cons.1 hstack
          have hle := hp.length_le hs.sound
          obtain ⟨n, rfl⟩ : ∃ k, n = k + 1 := ⟨n - 1, by simp at hn; omega⟩
          rw [recoverAll, recoverAll]
          refine run_bind_congr
            ((adds_recoverPair hs hd hx.1 hx.2 (fun _ => trivial) hp).mono ?_)
          rintro new q ⟨hgrows, hnew⟩
          exact ih (hgrows.between hp) (hnew.within hx hrest) (hnew.covered hm) (hnew.covered hn)

end Containers

end TreeDelta
