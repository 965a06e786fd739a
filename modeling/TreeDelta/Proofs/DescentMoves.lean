import Mathlib.Data.Multiset.AddSub
import TreeDelta.Proofs.DeferredGroups

namespace TreeDelta

variable {c : Config} {src dst t : Tree} {p q r : Pairing} {d d' : Descent} {g : Group}
  {levels : List Nat} {log new ids xs ys grouped grouped' waiting aside aside' : List NodeId}

def Queue.gained (before after : Queue) : List NodeId := after.nodes.diff before.nodes

def Group.paired (g : Group) (before after : Pairing) : List (NodeId × NodeId) :=
  if after.pairs = before.pairs then [] else g.src.zip g.dst

/-- A moment of the descent, and what has happened before it. -/
structure Moment where
  /-- The groups of the present level that are still to be settled. -/
  todo : List Group := []
  descent : Descent
  pairing : Pairing
  /-- The levels at which both sides have met, the latest first. -/
  levels : List Nat := []
  /-- All that has been put in the queues. -/
  pushedSrc : List NodeId
  pushedDst : List NodeId
  /-- The roots of the subtrees that have been paired. -/
  roots : List (NodeId × NodeId) := []

def Moment.start (c : Config) (src dst : Tree) (p : Pairing) : Moment where
  descent := .start c src dst
  pairing := p
  pushedSrc := (Queue.start c src).nodes
  pushedDst := (Queue.start c dst).nodes

/-- The descent goes on by one move: both sides meet at a level and their fronts are sorted into
groups, the side that is ahead opens its front, or the next group of the level is settled. -/
inductive Move (c : Config) (src dst : Tree) (m : Moment) : Moment → Prop
  | level {n : Nat} {gs gs' : List Group} (idle : m.todo = [])
      (left : m.descent.src.level? = some n) (right : m.descent.dst.level? = some n)
      (gathered : Group.gatherSrc src [] m.descent.src.front = .ok gs)
      (gathered' : Group.gatherDst dst gs m.descent.dst.front = .ok gs') :
      Move c src dst m { m with
        todo := gs'
        descent := { m.descent with src := m.descent.src.rest, dst := m.descent.dst.rest }
        levels := n :: m.levels }
  | openSrc {a b : Nat} {x : Queue} (idle : m.todo = []) (left : m.descent.src.level? = some a)
      (right : m.descent.dst.level? = some b) (ahead : b < a)
      (opened : c.openFront src m.descent.src = .ok x) :
      Move c src dst m { m with
        descent := { m.descent with src := x }
        pushedSrc := m.pushedSrc ++ m.descent.src.rest.gained x }
  | openDst {a b : Nat} {y : Queue} (idle : m.todo = []) (left : m.descent.src.level? = some a)
      (right : m.descent.dst.level? = some b) (ahead : a < b)
      (opened : c.openFront dst m.descent.dst = .ok y) :
      Move c src dst m { m with
        descent := { m.descent with dst := y }
        pushedDst := m.pushedDst ++ m.descent.dst.rest.gained y }
  | settle {g : Group} {gs : List Group} {d : Descent} {q : Pairing} (next : m.todo = g :: gs)
      (settled : (Identical.settle c src dst m.descent g).run m.pairing = (.ok d, q)) :
      Move c src dst m { m with
        todo := gs
        descent := d
        pairing := q
        pushedSrc := m.pushedSrc ++ m.descent.src.gained d.src
        pushedDst := m.pushedDst ++ m.descent.dst.gained d.dst
        roots := m.roots ++ g.paired m.pairing q }

abbrev Moves (c : Config) (src dst : Tree) : Moment → Moment → Prop :=
  Relation.ReflTransGen (Move c src dst)

theorem move_rightUnique (c : Config) (src dst : Tree) : Relator.RightUnique (Move c src dst) := by
  intro m a b ha hb
  cases ha <;> cases hb <;> grind

theorem Queue.level?_of_nodes {q : Queue} (h : q.nodes = []) : q.level? = none := by
  rw [nodes, List.map_eq_nil_iff] at h
  rw [level?, h]
  rfl

theorem Moment.not_move {m m' : Moment} (idle : m.todo = [])
    (hempty : m.descent.src.nodes = [] ∨ m.descent.dst.nodes = []) : ¬ Move c src dst m m' := by
  have hlevel : m.descent.src.level? = none ∨ m.descent.dst.level? = none :=
    hempty.imp Queue.level?_of_nodes Queue.level?_of_nodes
  intro hmove
  cases hmove <;> simp_all

theorem moves_to_last {m₀ m last : Moment} (hm : Moves c src dst m₀ m)
    (hlast : Moves c src dst m₀ last) (hend : ∀ m', ¬ Move c src dst last m') :
    Moves c src dst m last := by
  rcases hm.total_of_right_unique (move_rightUnique c src dst) hlast with h | h
  · exact h
  · rcases h.cases_head with rfl | ⟨m', hmove, _⟩
    · exact .refl
    · exact absurd hmove (hend m')

theorem Queue.gained_perm {before after : Queue} (h : after.nodes.Perm (xs ++ before.nodes)) :
    (before.gained after).Perm xs := by
  refine (h.diff_right _).trans ?_
  rw [← Multiset.coe_eq_coe, ← Multiset.coe_sub, ← Multiset.coe_add, Multiset.add_sub_cancel_right]

theorem Queue.gained_self (q : Queue) : q.gained q = [] :=
  (gained_perm (.refl q.nodes)).eq_nil

/-- Of the nodes in `xs` none lies below another, all of them are in the log, and no other node of
the log lies below one of them. -/
structure Frontier (t : Tree) (log xs : List NodeId) : Prop where
  nodup : log.Nodup
  clear : t.Clear (fun _ => True) xs
  logged : ∀ x ∈ xs, x ∈ log
  past : ∀ z ∈ log, ∀ x ∈ xs, t.forest.Under x z → x = z

theorem Tree.Clear.eq_of_under {free : NodeId → Prop} {x y : NodeId} (h : t.Clear free xs)
    (hx : x ∈ xs) (hy : y ∈ xs) (hxy : t.forest.Under x y) : x = y := by
  by_contra hne
  have hsymm := t.symm_apart
  exact h.apart.forall hx hy hne y hxy .refl

namespace Frontier

theorem perm (h : Frontier t log xs) (hperm : ys.Perm xs) : Frontier t log ys :=
  ⟨h.nodup, h.clear.perm hperm, fun x hx => h.logged x (hperm.mem_iff.1 hx),
    fun z hz x hx => h.past z hz x (hperm.mem_iff.1 hx)⟩

theorem opened (ht : t.forest.Sound) (h : Frontier t log (ids ++ xs))
    (hnew : new.Perm (ids.flatMap (c.heirs t))) :
    Frontier t (log ++ new) (ids.flatMap (c.heirs t) ++ xs) := by
  have hclear : t.Clear (fun _ => True) (ids.flatMap (c.heirs t) ++ xs) := h.clear.opened ht
  have hparent : ∀ {y}, y ∈ new → ∃ x ∈ ids, t.forest.parent? y = some x := by
    intro y hy
    obtain ⟨x, hx, hyx⟩ := List.mem_flatMap.1 (hnew.mem_iff.1 hy)
    exact ⟨x, hx, ((Config.mem_heirs_iff ht).1 hyx).1⟩
  -- a node whose parent stands in the frontier has never been in the log
  have hfresh : ∀ {y}, y ∈ new → ∀ z ∈ log, ¬ t.forest.Under y z := by
    intro y hy z hz hyz
    obtain ⟨x, hx, hxy⟩ := hparent hy
    obtain rfl := h.past z hz x (List.mem_append_left _ hx) (.head hxy hyz)
    exact ht.not_under_parent hxy hyz
  refine ⟨?_, hclear, fun x hx => ?_, fun z hz x hx hxz => ?_⟩
  · refine List.nodup_append.2 ⟨h.nodup, hnew.nodup_iff.2 hclear.left_of_append.nodup, ?_⟩
    rintro z hz _ hy rfl
    exact hfresh hy z hz .refl
  · rcases List.mem_append.1 hx with hx | hx
    · exact List.mem_append_right _ (hnew.mem_iff.2 hx)
    · exact List.mem_append_left _ (h.logged x (List.mem_append_right _ hx))
  · rcases List.mem_append.1 hz with hz | hz
    · rcases List.mem_append.1 hx with hx | hx
      · exact absurd hxz (hfresh (hnew.mem_iff.2 hx) z hz)
      · exact h.past z hz x (List.mem_append_right _ hx) hxz
    · exact hclear.eq_of_under hx (List.mem_append_left _ (hnew.mem_iff.1 hz)) hxz

end Frontier

/-- One side of the descent: its grouped nodes are not above the levels, and what waits is below
them. The nodes in `aside` are done with. -/
structure OneSide (c : Config) (t : Tree) (levels : List Nat)
    (log grouped waiting aside : List NodeId) : Prop where
  frontier : Frontier t log (grouped ++ (waiting ++ aside))
  grouped_le : ∀ n ∈ levels, ∀ x ∈ grouped, c.priorityAt t x ≤ n
  waiting_lt : ∀ n ∈ levels, ∀ x ∈ waiting, c.priorityAt t x < n

namespace OneSide

theorem put_aside (h : OneSide c t levels log (ids ++ grouped) waiting aside)
    (haside : aside'.Perm (ids ++ aside)) :
    OneSide c t levels log grouped waiting aside' := by
  refine ⟨h.frontier.perm ?_, fun n hn x hx => ?_, h.waiting_lt⟩
  · calc
      List.Perm (grouped ++ (waiting ++ aside')) (grouped ++ (waiting ++ (ids ++ aside))) :=
        (haside.append_left _).append_left _
      List.Perm _ (grouped ++ (ids ++ (waiting ++ aside))) :=
        (List.perm_append_comm_assoc _ _ _).append_left _
      List.Perm _ (ids ++ (grouped ++ (waiting ++ aside))) := List.perm_append_comm_assoc _ _ _
      _ = ids ++ grouped ++ (waiting ++ aside) := (List.append_assoc _ _ _).symm
  · exact h.grouped_le n hn x (List.mem_append_right _ hx)

theorem opened {before after : Queue} (ht : t.forest.Sound)
    (h : OneSide c t levels log (ids ++ grouped) before.nodes aside)
    (hopened : before.Opened c t ids after) :
    OneSide c t levels (log ++ before.gained after) grouped after.nodes aside := by
  have hfrontier : Frontier t log (ids ++ (grouped ++ (before.nodes ++ aside))) := by
    rw [← List.append_assoc]
    exact h.frontier
  have hfrontier' := hfrontier.opened ht (Queue.gained_perm hopened.nodes)
  refine ⟨hfrontier'.perm ?_, fun n hn x hx => ?_, fun n hn x hx => ?_⟩
  · calc
      List.Perm (grouped ++ (after.nodes ++ aside))
          (grouped ++ (ids.flatMap (c.heirs t) ++ before.nodes ++ aside)) :=
        (hopened.nodes.append_right _).append_left _
      _ = grouped ++ (ids.flatMap (c.heirs t) ++ (before.nodes ++ aside)) := by
        rw [List.append_assoc]
      List.Perm _ (ids.flatMap (c.heirs t) ++ (grouped ++ (before.nodes ++ aside))) :=
        List.perm_append_comm_assoc _ _ _
  · exact h.grouped_le n hn x (List.mem_append_right _ hx)
  · rcases List.mem_append.1 (hopened.nodes.mem_iff.1 hx) with hx | hx
    · obtain ⟨y, hy, hxy⟩ := List.mem_flatMap.1 hx
      have hlt := Config.priorityAt_lt_of_parent (c := c) ht ((Config.mem_heirs_iff ht).1 hxy).1
      exact hlt.trans_le (h.grouped_le n hn y (List.mem_append_left _ hy))
    · exact h.waiting_lt n hn x hx

variable {q : Queue} {n : Nat}

theorem front (h : OneSide c t levels log [] q.nodes aside) :
    OneSide c t levels log (q.front ++ []) q.rest.nodes aside := by
  have hnodes := q.nodes_eq
  refine ⟨h.frontier.perm ?_, fun n hn x hx => ?_, fun n hn x hx => ?_⟩
  · simp [hnodes]
  · rw [List.append_nil] at hx
    exact (h.waiting_lt n hn x (hnodes ▸ List.mem_append_left _ hx)).le
  · exact h.waiting_lt n hn x (hnodes ▸ List.mem_append_right _ hx)

theorem lt_levels (h : OneSide c t levels log grouped q.nodes aside) (hq : q.Orderly c t)
    (hn : q.level? = some n) : ∀ m ∈ levels, n < m := by
  obtain ⟨e, he, rfl⟩ := Option.map_eq_some_iff.1 hn
  have hmem := List.mem_of_head? he
  intro m hm
  rw [hq.priority e hmem]
  exact h.waiting_lt m hm e.2 (List.mem_map_of_mem hmem)

theorem level (h : OneSide c t levels log [] q.nodes aside) (hq : q.Orderly c t)
    (hn : q.level? = some n) (hgrouped : grouped.Perm q.front) :
    OneSide c t (n :: levels) log grouped q.rest.nodes aside := by
  have hfront := h.front
  refine ⟨hfront.frontier.perm ?_, List.forall_mem_cons.2 ⟨fun x hx => ?_, fun m hm x hx => ?_⟩,
    List.forall_mem_cons.2 ⟨fun x hx => hq.lt_level_of_mem_rest hn hx, hfront.waiting_lt⟩⟩
  · rw [List.append_nil]
    exact hgrouped.append_right _
  · exact (hq.priority_of_mem_front hn (hgrouped.mem_iff.1 hx)).le
  · exact hfront.grouped_le m hm x (by simpa using hgrouped.mem_iff.1 hx)

end OneSide

theorem OneSide.start : OneSide c t [] (Queue.start c t).nodes [] (Queue.start c t).nodes [] := by
  have hclear : t.Clear (fun _ => True) (Queue.start c t).nodes :=
    Queue.clear_start fun _ => trivial
  refine ⟨?_, by simp, by simp⟩
  rw [List.nil_append, List.append_nil]
  exact ⟨hclear.nodup, hclear, fun x hx => hx, fun z hz x hx hxz => hclear.eq_of_under hx hz hxz⟩

/-- What holds at each moment of a descent that begins with the pairing `p`. -/
structure Moment.Kept (c : Config) (src dst : Tree) (p : Pairing) (m : Moment) : Prop where
  orderly : m.descent.Orderly c src dst
  sound : m.pairing.Sound
  eligible : ∀ g ∈ m.todo, g.Eligible c src dst
  left : OneSide c src m.levels m.pushedSrc (m.todo.flatMap (·.src)) m.descent.src.nodes
    (m.descent.deferred.flatMap (·.src) ++ m.roots.map (·.1))
  right : OneSide c dst m.levels m.pushedDst (m.todo.flatMap (·.dst)) m.descent.dst.nodes
    (m.descent.deferred.flatMap (·.dst) ++ m.roots.map (·.2))
  descending : m.levels.Pairwise (· < ·)
  commits : Commits c src dst m.roots p m.pairing

theorem Moment.Kept.start (hp : p.Sound) : (Moment.start c src dst p).Kept c src dst p where
  orderly := Descent.orderly_start c src dst
  sound := hp
  eligible := by simp [Moment.start]
  left := .start
  right := .start
  descending := .nil
  commits := .nil p

section Moving

variable [TokenHash] {m m' : Moment} (hs : src.Surveyed) (hd : dst.Surveyed)
include hs hd

theorem Moment.Kept.sorts {gs gs' : List Group} (h : m.Kept c src dst p)
    (gathered : Group.gatherSrc src [] m.descent.src.front = .ok gs)
    (gathered' : Group.gatherDst dst gs m.descent.dst.front = .ok gs') :
    Group.Sorts src dst gs' m.descent.src.front m.descent.dst.front := by
  obtain ⟨_, _, hgs, hgs', hsorts⟩ := h.orderly.exists_groups hs hd
  rw [gathered] at hgs
  cases hgs
  rw [gathered'] at hgs'
  cases hgs'
  exact hsorts

theorem Moment.Kept.settle {gs : List Group} (h : m.Kept c src dst p) (next : m.todo = g :: gs)
    (settled : (Identical.settle c src dst m.descent g).run m.pairing = (.ok d, q)) :
    Settles c src dst g m.descent m.pairing d q := by
  have heligible := h.eligible g (by simp [next])
  have hyields : Yields (fun _ => False) (Identical.settle c src dst m.descent g) m.pairing _ :=
    Identical.yields_settle hs hd h.orderly heligible h.sound
  exact hyields.post_of_run settled

theorem Commit.pairs_ne {a b : NodeId} (h : Commit c src dst a b p q) : q.pairs ≠ p.pairs := by
  intro he
  have hq := Pairing.pairs_of_addAll h.added
  rw [he, List.self_eq_append_right] at hq
  have hmem := mem_alignedPairs_self hs.sound.forest hd.sound.forest h.content
  rw [hq] at hmem
  cases hmem

theorem Settles.sides {roots : List (NodeId × NodeId)} {log' : List NodeId}
    (h : Settles c src dst g d p d' q)
    (hleft : OneSide c src levels log (g.src ++ grouped) d.src.nodes
      (d.deferred.flatMap (·.src) ++ roots.map (·.1)))
    (hright : OneSide c dst levels log' (g.dst ++ grouped') d.dst.nodes
      (d.deferred.flatMap (·.dst) ++ roots.map (·.2)))
    (hcommits : Commits c src dst roots r p) :
    OneSide c src levels (log ++ d.src.gained d'.src) grouped d'.src.nodes
        (d'.deferred.flatMap (·.src) ++ (roots ++ g.paired p q).map (·.1)) ∧
      OneSide c dst levels (log' ++ d.dst.gained d'.dst) grouped' d'.dst.nodes
        (d'.deferred.flatMap (·.dst) ++ (roots ++ g.paired p q).map (·.2)) ∧
      Commits c src dst (roots ++ g.paired p q) r q := by
  cases h with
  | @pair a b q one one' commit =>
      have hnew : g.paired p q = [(a, b)] := by
        rw [Group.paired, if_neg (commit.pairs_ne hs hd), one, one']
        rfl
      rw [one] at hleft
      rw [one'] at hright
      simp only [hnew, Queue.gained_self, List.append_nil, List.map_append, List.map_cons,
        List.map_nil, ← List.append_assoc]
      exact ⟨hleft.put_aside List.perm_append_comm, hright.put_aside List.perm_append_comm,
        hcommits.trans (.cons commit (.nil q))⟩
  | @opened x y opens left right =>
      rw [Group.paired, if_pos rfl, List.append_nil]
      exact ⟨hleft.opened hs.sound.forest left, hright.opened hd.sound.forest right, hcommits⟩
  | putOff some some' many =>
      simp only [Group.paired, if_pos, Queue.gained_self, List.append_nil, List.flatMap_append,
        List.flatMap_singleton, List.append_assoc]
      exact ⟨hleft.put_aside (List.perm_append_comm_assoc _ _ _),
        hright.put_aside (List.perm_append_comm_assoc _ _ _), hcommits⟩

theorem Move.kept (hmove : Move c src dst m m') (h : m.Kept c src dst p) : m'.Kept c src dst p := by
  cases hmove with
  | @level n gs gs' idle left right gathered gathered' =>
      have hsorts := h.sorts hs hd gathered gathered'
      have hleft := h.left
      have hright := h.right
      rw [idle] at hleft hright
      exact ⟨h.orderly.rest, h.sound, hsorts.eligible h.orderly,
        hleft.level h.orderly.left left hsorts.left,
        hright.level h.orderly.right right hsorts.right,
        List.pairwise_cons.2 ⟨hleft.lt_levels h.orderly.left left, h.descending⟩, h.commits⟩
  | @openSrc a b x idle left right ahead opened =>
      have hopened := (Gives.opened_openFront hs h.orderly.left).post_of_eq opened
      have hleft := h.left
      rw [idle] at hleft
      refine ⟨⟨hopened.orderly, h.orderly.right, h.orderly.deferred⟩, h.sound, h.eligible,
        ?_, h.right, h.descending, h.commits⟩
      rw [idle]
      exact hleft.front.opened hs.sound.forest hopened
  | @openDst a b y idle left right ahead opened =>
      have hopened := (Gives.opened_openFront hd h.orderly.right).post_of_eq opened
      have hright := h.right
      rw [idle] at hright
      refine ⟨⟨h.orderly.left, hopened.orderly, h.orderly.deferred⟩, h.sound, h.eligible,
        h.left, ?_, h.descending, h.commits⟩
      rw [idle]
      exact hright.front.opened hd.sound.forest hopened
  | @settle g gs d q next settled =>
      have hsettles := h.settle hs hd next settled
      have heligible := h.eligible
      have hleft := h.left
      have hright := h.right
      rw [next, List.forall_mem_cons] at heligible
      rw [next, List.flatMap_cons] at hleft hright
      obtain ⟨hleft', hright', hcommits⟩ := hsettles.sides hs hd hleft hright h.commits
      exact ⟨hsettles.orderly heligible.1 h.orderly, hsettles.sound h.sound, heligible.2,
        hleft', hright', h.descending, hcommits⟩

theorem moves_kept (hmoves : Moves c src dst m m') (h : m.Kept c src dst p) :
    m'.Kept c src dst p := by
  induction hmoves with
  | refl => exact h
  | tail _ hmove ih => exact hmove.kept hs hd ih

namespace Identical

variable {excuse : Fault → Prop}

theorem yields_settleAll_moves (h : m.Kept c src dst p) :
    Yields excuse (settleAll c src dst m.descent m.todo) m.pairing fun d q => ∃ m',
      Moves c src dst m m' ∧ m'.todo = [] ∧ m'.descent = d ∧ m'.pairing = q := by
  generalize htodo : m.todo = gs
  induction gs generalizing m with
  | nil => exact .pure ⟨m, .refl, htodo, rfl, rfl⟩
  | cons g gs ih =>
      have hsettle : Yields excuse (settle c src dst m.descent g) m.pairing _ :=
        yields_settle hs hd h.orderly (h.eligible g (by simp [htodo])) h.sound
      refine .bind ((hsettle.and_if (.run_eq _ _)).mono ?_)
      rintro d q ⟨_, hrun⟩
      have hmove := Move.settle htodo hrun
      refine (ih (hmove.kept hs hd h) rfl).mono fun d' q' ⟨m', hmoves, hend⟩ => ?_
      exact ⟨m', .head hmove hmoves, hend⟩

theorem yields_step_moves (h : m.Kept c src dst p) (idle : m.todo = []) :
    Yields excuse (step c src dst m.descent) m.pairing fun out q =>
      (∃ next, out = .inl next ∧ ∃ m', Moves c src dst m m' ∧ m'.todo = [] ∧
        m'.descent = next ∧ m'.pairing = q) ∨
      out = .inr m.descent.deferred ∧ q = m.pairing ∧
        (m.descent.src.nodes = [] ∨ m.descent.dst.nodes = []) := by
  unfold step
  split
  · next a b ha hb =>
    split
    · next heq =>
      subst heq
      obtain ⟨gs, gs', hgs, hgs', -⟩ := h.orderly.exists_groups hs hd
      have hmove := Move.level (c := c) idle ha hb hgs hgs'
      refine .bind (.bind (.lift (.of_eq hgs) ?_))
      rintro _ rfl
      refine .bind (.lift (.of_eq hgs') ?_)
      rintro _ rfl
      refine (yields_settleAll_moves hs hd (hmove.kept hs hd h)).mono ?_
      rintro d q ⟨m', hmoves, hend⟩
      exact .pure (.inl ⟨d, rfl, m', .head hmove hmoves, hend⟩)
    · split
      · next hlt =>
        obtain ⟨x, hx, -⟩ := Gives.opened_openFront hs h.orderly.left
        refine .bind (.lift (.of_eq hx) ?_)
        rintro _ rfl
        exact .pure (.inl ⟨_, rfl, _, .single (.openSrc idle ha hb hlt hx), idle, rfl, rfl⟩)
      · next hne hle =>
        obtain ⟨y, hy, -⟩ := Gives.opened_openFront hd h.orderly.right
        refine .bind (.lift (.of_eq hy) ?_)
        rintro _ rfl
        exact .pure (.inl ⟨_, rfl, _, .single (.openDst idle ha hb (by omega) hy), idle, rfl, rfl⟩)
  · next hnone => exact .pure (.inr ⟨rfl, rfl, Descent.nodes_eq_nil hnone⟩)

/-- The descent makes moves until a side has nothing left. -/
theorem yields_deferredGroups_moves (hp : p.Sound) :
    Yields excuse (deferredGroups c src dst) p fun groups q => ∃ last,
      Moves c src dst (.start c src dst p) last ∧ last.todo = [] ∧
        (last.descent.src.nodes = [] ∨ last.descent.dst.nodes = []) ∧
        groups = last.descent.deferred ∧ q = last.pairing := by
  refine .bind (.lift (.of_eq (Config.enqueue_start hs)) ?_)
  rintro _ rfl
  refine .bind (.lift (.of_eq (Config.enqueue_start hd)) ?_)
  rintro _ rfl
  have hweight := Nat.le_succ_of_le (Descent.weight_start_le (c := c) hs hd)
  refine (yields_descend_induct hs.sound.forest hd.sound.forest
    (I := fun d q => ∃ m, Moves c src dst (.start c src dst p) m ∧ m.todo = [] ∧
      m.descent = d ∧ m.pairing = q) ?_ ⟨.start c src dst p, .refl, rfl, rfl, rfl⟩ hweight).mono ?_
  · rintro d q ⟨m, hmoves, idle, rfl, rfl⟩
    have hkept := moves_kept hs hd hmoves (.start hp)
    refine (yields_step_moves hs hd hkept idle).mono fun out q hout => hout.imp_left ?_
    rintro ⟨next, rfl, m', hmoves', hend⟩
    exact ⟨next, rfl, m', hmoves.trans hmoves', hend⟩
  · rintro groups q ⟨d, ⟨m, hmoves, idle, rfl, rfl⟩, hempty, rfl⟩
    exact ⟨m, hmoves, idle, hempty, rfl, rfl⟩

end Identical

end Moving

end TreeDelta
