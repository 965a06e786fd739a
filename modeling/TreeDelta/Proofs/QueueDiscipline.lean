import TreeDelta.Proofs.DescentMoves
import TreeDelta.Proofs.ServedGroups

namespace TreeDelta

variable {c : Config} {src dst t : Tree} {p q : Pairing} {a b : NodeId} {groups gs : List Group}
  {pairs : List (NodeId × NodeId)}

section Moving

variable [TokenHash] {m m' : Moment} (hs : src.Surveyed) (hd : dst.Surveyed)
include hs hd

theorem Move.reserves (hmove : Move c src dst m m') (h : m.Kept c src dst p)
    (hres : m.descent.Reserves src dst m.todo m.pairing) :
    m'.descent.Reserves src dst m'.todo m'.pairing := by
  cases hmove with
  | level idle left right gathered gathered' =>
      have hsorts := h.sorts hs hd gathered gathered'
      rw [idle] at hres
      refine ⟨hres.left.perm ?_, hres.right.perm ?_, hres.crowded⟩
      · rw [m.descent.src.nodes_eq]
        exact (hsorts.left.append_right _).append_left _
      · rw [m.descent.dst.nodes_eq]
        exact (hsorts.right.append_right _).append_left _
  | openSrc idle left right ahead opened =>
      have hopened := (Gives.opened_openFront hs h.orderly.left).post_of_eq opened
      rw [idle] at hres ⊢
      refine ⟨hopened.clear hs.sound.forest [] ?_, hres.right, hres.crowded⟩
      rw [List.nil_append, ← m.descent.src.nodes_eq]
      exact hres.left
  | openDst idle left right ahead opened =>
      have hopened := (Gives.opened_openFront hd h.orderly.right).post_of_eq opened
      rw [idle] at hres ⊢
      refine ⟨hres.left, hopened.clear hd.sound.forest [] ?_, hres.crowded⟩
      rw [List.nil_append, ← m.descent.dst.nodes_eq]
      exact hres.right
  | settle next settled =>
      rw [next] at hres
      exact (h.settle hs hd next settled).reserves hs.sound.forest hd.sound.forest h.sound hres

theorem moves_reserves (hmoves : Moves c src dst (.start c src dst p) m) (hp : p.Sound)
    (hempty : p.isEmpty) : m.descent.Reserves src dst m.todo m.pairing := by
  induction hmoves with
  | refl => exact Descent.reserves_start hp hempty
  | tail hmoves hmove ih => exact hmove.reserves hs hd (moves_kept hs hd hmoves (.start hp)) ih

theorem Moment.Kept.subtreesFree_eq {g : Group} (h : m.Kept c src dst p)
    (hres : m.descent.Reserves src dst m.todo m.pairing) (next : m.todo = g :: gs)
    (ha : g.src = [a]) (hb : g.dst = [b]) : m.pairing.subtreesFree src dst a b = .ok true := by
  have heligible := h.eligible g (by simp [next])
  obtain ⟨free, hfree, hiff⟩ := Gives.subtreesFree (p := m.pairing) hs hd
    (heligible.left a (by simp [ha])).reaches (heligible.right b (by simp [hb])).reaches
  rw [hfree, hiff.2 ⟨fun x hx => ?_, fun y hy => ?_⟩]
  · exact hres.left.free a (by simp [next, ha]) x (hs.sound.forest.mem_preorder_iff.1 hx)
  · exact hres.right.free b (by simp [next, hb]) y (hd.sound.forest.mem_preorder_iff.1 hy)

end Moving

/-- What is left to be served: groups, and the candidates of the present one. -/
structure Service where
  groups : List Group
  candidates : List (NodeId × NodeId) := []
  pairing : Pairing

namespace Service

/-- The next group is ranked, or the next candidate has its turn. -/
inductive Step (src dst : Tree) : Service → Service → Prop
  | group {g : Group} {gs : List Group} {p : Pairing} {found ranked : List (NodeId × NodeId)}
      (search : Identical.candidates src dst g = .ok found)
      (order : Ranking.sort src dst p found = .ok ranked) :
      Step src dst ⟨g :: gs, [], p⟩ ⟨gs, ranked, p⟩
  | pair {gs : List Group} {a b : NodeId} {rest : List (NodeId × NodeId)} {p q : Pairing}
      {paired : Bool} (turn : (Identical.pairIfFree src dst a b).run p = (.ok paired, q)) :
      Step src dst ⟨gs, (a, b) :: rest, p⟩ ⟨gs, rest, q⟩

abbrev Steps (src dst : Tree) : Service → Service → Prop := Relation.ReflTransGen (Step src dst)

structure Agenda (c : Config) (src dst : Tree) (groups : List Group) : Prop where
  eligible : ∀ g ∈ groups, g.Eligible c src dst
  left : src.Scatters (·.src) groups
  right : dst.Scatters (·.dst) groups

/-- Whatever has been served, no group has touched another one. -/
structure Kept (src dst : Tree) (groups : List Group) (s : Service) : Prop where
  between : s.pairing.Between src dst
  waiting : ∀ g ∈ s.groups, g ∈ groups
  present : ∀ z ∈ s.candidates, ∃ g ∈ groups, z.1 ∈ g.src ∧ z.2 ∈ g.dst
  content : ∀ z ∈ s.candidates, src.forest.contentTree z.1 = dst.forest.contentTree z.2
  exclusive : ∀ g ∈ groups, g.Exclusive src dst s.pairing

theorem Agenda.of_reserved (hres : Reserved src dst groups p)
    (heligible : ∀ g ∈ groups, g.Eligible c src dst) : Agenda c src dst groups :=
  ⟨heligible, hres.left.scatters, hres.right.scatters⟩

theorem Kept.start (hres : Reserved src dst groups p) (hp : p.Between src dst)
    (hperm : gs.Perm groups) : Kept src dst groups ⟨gs, [], p⟩ :=
  ⟨hp, fun _ hg => hperm.mem_iff.1 hg, by simp, by simp, hres.exclusive⟩

section Serving

variable [TokenHash] {s s' : Service} (hs : src.Surveyed) (hd : dst.Surveyed)
  (hagenda : Agenda c src dst groups)
include hs hd hagenda

theorem Kept.yields_turn {excuse : Fault → Prop} {z : NodeId × NodeId}
    (h : Kept src dst groups ⟨gs, z :: pairs, p⟩) :
    Yields excuse (Identical.pairIfFree src dst z.1 z.2) p fun paired q =>
      if paired then Commit c src dst z.1 z.2 p q
      else q = p ∧ ¬ SubtreesFree src dst p z.1 z.2 := by
  obtain ⟨g, hg, ha, hb⟩ := h.present z List.mem_cons_self
  exact Identical.yields_pairIfFree hs hd ((hagenda.eligible g hg).left z.1 ha)
    ((hagenda.eligible g hg).right z.2 hb) (h.content z List.mem_cons_self) h.between.sound

theorem Step.kept (hstep : Step src dst s s') (h : s.Kept src dst groups) :
    s'.Kept src dst groups := by
  cases hstep with
  | @group g gs p found ranked search order =>
      obtain ⟨hg, hgs⟩ := List.forall_mem_cons.1 h.waiting
      have hfound := (Identical.gives_candidates_alike hs hd (hagenda.eligible g hg)).post_of_eq
        search
      have hperm : ranked.Perm found :=
        (Reckons.sort hs hd h.between.within fun z hz => (hfound z hz).2.2.reaches).post_of_eq order
      have hranked := fun z hz => hfound z (hperm.mem_iff.1 hz)
      exact ⟨h.between, hgs, fun z hz => ⟨g, hg, (hranked z hz).1, (hranked z hz).2.1⟩,
        fun z hz => (hranked z hz).2.2.content, h.exclusive⟩
  | @pair gs a b rest p q paired turn =>
      obtain ⟨⟨g, hg, ha, hb⟩, hrest⟩ := List.forall_mem_cons.1 h.present
      have hcontent := (List.forall_mem_cons.1 h.content).2
      have hyields : Yields (fun _ => False) (Identical.pairIfFree src dst a b) p _ :=
        h.yields_turn hs hd hagenda
      have hturn := hyields.post_of_run turn
      cases paired with
      | false =>
          obtain ⟨rfl, _⟩ := hturn
          exact ⟨h.between, h.waiting, hrest, hcontent, h.exclusive⟩
      | true =>
          have hcommit : Commit c src dst a b p q := hturn
          exact ⟨(hcommit.grows hs hd).between h.between, h.waiting, hrest, hcontent, fun g' hg' =>
            hcommit.exclusive hs hd hagenda.left hagenda.right hg' hg ha hb h.between.sound
              (h.exclusive g' hg')⟩

theorem steps_kept (hsteps : Steps src dst s s') (h : s.Kept src dst groups) :
    s'.Kept src dst groups := by
  induction hsteps with
  | refl => exact h
  | tail _ hstep ih => exact hstep.kept hs hd hagenda ih

theorem Kept.subtreesFree_eq (h : s.Kept src dst groups)
    (hnext : s.candidates = (a, b) :: pairs) :
    s.pairing.subtreesFree src dst a b = .ok (s.pairing.bothFree a b) := by
  obtain ⟨g, hg, ha, hb⟩ := h.present (a, b) (by simp [hnext])
  obtain ⟨free, hfree, hiff⟩ := Gives.subtreesFree (p := s.pairing) hs hd
    ((hagenda.eligible g hg).left a ha).reaches ((hagenda.eligible g hg).right b hb).reaches
  refine hfree.trans (congrArg _ (Bool.eq_iff_iff.2 (hiff.trans ⟨fun hall => ?_, ?_⟩)))
  · exact Pairing.bothFree_iff.2 ⟨hall.left a (hs.sound.forest.mem_preorder_iff.2 .refl),
      hall.right b (hd.sound.forest.mem_preorder_iff.2 .refl)⟩
  · exact (h.exclusive g hg).subtreesFree hs.sound.forest hd.sound.forest ha hb

theorem yields_serve_steps {excuse : Fault → Prop} (h : Kept src dst groups ⟨gs, pairs, p⟩) :
    Yields excuse (Identical.serve src dst pairs) p fun _ q =>
      Steps src dst ⟨gs, pairs, p⟩ ⟨gs, [], q⟩ := by
  induction pairs generalizing p with
  | nil => exact .pure .refl
  | cons z pairs ih =>
      have hturn : Yields excuse (Identical.pairIfFree src dst z.1 z.2) p _ :=
        h.yields_turn hs hd hagenda
      refine .bind ((hturn.and_if (.run_eq _ p)).mono ?_)
      rintro paired q ⟨_, hrun⟩
      have hstep : Step src dst ⟨gs, z :: pairs, p⟩ ⟨gs, pairs, q⟩ := .pair hrun
      exact (ih (hstep.kept hs hd hagenda h)).mono fun _ r hsteps => .head hstep hsteps

/-- The groups are served step by step, unless the ranking runs into an overflow. -/
theorem yields_serveGroups_steps (h : Kept src dst groups ⟨gs, [], p⟩) :
    Yields (Overflows src dst) (Identical.serveGroups src dst gs) p fun _ q =>
      Steps src dst ⟨gs, [], p⟩ ⟨[], [], q⟩ := by
  induction gs generalizing p with
  | nil => exact .pure .refl
  | cons g gs ih =>
      have hg := h.waiting g (by simp)
      obtain ⟨found, hsearch, hfound⟩ :=
        Identical.gives_candidates_alike hs hd (hagenda.eligible g hg)
      have hsort : Reckons src dst (Ranking.sort src dst p found) _ :=
        .sort hs hd h.between.within fun z hz => (hfound z hz).2.2.reaches
      refine .bind (.lift (.of_eq hsearch) ?_)
      rintro _ rfl
      refine .bind (.get (.bind (.liftOr hsort.and_eq ?_)))
      rintro ranked ⟨horder, _⟩
      have hstep : Step src dst ⟨g :: gs, [], p⟩ ⟨gs, ranked, p⟩ := .group hsearch horder
      have h' := hstep.kept hs hd hagenda h
      refine .bind ((yields_serve_steps hs hd hagenda h').mono fun _ q hsteps => ?_)
      exact (ih (steps_kept hs hd hagenda hsteps h')).mono fun _ r hrest =>
        .head hstep (hsteps.trans hrest)

end Serving

end Service

/-- The nodes are different, and none of them lies below another. -/
def Tree.Antichain (t : Tree) (xs : List NodeId) : Prop :=
  xs.Nodup ∧ ∀ x ∈ xs, ∀ y ∈ xs, t.forest.Under x y → x = y

/-- On each side nothing has been put in the queue twice, and the nodes at hand, those that wait,
those put off and the roots of the subtrees paired so far form an antichain. The levels go down, and
the roots stand for all pairs that have been made. -/
structure Moment.Disciplined (src dst : Tree) (p : Pairing) (m : Moment) : Prop where
  pushedSrc : m.pushedSrc.Nodup ∧ ∀ x ∈ m.descent.src.nodes, x ∈ m.pushedSrc
  pushedDst : m.pushedDst.Nodup ∧ ∀ y ∈ m.descent.dst.nodes, y ∈ m.pushedDst
  antichainSrc : src.Antichain (m.todo.flatMap (·.src) ++ (m.descent.src.nodes ++
    (m.descent.deferred.flatMap (·.src) ++ m.roots.map (·.1))))
  antichainDst : dst.Antichain (m.todo.flatMap (·.dst) ++ (m.descent.dst.nodes ++
    (m.descent.deferred.flatMap (·.dst) ++ m.roots.map (·.2))))
  descending : m.levels.Pairwise (· < ·)
  pairs : m.pairing.pairs = p.pairs ++ blockPairs src dst m.roots

theorem Frontier.antichain {log xs : List NodeId} (h : Frontier t log xs) : t.Antichain xs :=
  ⟨h.clear.nodup, fun _ hx _ hy hxy => h.clear.eq_of_under hx hy hxy⟩

theorem OneSide.pushed {levels : List Nat} {log grouped waiting aside : List NodeId}
    (h : OneSide c t levels log grouped waiting aside) :
    log.Nodup ∧ ∀ x ∈ waiting, x ∈ log :=
  ⟨h.frontier.nodup, fun x hx => h.frontier.logged x (by simp [hx])⟩

theorem Moment.Kept.disciplined {m : Moment} (h : m.Kept c src dst p) : m.Disciplined src dst p :=
  ⟨h.left.pushed, h.right.pushed, h.left.frontier.antichain, h.right.frontier.antichain,
    h.descending, h.commits.pairs_eq⟩

/-- A descent that begins with any pairing keeps its discipline from its first moment to its last.
If it begins with none, the test for free subtrees has an answer that is known before: two subtrees
alone in their group are free, and two candidates are free if their roots are. -/
theorem descent_disciplined [TokenHash] (c : Config) (hs : src.Surveyed) (hd : dst.Surveyed)
    (hp : p.Sound) :
    ∃ last, (Identical.deferredGroups c src dst).run p =
        (.ok last.descent.deferred, last.pairing) ∧
      last.todo = [] ∧ (last.descent.src.nodes = [] ∨ last.descent.dst.nodes = []) ∧
      (∀ m, Moves c src dst (.start c src dst p) m →
        Moves c src dst m last ∧ m.Disciplined src dst p) ∧
      (p.isEmpty →
        (∀ m g gs a b, Moves c src dst (.start c src dst p) m → m.todo = g :: gs →
          g.src = [a] → g.dst = [b] → m.pairing.subtreesFree src dst a b = .ok true) ∧
        ∃ sorted, Identical.bySize src last.descent.deferred = .ok sorted ∧
          (∀ s a b rest, Service.Steps src dst ⟨sorted, [], last.pairing⟩ s →
            s.candidates = (a, b) :: rest →
            s.pairing.subtreesFree src dst a b = .ok (s.pairing.bothFree a b)) ∧
          ∃ out r, (Identical.run c src dst).run p = (out, r) ∧
            (out = .ok () ∧ Service.Steps src dst ⟨sorted, [], last.pairing⟩ ⟨[], [], r⟩ ∨
              out = .error .overflow ∧ ¬ (src.Small ∧ dst.Small))) := by
  have hdescent : Yields (fun _ => False) (Identical.deferredGroups c src dst) p _ :=
    Identical.yields_deferredGroups_moves hs hd hp
  obtain ⟨_, _, hdeferred, last, hmoves, idle, hend, rfl, rfl⟩ :=
    hdescent.exists_run.resolve_right (by simp)
  have hlast := moves_kept hs hd hmoves (.start hp)
  refine ⟨last, hdeferred, idle, hend, fun m hm => ⟨?_, ?_⟩, fun hempty => ⟨?_, ?_⟩⟩
  · exact moves_to_last hm hmoves fun _ => Moment.not_move idle hend
  · exact (moves_kept hs hd hm (.start hp)).disciplined
  · intro m g gs a b hm
    exact (moves_kept hs hd hm (.start hp)).subtreesFree_eq hs hd
      (moves_reserves hs hd hm hp hempty)
  · have hres := (moves_reserves hs hd hmoves hp hempty).reserved
    have hagenda := Service.Agenda.of_reserved hres hlast.orderly.deferred
    obtain ⟨sorted, hsorted, hperm⟩ := Identical.gives_bySize_perm hs fun g hg a ha =>
      ((hagenda.eligible g hg).left a ha).reaches
    have hkept := Service.Kept.start hres
      ((hlast.commits.grows hs hd).between (hp.between_of_isEmpty hempty)) hperm
    have hrun : Yields (Overflows src dst) (Identical.run c src dst) p fun _ r =>
        Service.Steps src dst ⟨sorted, [], last.pairing⟩ ⟨[], [], r⟩ := by
      rw [Identical.run_eq]
      refine .bind (.of_run hdeferred (.bind (.lift (.of_eq hsorted) ?_)))
      rintro _ rfl
      exact Service.yields_serveGroups_steps hs hd hagenda hkept
    refine ⟨sorted, hsorted, fun s a b rest hsteps => ?_, ?_⟩
    · exact (Service.steps_kept hs hd hagenda hsteps hkept).subtreesFree_eq hs hd hagenda
    · rcases hrun.exists_run with ⟨_, r, hrun, hsteps⟩ | ⟨_, r, hrun, rfl, hlarge⟩
      · exact ⟨_, r, hrun, .inl ⟨rfl, hsteps⟩⟩
      · exact ⟨_, r, hrun, .inr ⟨rfl, hlarge⟩⟩

def border : Tree := (Identical.hedge.grow 1 3).grow 6 4

def longBorder : Tree := (Identical.longHedge.grow 1 3).grow 8 4

attribute [local instance] TokenHash.ofKind

/-- The subtrees that occur once are paired, and the others are put off and then served. -/
theorem descent_disciplined_border :
    ∃ last, (Identical.deferredGroups {} border.measured longBorder.measured).run .empty =
        (.ok last.descent.deferred, last.pairing) ∧
      last.descent.deferred.map (fun g => (g.src, g.dst)) = [([2, 4], [2, 4, 6])] ∧
      last.pairing.pairs = [(6, 8), (7, 9)] ∧
      last.todo = [] ∧ (last.descent.src.nodes = [] ∨ last.descent.dst.nodes = []) ∧
      (∀ m, Moves {} border.measured longBorder.measured
          (.start {} border.measured longBorder.measured .empty) m →
        Moves {} border.measured longBorder.measured m last ∧
          m.Disciplined border.measured longBorder.measured .empty) ∧
      (∀ m g gs a b, Moves {} border.measured longBorder.measured
          (.start {} border.measured longBorder.measured .empty) m → m.todo = g :: gs →
        g.src = [a] → g.dst = [b] →
        m.pairing.subtreesFree border.measured longBorder.measured a b = .ok true) ∧
      ∃ sorted, Identical.bySize border.measured last.descent.deferred = .ok sorted ∧
        (∀ s a b rest, Service.Steps border.measured longBorder.measured
            ⟨sorted, [], last.pairing⟩ s → s.candidates = (a, b) :: rest →
          s.pairing.subtreesFree border.measured longBorder.measured a b =
            .ok (s.pairing.bothFree a b)) ∧
        ∃ r, (Identical.run {} border.measured longBorder.measured).run .empty = (.ok (), r) ∧
          Service.Steps border.measured longBorder.measured ⟨sorted, [], last.pairing⟩
            ⟨[], [], r⟩ := by
  have hborder : border.Sound :=
    (((((sound_twig 5 0).addChild 2 _).addChild 1 _).addChild 4 _).addChild 1 _).addChild 6 _
  have hlong : longBorder.Sound :=
    (((((((sound_twig 6 0).addChild 2 _).addChild 1 _).addChild 4 _).addChild 1 _).addChild 6
      _).addChild 1 _).addChild 8 _
  obtain ⟨last, hdeferred, idle, hend, hall, hempty⟩ :=
    descent_disciplined {} hborder.surveyed hlong.surveyed .empty
  obtain ⟨hunique, sorted, hsorted, hserved, out, r, hrun, hout⟩ := hempty rfl
  have hmembers : (match ((Identical.deferredGroups {} border.measured
      longBorder.measured).run .empty).1 with
      | .ok groups => groups.map fun g => (g.src, g.dst)
      | .error _ => []) = [([2, 4], [2, 4, 6])] := by decide +kernel
  have hpairs : ((Identical.deferredGroups {} border.measured
      longBorder.measured).run .empty).2.pairs = [(6, 8), (7, 9)] := by decide +kernel
  rw [hdeferred] at hmembers hpairs
  refine ⟨last, hdeferred, hmembers, hpairs, idle, hend, hall, hunique, sorted, hsorted, hserved, r,
    ?_⟩
  rcases hout with ⟨rfl, hsteps⟩ | ⟨_, hlarge⟩
  · exact ⟨hrun, hsteps⟩
  · refine absurd ⟨hborder.measured.small ?_ ?_, hlong.measured.small ?_ ?_⟩ hlarge <;> decide

end TreeDelta
