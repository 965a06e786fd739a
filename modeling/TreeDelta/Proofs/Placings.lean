import TreeDelta.Proofs.RoundTrip

namespace TreeDelta.Draft

variable {ε : Type}

/-- A node is linked: a slot for the partner of `x` is measured in `draft`, and `node` is put there
among the children that `parent` has in `work`. -/
structure Placing (ε : Type) where
  draft : Draft ε
  x : NodeId
  work : Forest
  parent : NodeId
  node : NodeId

/-- The placings of a visit of `x`: of a new partner, of one that hangs elsewhere, and of each stray
among the children. -/
inductive Makes (t : Task ε) (d : Draft ε) (x : NodeId) : Placing ε → Prop
  | insert {z : NodeId} {info : NodeInfo} (hz : d.targetParent t x = .ok z)
      (hx : d.pairing.origin? x = none) (hinfo : t.dst.info x = .ok info) :
      Makes t d x ⟨d, x, (d.work.alloc info).2, z, (d.work.alloc info).1⟩
  | relocate {z w : NodeId} {d' : Draft ε} (hz : d.targetParent t x = .ok z)
      (hw : d.pairing.origin? x = some w) (hupdate : d.update t w x = .ok d')
      (hin : d'.work.parent? w ≠ some z) : Makes t d x ⟨d', x, d'.work, z, w⟩
  | stray {w a b : NodeId} {pre post : List NodeId} {d₁ d₂ d₃ : Draft ε}
      (hbring : d.bring t x = .ok (w, d₁))
      (hstrays : (d₁.settle x).straysBelow t w x = .ok (d₂, pre ++ a :: post))
      (hmoved : moveStray t w d₂ pre = .ok d₃) (hb : d₃.pairing.image? a = some b) :
      Makes t d x ⟨{ d₃ with work := d₃.work.detach a }, b, d₃.work.detach a, w, a⟩

/-- The node is not put below itself, and what its slot is measured at is a child of the node below
which it is put. -/
structure Placing.Safe (t : Task ε) (c : Placing ε) : Prop where
  target : c.draft.targetParent t c.x = .ok c.parent
  apart : ¬ c.work.Under c.node c.parent
  measured : ∃ u?, c.draft.predecessor t c.x = .ok u? ∧
    ∀ u ∈ u?, c.draft.work.parent? u = some c.parent
  linked : ∃ k f, c.draft.slotFor t c.x = .ok k ∧ c.work.insertAt c.parent c.node k = .ok f

/-- What holds between two visits when the nodes in `placed` were visited. -/
structure Arranged (t : Task ε) (src : Tree) (p : Pairing) (placed : List NodeId)
    (d : Draft ε) : Prop where
  links : d.work.Sound
  hung : ∀ y ∈ placed, ∃ w, d.pairing.origin? y = some w ∧
    (y = t.dst.root ∧ d.work.parent? w = some t.top ∨
      ∃ y' z, t.dst.forest.parent? y = some y' ∧ d.pairing.origin? y' = some z ∧
        d.work.parent? w = some z)
  paired : ∀ c, d.inOrder.contains c → ∃ u, d.pairing.origin? c = some u
  line : ∀ y ∈ placed, ∀ w, d.pairing.origin? y = some w →
    (lined d.inOrder.contains d.pairing.origin? (t.dst.forest.childrenOf y)).Sublist
      (d.work.childrenOf w)
  home : ∀ u, src.Reaches u → p.image? u = none → d.work.parent? u = src.home t.top u

variable {t : Task ε} {src dst : Tree} {p : Pairing} {placed ordered : List NodeId} {d : Draft ε}
  {w x : NodeId} {c : Placing ε}

theorem Base.arranged (hs : Setting t src p) (hb : Base t src p placed d.work d.pairing)
    (ho : Ordered t placed placed d) : Arranged t src p placed d where
  links := hb.links
  hung y hy := by
    obtain ⟨w, hw, hparent, -⟩ := hb.seated y hy
    refine ⟨w, hw, ?_⟩
    rcases hb.seat_cases (hb.closed y hy) with ⟨hnone, hz⟩ | ⟨y', -, hy', hz⟩
    · have hreach := (hb.live w y ((hb.pair w y).2 hw)).2
      exact .inl ⟨hs.dst_sound.eq_root hreach hnone, by rw [hparent, hz]⟩
    · exact .inr ⟨y', _, hy', hz, hparent⟩
  paired := ho.paired
  line := ho.line
  home u hu hfree := by
    refine hb.home u (hs.src_sound.has_of_reaches hu) fun b _ hub => ?_
    rw [hfree] at hub
    cases hub

theorem Base.predecessor_spec (hs : Setting t src p) (hb : Base t src p placed d.work d.pairing)
    (ho : Ordered t placed placed d) (hx : Next t placed x) (hno : d.inOrder.contains x = false) :
    ∃ u?, d.predecessor t x = .ok u? ∧
      ∀ u ∈ u?, d.work.parent? u = some (t.seat d.pairing x) := by
  rcases hb.seat_cases hx.parent with ⟨hroot, _⟩ | ⟨y, hy, hparent, hz⟩
  · exact ⟨none, predecessor_root (hs.dst_sound.has_of_reaches hx.reached) hroot hno, by simp⟩
  · exact Draft.predecessor_spec hs.dst_sound hb.links ho.paired hparent hno (ho.line y hy _ hz)

theorem Next.safe_insert (hs : Setting t src p) (hb : Base t src p placed d.work d.pairing)
    (ho : Ordered t placed placed d) (hx : Next t placed x) (hox : d.pairing.origin? x = none)
    (info : NodeInfo) :
    Placing.Safe t ⟨d, x, (d.work.alloc info).2, t.seat d.pairing x, (d.work.alloc info).1⟩ := by
  have hno := ho.not_contains_unpaired hox
  have hz := hb.has_seat hx.parent
  have hapart := Base.not_under_new hb.links info hz
  obtain ⟨k, hk, -⟩ := exists_slot hs hb ho hx hno (d.work.size + 1)
  exact ⟨targetParent_eq (hs.dst_sound.has_of_reaches hx.reached), hapart,
    hb.predecessor_spec hs ho hx hno, k, _, hk,
    (hb.links.alloc info).insertAt_eq ((d.work.has_alloc_iff _ _).2 (.inr hz))
      ((d.work.has_alloc_iff _ _).2 (.inl rfl)) hapart k⟩

theorem Next.safe_relocate (hs : Setting t src p) (hb : Base t src p placed d.work d.pairing)
    (ho : Ordered t placed placed d) (hx : Next t placed x) (hw : d.pairing.origin? x = some w)
    (hin : d.work.parent? w ≠ some (t.seat d.pairing x)) :
    Placing.Safe t ⟨d, x, d.work, t.seat d.pairing x, w⟩ := by
  have hno := ho.not_contains_away hs hb hx hw hin
  have hapart := hb.not_under_seat hx.fresh hx.parent hw
  obtain ⟨k, hk, -⟩ := exists_slot hs hb ho hx hno w
  exact ⟨targetParent_eq (hs.dst_sound.has_of_reaches hx.reached), hapart,
    hb.predecessor_spec hs ho hx hno, k, _, hk,
    hb.links.insertAt_eq (hb.has_seat hx.parent) (hb.live w x ((hb.pair w x).2 hw)).1 hapart k⟩

theorem Sorting.safe {a b : NodeId} {strays : List NodeId} (hs : Setting t src p)
    (hb : Base t src p placed d.work d.pairing) (hw : d.pairing.origin? x = some w)
    (h : Sorting t placed ordered x w (a :: strays) d) (hab : d.pairing.image? a = some b) :
    Placing.Safe t ⟨{ d with work := d.work.detach a }, b, d.work.detach a, w, a⟩ := by
  obtain ⟨hparent, b', hab', hpb, hno⟩ := h.stray a (by simp)
  rw [hab] at hab'
  cases hab'
  obtain ⟨k, hk, -⟩ := h.exists_slot hs hb hab
  refine ⟨?_, fun hu => hb.links.not_under_parent hparent (under_of_detach hu), ?_, k, _, hk,
    hb.insertAt_detach hparent k⟩
  · rw [targetParent_eq (Forest.has_of_parent? hpb)]
    exact congrArg _ (Task.seat_of_parent hpb hw)
  · have hline := h.line_detach hb
    exact Draft.predecessor_spec (d := { d with work := d.work.detach a }) hs.dst_sound
      (hb.links.detach a) h.others.paired hpb hno hline

theorem Makes.safe (hs : Setting t src p) (hb : Base t src p placed d.work d.pairing)
    (ho : Ordered t placed placed d) (hx : Next t placed x) (h : Makes t d x c) : c.Safe t := by
  have hhas := hs.dst_sound.has_of_reaches hx.reached
  have hm := stable_trivial t src p
  cases h with
  | insert hz hox _ =>
      rw [targetParent_eq hhas] at hz
      cases hz
      exact hx.safe_insert hs hb ho hox _
  | relocate hz hw hupdate hin =>
      rw [targetParent_eq hhas] at hz
      cases hz
      obtain ⟨d', hupdate', hpairing, -, hb', ho', -⟩ := update_spec hs hm hb ho hx hw trivial
      rw [hupdate] at hupdate'
      cases hupdate'
      rw [← hpairing] at hin hw ⊢
      exact hx.safe_relocate hs hb' ho' hw hin
  | @stray w a b pre post d₁ d₂ d₃ hbring hstrays hmoved hab =>
      obtain ⟨w', d₁', hbring', hw, hb₁, ho₁, -⟩ := bring_spec hs hm hb ho hx trivial
      rw [hbring] at hbring'
      cases hbring'
      obtain ⟨o, strays, hstrays', hstart⟩ := straysBelow_spec (d := d₁.settle x) hs hb₁ ho₁
        hx.fresh hw
      rw [hstrays] at hstrays'
      cases hstrays'
      obtain ⟨d₃', hmoved', hpairing, hb₃, hsorting, -⟩ := Sorting.moveStray
        (d := { d₁.settle x with inOrder := o }) hs hm hb₁ (by simp) (hx.children_fresh hs hb) hw
        hx.fresh hstart trivial
      rw [hmoved] at hmoved'
      cases hmoved'
      exact hsorting.safe hs hb₃ (by rw [hpairing]; exact hw) hab

abbrev drafting (src dst : Tree) (entry : Action → Forest → ε) : Task ε :=
  ⟨dst, src.forest.size + 1, entry⟩

/-- Before each visit of a draft all that was visited is arranged, the partner of the next node is
not above the place that it belongs to, and all that the visit places is placed safely. -/
theorem run_arranged (hsrc : src.Sound) (hdst : dst.Sound) (hp : p.Sound)
    (hwithin : p.Within src dst) (entry : Action → Forest → ε) {todo : List NodeId}
    (hsplit : dst.breadthFirst = placed ++ x :: todo) :
    ∃ d z, visitAll (drafting src dst entry) (start src p) placed = .ok d ∧
      Draft.run src dst p entry =
        (visitAll (drafting src dst entry) d (x :: todo)).map (drafting src dst entry, ·) ∧
      Arranged (drafting src dst entry) src p placed d ∧
      d.targetParent (drafting src dst entry) x = .ok z ∧
      (∀ w, d.pairing.origin? x = some w → ¬ d.work.Under w z) ∧
      ∀ c, Makes (drafting src dst entry) d x c → c.Safe (drafting src dst entry) := by
  have hs : Setting (drafting src dst entry) src p := ⟨hsrc, hdst, rfl, hp, hwithin⟩
  have hx : Next (drafting src dst entry) placed x := .of_split hs hsplit
  have hupto : dst.breadthFirst = [] ++ (placed ++ x :: todo) := hsplit
  obtain ⟨d, hrun, hb, ho⟩ := visitAll_upto
    (I := fun placed d => Base (drafting src dst entry) src p placed d.work d.pairing ∧
      Ordered (drafting src dst entry) placed placed d) hs
    (fun placed x d hx h => by
      obtain ⟨d', hvisit, hb', ho', -⟩ :=
        visit_spec hs (stable_trivial _ src p) h.1 h.2 hx trivial
      exact ⟨d', hvisit, hb', ho'⟩)
    hupto ⟨Base.start hs, .start⟩
  refine ⟨d, _, hrun, ?_, hb.arranged hs ho,
    targetParent_eq (hdst.has_of_reaches hx.reached),
    fun w hw => hb.not_under_seat hx.fresh hx.parent hw, fun c hc => hc.safe hs hb ho hx⟩
  change (visitAll (drafting src dst entry) (start src p) dst.breadthFirst >>= _) = _
  rw [hsplit, visitAll_append, hrun]
  exact bind_pure_comp _ _

/-- When a parent and its child are to change places, the child has already left the parent by the
time that the parent is put below it. -/
theorem run_arranged_swap :
    ∃ p, Pairing.empty.addAll [(1, 2), (2, 1)] = .ok p ∧ (twig 2 3).breadthFirst = [1] ++ [2] ∧
      ∃ d z,
        visitAll (drafting (twig 0 1) (twig 2 3) fun a _ => a) (start (twig 0 1) p) [1] = .ok d ∧
        Draft.run (twig 0 1) (twig 2 3) p (fun a _ => a) =
          (visitAll (drafting (twig 0 1) (twig 2 3) fun a _ => a) d [2]).map
            (drafting (twig 0 1) (twig 2 3) fun a _ => a, ·) ∧
        Arranged (drafting (twig 0 1) (twig 2 3) fun a _ => a) (twig 0 1) p [1] d ∧
        d.targetParent (drafting (twig 0 1) (twig 2 3) fun a _ => a) 2 = .ok z ∧
        (∀ w, d.pairing.origin? 2 = some w → ¬ d.work.Under w z) ∧
        ∀ c, Makes (drafting (twig 0 1) (twig 2 3) fun a _ => a) d 2 c →
          c.Safe (drafting (twig 0 1) (twig 2 3) fun a _ => a) := by
  obtain ⟨p, hadd, hp, hwithin⟩ := exists_swap 0 1 2 3
  have hsplit : (twig 2 3).breadthFirst = [1] ++ [2] := by decide
  exact ⟨p, hadd, hsplit,
    run_arranged (sound_twig 0 1) (sound_twig 2 3) hp hwithin (fun a _ => a) hsplit⟩

end TreeDelta.Draft
