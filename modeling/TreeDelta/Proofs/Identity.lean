import TreeDelta.Proofs.Chains
import TreeDelta.Proofs.Twins

namespace TreeDelta

variable {c : Config} {src dst : Tree} {p : Pairing} {n w x : NodeId}

namespace Draft

variable {ε : Type} {t : Task ε} {d : Draft ε}

structure Silent (src : Tree) (p : Pairing) (d : Draft ε) : Prop where
  work : d.work = (src.forest.underTop src.root).2
  pairing : d.pairing = p
  journal : d.journal = #[]

theorem parent?_of_parallel (hs : Setting t src p) (hp : p.Parallel src t.dst)
    (hwx : p.image? w = some x) :
    (src.forest.underTop src.root).2.parent? w = some (t.seat p x) := by
  rw [parent?_underTop hs.src_sound]
  cases hy : t.dst.forest.parent? x with
  | none =>
      obtain rfl := hs.dst_sound.eq_root (hs.within w x hwx).2 hy
      have hroot := hs.pairs.image_inj (hp.roots hs.src_sound hs.dst_sound) hwx
      rw [if_pos hroot, Task.seat_of_root hy, hs.top_eq]
  | some y =>
      obtain ⟨v, hvy, hparent⟩ := hp.parent hs.src_sound hs.dst_sound hwx hy
      have hne : src.root ≠ w := by
        rintro rfl
        rw [hs.src_sound.root_parent] at hparent
        cases hparent
      rw [if_neg hne, hparent, Task.seat_of_parent hy ((hs.pairs.image_iff_origin v y).1 hvy)]

theorem bring_of_parallel (hs : Setting t src p) (hp : p.Parallel src t.dst)
    (hd : Silent src p d) (hwx : p.image? w = some x) : d.bring t x = .ok (w, d) := by
  obtain ⟨hw, hx⟩ := hs.within w x hwx
  have hhas := hs.dst_sound.has_of_reaches hx
  have hlive : d.work.has w := by
    rw [hd.work]
    exact (has_underTop_iff src w).2 (.inr (hs.src_sound.has_of_reaches hw))
  have hcontent : d.work.contentOf w = t.dst.forest.contentOf x := by
    rw [hd.work, contentOf_underTop (hs.src_sound.has_of_reaches hw)]
    exact (hp.children hs.src_sound hs.dst_sound hwx).1
  have hparent : d.work.parent? w = some (t.seat d.pairing x) := by
    rw [hd.work, hd.pairing]
    exact parent?_of_parallel hs hp hwx
  have horigin : d.pairing.origin? x = some w := by
    rw [hd.pairing]
    exact (hs.pairs.image_iff_origin w x).1 hwx
  rw [bring, targetParent_eq hhas, horigin]
  change (d.update t w x >>= _) = _
  rw [update_eq hhas hlive, if_pos hcontent]
  change (d.work.node w >>= _) = _
  rw [Forest.node_eq_ok hlive]
  change (if d.work.parent? w == some (t.seat d.pairing x) then _ else _) = _
  rw [if_pos (beq_iff_eq.2 hparent)]
  rfl

theorem orderChildren_of_parallel (hs : Setting t src p) (hp : p.Parallel src t.dst)
    (hd : Silent src p d) (hwx : p.image? w = some x) :
    ∃ d', d.orderChildren t w x = .ok d' ∧ Silent src p d' := by
  obtain ⟨hw, hx⟩ := hs.within w x hwx
  have hsrc := hs.src_sound.has_of_reaches hw
  have hbase : Base t src p [] d.work d.pairing := by
    rw [hd.work, hd.pairing]
    exact .start hs
  have hlive := (hbase.live w x (hd.pairing ▸ hwx)).1
  obtain ⟨_, hchildren⟩ := hp.children hs.src_sound hs.dst_sound hwx
  have hleft : src.forest.childrenOf w = (d.work.childrenOf w).filter fun c =>
      (d.pairing.image? c).bind t.dst.forest.parent? == some x := by
    have hne : src.forest.size + 1 ≠ w := by
      rintro rfl
      exact src.forest.not_has_succ_size hsrc
    rw [hd.work, hd.pairing, childrenOf_underTop hs.src_sound, if_neg hne]
    symm
    apply List.filter_eq_self.2
    intro a ha
    obtain ⟨b, hb, hab⟩ := forall₂_exists_of_mem hchildren ha
    rw [hab]
    exact beq_iff_eq.2 ((hs.dst_sound.forest.mem_children x b).1 hb)
  have hright : t.dst.forest.childrenOf x = (t.dst.forest.childrenOf x).filter fun c =>
      (d.pairing.origin? c).bind d.work.parent? == some w := by
    rw [hd.work, hd.pairing]
    symm
    apply List.filter_eq_self.2
    intro b hb
    obtain ⟨a, _, hab⟩ := forall₂_exists_of_mem hchildren.flip hb
    have hseat : t.seat p b = w := Task.seat_of_parent
      ((hs.dst_sound.forest.mem_children x b).1 hb) ((hs.pairs.image_iff_origin w x).1 hwx)
    rw [(hs.pairs.image_iff_origin a b).1 hab, Option.bind_some, parent?_of_parallel hs hp hab,
      hseat, beq_self_eq_true]
  have hcommon : (commonSubsequence d.pairing.joins (src.forest.childrenOf w)
      (t.dst.forest.childrenOf x)).map (·.2) = t.dst.forest.childrenOf x := by
    have hjoins := hchildren.imp fun a b hab => show d.pairing.joins a b by
      rw [hd.pairing, Pairing.joins, hab, beq_self_eq_true]
    rw [commonSubsequence_of_forall₂ hjoins]
    exact List.map_snd_zip (Nat.le_of_eq hchildren.length_eq.symm)
  have hstrays : ((src.forest.childrenOf w).filter fun a => !(d.pairing.image? a).any
      (Std.HashSet.ofList (t.dst.forest.childrenOf x)).contains) = [] := by
    apply List.filter_eq_nil_iff.2
    intro a ha
    obtain ⟨b, hb, hab⟩ := forall₂_exists_of_mem hchildren ha
    simp [hd.pairing, hab, hb]
  rw [orderChildren_eq hs hbase hlive (hs.dst_sound.has_of_reaches hx) hleft hright, hcommon,
    hstrays]
  exact ⟨_, rfl, hd.work, hd.pairing, hd.journal⟩

theorem visit_of_parallel (hs : Setting t src p) (hp : p.Parallel src t.dst)
    (hd : Silent src p d) (hx : t.dst.Reaches x) :
    ∃ d', d.visit t x = .ok d' ∧ Silent src p d' := by
  obtain ⟨w, hwx⟩ := hp.exists_origin hs.src_sound hs.dst_sound hx
  have hsettled : Silent src p (d.settle x) := ⟨hd.work, hd.pairing, hd.journal⟩
  rw [visit, bring_of_parallel hs hp hd hwx]
  exact orderChildren_of_parallel hs hp hsettled hwx

theorem reaches_of_under_top (h : src.Sound)
    (hn : (src.forest.underTop src.root).2.Under (src.forest.size + 1) n) :
    n = src.forest.size + 1 ∨ src.Reaches n := by
  induction hn with
  | refl => exact .inl rfl
  | @tail m n _ hmn ih =>
      rw [parent?_underTop h] at hmn
      split at hmn
      · next hroot => exact .inr (hroot ▸ .refl)
      · rcases ih with rfl | hm
        · exact absurd (h.forest.has_parent hmn) src.forest.not_has_succ_size
        · exact .inr (hm.tail hmn)

/-- The script for trees that are paired position by position is empty. -/
theorem ofPairing_of_parallel (hsrc : src.Sound) (hdst : dst.Sound) (hp : p.Parallel src dst) :
    Script.ofPairing src dst p = .ok ⟨[], src.forest.size + 1⟩ := by
  have hs : Setting (scripting src dst) src p :=
    ⟨hsrc, hdst, rfl, hp.between.sound, hp.between.within⟩
  have hstep : ∀ placed x (d : Draft Action), Next (scripting src dst) placed x → Silent src p d →
      ∃ d', d.visit (scripting src dst) x = .ok d' ∧ Silent src p d' :=
    fun _ _ _ hx hd => visit_of_parallel hs hp hd hx.reached
  obtain ⟨d, hrun, hd⟩ := visitAll_induct (I := fun _ d => Silent src p d) hs hstep
    (List.nil_append _).symm (show Silent src p (start src p) from ⟨rfl, rfl, rfl⟩)
  have hleft : d.leftovers (scripting src dst) = [] := by
    apply List.filter_eq_nil_iff.2
    intro n hn
    rw [hd.work, (sound_underTop hsrc).mem_postorder_iff] at hn
    rcases reaches_of_under_top hsrc hn with rfl | hreach
    · simp
    · obtain ⟨b, hb⟩ := hp.exists_image hsrc hreach
      simp [Pairing.srcPaired, hd.pairing, hb]
  rw [Script.ofPairing, run_eq hrun]
  change Except.ok (script src dst d) = _
  rw [script, hleft, hd.journal]
  rfl

end Draft

theorem Script.replay_nil [TokenHash] (h : src.Sound) (dst : Tree) (top : NodeId) :
    ∃ t, Script.replay ⟨[], top⟩ src dst = .ok t ∧
      t.forest.contentTree t.root = src.forest.contentTree src.root := by
  have hlinks := Draft.sound_underTop h
  have hroot : (src.forest.underTop src.root).2.childrenOf (src.forest.size + 1) = [src.root] := by
    rw [Draft.childrenOf_underTop h, if_pos rfl]
  refine ⟨Tree.measured ⟨(src.forest.underTop src.root).2.detach src.root, src.root, none⟩, ?_, ?_⟩
  · change Replay.result (src.forest.size + 1) ⟨(src.forest.underTop src.root).2, _⟩ = _
    rw [Replay.result, hroot]
  · have hsub : ((src.forest.underTop src.root).2.detach src.root).subtree src.root =
        src.forest.subtree src.root := by
      apply Forest.subtree_congr h.forest (hlinks.detach _)
      intro b hb
      have hne : src.forest.size + 1 ≠ b := by
        rintro rfl
        exact src.forest.not_has_succ_size (h.has_of_reaches hb)
      rw [hlinks.childrenOf_detach, Draft.childrenOf_underTop h, if_neg hne,
        List.erase_of_not_mem (h.root_notMem_children b)]
    change (((src.forest.underTop src.root).2.detach src.root).subtree src.root).map
      ((src.forest.underTop src.root).2.detach src.root).contentOf = _
    rw [hsub]
    apply Rose.map_congr
    intro b hb
    rw [Forest.contentOf_detach]
    exact Draft.contentOf_underTop (h.has_of_reaches (h.mem_preorder_iff.1 hb))

theorem sameAs_of_empty_script [TokenHash] (hs : src.Sound) (hd : dst.Sound)
    (hp : p.Between src dst)
    {s : Script} (h : Script.ofPairing src dst p = .ok s) (form : Form)
    (hempty : (s.inForm src dst form).actions = []) : src.sameAs dst := by
  obtain ⟨s', hs', hforms⟩ := exists_script hs hd hp
  obtain rfl := Except.ok.inj (h.symm.trans hs')
  obtain ⟨_, t, hreplay, hrep⟩ := hforms form
  obtain ⟨t', hnil, hcontent⟩ := Script.replay_nil hs dst (s.inForm src dst form).top
  have hscript : s.inForm src dst form = ⟨[], (s.inForm src dst form).top⟩ := by
    rw [← hempty]
  rw [hscript] at hreplay
  obtain rfl := Except.ok.inj (hreplay.symm.trans hnil)
  exact Tree.sameAs_iff.2 (hcontent.symm.trans hrep.contentTree_eq)

theorem gives_between_twins [TokenHash] (hs : src.Surveyed) (hd : dst.Surveyed)
    (hsame : src.sameAs dst)
    (hroot : c.minPriority ≤ c.priorityOf (src.forest.measureOf src.root src.root) ∨
      src.preorder = [src.root]) (hdistance : ¬ DistanceFails c src dst) :
    Gives (Diff.between c src dst) fun d =>
      matching c src dst = .ok d.pairing ∧ Script.between c src dst = .ok d.script ∧
        d.pairing.pairs = src.preorder.zip dst.preorder ∧ d.script.isEmpty ∧
        d.condensed.isEmpty ∧ d.footprint.isEmpty := by
  obtain ⟨p, hmatching, hparallel, hpairs⟩ := gives_matching_twins hs hd hsame hroot hdistance
  have hscript := Draft.ofPairing_of_parallel hs.sound hd.sound hparallel
  have hbetween : Script.between c src dst = .ok ⟨[], src.forest.size + 1⟩ := by
    rw [Script.between, hmatching]
    exact hscript
  have hfootprint : ((⟨[], src.forest.size + 1⟩ : Script).condense src dst).footprint src dst =
      .ok {} := by
    change Except.ok (Footprint.union []) = _
    simp [Footprint.union, ascending, dropRepeats]
  rw [Diff.between]
  apply (Gives.of_eq hmatching).bind
  rintro _ rfl
  apply (Gives.of_eq hscript).bind
  rintro _ rfl
  apply (Gives.of_eq hfootprint).bind
  rintro _ rfl
  exact .pure ⟨hmatching, hbetween, hpairs, rfl, rfl, rfl⟩

/-- Only trees of one content have an empty script, whatever the configuration. And if the
priority of the source root is not too low, or it is the only node, trees of one content are
paired position by position, and nothing is done to them or touched. -/
theorem diff_identity [TokenHash] (c : Config) (hs : src.Surveyed) (hd : dst.Surveyed) :
    (∀ s, Script.between c src dst = .ok s → s.isEmpty ∨ (s.condense src dst).isEmpty →
      src.sameAs dst) ∧
    (src.sameAs dst →
      (∃ m, src.measure src.root = .ok m ∧ c.minPriority ≤ c.priorityOf m) ∨
        src.preorder = [src.root] →
      ¬ DistanceFails c src dst →
      ∃ d, Diff.between c src dst = .ok d ∧ matching c src dst = .ok d.pairing ∧
        Script.between c src dst = .ok d.script ∧
        d.pairing.pairs = src.preorder.zip dst.preorder ∧ d.script.isEmpty ∧
        d.condensed.isEmpty ∧ d.footprint.isEmpty) := by
  constructor
  · intro s hscript hempty
    obtain ⟨p, hmatching, hofPairing⟩ := exists_of_bind_eq_ok hscript
    have hmatched : p.Matched src dst := by
      rcases givesOr_matching c hs hd with ⟨q, hq, hm⟩ | ⟨_, hfail, _⟩
      · rw [hmatching] at hq
        exact Except.ok.inj hq ▸ hm
      · rw [hmatching] at hfail
        cases hfail
    rcases hempty with hempty | hempty
    · exact sameAs_of_empty_script hs.sound hd.sound hmatched.between hofPairing .plain
        (List.isEmpty_iff.1 hempty)
    · exact sameAs_of_empty_script hs.sound hd.sound hmatched.between hofPairing .condensed
        (List.isEmpty_iff.1 hempty)
  · intro hsame hroot hdistance
    refine gives_between_twins hs hd hsame (hroot.imp_left ?_) hdistance
    rintro ⟨m, hm, hmin⟩
    rw [hs.measure_eq_ok .refl] at hm
    exact Except.ok.inj hm ▸ hmin

def spreadTwig (a b : Nat) : Tree :=
  ((Tree.leaf { kind := .named a, pos := 3, length := 9 }).addChild 1
    { kind := .named b, pos := 5, length := 2 }).2

theorem surveyed_spreadTwig [TokenHash] (a b : Nat) : (spreadTwig a b).measured.Surveyed :=
  ((Tree.Sound.leaf _).addChild 1 _).surveyed

attribute [local instance] TokenHash.constant

/-- Spans do not matter. -/
theorem diff_identity_twigs :
    (twig 0 1).measured.Surveyed ∧ (spreadTwig 0 1).measured.Surveyed ∧
      (twig 0 1).measured.sameAs (spreadTwig 0 1).measured ∧
      ∃ d, Diff.between { recovery := .simple } (twig 0 1).measured (spreadTwig 0 1).measured =
          .ok d ∧
        d.pairing.pairs = [(1, 1), (2, 2)] ∧ d.script.isEmpty ∧ d.condensed.isEmpty ∧
        d.footprint.isEmpty := by
  have hs := (sound_twig 0 1).surveyed
  have hd := surveyed_spreadTwig 0 1
  have hlaw := diff_identity { recovery := .simple } hs hd
  obtain ⟨d, hbetween, _, hscript, hpairs, hempty, hrest⟩ := hlaw.2 rfl
    (.inl ⟨_, hs.measure_eq_ok .refl, by decide⟩) fun hfail => hfail.1 rfl
  exact ⟨hs, hd, hlaw.1 d.script hscript (.inl hempty), d, hbetween, hpairs, hempty, hrest⟩

end TreeDelta
