import TreeDelta.Proofs.Comparison
import TreeDelta.Proofs.Pruning

namespace TreeDelta

/-- The tree `t` looks like `dst`. The nodes of `src` in it are those with partners, in the places
of their partners, and all other nodes are new. -/
structure Reproduces [TokenHash] (src dst : Tree) (p : Pairing) (t : Tree) : Prop where
  sound : t.Sound
  measures : t.measures = some (t.forest.measures t.root)
  agree : (t.forest.subtree t.root).agree
    (fun a b => t.forest.contentOf a == dst.forest.contentOf b &&
      (p.image? a == some b || decide (src.forest.size < a) && (p.origin? b).isNone))
    (dst.forest.subtree dst.root)

namespace Reproduces

variable {src dst t u : Tree} {p : Pairing} {a b : NodeId}

variable [TokenHash]

theorem contentTree_eq (h : Reproduces src dst p t) :
    t.forest.contentTree t.root = dst.forest.contentTree dst.root := by
  refine Rose.agree_eq_iff.1 ((Rose.agree_map _ _ _ _).2 (Rose.agree_mono h.agree ?_))
  intro a _ b _ hab
  exact (Bool.and_eq_true _ _ ▸ hab).1

theorem sameAs (h : Reproduces src dst p t) : t.sameAs dst :=
  Tree.sameAs_iff.2 h.contentTree_eq

theorem forall₂_preorder (h : Reproduces src dst p t) :
    List.Forall₂ (fun a b => p.image? a = some b ∨ src.forest.size < a ∧ p.origin? b = none)
      t.preorder dst.preorder := by
  refine List.Forall₂.imp (fun a b hab => ?_) (Rose.forall₂_preorder h.agree)
  simp only [Bool.and_eq_true, Bool.or_eq_true, beq_iff_eq, decide_eq_true_eq,
    Option.isNone_iff_eq_none] at hab
  exact hab.2

theorem sameAs_of_reproduces (h : Reproduces src dst p t)
    (h' : Reproduces src dst p u) :
    u.sameAs t :=
  Tree.sameAs_iff.2 (h'.contentTree_eq.trans h.contentTree_eq.symm)

theorem getElem?_preorder (h : Reproduces src dst p t) (hp : p.Sound)
    (hwithin : p.Within src dst) (hdst : dst.Sound) (hab : p.image? a = some b) :
    ∃ i : Nat, t.preorder[i]? = some a ∧ dst.preorder[i]? = some b := by
  have hb : b ∈ dst.preorder := hdst.mem_preorder_iff.2 (hwithin a b hab).2
  obtain ⟨i, hi, hib⟩ := List.getElem_of_mem hb
  have hi' : i < t.preorder.length := h.forall₂_preorder.length_eq ▸ hi
  have hpair : p.image? t.preorder[i] = some b := by
    rcases (List.forall₂_iff_get.1 h.forall₂_preorder).2 i hi' hi with hpair | ⟨_, hfree⟩
    · rw [← hib]
      exact hpair
    · rw [← hib, hp.image_iff_origin] at hab
      rw [show p.origin? dst.preorder[i] = none from hfree] at hab
      cases hab
  refine ⟨i, ?_, List.getElem?_eq_some_iff.2 ⟨hi, hib⟩⟩
  exact List.getElem?_eq_some_iff.2 ⟨hi', hp.image_inj hpair hab⟩

theorem not_mem_preorder (h : Reproduces src dst p t) (ha : src.forest.has a)
    (hfree : p.image? a = none) : a ∉ t.preorder := by
  intro hmem
  obtain ⟨b, _, hpair | ⟨hlt, _⟩⟩ := forall₂_exists_of_mem h.forall₂_preorder hmem
  · rw [hfree] at hpair
    cases hpair
  · exact absurd hlt (Nat.not_lt.2 ((src.forest.has_iff_le a).1 ha).2)

end Reproduces

theorem forall₂_filterMap {α β : Type} {R : β → α → Prop} {g : α → Option β} {l : List α}
    (h : ∀ a ∈ l, ∃ b, g a = some b ∧ R b a) : List.Forall₂ R (l.filterMap g) l := by
  induction l with
  | nil => exact .nil
  | cons a l ih =>
      obtain ⟨b, hb, hab⟩ := h a (by simp)
      rw [List.filterMap_cons_some hb]
      exact .cons hab (ih fun c hc => h c (by simp [hc]))

namespace Draft

variable {ε : Type} {t : Task ε} {src : Tree} {p : Pairing} {d : Draft ε}
  {added removed : Std.HashSet NodeId} {r : Replay} {v w y : NodeId}

theorem added_of_under (hbun : Bundled src t.dst p added removed) {b : NodeId}
    (hy : added.contains y) (hyb : t.dst.forest.Under y b) : added.contains b := by
  induction hyb with
  | refl => exact hy
  | tail _ hb ih => exact hbun.added_below _ _ hb ih

/-- The counterpart of a partner carries a copy of the destination subtree. -/
theorem Mirror.agree (h : Finished t src p d) (hbun : Bundled src t.dst p added removed)
    (hm : Mirror t added (d.work.detachAll (taken src removed (d.leftovers t))) d.pairing r)
    (hy : t.dst.Reaches y) (hv : d.pairing.origin? y = some v)
    (hshown : Shown t added (d.work.detachAll (taken src removed (d.leftovers t))) d.pairing v) :
    (r.work.subtree (r.name v)).agree
      (fun a b => r.work.contentOf a == t.dst.forest.contentOf b &&
        (p.image? a == some b || decide (src.forest.size < a) && (p.origin? b).isNone))
      (t.dst.forest.subtree y) := by
  have hdst := h.setting.dst_sound.forest
  induction y using hdst.induction_children generalizing v with
  | step y ih =>
      have himage := (h.base.pair v y).2 hv
      by_cases hadded : added.contains y
      · refine Rose.agree_mono (hm.whole v y hshown himage hadded) fun a _ b hb hab => ?_
        have hfree := hbun.added_free b
          (added_of_under hbun hadded (hdst.mem_preorder_iff.1 hb))
        simp only [Bool.and_eq_true, decide_eq_true_eq] at hab
        have hlt : src.forest.size < a := by
          have := h.setting.top_eq ▸ hab.1
          exact Nat.lt_of_succ_lt this
        simp [hab.2, hfree, hlt]
      · have hplain : Plain added d.pairing v := by
          intro y' hy'
          rw [himage] at hy'
          cases hy'
          exact hadded
        rw [hm.links.subtree_eq, hdst.subtree_eq, hm.children v hshown hplain,
          h.children_remaining hbun (h.under_top hy hv) (.inr ⟨y, himage⟩),
          h.children_of_pair hv, Rose.agree_node, List.forall₂_map_left_iff,
          List.forall₂_map_left_iff, List.forall₂_map_right_iff]
        refine ⟨?_, ?_⟩
        · have hcontent : r.work.contentOf (r.name v) = t.dst.forest.contentOf y := by
            rw [hm.content v hshown, Forest.contentOf_eq, Forest.infoOf_detachAll,
              ← Forest.contentOf_eq, (h.parent_of_pair himage).2]
          rw [hcontent, beq_self_eq_true, Bool.true_and]
          rcases h.base.new v y himage with hold | ⟨hlt, hfree, _⟩
          · have hle := ((src.forest.has_iff_le v).1
              (h.setting.src_sound.has_of_reaches (h.setting.within v y hold).1)).2
            rw [hm.low v (h.setting.top_eq ▸ Nat.le_succ_of_le hle), hold, beq_self_eq_true,
              Bool.true_or]
          · have hhigh := h.setting.top_eq ▸ hm.high v hshown hlt
            simp [hfree, Nat.lt_of_succ_lt hhigh]
        · refine forall₂_filterMap fun c hc => ?_
          have hpar := (hdst.mem_children y c).1 hc
          obtain ⟨u, hu⟩ := h.exists_origin (hy.tail hpar)
          refine ⟨u, hu, ih c hc (hy.tail hpar) hu ?_⟩
          have hparent := (h.parent_of_pair ((h.base.pair u c).2 hu)).1
          rw [Task.seat_of_parent hpar hv] at hparent
          refine h.shown_pruned hbun _ hplain ?_
          rw [h.children_remaining hbun (h.under_top hy hv) (.inr ⟨y, himage⟩), List.mem_filter]
          exact ⟨(h.base.links.mem_children v u).2 hparent,
            Option.isSome_iff_exists.2 ⟨c, (h.base.pair u c).2 hu⟩⟩

theorem Mirror.result [TokenHash] (h : Finished t src p d)
    (hbun : Bundled src t.dst p added removed)
    (hm : Mirror t added (d.work.detachAll (taken src removed (d.leftovers t))) d.pairing r) :
    ∃ tree, r.result t.top = .ok tree ∧ Reproduces src t.dst p tree := by
  obtain ⟨w, hw⟩ := h.exists_origin (y := t.dst.root) .refl
  have hchildren : (d.work.detachAll (taken src removed (d.leftovers t))).childrenOf t.top = [w] := by
    rw [h.children_remaining hbun .refl (.inl rfl), h.children_of_top hw]
  have hshown := h.shown_pruned hbun (taken src removed (d.leftovers t)) h.base.plain_top
    (c := w) (by simp [hchildren])
  have htop : Shown t added (d.work.detachAll (taken src removed (d.leftovers t))) d.pairing
      t.top :=
    shown_of_plain hbun ((Forest.has_congr (Forest.size_detachAll _ _) _).2 h.base.has_top)
      h.base.plain_top
  have hroots : r.work.childrenOf t.top = [r.name w] := by
    have := hm.children t.top htop h.base.plain_top
    rwa [hchildren, hm.low t.top le_rfl] at this
  have hparent : r.work.parent? (r.name w) = some t.top :=
    (hm.links.mem_children _ _).1 (by simp [hroots])
  have hlinks := hm.links.detach (r.name w)
  refine ⟨_, by rw [Replay.result, hroots], ⟨hlinks, ?_, ?_⟩, rfl, ?_⟩
  · exact (Forest.has_congr (Forest.size_detach _ _) _).2 (hm.has w hshown)
  · exact (Forest.parent?_detach _ _ _).trans (if_pos rfl)
  · have hsub : (r.work.detach (r.name w)).subtree (r.name w) = r.work.subtree (r.name w) := by
      refine Forest.subtree_congr hm.links hlinks _ fun b hb => ?_
      rw [hm.links.childrenOf_detach, List.erase_of_not_mem]
      intro hmem
      exact hm.links.not_under_parent ((hm.links.mem_children b _).1 hmem) hb
    change ((r.work.detach (r.name w)).subtree (r.name w)).agree _ _
    rw [hsub]
    refine Rose.agree_mono (hm.agree h hbun .refl hw hshown) fun a _ b _ hab => ?_
    change ((r.work.detach (r.name w)).contentOf a == _ && _) = true
    rw [Forest.contentOf_detach]
    exact hab

end Draft

end TreeDelta
