import TreeDelta.Proofs.DraftRun

namespace TreeDelta.Draft

variable {ε : Type}

structure Finished (t : Task ε) (src : Tree) (p : Pairing) (d : Draft ε) : Prop where
  setting : Setting t src p
  base : Base t src p t.dst.breadthFirst d.work d.pairing
  order : Ordered t t.dst.breadthFirst t.dst.breadthFirst d

variable {t : Task ε} {src : Tree} {p : Pairing} {d : Draft ε} {c n v w x y : NodeId}

namespace Finished

theorem visited (h : Finished t src p d) (hy : t.dst.Reaches y) : y ∈ t.dst.breadthFirst :=
  h.setting.dst_sound.forest.mem_breadthFirst_iff.2 hy

theorem parent_of_pair (h : Finished t src p d) (hc : d.pairing.image? c = some y) :
    d.work.parent? c = some (t.seat d.pairing y) ∧
      d.work.contentOf c = t.dst.forest.contentOf y := by
  obtain ⟨w, hw, hparent, hcontent⟩ :=
    h.base.seated y (h.visited (h.base.live c y hc).2)
  rw [(h.base.pair c y).1 hc] at hw
  cases hw
  exact ⟨hparent, hcontent⟩

theorem parent_cases (h : Finished t src p d) (hc : d.pairing.image? c = some y)
    (hv : d.work.parent? c = some v) :
    t.dst.forest.parent? y = none ∧ v = t.top ∨
      ∃ z, t.dst.forest.parent? y = some z ∧ d.pairing.origin? z = some v := by
  have hseat := (h.parent_of_pair hc).1
  rw [hv] at hseat
  rw [Option.some.inj hseat]
  have hy := h.visited (h.base.live c y hc).2
  rcases h.base.seat_cases (h.base.closed y hy) with htop | ⟨z, _, hz⟩
  · exact .inl htop
  · exact .inr ⟨z, hz⟩

theorem exists_origin (h : Finished t src p d) (hy : t.dst.Reaches y) :
    ∃ v, d.pairing.origin? y = some v := by
  obtain ⟨v, hv, _⟩ := h.base.seated y (h.visited hy)
  exact ⟨v, hv⟩

theorem children_of_pair (h : Finished t src p d) (hy : d.pairing.origin? y = some v) :
    (d.work.childrenOf v).filter d.pairing.srcPaired =
      (t.dst.forest.childrenOf y).filterMap d.pairing.origin? := by
  have hreach := (h.base.live v y ((h.base.pair v y).2 hy)).2
  have hdst := h.setting.dst_sound.forest
  have hplace : ∀ c ∈ t.dst.forest.childrenOf y, ∃ u, d.pairing.origin? c = some u ∧
      d.work.parent? u = some v := by
    intro c hc
    have hpar := (hdst.mem_children y c).1 hc
    obtain ⟨u, hu⟩ := h.exists_origin (hreach.tail hpar)
    refine ⟨u, hu, ?_⟩
    rw [(h.parent_of_pair ((h.base.pair u c).2 hu)).1, Task.seat_of_parent hpar hy]
  have hline := h.order.line y (h.visited hreach) v hy
  rw [lined, List.filter_eq_self.2 fun c hc => ?_] at hline
  · rw [← filter_contains_of_sublist hline (h.base.links.nodup_children v)]
    refine List.filter_congr fun u hu => ?_
    have hpu := (h.base.links.mem_children v u).1 hu
    rw [Bool.eq_iff_iff, Pairing.srcPaired, Option.isSome_iff_exists, List.contains_iff_mem,
      List.mem_filterMap]
    constructor
    · rintro ⟨c, hc⟩
      rcases h.parent_cases hc hpu with ⟨_, rfl⟩ | ⟨z, hpar, hz⟩
      · rw [← h.base.pair, h.base.top_free] at hy
        cases hy
      · rw [h.base.origin_inj hy hz]
        exact ⟨c, (hdst.mem_children z c).2 hpar, (h.base.pair u c).1 hc⟩
    · rintro ⟨c, _, hcu⟩
      exact ⟨c, (h.base.pair u c).2 hcu⟩
  · obtain ⟨u, hu, hpu⟩ := hplace c hc
    exact h.order.complete y (h.visited hreach) v hy c hc u hu hpu

theorem children_of_top (h : Finished t src p d) (hw : d.pairing.origin? t.dst.root = some w) :
    (d.work.childrenOf t.top).filter d.pairing.srcPaired = [w] := by
  have hroot := (h.parent_of_pair ((h.base.pair w _).2 hw)).1
  rw [Task.seat_of_root h.setting.dst_sound.root_parent] at hroot
  have hsub : [w].Sublist (d.work.childrenOf t.top) :=
    List.singleton_sublist.2 ((h.base.links.mem_children _ w).2 hroot)
  rw [← filter_contains_of_sublist hsub (h.base.links.nodup_children t.top)]
  refine List.filter_congr fun u hu => ?_
  have hpu := (h.base.links.mem_children _ u).1 hu
  rw [Bool.eq_iff_iff, Pairing.srcPaired, Option.isSome_iff_exists, List.contains_iff_mem,
    List.mem_singleton]
  constructor
  · rintro ⟨c, hc⟩
    rcases h.parent_cases hc hpu with ⟨hnone, _⟩ | ⟨y, _, hz⟩
    · rw [h.setting.dst_sound.eq_root (h.base.live u c hc).2 hnone, h.base.pair, hw] at hc
      exact (Option.some.inj hc).symm
    · rw [← h.base.pair, h.base.top_free] at hz
      cases hz
  · rintro rfl
    exact ⟨_, (h.base.pair u _).2 hw⟩

theorem under_top (h : Finished t src p d) (hy : t.dst.Reaches y)
    (hv : d.pairing.origin? y = some v) : d.work.Under t.top v := by
  induction hy generalizing v with
  | refl =>
      have hroot := (h.parent_of_pair ((h.base.pair v _).2 hv)).1
      rw [Task.seat_of_root h.setting.dst_sound.root_parent] at hroot
      exact .single hroot
  | tail hyz hpar ih =>
      obtain ⟨u, hu⟩ := h.exists_origin hyz
      have hparent := (h.parent_of_pair ((h.base.pair v _).2 hv)).1
      rw [Task.seat_of_parent hpar hu] at hparent
      exact (ih hu).tail hparent

theorem mem_leftovers_iff (h : Finished t src p d) :
    n ∈ d.leftovers t ↔ d.work.Under t.top n ∧ n ≠ t.top ∧ d.pairing.image? n = none := by
  rw [leftovers, List.mem_filter, h.base.links.mem_postorder_iff]
  simp [Pairing.srcPaired]

theorem leftover_home (h : Finished t src p d) (hhas : d.work.has n) (htop : n ≠ t.top)
    (hfree : d.pairing.image? n = none) :
    src.forest.has n ∧ n ≤ t.top ∧ d.work.parent? n = src.home t.top n := by
  have hle : n ≤ t.top := by
    by_contra hlt
    obtain ⟨b, hb⟩ := h.base.newcomer n hhas (Nat.lt_of_not_le hlt)
    rw [hfree] at hb
    cases hb
  have hsrc : src.forest.has n := by
    rw [src.forest.has_iff_le n]
    have hlt : n < t.top := Nat.lt_of_le_of_ne hle htop
    rw [h.setting.top_eq] at hlt
    exact ⟨((d.work.has_iff_le n).1 hhas).1, Nat.le_of_lt_succ hlt⟩
  refine ⟨hsrc, hle, h.base.home n hsrc fun b _ hpb => ?_⟩
  have := h.base.old n b hpb
  rw [hfree] at this
  cases this

theorem leftover_child (h : Finished t src p d) (hn : n ∈ d.leftovers t)
    (hc : d.work.parent? c = some n) : c ∈ d.leftovers t ∧ src.forest.parent? c = some n := by
  obtain ⟨hunder, htop, hfree⟩ := h.mem_leftovers_iff.1 hn
  have hcfree : d.pairing.image? c = none := by
    cases himage : d.pairing.image? c with
    | none => rfl
    | some b =>
        rcases h.parent_cases himage hc with ⟨_, ht⟩ | ⟨y, _, hz⟩
        · exact absurd ht htop
        · rw [← h.base.pair, hfree] at hz
          cases hz
  have hctop : c ≠ t.top := by
    rintro rfl
    rw [h.base.top_parent] at hc
    cases hc
  refine ⟨h.mem_leftovers_iff.2 ⟨hunder.tail hc, hctop, hcfree⟩, ?_⟩
  have hhome := (h.leftover_home (Forest.has_of_parent? hc) hctop hcfree).2.2
  rw [hc, Tree.home] at hhome
  split at hhome
  · exact absurd (Option.some.inj hhome) htop
  · exact hhome.symm

theorem respects_leftovers (h : Finished t src p d) {pre post : List NodeId}
    (hsplit : d.leftovers t = pre ++ n :: post) (hc : d.work.parent? c = some n) : c ∈ pre := by
  have hn : n ∈ d.leftovers t := by simp [hsplit]
  have hmem := (h.leftover_child hn hc).1
  rw [leftovers] at hsplit
  obtain ⟨l₁, l₂, hl, hpre, hpost⟩ := List.filter_eq_append_iff.1 hsplit
  obtain ⟨l₃, l₄, rfl, hl₃, _, _⟩ := List.filter_eq_cons_iff.1 hpost
  have hbefore := h.base.links.respects_postorder t.top (l₁ ++ l₃) n l₄ (by simp [hl]) c
    ((h.base.links.mem_children n c).2 hc)
  have hkeep := (List.mem_filter.1 hmem).2
  rcases List.mem_append.1 hbefore with hin | hin
  · rw [← hpre]
    exact List.mem_filter.2 ⟨hin, hkeep⟩
  · exact absurd hkeep (hl₃ c hin)

end Finished

end TreeDelta.Draft
