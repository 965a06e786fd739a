import TreeDelta.Proofs.DraftSiblings

namespace TreeDelta.Draft

variable {ε : Type} {t : Task ε} {src dst : Tree} {p : Pairing} {placed : List NodeId}
  {d : Draft ε} {x : NodeId} {motive : Draft ε → Prop}

theorem Next.children_fresh (hx : Next t placed x) (hs : Setting t src p)
    (hb : Base t src p placed d.work d.pairing) :
    ∀ b ∈ t.dst.forest.childrenOf x, b ∉ placed ++ [x] := by
  intro b hbx hmem
  have hparent := (hs.dst_sound.forest.mem_children x b).1 hbx
  rcases List.mem_append.1 hmem with hmem | hmem
  · exact hx.fresh (hb.closed b hmem x hparent)
  · rw [List.mem_singleton.1 hmem] at hparent
    exact hs.dst_sound.forest.not_under_parent hparent .refl

theorem visit_spec (hs : Setting t src p) (hm : Stable t src p motive)
    (hb : Base t src p placed d.work d.pairing) (ho : Ordered t placed placed d)
    (hx : Next t placed x) (hd : motive d) :
    ∃ d', d.visit t x = .ok d' ∧ Base t src p (placed ++ [x]) d'.work d'.pairing ∧
      Ordered t (placed ++ [x]) (placed ++ [x]) d' ∧ motive d' := by
  obtain ⟨w, d₁, hbring, hw, hb₁, ho₁, hd₁⟩ := bring_spec hs hm hb ho hx hd
  obtain ⟨d', horder, hrest⟩ := orderChildren_spec (d := d₁.settle x) hs hm hb₁ ho₁ (by simp)
    (hx.children_fresh hs hb) hx.fresh hw (hm.quiet d₁ _ hd₁)
  refine ⟨d', ?_, hrest⟩
  rw [visit, hbring]
  exact horder

theorem Next.of_split {todo : List NodeId} (hs : Setting t src p)
    (hsplit : t.dst.breadthFirst = placed ++ x :: todo) : Next t placed x := by
  have hlinks := hs.dst_sound.forest
  refine ⟨?_, hlinks.mem_breadthFirst_iff.1 (show x ∈ t.dst.breadthFirst by simp [hsplit]), ?_⟩
  · have hnd := hlinks.nodup_breadthFirst t.dst.root
    rw [show (t.dst.forest.subtree t.dst.root).breadthFirst = _ from hsplit] at hnd
    have := (List.nodup_cons.1 (List.nodup_middle.1 hnd)).1
    exact fun hmem => this (List.mem_append_left _ hmem)
  · intro y hy
    exact hlinks.respects_breadthFirst hs.dst_sound.root_parent placed x todo hsplit y
      (by simp [hy])

theorem visitAll_upto {I : List NodeId → Draft ε → Prop} {next todo : List NodeId}
    (hs : Setting t src p)
    (step : ∀ placed x d, Next t placed x → I placed d →
      ∃ d', d.visit t x = .ok d' ∧ I (placed ++ [x]) d')
    (hsplit : t.dst.breadthFirst = placed ++ (next ++ todo)) (hI : I placed d) :
    ∃ d', visitAll t d next = .ok d' ∧ I (placed ++ next) d' := by
  induction next generalizing placed d with
  | nil => exact ⟨d, rfl, by rwa [List.append_nil]⟩
  | cons x next ih =>
      obtain ⟨d₁, hvisit, hI₁⟩ := step placed x d (.of_split hs hsplit) hI
      obtain ⟨d', hrun, hI'⟩ := ih (by simpa using hsplit) hI₁
      refine ⟨d', ?_, by simpa using hI'⟩
      rw [visitAll, hvisit]
      exact hrun

theorem visitAll_induct {I : List NodeId → Draft ε → Prop} {todo : List NodeId}
    (hs : Setting t src p)
    (step : ∀ placed x d, Next t placed x → I placed d →
      ∃ d', d.visit t x = .ok d' ∧ I (placed ++ [x]) d')
    (hsplit : t.dst.breadthFirst = placed ++ todo) (hI : I placed d) :
    ∃ d', visitAll t d todo = .ok d' ∧ I t.dst.breadthFirst d' := by
  have hall : t.dst.breadthFirst = placed ++ (todo ++ []) := by rwa [List.append_nil]
  obtain ⟨d', hrun, hI'⟩ := visitAll_upto hs step hall hI
  exact ⟨d', hrun, hsplit ▸ hI'⟩

theorem visitAll_append (d : Draft ε) (xs ys : List NodeId) :
    visitAll t d (xs ++ ys) = visitAll t d xs >>= fun d' => visitAll t d' ys := by
  induction xs generalizing d with
  | nil => rfl
  | cons x xs ih =>
      rw [List.cons_append, visitAll, visitAll, bind_assoc]
      exact bind_congr fun d' => ih d'

theorem visitAll_spec {todo : List NodeId} (hs : Setting t src p) (hm : Stable t src p motive)
    (hsplit : t.dst.breadthFirst = placed ++ todo)
    (hb : Base t src p placed d.work d.pairing) (ho : Ordered t placed placed d) (hd : motive d) :
    ∃ d', visitAll t d todo = .ok d' ∧ Base t src p t.dst.breadthFirst d'.work d'.pairing ∧
      Ordered t t.dst.breadthFirst t.dst.breadthFirst d' ∧ motive d' :=
  visitAll_induct (I := fun placed d => Base t src p placed d.work d.pairing ∧
      Ordered t placed placed d ∧ motive d) hs
    (fun _ _ _ hx h => visit_spec hs hm h.1 h.2.1 hx h.2.2) hsplit ⟨hb, ho, hd⟩

def start (src : Tree) (p : Pairing) : Draft ε :=
  { work := (src.forest.underTop src.root).2, pairing := p }

theorem underTop_eq (f : Forest) (root : NodeId) :
    f.underTop root =
      (f.size + 1, (f.alloc ⟨⟨.top, none⟩, 0, 0, {}⟩).2.place (f.size + 1) root 0) := rfl

theorem parent?_underTop (h : src.Sound) (j : NodeId) :
    (src.forest.underTop src.root).2.parent? j =
      if src.root = j then some (src.forest.size + 1) else src.forest.parent? j := by
  rw [underTop_eq, Forest.parent?_place _ _ ((src.forest.has_alloc_iff _ _).2 (.inr h.has_root)),
    Forest.parent?_alloc]

theorem childrenOf_underTop (h : src.Sound) (j : NodeId) :
    (src.forest.underTop src.root).2.childrenOf j =
      if src.forest.size + 1 = j then [src.root] else src.forest.childrenOf j := by
  have htop := (src.forest.has_alloc_iff ⟨⟨.top, none⟩, 0, 0, {}⟩ _).2 (.inl rfl)
  rw [underTop_eq, (h.forest.alloc _).childrenOf_place htop, Forest.childrenOf_alloc,
    Forest.childrenOf_alloc, List.erase_of_not_mem (h.root_notMem_children j),
    Forest.childrenOf_eq_nil src.forest.not_has_succ_size]
  rfl

theorem has_underTop_iff (src : Tree) (j : NodeId) :
    (src.forest.underTop src.root).2.has j ↔ j = src.forest.size + 1 ∨ src.forest.has j := by
  rw [← src.forest.has_alloc_iff ⟨⟨.top, none⟩, 0, 0, {}⟩ j]
  exact Forest.has_congr (Forest.size_place _ _ _ _) j

theorem contentOf_underTop {j : NodeId} (h : src.forest.has j) :
    (src.forest.underTop src.root).2.contentOf j = src.forest.contentOf j := by
  have hne : j ≠ src.forest.size + 1 := fun he => src.forest.not_has_succ_size (he ▸ h)
  rw [underTop_eq, Forest.contentOf_place, Forest.contentOf_eq, Forest.infoOf_alloc, if_neg hne,
    Forest.contentOf_eq]

theorem sound_underTop (h : src.Sound) : (src.forest.underTop src.root).2.Sound := by
  have hlink := h.forest.linkable_alloc ⟨⟨.top, none⟩, 0, 0, {}⟩ h.has_root
  obtain ⟨htop, hroot, hu⟩ := (h.forest.alloc _).linkable_iff.1 hlink
  exact (h.forest.alloc _).place htop hroot hu 0

theorem Base.start (hs : Setting t src p) :
    Base t src p [] (src.forest.underTop src.root).2 p := by
  have htop : ¬ src.forest.has t.top := by
    rw [hs.top_eq]
    exact src.forest.not_has_succ_size
  have hne : src.root ≠ t.top := fun he => htop (he ▸ hs.src_sound.has_root)
  constructor
  case links => exact sound_underTop hs.src_sound
  case has_top => exact (has_underTop_iff src _).2 (.inl hs.top_eq)
  case top_parent => rw [parent?_underTop hs.src_sound, if_neg hne, Forest.parent?_eq_none htop]
  case top_free =>
    cases himage : p.image? t.top with
    | none => rfl
    | some b => exact absurd (hs.src_sound.has_of_reaches (hs.within _ b himage).1) htop
  case pair => exact hs.pairs.image_iff_origin
  case old => exact fun _ _ hab => hab
  case new => exact fun _ _ hab => .inl hab
  case live =>
    intro a b hab
    obtain ⟨ha, hb⟩ := hs.within a b hab
    exact ⟨(has_underTop_iff src a).2 (.inr (hs.src_sound.has_of_reaches ha)), hb⟩
  case newcomer =>
    intro a ha hlt
    rcases (has_underTop_iff src a).1 ha with rfl | ha
    · rw [hs.top_eq] at hlt
      exact absurd hlt (Nat.lt_irrefl _)
    · have hle := ((src.forest.has_iff_le a).1 ha).2
      have := hs.top_eq
      grind
  case closed => simp
  case seated => simp
  case home =>
    intro u hu _
    rw [parent?_underTop hs.src_sound, Tree.home, hs.top_eq]
    by_cases hroot : src.root = u
    · rw [if_pos hroot, if_pos hroot.symm]
    · rw [if_neg hroot, if_neg (Ne.symm hroot)]

theorem Ordered.start : Ordered t [] [] (Draft.start src p) where
  paired c hc := by simp [Draft.start] at hc
  rootless c hc := by simp [Draft.start] at hc
  line := by simp
  complete := by simp

theorem run_eq {entry : Action → Forest → ε} {d : Draft ε}
    (h : visitAll ⟨dst, src.forest.size + 1, entry⟩ (start src p) dst.breadthFirst = .ok d) :
    Draft.run src dst p entry = .ok (⟨dst, src.forest.size + 1, entry⟩, d) := by
  change (visitAll ⟨dst, src.forest.size + 1, entry⟩ (start src p) dst.breadthFirst >>= _) = _
  rw [h]
  rfl

/-- The draft of a script comes to its end, with all partners in their places and in order. -/
theorem run_spec {entry : Action → Forest → ε}
    (hs : Setting ⟨dst, src.forest.size + 1, entry⟩ src p)
    (hm : Stable ⟨dst, src.forest.size + 1, entry⟩ src p motive) (hd : motive (start src p)) :
    ∃ d, Draft.run src dst p entry = .ok (⟨dst, src.forest.size + 1, entry⟩, d) ∧
      Base ⟨dst, src.forest.size + 1, entry⟩ src p dst.breadthFirst d.work d.pairing ∧
      Ordered ⟨dst, src.forest.size + 1, entry⟩ dst.breadthFirst dst.breadthFirst d ∧
      motive d := by
  obtain ⟨d, hrun, hrest⟩ := visitAll_spec (d := start src p) hs hm (List.nil_append _).symm
    (Base.start hs) .start hd
  exact ⟨d, run_eq hrun, hrest⟩

end TreeDelta.Draft
