import TreeDelta.Proofs.DraftOrder
import TreeDelta.Proofs.Outcome
import TreeDelta.Proofs.Traversal

namespace TreeDelta.Draft

variable {ε : Type}

/-- Below the partners of the nodes in `ordered`, the partners of all children that have arrived
there stand in order. -/
structure Ordered (t : Task ε) (placed ordered : List NodeId) (d : Draft ε) : Prop where
  paired : ∀ c, d.inOrder.contains c → ∃ u, d.pairing.origin? c = some u
  rootless : ∀ c, d.inOrder.contains c → t.dst.forest.parent? c = none → c ∈ placed
  line : ∀ x ∈ ordered, ∀ w, d.pairing.origin? x = some w →
    (lined d.inOrder.contains d.pairing.origin? (t.dst.forest.childrenOf x)).Sublist
      (d.work.childrenOf w)
  complete : ∀ x ∈ ordered, ∀ w, d.pairing.origin? x = some w →
    ∀ c ∈ t.dst.forest.childrenOf x, ∀ u, d.pairing.origin? c = some u →
      d.work.parent? u = some w → d.inOrder.contains c

/-- A property of drafts that every step preserves, whatever is known to be in order. -/
structure Stable (t : Task ε) (src : Tree) (p : Pairing) (motive : Draft ε → Prop) : Prop where
  quiet : ∀ d o, motive d → motive { d with inOrder := o }
  step : ∀ placed placed' d a d', Base t src p placed d.work d.pairing → Step t placed d a d' →
    Base t src p placed' d'.work d'.pairing → motive d → motive d'

theorem stable_trivial (t : Task ε) (src : Tree) (p : Pairing) : Stable t src p fun _ => True :=
  ⟨fun _ _ _ => trivial, fun _ _ _ _ _ _ _ _ _ => trivial⟩

variable {t : Task ε} {src : Tree} {p : Pairing} {placed : List NodeId} {d : Draft ε}
  {w x y z : NodeId}

theorem contains_settle (d : Draft ε) (x c : NodeId) :
    (d.settle x).inOrder.contains c = (x == c || d.inOrder.contains c) :=
  Std.HashSet.contains_insert

structure Next (t : Task ε) (placed : List NodeId) (x : NodeId) : Prop where
  fresh : x ∉ placed
  reached : t.dst.Reaches x
  parent : ∀ y, t.dst.forest.parent? x = some y → y ∈ placed

theorem Ordered.not_contains_unpaired {ordered : List NodeId} (ho : Ordered t placed ordered d)
    (hox : d.pairing.origin? x = none) : d.inOrder.contains x = false := by
  by_contra hc
  obtain ⟨u, hu⟩ := ho.paired x (by simpa using hc)
  rw [hox] at hu
  cases hu

theorem Ordered.not_contains_away (ho : Ordered t placed placed d) (hs : Setting t src p)
    (hb : Base t src p placed d.work d.pairing) (hx : Next t placed x)
    (hw : d.pairing.origin? x = some w)
    (hin : d.work.parent? w ≠ some (t.seat d.pairing x)) : d.inOrder.contains x = false := by
  by_contra hc
  have hc : d.inOrder.contains x := by simpa using hc
  rcases hb.seat_cases hx.parent with ⟨hroot, _⟩ | ⟨y, hy, hpar, hzy⟩
  · exact hx.fresh (ho.rootless x hc hroot)
  · have hmem := (ho.line y hy _ hzy).subset (mem_lined.2
      ⟨x, (hs.dst_sound.forest.mem_children y x).2 hpar, hc, hw⟩)
    exact hin ((hb.links.mem_children _ w).1 hmem)

theorem exists_slot (hs : Setting t src p) (hb : Base t src p placed d.work d.pairing)
    (ho : Ordered t placed placed d) (hx : Next t placed x) (hno : d.inOrder.contains x = false)
    (w : NodeId) :
    ∃ k, d.slotFor t x = .ok k ∧ k ≤ (d.work.childrenOf (t.seat d.pairing x)).length ∧
      ∀ (O' : NodeId → Bool) (o' : NodeId → Option NodeId),
        (∀ c, O' c = (x == c || d.inOrder.contains c)) →
        (∀ c, o' c = if x = c then some w else d.pairing.origin? c) →
        ∀ y, t.dst.forest.parent? x = some y →
        (lined O' o' (t.dst.forest.childrenOf y)).Sublist
          ((d.work.childrenOf (t.seat d.pairing x)).take k ++
            w :: (d.work.childrenOf (t.seat d.pairing x)).drop k) := by
  rcases hb.seat_cases hx.parent with ⟨hroot, _⟩ | ⟨y, hy, hparent, hz⟩
  · refine ⟨0, slotFor_root (hs.dst_sound.has_of_reaches hx.reached) hroot hno, Nat.zero_le _, ?_⟩
    intro _ _ _ _ y hy
    rw [hroot] at hy
    cases hy
  · obtain ⟨k, hk, hle, hline⟩ := slotFor_spec hs.dst_sound hb.links ho.paired hparent hno
      (ho.line y hy _ hz) w
    refine ⟨k, hk, hle, fun O' o' hO ho' y' hy' => ?_⟩
    rw [hparent] at hy'
    cases hy'
    exact hline O' o' hO ho'

theorem Ordered.enter {d' : Draft ε} {k : Nat} (hb : Base t src p placed d.work d.pairing)
    (ho : Ordered t placed placed d) (hx : Next t placed x)
    (horigin : ∀ c, d'.pairing.origin? c = if x = c then some w else d.pairing.origin? c)
    (hother : ∀ c u, x ≠ c → d.pairing.origin? c = some u → u ≠ w)
    (hchildren : ∀ j, d'.work.childrenOf j =
      if t.seat d.pairing x = j then
        (d.work.childrenOf j).take k ++ w :: (d.work.childrenOf j).drop k
      else (d.work.childrenOf j).erase w)
    (hparent : ∀ j, d'.work.parent? j = if w = j then some (t.seat d.pairing x)
      else d.work.parent? j)
    (hcontains : ∀ c, d'.inOrder.contains c = (x == c || d.inOrder.contains c))
    (hslot : ∀ y, t.dst.forest.parent? x = some y →
      (lined d'.inOrder.contains d'.pairing.origin? (t.dst.forest.childrenOf y)).Sublist
        ((d.work.childrenOf (t.seat d.pairing x)).take k ++
          w :: (d.work.childrenOf (t.seat d.pairing x)).drop k)) (hd : t.dst.Sound) :
    Ordered t (placed ++ [x]) placed d' := by
  refine ⟨?_, ?_, ?_, ?_⟩
  · intro c hc
    rw [horigin]
    split
    · exact ⟨w, rfl⟩
    · next hne => exact ho.paired c (by simpa [hcontains, hne] using hc)
  · intro c hc hroot
    by_cases hxc : x = c
    · simp [hxc]
    · exact List.mem_append_left _ (ho.rootless c (by simpa [hcontains, hxc] using hc) hroot)
  · intro x' hx' w' hw'
    have hne : x ≠ x' := fun he => hx.fresh (he ▸ hx')
    rw [horigin, if_neg hne] at hw'
    rw [hchildren]
    by_cases hz : t.seat d.pairing x = w'
    · -- the node whose children `w` enters is the partner of the parent of `x`
      rcases hb.seat_cases hx.parent with ⟨_, htop⟩ | ⟨y, hy, hpar, hzy⟩
      · rw [← hz, htop, ← hb.pair, hb.top_free] at hw'
        cases hw'
      · have hyx : y = x' := hb.origin_inj hzy (hz ▸ hw')
        subst hyx
        rw [if_pos hz, ← hz]
        exact hslot y hpar
    · rw [if_neg hz]
      have hnot : x ∉ t.dst.forest.childrenOf x' := by
        intro hmem
        have hpar := (hd.forest.mem_children x' x).1 hmem
        exact hz (Task.seat_of_parent hpar hw')
      have hsame : lined d'.inOrder.contains d'.pairing.origin? (t.dst.forest.childrenOf x') =
          lined d.inOrder.contains d.pairing.origin? (t.dst.forest.childrenOf x') := by
        have hneq : ∀ c ∈ t.dst.forest.childrenOf x', x ≠ c := fun c hc he => hnot (he ▸ hc)
        refine lined_congr (fun c hc => ?_) fun c hc _ => ?_
        · simp [hcontains, hneq c hc]
        · rw [horigin, if_neg (hneq c hc)]
      rw [hsame]
      have hw : w ∉ lined d.inOrder.contains d.pairing.origin? (t.dst.forest.childrenOf x') := by
        intro hmem
        obtain ⟨c, hc, _, hcw⟩ := mem_lined.1 hmem
        exact hother c w (fun he => hnot (he ▸ hc)) hcw rfl
      rw [← List.erase_of_not_mem hw]
      exact (ho.line x' hx' w' hw').erase w
  · intro x' hx' w' hw' c hc u hu hpu
    have hne : x ≠ x' := fun he => hx.fresh (he ▸ hx')
    rw [horigin, if_neg hne] at hw'
    rw [hcontains]
    by_cases hxc : x = c
    · simp [hxc]
    · rw [horigin, if_neg hxc] at hu
      rw [hparent, if_neg (Ne.symm (hother c u hxc hu))] at hpu
      simp [ho.complete x' hx' w' hw' c hc u hu hpu]

theorem insert_eq {k : Nat} {pairing : Pairing} (hs : Setting t src p)
    (hb : Base t src p placed d.work d.pairing) (hx : Next t placed x)
    (hk : d.slotFor t x = .ok k) (hadd : d.pairing.add (d.work.size + 1) x = .ok pairing) :
    d.insert t x (t.seat d.pairing x) = .ok (d.work.size + 1,
      { d with pairing := pairing }.record t
        ((d.work.alloc (t.dst.forest.infoOf x)).2.place (t.seat d.pairing x) (d.work.size + 1) k)
        (d.insertion t x k)) := by
  have hz := hb.has_seat hx.parent
  have hinsert := (hb.links.alloc (t.dst.forest.infoOf x)).insertAt_eq
    ((d.work.has_alloc_iff _ _).2 (.inr hz)) ((d.work.has_alloc_iff _ _).2 (.inl rfl))
    (Base.not_under_new hb.links _ hz) k
  rw [Draft.insert, hk, Tree.info_eq_ok (hs.dst_sound.has_of_reaches hx.reached)]
  change ((d.work.alloc (t.dst.forest.infoOf x)).2.insertAt _ (d.work.size + 1) k >>= _) = _
  rw [hinsert]
  change (d.pairing.add (d.work.size + 1) x >>= _) = _
  rw [hadd, insertion, Forest.contentOf_eq]
  rfl

theorem update_eq (hx : t.dst.forest.has x) (hw : d.work.has w) :
    d.update t w x = .ok (if d.work.contentOf w = t.dst.forest.contentOf x then d
      else d.record t (withContent d.work w (t.dst.forest.contentOf x)) (d.change t w x)) := by
  rw [update, Tree.info_eq_ok hx]
  change (d.work.node w >>= _) = _
  rw [Forest.node_eq_ok hw, change, withContent, Forest.contentOf_eq, Forest.contentOf_eq]
  change (if _ then _ else _) = _
  by_cases he : (d.work.infoOf w).toContent = (t.dst.forest.infoOf x).toContent
  · rw [if_pos he, if_pos (beq_iff_eq.2 he)]
    rfl
  · rw [if_neg he, if_neg (mt beq_iff_eq.1 he)]
    rfl

theorem relocate_eq {k : Nat} (hb : Base t src p placed d.work d.pairing) (hx : Next t placed x)
    (hw : d.pairing.origin? x = some w) (hk : d.slotFor t x = .ok k) :
    d.relocate t w x (t.seat d.pairing x) =
      .ok (d.record t (d.work.place (t.seat d.pairing x) w k)
        (.move w x (t.seat d.pairing x) k)) := by
  have hinsert := hb.links.insertAt_eq (hb.has_seat hx.parent)
    (hb.live w x ((hb.pair w x).2 hw)).1 (hb.not_under_seat hx.fresh hx.parent hw) k
  rw [relocate, hk]
  change (d.work.insertAt _ w k >>= _) = _
  rw [hinsert]
  rfl

theorem update_spec {motive : Draft ε → Prop} (hs : Setting t src p) (hm : Stable t src p motive)
    (hb : Base t src p placed d.work d.pairing) (ho : Ordered t placed placed d)
    (hx : Next t placed x) (hw : d.pairing.origin? x = some w) (hd : motive d) :
    ∃ d', d.update t w x = .ok d' ∧ d'.pairing = d.pairing ∧
      d'.work.contentOf w = t.dst.forest.contentOf x ∧
      Base t src p placed d'.work d'.pairing ∧ Ordered t placed placed d' ∧ motive d' := by
  have hlive := (hb.live w x ((hb.pair w x).2 hw)).1
  refine ⟨_, update_eq (hs.dst_sound.has_of_reaches hx.reached) hlive, ?_⟩
  by_cases he : d.work.contentOf w = t.dst.forest.contentOf x
  · rw [if_pos he]
    exact ⟨rfl, he, hb, ho, hd⟩
  · rw [if_neg he]
    have hb' := hb.update hx.fresh hw (t.dst.forest.contentOf x)
    have hparent : ∀ j, (withContent d.work w (t.dst.forest.contentOf x)).parent? j =
        d.work.parent? j :=
      Forest.parent?_modify_info d.work w fun n =>
        { n with kind := (t.dst.forest.contentOf x).kind, label := (t.dst.forest.contentOf x).label }
    have hchildren : ∀ j, (withContent d.work w (t.dst.forest.contentOf x)).childrenOf j =
        d.work.childrenOf j :=
      Forest.childrenOf_modify_info d.work w fun n =>
        { n with kind := (t.dst.forest.contentOf x).kind, label := (t.dst.forest.contentOf x).label }
    refine ⟨rfl, ?_, hb', ⟨ho.paired, ho.rootless, ?_, ?_⟩, ?_⟩
    · change (withContent d.work w (t.dst.forest.contentOf x)).contentOf w = _
      rw [Base.contentOf_withContent hlive, if_pos rfl]
    · intro x' hx' w' hw'
      change (lined _ _ _).Sublist ((withContent d.work w (t.dst.forest.contentOf x)).childrenOf w')
      rw [hchildren]
      exact ho.line x' hx' w' hw'
    · intro x' hx' w' hw' c hc u hu hpu
      exact ho.complete x' hx' w' hw' c hc u hu ((hparent u).symm.trans hpu)
    · exact hm.step placed placed d _ _ hb (.update hx.fresh hw he) hb' hd

theorem insert_spec {motive : Draft ε → Prop} (hs : Setting t src p) (hm : Stable t src p motive)
    (hb : Base t src p placed d.work d.pairing) (ho : Ordered t placed placed d)
    (hx : Next t placed x) (hox : d.pairing.origin? x = none) (hd : motive d) :
    ∃ w d', d.insert t x (t.seat d.pairing x) = .ok (w, d') ∧ d'.pairing.origin? x = some w ∧
      Base t src p (placed ++ [x]) d'.work d'.pairing ∧
      Ordered t (placed ++ [x]) placed (d'.settle x) ∧ motive d' := by
  have hz := hb.has_seat hx.parent
  have hnew : d.pairing.image? (d.work.size + 1) = none := by
    cases himage : d.pairing.image? (d.work.size + 1) with
    | none => rfl
    | some b => exact absurd (hb.live _ b himage).1 d.work.not_has_succ_size
  obtain ⟨pairing, hadd⟩ := Pairing.add_eq_ok_iff.2 ⟨hnew, hox⟩
  obtain ⟨k, hk, hle, hslot⟩ := exists_slot hs hb ho hx (ho.not_contains_unpaired hox)
    (d.work.size + 1)
  have hb' := hb.insert hs hx.fresh hx.reached hx.parent k hadd
  have horigin := Pairing.origin?_of_add hadd
  have hnochild : ∀ j, d.work.size + 1 ∉ d.work.childrenOf j :=
    fun j hj => d.work.not_has_succ_size (hb.links.has_child hj)
  refine ⟨_, _, insert_eq hs hb hx hk hadd, (horigin x).trans (if_pos rfl), hb', ?_, ?_⟩
  · refine Ordered.enter (w := d.work.size + 1) (k := k) hb ho hx horigin ?_ ?_ ?_
      (contains_settle _ x) ?_ hs.dst_sound
    · rintro c u _ hu rfl
      rw [← hb.pair, hnew] at hu
      cases hu
    · intro j
      change (Forest.place _ _ _ _).childrenOf j = _
      rw [(hb.links.alloc _).childrenOf_place ((d.work.has_alloc_iff _ _).2 (.inr hz))]
      simp only [Forest.childrenOf_alloc, List.erase_of_not_mem (hnochild _)]
      split
      · next hj => rw [hj]
      · rfl
    · exact Base.parent?_inserted _ k
    · exact fun y hy => hslot _ _ (contains_settle _ x) horigin y hy
  · exact hm.step placed (placed ++ [x]) d _ _ hb
      (.insert hx.fresh hx.reached hx.parent hle hadd) hb' hd

theorem Ordered.stay (hs : Setting t src p) (hb : Base t src p placed d.work d.pairing)
    (ho : Ordered t placed placed d) (hx : Next t placed x) (hw : d.pairing.origin? x = some w)
    (hin : d.work.parent? w = some (t.seat d.pairing x)) :
    Ordered t (placed ++ [x]) placed (d.settle x) := by
  have hknown : ∀ y, t.dst.forest.parent? x = some y → d.inOrder.contains x := by
    intro y hy
    rcases hb.seat_cases hx.parent with ⟨hroot, _⟩ | ⟨y', hy', hpar, hzy⟩
    · rw [hroot] at hy
      cases hy
    · exact ho.complete y' hy' _ hzy x ((hs.dst_sound.forest.mem_children y' x).2 hpar) w hw hin
  refine ⟨?_, ?_, ?_, ?_⟩
  · intro c hc
    rw [contains_settle] at hc
    by_cases hxc : x = c
    · exact ⟨w, hxc ▸ hw⟩
    · exact ho.paired c (by simpa [hxc] using hc)
  · intro c hc hroot
    rw [contains_settle] at hc
    by_cases hxc : x = c
    · simp [hxc]
    · exact List.mem_append_left _ (ho.rootless c (by simpa [hxc] using hc) hroot)
  · intro x' hx' w' hw'
    have hsame : lined (d.settle x).inOrder.contains d.pairing.origin?
        (t.dst.forest.childrenOf x') =
        lined d.inOrder.contains d.pairing.origin? (t.dst.forest.childrenOf x') := by
      refine lined_congr (fun c hc => ?_) fun c hc _ => rfl
      rw [contains_settle]
      by_cases hxc : x = c
      · subst hxc
        simp [hknown x' ((hs.dst_sound.forest.mem_children x' x).1 hc)]
      · simp [hxc]
    change (lined (d.settle x).inOrder.contains d.pairing.origin? _).Sublist _
    rw [hsame]
    exact ho.line x' hx' w' hw'
  · intro x' hx' w' hw' c hc u hu hpu
    rw [contains_settle, ho.complete x' hx' w' hw' c hc u hu hpu, Bool.or_true]

theorem relocate_spec {motive : Draft ε → Prop} (hs : Setting t src p)
    (hm : Stable t src p motive) (hb : Base t src p placed d.work d.pairing)
    (ho : Ordered t placed placed d) (hx : Next t placed x) (hw : d.pairing.origin? x = some w)
    (hcontent : d.work.contentOf w = t.dst.forest.contentOf x)
    (hin : d.work.parent? w ≠ some (t.seat d.pairing x)) (hd : motive d) :
    ∃ d', d.relocate t w x (t.seat d.pairing x) = .ok d' ∧ d'.pairing.origin? x = some w ∧
      Base t src p (placed ++ [x]) d'.work d'.pairing ∧
      Ordered t (placed ++ [x]) placed (d'.settle x) ∧ motive d' := by
  have hlive := (hb.live w x ((hb.pair w x).2 hw)).1
  obtain ⟨k, hk, hle, hslot⟩ := exists_slot hs hb ho hx (ho.not_contains_away hs hb hx hw hin) w
  have hnochild : w ∉ d.work.childrenOf (t.seat d.pairing x) :=
    mt (hb.links.mem_children _ w).1 hin
  have hb' := hb.relocate hs hx.fresh hx.parent hw hcontent k
  have horigin : ∀ c, d.pairing.origin? c = if x = c then some w else d.pairing.origin? c := by
    intro c
    split
    · next hc => rw [← hc, hw]
    · rfl
  refine ⟨_, relocate_eq hb hx hw hk, hw, hb', ?_, ?_⟩
  · refine Ordered.enter (w := w) (k := k) hb ho hx horigin ?_ ?_ ?_ (contains_settle _ x)
      ?_ hs.dst_sound
    · rintro c u hne hu rfl
      exact hne (hb.origin_inj hw hu)
    · intro j
      change (Forest.place _ _ _ _).childrenOf j = _
      rw [hb.links.childrenOf_place (hb.has_seat hx.parent)]
      split
      · next hj => rw [hj, List.erase_of_not_mem (hj ▸ hnochild)]
      · rfl
    · exact Forest.parent?_place d.work _ hlive k
    · exact fun y hy => hslot _ _ (contains_settle _ x) horigin y hy
  · refine hm.step placed (placed ++ [x]) d _ _ hb (.move hx.fresh hw hx.parent ?_) hb' hd
    rw [List.erase_of_not_mem hnochild]
    exact hle

/-- The partner of the next node comes to its place, with the content it is to have. -/
theorem bring_spec {motive : Draft ε → Prop} (hs : Setting t src p) (hm : Stable t src p motive)
    (hb : Base t src p placed d.work d.pairing) (ho : Ordered t placed placed d)
    (hx : Next t placed x) (hd : motive d) :
    ∃ w d', d.bring t x = .ok (w, d') ∧ d'.pairing.origin? x = some w ∧
      Base t src p (placed ++ [x]) d'.work d'.pairing ∧
      Ordered t (placed ++ [x]) placed (d'.settle x) ∧ motive d' := by
  have hhas := hs.dst_sound.has_of_reaches hx.reached
  cases hox : d.pairing.origin? x with
  | none =>
      obtain ⟨w, d', hinsert, hrest⟩ := insert_spec hs hm hb ho hx hox hd
      refine ⟨w, d', ?_, hrest⟩
      rw [bring, targetParent_eq hhas, hox]
      exact hinsert
  | some w =>
      obtain ⟨d₁, hupdate, hpair, hcontent, hb₁, ho₁, hd₁⟩ := update_spec hs hm hb ho hx hox hd
      have hw : d₁.pairing.origin? x = some w := by rw [hpair, hox]
      have hlive := (hb₁.live w x ((hb₁.pair w x).2 hw)).1
      have hbring : d.bring t x =
          if d₁.work.parent? w == some (t.seat d₁.pairing x) then .ok (w, d₁)
          else d₁.relocate t w x (t.seat d₁.pairing x) >>= fun d' => .ok (w, d') := by
        rw [bring, targetParent_eq hhas, hpair, hox]
        change (d.update t w x >>= _) = _
        rw [hupdate]
        change (d₁.work.node w >>= _) = _
        rw [Forest.node_eq_ok hlive]
        rfl
      by_cases hin : d₁.work.parent? w = some (t.seat d₁.pairing x)
      · refine ⟨w, d₁, ?_, hw, hb₁.settle hx.parent hw hin hcontent, ho₁.stay hs hb₁ hx hw hin, hd₁⟩
        rw [hbring, if_pos (beq_iff_eq.2 hin)]
      · obtain ⟨d', hmove, hrest⟩ := relocate_spec hs hm hb₁ ho₁ hx hw hcontent hin hd₁
        refine ⟨w, d', ?_, hrest⟩
        rw [hbring, if_neg (mt beq_iff_eq.1 hin), hmove]
        rfl

end TreeDelta.Draft
