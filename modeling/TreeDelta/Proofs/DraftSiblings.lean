import TreeDelta.Proofs.CommonSubsequences
import TreeDelta.Proofs.DraftBring

namespace TreeDelta

section Sets

variable (l : List NodeId) (s : Std.HashSet NodeId) (c : NodeId)

theorem contains_foldl_erase :
    (l.foldl Std.HashSet.erase s).contains c = (s.contains c && !l.contains c) := by
  induction l generalizing s with
  | nil => simp
  | cons a l ih =>
      rw [List.foldl_cons, ih, Std.HashSet.contains_erase, List.contains_cons, BEq.comm (a := a)]
      cases c == a <;> cases s.contains c <;> rfl

theorem contains_foldl_insert :
    (l.foldl Std.HashSet.insert s).contains c = (s.contains c || l.contains c) := by
  induction l generalizing s with
  | nil => simp
  | cons a l ih =>
      rw [List.foldl_cons, ih, Std.HashSet.contains_insert, List.contains_cons, BEq.comm (a := a)]
      cases c == a <;> cases s.contains c <;> rfl

end Sets

theorem filter_contains_of_sublist {l l' : List NodeId} (h : l'.Sublist l) (hl : l.Nodup) :
    l.filter l'.contains = l' := by
  induction h with
  | slnil => rfl
  | @cons l₁ l₂ a h ih =>
      rw [List.nodup_cons] at hl
      have ha : a ∉ l₁ := fun ha => hl.1 (h.subset ha)
      rw [List.filter_cons_of_neg (by simpa using ha), ih hl.2]
  | @cons_cons l₁ l₂ a h ih =>
      rw [List.nodup_cons] at hl
      rw [List.filter_cons_of_pos (by simp)]
      congr 1
      refine Eq.trans (List.filter_congr fun c hc => ?_) (ih hl.2)
      have hne : c ≠ a := fun he => hl.1 (he ▸ hc)
      simp [hne]

namespace Draft

variable {ε : Type}

/-- The children of `w`, the partner of `x`, are being put in order: `strays` are those that are
still to be moved, and all others stand in order. -/
structure Sorting (t : Task ε) (placed ordered : List NodeId) (x w : NodeId)
    (strays : List NodeId) (d : Draft ε) : Prop where
  others : Ordered t placed ordered d
  line : (lined d.inOrder.contains d.pairing.origin? (t.dst.forest.childrenOf x)).Sublist
    (d.work.childrenOf w)
  stray : ∀ a ∈ strays, d.work.parent? a = some w ∧ ∃ b, d.pairing.image? a = some b ∧
    t.dst.forest.parent? b = some x ∧ d.inOrder.contains b = false
  nodup : strays.Nodup
  rest : ∀ c ∈ t.dst.forest.childrenOf x, ∀ u, d.pairing.origin? c = some u →
    d.work.parent? u = some w → d.inOrder.contains c ∨ u ∈ strays

variable {t : Task ε} {src : Tree} {p : Pairing} {placed ordered strays : List NodeId}
  {d : Draft ε} {a b w x y z : NodeId}

theorem Sorting.finish (h : Sorting t placed ordered x w [] d)
    (hw : d.pairing.origin? x = some w) : Ordered t placed (ordered ++ [x]) d := by
  refine ⟨h.others.paired, h.others.rootless, ?_, ?_⟩
  · intro x' hx' w' hw'
    rcases List.mem_append.1 hx' with hx' | hx'
    · exact h.others.line x' hx' w' hw'
    · rw [List.mem_singleton.1 hx'] at hw' ⊢
      rw [hw] at hw'
      cases hw'
      exact h.line
  · intro x' hx' w' hw' c hc u hu hpu
    rcases List.mem_append.1 hx' with hx' | hx'
    · exact h.others.complete x' hx' w' hw' c hc u hu hpu
    · rw [List.mem_singleton.1 hx'] at hw' hc
      rw [hw] at hw'
      cases hw'
      simpa using h.rest c hc u hu hpu

theorem under_of_detach {f : Forest} {c : NodeId} (h : (f.detach c).Under a b) : f.Under a b := by
  refine Relation.ReflTransGen.mono (fun q r hqr => ?_) a b h
  rw [Forest.parent?_detach] at hqr
  split at hqr
  · cases hqr
  · exact hqr

theorem Sorting.line_detach (hb : Base t src p placed d.work d.pairing)
    (h : Sorting t placed ordered x w (a :: strays) d) :
    (lined d.inOrder.contains d.pairing.origin? (t.dst.forest.childrenOf x)).Sublist
      ((d.work.detach a).childrenOf w) := by
  obtain ⟨_, b, hab, _, hno⟩ := h.stray a (by simp)
  have hnot : a ∉ lined d.inOrder.contains d.pairing.origin? (t.dst.forest.childrenOf x) := by
    intro hmem
    obtain ⟨c, _, hc, hca⟩ := mem_lined.1 hmem
    rw [hb.origin_inj hca ((hb.pair a b).1 hab), hno] at hc
    cases hc
  rw [hb.links.childrenOf_detach, ← List.erase_of_not_mem hnot]
  exact h.line.erase a

theorem Base.insertAt_detach (hb : Base t src p placed d.work d.pairing)
    (hparent : d.work.parent? a = some w) (k : Nat) :
    (d.work.detach a).insertAt w a k = .ok (d.work.place w a k) := by
  have hhas : ∀ j, (d.work.detach a).has j ↔ d.work.has j :=
    Forest.has_congr (Forest.size_detach d.work a)
  rw [(hb.links.detach a).insertAt_eq ((hhas w).2 (hb.links.has_parent hparent))
    ((hhas a).2 (Forest.has_of_parent? hparent))
    fun hu => hb.links.not_under_parent hparent (under_of_detach hu), Forest.place_detach]

theorem Sorting.exists_slot (hs : Setting t src p) (hb : Base t src p placed d.work d.pairing)
    (h : Sorting t placed ordered x w (a :: strays) d) (hab : d.pairing.image? a = some b) :
    ∃ k, { d with work := d.work.detach a }.slotFor t b = .ok k ∧
      k ≤ ((d.work.childrenOf w).erase a).length ∧
      ∀ O', (∀ c, O' c = (b == c || d.inOrder.contains c)) →
        (lined O' d.pairing.origin? (t.dst.forest.childrenOf x)).Sublist
          (((d.work.childrenOf w).erase a).take k ++
            a :: ((d.work.childrenOf w).erase a).drop k) := by
  obtain ⟨_, b', hb', hparent, hno⟩ := h.stray a (by simp)
  rw [hab] at hb'
  cases hb'
  have hba := (hb.pair a b).1 hab
  have hchildren := hb.links.childrenOf_detach a w
  have hline := h.line_detach hb
  obtain ⟨k, hk, hle, hslot⟩ := slotFor_spec (d := { d with work := d.work.detach a })
    hs.dst_sound (hb.links.detach a) h.others.paired hparent hno hline a
  change k ≤ ((d.work.detach a).childrenOf w).length at hle
  refine ⟨k, hk, hchildren ▸ hle, fun O' hO => ?_⟩
  rw [← hchildren]
  refine hslot O' d.pairing.origin? hO fun c => ?_
  split
  · next hc => rw [← hc, hba]
  · rfl

theorem Sorting.move (d' : Draft ε) {k : Nat} (hs : Setting t src p)
    (hb : Base t src p placed d.work d.pairing)
    (h : Sorting t placed ordered x w (a :: strays) d) (hw : d.pairing.origin? x = some w)
    (hx : x ∉ ordered) (hab : d.pairing.image? a = some b)
    (hwork : d'.work = d.work.place w a k) (hpairing : d'.pairing = d.pairing)
    (hcontains : ∀ c, d'.inOrder.contains c = (b == c || d.inOrder.contains c))
    (hslot : (lined d'.inOrder.contains d.pairing.origin? (t.dst.forest.childrenOf x)).Sublist
      (((d.work.childrenOf w).erase a).take k ++ a :: ((d.work.childrenOf w).erase a).drop k)) :
    Sorting t placed ordered x w strays d' := by
  obtain ⟨hparent, b', hb', hpb, -⟩ := h.stray a (by simp)
  rw [hab] at hb'
  cases hb'
  have hba := (hb.pair a b).1 hab
  have hhas := (hb.live w x ((hb.pair w x).2 hw)).1
  have hsame : ∀ j, d'.work.parent? j = d.work.parent? j := by
    intro j
    rw [hwork, Forest.parent?_place d.work w (hb.live a b hab).1]
    split
    · next hj => rw [← hj, hparent]
    · rfl
  have hnodup := List.nodup_cons.1 h.nodup
  refine ⟨⟨?_, ?_, ?_, ?_⟩, ?_, ?_, hnodup.2, ?_⟩
  · intro c hc
    rw [hpairing]
    by_cases hbc : b = c
    · exact ⟨a, hbc ▸ hba⟩
    · exact h.others.paired c (by simpa [hcontains, hbc] using hc)
  · intro c hc hroot
    have hbc : b ≠ c := by
      rintro rfl
      rw [hpb] at hroot
      cases hroot
    exact h.others.rootless c (by simpa [hcontains, hbc] using hc) hroot
  · -- below the partners of other nodes nothing changes
    intro x' hx' w' hw'
    rw [hpairing] at hw' ⊢
    have hne : w ≠ w' := fun he => hx (hb.origin_inj hw (he ▸ hw') ▸ hx')
    have hnot : a ∉ d.work.childrenOf w' := by
      intro hmem
      rw [hb.links.mem_children, hparent] at hmem
      exact hne (Option.some.inj hmem)
    rw [hwork, hb.links.childrenOf_place hhas, if_neg hne, List.erase_of_not_mem hnot]
    have hlined : lined d'.inOrder.contains d.pairing.origin? (t.dst.forest.childrenOf x') =
        lined d.inOrder.contains d.pairing.origin? (t.dst.forest.childrenOf x') := by
      refine lined_congr (fun c hc => ?_) fun _ _ _ => rfl
      have hbc : b ≠ c := by
        rintro rfl
        rw [hs.dst_sound.forest.mem_children, hpb] at hc
        exact hx (Option.some.inj hc ▸ hx')
      simp [hcontains, hbc]
    rw [hlined]
    exact h.others.line x' hx' w' hw'
  · intro x' hx' w' hw' c hc u hu hpu
    rw [hpairing] at hw' hu
    rw [hsame] at hpu
    rw [hcontains, h.others.complete x' hx' w' hw' c hc u hu hpu, Bool.or_true]
  · rw [hpairing, hwork, hb.links.childrenOf_place hhas, if_pos rfl]
    exact hslot
  · intro a' ha'
    obtain ⟨hpa', b', hb', hpb', hno'⟩ := h.stray a' (by simp [ha'])
    refine ⟨by rw [hsame, hpa'], b', by rw [hpairing, hb'], hpb', ?_⟩
    have hne : b ≠ b' := by
      rintro rfl
      have : a' = a := Option.some.inj (((hb.pair a' b).1 hb').symm.trans hba)
      exact hnodup.1 (this ▸ ha')
    simp [hcontains, hne, hno']
  · intro c hc u hu hpu
    rw [hpairing] at hu
    rw [hsame] at hpu
    rw [hcontains]
    rcases h.rest c hc u hu hpu with hin | hmem
    · simp [hin]
    · rcases List.mem_cons.1 hmem with rfl | hmem
      · simp [hb.origin_inj hba ((hb.pair u c).1 ((hb.pair u c).2 hu))]
      · exact .inr hmem

theorem Sorting.step {motive : Draft ε → Prop} (hs : Setting t src p)
    (hm : Stable t src p motive) (hb : Base t src p placed d.work d.pairing)
    (hplaced : x ∈ placed) (hfresh : ∀ b ∈ t.dst.forest.childrenOf x, b ∉ placed)
    (hw : d.pairing.origin? x = some w) (hx : x ∉ ordered)
    (h : Sorting t placed ordered x w (a :: strays) d) (hd : motive d) :
    ∃ d', (∀ rest, moveStray t w d (a :: rest) = moveStray t w d' rest) ∧
      d'.pairing = d.pairing ∧ Base t src p placed d'.work d'.pairing ∧
      Sorting t placed ordered x w strays d' ∧ motive d' := by
  obtain ⟨hparent, b, hab, hpb, -⟩ := h.stray a (by simp)
  obtain ⟨k, hk, hle, hslot⟩ := h.exists_slot hs hb hab
  have hba := (hb.pair a b).1 hab
  have hseat : t.seat d.pairing b = w := Task.seat_of_parent hpb hw
  have hplace : ∀ y, t.dst.forest.parent? b = some y → y ∈ placed := by
    intro y hy
    rw [hpb] at hy
    cases hy
    exact hplaced
  have hbx : b ∉ placed := hfresh b ((hs.dst_sound.forest.mem_children x b).2 hpb)
  have hb' : Base t src p placed (d.work.place w a k) d.pairing := by
    have := hb.reorder hplace hba (by rw [hseat, hparent]) k
    rwa [hseat] at this
  have hstep : Step t placed d (.move a b w k)
      (d.record t (d.work.place w a k) (.move a b w k)) := by
    have := Step.move (k := k) hbx hba hplace (by rw [hseat]; exact hle)
    rwa [hseat] at this
  refine ⟨(d.record t (d.work.place w a k) (.move a b w k)).settle b, fun rest => ?_, rfl, hb',
    h.move _ hs hb hw hx hab rfl rfl (contains_settle _ b) (hslot _ (contains_settle d b)),
    hm.quiet _ (d.inOrder.insert b) (hm.step placed placed d _ _ hb hstep hb' hd)⟩
  rw [moveStray, hab]
  change ({ d with work := d.work.detach a }.slotFor t b >>= _) = _
  rw [hk]
  change ((d.work.detach a).insertAt w a k >>= _) = _
  rw [hb.insertAt_detach hparent]
  rfl

theorem Sorting.moveStray {motive : Draft ε → Prop} {rest : List NodeId} (hs : Setting t src p)
    (hm : Stable t src p motive) (hb : Base t src p placed d.work d.pairing)
    (hplaced : x ∈ placed) (hfresh : ∀ b ∈ t.dst.forest.childrenOf x, b ∉ placed)
    (hw : d.pairing.origin? x = some w) (hx : x ∉ ordered)
    (h : Sorting t placed ordered x w (strays ++ rest) d) (hd : motive d) :
    ∃ d', moveStray t w d strays = .ok d' ∧ d'.pairing = d.pairing ∧
      Base t src p placed d'.work d'.pairing ∧ Sorting t placed ordered x w rest d' ∧
      motive d' := by
  induction strays generalizing d with
  | nil => exact ⟨d, rfl, rfl, hb, h, hd⟩
  | cons a strays ih =>
      obtain ⟨d₁, hmove, hpairing, hb₁, h₁, hd₁⟩ := h.step hs hm hb hplaced hfresh hw hx hd
      obtain ⟨d', hrun, hpairing', hrest⟩ := ih hb₁ (by rw [hpairing, hw]) h₁ hd₁
      exact ⟨d', (hmove strays).trans hrun, hpairing'.trans hpairing, hrest⟩

theorem moveStray_spec {motive : Draft ε → Prop} (hs : Setting t src p)
    (hm : Stable t src p motive) (hb : Base t src p placed d.work d.pairing)
    (hplaced : x ∈ placed) (hfresh : ∀ b ∈ t.dst.forest.childrenOf x, b ∉ placed)
    (hw : d.pairing.origin? x = some w) (hx : x ∉ ordered)
    (h : Sorting t placed ordered x w strays d) (hd : motive d) :
    ∃ d', moveStray t w d strays = .ok d' ∧ Base t src p placed d'.work d'.pairing ∧
      Ordered t placed (ordered ++ [x]) d' ∧ motive d' := by
  have hall : Sorting t placed ordered x w (strays ++ []) d := by rwa [List.append_nil]
  obtain ⟨d', hrun, hpairing, hb', h', hd'⟩ := hall.moveStray hs hm hb hplaced hfresh hw hx hd
  exact ⟨d', hrun, hb', h'.finish (by rw [hpairing, hw]), hd'⟩

theorem childrenToOrder_eq (hs : Setting t src p) (hb : Base t src p placed d.work d.pairing)
    (hw : d.work.has w) :
    d.childrenToOrder t w x = .ok ((d.work.childrenOf w).filter fun c =>
      (d.pairing.image? c).bind t.dst.forest.parent? == some x) := by
  rw [childrenToOrder, Forest.node_eq_ok hw]
  refine filterM_eq_ok (l := d.work.childrenOf w) fun c _ => ?_
  cases hc : d.pairing.image? c with
  | none => rfl
  | some y =>
      have hy := hs.dst_sound.has_of_reaches (hb.live c y hc).2
      change (t.dst.parent y >>= fun q => pure (q == some x)) = _
      rw [Tree.parent_eq_ok hy]
      rfl

theorem childrenInPlace_eq (hb : Base t src p placed d.work d.pairing) (hx : t.dst.forest.has x) :
    d.childrenInPlace t w x = .ok ((t.dst.forest.childrenOf x).filter fun c =>
      (d.pairing.origin? c).bind d.work.parent? == some w) := by
  rw [childrenInPlace, Tree.children_eq_ok hx]
  refine filterM_eq_ok (l := t.dst.forest.childrenOf x) fun c _ => ?_
  cases hc : d.pairing.origin? c with
  | none => rfl
  | some u =>
      change (d.work.node u >>= fun n => pure (n.parent == some w)) = _
      rw [Forest.node_eq_ok (hb.live u c ((hb.pair u c).2 hc)).1]
      rfl

/-- The children of `w` that are to be moved, and the draft in which of all the children of `x` only
those whose partners stay count as being in order. -/
def straysBelow (t : Task ε) (d : Draft ε) (w x : NodeId) :
    Except Fault (Draft ε × List NodeId) := do
  let all ← t.dst.children x
  let d := { d with inOrder := all.foldl Std.HashSet.erase d.inOrder }
  let left ← d.childrenToOrder t w x
  let right ← d.childrenInPlace t w x
  let common := (commonSubsequence d.pairing.joins left right).map (·.2)
  let kept := Std.HashSet.ofList common
  return ({ d with inOrder := common.foldl Std.HashSet.insert d.inOrder },
    left.filter fun a => !(d.pairing.image? a).any kept.contains)

theorem orderChildren_eq_moveStray (d : Draft ε) (w x : NodeId) :
    d.orderChildren t w x = d.straysBelow t w x >>= fun q => moveStray t w q.1 q.2 := by
  unfold orderChildren straysBelow
  simp only [bind_assoc, pure_bind]

theorem straysBelow_eq {left right : List NodeId} (hs : Setting t src p)
    (hb : Base t src p placed d.work d.pairing) (hw : d.work.has w) (hx : t.dst.forest.has x)
    (hleft : left = (d.work.childrenOf w).filter fun c =>
      (d.pairing.image? c).bind t.dst.forest.parent? == some x)
    (hright : right = (t.dst.forest.childrenOf x).filter fun c =>
      (d.pairing.origin? c).bind d.work.parent? == some w) :
    d.straysBelow t w x =
      .ok ({ d with
          inOrder := ((commonSubsequence d.pairing.joins left right).map (·.2)).foldl
            Std.HashSet.insert ((t.dst.forest.childrenOf x).foldl Std.HashSet.erase d.inOrder) },
        left.filter fun a => !(d.pairing.image? a).any
          (Std.HashSet.ofList
            ((commonSubsequence d.pairing.joins left right).map (·.2))).contains) := by
  set o := (t.dst.forest.childrenOf x).foldl Std.HashSet.erase d.inOrder
  subst hleft hright
  rw [straysBelow, Tree.children_eq_ok hx]
  change ({ d with inOrder := o }.childrenToOrder t w x >>= _) = _
  rw [childrenToOrder_eq (d := { d with inOrder := o }) hs hb hw]
  change ({ d with inOrder := o }.childrenInPlace t w x >>= _) = _
  rw [childrenInPlace_eq (d := { d with inOrder := o }) hb hx]
  rfl

theorem orderChildren_eq {left right : List NodeId} (hs : Setting t src p)
    (hb : Base t src p placed d.work d.pairing) (hw : d.work.has w) (hx : t.dst.forest.has x)
    (hleft : left = (d.work.childrenOf w).filter fun c =>
      (d.pairing.image? c).bind t.dst.forest.parent? == some x)
    (hright : right = (t.dst.forest.childrenOf x).filter fun c =>
      (d.pairing.origin? c).bind d.work.parent? == some w) :
    d.orderChildren t w x =
      moveStray t w
        { d with
          inOrder := ((commonSubsequence d.pairing.joins left right).map (·.2)).foldl
            Std.HashSet.insert ((t.dst.forest.childrenOf x).foldl Std.HashSet.erase d.inOrder) }
        (left.filter fun a => !(d.pairing.image? a).any
          (Std.HashSet.ofList
            ((commonSubsequence d.pairing.joins left right).map (·.2))).contains) := by
  rw [orderChildren_eq_moveStray, straysBelow_eq hs hb hw hx hleft hright]
  rfl

theorem Sorting.start {left right : List NodeId} {o : Std.HashSet NodeId} (hs : Setting t src p)
    (hb : Base t src p placed d.work d.pairing) (ho : Ordered t placed ordered d)
    (hx : x ∉ ordered)
    (hleft : left = (d.work.childrenOf w).filter fun c =>
      (d.pairing.image? c).bind t.dst.forest.parent? == some x)
    (hright : right.Sublist (t.dst.forest.childrenOf x))
    (hcontains : ∀ c, o.contains c = (d.inOrder.contains c && !(t.dst.forest.childrenOf x).contains c
      || ((commonSubsequence d.pairing.joins left right).map (·.2)).contains c)) :
    Sorting t placed ordered x w
      (left.filter fun a => !(d.pairing.image? a).any
        (Std.HashSet.ofList ((commonSubsequence d.pairing.joins left right).map (·.2))).contains)
      { d with inOrder := o } := by
  obtain ⟨hfst, hsnd, hrel⟩ := commonSubsequence_follows d.pairing.joins left right
  set common := (commonSubsequence d.pairing.joins left right).map (·.2) with hcommon
  have hsub : common.Sublist (t.dst.forest.childrenOf x) := hsnd.trans hright
  have hmem_left : ∀ a, a ∈ left ↔ d.work.parent? a = some w ∧
      ∃ b, d.pairing.image? a = some b ∧ t.dst.forest.parent? b = some x := by
    intro a
    rw [hleft, List.mem_filter, hb.links.mem_children, beq_iff_eq, Option.bind_eq_some_iff]
  have hpaired : ∀ c ∈ common, ∃ u, d.pairing.origin? c = some u := by
    intro c hc
    obtain ⟨q, hq, rfl⟩ := List.mem_map.1 hc
    exact ⟨q.1, (hb.pair _ _).1 (by simpa [Pairing.joins] using hrel q hq)⟩
  -- among the children of `x` exactly those of the common run are in order
  have hown : ∀ c ∈ t.dst.forest.childrenOf x, o.contains c = common.contains c := by
    intro c hc
    simp [hcontains, hc]
  have hother : ∀ c, c ∉ t.dst.forest.childrenOf x → o.contains c = d.inOrder.contains c := by
    intro c hc
    have hnot : c ∉ common := fun hmem => hc (hsub.subset hmem)
    simp [hcontains, hc, hnot]
  have horigin : common.filterMap d.pairing.origin? =
      (commonSubsequence d.pairing.joins left right).map Prod.fst := by
    rw [hcommon, List.filterMap_map, ← List.filterMap_eq_map]
    refine List.filterMap_congr fun q hq => ?_
    exact (hb.pair _ _).1 (by simpa [Pairing.joins] using hrel q hq)
  refine ⟨⟨?_, ?_, ?_, ?_⟩, ?_, ?_, ?_, ?_⟩
  · intro c hc
    by_cases hcx : c ∈ t.dst.forest.childrenOf x
    · exact hpaired c (by simpa [hown c hcx] using hc)
    · exact ho.paired c (hother c hcx ▸ hc)
  · intro c hc hroot
    have hcx : c ∉ t.dst.forest.childrenOf x := by
      rw [hs.dst_sound.forest.mem_children, hroot]
      simp
    exact ho.rootless c (hother c hcx ▸ hc) hroot
  · intro x' hx' w' hw'
    have hlined : lined o.contains d.pairing.origin? (t.dst.forest.childrenOf x') =
        lined d.inOrder.contains d.pairing.origin? (t.dst.forest.childrenOf x') := by
      refine lined_congr (fun c hc => hother c fun hcx => ?_) fun _ _ _ => rfl
      rw [hs.dst_sound.forest.mem_children] at hc hcx
      rw [hc] at hcx
      exact hx (Option.some.inj hcx ▸ hx')
    change (lined o.contains d.pairing.origin? _).Sublist _
    rw [hlined]
    exact ho.line x' hx' w' hw'
  · intro x' hx' w' hw' c hc u hu hpu
    refine (hother c fun hcx => ?_).trans (ho.complete x' hx' w' hw' c hc u hu hpu)
    rw [hs.dst_sound.forest.mem_children] at hc hcx
    rw [hc] at hcx
    exact hx (Option.some.inj hcx ▸ hx')
  · change (lined o.contains d.pairing.origin? _).Sublist _
    rw [lined, List.filter_congr hown,
      filter_contains_of_sublist hsub (hs.dst_sound.forest.nodup_children x), horigin]
    exact hfst.trans (hleft ▸ List.filter_sublist)
  · intro a ha
    obtain ⟨ha, hnot⟩ := List.mem_filter.1 ha
    obtain ⟨hparent, b, hab, hpb⟩ := (hmem_left a).1 ha
    refine ⟨hparent, b, hab, hpb, ?_⟩
    have hb : b ∉ common := by simpa [hab] using hnot
    change o.contains b = false
    rw [hown b ((hs.dst_sound.forest.mem_children x b).2 hpb)]
    simpa using hb
  · rw [hleft]
    exact ((hb.links.nodup_children w).filter _).filter _
  · intro c hc u hu hpu
    have huc := (hb.pair u c).2 hu
    have hleft : u ∈ left :=
      (hmem_left u).2 ⟨hpu, c, huc, (hs.dst_sound.forest.mem_children x c).1 hc⟩
    by_cases hmem : c ∈ common
    · exact .inl ((hown c hc).trans (by simpa using hmem))
    · exact .inr (List.mem_filter.2 ⟨hleft, by simpa [huc] using hmem⟩)

theorem straysBelow_spec (hs : Setting t src p) (hb : Base t src p placed d.work d.pairing)
    (ho : Ordered t placed ordered d) (hx : x ∉ ordered) (hw : d.pairing.origin? x = some w) :
    ∃ o strays, d.straysBelow t w x = .ok ({ d with inOrder := o }, strays) ∧
      Sorting t placed ordered x w strays { d with inOrder := o } := by
  obtain ⟨hhas, hreach⟩ := hb.live w x ((hb.pair w x).2 hw)
  refine ⟨_, _, straysBelow_eq hs hb hhas (hs.dst_sound.has_of_reaches hreach) rfl rfl,
    Sorting.start hs hb ho hx rfl List.filter_sublist fun c => ?_⟩
  rw [contains_foldl_insert, contains_foldl_erase]

/-- The children of the node that was just brought to its place are put in order. -/
theorem orderChildren_spec {motive : Draft ε → Prop} (hs : Setting t src p)
    (hm : Stable t src p motive) (hb : Base t src p placed d.work d.pairing)
    (ho : Ordered t placed ordered d) (hplaced : x ∈ placed)
    (hfresh : ∀ b ∈ t.dst.forest.childrenOf x, b ∉ placed) (hx : x ∉ ordered)
    (hw : d.pairing.origin? x = some w) (hd : motive d) :
    ∃ d', d.orderChildren t w x = .ok d' ∧ Base t src p placed d'.work d'.pairing ∧
      Ordered t placed (ordered ++ [x]) d' ∧ motive d' := by
  obtain ⟨o, strays, hstrays, hstart⟩ := straysBelow_spec hs hb ho hx hw
  obtain ⟨d', hrun, hrest⟩ := moveStray_spec (d := { d with inOrder := o }) hs hm hb hplaced
    hfresh hw hx hstart (hm.quiet d o hd)
  refine ⟨d', ?_, hrest⟩
  rw [orderChildren_eq_moveStray, hstrays]
  exact hrun

end Draft

end TreeDelta
