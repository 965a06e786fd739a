import TreeDelta.Proofs.Pairs
import TreeDelta.Script.Draft

namespace TreeDelta

def Tree.home (src : Tree) (top u : NodeId) : Option NodeId :=
  if u = src.root then some top else src.forest.parent? u

namespace Draft

variable {ε : Type}

/-- What a task is given: two trees and a pairing of nodes that their roots reach. -/
structure Setting (t : Task ε) (src : Tree) (p : Pairing) : Prop where
  src_sound : src.Sound
  dst_sound : t.dst.Sound
  top_eq : t.top = src.forest.size + 1
  pairs : p.Sound
  within : p.Within src t.dst

def Task.seat (t : Task ε) (q : Pairing) (x : NodeId) : NodeId :=
  ((t.dst.forest.parent? x).bind q.origin?).getD t.top

/-- The partners of the nodes in `placed` are where they belong, with the content they are to
have. The nodes above them are partners of nodes in `placed` too. -/
structure Base (t : Task ε) (src : Tree) (p : Pairing) (placed : List NodeId) (work : Forest)
    (pairing : Pairing) : Prop where
  links : work.Sound
  has_top : work.has t.top
  top_parent : work.parent? t.top = none
  top_free : pairing.image? t.top = none
  pair : ∀ a b, pairing.image? a = some b ↔ pairing.origin? b = some a
  old : ∀ a b, p.image? a = some b → pairing.image? a = some b
  new : ∀ a b, pairing.image? a = some b →
    p.image? a = some b ∨ t.top < a ∧ p.origin? b = none ∧ b ∈ placed
  live : ∀ a b, pairing.image? a = some b → work.has a ∧ t.dst.Reaches b
  newcomer : ∀ a, work.has a → t.top < a → ∃ b, pairing.image? a = some b
  closed : ∀ x ∈ placed, ∀ y, t.dst.forest.parent? x = some y → y ∈ placed
  seated : ∀ x ∈ placed, ∃ w, pairing.origin? x = some w ∧
    work.parent? w = some (t.seat pairing x) ∧ work.contentOf w = t.dst.forest.contentOf x
  home : ∀ u, src.forest.has u → (∀ b ∈ placed, p.image? u ≠ some b) →
    work.parent? u = src.home t.top u

def insertion (t : Task ε) (d : Draft ε) (x : NodeId) (k : Nat) : Action :=
  .insert (d.work.size + 1) x (t.seat d.pairing x) k (t.dst.forest.contentOf x).kind
    (t.dst.forest.contentOf x).label

def change (t : Task ε) (d : Draft ε) (w x : NodeId) : Action :=
  let old := d.work.contentOf w
  let new := t.dst.forest.contentOf x
  .update w x old.label new.label (if old.kind == new.kind then none else some new.kind)

def withContent (f : Forest) (w : NodeId) (c : Content) : Forest :=
  f.modify w fun n => { n with info := { n.info with kind := c.kind, label := c.label } }

/-- The steps that a draft can take while the nodes in `placed` are in their places. -/
inductive Step (t : Task ε) (placed : List NodeId) (d : Draft ε) : Action → Draft ε → Prop
  | insert {x : NodeId} {k : Nat} {pairing : Pairing} (hx : x ∉ placed) (hreach : t.dst.Reaches x)
      (hseat : ∀ y, t.dst.forest.parent? x = some y → y ∈ placed)
      (hk : k ≤ (d.work.childrenOf (t.seat d.pairing x)).length)
      (hadd : d.pairing.add (d.work.size + 1) x = .ok pairing) :
      Step t placed d (d.insertion t x k)
        ({ d with pairing := pairing }.record t
          ((d.work.alloc (t.dst.forest.infoOf x)).2.place (t.seat d.pairing x) (d.work.size + 1) k)
          (d.insertion t x k))
  | update {w x : NodeId} (hx : x ∉ placed) (hw : d.pairing.origin? x = some w)
      (hne : d.work.contentOf w ≠ t.dst.forest.contentOf x) :
      Step t placed d (d.change t w x)
        (d.record t (withContent d.work w (t.dst.forest.contentOf x)) (d.change t w x))
  | move {w x : NodeId} {k : Nat} (hx : x ∉ placed) (hw : d.pairing.origin? x = some w)
      (hseat : ∀ y, t.dst.forest.parent? x = some y → y ∈ placed)
      (hk : k ≤ ((d.work.childrenOf (t.seat d.pairing x)).erase w).length) :
      Step t placed d (.move w x (t.seat d.pairing x) k)
        (d.record t (d.work.place (t.seat d.pairing x) w k) (.move w x (t.seat d.pairing x) k))

variable {t : Task ε} {src : Tree} {p : Pairing} {placed : List NodeId}
  {work : Forest} {pairing : Pairing} {w x y z : NodeId}

theorem Step.journal_eq {d d' : Draft ε} {a : Action} (h : Step t placed d a d') :
    d'.journal = d.journal.push (t.entry a d'.work) := by
  cases h <;> rfl

theorem Task.seat_of_parent (hy : t.dst.forest.parent? x = some y)
    (hz : pairing.origin? y = some z) : t.seat pairing x = z := by
  simp [Task.seat, hy, hz]

theorem Task.seat_of_root (hx : t.dst.forest.parent? x = none) : t.seat pairing x = t.top := by
  simp [Task.seat, hx]

namespace Base

theorem origin_inj (h : Base t src p placed work pairing) (hx : pairing.origin? x = some w)
    (hy : pairing.origin? y = some w) : x = y := by
  rw [← h.pair] at hx hy
  exact Option.some.inj (hx.symm.trans hy)

theorem seat_cases (h : Base t src p placed work pairing)
    (hx : ∀ y, t.dst.forest.parent? x = some y → y ∈ placed) :
    t.dst.forest.parent? x = none ∧ t.seat pairing x = t.top ∨
      ∃ y ∈ placed, t.dst.forest.parent? x = some y ∧ pairing.origin? y = some (t.seat pairing x) := by
  cases hy : t.dst.forest.parent? x with
  | none => exact .inl ⟨rfl, Task.seat_of_root hy⟩
  | some y =>
      obtain ⟨z, hz, _⟩ := h.seated y (hx y hy)
      exact .inr ⟨y, hx y hy, rfl, by rw [Task.seat_of_parent hy hz, hz]⟩

theorem has_seat (h : Base t src p placed work pairing)
    (hx : ∀ y, t.dst.forest.parent? x = some y → y ∈ placed) : work.has (t.seat pairing x) := by
  rcases h.seat_cases hx with ⟨_, hz⟩ | ⟨y, _, _, hz⟩
  · rw [hz]
    exact h.has_top
  · exact (h.live _ _ ((h.pair _ _).2 hz)).1

theorem above_seat (h : Base t src p placed work pairing)
    (hx : ∀ y, t.dst.forest.parent? x = some y → y ∈ placed) (hw : work.Under w (t.seat pairing x)) :
    w = t.top ∨ ∃ y ∈ placed, pairing.origin? y = some w := by
  induction hw using Relation.ReflTransGen.head_induction_on with
  | refl =>
      rcases h.seat_cases hx with ⟨_, hz⟩ | ⟨y, hy, _, hz⟩
      · exact .inl hz
      · exact .inr ⟨y, hy, hz⟩
  | head hvw _ ih =>
      rcases ih with rfl | ⟨y, hy, hv⟩
      · rw [h.top_parent] at hvw
        cases hvw
      · obtain ⟨v, hv', hparent, _⟩ := h.seated y hy
        rw [hv] at hv'
        cases hv'
        rw [hvw] at hparent
        cases hparent
        rcases h.seat_cases (h.closed y hy) with ⟨_, hz⟩ | ⟨y', hy', _, hz⟩
        · exact .inl hz
        · exact .inr ⟨y', hy', hz⟩

theorem not_under_seat (h : Base t src p placed work pairing) (hx : x ∉ placed)
    (hseat : ∀ y, t.dst.forest.parent? x = some y → y ∈ placed)
    (hw : pairing.origin? x = some w) : ¬ work.Under w (t.seat pairing x) := by
  intro hwz
  rcases h.above_seat hseat hwz with rfl | ⟨y, hy, hyw⟩
  · rw [← h.pair, h.top_free] at hw
    cases hw
  · exact hx (h.origin_inj hw hyw ▸ hy)

theorem old_of_has (hs : Setting t src p) (h : Base t src p placed work pairing)
    (hu : src.forest.has w) (hw : pairing.image? w = some x) : p.image? w = some x := by
  rcases h.new w x hw with hold | ⟨hlt, _⟩
  · exact hold
  · have hle := ((src.forest.has_iff_le w).1 hu).2
    have := hs.top_eq
    grind

theorem contentOf_withContent (h : work.has w) (c : Content) (j : NodeId) :
    (withContent work w c).contentOf j = if w = j then c else work.contentOf j := by
  have hinfo := Forest.infoOf_modify_info work h
    (fun n => { n with kind := c.kind, label := c.label }) j
  rw [Forest.contentOf_eq, withContent, hinfo, Forest.contentOf_eq]
  split <;> rfl

theorem of_same_parents {work' : Forest} (h : Base t src p placed work pairing)
    (hlinks : work'.Sound) (hsize : work'.size = work.size)
    (hparent : ∀ j, work'.parent? j = work.parent? j)
    (hcontent : ∀ x ∈ placed, ∀ w, pairing.origin? x = some w →
      work'.contentOf w = work.contentOf w) : Base t src p placed work' pairing := by
  have hhas := Forest.has_congr hsize
  constructor
  case links => exact hlinks
  case has_top => exact (hhas _).2 h.has_top
  case top_parent => rw [hparent, h.top_parent]
  case top_free => exact h.top_free
  case pair => exact h.pair
  case old => exact h.old
  case new => exact h.new
  case live =>
    intro a b hab
    exact ⟨(hhas a).2 (h.live a b hab).1, (h.live a b hab).2⟩
  case newcomer =>
    intro a ha
    exact h.newcomer a ((hhas a).1 ha)
  case closed => exact h.closed
  case seated =>
    intro x hx
    obtain ⟨w, hw, hp, hc⟩ := h.seated x hx
    exact ⟨w, hw, by rw [hparent, hp], by rw [hcontent x hx w hw, hc]⟩
  case home =>
    intro u hu hfree
    rw [hparent]
    exact h.home u hu hfree

theorem update (h : Base t src p placed work pairing) (hx : x ∉ placed)
    (hw : pairing.origin? x = some w) (c : Content) :
    Base t src p placed (withContent work w c) pairing := by
  have hlive := (h.live w x ((h.pair w x).2 hw)).1
  apply h.of_same_parents
  · exact h.links.modify_info w fun n => { n with kind := c.kind, label := c.label }
  · exact Forest.size_modify work w _
  · exact Forest.parent?_modify_info work w fun n => { n with kind := c.kind, label := c.label }
  · intro x' hx' w' hw'
    have hne : w ≠ w' := by
      rintro rfl
      exact hx (h.origin_inj hw hw' ▸ hx')
    rw [contentOf_withContent hlive, if_neg hne]

theorem new_append {a b : NodeId} (h : Base t src p placed work pairing) (x : NodeId)
    (hab : pairing.image? a = some b) :
    p.image? a = some b ∨ t.top < a ∧ p.origin? b = none ∧ b ∈ placed ++ [x] := by
  rcases h.new a b hab with hold | ⟨hlt, hfree, hb⟩
  · exact .inl hold
  · exact .inr ⟨hlt, hfree, List.mem_append_left _ hb⟩

theorem closed_append (h : Base t src p placed work pairing)
    (hseat : ∀ y, t.dst.forest.parent? x = some y → y ∈ placed) :
    ∀ x' ∈ placed ++ [x], ∀ y, t.dst.forest.parent? x' = some y → y ∈ placed ++ [x] := by
  intro x' hx' y hy
  rcases List.mem_append.1 hx' with hx' | hx'
  · exact List.mem_append_left _ (h.closed x' hx' y hy)
  · rw [List.mem_singleton.1 hx'] at hy
    exact List.mem_append_left _ (hseat y hy)

theorem settle (h : Base t src p placed work pairing)
    (hseat : ∀ y, t.dst.forest.parent? x = some y → y ∈ placed)
    (hw : pairing.origin? x = some w) (hparent : work.parent? w = some (t.seat pairing x))
    (hc : work.contentOf w = t.dst.forest.contentOf x) :
    Base t src p (placed ++ [x]) work pairing := by
  constructor
  case links => exact h.links
  case has_top => exact h.has_top
  case top_parent => exact h.top_parent
  case top_free => exact h.top_free
  case pair => exact h.pair
  case old => exact h.old
  case new => exact fun a b hab => h.new_append x hab
  case live => exact h.live
  case newcomer => exact h.newcomer
  case closed => exact h.closed_append hseat
  case seated =>
    intro x' hx'
    rcases List.mem_append.1 hx' with hx' | hx'
    · exact h.seated x' hx'
    · rw [List.mem_singleton.1 hx']
      exact ⟨w, hw, hparent, hc⟩
  case home =>
    intro u hu hfree
    exact h.home u hu fun b hb => hfree b (List.mem_append_left _ hb)

theorem reorder (h : Base t src p placed work pairing)
    (hseat : ∀ y, t.dst.forest.parent? x = some y → y ∈ placed)
    (hw : pairing.origin? x = some w) (hparent : work.parent? w = some (t.seat pairing x))
    (k : Nat) : Base t src p placed (work.place (t.seat pairing x) w k) pairing := by
  have hlive := (h.live w x ((h.pair w x).2 hw)).1
  apply h.of_same_parents
  · exact h.links.place (h.has_seat hseat) hlive (h.links.not_under_parent hparent) k
  · exact Forest.size_place work _ w k
  · intro j
    rw [Forest.parent?_place work _ hlive]
    split
    · next hj => rw [← hj, hparent]
    · rfl
  · intro _ _ w' _
    exact Forest.contentOf_place work _ w k w'

theorem relocate (hs : Setting t src p) (h : Base t src p placed work pairing) (hx : x ∉ placed)
    (hseat : ∀ y, t.dst.forest.parent? x = some y → y ∈ placed)
    (hw : pairing.origin? x = some w) (hc : work.contentOf w = t.dst.forest.contentOf x) (k : Nat) :
    Base t src p (placed ++ [x]) (work.place (t.seat pairing x) w k) pairing := by
  have himage := (h.pair w x).2 hw
  have hlive := (h.live w x himage).1
  have hparent : ∀ j, (work.place (t.seat pairing x) w k).parent? j =
      if w = j then some (t.seat pairing x) else work.parent? j :=
    Forest.parent?_place work _ hlive k
  have hhas : ∀ j, (work.place (t.seat pairing x) w k).has j ↔ work.has j :=
    Forest.has_congr (Forest.size_place work _ w k)
  constructor
  case links => exact h.links.place (h.has_seat hseat) hlive (h.not_under_seat hx hseat hw) k
  case has_top => exact (hhas _).2 h.has_top
  case top_parent =>
    have hne : w ≠ t.top := by
      rintro rfl
      rw [h.top_free] at himage
      cases himage
    rw [hparent, if_neg hne, h.top_parent]
  case top_free => exact h.top_free
  case pair => exact h.pair
  case old => exact h.old
  case new => exact fun a b hab => h.new_append x hab
  case live =>
    intro a b hab
    exact ⟨(hhas a).2 (h.live a b hab).1, (h.live a b hab).2⟩
  case newcomer =>
    intro a ha
    exact h.newcomer a ((hhas a).1 ha)
  case closed => exact h.closed_append hseat
  case seated =>
    intro x' hx'
    rcases List.mem_append.1 hx' with hx' | hx'
    · obtain ⟨w', hw', hp', hc'⟩ := h.seated x' hx'
      have hne : w ≠ w' := by
        rintro rfl
        exact hx (h.origin_inj hw hw' ▸ hx')
      exact ⟨w', hw', by rw [hparent, if_neg hne, hp'], by rw [Forest.contentOf_place, hc']⟩
    · rw [List.mem_singleton.1 hx']
      exact ⟨w, hw, by rw [hparent, if_pos rfl], by rw [Forest.contentOf_place, hc]⟩
  case home =>
    intro u hu hfree
    have hne : w ≠ u := by
      rintro rfl
      exact hfree x (by simp) (h.old_of_has hs hu himage)
    rw [hparent, if_neg hne]
    exact h.home u hu fun b hb => hfree b (List.mem_append_left _ hb)

theorem seat_of_add {pairing' : Pairing} {w : NodeId} (hadd : pairing.add w x = .ok pairing')
    (hy : t.dst.forest.parent? y ≠ some x) : t.seat pairing' y = t.seat pairing y := by
  unfold Task.seat
  cases hp : t.dst.forest.parent? y with
  | none => rfl
  | some z =>
      have hne : x ≠ z := fun he => hy (by rw [hp, he])
      simp only [Option.bind_some, Pairing.origin?_of_add hadd, if_neg hne]

theorem not_under_new (h : work.Sound) (info : NodeInfo) (hz : work.has z) :
    ¬ (work.alloc info).2.Under (work.size + 1) z := by
  intro hu
  rcases hu.cases_head with he | ⟨c, hc, _⟩
  · exact work.not_has_succ_size (he ▸ hz)
  · rw [Forest.parent?_alloc] at hc
    exact work.not_has_succ_size (h.has_parent hc)

theorem contentOf_inserted (info : NodeInfo) (k : Nat) (j : NodeId) :
    ((work.alloc info).2.place z (work.size + 1) k).contentOf j =
      if j = work.size + 1 then info.toContent else work.contentOf j := by
  rw [Forest.contentOf_eq, Forest.infoOf_place, Forest.infoOf_alloc, Forest.contentOf_eq]
  split <;> rfl

theorem parent?_inserted (info : NodeInfo) (k : Nat) (j : NodeId) :
    ((work.alloc info).2.place z (work.size + 1) k).parent? j =
      if work.size + 1 = j then some z else work.parent? j := by
  rw [Forest.parent?_place _ z ((work.has_alloc_iff info _).2 (.inl rfl)) k, Forest.parent?_alloc]

theorem insert (hs : Setting t src p) (h : Base t src p placed work pairing) (hx : x ∉ placed)
    (hreach : t.dst.Reaches x) (hseat : ∀ y, t.dst.forest.parent? x = some y → y ∈ placed)
    (k : Nat) {pairing' : Pairing} (hadd : pairing.add (work.size + 1) x = .ok pairing') :
    Base t src p (placed ++ [x])
      ((work.alloc (t.dst.forest.infoOf x)).2.place (t.seat pairing x) (work.size + 1) k)
      pairing' := by
  set info := t.dst.forest.infoOf x with hinfo
  have himage := Pairing.image?_of_add hadd
  have horigin := Pairing.origin?_of_add hadd
  obtain ⟨hnew, hfree⟩ := Pairing.free_of_add hadd
  have hnot := work.not_has_succ_size
  have hz := h.has_seat hseat
  have htop : t.top < work.size + 1 := by
    have hle := ((work.has_iff_le t.top).1 h.has_top).2
    exact Nat.lt_succ_of_le hle
  have hne_of_has : ∀ {j}, work.has j → work.size + 1 ≠ j := fun hj he => hnot (he ▸ hj)
  have hhas : ∀ j, ((work.alloc info).2.place (t.seat pairing x) (work.size + 1) k).has j ↔
      j = work.size + 1 ∨ work.has j := by
    intro j
    rw [← work.has_alloc_iff info j]
    exact Forest.has_congr (Forest.size_place _ _ _ _) j
  constructor
  case links =>
    exact (h.links.alloc info).place ((work.has_alloc_iff info _).2 (.inr hz))
      ((work.has_alloc_iff info _).2 (.inl rfl)) (not_under_new h.links info hz) k
  case has_top => exact (hhas _).2 (.inr h.has_top)
  case top_parent => rw [parent?_inserted, if_neg (hne_of_has h.has_top), h.top_parent]
  case top_free => rw [himage, if_neg (hne_of_has h.has_top), h.top_free]
  case pair =>
    intro a b
    rw [himage, horigin]
    by_cases ha : work.size + 1 = a <;> by_cases hb : x = b
    · simp [ha, hb]
    · subst ha
      have hno : pairing.origin? b ≠ some (work.size + 1) := by
        intro hb'
        rw [← h.pair, hnew] at hb'
        cases hb'
      simp [hb, hno]
    · subst hb
      have hno : pairing.image? a ≠ some x := by
        intro ha'
        rw [h.pair, hfree] at ha'
        cases ha'
      simp [ha, hno]
    · simp only [ha, hb, if_false]
      exact h.pair a b
  case old =>
    intro a b hab
    rw [himage, if_neg (hne_of_has (h.live a b (h.old a b hab)).1)]
    exact h.old a b hab
  case new =>
    intro a b hab
    rw [himage] at hab
    split at hab
    · next ha =>
        cases hab
        refine .inr ⟨ha ▸ htop, ?_, by simp⟩
        cases hpx : p.origin? x with
        | none => rfl
        | some u =>
            have hux := (h.pair u x).1 (h.old u x ((hs.pairs.image_iff_origin u x).2 hpx))
            rw [hfree] at hux
            cases hux
    · exact h.new_append x hab
  case live =>
    intro a b hab
    rw [himage] at hab
    split at hab
    · next ha =>
        cases hab
        exact ⟨(hhas a).2 (.inl ha.symm), hreach⟩
    · exact ⟨(hhas a).2 (.inr (h.live a b hab).1), (h.live a b hab).2⟩
  case newcomer =>
    intro a ha hlt
    rw [himage]
    split
    · exact ⟨x, rfl⟩
    · next hne => exact h.newcomer a (((hhas a).1 ha).resolve_left (Ne.symm hne)) hlt
  case closed => exact h.closed_append hseat
  case seated =>
    intro x' hx'
    rcases List.mem_append.1 hx' with hx' | hx'
    · obtain ⟨w', hw', hp', hc'⟩ := h.seated x' hx'
      have hlive := (h.live w' x' ((h.pair w' x').2 hw')).1
      have hsame : t.seat pairing' x' = t.seat pairing x' :=
        seat_of_add hadd fun he => hx (h.closed x' hx' x he)
      have hne : x ≠ x' := fun he => hx (he ▸ hx')
      refine ⟨w', by rw [horigin, if_neg hne, hw'], ?_, ?_⟩
      · rw [parent?_inserted, if_neg (hne_of_has hlive), hsame, hp']
      · rw [contentOf_inserted, if_neg (Ne.symm (hne_of_has hlive)), hc']
    · rw [List.mem_singleton.1 hx']
      have hsame : t.seat pairing' x = t.seat pairing x :=
        seat_of_add hadd fun he => hx (hseat x he)
      refine ⟨work.size + 1, by rw [horigin, if_pos rfl], ?_, ?_⟩
      · rw [parent?_inserted, if_pos rfl, hsame]
      · rw [contentOf_inserted, if_pos rfl, Forest.contentOf_eq, hinfo]
  case home =>
    intro u hu hfree'
    have hne : work.size + 1 ≠ u := by
      have hle := ((src.forest.has_iff_le u).1 hu).2
      have := hs.top_eq
      grind
    rw [parent?_inserted, if_neg hne]
    exact h.home u hu fun b hb => hfree' b (List.mem_append_left _ hb)

end Base

end Draft

end TreeDelta
