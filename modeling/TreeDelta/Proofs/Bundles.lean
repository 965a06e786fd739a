import TreeDelta.Proofs.DraftSteps
import TreeDelta.Script.Condense

namespace TreeDelta

/-- Destination nodes that are inserted as parts of whole subtrees, and source nodes that are
deleted so: they have no partners, and with a node everything below it belongs to the set. -/
structure Bundled (src dst : Tree) (p : Pairing) (added removed : Std.HashSet NodeId) : Prop where
  added_free : ∀ y, added.contains y → p.origin? y = none
  added_below : ∀ y z, dst.forest.parent? y = some z → added.contains z → added.contains y
  removed_free : ∀ n, removed.contains n → p.image? n = none
  removed_below : ∀ n m, src.forest.parent? n = some m → removed.contains m → removed.contains n

def Covered (dst : Tree) (added : Std.HashSet NodeId) (y : NodeId) : Prop :=
  ∃ z, dst.forest.parent? y = some z ∧ added.contains z

theorem covered_iff {dst : Tree} {added : Std.HashSet NodeId} {y : NodeId} :
    (dst.forest.parent? y).any added.contains ↔ Covered dst added y := by
  cases h : dst.forest.parent? y <;> simp [Covered, h]

theorem Bundled.empty (src dst : Tree) (p : Pairing) : Bundled src dst p ∅ ∅ := by
  constructor <;> simp

namespace Draft

variable {ε : Type}

def Shown (t : Task ε) (added : Std.HashSet NodeId) (work : Forest) (q : Pairing) (v : NodeId) :
    Prop :=
  work.has v ∧ ∀ y, q.image? v = some y → ¬ Covered t.dst added y

def Plain (added : Std.HashSet NodeId) (q : Pairing) (v : NodeId) : Prop :=
  ∀ y, q.image? v = some y → ¬ added.contains y

variable {t : Task ε} {src : Tree} {p : Pairing} {placed : List NodeId} {work : Forest}
  {pairing : Pairing} {added removed : Std.HashSet NodeId} {c u v w x y z : NodeId}

theorem plain_of_old (hbun : Bundled src t.dst p added removed)
    (hold : p.image? v = some y) (hp : p.Sound) : ¬ added.contains y ∧ ¬ Covered t.dst added y := by
  have hno : ¬ added.contains y := by
    intro hy
    rw [hp.image_iff_origin, hbun.added_free y hy] at hold
    cases hold
  exact ⟨hno, fun ⟨z, hz, hadded⟩ => hno (hbun.added_below y z hz hadded)⟩

theorem plain_of_has (hs : Setting t src p) (hb : Base t src p placed work pairing)
    (hbun : Bundled src t.dst p added removed) (hv : src.forest.has v) :
    Plain added pairing v := by
  intro y hy
  exact (plain_of_old hbun (hb.old_of_has hs hv hy) hs.pairs).1

theorem shown_of_plain (hbun : Bundled src t.dst p added removed) (hv : work.has v)
    (hp : Plain added pairing v) : Shown t added work pairing v :=
  ⟨hv, fun y hy ⟨z, hz, hadded⟩ => hp y hy (hbun.added_below y z hz hadded)⟩

namespace Base

theorem plain_top (hb : Base t src p placed work pairing) : Plain added pairing t.top := by
  intro y hy
  rw [hb.top_free] at hy
  cases hy

theorem shown_top (hb : Base t src p placed work pairing) : Shown t added work pairing t.top := by
  refine ⟨hb.has_top, fun y hy => ?_⟩
  rw [hb.top_free] at hy
  cases hy

theorem home_parent (hs : Setting t src p) (hb : Base t src p placed work pairing)
    (hc : work.parent? c = some v)
    (hold : ∀ b ∈ placed, pairing.image? c ≠ some b) :
    v = t.top ∨ src.forest.has v ∧ src.forest.parent? c = some v := by
  have hhas := Forest.has_of_parent? hc
  have hsrc : src.forest.has c := by
    rw [src.forest.has_iff_le c]
    refine ⟨((work.has_iff_le c).1 hhas).1, ?_⟩
    by_contra hlt
    have htop : t.top ≤ c := by
      have := hs.top_eq
      grind
    rcases Nat.lt_or_eq_of_le htop with hlt | heq
    · obtain ⟨b, hb'⟩ := hb.newcomer c hhas hlt
      rcases hb.new c b hb' with hp | ⟨_, _, hplaced⟩
      · have := ((src.forest.has_iff_le c).1 (hs.src_sound.has_of_reaches (hs.within c b hp).1)).2
        grind
      · exact hold b hplaced hb'
    · rw [← heq, hb.top_parent] at hc
      cases hc
  rw [hb.home c hsrc fun b hbp hpb => hold b hbp (hb.old c b hpb), Tree.home] at hc
  split at hc
  · exact .inl (Option.some.inj hc).symm
  · exact .inr ⟨hs.src_sound.forest.has_parent hc, hc⟩

theorem hidden_child (hs : Setting t src p) (hb : Base t src p placed work pairing)
    (hbun : Bundled src t.dst p added removed) (hv : pairing.image? v = some y)
    (hy : added.contains y) (hc : work.parent? c = some v) :
    ∃ b, pairing.image? c = some b ∧ t.dst.forest.parent? b = some y := by
  have hnot : ¬ (v = t.top ∨ src.forest.has v ∧ src.forest.parent? c = some v) := by
    rintro (rfl | ⟨hsrc, _⟩)
    · rw [hb.top_free] at hv
      cases hv
    · exact plain_of_has hs hb hbun hsrc y hv hy
  have hplaced : ∃ b ∈ placed, pairing.image? c = some b := by
    by_contra hno
    exact hnot (hb.home_parent hs hc fun b hbp hcb => hno ⟨b, hbp, hcb⟩)
  obtain ⟨b, hbp, hcb⟩ := hplaced
  obtain ⟨c', hc', hparent, _⟩ := hb.seated b hbp
  rw [(hb.pair c b).1 hcb] at hc'
  cases hc'
  rw [hc] at hparent
  have hseat := Option.some.inj hparent
  rcases hb.seat_cases (hb.closed b hbp) with ⟨_, htop⟩ | ⟨y', _, hpar, hz⟩
  · exact absurd (.inl (hseat.trans htop)) hnot
  · rw [← hseat, ← hb.pair, hv] at hz
    exact ⟨b, hcb, by rw [hpar, Option.some.inj hz]⟩

theorem shown_child (hs : Setting t src p) (hb : Base t src p placed work pairing)
    (hbun : Bundled src t.dst p added removed) (hv : Plain added pairing v)
    (hc : work.parent? c = some v) : Shown t added work pairing c := by
  refine ⟨Forest.has_of_parent? hc, fun b hcb ⟨z, hz, hadded⟩ => ?_⟩
  rcases hb.new c b hcb with hold | ⟨_, _, hbp⟩
  · exact (plain_of_old hbun hold hs.pairs).2 ⟨z, hz, hadded⟩
  · obtain ⟨c', hc', hparent, _⟩ := hb.seated b hbp
    rw [(hb.pair c b).1 hcb] at hc'
    cases hc'
    rcases hb.seat_cases (hb.closed b hbp) with ⟨hroot, _⟩ | ⟨z', _, hpar, hseat⟩
    · rw [hz] at hroot
      cases hroot
    · rw [hz] at hpar
      cases hpar
      rw [hc] at hparent
      rw [← Option.some.inj hparent, ← hb.pair] at hseat
      exact hv z hseat hadded

theorem shown_parent (hs : Setting t src p) (hb : Base t src p placed work pairing)
    (hbun : Bundled src t.dst p added removed) (hc : Shown t added work pairing c)
    (hv : work.parent? c = some v) :
    Shown t added work pairing v ∧ Plain added pairing v := by
  have hplain : Plain added pairing v := by
    intro y hy hadded
    obtain ⟨b, hcb, hpar⟩ := hb.hidden_child hs hbun hy hadded hv
    exact hc.2 b hcb ⟨y, hpar, hadded⟩
  exact ⟨shown_of_plain hbun (hb.links.has_parent hv) hplain, hplain⟩

theorem eq_of_under (hs : Setting t src p) (hb : Base t src p placed work pairing)
    (hbun : Bundled src t.dst p added removed) (hv : pairing.image? v = some y)
    (hy : added.contains y) (hvu : work.Under v u) (hu : Shown t added work pairing u) : u = v := by
  rcases hvu.cases_tail with rfl | ⟨c, hvc, hcu⟩
  · rfl
  · exfalso
    -- going down from `v`, every node is the partner of a node in `added`
    have hall : ∀ w, work.Under v w → ∃ b, pairing.image? w = some b ∧ added.contains b := by
      intro w hvw
      induction hvw with
      | refl => exact ⟨y, hv, hy⟩
      | tail _ hw ih =>
          obtain ⟨b, hb', hadded⟩ := ih
          obtain ⟨b', hb'', hpar⟩ := hb.hidden_child hs hbun hb' hadded hw
          exact ⟨b', hb'', hbun.added_below b' b hpar hadded⟩
    obtain ⟨b, hcb, hadded⟩ := hall c hvc
    exact (hb.shown_parent hs hbun hu hcu).2 b hcb hadded

theorem plain_seat (hb : Base t src p placed work pairing)
    (hbun : Bundled src t.dst p added removed)
    (hseat : ∀ y, t.dst.forest.parent? x = some y → y ∈ placed) (hx : ¬ Covered t.dst added x) :
    Shown t added work pairing (t.seat pairing x) ∧ Plain added pairing (t.seat pairing x) := by
  have hplain : Plain added pairing (t.seat pairing x) := by
    rcases hb.seat_cases hseat with ⟨_, htop⟩ | ⟨y, _, hpar, hz⟩
    · rw [htop]
      exact hb.plain_top
    · intro y' hy' hadded
      rw [(hb.pair _ _).2 hz] at hy'
      cases hy'
      exact hx ⟨y, hpar, hadded⟩
  exact ⟨shown_of_plain hbun (hb.has_seat hseat) hplain, hplain⟩

end Base

end Draft

end TreeDelta
