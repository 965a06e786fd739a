import TreeDelta.Proofs.DraftEnd
import TreeDelta.Script.Condense

namespace TreeDelta

namespace Draft

variable {ε : Type}

/-- The place of the partner of `x` is `z`. -/
def Belongs (t : Task ε) (q : Pairing) (x z : NodeId) : Prop :=
  t.dst.forest.parent? x = none ∧ z = t.top ∨
    ∃ y, t.dst.forest.parent? x = some y ∧ q.origin? y = some z

/-- What the actions of a draft say, where `q` is its pairing. -/
def Written (t : Task ε) (p q : Pairing) : Action → Prop
  | .insert w x z _ _ _ =>
      q.origin? x = some w ∧ p.origin? x = none ∧ t.dst.Reaches x ∧ Belongs t q x z
  | .update w x _ _ _ => p.image? w = some x
  | .move w x z _ => p.image? w = some x ∧ Belongs t q x z
  | .insertTree .. | .delete _ | .deleteTree _ => False

variable {t : Task ε} {src : Tree} {p q q' : Pairing} {placed : List NodeId} {d d' : Draft ε}
  {a : Action} {w x z : NodeId}

theorem Belongs.mono (h : Belongs t q x z)
    (hq : ∀ b a, q.origin? b = some a → q'.origin? b = some a) : Belongs t q' x z :=
  h.imp_right fun ⟨y, hy, hz⟩ => ⟨y, hy, hq y z hz⟩

theorem Written.mono (h : Written t p q a)
    (hq : ∀ b a, q.origin? b = some a → q'.origin? b = some a) : Written t p q' a := by
  cases a with
  | insert w x z _ _ _ => exact ⟨hq _ _ h.1, h.2.1, h.2.2.1, h.2.2.2.mono hq⟩
  | update => exact h
  | move => exact ⟨h.1, h.2.mono hq⟩
  | insertTree => exact h
  | delete => exact h
  | deleteTree => exact h

theorem Step.origin_mono (h : Step t placed d a d') (b c : NodeId)
    (hb : d.pairing.origin? b = some c) : d'.pairing.origin? b = some c := by
  cases h with
  | insert hx hreach hseat hk hadd =>
      refine (Pairing.origin?_of_add hadd b).trans ?_
      rw [if_neg, hb]
      rintro rfl
      rw [(Pairing.free_of_add hadd).2] at hb
      cases hb
  | update => exact hb
  | move => exact hb

theorem Base.belongs (hb : Base t src p placed d.work d.pairing)
    (hseat : ∀ y, t.dst.forest.parent? x = some y → y ∈ placed) :
    Belongs t d.pairing x (t.seat d.pairing x) :=
  (hb.seat_cases hseat).imp_right fun ⟨y, _, hy⟩ => ⟨y, hy⟩

theorem Step.written (hs : Setting t src p) (hb : Base t src p placed d.work d.pairing)
    (h : Step t placed d a d') : Written t p d'.pairing a := by
  have hmono := h.origin_mono
  have hold : ∀ {x w}, x ∉ placed → d.pairing.origin? x = some w → p.image? w = some x := by
    intro x w hx hw
    exact (hb.new w x ((hb.pair w x).2 hw)).resolve_right fun hn => hx hn.2.2
  cases h with
  | @insert x k q' hx hreach hseat hk hadd =>
      refine ⟨(Pairing.origin?_of_add hadd x).trans (if_pos rfl), ?_, hreach,
        (hb.belongs hseat).mono hmono⟩
      cases hpx : p.origin? x with
      | none => rfl
      | some u =>
          have hux := (hb.pair u x).1 (hb.old u x ((hs.pairs.image_iff_origin u x).2 hpx))
          rw [(Pairing.free_of_add hadd).2] at hux
          cases hux
  | update hx hw _ => exact hold hx hw
  | move hx hw hseat _ => exact ⟨hold hx hw, hb.belongs hseat⟩

def Told (t : Task Action) (p : Pairing) (d : Draft Action) : Prop :=
  ∀ a ∈ d.journal.toList, Written t p d.pairing a

theorem stable_told {dst : Tree} {top : NodeId} (hs : Setting ⟨dst, top, fun a _ => a⟩ src p) :
    Stable ⟨dst, top, fun a _ => a⟩ src p (Told ⟨dst, top, fun a _ => a⟩ p) where
  quiet _ _ h := h
  step placed _ d a d' hb hstep _ h := by
    intro a' ha'
    rw [hstep.journal_eq, Array.toList_push] at ha'
    rcases List.mem_append.1 ha' with ha' | ha'
    · exact (h a' ha').mono hstep.origin_mono
    · rw [List.mem_singleton.1 ha']
      exact hstep.written hs hb

end Draft

def MarkedBelow (t : Tree) (marked full : Std.HashSet NodeId) : Prop :=
  ∀ x, full.contains x → marked.contains x ∧ ∀ c ∈ t.forest.childrenOf x, full.contains c

theorem markedBelow_markedThroughout (t : Tree) (marked : Std.HashSet NodeId) :
    MarkedBelow t marked (markedThroughout t marked) := by
  have hstep : ∀ (l : List NodeId) (full : Std.HashSet NodeId), MarkedBelow t marked full →
      MarkedBelow t marked (l.foldl (fun full id =>
        if marked.contains id && (t.forest.childrenOf id).all full.contains then full.insert id
        else full) full) := by
    intro l
    induction l with
    | nil => exact fun _ h => h
    | cons id l ih =>
        intro full h
        refine ih _ ?_
        dsimp only
        split
        · next hid =>
            rw [Bool.and_eq_true, List.all_eq_true] at hid
            intro x hx
            rw [Std.HashSet.contains_insert, Bool.or_eq_true, beq_iff_eq] at hx
            have hx' : marked.contains x ∧ ∀ c ∈ t.forest.childrenOf x, full.contains c := by
              rcases hx with rfl | hx
              · exact hid
              · exact h x hx
            refine ⟨hx'.1, fun c hc => ?_⟩
            rw [Std.HashSet.contains_insert, hx'.2 c hc, Bool.or_true]
        · exact h
  exact hstep t.postorder ∅ fun x hx => by simp at hx

namespace Script

variable {s : Script} {x n : NodeId}

theorem exists_of_inserted (h : s.inserted.contains x) :
    ∃ w z k kind label, Action.insert w x z k kind label ∈ s.actions := by
  rw [inserted, Std.HashSet.contains_ofList, List.contains_iff_mem, List.mem_filterMap] at h
  obtain ⟨a, ha, hx⟩ := h
  cases a <;> simp at hx
  subst hx
  exact ⟨_, _, _, _, _, ha⟩

theorem exists_of_deleted (h : s.deleted.contains n) : Action.delete n ∈ s.actions := by
  rw [deleted, Std.HashSet.contains_ofList, List.contains_iff_mem, List.mem_filterMap] at h
  obtain ⟨a, ha, hx⟩ := h
  cases a <;> simp at hx
  subst hx
  exact ha

end Script

end TreeDelta
