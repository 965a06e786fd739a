import TreeDelta.Proofs.Copying
import TreeDelta.Proofs.DraftRun
import TreeDelta.Proofs.Measures
import TreeDelta.Proofs.Outcome

namespace TreeDelta

namespace Forest

variable {f g h : Forest} {limit : Nat} {a : NodeId}

theorem spanEnd_eq_zero (ha : ¬ f.has a) : f.spanEnd a = 0 := by
  have hnone : f.get? a = none := by simpa [has] using ha
  simp [spanEnd, infoOf, hnone]

theorem spanEnd_alloc (f : Forest) (info : NodeInfo) (j : NodeId) :
    (f.alloc info).2.spanEnd j =
      if j = f.size + 1 then info.pos + info.length else f.spanEnd j := by
  rw [spanEnd, infoOf_alloc]
  split <;> rfl

theorem spanEnd_place (f : Forest) (p c : NodeId) (k : Nat) (j : NodeId) :
    (f.place p c k).spanEnd j = f.spanEnd j := by
  rw [spanEnd, infoOf_place, spanEnd]

theorem spanEnd_detach (f : Forest) (c j : NodeId) : (f.detach c).spanEnd j = f.spanEnd j := by
  rw [spanEnd, infoOf_detach, spanEnd]

theorem spanEnd_modify (f : Forest) (w : NodeId) {u : NodeInfo → NodeInfo}
    (hu : ∀ n, (u n).pos = n.pos ∧ (u n).length = n.length) (j : NodeId) :
    (f.modify w fun n => { n with info := u n.info }).spanEnd j = f.spanEnd j := by
  simp only [spanEnd, infoOf, get?_modify]
  cases f.get? j with
  | none => by_cases hj : w = j <;> simp [hj]
  | some n => by_cases hj : w = j <;> simp [hj, hu]

/-- From `f` to `g` nodes may be added. The old ones keep their spans, and the spans of the new
ones end before `limit`. -/
structure SpansKept (limit : Nat) (f g : Forest) : Prop where
  size_le : f.size ≤ g.size
  old : ∀ a, f.has a → g.spanEnd a = f.spanEnd a
  new : ∀ a, ¬ f.has a → g.spanEnd a < limit

namespace SpansKept

theorem has (hg : SpansKept limit f g) (ha : f.has a) : g.has a := by
  rw [has_iff_le] at ha ⊢
  exact ⟨ha.1, ha.2.trans hg.size_le⟩

theorem trans (hg : SpansKept limit f g) (hh : SpansKept limit g h) : SpansKept limit f h where
  size_le := hg.size_le.trans hh.size_le
  old a ha := (hh.old a (hg.has ha)).trans (hg.old a ha)
  new a ha := by
    by_cases hga : g.has a
    · rw [hh.old a hga]
      exact hg.new a ha
    · exact hh.new a hga

theorem of_spanEnd_eq (hlimit : 0 < limit) (hsize : g.size = f.size)
    (hspan : ∀ a, g.spanEnd a = f.spanEnd a) : SpansKept limit f g where
  size_le := hsize.ge
  old a _ := hspan a
  new a ha := by
    rw [hspan, spanEnd_eq_zero ha]
    exact hlimit

theorem refl (hlimit : 0 < limit) (f : Forest) : SpansKept limit f f :=
  of_spanEnd_eq hlimit rfl fun _ => rfl

theorem place (hlimit : 0 < limit) (f : Forest) (p c : NodeId) (k : Nat) :
    SpansKept limit f (f.place p c k) :=
  of_spanEnd_eq hlimit (size_place f p c k) (f.spanEnd_place p c k)

theorem detach (hlimit : 0 < limit) (f : Forest) (c : NodeId) :
    SpansKept limit f (f.detach c) :=
  of_spanEnd_eq hlimit (size_detach f c) (f.spanEnd_detach c)

theorem alloc (hlimit : 0 < limit) (f : Forest) {info : NodeInfo}
    (hinfo : info.pos + info.length < limit) : SpansKept limit f (f.alloc info).2 where
  size_le := by rw [size_alloc]; exact Nat.le_succ _
  old a ha := by
    rw [spanEnd_alloc, if_neg]
    rintro rfl
    exact f.not_has_succ_size ha
  new a ha := by
    rw [spanEnd_alloc]
    split
    · exact hinfo
    · rw [spanEnd_eq_zero ha]
      exact hlimit

theorem allocEmpty (hlimit : 0 < limit) (f : Forest) (content : Content) :
    SpansKept limit f (f.alloc ⟨content, 0, 0, {}⟩).2 :=
  alloc hlimit f hlimit

theorem allocChildren (hlimit : 0 < limit) (parent : NodeId) {cs : List (Rose NodeInfo)}
    (hcs : ∀ c ∈ cs, c.value.pos + c.value.length < limit) (f : Forest) :
    SpansKept limit f (f.allocChildren parent cs).2 := by
  induction cs generalizing f with
  | nil => exact .refl hlimit f
  | cons c cs ih =>
      rw [List.forall_mem_cons] at hcs
      rw [allocChildren_cons]
      exact ((alloc hlimit f hcs.1).trans (place hlimit _ _ _ _)).trans (ih hcs.2 _)

end SpansKept

mutual
theorem spansKept_copyBelow (hlimit : 0 < limit) : ∀ (parent : NodeId) (t : Rose NodeInfo)
    (f : Forest), (∀ info ∈ t.preorder, info.pos + info.length < limit) →
    SpansKept limit f (copyBelow parent t f)
  | parent, .node info cs, f, ht => by
      simp only [Rose.preorder_node, List.mem_cons, forall_eq_or_imp] at ht
      rw [copyBelow]
      refine (SpansKept.allocChildren hlimit parent (fun c hc => ht.2 _ ?_) f).trans
        (spansKept_copyEach hlimit _ cs _ ht.2)
      refine List.mem_flatMap.2 ⟨c, hc, ?_⟩
      rw [Rose.preorder_eq_cons]
      exact List.mem_cons_self
theorem spansKept_copyEach (hlimit : 0 < limit) : ∀ (ids : List NodeId)
    (cs : List (Rose NodeInfo)) (f : Forest),
    (∀ info ∈ cs.flatMap Rose.preorder, info.pos + info.length < limit) →
    SpansKept limit f (copyEach ids cs f)
  | [], _, f, _ => by
      rw [copyEach]
      · exact .refl hlimit f
      · exact nofun
  | _ :: _, [], f, _ => by
      rw [copyEach]
      · exact .refl hlimit f
      · exact nofun
  | id :: ids, c :: cs, f, ht => by
      simp only [List.flatMap_cons, List.mem_append] at ht
      rw [copyEach]
      exact (spansKept_copyEach hlimit ids cs f fun i hi => ht i (.inr hi)).trans
        (spansKept_copyBelow hlimit id c _ fun i hi => ht i (.inl hi))
end

theorem SpansKept.copyTree (hlimit : 0 < limit) (f : Forest) {t : Rose NodeInfo}
    (ht : ∀ info ∈ t.preorder, info.pos + info.length < limit) :
    SpansKept limit f (f.copyTree t).2 := by
  have hvalue : t.value.pos + t.value.length < limit := by
    refine ht _ ?_
    rw [Rose.preorder_eq_cons]
    exact List.mem_cons_self
  exact (SpansKept.alloc hlimit f hvalue).trans (spansKept_copyBelow hlimit _ t _ ht)

end Forest

def Action.Grounded (src dst : Tree) : Action → Prop
  | .insert _ x .. | .insertTree _ x .. => dst.Reaches x
  | .delete n | .deleteTree n => src.forest.has n
  | .update w x .. | .move w x .. => src.Reaches w ∧ dst.Reaches x

namespace Replay

open Forest

variable {src dst : Tree} {r r' : Replay} {index : Nat} {a : Action}

theorem halfWord_pos : 0 < halfWord := by decide

theorem spansKept_link (r : Replay) (work : Forest) (node id parent : NodeId) (k : Nat) :
    SpansKept halfWord work (r.link work node id parent k).work :=
  .place halfWord_pos work parent id k

theorem spansKept_apply [TokenHash] (hd : dst.Ready) (ha : a.Grounded src dst)
    (h : r.apply dst index a = .ok r') : SpansKept halfWord r.work r'.work := by
  have hpos := halfWord_pos
  cases a with
  | insert node x parent k kind label =>
      rw [apply] at h
      obtain ⟨parent, _, h⟩ := exists_of_bind_eq_ok h
      obtain ⟨_, _, h⟩ := exists_of_bind_eq_ok h
      cases h
      exact (SpansKept.allocEmpty hpos r.work _).trans (spansKept_link r _ _ _ _ _)
  | insertTree node x parent k =>
      have hspans : ∀ info ∈ ((dst.forest.subtree x).map dst.forest.infoOf).preorder,
          info.pos + info.length < halfWord := by
        intro info hinfo
        rw [Rose.preorder_map] at hinfo
        obtain ⟨y, hy, rfl⟩ := List.mem_map.1 hinfo
        exact hd.span y (Relation.ReflTransGen.trans ha (hd.sound.forest.mem_preorder_iff.1 hy))
      rw [apply] at h
      obtain ⟨parent, _, h⟩ := exists_of_bind_eq_ok h
      obtain ⟨_, _, h⟩ := exists_of_bind_eq_ok h
      dsimp only at h
      split at h
      · cases h
      · cases h
        exact (SpansKept.copyTree hpos r.work hspans).trans (spansKept_link r _ _ _ _ _)
  | delete node =>
      rw [apply] at h
      obtain ⟨node, _, h⟩ := exists_of_bind_eq_ok h
      dsimp only at h
      split at h
      · cases h
      · cases h
        exact .detach hpos _ _
  | deleteTree node =>
      rw [apply] at h
      obtain ⟨node, _, h⟩ := exists_of_bind_eq_ok h
      cases h
      exact .detach hpos _ _
  | update node x old new retype =>
      rw [apply] at h
      obtain ⟨node, hnode, h⟩ := exists_of_bind_eq_ok h
      cases h
      exact .of_spanEnd_eq hpos (size_modify _ _ _)
        (spanEnd_modify _ _ (u := fun n => { n with label := new, kind := retype.getD n.kind })
          fun _ => ⟨rfl, rfl⟩)
  | move node x parent k =>
      rw [apply] at h
      obtain ⟨node, _, h⟩ := exists_of_bind_eq_ok h
      obtain ⟨parent, _, h⟩ := exists_of_bind_eq_ok h
      dsimp only at h
      split at h
      · cases h
      · obtain ⟨_, _, h⟩ := exists_of_bind_eq_ok h
        cases h
        exact (SpansKept.detach hpos r.work node).trans (.place hpos _ _ _ _)

theorem spansKept_applyAll [TokenHash] (hd : dst.Ready) {as : List Action}
    (has : ∀ a ∈ as, a.Grounded src dst) (h : r.applyAll dst index as = .ok r') :
    SpansKept halfWord r.work r'.work := by
  induction as generalizing r index with
  | nil =>
      cases h
      exact .refl halfWord_pos _
  | cons a as ih =>
      rw [List.forall_mem_cons] at has
      rw [applyAll] at h
      obtain ⟨s, hs, h⟩ := exists_of_bind_eq_ok h
      exact (spansKept_apply hd has.1 hs).trans (ih has.2 h)

end Replay

theorem Script.spansKept_replay [TokenHash] {src dst t : Tree} {s : Script} (hd : dst.Ready)
    (hs : ∀ a ∈ s.actions, a.Grounded src dst) (h : s.replay src dst = .ok t) :
    Forest.SpansKept halfWord src.forest t.forest := by
  have hpos := Replay.halfWord_pos
  obtain ⟨r, hr, hresult⟩ := exists_of_bind_eq_ok h
  have hstart : Forest.SpansKept halfWord src.forest (src.forest.underTop src.root).2 := by
    rw [Draft.underTop_eq]
    exact (Forest.SpansKept.allocEmpty hpos src.forest _).trans (.place hpos _ _ _ _)
  refine (hstart.trans (Replay.spansKept_applyAll hd hs hr)).trans ?_
  rw [Replay.result] at hresult
  split at hresult
  · cases hresult
    exact .detach hpos _ _
  · cases hresult

end TreeDelta
