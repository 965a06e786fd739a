import TreeDelta.Proofs.RenamedPairings
import TreeDelta.Script.Draft

namespace TreeDelta

/-- The same action for corresponding nodes: `w` relates nodes of the working copies, `s` nodes of
the destination trees. -/
inductive Action.Renamed (w s : NodeId → NodeId → Prop) : Action → Action → Prop where
  | insert {node node' x x' parent parent' : NodeId} (hnode : w node node') (hx : s x x')
      (hparent : w parent parent') (position : Nat) (kind : Kind) (label : Option String) :
      Renamed w s (.insert node x parent position kind label)
        (.insert node' x' parent' position kind label)
  | insertTree {node node' x x' parent parent' : NodeId} (hnode : w node node') (hx : s x x')
      (hparent : w parent parent') (position : Nat) :
      Renamed w s (.insertTree node x parent position) (.insertTree node' x' parent' position)
  | delete {node node' : NodeId} (hnode : w node node') : Renamed w s (.delete node) (.delete node')
  | deleteTree {node node' : NodeId} (hnode : w node node') :
      Renamed w s (.deleteTree node) (.deleteTree node')
  | update {node node' x x' : NodeId} (hnode : w node node') (hx : s x x')
      (old new : Option String) (retype : Option Kind) :
      Renamed w s (.update node x old new retype) (.update node' x' old new retype)
  | move {node node' x x' parent parent' : NodeId} (hnode : w node node') (hx : s x x')
      (hparent : w parent parent') (position : Nat) :
      Renamed w s (.move node x parent position) (.move node' x' parent' position)

namespace Draft

variable {w s : NodeId → NodeId → Prop} {n n' : Nat} {t t' : Task Action} {d d' : Draft Action}
  {a a' b b' x x' z z' : NodeId}

/-- Drafts over working copies that correspond and have got the same number of new nodes beyond
the first `n` and `n'`. -/
structure Renamed (w s : NodeId → NodeId → Prop) (n n' : Nat) (d d' : Draft Action) : Prop where
  work : d.work.Renamed w d'.work
  size : ∃ k, d.work.size = n + k ∧ d'.work.size = n' + k
  pairing : d.pairing.Renamed w s d'.pairing
  inOrder : SameMembers s d.inOrder d'.inOrder
  journal : List.Forall₂ (Action.Renamed w s) d.journal.toList d'.journal.toList

structure Task.Renamed [TokenHash] (w s : NodeId → NodeId → Prop) (n n' : Nat)
    (t t' : Task Action) :
    Prop where
  dst : t.dst.Renamed s t'.dst
  top : w t.top t'.top
  entry : ∀ a f, t.entry a f = a
  entry' : ∀ a f, t'.entry a f = a
  fresh : ∀ k, w (n + k + 1) (n' + k + 1)

namespace Renamed

theorem unique (h : Renamed w s n n' d d') : Relator.BiUnique w := h.work.unique

theorem record [TokenHash] (h : Renamed w s n n' d d') (ht : Task.Renamed w s n n' t t')
    {work work' : Forest} (hwork : work.Renamed w work')
    (hsize : ∃ k, work.size = n + k ∧ work'.size = n' + k) {act act' : Action}
    (hact : Action.Renamed w s act act') :
    Renamed w s n n' (d.record t work act) (d'.record t' work' act') := by
  refine ⟨hwork, hsize, h.pairing, h.inOrder, ?_⟩
  rw [Draft.record, Draft.record, ht.entry, ht.entry', Array.toList_push, Array.toList_push]
  exact List.rel_append h.journal (.cons hact .nil)

theorem withOrder (h : Renamed w s n n' d d') {order order' : Std.HashSet NodeId}
    (horder : SameMembers s order order') :
    Renamed w s n n' { d with inOrder := order } { d' with inOrder := order' } :=
  ⟨h.work, h.size, h.pairing, horder, h.journal⟩

theorem settle [TokenHash] (h : Renamed w s n n' d d') (ht : Task.Renamed w s n n' t t')
    (hx : s x x') :
    Renamed w s n n' (d.settle x) (d'.settle x') :=
  h.withOrder (h.inOrder.insert ht.dst.unique hx)

theorem targetParent [TokenHash] (h : Renamed w s n n' d d') (ht : Task.Renamed w s n n' t t')
    (hx : s x x') : Lockstep w (d.targetParent t x) (d'.targetParent t' x') :=
  (ht.dst.parent hx).bind fun _ _ hp => .pure <|
    (hp.bind fun _ _ hy => h.pairing.origin? ht.dst.unique hy).getD ht.top

end Renamed

variable [TokenHash]

theorem lockstep_siblings (ht : Task.Renamed w s n n' t t') (hx : s x x') :
    Lockstep (List.Forall₂ s) (siblings t x) (siblings t' x') := by
  refine (ht.dst.parent hx).bind fun o o' ho => ?_
  cases ho with
  | none => exact .pure (.cons hx .nil)
  | some hy => exact ht.dst.children hy

namespace Renamed

theorem slotFor_eq (h : Renamed w s n n' d d') (ht : Task.Renamed w s n n' t t')
    (hx : s x x') :
    d.slotFor t x = d'.slotFor t' x' := by
  refine bind_eq_bind (lockstep_siblings ht hx) fun sibs sibs' hsibs => ?_
  have hfirst := ht.dst.unique.beq_some_eq (hsibs.find? h.inOrder) hx
  have hbefore : List.Forall₂ s ((sibs.takeWhile (· != x)).filter d.inOrder.contains)
      ((sibs'.takeWhile (· != x')).filter d'.inOrder.contains) :=
    (hsibs.takeWhile fun _ _ hy => ht.dst.unique.bne_eq hy hx).filter h.inOrder
  have hlast := hbefore.getLast?.bind fun _ _ hy => h.pairing.origin? ht.dst.unique hy
  dsimp only
  rw [hfirst]
  split
  · rfl
  · rcases hlast.cases with ⟨hnone, hnone'⟩ | ⟨u, u', hu, hu', huu⟩
    · rw [hnone, hnone']
    · rw [hu, hu']
      refine bind_eq_bind (h.work.node huu) fun _ _ _ => congrArg pure ?_
      rw [h.work.position_eq huu]

theorem insert (h : Renamed w s n n' d d') (ht : Task.Renamed w s n n' t t')
    (hx : s x x')
    (hz : w z z') :
    Lockstep (Both w (Renamed w s n n')) (d.insert t x z) (d'.insert t' x' z') := by
  obtain ⟨k, hk, hk'⟩ := h.size
  refine .after (h.slotFor_eq ht hx) fun i => (ht.dst.info hx).bind fun info info' hinfo => ?_
  have hnew : w (d.work.size + 1) (d'.work.size + 1) := by
    rw [hk, hk']
    exact ht.fresh k
  have hkind : info.kind = info'.kind := congrArg Content.kind hinfo
  have hlabel : info.label = info'.label := congrArg Content.label hinfo
  refine ((h.work.alloc hnew hinfo).insertAt hz hnew i).bind fun work work' hwork => ?_
  refine (h.pairing.add h.unique ht.dst.unique hnew hx).bind fun pairing pairing' hp => .pure ?_
  have hpaired : Renamed w s n n' { d with pairing := pairing } { d' with pairing := pairing' } :=
    ⟨h.work, h.size, hp, h.inOrder, h.journal⟩
  refine Both.mk hnew (hpaired.record ht hwork.1 ?_ ?_)
  · refine ⟨k + 1, ?_, ?_⟩
    · rw [hwork.2.1, Forest.size_alloc, hk, Nat.add_assoc]
    · rw [hwork.2.2, Forest.size_alloc, hk', Nat.add_assoc]
  · rw [hkind, hlabel]
    exact .insert hnew hx hz i _ _

theorem update (h : Renamed w s n n' d d') (ht : Task.Renamed w s n n' t t')
    (ha : w a a')
    (hx : s x x') : Lockstep (Renamed w s n n') (d.update t a x) (d'.update t' a' x') := by
  refine (ht.dst.info hx).bind fun target target' htarget => ?_
  have hnode := (h.work.node ha).and_left (d.work.givesOr_node a)
  refine hnode.bind fun m m' hm => ?_
  dsimp only
  rw [hm.1.content, htarget]
  split
  · exact .pure h
  · have hwork := h.work.modify_info ha hm.2 (u := fun i =>
      { i with kind := target'.kind, label := target'.label }) fun _ _ => rfl
    exact .pure (h.record ht hwork (by simpa using h.size) (.update ha hx _ _ _))

theorem relocate (h : Renamed w s n n' d d') (ht : Task.Renamed w s n n' t t')
    (ha : w a a')
    (hx : s x x') (hz : w z z') :
    Lockstep (Renamed w s n n') (d.relocate t a x z) (d'.relocate t' a' x' z') := by
  refine .after (h.slotFor_eq ht hx) fun i => ?_
  refine (h.work.insertAt hz ha i).bind fun work work' hwork => .pure ?_
  refine h.record ht hwork.1 ?_ (.move ha hx hz i)
  rw [hwork.2.1, hwork.2.2]
  exact h.size

theorem bring (h : Renamed w s n n' d d') (ht : Task.Renamed w s n n' t t')
    (hx : s x x') :
    Lockstep (Both w (Renamed w s n n')) (d.bring t x) (d'.bring t' x') := by
  refine (h.targetParent ht hx).bind fun z z' hz => ?_
  rcases (h.pairing.origin? ht.dst.unique hx).cases with ⟨hnone, hnone'⟩ | ⟨a, a', ha, ha', haa⟩
  · rw [hnone, hnone']
    exact h.insert ht hx hz
  · rw [ha, ha']
    refine (h.update ht haa hx).bind fun e e' he => ?_
    refine (he.work.node haa).bind fun m m' hm => ?_
    rw [he.unique.beq_some_eq hm.parent hz]
    split
    · exact .pure (Both.mk haa he)
    · exact (he.relocate ht haa hx hz).bind fun _ _ hlast => .pure (Both.mk haa hlast)

theorem childrenToOrder (h : Renamed w s n n' d d') (ht : Task.Renamed w s n n' t t')
    (ha : w a a') (hx : s x x') :
    Lockstep (List.Forall₂ w) (d.childrenToOrder t a x) (d'.childrenToOrder t' a' x') := by
  refine (h.work.node ha).bind fun m m' hm => .filterM hm.children fun c c' hc => ?_
  rcases (h.pairing.image? h.unique hc).cases with ⟨hnone, hnone'⟩ | ⟨y, y', hy, hy', hyy⟩
  · rw [hnone, hnone']
  · rw [hy, hy']
    exact bind_eq_bind (ht.dst.parent hyy) fun _ _ hp =>
      congrArg pure (ht.dst.unique.beq_some_eq hp hx)

theorem childrenInPlace (h : Renamed w s n n' d d') (ht : Task.Renamed w s n n' t t')
    (ha : w a a') (hx : s x x') :
    Lockstep (List.Forall₂ s) (d.childrenInPlace t a x) (d'.childrenInPlace t' a' x') := by
  refine (ht.dst.children hx).bind fun cs cs' hcs => .filterM hcs fun c c' hc => ?_
  rcases (h.pairing.origin? ht.dst.unique hc).cases with ⟨hnone, hnone'⟩ | ⟨y, y', hy, hy', hyy⟩
  · rw [hnone, hnone']
  · rw [hy, hy']
    exact bind_eq_bind (h.work.node hyy) fun _ _ hm =>
      congrArg pure (h.unique.beq_some_eq hm.parent ha)

theorem moveStray (h : Renamed w s n n' d d') (ht : Task.Renamed w s n n' t t')
    (ha : w a a')
    {l l' : List NodeId} (hl : List.Forall₂ w l l') :
    Lockstep (Renamed w s n n') (Draft.moveStray t a d l) (Draft.moveStray t' a' d' l') := by
  induction hl generalizing d d' with
  | nil => exact .ok h
  | @cons c c' _ _ hc _ ih =>
      rw [Draft.moveStray, Draft.moveStray]
      rcases (h.pairing.image? h.unique hc).cases with ⟨hnone, hnone'⟩ | ⟨y, y', hy, hy', hyy⟩
      · rw [hnone, hnone']
        exact ih h
      · rw [hy, hy']
        have hout : Renamed w s n n' { d with work := d.work.detach c }
            { d' with work := d'.work.detach c' } :=
          ⟨h.work.detach hc, by simpa using h.size, h.pairing, h.inOrder, h.journal⟩
        refine .after (hout.slotFor_eq ht hyy) fun i => ?_
        refine (hout.work.insertAt ha hc i).bind fun work work' hwork => ih ?_
        refine (hout.record ht hwork.1 ?_ (.move hc hyy ha i)).settle ht hyy
        rw [hwork.2.1, hwork.2.2]
        exact hout.size

theorem orderChildren (h : Renamed w s n n' d d') (ht : Task.Renamed w s n n' t t')
    (ha : w a a')
    (hx : s x x') :
    Lockstep (Renamed w s n n') (d.orderChildren t a x) (d'.orderChildren t' a' x') := by
  have hs := ht.dst.unique
  refine (ht.dst.children hx).bind fun all all' hall => ?_
  have hcleared := h.withOrder (h.inOrder.foldl_erase hs hall)
  refine (hcleared.childrenToOrder ht ha hx).bind fun left left' hleft => ?_
  refine (hcleared.childrenInPlace ht ha hx).bind fun right right' hright => ?_
  have hjoins : ∀ c c', w c c' → ∀ y y', s y y' → d.pairing.joins c y = d'.pairing.joins c' y' :=
    fun _ _ hc _ _ hy => h.pairing.joins_eq h.unique hs hc hy
  have hcommon : List.Forall₂ s ((commonSubsequence d.pairing.joins left right).map (·.2))
      ((commonSubsequence d'.pairing.joins left' right').map (·.2)) :=
    List.rel_map (fun _ _ hz => hz.2) (forall₂_commonSubsequence hjoins hleft hright)
  have hkept := hcleared.withOrder (hcleared.inOrder.foldl_insert hs hcommon)
  refine hkept.moveStray ht ha (hleft.filter fun c c' hc => congrArg not ?_)
  exact (h.pairing.image? h.unique hc).any_eq (SameMembers.ofList hs hcommon)

theorem visit (h : Renamed w s n n' d d') (ht : Task.Renamed w s n n' t t')
    (hx : s x x') :
    Lockstep (Renamed w s n n') (d.visit t x) (d'.visit t' x') :=
  (h.bring ht hx).bind fun _ _ hout => (hout.2.settle ht hx).orderChildren ht hout.1 hx

theorem visitAll (h : Renamed w s n n' d d') (ht : Task.Renamed w s n n' t t')
    {xs xs' : List NodeId} (hxs : List.Forall₂ s xs xs') :
    Lockstep (Renamed w s n n') (Draft.visitAll t d xs) (Draft.visitAll t' d' xs') := by
  induction hxs generalizing d d' with
  | nil => exact .ok h
  | cons hx _ ih => exact (h.visit ht hx).bind fun _ _ hnext => ih hnext

theorem leftovers (h : Renamed w s n n' d d') (ht : Task.Renamed w s n n' t t') :
    List.Forall₂ w (d.leftovers t) (d'.leftovers t') := by
  refine (h.work.subtree ht.top).postorder.filter fun a a' ha => ?_
  rw [h.unique.bne_eq ha ht.top, h.pairing.srcPaired_eq h.unique ha]

end Renamed

end Draft

end TreeDelta
