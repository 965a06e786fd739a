import TreeDelta.Proofs.RoundTrip

namespace TreeDelta

structure Change where
  node : NodeId
  dst : NodeId
  old : Option String
  new : Option String
  retype : Option Kind
deriving DecidableEq

namespace Action

def inserted? : Action → Option (NodeId × Content)
  | .insert _ x _ _ kind label => some (x, ⟨kind, label⟩)
  | _ => none

def updated? : Action → Option Change
  | .update node x old new retype => some ⟨node, x, old, new, retype⟩
  | _ => none

def moved? : Action → Option (NodeId × NodeId)
  | .move node x .. => some (node, x)
  | _ => none

def deleted? : Action → Option NodeId
  | .delete node => some node
  | _ => none

end Action

def changeInto (src dst : Tree) (a b : NodeId) : Change :=
  let old := src.forest.contentOf a
  let new := dst.forest.contentOf b
  ⟨a, b, old.label, new.label, if old.kind = new.kind then none else some new.kind⟩

/-- The parents of `a` and `b` are partners. Above the two roots there is nothing to tell them
apart by, so they count as well. -/
def ParentsPaired (src dst : Tree) (p : Pairing) (a b : NodeId) : Prop :=
  a = src.root ∧ b = dst.root ∨
    ∃ x y, src.forest.parent? a = some x ∧ dst.forest.parent? b = some y ∧ p.image? x = some y

namespace Draft

def dueInsert (dst : Tree) (p : Pairing) (x : NodeId) : Option (NodeId × Content) :=
  if p.origin? x = none then some (x, dst.forest.contentOf x) else none

def dueChange (src dst : Tree) (p : Pairing) (x : NodeId) : Option Change :=
  (p.origin? x).bind fun a =>
    if src.forest.contentOf a = dst.forest.contentOf x then none else some (changeInto src dst a x)

variable {src dst : Tree} {p : Pairing} {placed : List NodeId} {d d' : Draft Action}
  {a b u w x : NodeId}

theorem Base.in_place_iff {t : Task Action} (hs : Setting t src p)
    (hb : Base t src p placed d.work d.pairing) (hx : Next t placed x)
    (hw : p.image? w = some x) :
    d.work.parent? w = some (t.seat d.pairing x) ↔ ParentsPaired src t.dst p w x := by
  have hhas := hs.src_sound.has_of_reaches (hs.within w x hw).1
  have hhome : d.work.parent? w = src.home t.top w := by
    refine hb.home w hhas fun b hbp hwb => hx.fresh ?_
    rw [hw] at hwb
    exact Option.some.inj hwb ▸ hbp
  rw [hhome, Tree.home]
  rcases hb.seat_cases hx.parent with ⟨hnone, htop⟩ | ⟨y, _, hxy, hy⟩
  · have hroot := hs.dst_sound.eq_root hx.reached hnone
    rw [htop]
    constructor
    · intro h
      split at h
      · next he => exact .inl ⟨he, hroot⟩
      · have := hs.src_sound.forest.has_parent h
        rw [hs.top_eq] at this
        exact absurd this src.forest.not_has_succ_size
    · rintro (⟨rfl, _⟩ | ⟨_, y, _, hxy, _⟩)
      · rw [if_pos rfl]
      · rw [hnone] at hxy
        cases hxy
  · constructor
    · intro h
      split at h
      · rw [Option.some.inj h.symm, ← hb.pair, hb.top_free] at hy
        cases hy
      · exact .inr ⟨_, y, h, hxy,
          hb.old_of_has hs (hs.src_sound.forest.has_parent h) ((hb.pair _ _).2 hy)⟩
    · rintro (⟨_, rfl⟩ | ⟨v, z, hv, hz, hvz⟩)
      · rw [hs.dst_sound.root_parent] at hxy
        cases hxy
      · rw [hxy] at hz
        cases hz
        have hne : w ≠ src.root := by
          rintro rfl
          rw [hs.src_sound.root_parent] at hv
          cases hv
        rw [if_neg hne, hv, ← (hb.pair _ _).1 (hb.old v y hvz), hy]

theorem Base.origin_eq {t : Task Action} (hs : Setting t src p)
    (hb : Base t src p placed d.work d.pairing) (hx : x ∉ placed) :
    d.pairing.origin? x = p.origin? x := by
  cases hpx : p.origin? x with
  | some w => exact (hb.pair w x).1 (hb.old w x ((hs.pairs.image_iff_origin w x).2 hpx))
  | none =>
      cases hdx : d.pairing.origin? x with
      | none => rfl
      | some w =>
          rcases hb.new w x ((hb.pair w x).2 hdx) with hold | ⟨_, _, hmem⟩
          · rw [hs.pairs.image_iff_origin, hpx] at hold
            cases hold
          · exact absurd hmem hx

theorem Base.unmoved {t : Task Action} (hs : Setting t src p)
    (hb : Base t src p placed d.work d.pairing) (hfresh : b ∉ placed)
    (hab : d.pairing.image? a = some b) (hparent : d.work.parent? a = some w)
    (hw : d.pairing.image? w = some x) :
    p.image? a = some b ∧ src.forest.parent? a = some w := by
  have hold := (hb.new a b hab).resolve_right fun hn => hfresh hn.2.2
  have hhome : src.home t.top a = some w := by
    rw [← hparent]
    refine (hb.home a (hs.src_sound.has_of_reaches (hs.within a b hold).1) fun b' hb' hab' => ?_).symm
    rw [hold] at hab'
    exact hfresh (Option.some.inj hab' ▸ hb')
  rw [Tree.home] at hhome
  split at hhome
  · rw [← Option.some.inj hhome, hb.top_free] at hw
    cases hw
  · exact ⟨hold, hhome⟩

def Untouched (src : Tree) (p : Pairing) (placed : List NodeId) (work : Forest) : Prop :=
  ∀ a b, p.image? a = some b → b ∉ placed → work.contentOf a = src.forest.contentOf a

structure Brought (src dst : Tree) (p : Pairing) (x : NodeId) (l : List Action) : Prop where
  inserts : l.filterMap Action.inserted? = (dueInsert dst p x).toList
  updates : l.filterMap Action.updated? = (dueChange src dst p x).toList
  moves_nodup : (l.filterMap Action.moved?).Nodup
  moves : ∀ a b, (a, b) ∈ l.filterMap Action.moved? ↔
    b = x ∧ p.image? a = some x ∧ ¬ ParentsPaired src dst p a x

theorem contentOf_insertAt {f g : Forest} {z c : NodeId} {k : Nat} (h : f.insertAt z c k = .ok g)
    (u : NodeId) : g.contentOf u = f.contentOf u := by
  unfold Forest.insertAt at h
  split at h
  · cases h
    exact Forest.contentOf_place f z c k u
  · cases h

theorem insert_writes {z : NodeId} (hx : dst.forest.has x)
    (h : d.insert (scripting src dst) x z = .ok (w, d')) :
    ∃ k, d'.journal.toList = d.journal.toList ++ [.insert w x z k
        (dst.forest.contentOf x).kind (dst.forest.contentOf x).label] ∧
      ∀ u, u ≠ w → d'.work.contentOf u = d.work.contentOf u := by
  obtain ⟨k, _, h⟩ := exists_of_bind_eq_ok h
  obtain ⟨info, hinfo, h⟩ := exists_of_bind_eq_ok h
  rw [Tree.info_eq_ok hx] at hinfo
  cases hinfo
  obtain ⟨work, hwork, h⟩ := exists_of_bind_eq_ok h
  obtain ⟨q, _, h⟩ := exists_of_bind_eq_ok h
  cases h
  refine ⟨k, ?_, fun u hu => ?_⟩
  · rw [Forest.contentOf_eq]
    exact Array.toList_push
  · have halloc := (Forest.infoOf_alloc d.work (dst.forest.infoOf x) u).trans (if_neg hu)
    refine (contentOf_insertAt hwork u).trans ?_
    rw [Forest.contentOf_eq, Forest.contentOf_eq]
    exact congrArg _ halloc

theorem relocate_writes {z : NodeId} (h : d.relocate (scripting src dst) w x z = .ok d') :
    ∃ k, d'.journal.toList = d.journal.toList ++ [.move w x z k] ∧
      ∀ u, d'.work.contentOf u = d.work.contentOf u := by
  obtain ⟨k, _, h⟩ := exists_of_bind_eq_ok h
  obtain ⟨work, hwork, h⟩ := exists_of_bind_eq_ok h
  cases h
  exact ⟨k, Array.toList_push, contentOf_insertAt hwork⟩

theorem update_writes (hx : dst.forest.has x) (hw : d.work.has w) (hpair : p.origin? x = some w)
    (hsame : d.work.contentOf w = src.forest.contentOf w)
    (h : d.update (scripting src dst) w x = .ok d') :
    ∃ l : List Action, d'.journal.toList = d.journal.toList ++ l ∧ d'.pairing = d.pairing ∧
      l.filterMap Action.inserted? = [] ∧ l.filterMap Action.moved? = [] ∧
      l.filterMap Action.updated? = (dueChange src dst p x).toList ∧
      (∀ u, d'.work.parent? u = d.work.parent? u) ∧ d'.work.size = d.work.size ∧
      ∀ u, u ≠ w → d'.work.contentOf u = d.work.contentOf u := by
  rw [update_eq (t := scripting src dst) hx hw] at h
  rw [dueChange, hpair, Option.bind_some, ← hsame]
  by_cases he : d.work.contentOf w = dst.forest.contentOf x
  · rw [if_pos he] at h
    cases h
    refine ⟨[], by simp, rfl, rfl, rfl, ?_, fun _ => rfl, rfl, fun _ _ => rfl⟩
    rw [if_pos he]
    rfl
  · rw [if_neg he] at h
    cases h
    refine ⟨[d.change (scripting src dst) w x], Array.toList_push, rfl, rfl, rfl, ?_, ?_, ?_, ?_⟩
    · rw [if_neg he, changeInto, ← hsame]
      simp [change, Action.updated?]
    · exact Forest.parent?_modify_info d.work w fun n => { n with
        kind := (dst.forest.contentOf x).kind, label := (dst.forest.contentOf x).label }
    · exact Forest.size_modify d.work w _
    · intro u hu
      refine (Base.contentOf_withContent hw _ u).trans (if_neg (Ne.symm hu))

theorem bring_writes (hs : Setting (scripting src dst) src p)
    (hb : Base (scripting src dst) src p placed d.work d.pairing)
    (hx : Next (scripting src dst) placed x) (hun : Untouched src p placed d.work)
    (h : d.bring (scripting src dst) x = .ok (w, d')) :
    ∃ l, d'.journal.toList = d.journal.toList ++ l ∧ Brought src dst p x l ∧
      ∀ u, u ≠ w → d'.work.contentOf u = d.work.contentOf u := by
  have hhas : dst.forest.has x := hs.dst_sound.has_of_reaches hx.reached
  have horigin := hb.origin_eq hs hx.fresh
  obtain ⟨z, hz, h⟩ := exists_of_bind_eq_ok h
  rw [targetParent_eq hhas] at hz
  cases hz
  cases hpx : p.origin? x with
  | none =>
      rw [horigin, hpx] at h
      obtain ⟨k, hjournal, hcontent⟩ := insert_writes hhas h
      refine ⟨_, hjournal, ⟨?_, ?_, List.nodup_nil, ?_⟩, hcontent⟩
      · rw [dueInsert, if_pos hpx]
        rfl
      · rw [dueChange, hpx]
        rfl
      · intro a b
        have hno : p.image? a ≠ some x := by
          rw [ne_eq, hs.pairs.image_iff_origin, hpx]
          simp
        simp [Action.moved?, hno]
  | some v =>
      have himage := (hs.pairs.image_iff_origin v x).2 hpx
      have hdue : dueInsert dst p x = none := if_neg (by simp [hpx])
      rw [horigin, hpx] at h
      obtain ⟨d₁, hupdate, h⟩ := exists_of_bind_eq_ok h
      have hlive := (hb.live v x (hb.old v x himage)).1
      obtain ⟨l, hjournal, hpairing, hinsert, hmove, hchange, hparent, hsize, hcontent⟩ :=
        update_writes hhas hlive hpx (hun v x himage hx.fresh) hupdate
      have hplace := hb.in_place_iff hs hx himage
      have hmem : ∀ a, p.image? a = some x ↔ a = v := by
        intro a
        rw [hs.pairs.image_iff_origin, hpx, Option.some.injEq, eq_comm]
      rw [Forest.node_eq_ok ((Forest.has_congr hsize v).2 hlive)] at h
      change (if _ then _ else _) = _ at h
      split at h
      · next hin =>
        cases h
        rw [beq_iff_eq, hparent, hplace] at hin
        refine ⟨l, hjournal, ⟨by rw [hinsert, hdue]; rfl, hchange, ?_, ?_⟩, hcontent⟩
        · rw [hmove]
          exact List.nodup_nil
        · intro a b
          rw [hmove, hmem]
          simp only [List.not_mem_nil, false_iff, not_and, not_not]
          rintro _ rfl
          exact hin
      · next hin =>
        rw [beq_iff_eq, hparent, hplace] at hin
        obtain ⟨d₂, hrelocate, h⟩ := exists_of_bind_eq_ok h
        cases h
        obtain ⟨k, hjournal', hcontent'⟩ := relocate_writes hrelocate
        refine ⟨l ++ [.move w x _ k], by rw [hjournal', hjournal, List.append_assoc], ?_, ?_⟩
        · refine ⟨?_, ?_, ?_, ?_⟩
          · rw [List.filterMap_append, hinsert, hdue]
            rfl
          · rw [List.filterMap_append, hchange]
            simp [Action.updated?]
          · rw [List.filterMap_append, hmove]
            exact List.nodup_singleton _
          · intro a b
            rw [List.filterMap_append, hmove, hmem]
            constructor
            · intro hab
              obtain ⟨rfl, rfl⟩ : a = w ∧ b = x := by simpa [Action.moved?] using hab
              exact ⟨rfl, rfl, hin⟩
            · rintro ⟨rfl, rfl, _⟩
              simp [Action.moved?]
        · intro u hu
          rw [hcontent', hcontent u hu]

theorem moveStray_writes {strays : List NodeId}
    (h : moveStray (scripting src dst) w d strays = .ok d') :
    ∃ l : List Action, d'.journal.toList = d.journal.toList ++ l ∧
      l.filterMap Action.inserted? = [] ∧ l.filterMap Action.updated? = [] ∧
      l.filterMap Action.moved? =
        strays.filterMap (fun a => (d.pairing.image? a).map fun b => (a, b)) ∧
      ∀ u, d'.work.contentOf u = d.work.contentOf u := by
  induction strays generalizing d with
  | nil =>
      cases h
      exact ⟨[], by simp, rfl, rfl, rfl, fun _ => rfl⟩
  | cons a strays ih =>
      rw [moveStray] at h
      cases hab : d.pairing.image? a with
      | none =>
          rw [hab] at h
          obtain ⟨l, hjournal, hinsert, hupdate, hmove, hcontent⟩ := ih h
          refine ⟨l, hjournal, hinsert, hupdate, ?_, hcontent⟩
          rw [hmove, List.filterMap_cons, hab]
          rfl
      | some b =>
          rw [hab] at h
          obtain ⟨k, _, h⟩ := exists_of_bind_eq_ok h
          obtain ⟨work, hwork, h⟩ := exists_of_bind_eq_ok h
          obtain ⟨l, hjournal, hinsert, hupdate, hmove, hcontent⟩ := ih h
          refine ⟨.move a b w k :: l, ?_, hinsert, hupdate, ?_, fun u => ?_⟩
          · rw [hjournal]
            exact (congrArg (· ++ l) Array.toList_push).trans (by simp)
          · change (a, b) :: l.filterMap Action.moved? = _
            rw [List.filterMap_cons, hab]
            exact congrArg ((a, b) :: ·) hmove
          · rw [hcontent]
            exact (contentOf_insertAt hwork u).trans (Forest.contentOf_detach _ _ _)

/-- What is written down when the children of the partner of `x` are put in order: moves of nodes
that are paired with children of `x` and whose parents were partners from the start. -/
structure Strayed (src dst : Tree) (p : Pairing) (x : NodeId) (l : List Action) : Prop where
  inserts : l.filterMap Action.inserted? = []
  updates : l.filterMap Action.updated? = []
  moves_nodup : (l.filterMap Action.moved?).Nodup
  moves : ∀ a b, (a, b) ∈ l.filterMap Action.moved? →
    p.image? a = some b ∧ dst.forest.parent? b = some x ∧ ParentsPaired src dst p a b

theorem orderChildren_writes (hs : Setting (scripting src dst) src p)
    (hb : Base (scripting src dst) src p placed d.work d.pairing)
    (hfresh : ∀ b ∈ dst.forest.childrenOf x, b ∉ placed) (hw : d.pairing.origin? x = some w)
    (h : d.orderChildren (scripting src dst) w x = .ok d') :
    ∃ l : List Action, d'.journal.toList = d.journal.toList ++ l ∧ Strayed src dst p x l ∧
      ∀ u, d'.work.contentOf u = d.work.contentOf u := by
  obtain ⟨hhas, hreach⟩ := hb.live w x ((hb.pair w x).2 hw)
  have hhas' : dst.forest.has x := hs.dst_sound.has_of_reaches hreach
  rw [orderChildren_eq hs hb hhas hhas' rfl rfl] at h
  obtain ⟨l, hjournal, hinsert, hupdate, hmove, hcontent⟩ := moveStray_writes h
  refine ⟨l, hjournal, ⟨hinsert, hupdate, ?_, ?_⟩, hcontent⟩
  · rw [hmove]
    refine List.Nodup.filterMap (fun a a' q hq hq' => ?_)
      (((hb.links.nodup_children w).filter _).filter _)
    obtain ⟨b, _, rfl⟩ := Option.map_eq_some_iff.1 hq
    obtain ⟨b', _, he⟩ := Option.map_eq_some_iff.1 hq'
    exact (congrArg Prod.fst he).symm
  · intro a b hab
    rw [hmove] at hab
    obtain ⟨a', hmem, hq⟩ := List.mem_filterMap.1 hab
    obtain ⟨b', himage, he⟩ := Option.map_eq_some_iff.1 hq
    cases he
    obtain ⟨hchild, hparent⟩ := List.mem_filter.1 (List.mem_filter.1 hmem).1
    have hpa := (hb.links.mem_children w a).1 hchild
    have hpb : dst.forest.parent? b = some x := by
      change d.pairing.image? a = some b at himage
      simpa [himage] using hparent
    have himage' := (hb.pair w x).2 hw
    obtain ⟨hold, hsrc⟩ := hb.unmoved hs (hfresh b ((hs.dst_sound.forest.mem_children x b).2 hpb))
      himage hpa himage'
    have hold' := hb.old_of_has hs (hs.src_sound.forest.has_parent hsrc) himage'
    exact ⟨hold, hpb, .inr ⟨w, x, hsrc, hpb, hold'⟩⟩

theorem visit_writes (hs : Setting (scripting src dst) src p)
    (hb : Base (scripting src dst) src p placed d.work d.pairing)
    (ho : Ordered (scripting src dst) placed placed d)
    (hx : Next (scripting src dst) placed x) (hun : Untouched src p placed d.work)
    (h : d.visit (scripting src dst) x = .ok d') :
    ∃ own strays, d'.journal.toList = d.journal.toList ++ (own ++ strays) ∧
      Brought src dst p x own ∧ Strayed src dst p x strays ∧
      Untouched src p (placed ++ [x]) d'.work := by
  obtain ⟨w, d₁, hbring, hw, hb₁, _, _⟩ := bring_spec hs (stable_trivial _ _ _) hb ho hx trivial
  obtain ⟨own, hjournal, hown, hcontent⟩ := bring_writes hs hb hx hun hbring
  rw [visit, hbring] at h
  change (d₁.settle x).orderChildren (scripting src dst) w x = .ok d' at h
  obtain ⟨strays, hjournal', hstrays, hcontent'⟩ := orderChildren_writes (d := d₁.settle x) hs hb₁
    (hx.children_fresh hs hb) hw h
  refine ⟨own, strays, ?_, hown, hstrays, fun a b hab hbx => ?_⟩
  · rw [hjournal', ← List.append_assoc, ← hjournal]
    rfl
  · have hne : a ≠ w := by
      rintro rfl
      have := (hb₁.old a b hab).symm.trans ((hb₁.pair a x).2 hw)
      exact hbx (by simp [Option.some.inj this])
    rw [hcontent', ← hun a b hab fun hmem => hbx (List.mem_append_left _ hmem)]
    exact hcontent a hne

structure Logged (src dst : Tree) (p : Pairing) (placed : List NodeId) (l : List Action) : Prop where
  inserts : l.filterMap Action.inserted? = placed.filterMap (dueInsert dst p)
  updates : l.filterMap Action.updated? = placed.filterMap (dueChange src dst p)
  moves_nodup : (l.filterMap Action.moved?).Nodup
  due : ∀ b ∈ placed, ∀ a, p.image? a = some b → ¬ ParentsPaired src dst p a b →
    (a, b) ∈ l.filterMap Action.moved?
  moves : ∀ a b, (a, b) ∈ l.filterMap Action.moved? → p.image? a = some b ∧
    (¬ ParentsPaired src dst p a b ∧ b ∈ placed ∨
      ParentsPaired src dst p a b ∧ ∃ y ∈ placed, dst.forest.parent? b = some y)

theorem filterMap_concat {α β : Type} (f : α → Option β) (l : List α) (x : α) :
    (l ++ [x]).filterMap f = l.filterMap f ++ (f x).toList := by
  rw [List.filterMap_append, List.filterMap_cons]
  cases f x <;> rfl

/-- A node is moved for want of a place when it is visited itself, and as a stray when its parent
is, so never twice. -/
theorem Logged.visit {l own strays : List Action} (h : Logged src dst p placed l)
    (hx : x ∉ placed) (hown : Brought src dst p x own) (hstrays : Strayed src dst p x strays) :
    Logged src dst p (placed ++ [x]) (l ++ (own ++ strays)) := by
  refine ⟨?_, ?_, ?_, ?_, ?_⟩
  · rw [List.filterMap_append, List.filterMap_append, h.inserts, hown.inserts, hstrays.inserts,
      List.append_nil, filterMap_concat]
  · rw [List.filterMap_append, List.filterMap_append, h.updates, hown.updates, hstrays.updates,
      List.append_nil, filterMap_concat]
  · rw [List.filterMap_append, List.filterMap_append, List.nodup_append',
      List.nodup_append']
    refine ⟨h.moves_nodup, ⟨hown.moves_nodup, hstrays.moves_nodup, ?_⟩, ?_⟩
    · rintro ⟨a, b⟩ hab hab'
      obtain ⟨rfl, _, hno⟩ := (hown.moves a b).1 hab
      exact hno (hstrays.moves a b hab').2.2
    · rintro ⟨a, b⟩ hab hab'
      rcases (h.moves a b hab).2 with ⟨hno, hb⟩ | ⟨hyes, y, hy, hby⟩ <;>
        rcases List.mem_append.1 hab' with hab' | hab'
      · exact hx (((hown.moves a b).1 hab').1 ▸ hb)
      · exact hno (hstrays.moves a b hab').2.2
      · obtain ⟨rfl, _, hno⟩ := (hown.moves a b).1 hab'
        exact hno hyes
      · rw [(hstrays.moves a b hab').2.1] at hby
        exact hx (Option.some.inj hby ▸ hy)
  · intro b hb a hab hno
    rw [List.filterMap_append, List.filterMap_append]
    rcases List.mem_append.1 hb with hb | hb
    · exact List.mem_append_left _ (h.due b hb a hab hno)
    · obtain rfl := List.mem_singleton.1 hb
      exact List.mem_append_right _ (List.mem_append_left _ ((hown.moves a b).2 ⟨rfl, hab, hno⟩))
  · intro a b hab
    rw [List.filterMap_append, List.filterMap_append] at hab
    rcases List.mem_append.1 hab with hab | hab
    · obtain ⟨hpair, ⟨hno, hb⟩ | ⟨hyes, y, hy, hby⟩⟩ := h.moves a b hab
      · exact ⟨hpair, .inl ⟨hno, List.mem_append_left _ hb⟩⟩
      · exact ⟨hpair, .inr ⟨hyes, y, List.mem_append_left _ hy, hby⟩⟩
    · rcases List.mem_append.1 hab with hab | hab
      · obtain ⟨rfl, hpair, hno⟩ := (hown.moves a b).1 hab
        exact ⟨hpair, .inl ⟨hno, by simp⟩⟩
      · obtain ⟨hpair, hparent, hyes⟩ := hstrays.moves a b hab
        exact ⟨hpair, .inr ⟨hyes, x, by simp, hparent⟩⟩

structure Visited (src dst : Tree) (p : Pairing) (placed : List NodeId) (d : Draft Action) :
    Prop where
  base : Base (scripting src dst) src p placed d.work d.pairing
  order : Ordered (scripting src dst) placed placed d
  told : Told (scripting src dst) p d
  logged : Logged src dst p placed d.journal.toList
  untouched : Untouched src p placed d.work

theorem Visited.start (hs : Setting (scripting src dst) src p) :
    Visited src dst p [] (start src p) where
  base := Base.start hs
  order := .start
  told := by simp [Told, Draft.start]
  logged := ⟨rfl, rfl, List.nodup_nil, by simp, by simp [Draft.start]⟩
  untouched a b hab _ := contentOf_underTop (hs.src_sound.has_of_reaches (hs.within a b hab).1)

theorem Visited.visit (hs : Setting (scripting src dst) src p) (h : Visited src dst p placed d)
    (hx : Next (scripting src dst) placed x) :
    ∃ d', d.visit (scripting src dst) x = .ok d' ∧ Visited src dst p (placed ++ [x]) d' := by
  obtain ⟨d', hvisit, hb, ho, htold⟩ := visit_spec hs (stable_told hs) h.base h.order hx h.told
  obtain ⟨own, strays, hjournal, hown, hstrays, hun⟩ :=
    visit_writes hs h.base h.order hx h.untouched hvisit
  exact ⟨d', hvisit, hb, ho, htold, hjournal ▸ h.logged.visit hx.fresh hown hstrays, hun⟩

/-- The script for a pairing. What each visit carries on from the nodes visited before to one node
more holds of its draft. -/
theorem ofPairing_induct {motive : List NodeId → Draft Action → Prop} (hsrc : src.Sound)
    (hdst : dst.Sound) (hp : p.Sound) (hwithin : p.Within src dst)
    (hstart : motive [] (start src p))
    (hstep : ∀ placed x d d', Setting (scripting src dst) src p → Visited src dst p placed d →
      Next (scripting src dst) placed x → d.visit (scripting src dst) x = .ok d' →
      motive placed d → motive (placed ++ [x]) d') :
    ∃ d, Script.ofPairing src dst p = .ok (script src dst d) ∧
      Setting (scripting src dst) src p ∧ Visited src dst p dst.breadthFirst d ∧
      motive dst.breadthFirst d := by
  have hs : Setting (scripting src dst) src p := ⟨hsrc, hdst, rfl, hp, hwithin⟩
  obtain ⟨d, hrun, hvisited, hd⟩ := visitAll_induct
    (I := fun placed d => Visited src dst p placed d ∧ motive placed d) hs
    (fun placed x d hx ⟨hvisited, hd⟩ => by
      obtain ⟨d', hvisit, hvisited'⟩ := hvisited.visit hs hx
      exact ⟨d', hvisit, hvisited', hstep placed x d d' hs hvisited hx hvisit hd⟩)
    (List.nil_append _).symm ⟨Visited.start hs, hstart⟩
  refine ⟨d, ?_, hs, hvisited, hd⟩
  rw [Script.ofPairing, run_eq hrun]
  rfl

theorem ofPairing_logged (hsrc : src.Sound) (hdst : dst.Sound) (hp : p.Sound)
    (hwithin : p.Within src dst) :
    ∃ d, Script.ofPairing src dst p = .ok (script src dst d) ∧
      Finished (scripting src dst) src p d ∧ Told (scripting src dst) p d ∧
      Logged src dst p dst.breadthFirst d.journal.toList := by
  obtain ⟨d, hscript, hs, h, -⟩ := ofPairing_induct (motive := fun _ _ => True) hsrc hdst hp hwithin
    trivial fun _ _ _ _ _ _ _ _ _ => trivial
  exact ⟨d, hscript, ⟨hs, h.base, h.order⟩, h.told, h.logged⟩

end Draft

end TreeDelta
