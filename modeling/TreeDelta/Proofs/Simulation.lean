import TreeDelta.Proofs.DraftRun
import TreeDelta.Proofs.Mirror

namespace TreeDelta

namespace Replay

variable {dst : Tree} {r : Replay} {w x z : NodeId} {k : Nat}

theorem nodeOf_eq (h : r.work.has (r.name w)) (index : Nat) : r.nodeOf index w = .ok (r.name w) :=
  if_pos h

theorem requireSlot_eq (h : k ≤ (r.work.childrenOf z).length) (index : Nat) :
    r.requireSlot index z k = .ok () :=
  if_pos h

theorem apply_insert (dst : Tree) (hz : r.work.has (r.name z))
    (hk : k ≤ (r.work.childrenOf (r.name z)).length) (index : Nat) (kind : Kind)
    (label : Option String) :
    r.apply dst index (.insert w x z k kind label) =
      .ok (r.link (r.work.copyTree (.node ⟨⟨kind, label⟩, 0, 0, {}⟩ [])).2 w
        (r.work.copyTree (.node ⟨⟨kind, label⟩, 0, 0, {}⟩ [])).1 (r.name z) k) := by
  rw [apply, nodeOf_eq hz]
  change (r.requireSlot index (r.name z) k >>= _) = _
  rw [requireSlot_eq hk]
  rfl

theorem apply_insertTree (hz : r.work.has (r.name z))
    (hk : k ≤ (r.work.childrenOf (r.name z)).length) (hx : dst.forest.has x) (index : Nat) :
    r.apply dst index (.insertTree w x z k) =
      .ok (r.link (r.work.copyTree ((dst.forest.subtree x).map dst.forest.infoOf)).2 w
        (r.work.copyTree ((dst.forest.subtree x).map dst.forest.infoOf)).1 (r.name z) k) := by
  rw [apply, nodeOf_eq hz]
  change (r.requireSlot index (r.name z) k >>= _) = _
  rw [requireSlot_eq hk, hx]
  rfl

theorem apply_move (hlinks : r.work.Sound) (hw : r.work.has (r.name w))
    (hz : r.work.has (r.name z)) (hwz : ¬ r.work.Under (r.name w) (r.name z))
    (hk : k ≤ ((r.work.childrenOf (r.name z)).erase (r.name w)).length) (index : Nat) :
    r.apply dst index (.move w x z k) =
      .ok { r with work := r.work.place (r.name z) (r.name w) k } := by
  have hno : ((r.name z :: r.work.ancestors (r.name z)).contains (r.name w)) = false := by
    simpa using mt hlinks.mem_self_ancestors_iff.1 hwz
  have hslot : ({ r with work := r.work.detach (r.name w) } : Replay).requireSlot index (r.name z) k =
      .ok () := by
    refine requireSlot_eq ?_ index
    rw [hlinks.childrenOf_detach]
    exact hk
  rw [apply, nodeOf_eq hw]
  change (r.nodeOf index z >>= _) = _
  rw [nodeOf_eq hz]
  change (if (r.name z :: r.work.ancestors (r.name z)).contains (r.name w) then _ else _) = _
  rw [hno]
  change (({ r with work := r.work.detach (r.name w) } : Replay).requireSlot index (r.name z) k >>= _)
    = _
  rw [hslot]
  change Except.ok { r with work := (r.work.detach (r.name w)).place (r.name z) (r.name w) k } = _
  rw [Forest.place_detach]

theorem apply_update (hw : r.work.has (r.name w)) (index : Nat) (old new : Option String)
    (retype : Option Kind) :
    r.apply dst index (.update w x old new retype) =
      .ok { r with work := r.work.modify (r.name w) fun n =>
        { n with info := { n.info with label := new, kind := retype.getD n.info.kind } } } := by
  rw [apply, nodeOf_eq hw]
  rfl

theorem apply_delete (hw : r.work.has (r.name w)) (hnil : r.work.childrenOf (r.name w) = [])
    (index : Nat) :
    r.apply dst index (.delete w) = .ok { r with work := r.work.detach (r.name w) } := by
  rw [apply, nodeOf_eq hw]
  change (if !(r.work.childrenOf (r.name w)).isEmpty then _ else _) = _
  rw [hnil]
  rfl

theorem apply_deleteTree (hw : r.work.has (r.name w)) (index : Nat) :
    r.apply dst index (.deleteTree w) = .ok { r with work := r.work.detach (r.name w) } := by
  rw [apply, nodeOf_eq hw]
  rfl

def applyOption (dst : Tree) (r : Replay) (index : Nat) : Option Action → Except ReplayError Replay
  | none => .ok r
  | some a => r.apply dst index a

end Replay

namespace Draft

variable {ε : Type} {t : Task ε} {src : Tree} {p : Pairing} {placed : List NodeId} {d d' : Draft ε}
  {added removed : Std.HashSet NodeId} {r : Replay} {w x z : NodeId} {k : Nat}

theorem Base.shown_old (hs : Setting t src p) (hb : Base t src p placed d.work d.pairing)
    (hbun : Bundled src t.dst p added removed) (hx : x ∉ placed)
    (hw : d.pairing.origin? x = some w) :
    Shown t added d.work d.pairing w ∧ w ≤ t.top ∧ ¬ Covered t.dst added x := by
  have himage := (hb.pair w x).2 hw
  have hold : p.image? w = some x :=
    (hb.new w x himage).resolve_right fun hn => hx hn.2.2
  have hcov := (plain_of_old hbun hold hs.pairs).2
  refine ⟨⟨(hb.live w x himage).1, fun y hy => ?_⟩, ?_, hcov⟩
  · rw [himage] at hy
    cases hy
    exact hcov
  · have hhas := hs.src_sound.has_of_reaches (hs.within w x hold).1
    have := ((src.forest.has_iff_le w).1 hhas).2
    rw [hs.top_eq]
    exact Nat.le_succ_of_le this

namespace Mirror

theorem step_move (hs : Setting t src p) (hb : Base t src p placed d.work d.pairing)
    (hbun : Bundled src t.dst p added removed) (hm : Mirror t added d.work d.pairing r)
    (hx : x ∉ placed) (hw : d.pairing.origin? x = some w)
    (hseat : ∀ y, t.dst.forest.parent? x = some y → y ∈ placed)
    (hk : k ≤ ((d.work.childrenOf (t.seat d.pairing x)).erase w).length) (index : Nat) :
    ∃ r', r.apply t.dst index (.move w x (t.seat d.pairing x) k) = .ok r' ∧
      Mirror t added (d.work.place (t.seat d.pairing x) w k) d.pairing r' := by
  obtain ⟨hshown, hlow, hcov⟩ := hb.shown_old hs hbun hx hw
  obtain ⟨hz, hplain⟩ := hb.plain_seat hbun hseat hcov
  have hname := hm.low w hlow
  have hwz := hb.not_under_seat hx hseat hw
  have hunder : ¬ r.work.Under (r.name w) (r.name (t.seat d.pairing x)) := by
    intro hu
    obtain ⟨v, hv, he, hvz⟩ := hm.under hs hb hbun hz hu
    exact hwz (hm.inj v w hv hshown he ▸ hvz)
  have hslot : k ≤ ((r.work.childrenOf (r.name (t.seat d.pairing x))).erase (r.name w)).length := by
    rw [hm.children _ hz hplain, erase_map, List.length_map]
    · exact hk
    · intro c hc he
      exact hm.inj c w (hb.shown_child hs hbun hplain ((hb.links.mem_children _ c).1 hc)) hshown he
  refine ⟨_, Replay.apply_move hm.links (hm.has w hshown) (hm.has _ hz) hunder hslot index, ?_⟩
  rw [hname]
  exact hm.place hs hb hbun hshown hlow hz hplain hwz

theorem step_update (hs : Setting t src p) (hb : Base t src p placed d.work d.pairing)
    (hbun : Bundled src t.dst p added removed) (hm : Mirror t added d.work d.pairing r)
    (hx : x ∉ placed) (hw : d.pairing.origin? x = some w) (index : Nat) :
    ∃ r', r.apply t.dst index (d.change t w x) = .ok r' ∧
      Mirror t added (withContent d.work w (t.dst.forest.contentOf x)) d.pairing r' := by
  obtain ⟨hshown, hlow, -⟩ := hb.shown_old hs hbun hx hw
  have hname := hm.low w hlow
  have hhas := hm.has_low hshown hlow
  set new := t.dst.forest.contentOf x with hnew
  set retype := if (d.work.contentOf w).kind == new.kind then none else some new.kind with hretype
  set change : NodeInfo → NodeInfo :=
    fun n => { n with label := new.label, kind := retype.getD n.kind } with hchange
  refine ⟨_, Replay.apply_update (hm.has w hshown) index _ _ _, ?_⟩
  rw [hname]
  refine hm.update hshown hlow (hm.links.modify_info w change) (Forest.size_modify _ _ _)
    (Forest.parent?_modify_info _ w change) (Forest.childrenOf_modify_info _ w change)
    fun j => ?_
  rw [Forest.contentOf_eq, Forest.infoOf_modify_info r.work hhas change, Forest.contentOf_eq]
  by_cases hj : w = j
  · subst hj
    have hcontent := hm.content w hshown
    rw [hname, Forest.contentOf_eq] at hcontent
    have hkind : retype.getD (r.work.infoOf w).kind = new.kind := by
      rw [hretype]
      split
      · next he =>
          rw [beq_iff_eq] at he
          exact (congrArg Content.kind hcontent).trans he
      · rfl
    rw [if_pos rfl, if_pos rfl, hchange]
    change (⟨retype.getD (r.work.infoOf w).kind, new.label⟩ : Content) = new
    rw [hkind]
  · rw [if_neg hj, if_neg hj]

theorem step_insert {q' : Pairing} (hs : Setting t src p)
    (hb : Base t src p placed d.work d.pairing) (hbun : Bundled src t.dst p added removed)
    (hm : Mirror t added d.work d.pairing r) (hreach : t.dst.Reaches x)
    (hseat : ∀ y, t.dst.forest.parent? x = some y → y ∈ placed)
    (hk : k ≤ (d.work.childrenOf (t.seat d.pairing x)).length)
    (hadd : d.pairing.add (d.work.size + 1) x = .ok q') (index : Nat) :
    ∃ r', r.applyOption t.dst index
        (Script.condenseAction src t.dst added removed (d.insertion t x k)) = .ok r' ∧
      Mirror t added ((d.work.alloc (t.dst.forest.infoOf x)).2.place (t.seat d.pairing x)
        (d.work.size + 1) k) q' r' := by
  by_cases hcov : Covered t.dst added x
  · refine ⟨r, ?_, hm.skip hb hseat hadd hcov⟩
    obtain ⟨y, hy, hadded⟩ := hcov
    have hx := hbun.added_below x y hy hadded
    simp [insertion, Script.condenseAction, Script.condenseAt, hx, hy, hadded, Replay.applyOption]
  obtain ⟨hz, hplain⟩ := hb.plain_seat hbun hseat hcov
  have hhas := hm.has _ hz
  have hslot : k ≤ (r.work.childrenOf (r.name (t.seat d.pairing x))).length := by
    rw [hm.children _ hz hplain, List.length_map]
    exact hk
  -- whatever tree is copied, the rest of the argument is the same
  have hgraft : ∀ tree, Copies t added x tree → Mirror t added
      ((d.work.alloc (t.dst.forest.infoOf x)).2.place (t.seat d.pairing x) (d.work.size + 1) k) q'
      (r.link (r.work.copyTree tree).2 (d.work.size + 1) (r.work.copyTree tree).1
        (r.name (t.seat d.pairing x)) k) := by
    intro tree htree
    have hwork := Forest.copyTree_place hb.links hz.1 k (.node (t.dst.forest.infoOf x) [])
    rw [Forest.copyTree_leaf, Forest.fst_alloc] at hwork
    have hsize : ((d.work.alloc (t.dst.forest.infoOf x)).2.place (t.seat d.pairing x)
        (d.work.size + 1) k).size = d.work.size + 1 := by
      rw [Forest.size_place, Forest.size_alloc]
    have hcopy := Forest.copyTree_place hm.links hhas k tree
    refine hm.graft hs hb hbun hadd hz hplain ?_ htree hwork hsize hcopy fun v => ?_
    · rw [Forest.contentOf_eq]
    · rw [name_link, (Forest.copyTree_spec hm.links tree).1]
  have hsingle : ∀ (_ : added.contains x → t.dst.forest.childrenOf x = []),
      Copies t added x (.node ⟨t.dst.forest.contentOf x, 0, 0, {}⟩ []) := by
    intro hleaf
    refine ⟨rfl, fun hx => ?_, fun _ => rfl⟩
    rw [Forest.contentTree, hs.dst_sound.forest.subtree_eq, hleaf hx, Rose.map_node, Rose.map_node]
    rfl
  have hinsert := Replay.apply_insert t.dst (w := d.work.size + 1) (x := x) hhas hslot
    index (t.dst.forest.contentOf x).kind (t.dst.forest.contentOf x).label
  by_cases hx : added.contains x
  · by_cases hnil : t.dst.forest.childrenOf x = []
    · refine ⟨_, ?_, hgraft _ (hsingle fun _ => hnil)⟩
      have hcond : Script.condenseAction src t.dst added removed (d.insertion t x k) =
          some (d.insertion t x k) := by
        rw [insertion, Script.condenseAction, if_pos hx, Script.condenseAt,
          if_neg (mt covered_iff.1 hcov), hnil]
        rfl
      rw [hcond]
      exact hinsert
    · refine ⟨_, ?_, hgraft ((t.dst.forest.subtree x).map t.dst.forest.infoOf) ⟨?_, ?_, ?_⟩⟩
      · have hcond : Script.condenseAction src t.dst added removed (d.insertion t x k) =
            some (.insertTree (d.work.size + 1) x (t.seat d.pairing x) k) := by
          rw [insertion, Script.condenseAction, if_pos hx, Script.condenseAt,
            if_neg (mt covered_iff.1 hcov), if_neg (by simpa using hnil)]
        rw [hcond]
        exact Replay.apply_insertTree hhas hslot (hs.dst_sound.has_of_reaches hreach) index
      · rw [Rose.value_map, hs.dst_sound.forest.value_subtree, Forest.contentOf_eq]
      · intro _
        rw [Rose.map_map, Forest.contentTree]
        exact Rose.map_congr fun b _ => (Forest.contentOf_eq _ b).symm
      · exact fun hno => absurd hx hno
  · refine ⟨_, ?_, hgraft _ (hsingle fun hx' => absurd hx' hx)⟩
    have hcond : Script.condenseAction src t.dst added removed (d.insertion t x k) =
        some (d.insertion t x k) := by
      rw [insertion, Script.condenseAction, if_neg hx]
    rw [hcond]
    exact hinsert

/-- After each step of the draft the replay of its action, condensed or not, mirrors the draft. -/
theorem step {a : Action} (hs : Setting t src p) (hb : Base t src p placed d.work d.pairing)
    (hbun : Bundled src t.dst p added removed) (hm : Mirror t added d.work d.pairing r)
    (hstep : Step t placed d a d') (index : Nat) :
    ∃ r', r.applyOption t.dst index (Script.condenseAction src t.dst added removed a) = .ok r' ∧
      Mirror t added d'.work d'.pairing r' := by
  cases hstep with
  | insert hx hreach hseat hk hadd => exact hm.step_insert hs hb hbun hreach hseat hk hadd index
  | update hx hw _ => exact hm.step_update hs hb hbun hx hw index
  | move hx hw hseat hk =>
      exact hm.step_move hs hb hbun hx hw hseat hk index

theorem start (hs : Setting t src p) (hbun : Bundled src t.dst p added removed)
    (hname : ∀ v, r.name v = v) (hwork : r.work = (src.forest.underTop src.root).2) :
    Mirror t added (src.forest.underTop src.root).2 p r := by
  have hid : r.name = id := by
    funext v
    exact hname v
  constructor
  case links => exact hwork ▸ sound_underTop hs.src_sound
  case low => exact fun v _ => hname v
  case high =>
    intro v _ hlt
    rwa [hname]
  case has =>
    intro v hv
    rw [hname, hwork]
    exact hv.1
  case inj =>
    intro u v _ _ he
    rwa [hname, hname] at he
  case parent =>
    intro v _
    rw [hid, hwork, Option.map_id]
    rfl
  case children =>
    intro v _ _
    rw [hid, hwork, List.map_id]
    rfl
  case content =>
    intro v _
    rw [hname, hwork]
  case whole =>
    intro v y _ hy hadded
    rw [hs.pairs.image_iff_origin, hbun.added_free y hadded] at hy
    cases hy

end Mirror

end Draft

namespace Replay

variable {dst : Tree} {r r' : Replay}

theorem applyAll_filterMap_append {g : Action → Option Action} {as : List Action} {a : Action}
    {index : Nat} (h : r.applyAll dst index (as.filterMap g) = .ok r')
    {s : Replay} (hs : r'.applyOption dst (index + (as.filterMap g).length) (g a) = .ok s) :
    r.applyAll dst index ((as ++ [a]).filterMap g) = .ok s := by
  rw [List.filterMap_append, applyAll_append, h]
  change r'.applyAll dst _ _ = _
  cases hg : g a with
  | none =>
      rw [hg] at hs
      simpa [hg, applyAll, applyOption] using hs
  | some b =>
      rw [hg] at hs
      change r'.apply dst _ b = .ok s at hs
      simp only [List.filterMap_cons, hg, List.filterMap_nil, applyAll, hs]
      rfl

def start (src : Tree) : Replay :=
  ⟨(src.forest.underTop src.root).2,
    (∅ : Std.HashMap NodeId NodeId).insert (src.forest.size + 1) (src.forest.size + 1)⟩

theorem name_start (src : Tree) (v : NodeId) : (start src).name v = v := by
  change ((∅ : Std.HashMap NodeId NodeId).insert _ _).getD v v = v
  rw [Std.HashMap.getD_insert]
  split
  · next he => exact beq_iff_eq.1 he
  · exact Std.HashMap.getD_empty

end Replay

namespace Draft

variable {src dst : Tree} {p : Pairing} {added removed : Std.HashSet NodeId}

def Replayed (src dst : Tree) (added removed : Std.HashSet NodeId) (t : Task Action)
    (d : Draft Action) : Prop :=
  ∃ r, (Replay.start src).applyAll dst 0
      (d.journal.toList.filterMap (Script.condenseAction src dst added removed)) = .ok r ∧
    Mirror t added d.work d.pairing r

theorem stable_replayed {top : NodeId} (hs : Setting ⟨dst, top, fun a _ => a⟩ src p)
    (hbun : Bundled src dst p added removed) :
    Stable ⟨dst, top, fun a _ => a⟩ src p (Replayed src dst added removed ⟨dst, top, fun a _ => a⟩)
    where
  quiet _ _ h := h
  step placed _ d a d' hb hstep _ h := by
    obtain ⟨r, hr, hm⟩ := h
    obtain ⟨r', hr', hm'⟩ := hm.step hs hb hbun hstep
      (0 + (d.journal.toList.filterMap (Script.condenseAction src dst added removed)).length)
    refine ⟨r', ?_, hm'⟩
    rw [hstep.journal_eq, Array.toList_push]
    exact Replay.applyAll_filterMap_append hr hr'

theorem replayed_start (hs : Setting ⟨dst, src.forest.size + 1, fun a _ => a⟩ src p)
    (hbun : Bundled src dst p added removed) :
    Replayed src dst added removed ⟨dst, src.forest.size + 1, fun a _ => a⟩ (start src p) :=
  ⟨Replay.start src, rfl, Mirror.start hs hbun (Replay.name_start src) rfl⟩

end Draft

end TreeDelta
