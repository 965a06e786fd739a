import TreeDelta.Proofs.Bundles
import TreeDelta.Proofs.Copying

namespace TreeDelta

def Replay.name (r : Replay) (v : NodeId) : NodeId := r.aliases.getD v v

namespace Draft

variable {ε : Type}

structure Mirror (t : Task ε) (added : Std.HashSet NodeId) (work : Forest) (q : Pairing)
    (r : Replay) : Prop where
  links : r.work.Sound
  low : ∀ v, v ≤ t.top → r.name v = v
  high : ∀ v, Shown t added work q v → t.top < v → t.top < r.name v
  has : ∀ v, Shown t added work q v → r.work.has (r.name v)
  inj : ∀ u v, Shown t added work q u → Shown t added work q v → r.name u = r.name v → u = v
  parent : ∀ v, Shown t added work q v → r.work.parent? (r.name v) = (work.parent? v).map r.name
  children : ∀ v, Shown t added work q v → Plain added q v →
    r.work.childrenOf (r.name v) = (work.childrenOf v).map r.name
  content : ∀ v, Shown t added work q v → r.work.contentOf (r.name v) = work.contentOf v
  whole : ∀ v y, Shown t added work q v → q.image? v = some y → added.contains y →
    (r.work.subtree (r.name v)).agree
      (fun a b => decide (t.top < a) && r.work.contentOf a == t.dst.forest.contentOf b)
      (t.dst.forest.subtree y)

variable {t : Task ε} {src : Tree} {p : Pairing} {placed : List NodeId} {work : Forest}
  {q : Pairing} {added removed : Std.HashSet NodeId} {r : Replay} {a b c u v w x y z : NodeId}

namespace Mirror

theorem under (hs : Setting t src p) (hb : Base t src p placed work q)
    (hbun : Bundled src t.dst p added removed) (hm : Mirror t added work q r)
    (hu : Shown t added work q u) (h : r.work.Under a (r.name u)) :
    ∃ v, Shown t added work q v ∧ r.name v = a ∧ work.Under v u := by
  induction h using Relation.ReflTransGen.head_induction_on with
  | refl => exact ⟨u, hu, rfl, .refl⟩
  | head hac _ ih =>
      obtain ⟨v, hv, rfl, hvu⟩ := ih
      rw [hm.parent v hv, Option.map_eq_some_iff] at hac
      obtain ⟨v', hv', rfl⟩ := hac
      exact ⟨v', (hb.shown_parent hs hbun hv hv').1, rfl, .head hv' hvu⟩

theorem top_lt (hm : Mirror t added work q r) (hv : Shown t added work q v)
    (hy : q.image? v = some y) (hadded : added.contains y) (hb : r.work.Under (r.name v) b) :
    t.top < b := by
  obtain ⟨c, _, hc⟩ := forall₂_exists_of_mem (Rose.forall₂_preorder (hm.whole v y hv hy hadded))
    (hm.links.mem_preorder_iff.2 hb)
  simp only [Bool.and_eq_true, decide_eq_true_eq] at hc
  exact hc.1

theorem not_under_name (hs : Setting t src p) (hb : Base t src p placed work q)
    (hbun : Bundled src t.dst p added removed) (hm : Mirror t added work q r)
    (hv : Shown t added work q v) (hy : q.image? v = some y) (hadded : added.contains y)
    (hz : Shown t added work q z) (hplain : Plain added q z) :
    ¬ r.work.Under (r.name v) (r.name z) := by
  intro hu
  obtain ⟨v', hv', he, hvz⟩ := hm.under hs hb hbun hz hu
  obtain rfl := hm.inj v' v hv' hv he
  obtain rfl := hb.eq_of_under hs hbun hy hadded hvz hz
  exact hplain y hy hadded

theorem whole_of_same {f : Forest} (hm : Mirror t added work q r) (hf : f.Sound)
    (hv : Shown t added work q v) (hy : q.image? v = some y) (hadded : added.contains y)
    (hchildren : ∀ b, r.work.Under (r.name v) b → f.childrenOf b = r.work.childrenOf b)
    (hcontent : ∀ b, r.work.Under (r.name v) b → f.contentOf b = r.work.contentOf b) :
    (f.subtree (r.name v)).agree
      (fun a b => decide (t.top < a) && f.contentOf a == t.dst.forest.contentOf b)
      (t.dst.forest.subtree y) := by
  rw [Forest.subtree_congr hm.links hf _ hchildren]
  refine Rose.agree_mono (hm.whole v y hv hy hadded) fun b hb c _ => ?_
  rw [hcontent b (hm.links.mem_preorder_iff.1 hb)]
  exact id

end Mirror

theorem erase_map {g : NodeId → NodeId} {l : List NodeId} (hg : ∀ c ∈ l, g c = g w → c = w) :
    (l.map g).erase (g w) = (l.erase w).map g := by
  induction l with
  | nil => rfl
  | cons c l ih =>
      have hl := ih fun c' hc' => hg c' (by simp [hc'])
      by_cases hc : c = w
      · simp [hc]
      · have hne : g c ≠ g w := fun he => hc (hg c (by simp) he)
        rw [List.map_cons, List.erase_cons_tail (by simpa using hne),
          List.erase_cons_tail (by simpa using hc), hl, List.map_cons]

namespace Mirror

theorem has_low (hm : Mirror t added work q r) (hw : Shown t added work q w) (hlow : w ≤ t.top) :
    r.work.has w := by
  have := hm.has w hw
  rwa [hm.low w hlow] at this

theorem place {k : Nat} (hs : Setting t src p) (hb : Base t src p placed work q)
    (hbun : Bundled src t.dst p added removed) (hm : Mirror t added work q r)
    (hw : Shown t added work q w) (hlow : w ≤ t.top) (hz : Shown t added work q z)
    (hplain : Plain added q z) (hwz : ¬ work.Under w z) :
    Mirror t added (work.place z w k) q { r with work := r.work.place (r.name z) w k } := by
  have hname := hm.low w hlow
  have hhas := hm.has_low hw hlow
  have hunder : ¬ r.work.Under w (r.name z) := by
    intro hu
    obtain ⟨v, hv, he, hvz⟩ := hm.under hs hb hbun hz hu
    rw [← hname] at he
    exact hwz (hm.inj v w hv hw he ▸ hvz)
  have hshown : ∀ {v}, Shown t added (work.place z w k) q v → Shown t added work q v :=
    fun hv => ⟨(Forest.has_congr (Forest.size_place work z w k) _).1 hv.1, hv.2⟩
  have hmap : ∀ {v}, Shown t added work q v → Plain added q v →
      (r.work.childrenOf (r.name v)).erase w = ((work.childrenOf v).erase w).map r.name := by
    intro v hv hp
    rw [hm.children v hv hp]
    conv_lhs => rw [← hname]
    refine erase_map fun c hc he => hm.inj c w ?_ hw he
    exact hb.shown_child hs hbun hp ((hb.links.mem_children v c).1 hc)
  have hlinks := hm.links.place (hm.has z hz) hhas hunder k
  constructor
  case links => exact hlinks
  case low => exact hm.low
  case high =>
    intro v hv
    exact hm.high v (hshown hv)
  case has =>
    intro v hv
    exact (Forest.has_congr (Forest.size_place r.work _ w k) _).2 (hm.has v (hshown hv))
  case inj =>
    intro u v hu hv
    exact hm.inj u v (hshown hu) (hshown hv)
  case parent =>
    intro v hv
    change (r.work.place (r.name z) w k).parent? (r.name v) = _
    rw [Forest.parent?_place _ _ hhas, Forest.parent?_place _ _ hw.1, hm.parent v (hshown hv)]
    by_cases hwv : w = v
    · subst hwv
      rw [if_pos hname.symm, if_pos rfl]
      rfl
    · rw [if_neg fun he => hwv (hm.inj w v hw (hshown hv) (hname.trans he)), if_neg hwv]
      rfl
  case children =>
    intro v hv hp
    change (r.work.place (r.name z) w k).childrenOf (r.name v) =
      ((work.place z w k).childrenOf v).map r.name
    rw [hm.links.childrenOf_place (hm.has z hz), hb.links.childrenOf_place hz.1]
    by_cases hzv : z = v
    · subst hzv
      rw [if_pos rfl, if_pos rfl, hmap hz hplain, List.map_append, List.map_cons, hname,
        List.map_take, List.map_drop]
    · rw [if_neg fun he => hzv (hm.inj z v hz (hshown hv) he), if_neg hzv, hmap (hshown hv) hp]
  case content =>
    intro v hv
    change (r.work.place (r.name z) w k).contentOf (r.name v) = _
    rw [Forest.contentOf_place, hm.content v (hshown hv), Forest.contentOf_place]
  case whole =>
    intro v y hv hy hadded
    refine hm.whole_of_same hlinks (hshown hv) hy hadded (fun b hvb => ?_) fun b hvb => ?_
    · have hne : r.name z ≠ b := by
        rintro rfl
        exact hm.not_under_name hs hb hbun (hshown hv) hy hadded hz hplain hvb
      have hnot : w ∉ r.work.childrenOf b := by
        intro hmem
        have hlt := hm.top_lt (hshown hv) hy hadded (hvb.tail ((hm.links.mem_children b w).1 hmem))
        exact absurd hlt (Nat.not_lt.2 hlow)
      rw [hm.links.childrenOf_place (hm.has z hz), if_neg hne, List.erase_of_not_mem hnot]
    · rw [Forest.contentOf_place]

theorem update {f : Forest} {new : Content} (hm : Mirror t added work q r)
    (hw : Shown t added work q w) (hlow : w ≤ t.top) (hf : f.Sound)
    (hsize : f.size = r.work.size) (hparent : ∀ j, f.parent? j = r.work.parent? j)
    (hchildren : ∀ j, f.childrenOf j = r.work.childrenOf j)
    (hcontent : ∀ j, f.contentOf j = if w = j then new else r.work.contentOf j) :
    Mirror t added (withContent work w new) q { r with work := f } := by
  have hname := hm.low w hlow
  have hshown : ∀ {v}, Shown t added (withContent work w new) q v → Shown t added work q v :=
    fun hv => ⟨(Forest.has_congr (Forest.size_modify work w _) _).1 hv.1, hv.2⟩
  constructor
  case links => exact hf
  case low => exact hm.low
  case high =>
    intro v hv
    exact hm.high v (hshown hv)
  case has =>
    intro v hv
    exact (Forest.has_congr hsize _).2 (hm.has v (hshown hv))
  case inj =>
    intro u v hu hv
    exact hm.inj u v (hshown hu) (hshown hv)
  case parent =>
    intro v hv
    change f.parent? (r.name v) = _
    rw [hparent, hm.parent v (hshown hv)]
    exact congrArg _ (Forest.parent?_modify_info work w
      (fun n => { n with kind := new.kind, label := new.label }) v).symm
  case children =>
    intro v hv hp
    change f.childrenOf (r.name v) = _
    rw [hchildren, hm.children v (hshown hv) hp]
    exact congrArg _ (Forest.childrenOf_modify_info work w
      (fun n => { n with kind := new.kind, label := new.label }) v).symm
  case content =>
    intro v hv
    change f.contentOf (r.name v) = _
    rw [hcontent, Base.contentOf_withContent hw.1]
    by_cases hwv : w = v
    · subst hwv
      rw [if_pos hname.symm, if_pos rfl]
    · rw [if_neg fun he => hwv (hm.inj w v hw (hshown hv) (hname.trans he)), if_neg hwv,
        hm.content v (hshown hv)]
  case whole =>
    intro v y hv hy hadded
    refine hm.whole_of_same hf (hshown hv) hy hadded (fun b _ => hchildren b) fun b hvb => ?_
    have hlt := hm.top_lt (hshown hv) hy hadded hvb
    rw [hcontent, if_neg]
    rintro rfl
    exact absurd hlt (Nat.not_lt.2 hlow)

theorem top_le_size (hb : Base t src p placed work q) (hm : Mirror t added work q r) :
    t.top ≤ r.work.size :=
  ((r.work.has_iff_le t.top).1 (hm.has_low hb.shown_top le_rfl)).2

theorem skip {q' : Pairing} {info : NodeInfo} {k : Nat} (hb : Base t src p placed work q)
    (hm : Mirror t added work q r)
    (hseat : ∀ y, t.dst.forest.parent? x = some y → y ∈ placed)
    (hadd : q.add (work.size + 1) x = .ok q') (hx : Covered t.dst added x) :
    Mirror t added ((work.alloc info).2.place (t.seat q x) (work.size + 1) k) q' r := by
  have himage := Pairing.image?_of_add hadd
  have hz : work.has (t.seat q x) := hb.has_seat hseat
  -- the new node goes below the partner of a node in `added`
  have hnot : ¬ Plain added q (t.seat q x) := by
    obtain ⟨y, hy, hadded⟩ := hx
    rcases hb.seat_cases hseat with ⟨hroot, _⟩ | ⟨y', _, hpar, horigin⟩
    · rw [hy] at hroot
      cases hroot
    · rw [hy] at hpar
      cases hpar
      exact fun hp => hp y ((hb.pair _ _).2 horigin) hadded
  have hshown : ∀ {v}, Shown t added
      ((work.alloc info).2.place (t.seat q x) (work.size + 1) k) q' v →
      work.size + 1 ≠ v ∧ Shown t added work q v := by
    intro v ⟨hv, himg⟩
    have hne : work.size + 1 ≠ v := by
      rintro rfl
      exact himg x (by rw [himage, if_pos rfl]) hx
    have hhas := (Forest.has_congr (Forest.size_place _ _ _ _) v).1 hv
    refine ⟨hne, ((work.has_alloc_iff info v).1 hhas).resolve_left (Ne.symm hne), ?_⟩
    intro y hy
    exact himg y (by rw [himage, if_neg hne, hy])
  have hplain : ∀ {v}, work.size + 1 ≠ v → Plain added q' v → Plain added q v := by
    intro v hne hp y hy
    exact hp y (by rw [himage, if_neg hne, hy])
  constructor
  case links => exact hm.links
  case low => exact hm.low
  case high =>
    intro v hv
    exact hm.high v (hshown hv).2
  case has =>
    intro v hv
    exact hm.has v (hshown hv).2
  case inj =>
    intro u v hu hv
    exact hm.inj u v (hshown hu).2 (hshown hv).2
  case parent =>
    intro v hv
    rw [Base.parent?_inserted, if_neg (hshown hv).1, hm.parent v (hshown hv).2]
  case children =>
    intro v hv hp
    have hp' := hplain (hshown hv).1 hp
    have hne : t.seat q x ≠ v := fun he => hnot (he ▸ hp')
    have hnew : work.size + 1 ∉ work.childrenOf v :=
      fun hmem => work.not_has_succ_size (hb.links.has_child hmem)
    rw [(hb.links.alloc info).childrenOf_place ((work.has_alloc_iff info _).2 (.inr hz)),
      if_neg hne, Forest.childrenOf_alloc, List.erase_of_not_mem hnew,
      hm.children v (hshown hv).2 hp']
  case content =>
    intro v hv
    rw [Base.contentOf_inserted, if_neg (Ne.symm (hshown hv).1), hm.content v (hshown hv).2]
  case whole =>
    intro v y hv hy hadded
    rw [himage, if_neg (hshown hv).1] at hy
    exact hm.whole v y (hshown hv).2 hy hadded

structure Copies (t : Task ε) (added : Std.HashSet NodeId) (x : NodeId) (tree : Rose NodeInfo) :
    Prop where
  root : tree.value.toContent = t.dst.forest.contentOf x
  whole : added.contains x → tree.map (·.toContent) = t.dst.forest.contentTree x
  single : ¬ added.contains x → tree.children = []

theorem name_link (r : Replay) (f : Forest) (n id parent : NodeId) (k : Nat) (v : NodeId) :
    (r.link f n id parent k).name v = if n = v then id else r.name v := by
  change (r.aliases.insert n id).getD v v = _
  rw [Std.HashMap.getD_insert]
  simp only [beq_iff_eq]
  rfl

theorem graft {work' : Forest} {q' : Pairing} {r' : Replay} {info : NodeInfo} {k : Nat}
    {tree : Rose NodeInfo} (hs : Setting t src p) (hb : Base t src p placed work q)
    (hbun : Bundled src t.dst p added removed) (hm : Mirror t added work q r)
    (hadd : q.add (work.size + 1) x = .ok q') (hz : Shown t added work q z)
    (hzplain : Plain added q z) (hinfo : info.toContent = t.dst.forest.contentOf x)
    (htree : Copies t added x tree) (hwork : work.Grafted work' z k (.node info []))
    (hsize : work'.size = work.size + 1) (hwork' : r.work.Grafted r'.work (r.name z) k tree)
    (hname : ∀ v, r'.name v = if work.size + 1 = v then r.work.size + 1 else r.name v) :
    Mirror t added work' q' r' := by
  set n := work.size + 1 with hn
  set id := r.work.size + 1 with hid
  have himage := Pairing.image?_of_add hadd
  have htop : t.top < id := Nat.lt_succ_of_le (hm.top_le_size hb)
  have hne : ∀ {v}, work.has v → n ≠ v := by
    rintro v hv rfl
    exact work.not_has_succ_size hv
  have hne_id : ∀ {j}, r.work.has j → id ≠ j := by
    rintro j hj rfl
    exact r.work.not_has_succ_size hj
  have hold : ∀ {v}, work.has v → r'.name v = r.name v := by
    intro v hv
    rw [hname, if_neg (hne hv)]
  have hshown : ∀ {v}, n ≠ v → Shown t added work' q' v → Shown t added work q v := by
    intro v hnv ⟨hv, himg⟩
    refine ⟨?_, fun y hy => himg y (by rw [himage, if_neg hnv, hy])⟩
    rw [work'.has_iff_le, hsize] at hv
    rw [work.has_iff_le]
    exact ⟨hv.1, Nat.le_of_lt_succ (Nat.lt_of_le_of_ne hv.2 (Ne.symm hnv))⟩
  constructor
  case links => exact hwork'.links
  case low =>
    intro v hv
    have hnv : n ≠ v := by
      rintro rfl
      have := ((work.has_iff_le t.top).1 hb.has_top).2
      exact absurd (hv.trans this) (Nat.not_succ_le_self _)
    rw [hname, if_neg hnv, hm.low v hv]
  case high =>
    intro v hv hlt
    rw [hname]
    split
    · exact htop
    · next hnv => exact hm.high v (hshown hnv hv) hlt
  case has =>
    intro v hv
    rw [hname]
    split
    · exact hwork'.has_new
    · next hnv => exact hwork'.has_old _ (hm.has v (hshown hnv hv))
  case inj =>
    intro u v hu hv he
    rw [hname, hname] at he
    by_cases hnu : n = u <;> by_cases hnv : n = v
    · exact hnu.symm.trans hnv
    · rw [if_pos hnu, if_neg hnv] at he
      exact absurd he (hne_id (hm.has v (hshown hnv hv)))
    · rw [if_neg hnu, if_pos hnv] at he
      exact absurd he.symm (hne_id (hm.has u (hshown hnu hu)))
    · rw [if_neg hnu, if_neg hnv] at he
      exact hm.inj u v (hshown hnu hu) (hshown hnv hv) he
  case parent =>
    intro v hv
    by_cases hnv : n = v
    · subst hnv
      rw [hname, if_pos rfl, hwork'.parent_new, hwork.parent_new, Option.map_some, hold hz.1]
    · have hv' := hshown hnv hv
      rw [hname, if_neg hnv, hwork'.parent _ (hm.has v hv'), hwork.parent v hv'.1, hm.parent v hv']
      cases hpar : work.parent? v with
      | none => rfl
      | some u => rw [Option.map_some, Option.map_some, hold (hb.links.has_parent hpar)]
  case children =>
    intro v hv hp
    by_cases hnv : n = v
    · -- the new node is not in `added`, so it has no children on either side
      subst hnv
      have hno : ¬ added.contains x := hp x (by rw [himage, if_pos rfl])
      rw [hname, if_pos rfl, hwork'.children_new (htree.single hno), hwork.children_new rfl]
      rfl
    · have hv' := hshown hnv hv
      have hmap : (work.childrenOf v).map r'.name = (work.childrenOf v).map r.name :=
        List.map_congr_left fun c hc => hold (hb.links.has_child hc)
      rw [hname, if_neg hnv, hwork'.children _ (hm.has v hv'), hwork.children v hv'.1,
        hm.children v hv' fun y hy => hp y (by rw [himage, if_neg hnv, hy])]
      by_cases hzv : z = v
      · rw [if_pos (congrArg r.name hzv), if_pos hzv, List.map_append, List.map_cons, hname,
          if_pos rfl, List.map_take, List.map_drop, hmap]
      · rw [if_neg fun he => hzv (hm.inj z v hz hv' he), if_neg hzv, hmap]
  case content =>
    intro v hv
    by_cases hnv : n = v
    · subst hnv
      rw [hname, if_pos rfl, Forest.contentOf_eq, hwork'.info_new, htree.root, work'.contentOf_eq,
        hwork.info_new]
      exact hinfo.symm
    · have hv' := hshown hnv hv
      rw [hname, if_neg hnv, Forest.contentOf_eq, hwork'.info _ (hm.has v hv'),
        ← Forest.contentOf_eq, hm.content v hv', Forest.contentOf_eq, Forest.contentOf_eq,
        hwork.info v hv'.1]
  case whole =>
    intro v y hv hy hadded
    by_cases hnv : n = v
    · rw [himage, if_pos hnv] at hy
      cases hy
      rw [hname, if_pos hnv]
      have hcontent : (r'.work.subtree id).map r'.work.contentOf = t.dst.forest.contentTree x := by
        rw [← htree.whole hadded, ← hwork'.copy, Rose.map_map]
        exact Rose.map_congr fun b _ => r'.work.contentOf_eq b
      have hagree := (Rose.agree_map r'.work.contentOf t.dst.forest.contentOf _ _).1
        (Rose.agree_eq_iff.2 hcontent)
      refine Rose.agree_mono hagree fun b hb' c _ hbc => ?_
      have hunder := hwork'.links.mem_preorder_iff.1 hb'
      have hpos := ((r'.work.has_iff_le b).1
        (hwork'.links.has_of_under hunder hwork'.has_new)).1
      have hlt : t.top < b := by
        have hnot := hwork'.new b hunder
        rw [r.work.has_iff_le] at hnot
        exact Nat.lt_of_le_of_lt (hm.top_le_size hb)
          (Nat.lt_of_not_le fun hle => hnot ⟨hpos, hle⟩)
      rw [hbc, decide_eq_true hlt]
      rfl
    · rw [himage, if_neg hnv] at hy
      have hv' := hshown hnv hv
      rw [hname, if_neg hnv]
      refine hm.whole_of_same hwork'.links hv' hy hadded (fun b hvb => ?_) fun b hvb => ?_
      · have hne : r.name z ≠ b := by
          rintro rfl
          exact hm.not_under_name hs hb hbun hv' hy hadded hz hzplain hvb
        rw [hwork'.children b (hm.links.has_of_under hvb (hm.has v hv')), if_neg hne]
      · rw [Forest.contentOf_eq, hwork'.info b (hm.links.has_of_under hvb (hm.has v hv')),
          ← Forest.contentOf_eq]

end Mirror

end Draft

end TreeDelta
