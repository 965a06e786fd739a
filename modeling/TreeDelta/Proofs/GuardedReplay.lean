import Mathlib.Data.List.Permutation
import TreeDelta.Proofs.Copying
import TreeDelta.Proofs.DraftRun
import TreeDelta.Proofs.Measures
import TreeDelta.Proofs.Outcome

namespace TreeDelta

/-- A computation that may refuse an action with an error, and that faults where a guard fires. -/
abbrev Guarded := ExceptT ReplayError (Except Fault)

namespace Guarded

variable {α β : Type}

/-- A computation without guards. -/
def judge (x : Except ReplayError α) : Guarded α := .mk (.ok x)

def allocChildren (f : Forest) (parent : NodeId) :
    List (Rose NodeInfo) → Except Fault (List NodeId × Forest)
  | [] => .ok ([], f)
  | c :: cs => do
      let (id, f) := f.alloc c.value
      let f ← f.append parent id
      let (ids, f) ← allocChildren f parent cs
      return (id :: ids, f)

mutual
def copyBelow (parent : NodeId) : Rose NodeInfo → Forest → Except Fault Forest
  | .node _ cs, f => do
      let (ids, f) ← allocChildren f parent cs
      copyEach ids cs f
def copyEach : List NodeId → List (Rose NodeInfo) → Forest → Except Fault Forest
  | id :: ids, c :: cs, f => do copyBelow id c (← copyEach ids cs f)
  | _, _, f => .ok f
end

def copyTree (f : Forest) (t : Rose NodeInfo) : Except Fault (NodeId × Forest) := do
  let (id, f) := f.alloc t.value
  return (id, ← copyBelow id t f)

mutual
def infoTree (t : Tree) : Rose NodeId → Except Fault (Rose NodeInfo)
  | .node id cs => do return .node (← t.info id) (← infoTrees t cs)
def infoTrees (t : Tree) : List (Rose NodeId) → Except Fault (List (Rose NodeInfo))
  | [] => .ok []
  | c :: cs => do return (← infoTree t c) :: (← infoTrees t cs)
end

def requireSlot (r : Replay) (index : Nat) (parent : NodeId) (position : Nat) : Guarded Unit := do
  let _ ← r.work.node parent
  judge (r.requireSlot index parent position)

def link (r : Replay) (work : Forest) (node id parent : NodeId) (position : Nat) :
    Except Fault Replay :=
  return ⟨← work.insertAt parent id position, r.aliases.insert node id⟩

def apply (dst : Tree) (r : Replay) (index : Nat) : Action → Guarded Replay
  | .insert node _ parent position kind label => do
      let parent ← judge (r.nodeOf index parent)
      requireSlot r index parent position
      let (id, work) := r.work.alloc ⟨⟨kind, label⟩, 0, 0, {}⟩
      link r work node id parent position
  | .insertTree node x parent position => do
      let parent ← judge (r.nodeOf index parent)
      requireSlot r index parent position
      if !dst.forest.has x then throw (.missingSubtree index x)
      let (id, work) ← copyTree r.work (← infoTree dst (dst.forest.subtree x))
      link r work node id parent position
  | .delete node => do
      let node ← judge (r.nodeOf index node)
      if !(← r.work.node node).children.isEmpty then throw (.hasChildren index node)
      return { r with work := r.work.detach node }
  | .deleteTree node => do
      let node ← judge (r.nodeOf index node)
      return { r with work := r.work.detach node }
  | .update node _ _ new retype => do
      let node ← judge (r.nodeOf index node)
      let _ ← r.work.node node
      return { r with work := r.work.modify node fun n =>
        { n with info := { n.info with label := new, kind := retype.getD n.info.kind } } }
  | .move node _ parent position => do
      let node ← judge (r.nodeOf index node)
      let parent ← judge (r.nodeOf index parent)
      let _ ← r.work.node parent
      if (parent :: r.work.ancestors parent).contains node then
        throw (.ownSubtree index node)
      let r := { r with work := r.work.detach node }
      requireSlot r index parent position
      return { r with work := ← r.work.insertAt parent node position }

def applyAll (dst : Tree) (r : Replay) (index : Nat) : List Action → Guarded Replay
  | [] => return r
  | a :: rest => do applyAll dst (← apply dst r index a) (index + 1) rest

def measured [TokenHash] (t : Tree) : Except Fault Tree := do
  let _ ← t.preorder.mapM t.measured.measure
  return t.measured

def result [TokenHash] (top : NodeId) (r : Replay) : Guarded Tree := do
  match (← r.work.node top).children with
  | [root] =>
      let _ ← r.work.node root
      measured ⟨r.work.detach root, root, none⟩
  | roots => throw (.rootCount roots.length)

def replay [TokenHash] (s : Script) (src dst : Tree) : Guarded Tree := do
  let (top, work) := src.forest.alloc ⟨⟨.top, none⟩, 0, 0, {}⟩
  let work ← work.append top src.root
  let r : Replay := ⟨work, (∅ : Std.HashMap NodeId NodeId).insert s.top top⟩
  result top (← applyAll dst r 0 s.actions)

variable {f : Forest} {dst : Tree} {r r' : Replay} {a : Action} {index : Nat}
  {node id parent x top : NodeId}

theorem judge_bind {x : Except ReplayError α} {k : α → Guarded β}
    {k' : α → Except ReplayError β} (h : ∀ a, x = .ok a → k a = judge (k' a)) :
    judge x >>= k = judge (x >>= k') := by
  cases x with
  | error e => rfl
  | ok a => exact h a rfl

theorem lift_bind {x : Except Fault α} {a : α} (h : x = .ok a) (k : α → Guarded β) :
    (liftM x : Guarded α) >>= k = k a := by
  rw [h]
  rfl

theorem append_alloc (hf : f.Sound) (hp : f.has parent) (info : NodeInfo) :
    (f.alloc info).2.append parent (f.size + 1) =
      .ok ((f.alloc info).2.place parent (f.size + 1) (f.childrenOf parent).length) := by
  rw [Forest.append, Forest.childrenOf_alloc]
  exact (hf.alloc info).insertAt_eq ((f.has_alloc_iff info _).2 (.inr hp))
    ((f.has_alloc_iff info _).2 (.inl rfl)) (Draft.Base.not_under_new hf info hp) _

theorem allocChildren_eq (hf : f.Sound) (hp : f.has parent) (cs : List (Rose NodeInfo)) :
    allocChildren f parent cs = .ok (f.allocChildren parent cs) := by
  induction cs generalizing f with
  | nil => rfl
  | cons c cs ih =>
      obtain ⟨hg, _⟩ := Forest.grown_child hf hp c.value
      rw [allocChildren, Forest.allocChildren_cons]
      change ((f.alloc c.value).2.append parent (f.size + 1) >>= _) = _
      rw [append_alloc hf hp]
      change (allocChildren _ parent cs >>= _) = _
      rw [ih hg.links (hg.has hp)]
      rfl

mutual
theorem copyBelow_eq : ∀ (t : Rose NodeInfo) {f : Forest} {parent : NodeId}, f.Sound →
    f.has parent → copyBelow parent t f = .ok (Forest.copyBelow parent t f)
  | .node info cs, f, parent, hf, hp => by
      obtain ⟨hg, _, hsprouts, _⟩ := Forest.allocChildren_spec cs hf hp
      rw [copyBelow, allocChildren_eq hf hp, Forest.copyBelow]
      exact copyEach_eq cs hg.links hsprouts
theorem copyEach_eq : ∀ (cs : List (Rose NodeInfo)) {f : Forest} {ids : List NodeId}, f.Sound →
    Forest.Sprouts f ids cs → copyEach ids cs f = .ok (Forest.copyEach ids cs f)
  | [], f, ids, _, hs => by
      obtain ⟨_, hroots⟩ := hs
      cases hroots
      rfl
  | c :: cs, f, ids, hf, hs => by
      obtain ⟨hnodup, hroots⟩ := hs
      cases hroots with
      | @cons id _ ids _ hid hroots =>
          have hrest : Forest.Sprouts f ids cs := ⟨(List.nodup_cons.1 hnodup).2, hroots⟩
          obtain ⟨hg, _⟩ := Forest.copyEach_spec cs hf hrest
          rw [copyEach, copyEach_eq cs hf hrest, Forest.copyEach]
          exact copyBelow_eq c hg.links (hg.has hid.1)
end

theorem copyTree_eq (hf : f.Sound) (t : Rose NodeInfo) : copyTree f t = .ok (f.copyTree t) := by
  have hnew : (f.alloc t.value).2.has (f.size + 1) := (f.has_alloc_iff _ _).2 (.inl rfl)
  change (copyBelow (f.size + 1) t (f.alloc t.value).2 >>= _) = _
  rw [copyBelow_eq t (hf.alloc t.value) hnew]
  rfl

mutual
theorem infoTree_eq {t : Tree} : ∀ u : Rose NodeId, (∀ a ∈ u.preorder, t.forest.has a) →
    infoTree t u = .ok (u.map t.forest.infoOf)
  | .node a cs, h => by
      rw [Rose.preorder_node, List.forall_mem_cons] at h
      rw [infoTree, Tree.info_eq_ok h.1, infoTrees_eq cs h.2, Rose.map_node]
      rfl
theorem infoTrees_eq {t : Tree} : ∀ cs : List (Rose NodeId),
    (∀ a ∈ cs.flatMap Rose.preorder, t.forest.has a) →
    infoTrees t cs = .ok (cs.map (Rose.map t.forest.infoOf))
  | [], _ => rfl
  | c :: cs, h => by
      rw [List.flatMap_cons, List.forall_mem_append] at h
      rw [infoTrees, infoTree_eq c h.1, infoTrees_eq cs h.2]
      rfl
end

theorem requireSlot_eq (h : r.work.has parent) (index position : Nat) :
    requireSlot r index parent position = judge (r.requireSlot index parent position) :=
  lift_bind (Forest.node_eq_ok h) _

theorem link_copyTree (hr : r.work.Sound) (hp : r.work.has parent) (t : Rose NodeInfo)
    (node : NodeId) (position : Nat) :
    link r (r.work.copyTree t).2 node (r.work.copyTree t).1 parent position =
      .ok (r.link (r.work.copyTree t).2 node (r.work.copyTree t).1 parent position) := by
  obtain ⟨hid, hgrown, hhas, _, _, hnew⟩ := Forest.copyTree_spec hr t
  rw [link, hgrown.links.insertAt_eq (hgrown.has hp) (hid ▸ hhas) fun hu => hnew _ (hid ▸ hu) hp]
  rfl

theorem has_of_nodeOf {id' : NodeId} (h : r.nodeOf index id = .ok id') : r.work.has id' := by
  unfold Replay.nodeOf at h
  dsimp only at h
  split at h
  · next hhas =>
    cases h
    exact hhas
  · cases h

theorem apply_eq (hr : r.work.Sound) (hd : dst.forest.Sound) (index : Nat) (a : Action) :
    apply dst r index a = judge (r.apply dst index a) := by
  cases a with
  | insert node x parent position kind label =>
      refine judge_bind fun parent hparent => ?_
      have hp := has_of_nodeOf hparent
      rw [requireSlot_eq hp]
      refine judge_bind fun _ _ => ?_
      change liftM (link r (r.work.copyTree (.node ⟨⟨kind, label⟩, 0, 0, {}⟩ [])).2 node
        (r.work.copyTree (.node ⟨⟨kind, label⟩, 0, 0, {}⟩ [])).1 parent position) = _
      rw [link_copyTree hr hp]
      rfl
  | insertTree node x parent position =>
      refine judge_bind fun parent hparent => ?_
      have hp := has_of_nodeOf hparent
      rw [requireSlot_eq hp]
      refine judge_bind fun _ _ => ?_
      cases hx : dst.forest.has x with
      | false => rfl
      | true =>
          have hall : ∀ a ∈ (dst.forest.subtree x).preorder, dst.forest.has a := fun a ha =>
            hd.has_of_under (hd.mem_preorder_iff.1 ha) hx
          change (liftM (infoTree dst (dst.forest.subtree x)) >>= _) = _
          rw [lift_bind (infoTree_eq _ hall), lift_bind (copyTree_eq hr _)]
          dsimp only
          rw [link_copyTree hr hp]
          rfl
  | delete node =>
      refine judge_bind fun node hnode => ?_
      rw [lift_bind (Forest.node_eq_ok (has_of_nodeOf hnode))]
      dsimp only
      split <;> rfl
  | deleteTree node => exact judge_bind fun _ _ => rfl
  | update node x old new retype =>
      refine judge_bind fun node hnode => ?_
      rw [lift_bind (Forest.node_eq_ok (has_of_nodeOf hnode))]
      rfl
  | move node x parent position =>
      refine judge_bind fun node hnode => judge_bind fun parent hparent => ?_
      have hn := has_of_nodeOf hnode
      have hp := has_of_nodeOf hparent
      rw [lift_bind (Forest.node_eq_ok hp)]
      dsimp only
      split
      · rfl
      · next hfree =>
        have hsize := Forest.has_congr (Forest.size_detach r.work node)
        have hu : ¬ (r.work.detach node).Under node parent := fun hu =>
          hfree (List.contains_iff_mem.2 (hr.mem_self_ancestors_iff.2 (Draft.under_of_detach hu)))
        change (requireSlot { r with work := r.work.detach node } index parent position >>= _) = _
        rw [requireSlot_eq ((hsize parent).2 hp)]
        refine judge_bind fun _ _ => ?_
        rw [(hr.detach node).insertAt_eq ((hsize parent).2 hp) ((hsize node).2 hn) hu]
        rfl

end Guarded

namespace Replay

variable {dst : Tree} {r r' : Replay} {a : Action} {index : Nat} {top root : NodeId}

/-- What an action can do: link a copy of a tree, unlink a node, change what a node carries, or
link a node below a node that it is not above. -/
theorem apply_cases (h : r.apply dst index a = .ok r') :
    (∃ t node parent position, r.work.has parent ∧
      r' = r.link (r.work.copyTree t).2 node (r.work.copyTree t).1 parent position) ∨
    (∃ node, r' = { r with work := r.work.detach node }) ∨
    (∃ (node : NodeId) (u : NodeInfo → NodeInfo),
      r' = { r with work := r.work.modify node fun n => { n with info := u n.info } }) ∨
    ∃ node parent position, r.work.has node ∧ r.work.has parent ∧
      node ∉ parent :: r.work.ancestors parent ∧
      r' = { r with work := r.work.place parent node position } := by
  cases a with
  | insert node x parent position kind label =>
      obtain ⟨parent, hparent, h⟩ := exists_of_bind_eq_ok h
      obtain ⟨_, _, h⟩ := exists_of_bind_eq_ok h
      cases h
      exact .inl ⟨.node ⟨⟨kind, label⟩, 0, 0, {}⟩ [], node, parent, position,
        Guarded.has_of_nodeOf hparent, rfl⟩
  | insertTree node x parent position =>
      obtain ⟨parent, hparent, h⟩ := exists_of_bind_eq_ok h
      obtain ⟨_, _, h⟩ := exists_of_bind_eq_ok h
      cases hx : dst.forest.has x with
      | false =>
          rw [hx] at h
          cases h
      | true =>
          rw [hx] at h
          cases h
          exact .inl ⟨_, node, parent, position, Guarded.has_of_nodeOf hparent, rfl⟩
  | delete node =>
      obtain ⟨node, _, h⟩ := exists_of_bind_eq_ok h
      dsimp only at h
      split at h
      · cases h
      · cases h
        exact .inr (.inl ⟨node, rfl⟩)
  | deleteTree node =>
      obtain ⟨node, _, h⟩ := exists_of_bind_eq_ok h
      cases h
      exact .inr (.inl ⟨node, rfl⟩)
  | update node x old new retype =>
      obtain ⟨node, _, h⟩ := exists_of_bind_eq_ok h
      cases h
      exact .inr (.inr (.inl
        ⟨node, fun n => { n with label := new, kind := retype.getD n.kind }, rfl⟩))
  | move node x parent position =>
      obtain ⟨node, hnode, h⟩ := exists_of_bind_eq_ok h
      obtain ⟨parent, hparent, h⟩ := exists_of_bind_eq_ok h
      dsimp only at h
      split at h
      · cases h
      · next hfree =>
        obtain ⟨_, _, h⟩ := exists_of_bind_eq_ok h
        cases h
        refine .inr (.inr (.inr ⟨node, parent, position, Guarded.has_of_nodeOf hnode,
          Guarded.has_of_nodeOf hparent, mt List.contains_iff_mem.2 hfree, ?_⟩))
        rw [Forest.place_detach]

theorem sound_apply (hr : r.work.Sound) (h : r.apply dst index a = .ok r') : r'.work.Sound := by
  obtain ⟨t, node, parent, position, hp, rfl⟩ | ⟨node, rfl⟩ | ⟨node, u, rfl⟩ |
    ⟨node, parent, position, hn, hp, hfree, rfl⟩ := apply_cases h
  · exact (Forest.copyTree_place hr hp position t).links
  · exact hr.detach node
  · exact hr.modify_info node u
  · exact hr.place hp hn (mt hr.mem_self_ancestors_iff.2 hfree) position

theorem has_apply (hr : r.work.Sound) (h : r.apply dst index a = .ok r') {j : NodeId}
    (hj : r.work.has j) : r'.work.has j := by
  obtain ⟨t, node, parent, position, hp, rfl⟩ | ⟨node, rfl⟩ | ⟨node, u, rfl⟩ |
    ⟨node, parent, position, _, _, _, rfl⟩ := apply_cases h
  · exact (Forest.copyTree_place hr hp position t).has_old j hj
  · exact (Forest.has_congr (Forest.size_detach _ _) j).2 hj
  · exact (Forest.has_congr (Forest.size_modify _ _ _) j).2 hj
  · exact (Forest.has_congr (Forest.size_place _ _ _ _) j).2 hj

theorem sound_applyAll {as : List Action} (hr : r.work.Sound)
    (h : r.applyAll dst index as = .ok r') :
    r'.work.Sound ∧ ∀ j, r.work.has j → r'.work.has j := by
  induction as generalizing r index with
  | nil =>
      cases h
      exact ⟨hr, fun _ hj => hj⟩
  | cons a as ih =>
      rw [applyAll] at h
      obtain ⟨s, hs, h⟩ := exists_of_bind_eq_ok h
      obtain ⟨hsound, hhas⟩ := ih (sound_apply hr hs) h
      exact ⟨hsound, fun j hj => hhas j (has_apply hr hs hj)⟩

theorem sound_root (hr : r.work.Sound) (h : r.work.childrenOf top = [root]) :
    Tree.Sound ⟨r.work.detach root, root, none⟩ where
  forest := hr.detach root
  has_root := (Forest.has_congr (Forest.size_detach _ _) root).2 (hr.has_child (p := top) (by simp [h]))
  root_parent := (Forest.parent?_detach _ _ _).trans (if_pos rfl)

theorem surveyed_result [TokenHash] {t : Tree} (hr : r.work.Sound) (h : r.result top = .ok t) :
    t.Surveyed := by
  unfold result at h
  split at h
  · next root hroot =>
    cases h
    exact (sound_root hr hroot).surveyed
  · cases h

end Replay

namespace Guarded

variable {src dst : Tree} {r : Replay} {top : NodeId}

theorem applyAll_eq (hr : r.work.Sound) (hd : dst.forest.Sound) (index : Nat)
    (as : List Action) : applyAll dst r index as = judge (r.applyAll dst index as) := by
  induction as generalizing r index with
  | nil => rfl
  | cons a as ih =>
      rw [applyAll, apply_eq hr hd]
      exact judge_bind fun s hs => ih (Replay.sound_apply hr hs) (index + 1)

theorem measured_eq [TokenHash] {t : Tree} (h : t.Sound) : measured t = .ok t.measured := by
  have hall : Gives (t.preorder.mapM t.measured.measure) fun _ => True :=
    (Gives.mapM fun a ha => Gives.of_eq
      (h.surveyed.measure_eq_ok (h.mem_preorder_iff.1 ha))).mono fun _ _ => trivial
  obtain ⟨_, hms, _⟩ := hall
  rw [measured, hms]
  rfl

theorem result_eq [TokenHash] (hr : r.work.Sound) (htop : r.work.has top) :
    result top r = judge (r.result top) := by
  rw [result, lift_bind (Forest.node_eq_ok htop), Replay.result]
  match hroots : r.work.childrenOf top with
  | [] => rfl
  | [root] =>
      have hhas : r.work.has root := hr.has_child (p := top) (by simp [hroots])
      change (liftM (r.work.node root) >>= _) = _
      rw [lift_bind (Forest.node_eq_ok hhas), measured_eq (Replay.sound_root hr hroots)]
      rfl
  | _ :: _ :: _ => rfl

end Guarded

theorem Forest.underTop_spec {f : Forest} {root : NodeId} (hf : f.Sound) (hroot : f.has root) :
    (f.alloc ⟨⟨.top, none⟩, 0, 0, {}⟩).2.append (f.size + 1) root = .ok (f.underTop root).2 ∧
      (f.underTop root).2.Sound ∧ (f.underTop root).2.has (f.size + 1) := by
  have hlink := hf.linkable_alloc ⟨⟨.top, none⟩, 0, 0, {}⟩ hroot
  obtain ⟨htop, hold, hu⟩ := (hf.alloc _).linkable_iff.1 hlink
  have hnil : (f.alloc ⟨⟨.top, none⟩, 0, 0, {}⟩).2.childrenOf (f.size + 1) = [] := by
    rw [childrenOf_alloc, childrenOf_eq_nil f.not_has_succ_size]
  refine ⟨?_, (hf.alloc _).place htop hold hu 0, (has_congr (size_place _ _ _ _) _).2 htop⟩
  rw [append, hnil]
  exact (hf.alloc _).insertAt_eq htop hold hu 0

namespace Script

variable {src dst : Tree}

def opening (s : Script) (src : Tree) : Replay :=
  ⟨(src.forest.underTop src.root).2,
    (∅ : Std.HashMap NodeId NodeId).insert s.top (src.forest.size + 1)⟩

theorem replay_eq [TokenHash] (s : Script) (src dst : Tree) :
    s.replay src dst =
      (s.opening src).applyAll dst 0 s.actions >>= Replay.result (src.forest.size + 1) := rfl

theorem guarded_eq [TokenHash] (hs : src.forest.Sound) (hroot : src.forest.has src.root)
    (hd : dst.forest.Sound) (s : Script) :
    Guarded.replay s src dst = Guarded.judge (s.replay src dst) := by
  obtain ⟨happend, hsound, htop⟩ := Forest.underTop_spec hs hroot
  refine (Guarded.lift_bind happend _).trans ?_
  change (Guarded.applyAll dst (s.opening src) 0 s.actions >>= _) = _
  rw [Guarded.applyAll_eq hsound hd, replay_eq]
  refine Guarded.judge_bind fun r hr => ?_
  obtain ⟨hr, hhas⟩ := Replay.sound_applyAll hsound hr
  exact Guarded.result_eq hr (hhas _ htop)

/-- Whatever a script says, its replay gives a tree or an error and no guard fires; after any
number of actions the links of the working copy fit together; and a tree that it gives has a root
without a parent and the measures of its present shape. -/
theorem replay_total [TokenHash] (hs : src.forest.Sound) (hroot : src.forest.has src.root)
    (hd : dst.forest.Sound) (s : Script) :
    (Guarded.replay s src dst).run = .ok (s.replay src dst) ∧
    (∀ done r, done <+: s.actions → (s.opening src).applyAll dst 0 done = .ok r →
      r.work.Sound) ∧
    ∀ t, s.replay src dst = .ok t →
      t.forest.parent? t.root = none ∧ t.Surveyed ∧
        ∀ a, t.Reaches a → t.measure a = .ok (t.forest.measureOf t.root a) := by
  have hopen : (s.opening src).work.Sound := (Forest.underTop_spec hs hroot).2.1
  refine ⟨guarded_eq hs hroot hd s, fun done r _ hr => (Replay.sound_applyAll hopen hr).1, ?_⟩
  intro t ht
  rw [replay_eq] at ht
  obtain ⟨r, hr, hresult⟩ := exists_of_bind_eq_ok ht
  have hsurveyed := Replay.surveyed_result (Replay.sound_applyAll hopen hr).1 hresult
  exact ⟨hsurveyed.sound.root_parent, hsurveyed, fun a ha => hsurveyed.measure_eq_ok ha⟩

/-- The top node goes by the number of a source node and an inserted node by that of the top node;
the deleted root comes back below the inserted node, and loses its number to a copied subtree. -/
def tangle : Script where
  actions :=
    [.insert 3 9 2 1 (.named 5) none, .deleteTree 1, .move 1 9 3 0, .insertTree 1 1 3 1,
      .update 1 7 none (some "") (some .top)]
  top := 2

attribute [local instance] TokenHash.constant in
example : (tangle.replay (twig 0 1) (twig 2 3)).map (·.preorder) = .ok [4, 1, 2, 5, 6] := by cbv

end Script

end TreeDelta
