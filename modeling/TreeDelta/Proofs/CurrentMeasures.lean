import Mathlib.Order.Bounds.Basic
import TreeDelta.Proofs.Numbering

namespace TreeDelta

theorem Rose.isGreatest_heightAll {α : Type} {cs : List (Rose α)} (h : cs ≠ []) :
    IsGreatest {n | ∃ c ∈ cs, n = c.height + 1} (heightAll cs) := by
  induction cs with
  | nil => exact absurd rfl h
  | cons c cs ih =>
      have hset : {n | ∃ x ∈ c :: cs, n = x.height + 1} =
          insert (c.height + 1) {n | ∃ x ∈ cs, n = x.height + 1} := by
        ext n
        simp
      rw [hset, heightAll]
      cases cs with
      | nil => simp [heightAll]
      | cons d cs => exact (ih (by simp)).insert _

theorem mem_block_iff {α : Type} [BEq α] [LawfulBEq α] {pre mid post : List α} {x : α}
    (hnodup : (pre ++ mid ++ post).Nodup) (hx : x ∈ pre ++ mid ++ post) :
    x ∈ mid ↔ pre.length ≤ (pre ++ mid ++ post).idxOf x ∧
      (pre ++ mid ++ post).idxOf x < pre.length + mid.length := by
  rw [List.append_assoc] at hnodup hx ⊢
  rw [List.nodup_append, List.nodup_append] at hnodup
  obtain ⟨_, ⟨_, _, hpost⟩, hpre⟩ := hnodup
  rw [List.mem_append, List.mem_append] at hx
  rcases hx with hx | hx | hx
  · have hnot : x ∉ mid := fun hm => hpre x hx x (by simp [hm]) rfl
    have hlt := List.idxOf_lt_length_of_mem hx
    rw [List.idxOf_append_of_mem hx]
    exact ⟨fun hm => absurd hm hnot, by omega⟩
  · have hnot : x ∉ pre := fun hm => hpre x hm x (by simp [hx]) rfl
    have hlt := List.idxOf_lt_length_of_mem hx
    rw [List.idxOf_append_of_notMem hnot, List.idxOf_append_of_mem hx]
    exact ⟨fun _ => by omega, fun _ => hx⟩
  · have hnot : x ∉ pre := fun hm => hpre x hm x (by simp [hx]) rfl
    have hnot' : x ∉ mid := fun hm => hpost x hm x hx rfl
    rw [List.idxOf_append_of_notMem hnot, List.idxOf_append_of_notMem hnot']
    exact ⟨fun hm => absurd hm hnot', by omega⟩

namespace Forest.Sound

variable {f g : Forest} {a b : NodeId}

theorem ancestors_congr (hf : f.Sound) (hg : g.Sound) (h : ∀ b, g.parent? b = f.parent? b)
    (a : NodeId) : g.ancestors a = f.ancestors a := by
  generalize hn : (f.ancestors a).length = n
  induction n generalizing a with
  | zero =>
      cases hp : f.parent? a with
      | none => rw [ancestors_eq_nil hp, ancestors_eq_nil ((h a).trans hp)]
      | some p =>
          rw [hf.length_ancestors hp] at hn
          cases hn
  | succ n ih =>
      cases hp : f.parent? a with
      | none =>
          rw [ancestors_eq_nil hp] at hn
          cases hn
      | some p =>
          rw [hf.length_ancestors hp] at hn
          rw [hf.ancestors_of_parent? hp, hg.ancestors_of_parent? ((h a).trans hp),
            ih p (Nat.succ.inj hn)]

theorem measureOf_alloc [TokenHash] (h : f.Sound) (info : NodeInfo) (root : NodeId) (ha : f.has a) :
    (f.alloc info).2.measureOf root a = f.measureOf root a := by
  have hsubtree : ∀ b, (f.alloc info).2.subtree b = f.subtree b := fun b =>
    subtree_congr h (h.alloc info) b fun c _ => childrenOf_alloc f info c
  have hcontent : (f.alloc info).2.contentTree a = f.contentTree a := by
    rw [contentTree, contentTree, hsubtree]
    apply Rose.map_congr
    intro b hb
    have hne : b ≠ f.size + 1 := by
      rintro rfl
      exact f.not_has_succ_size (h.has_of_under (h.mem_preorder_iff.1 hb) ha)
    rw [contentOf_eq, contentOf_eq, infoOf_alloc, if_neg hne]
  rw [measureOf, measureOf, hcontent, hsubtree, hsubtree,
    h.ancestors_congr (h.alloc info) (parent?_alloc f info)]

theorem mem_ancestors_iff_under (h : f.Sound) : b ∈ f.ancestors a ↔ f.Under b a ∧ a ≠ b := by
  rw [← h.mem_self_ancestors_iff, List.mem_cons]
  constructor
  · intro hm
    refine ⟨.inr hm, ?_⟩
    rintro rfl
    obtain ⟨p, hp, hap⟩ := h.mem_ancestors_iff.1 hm
    exact h.not_under_parent hp hap
  · rintro ⟨he | hm, hne⟩
    · exact absurd he.symm hne
    · exact hm

theorem mem_ancestors_iff_rank (h : f.Sound) {root : NodeId} (ha : f.Under root a)
    (hb : f.Under root b) :
    b ∈ f.ancestors a ↔
      (f.subtree root).postorder.idxOf a < (f.subtree root).postorder.idxOf b ∧
        (f.subtree root).postorder.idxOf b <
          (f.subtree root).postorder.idxOf a + (f.subtree b).size := by
  obtain ⟨pre, post, hsplit⟩ := h.exists_postorder_split hb
  have hnodup := h.nodup_postorder root
  have hmem := h.mem_postorder_iff.2 ha
  have hlength := (f.subtree b).length_postorder
  -- the node itself is the last one of its block
  have hlast : (f.subtree root).postorder.idxOf b + 1 = pre.length + (f.subtree b).size := by
    have hb := h.postorder_subtree b
    rw [← hlength, hsplit, hb]
    rw [hsplit, hb, ← List.append_assoc, List.append_assoc, List.nodup_append] at hnodup
    have hnot := fun hm => hnodup.2.2 b hm b (by simp) rfl
    rw [← List.append_assoc, List.append_assoc, List.idxOf_append_of_notMem hnot,
      List.singleton_append, List.idxOf_cons_self, List.length_append, List.length_append]
    rfl
  have hblock := mem_block_iff (hsplit ▸ hnodup) (hsplit ▸ hmem)
  rw [← hsplit, hlength] at hblock
  rw [h.mem_ancestors_iff_under, ← h.mem_postorder_iff, hblock, ne_eq, ← List.idxOf_inj hmem]
  have hpos := (f.subtree b).size_pos
  omega

end Forest.Sound

namespace Tree

inductive Change where
  | addChild (parent : NodeId) (info : NodeInfo)
  | edit (id : NodeId) (g : NodeInfo → NodeInfo)
  | measure

/-- A change that fails leaves what it has done so far. -/
def change [TokenHash] (t : Tree) : Change → Tree
  | .addChild parent info => (t.addChild parent info).2
  | .edit id g => (t.edit id g).2
  | .measure => t.measured

def build [TokenHash] (info : NodeInfo) (changes : List Change) : Tree := changes.foldl change
    (leaf info)

/-- The measures, if there are any, are those of the present forest. -/
structure Current [TokenHash] (t : Tree) : Prop where
  sound : t.Sound
  measure : t.isMeasured → ∀ a, t.Reaches a → t.measure a = .ok (t.forest.measureOf t.root a)

variable {t : Tree}

theorem Current.addChild [TokenHash] (h : t.Current) (parent : NodeId) (info : NodeInfo) :
    (t.addChild parent info).2.Current := by
  refine ⟨h.sound.addChild parent info, ?_⟩
  rw [Tree.addChild]
  dsimp only
  cases (t.forest.alloc info).2.append parent (t.forest.alloc info).1 with
  | ok linked =>
      intro hmeasured
      cases hmeasured
  | error fault =>
      intro hmeasured a ha
      have hreaches : t.Reaches a := by
        refine Relation.ReflTransGen.mono (fun p c hp => ?_) _ _ ha
        exact (Forest.parent?_alloc _ _ c).symm.trans hp
      refine (h.measure hmeasured a hreaches).trans ?_
      rw [h.sound.forest.measureOf_alloc info t.root (h.sound.has_of_reaches hreaches)]

theorem Current.edit [TokenHash] (h : t.Current) (id : NodeId) (g : NodeInfo → NodeInfo) :
    (t.edit id g).2.Current := by
  refine ⟨h.sound.edit id g, ?_⟩
  rw [Tree.edit]
  cases t.forest.get? id <;> exact nofun

theorem Current.change [TokenHash] (h : t.Current) (c : Change) : (t.change c).Current := by
  cases c with
  | addChild parent info => exact h.addChild parent info
  | edit id g => exact h.edit id g
  | measure => exact ⟨h.sound.measured, fun _ a ha => h.sound.surveyed.measure_eq_ok ha⟩

theorem current_build [TokenHash] (info : NodeInfo) (changes : List Change) :
    (build info changes).Current := by
  have hleaf : (leaf info).Current := ⟨.leaf info, nofun⟩
  have hrun : ∀ t : Tree, t.Current → (changes.foldl Tree.change t).Current := by
    induction changes with
    | nil => exact fun t h => h
    | cons c changes ih => exact fun t h => ih _ (h.change c)
  exact hrun _ hleaf

/-- What the present shape of the tree says of a node. The height is read off the measures of its
children, all else off the links. -/
structure Describes [TokenHash] (t : Tree) (a : NodeId) (m : Measure) : Prop where
  size : m.size = (t.forest.subtree a).preorder.length
  height_leaf : t.forest.childrenOf a = [] → m.height = 0
  height : t.forest.childrenOf a ≠ [] →
    IsGreatest {h | ∃ c ∈ t.forest.childrenOf a, ∃ n, t.measure c = .ok n ∧ h = n.height + 1}
      m.height
  depth : m.depth = (t.forest.ancestors a).length
  rank : t.postorder[m.rank]? = some a
  hash : m.hash = (t.forest.contentTree a).hash
  shapeHash : m.shapeHash = (t.forest.contentTree a).shapeHash

/-- All that can be asked of the measures is answered as the links would have it. -/
structure Exact [TokenHash] (t : Tree) : Prop where
  measure : ∀ a, t.Reaches a → ∃ m, t.measure a = .ok m ∧ t.Describes a m
  isBelow : ∀ a b, t.Reaches a → t.Reaches b →
    t.isBelow a b = .ok (decide (b ∈ t.forest.ancestors a))
  count : t.count = .ok t.preorder.length

theorem Current.describes [TokenHash] (h : t.Current) (hm : t.isMeasured) {a : NodeId}
    (ha : t.Reaches a) :
    t.Describes a (t.forest.measureOf t.root a) := by
  have hheight : (t.forest.subtree a).height =
      Rose.heightAll ((t.forest.childrenOf a).map t.forest.subtree) := by
    rw [h.sound.forest.subtree_eq, Rose.height]
  constructor
  case size => exact (Rose.length_preorder _).symm
  case height_leaf =>
    intro hnil
    rw [Forest.measureOf, hheight, hnil]
    rfl
  case height =>
    intro hne
    have hheights : {n | ∃ c ∈ t.forest.childrenOf a, ∃ m, t.measure c = .ok m ∧
          n = m.height + 1} =
        {n | ∃ c ∈ (t.forest.childrenOf a).map t.forest.subtree, n = c.height + 1} := by
      ext n
      simp only [Set.mem_ofPred_eq, List.mem_map, exists_exists_and_eq_and]
      refine exists_congr fun c => and_congr_right fun hc => ?_
      have hreach : t.Reaches c := ha.tail ((h.sound.forest.mem_children a c).1 hc)
      rw [h.measure hm c hreach]
      simp [Forest.measureOf]
    rw [hheights, Forest.measureOf, hheight]
    exact Rose.isGreatest_heightAll (mt List.map_eq_nil_iff.1 hne)
  case depth => rfl
  case rank => exact List.getElem?_idxOf (h.sound.forest.mem_postorder_iff.2 ha)
  case hash => rfl
  case shapeHash => rfl

theorem Current.exact [TokenHash] (h : t.Current) (hm : t.isMeasured) : t.Exact where
  measure a ha := ⟨_, h.measure hm a ha, h.describes hm ha⟩
  isBelow a b ha hb := by
    rw [Tree.isBelow, h.measure hm a ha, h.measure hm b hb]
    change Except.ok _ = _
    congr 1
    rw [Measure.isBelow, Bool.eq_iff_iff, Bool.and_eq_true, decide_eq_true_iff, decide_eq_true_iff,
      decide_eq_true_iff, h.sound.forest.mem_ancestors_iff_rank ha hb]
    rfl
  count := by
    rw [Tree.count, if_pos hm, h.measure hm t.root .refl, preorder, Rose.length_preorder]
    rfl

/-- However a tree has come about, adds that failed half-way included: if it has measures, they
are those of its present shape. -/
theorem exact_build [TokenHash] (info : NodeInfo) (changes : List Change)
    (h : (build info changes).isMeasured) : (build info changes).Exact :=
  (current_build info changes).exact h

attribute [local instance] TokenHash.constant

/-- The last child would hang under a node that does not exist, so the measures stay. -/
theorem exact_build_stray :
    (build { kind := .named 0 } [.addChild 1 { kind := .named 1 }, .measure,
        .addChild 7 { kind := .named 2 }]).isMeasured ∧
      (build { kind := .named 0 } [.addChild 1 { kind := .named 1 }, .measure,
        .addChild 7 { kind := .named 2 }]).Exact :=
  ⟨rfl, exact_build _ _ rfl⟩

end Tree

end TreeDelta
