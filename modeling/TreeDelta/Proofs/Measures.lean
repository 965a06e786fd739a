import TreeDelta.Proofs.Pairs
import TreeDelta.Proofs.Roses
import TreeDelta.Proofs.Traversal

namespace TreeDelta

mutual
/-- The polynomial, at 33 and with wrap-around, of the tokens that a walk takes when it enters and
when it leaves a node. -/
def Rose.digest {α : Type} (token : α → Bool → UInt64) : Rose α → UInt64
  | .node a cs => token a false + digestAll token 1 cs + token a true * 33 ^ (1 + 2 * sizeAll cs)
def Rose.digestAll {α : Type} (token : α → Bool → UInt64) (offset : Nat) : List (Rose α) → UInt64
  | [] => 0
  | c :: cs => c.digest token * 33 ^ offset + digestAll token (offset + 2 * c.size) cs
end

def Rose.hash [TokenHash] (t : Rose Content) : UInt64 := t.digest Content.tokenHash

def Rose.shapeHash [TokenHash] (t : Rose Content) : UInt64 :=
  (t.map Content.kind).digest Kind.tokenHash

namespace Measure

variable {look : NodeId → Content} {depth start : Nat}

theorem mul_self_pow (base : UInt64) (n : Nat) : (base * base) ^ n = base ^ (2 * n) := by
  induction n with
  | zero => rfl
  | succ n ih => grind

theorem timesPower_eq {result base : UInt64} {exp digits : Nat} (h : exp ≤ digits) :
    timesPower result base exp digits = result * base ^ exp := by
  induction digits generalizing result base exp with
  | zero =>
      obtain rfl := Nat.le_zero.1 h
      rw [timesPower, UInt64.pow_zero, UInt64.mul_one]
  | succ digits ih =>
      rw [timesPower]
      split
      · next hzero => rw [hzero, UInt64.pow_zero, UInt64.mul_one]
      · rw [ih (by omega), mul_self_pow]
        rcases Nat.mod_two_eq_zero_or_one exp with heven | hodd
        · rw [if_neg (by omega), show 2 * (exp / 2) = exp by omega]
        · rw [if_pos hodd, UInt64.mul_assoc, UInt64.mul_comm base, ← UInt64.pow_succ,
            show 2 * (exp / 2) + 1 = exp by omega]

theorem weight_eq (offset : Nat) : weight offset = 33 ^ offset := by
  rw [weight, timesPower_eq Nat.le.refl, UInt64.one_mul]

variable [TokenHash]

def ofRose (look : NodeId → Content) (depth start : Nat) (t : Rose NodeId) : Measure where
  size := t.size
  height := t.height
  depth := depth
  rank := start + (t.size - 1)
  hash := (t.map look).hash
  shapeHash := (t.map look).shapeHash

def ofRoses (look : NodeId → Content) (depth start : Nat) : List (Rose NodeId) → List Measure
  | [] => []
  | c :: cs => ofRose look depth start c :: ofRoses look depth (start + c.size) cs

theorem totalSize_ofRoses (cs : List (Rose NodeId)) :
    totalSize (ofRoses look depth start cs) = Rose.sizeAll cs := by
  induction cs generalizing start with
  | nil => rfl
  | cons c cs ih => exact congrArg (c.size + ·) ih

theorem height_ofRoses (cs : List (Rose NodeId)) :
    (ofRoses look depth start cs).foldr (fun m h => max (m.height + 1) h) 0 = Rose.heightAll cs := by
  induction cs generalizing start with
  | nil => rfl
  | cons c cs ih =>
      rw [Rose.heightAll, ofRoses, List.foldr_cons, ih]
      rfl

theorem shapeHash_map {t : Rose NodeId} :
    (t.map look).shapeHash = (t.map fun a => (look a).kind).digest Kind.tokenHash := by
  rw [Rose.shapeHash, Rose.map_map]
  rfl

section Digests

variable {α : Type} {token : α → Bool → UInt64} {part : Measure → UInt64} (view : NodeId → α)
  (hpart : ∀ d s t, part (ofRose look d s t) = (t.map view).digest token)
include hpart

/-- Side by side, the digests that `part` reads off the measures add up as those of the trees. -/
theorem polynomial_ofRoses (last sum : UInt64) (offset : Nat) (cs : List (Rose NodeId)) :
    polynomial part last sum offset (ofRoses look depth start cs) =
      sum + Rose.digestAll token offset (cs.map (Rose.map view)) +
        last * 33 ^ (offset + 2 * Rose.sizeAll (cs.map (Rose.map view))) := by
  induction cs generalizing start sum offset with
  | nil => rw [ofRoses, polynomial, weight_eq, List.map_nil, Rose.digestAll, UInt64.add_zero]; rfl
  | cons c cs ih =>
      rw [ofRoses, polynomial, ih, hpart, weight_eq, List.map_cons, Rose.digestAll, Rose.size_map,
        Rose.sizeAll, Rose.size_map, UInt64.add_assoc sum, Nat.mul_add, ← Nat.add_assoc]
      rfl

theorem digest_ofRoses (a : NodeId) (cs : List (Rose NodeId)) :
    digest (token (view a)) part (ofRoses look depth start cs) =
      ((Rose.node a cs).map view).digest token := by
  rw [digest, polynomial_ofRoses view hpart, Rose.map_node, Rose.digest]

end Digests

theorem ofChildren_ofRoses (a : NodeId) (cs : List (Rose NodeId)) (below : Nat) :
    ofChildren (look a) depth start (ofRoses look below start cs) =
      ofRose look depth start (.node a cs) := by
  rw [ofChildren, totalSize_ofRoses, height_ofRoses, digest_ofRoses look fun _ _ _ => rfl,
    digest_ofRoses (fun b => (look b).kind) fun _ _ _ => shapeHash_map, ofRose, Rose.size_node,
    Rose.height, shapeHash_map, Nat.add_sub_cancel]
  rfl

theorem walk_node (a : NodeId) (cs : List (Rose NodeId)) (table : Array Measure) :
    walk look depth start (.node a cs) table =
      (ofChildren (look a) depth start (walkAll look (depth + 1) start cs table).1,
        (walkAll look (depth + 1) start cs table).2.setIfInBounds a
          (ofChildren (look a) depth start (walkAll look (depth + 1) start cs table).1)) := by
  rw [walk]

theorem walkAll_cons (c : Rose NodeId) (cs : List (Rose NodeId)) (table : Array Measure) :
    walkAll look depth start (c :: cs) table =
      ((walk look depth start c table).1 ::
        (walkAll look depth (start + (walk look depth start c table).1.size) cs
          (walk look depth start c table).2).1,
        (walkAll look depth (start + (walk look depth start c table).1.size) cs
          (walk look depth start c table).2).2) := by
  rw [walkAll]

mutual
theorem fst_walk : ∀ (depth start : Nat) (t : Rose NodeId) (table : Array Measure),
    (walk look depth start t table).1 = ofRose look depth start t
  | depth, start, .node a cs, table => by
      rw [walk_node, ← ofChildren_ofRoses a cs (depth + 1), ← fst_walkAll (depth + 1) start cs table]
theorem fst_walkAll : ∀ (depth start : Nat) (cs : List (Rose NodeId)) (table : Array Measure),
    (walkAll look depth start cs table).1 = ofRoses look depth start cs
  | _, _, [], _ => rfl
  | depth, start, c :: cs, table => by
      rw [walkAll_cons, fst_walk depth start c table, fst_walkAll depth _ cs, ofRoses]
      rfl
end

theorem snd_walk_node (a : NodeId) (cs : List (Rose NodeId)) (table : Array Measure) :
    (walk look depth start (.node a cs) table).2 =
      (walkAll look (depth + 1) start cs table).2.setIfInBounds a
        (ofRose look depth start (.node a cs)) := by
  rw [walk_node, ← ofChildren_ofRoses a cs (depth + 1), ← fst_walkAll (depth + 1) start cs table]

theorem snd_walkAll_cons (c : Rose NodeId) (cs : List (Rose NodeId)) (table : Array Measure) :
    (walkAll look depth start (c :: cs) table).2 =
      (walkAll look depth (start + c.size) cs (walk look depth start c table).2).2 := by
  rw [walkAll_cons, fst_walk]
  rfl

mutual
theorem size_walk : ∀ (depth start : Nat) (t : Rose NodeId) (table : Array Measure),
    (walk look depth start t table).2.size = table.size
  | depth, start, .node a cs, table => by
      rw [snd_walk_node, Array.size_setIfInBounds, size_walkAll (depth + 1) start cs table]
theorem size_walkAll : ∀ (depth start : Nat) (cs : List (Rose NodeId)) (table : Array Measure),
    (walkAll look depth start cs table).2.size = table.size
  | _, _, [], _ => rfl
  | depth, start, c :: cs, table => by
      rw [snd_walkAll_cons, size_walkAll depth _ cs, size_walk depth start c table]
end

mutual
theorem walk_of_not_mem {b : NodeId} : ∀ (depth start : Nat) (t : Rose NodeId)
    (table : Array Measure), b ∉ t.preorder → (walk look depth start t table).2[b]? = table[b]?
  | depth, start, .node a cs, table, hb => by
      rw [Rose.preorder_node, List.mem_cons, not_or] at hb
      rw [snd_walk_node, Array.getElem?_setIfInBounds_ne (Ne.symm hb.1),
        walkAll_of_not_mem (depth + 1) start cs table hb.2]
theorem walkAll_of_not_mem {b : NodeId} : ∀ (depth start : Nat) (cs : List (Rose NodeId))
    (table : Array Measure), b ∉ cs.flatMap Rose.preorder →
    (walkAll look depth start cs table).2[b]? = table[b]?
  | _, _, [], _, _ => rfl
  | depth, start, c :: cs, table, hb => by
      rw [List.flatMap_cons, List.mem_append, not_or] at hb
      rw [snd_walkAll_cons, walkAll_of_not_mem depth _ cs _ hb.2,
        walk_of_not_mem depth start c table hb.1]
end

end Measure

/-- In the table stands the measure of the subtree at `b`. Its depth counts from a node at depth
`depth` with `above` ancestors, and its rank is its place in `order` counted from `start`. -/
def Measure.Entered [TokenHash] (f : Forest) (above depth start : Nat) (order : List NodeId)
    (b : NodeId)
    (table : Array Measure) : Prop :=
  ∃ d s, table[b]? = some (ofRose f.contentOf d s (f.subtree b)) ∧
    d + above = depth + (f.ancestors b).length ∧
    s + ((f.subtree b).size - 1) = start + order.idxOf b

namespace Forest.Sound

variable {f : Forest} {a b c : NodeId}

theorem entered_walkAll [TokenHash] (h : f.Sound) (hac : f.parent? c = some a) (hcb : f.Under c b)
    {above depth : Nat}
    (hwalk : ∀ (start : Nat) (table : Array Measure), b < table.size →
      Measure.Entered f above depth start (f.subtree c).postorder b
        (Measure.walk f.contentOf depth start (f.subtree c) table).2)
    {cs : List NodeId} (hc : c ∈ cs) (hnodup : cs.Nodup) (hcs : ∀ x ∈ cs, x ∈ f.childrenOf a)
    (start : Nat) (table : Array Measure) (hb : b < table.size) :
    Measure.Entered f above depth start ((cs.map f.subtree).flatMap Rose.postorder) b
      (Measure.walkAll f.contentOf depth start (cs.map f.subtree) table).2 := by
  have hother : ∀ x ∈ f.childrenOf a, f.Under x b → x = c := fun x hx hxb =>
    h.eq_of_siblings ((h.mem_children a x).1 hx) hac hxb hcb
  induction cs generalizing start table with
  | nil => cases hc
  | cons x cs ih =>
      rw [List.forall_mem_cons] at hcs
      rw [List.nodup_cons] at hnodup
      rw [List.map_cons, List.flatMap_cons, Measure.snd_walkAll_cons]
      by_cases hx : x = c
      · subst hx
        obtain ⟨d, s, hentry, hdepth, hrank⟩ := hwalk start table hb
        refine ⟨d, s, ?_, hdepth, ?_⟩
        · rw [Measure.walkAll_of_not_mem]
          · exact hentry
          · intro hmem
            simp only [List.mem_flatMap, List.mem_map, exists_exists_and_eq_and,
              h.mem_preorder_iff] at hmem
            obtain ⟨y, hy, hyb⟩ := hmem
            exact hnodup.1 (hother y (hcs.2 y hy) hyb ▸ hy)
        · rw [List.idxOf_append_of_mem (h.mem_postorder_iff.2 hcb), hrank]
      · have hlt : b < (Measure.walk f.contentOf depth start (f.subtree x) table).2.size := by
          rwa [Measure.size_walk]
        obtain ⟨d, s, hentry, hdepth, hrank⟩ := ih ((List.mem_cons.1 hc).resolve_left (Ne.symm hx))
          hnodup.2 hcs.2 (start + (f.subtree x).size) _ hlt
        refine ⟨d, s, hentry, hdepth, ?_⟩
        have hnot : b ∉ (f.subtree x).postorder := fun hmem =>
          hx (hother x hcs.1 (h.mem_postorder_iff.1 hmem))
        rw [List.idxOf_append_of_notMem hnot, Rose.length_postorder]
        omega

theorem entered_walk [TokenHash] (h : f.Sound) (hab : f.Under a b) (depth start : Nat)
    {table : Array Measure} (hb : b < table.size) :
    Measure.Entered f (f.ancestors a).length depth start (f.subtree a).postorder b
      (Measure.walk f.contentOf depth start (f.subtree a) table).2 := by
  induction a using h.induction_children generalizing depth start table with
  | step a ih =>
      rw [h.subtree_eq a, Measure.snd_walk_node, Rose.postorder_node]
      rcases hab.cases_head with rfl | ⟨c, hac, hcb⟩
      · refine ⟨depth, start, ?_, rfl, ?_⟩
        · rw [Array.getElem?_setIfInBounds_self_of_lt (by rwa [Measure.size_walkAll]),
            ← h.subtree_eq]
        · have hnot : a ∉ ((f.childrenOf a).map f.subtree).flatMap Rose.postorder := by
            simp only [List.mem_flatMap, List.mem_map, exists_exists_and_eq_and,
              h.mem_postorder_iff, h.mem_children]
            rintro ⟨c, hc, hca⟩
            exact h.not_under_parent hc hca
          rw [List.idxOf_append_of_notMem hnot, Rose.length_flatMap fun t _ => t.length_postorder,
            h.subtree_eq a, Rose.size_node, List.idxOf_cons_self, Nat.add_sub_cancel]
          rfl
      · have hne : a ≠ b := by
          rintro rfl
          exact h.not_under_parent hac hcb
        have hc : c ∈ f.childrenOf a := (h.mem_children a c).2 hac
        obtain ⟨d, s, hentry, hdepth, hrank⟩ := h.entered_walkAll hac hcb
          (fun start table hb => ih c hc hcb (depth + 1) start hb) hc (h.nodup_children a)
          (fun x hx => hx) start table hb
        refine ⟨d, s, ?_, ?_, ?_⟩
        · rw [Array.getElem?_setIfInBounds_ne hne, hentry]
        · rw [h.length_ancestors hac] at hdepth
          omega
        · rw [hrank, List.idxOf_append_of_mem]
          simp only [List.mem_flatMap, List.mem_map, exists_exists_and_eq_and]
          exact ⟨c, hc, h.mem_postorder_iff.2 hcb⟩

theorem size_subtree_le (h : f.Sound) (hab : f.Under a b) :
    (f.subtree b).size ≤ (f.subtree a).size := by
  rw [← Rose.length_preorder, ← Rose.length_preorder]
  refine ((h.nodup_preorder b).subperm fun x hx => ?_).length_le
  exact h.mem_preorder_iff.2 (hab.trans (h.mem_preorder_iff.1 hx))

end Forest.Sound

/-- The measure of a node in the tree at `root`. -/
def Forest.measureOf [TokenHash] (f : Forest) (root a : NodeId) : Measure where
  size := (f.subtree a).size
  height := (f.subtree a).height
  depth := (f.ancestors a).length
  rank := (f.subtree root).postorder.idxOf a
  hash := (f.contentTree a).hash
  shapeHash := (f.contentTree a).shapeHash

def Forest.spanEnd (f : Forest) (a : NodeId) : Nat := (f.infoOf a).pos + (f.infoOf a).length

/-- Half of what a word can count. No block of memory has as many bytes, so no tree has as many
nodes. -/
def halfWord : Nat := 0x8000000000000000

/-- What a matching asks of a tree: its links fit together, its measures are those of its present
shape, and its counts and offsets are small enough for a sum of two to be a word. -/
structure Tree.Ready [TokenHash] (t : Tree) : Prop where
  sound : t.Sound
  measures : t.measures = some (t.forest.measures t.root)
  count : t.preorder.length < halfWord
  span : ∀ a, t.Reaches a → t.forest.spanEnd a < halfWord

/-- The links of a tree fit together, and its measures are those of its present shape. -/
structure Tree.Surveyed [TokenHash] (t : Tree) : Prop where
  sound : t.Sound
  measures : t.measures = some (t.forest.measures t.root)

/-- The counts and offsets of a tree are small enough for a sum of two to be a word. -/
structure Tree.Small (t : Tree) : Prop where
  count : t.preorder.length < halfWord
  span : ∀ a, t.Reaches a → t.forest.spanEnd a < halfWord

theorem Tree.Sound.small {t : Tree} (h : t.Sound) (hcount : t.preorder.length < halfWord)
    (hspan : ∀ a ∈ t.preorder, t.forest.spanEnd a < halfWord) : t.Small :=
  ⟨hcount, fun a ha => hspan a (h.mem_preorder_iff.2 ha)⟩

theorem Tree.Sound.surveyed [TokenHash] {t : Tree} (h : t.Sound) : t.measured.Surveyed :=
    ⟨h.measured, rfl⟩

/-- No two nodes of the two trees share a digest, unless their subtrees have one content. -/
def FaithfulDigests [TokenHash] (src dst : Tree) : Prop :=
  ∀ a b, src.Reaches a → dst.Reaches b →
    (src.forest.contentTree a).hash = (dst.forest.contentTree b).hash →
      src.forest.contentTree a = dst.forest.contentTree b

theorem FaithfulDigests.of_preorder [TokenHash] {src dst : Tree} (hs : src.Sound) (hd : dst.Sound)
    (h : ∀ a ∈ src.preorder, ∀ b ∈ dst.preorder,
      (src.forest.contentTree a).hash = (dst.forest.contentTree b).hash →
        (src.forest.contentTree a).agree (· == ·) (dst.forest.contentTree b)) :
    FaithfulDigests src dst := fun a b ha hb hhash =>
  Rose.agree_eq_iff.1 (h a (hs.mem_preorder_iff.2 ha) b (hd.mem_preorder_iff.2 hb) hhash)

namespace Tree.Surveyed

variable {t : Tree} {a : NodeId}

theorem has [TokenHash] (h : t.Surveyed) (ha : t.Reaches a) :
    t.forest.has a := h.sound.has_of_reaches ha

theorem isMeasured [TokenHash] (h : t.Surveyed) : t.isMeasured := by
  rw [Tree.isMeasured, h.measures]
  rfl

theorem measure_eq_ok [TokenHash] (h : t.Surveyed) (ha : t.Reaches a) :
    t.measure a = .ok (t.forest.measureOf t.root a) := by
  have hlt : a < (Array.replicate (t.forest.size + 1) ({} : Measure)).size := by
    rw [Array.size_replicate]
    exact Nat.lt_succ_of_le ((t.forest.has_iff_le a).1 (h.has ha)).2
  obtain ⟨d, s, hentry, hdepth, hrank⟩ := h.sound.forest.entered_walk ha 0 0 hlt
  rw [Forest.ancestors_eq_nil h.sound.root_parent, List.length_nil] at hdepth
  rw [Tree.measure, h.measures]
  simp only [Forest.measures, hentry, Measure.ofRose, Forest.measureOf, Forest.contentTree]
  congr 2
  · omega
  · omega

end Tree.Surveyed

namespace Tree.Ready

variable {t : Tree} {a : NodeId}

variable [TokenHash]

theorem surveyed (h : t.Ready) : t.Surveyed := ⟨h.sound, h.measures⟩

theorem small (h : t.Ready) : t.Small := ⟨h.count, h.span⟩

theorem has (h : t.Ready) (ha : t.Reaches a) : t.forest.has a := h.surveyed.has ha

theorem measure_eq_ok (h : t.Ready) (ha : t.Reaches a) :
    t.measure a = .ok (t.forest.measureOf t.root a) :=
  h.surveyed.measure_eq_ok ha

end Tree.Ready

theorem Tree.Small.size_lt {t : Tree} (h : t.Small) (hs : t.Sound) {a : NodeId}
    (ha : t.Reaches a) : (t.forest.subtree a).size < halfWord := by
  refine Nat.lt_of_le_of_lt (hs.forest.size_subtree_le ha) ?_
  rw [← Rose.length_preorder]
  exact h.count

end TreeDelta
