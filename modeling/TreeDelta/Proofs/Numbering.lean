import TreeDelta.EditDistance.Tables
import TreeDelta.Proofs.Measures
import TreeDelta.Proofs.Outcome
import TreeDelta.Proofs.Roses

namespace TreeDelta

namespace Forest.Sound

variable {f : Forest} {a x : NodeId}

theorem nodup_postorder (h : f.Sound) (a : NodeId) : (f.subtree a).postorder.Nodup :=
  (f.subtree a).postorder_perm.nodup_iff.2 (h.nodup_preorder a)

theorem exists_postorder_split (h : f.Sound) (hax : f.Under a x) :
    ∃ pre post, (f.subtree a).postorder = pre ++ (f.subtree x).postorder ++ post := by
  induction hax with
  | refl => exact ⟨[], [], by simp⟩
  | @tail y x _ hx ih =>
      obtain ⟨pre, post, hsplit⟩ := ih
      obtain ⟨l, r, hchildren⟩ := List.append_of_mem ((h.mem_children y x).2 hx)
      refine ⟨pre ++ l.flatMap fun c => (f.subtree c).postorder,
        (r.flatMap fun c => (f.subtree c).postorder) ++ [y] ++ post, ?_⟩
      rw [hsplit, h.postorder_subtree y, hchildren, List.flatMap_append, List.flatMap_cons]
      simp only [List.append_assoc]

theorem mem_of_under_of_split (h : f.Sound) {root x y : NodeId}
    {pre post : List NodeId} (hsplit : (f.subtree root).postorder = pre ++ x :: post)
    (hxy : f.Under x y) : y ∈ pre ++ [x] := by
  induction hxy with
  | refl => simp
  | @tail y z _ hz ih =>
      have hchild : z ∈ f.childrenOf y := (h.mem_children y z).2 hz
      refine List.mem_append_left _ ?_
      rcases List.mem_append.1 ih with hy | hy
      · obtain ⟨s, r, rfl⟩ := List.append_of_mem hy
        have hsplit' : (f.subtree root).postorder = s ++ y :: (r ++ x :: post) := by
          rw [hsplit, List.append_assoc, List.cons_append]
        exact List.mem_append_left _ (h.respects_postorder root _ _ _ hsplit' z hchild)
      · rw [List.mem_singleton.1 hy] at hchild
        exact h.respects_postorder root _ _ _ hsplit z hchild

theorem size_le_of_split (h : f.Sound) {root x : NodeId}
    {pre post : List NodeId} (hsplit : (f.subtree root).postorder = pre ++ x :: post) :
    (f.subtree x).size ≤ pre.length + 1 := by
  have hsub : (f.subtree x).preorder ⊆ pre ++ [x] := fun y hy =>
    h.mem_of_under_of_split hsplit (h.mem_preorder_iff.1 hy)
  have hle := ((h.nodup_preorder x).subperm hsub).length_le
  rwa [Rose.length_preorder, List.length_append] at hle

end Forest.Sound

namespace Numbered

/-- The numbers of `n` are those of the nodes below `a` in post-order. -/
structure Numbers (n : Numbered) (t : Tree) (a : NodeId) : Prop where
  sound : t.Sound
  ids : n.ids = (t.forest.subtree a).postorder.toArray
  contents : n.contents = ((t.forest.subtree a).postorder.map t.forest.contentOf).toArray
  leaves : n.leftmost.size = n.size + 1
  leaf_zero : n.leaf 0 = 0
  leaf_add : ∀ i, 0 < i → i ≤ n.size → n.leaf i + (t.forest.subtree (n.id i)).size = i + 1

variable {n : Numbered} {t : Tree} {a x : NodeId} {i k : Nat}

namespace Numbers

theorem size_eq (h : n.Numbers t a) : n.size = (t.forest.subtree a).postorder.length := by
  rw [size, h.ids, List.size_toArray]

theorem size_subtree (h : n.Numbers t a) : (t.forest.subtree a).size = n.size := by
  rw [h.size_eq, Rose.length_postorder]

theorem size_pos (h : n.Numbers t a) : 0 < n.size := by
  rw [← h.size_subtree]
  exact Rose.size_pos _

theorem getElem?_id (h : n.Numbers t a) (hi : 0 < i) (hin : i ≤ n.size) :
    (t.forest.subtree a).postorder[i - 1]? = some (n.id i) := by
  have hlt : i - 1 < (t.forest.subtree a).postorder.length := by
    rw [← h.size_eq]
    omega
  rw [Numbered.id, h.ids, Array.getD_eq_getD_getElem?, List.getElem?_toArray,
    List.getElem?_eq_getElem hlt, Option.getD_some]

theorem content_eq (h : n.Numbers t a) (hi : 0 < i) (hin : i ≤ n.size) :
    n.content i = t.forest.contentOf (n.id i) := by
  rw [content, h.contents, Array.getD_eq_getD_getElem?, List.getElem?_toArray, List.getElem?_map,
    h.getElem?_id hi hin]
  rfl

theorem exists_number (h : n.Numbers t a) (hx : t.forest.Under a x) :
    ∃ i, 0 < i ∧ i ≤ n.size ∧ n.id i = x := by
  obtain ⟨k, hk, hkx⟩ := List.getElem_of_mem (h.sound.forest.mem_postorder_iff.2 hx)
  have hin : k + 1 ≤ n.size := by
    rw [h.size_eq]
    exact hk
  have hget := h.getElem?_id (Nat.succ_pos k) hin
  rw [Nat.succ_sub_one, List.getElem?_eq_getElem hk] at hget
  exact ⟨k + 1, Nat.succ_pos k, hin, (Option.some.inj hget).symm.trans hkx⟩

theorem under (h : n.Numbers t a) (hi : 0 < i) (hin : i ≤ n.size) : t.forest.Under a (n.id i) :=
  h.sound.forest.mem_postorder_iff.1 (List.mem_of_getElem? (h.getElem?_id hi hin))

theorem idxOf_id (h : n.Numbers t a) (hi : 0 < i) (hin : i ≤ n.size) :
    (t.forest.subtree a).postorder.idxOf (n.id i) = i - 1 := by
  obtain ⟨hlt, hget⟩ := List.getElem?_eq_some_iff.1 (h.getElem?_id hi hin)
  rw [← hget]
  exact (h.sound.forest.nodup_postorder a).idxOf_getElem _ _

theorem id_inj (h : n.Numbers t a) (hi : 0 < i) (hin : i ≤ n.size) (hk : 0 < k)
    (hkn : k ≤ n.size) (he : n.id i = n.id k) : i = k := by
  have hidx := h.idxOf_id hi hin
  rw [he, h.idxOf_id hk hkn] at hidx
  omega

theorem id_number (h : n.Numbers t a) (hx : t.forest.Under a x) :
    n.id ((t.forest.subtree a).postorder.idxOf x + 1) = x ∧
      (t.forest.subtree a).postorder.idxOf x + 1 ≤ n.size := by
  obtain ⟨i, hi, hin, rfl⟩ := h.exists_number hx
  rw [h.idxOf_id hi hin, Nat.sub_add_cancel hi]
  exact ⟨rfl, hin⟩

/-- The block of node `i`: what stands before its leftmost leaf is as long as that number says. -/
theorem exists_block (h : n.Numbers t a) (hi : 0 < i) (hin : i ≤ n.size) :
    ∃ pre post, (t.forest.subtree a).postorder =
        pre ++ (t.forest.subtree (n.id i)).postorder ++ post ∧ n.leaf i = pre.length + 1 := by
  obtain ⟨pre, post, hsplit⟩ := h.sound.forest.exists_postorder_split (h.under hi hin)
  refine ⟨pre, post, hsplit, ?_⟩
  -- the node itself is the last one of its block
  have hlast := h.sound.forest.postorder_subtree (n.id i)
  have hlen := congrArg List.length hlast
  rw [Rose.length_postorder, List.length_append, List.length_singleton] at hlen
  have hget : (t.forest.subtree a).postorder[pre.length + (t.forest.subtree (n.id i)).size - 1]? =
      some (n.id i) := by
    rw [hsplit, hlast, List.append_assoc, List.append_assoc, hlen,
      List.getElem?_append_right (by omega), List.getElem?_append_right (by omega)]
    simp
  have hlt := (List.getElem?_eq_some_iff.1 (h.getElem?_id hi hin)).1
  have hidx := (List.getElem?_inj hlt (h.sound.forest.nodup_postorder a)).1
    ((h.getElem?_id hi hin).trans hget.symm)
  have := h.leaf_add i hi hin
  omega

theorem leaf_pos (h : n.Numbers t a) (hi : 0 < i) (hin : i ≤ n.size) : 0 < n.leaf i := by
  obtain ⟨pre, _, _, hleaf⟩ := h.exists_block hi hin
  omega

theorem leaf_le (h : n.Numbers t a) (hi : 0 < i) (hin : i ≤ n.size) : n.leaf i ≤ i := by
  have := h.leaf_add i hi hin
  have := (t.forest.subtree (n.id i)).size_pos
  omega

theorem under_iff (h : n.Numbers t a) (hi : 0 < i) (hin : i ≤ n.size) (hk : 0 < k)
    (hkn : k ≤ n.size) : t.forest.Under (n.id i) (n.id k) ↔ n.leaf i ≤ k ∧ k ≤ i := by
  obtain ⟨pre, post, hsplit, hleaf⟩ := h.exists_block hi hin
  have hadd := h.leaf_add i hi hin
  have hget := h.getElem?_id hk hkn
  have hlt := (List.getElem?_eq_some_iff.1 hget).1
  rw [← h.sound.forest.mem_postorder_iff]
  constructor
  · intro hmem
    obtain ⟨m, hm, hmk⟩ := List.getElem_of_mem hmem
    have hget' : (t.forest.subtree a).postorder[pre.length + m]? = some (n.id k) := by
      rw [hsplit, List.append_assoc, List.getElem?_append_right (by omega),
        Nat.add_sub_cancel_left, List.getElem?_append_left hm, List.getElem?_eq_getElem hm, hmk]
    have hidx := (List.getElem?_inj hlt (h.sound.forest.nodup_postorder a)).1
      (hget.trans hget'.symm)
    rw [Rose.length_postorder] at hm
    omega
  · rintro ⟨hle, hki⟩
    have hm : k - 1 - pre.length < (t.forest.subtree (n.id i)).postorder.length := by
      rw [Rose.length_postorder]
      omega
    rw [hsplit, List.append_assoc, List.getElem?_append_right (by omega),
      List.getElem?_append_left hm] at hget
    exact List.mem_of_getElem? hget

theorem leaf_le_leaf (h : n.Numbers t a) (hi : 0 < i) (hin : i ≤ n.size) (hik : n.leaf i ≤ k)
    (hki : k ≤ i) : n.leaf i ≤ n.leaf k := by
  have hk : 0 < k := Nat.lt_of_lt_of_le (h.leaf_pos hi hin) hik
  have hkn : k ≤ n.size := hki.trans hin
  have hl := h.leaf_pos hk hkn
  have hln := (h.leaf_le hk hkn).trans hkn
  have hunder := ((h.under_iff hi hin hk hkn).2 ⟨hik, hki⟩).trans
    ((h.under_iff hk hkn hl hln).2 ⟨le_rfl, h.leaf_le hk hkn⟩)
  exact ((h.under_iff hi hin hl hln).1 hunder).1

end Numbers

/-- Every node has a block of its own, blocks are nested, and all are in that of the last node. -/
structure Nested (n : Numbered) : Prop where
  leaf_size : n.leaf n.size = 1
  leaf_pos : ∀ i, 0 < i → i ≤ n.size → 0 < n.leaf i
  leaf_le : ∀ i, 0 < i → i ≤ n.size → n.leaf i ≤ i
  leaf_le_leaf : ∀ i k, 0 < i → i ≤ n.size → n.leaf i ≤ k → k ≤ i → n.leaf i ≤ n.leaf k

theorem Numbers.id_size (h : n.Numbers t a) : n.id n.size = a := by
  have hget := h.getElem?_id h.size_pos le_rfl
  rw [h.size_eq, ← List.getLast?_eq_getElem?, h.sound.forest.postorder_subtree a,
    List.getLast?_concat] at hget
  rw [h.size_eq, h.sound.forest.postorder_subtree a]
  exact (Option.some.inj hget).symm

theorem Numbers.nested (h : n.Numbers t a) : n.Nested where
  leaf_size := by
    have hadd := h.leaf_add n.size h.size_pos le_rfl
    rw [h.id_size, h.size_subtree] at hadd
    omega
  leaf_pos _ := h.leaf_pos
  leaf_le _ := h.leaf_le
  leaf_le_leaf _ _ := h.leaf_le_leaf

theorem gives_leaves [TokenHash] (h : t.Surveyed) (ha : t.Reaches a) (pre : List NodeId)
    {ids : List NodeId} (hsplit : (t.forest.subtree a).postorder = pre ++ ids) :
    Gives (leaves t pre.length ids) fun ls => ls.length = ids.length ∧
      ∀ (k : Nat) x, ids[k]? = some x → ∃ v, ls[k]? = some v ∧
        v + (t.forest.subtree x).size = pre.length + k + 2 := by
  induction ids generalizing pre with
  | nil => exact .ok ⟨rfl, by simp⟩
  | cons x ids ih =>
      have hunder : t.forest.Under a x := h.sound.forest.mem_postorder_iff.1 (by simp [hsplit])
      have hsize := h.sound.forest.size_le_of_split hsplit
      have hpos := (t.forest.subtree x).size_pos
      apply (Gives.of_eq (h.measure_eq_ok (ha.trans hunder))).bind
      intro m hm
      have hm : m.size = (t.forest.subtree x).size := by rw [hm, Forest.measureOf]
      have hleaf : subWord (pre.length + 2) m.size = .ok (pre.length + 2 - m.size) :=
        subWord_eq_ok_iff.2 (by omega)
      apply (Gives.of_eq hleaf).bind
      intro leaf hle
      have hrest := ih (pre ++ [x]) (by simp [hsplit])
      rw [List.length_append, List.length_singleton] at hrest
      refine hrest.bind fun ls hls => .pure ⟨by simp [hls.1], fun k y hy => ?_⟩
      cases k with
      | zero =>
          cases hy
          exact ⟨leaf, rfl, by omega⟩
      | succ k =>
          obtain ⟨v, hv, hadd⟩ := hls.2 k y hy
          exact ⟨v, hv, by omega⟩

theorem gives_ofSubtree [TokenHash] (h : t.Surveyed) (ha : t.Reaches a) :
    Gives (ofSubtree t a) fun n => n.Numbers t a := by
  apply (Gives.of_eq (Tree.subtree_eq_ok (h.sound.has_of_reaches ha))).bind
  intro s hs
  subst hs
  apply (gives_leaves h ha [] (List.nil_append _).symm).bind
  intro ls hls
  refine .pure ⟨h.sound, rfl, rfl, ?_, rfl, ?_⟩
  · simp [size, hls.1]
  · intro i hi hin
    obtain ⟨k, rfl⟩ : ∃ k, i = k + 1 := ⟨i - 1, by omega⟩
    have hlt : k < (t.forest.subtree a).postorder.length := by
      simpa [size, Nat.succ_le_iff] using hin
    obtain ⟨v, hv, hadd⟩ := hls.2 k _ (List.getElem?_eq_getElem hlt)
    simp only [leaf, Numbered.id, Array.getD_eq_getD_getElem?, List.getElem?_toArray,
      List.getElem?_cons_succ, hv, Option.getD_some, Nat.add_sub_cancel,
      List.getElem?_eq_getElem hlt]
    simp only [List.length_nil] at hadd
    omega

end Numbered

namespace TreePair

structure Numbers (p : TreePair) (src dst : Tree) (a b : NodeId) : Prop where
  src : p.src.Numbers src a
  dst : p.dst.Numbers dst b

structure Nested (p : TreePair) : Prop where
  src : p.src.Nested
  dst : p.dst.Nested

theorem Numbers.nested {p : TreePair} {src dst : Tree} {a b : NodeId}
    (h : p.Numbers src dst a b) : p.Nested :=
  ⟨h.src.nested, h.dst.nested⟩

theorem gives_ofSubtrees [TokenHash] {src dst : Tree} {a b : NodeId} (hs : src.Surveyed)
    (hd : dst.Surveyed)
    (ha : src.Reaches a) (hb : dst.Reaches b) :
    Gives (TreePair.ofSubtrees src dst a b) fun p => p.Numbers src dst a b := by
  apply (Numbered.gives_ofSubtree hs ha).bind
  intro x hx
  exact (Numbered.gives_ofSubtree hd hb).bind fun y hy => .pure ⟨hx, hy⟩

end TreePair

end TreeDelta
