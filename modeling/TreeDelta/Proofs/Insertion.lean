import TreeDelta.Proofs.Pairs

namespace TreeDelta.Forest

variable {f g : Forest} {a b c p q : NodeId}

def linkBefore (f : Forest) (sibling child : NodeId) : Forest :=
  match f.parent? sibling with
  | some parent =>
      (f.modify parent fun n =>
          { n with children := n.children.takeWhile (· != sibling) ++
              child :: n.children.dropWhile (· != sibling) }).modify child
        fun n => { n with parent := some parent }
  | none => f

def linkLast (f : Forest) (parent child : NodeId) : Forest :=
  (f.modify parent fun n => { n with children := n.children ++ [child] }).modify child
    fun n => { n with parent := some parent }

theorem modify_congr {u v : Node → Node} (h : ∀ n, f.get? a = some n → u n = v n) :
    f.modify a u = f.modify a v := by
  cases a with
  | zero => rfl
  | succ i =>
      change Forest.mk (f.nodes.modify i u) = Forest.mk (f.nodes.modify i v)
      refine congrArg Forest.mk (Array.ext_getElem? fun j => ?_)
      rw [Array.getElem?_modify, Array.getElem?_modify]
      split
      · next hj =>
        cases hn : f.nodes[j]? with
        | none => rfl
        | some n => exact congrArg some (h n (hj ▸ hn))
      · rfl

theorem takeWhile_ne_of_getElem? {l : List NodeId} (hl : l.Nodup) {i : Nat} (hi : l[i]? = some a) :
    l.takeWhile (· != a) = l.take i ∧ l.dropWhile (· != a) = l.drop i := by
  obtain ⟨hlt, hget⟩ := List.getElem?_eq_some_iff.1 hi
  have hsplit : l = l.take i ++ a :: l.drop (i + 1) := by
    rw [← hget, List.getElem_cons_drop, List.take_append_drop]
  have hnot : a ∉ l.take i := by
    rw [hsplit] at hl
    exact fun hmem => (List.nodup_cons.1 (List.nodup_middle.1 hl)).1 (List.mem_append_left _ hmem)
  have hbefore : ∀ x ∈ l.take i, (x != a) = true := fun x hx =>
    bne_iff_ne.2 fun he => hnot (he ▸ hx)
  have htake : (l.take i ++ a :: l.drop (i + 1)).takeWhile (· != a) = l.take i := by
    rw [List.takeWhile_append_of_pos hbefore]
    simp
  have hdrop : (l.take i ++ a :: l.drop (i + 1)).dropWhile (· != a) = a :: l.drop (i + 1) := by
    rw [List.dropWhile_append_of_pos hbefore]
    simp
  rw [← hsplit] at htake hdrop
  exact ⟨htake, hdrop.trans (by rw [← hget, List.getElem_cons_drop])⟩

theorem childrenOf_eq_of_get? {n : Node} (h : f.get? a = some n) : f.childrenOf a = n.children := by
  rw [childrenOf, h]

/-- Placing a node is to detach it and then to link it before the sibling that is now at the index,
or last if there is none. -/
theorem Sound.place_eq_link (h : f.Sound) (p c : NodeId) (i : Nat) :
    f.place p c i =
      match ((f.detach c).childrenOf p)[i]? with
      | some sibling => (f.detach c).linkBefore sibling c
      | none => (f.detach c).linkLast p c := by
  have hd := h.detach c
  split
  · next sibling hsibling =>
    have hparent := (hd.mem_children p sibling).1 (List.mem_of_getElem? hsibling)
    obtain ⟨htake, hdrop⟩ := takeWhile_ne_of_getElem? (hd.nodup_children p) hsibling
    rw [Forest.place, linkBefore, hparent]
    dsimp only
    congr 1
    refine modify_congr fun n hn => ?_
    rw [← childrenOf_eq_of_get? hn, htake, hdrop]
  · next hnone =>
    rw [List.getElem?_eq_none_iff] at hnone
    rw [Forest.place, linkLast]
    congr 1
    refine modify_congr fun n hn => ?_
    rw [childrenOf_eq_of_get? hn] at hnone
    rw [List.take_of_length_le hnone, List.drop_of_length_le hnone]

def childrenBut (f : Forest) (p c : NodeId) : List NodeId := (f.childrenOf p).filter (· != c)

/-- The forest `g` is `f` with `c` put among the children of `p` at index `i`. -/
structure Inserted (f : Forest) (p c : NodeId) (i : Nat) (g : Forest) : Prop where
  sound : g.Sound
  size : g.size = f.size
  parent : g.parent? c = some p
  children : g.childrenOf p =
    (f.childrenBut p c).take (min i (f.childrenBut p c).length) ++
      [c] ++ (f.childrenBut p c).drop (min i (f.childrenBut p c).length)
  position : g.position c = min i (f.childrenBut p c).length
  subtree : g.subtree c = f.subtree c
  /-- The former parent loses just `c`. -/
  left : ∀ q, f.parent? c = some q → q ≠ p → g.childrenOf q = f.childrenBut q c
  otherChildren : ∀ q, q ≠ p → f.parent? c ≠ some q → g.childrenOf q = f.childrenOf q
  otherParents : ∀ a, a ≠ c → g.parent? a = f.parent? a
  info : ∀ a, (g.get? a).map (·.info) = (f.get? a).map (·.info)

theorem notMem_childrenBut (f : Forest) (p c : NodeId) : c ∉ f.childrenBut p c := by
  simp [childrenBut]

theorem map_info_get? (f : Forest) (a : NodeId) :
    (f.get? a).map (·.info) = if f.has a then some (f.infoOf a) else none := by
  unfold has infoOf
  cases f.get? a <;> rfl

theorem map_info_get?_place (f : Forest) (p c : NodeId) (i : Nat) (a : NodeId) :
    ((f.place p c i).get? a).map (·.info) = (f.get? a).map (·.info) := by
  rw [map_info_get?, map_info_get?, infoOf_place]
  simp only [has_congr (size_place f p c i) a]

namespace Sound

theorem erase_children (h : f.Sound) (p c : NodeId) :
    (f.childrenOf p).erase c = f.childrenBut p c :=
  (h.nodup_children p).erase_eq_filter c

theorem childrenBut_eq (h : f.Sound) (hc : f.parent? c ≠ some p) :
    f.childrenBut p c = f.childrenOf p := by
  rw [← h.erase_children, List.erase_of_not_mem (mt (h.mem_children p c).1 hc)]

theorem subtree_place (h : f.Sound) (hp : f.has p) (hc : f.has c) (hcp : ¬ f.Under c p) (i : Nat) :
    (f.place p c i).subtree c = f.subtree c := by
  refine subtree_congr h (h.place hp hc hcp i) c fun b hb => ?_
  have hne : p ≠ b := fun he => hcp (he ▸ hb)
  rw [h.childrenOf_place hp, if_neg hne, List.erase_of_not_mem]
  intro hmem
  exact h.not_under_parent ((h.mem_children b c).1 hmem) hb

theorem inserted_place (h : f.Sound) (hp : f.has p) (hc : f.has c) (hcp : ¬ f.Under c p)
    (i : Nat) : f.Inserted p c i (f.place p c i) := by
  have hparent := parent?_place f p hc i
  have hchildren := h.childrenOf_place hp c i
  have hlist : (f.place p c i).childrenOf p =
      (f.childrenBut p c).take (min i (f.childrenBut p c).length) ++
        c :: (f.childrenBut p c).drop (min i (f.childrenBut p c).length) := by
    rw [hchildren, if_pos rfl, h.erase_children]
    rcases Nat.le_total i (f.childrenBut p c).length with hle | hle
    · rw [Nat.min_eq_left hle]
    · rw [Nat.min_eq_right hle, List.take_of_length_le hle, List.drop_of_length_le hle,
        List.take_length, List.drop_length]
  constructor
  case sound => exact h.place hp hc hcp i
  case size => exact size_place f p c i
  case parent => rw [hparent, if_pos rfl]
  case children => rw [hlist, List.append_assoc, List.singleton_append]
  case position =>
    have hbefore : c ∉ (f.childrenBut p c).take (min i (f.childrenBut p c).length) :=
      fun hmem => f.notMem_childrenBut p c (List.mem_of_mem_take hmem)
    rw [position, hparent, if_pos rfl]
    change ((f.place p c i).childrenOf p).idxOf c = _
    rw [hlist, List.idxOf_append_of_notMem hbefore, List.idxOf_cons_self, List.length_take]
    omega
  case subtree => exact h.subtree_place hp hc hcp i
  case left =>
    intro q _ hq
    rw [hchildren, if_neg (Ne.symm hq), h.erase_children]
  case otherChildren =>
    intro q hq hother
    rw [hchildren, if_neg (Ne.symm hq), h.erase_children, h.childrenBut_eq hother]
  case otherParents =>
    intro a ha
    rw [hparent, if_neg (Ne.symm ha)]
  case info => exact map_info_get?_place f p c i

end Sound

/-- A node can be put at any index among the children of any node that is not below it: it is
detached, then linked before the sibling at that index or last, and the result is an insertion
into the list of the other children that changes nothing else. -/
theorem insertAt_inserted (h : f.Sound) (hp : f.has p) (hc : f.has c)
    (hcp : p ∉ (f.subtree c).preorder) (i : Nat) :
    ∃ g, f.insertAt p c i = .ok g ∧
      g = (match ((f.detach c).childrenOf p)[i]? with
        | some sibling => (f.detach c).linkBefore sibling c
        | none => (f.detach c).linkLast p c) ∧
      f.Inserted p c i g := by
  rw [h.mem_preorder_iff] at hcp
  exact ⟨_, h.insertAt_eq hp hc hcp i, h.place_eq_link p c i, h.inserted_place hp hc hcp i⟩

def rake : Forest :=
  ((((twig 0 1).addChild 1 { kind := .named 2 }).2.addChild 1 { kind := .named 3 }).2.addChild 2
    { kind := .named 4 }).2.forest

/-- The first of three children moves to index 1 behind the second, and a leaf further down to the
end of the same list. -/
theorem insertAt_inserted_rake :
    rake.childrenOf 1 = [2, 3, 4] ∧
      (∃ g, rake.insertAt 1 2 1 = .ok g ∧ g.childrenOf 1 = [3, 2, 4] ∧
        rake.Inserted 1 2 1 g) ∧
      ∃ g, rake.insertAt 1 5 9 = .ok g ∧ g.childrenOf 1 = [2, 3, 4, 5] ∧ g.childrenOf 2 = [] ∧
        rake.Inserted 1 5 9 g := by
  have hrake : rake.Sound :=
    ((((sound_twig 0 1).addChild 1 _).addChild 1 _).addChild 2 _).forest
  refine ⟨by decide, ?_, ?_⟩
  · obtain ⟨g, hg, _, hinserted⟩ := insertAt_inserted (p := 1) (c := 2) hrake rfl rfl (by decide) 1
    exact ⟨g, hg, hinserted.children, hinserted⟩
  · obtain ⟨g, hg, _, hinserted⟩ := insertAt_inserted (p := 1) (c := 5) hrake rfl rfl (by decide) 9
    exact ⟨g, hg, hinserted.children, hinserted.left 2 rfl (by decide), hinserted⟩

end TreeDelta.Forest
