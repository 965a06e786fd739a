import Std.Data.HashSet.Lemmas
import TreeDelta.Proofs.Lockstep
import TreeDelta.Proofs.Relinking
import TreeDelta.Proofs.Roses
import TreeDelta.Proofs.Traversal

namespace TreeDelta

open Relator (BiUnique)

namespace Rose

variable {α β γ : Type} {r : α → β → Prop} {t : Rose α} {u : Rose β}

open Classical in
def Related (r : α → β → Prop) (t : Rose α) (u : Rose β) : Prop :=
  agree (fun a b => decide (r a b)) t u

theorem related_node {a : α} {b : β} {as : List (Rose α)} {bs : List (Rose β)} :
    Related r (node a as) (node b bs) ↔ r a b ∧ List.Forall₂ (Related r) as bs := by
  simp only [Related, agree_node, decide_eq_true_eq]
  rfl

namespace Related

theorem size_eq (h : Related r t u) : t.size = u.size := Rose.size_eq h

theorem height_eq (h : Related r t u) : t.height = u.height := Rose.height_eq h

theorem preorder (h : Related r t u) : List.Forall₂ r t.preorder u.preorder :=
  (Rose.forall₂_preorder h).imp fun _ _ hab => by simpa using hab

theorem descendants (h : Related r t u) : List.Forall₂ r t.descendants u.descendants := by
  have hpre := h.preorder
  rw [preorder_eq_cons, preorder_eq_cons] at hpre
  exact forall₂_tail hpre

theorem map_eq_map (h : Related r t u) {f : α → γ} {g : β → γ} (hfg : ∀ a b, r a b → f a = g b) :
    t.map f = u.map g := by
  induction t using induct generalizing u with
  | node a as ih =>
      obtain ⟨b, bs⟩ := u
      obtain ⟨hab, hrest⟩ := related_node.1 h
      rw [map_node, map_node, hfg a b hab]
      congr 1
      exact (hrest.imp_of_mem fun c hc d hcd => ih c hc hcd).map_eq_map fun c d hcd => hcd

theorem of_map_eq_map {f : α → γ} {g : β → γ} (h : t.map f = u.map g) :
    Related (fun a b => f a = g b) t u := by
  induction t using induct generalizing u with
  | node a as ih =>
      obtain ⟨b, bs⟩ := u
      rw [map_node, map_node, node.injEq, ← List.forall₂_eq_eq_eq, List.forall₂_map_left_iff,
        List.forall₂_map_right_iff] at h
      exact related_node.2 ⟨h.1, h.2.imp_of_mem fun c hc d hcd => ih c hc hcd⟩

theorem postorder (h : Related r t u) : List.Forall₂ r t.postorder u.postorder := by
  induction t using induct generalizing u with
  | node a as ih =>
      obtain ⟨b, bs⟩ := u
      obtain ⟨hab, hrest⟩ := related_node.1 h
      rw [postorder_node, postorder_node]
      refine List.rel_append ?_ (.cons hab .nil)
      exact List.rel_flatMap (hrest.imp_of_mem fun c hc d hcd => ih c hc hcd) fun c d hcd => hcd

end Related

theorem forall₂_joinRows {xs ys : List (List α)} {xs' ys' : List (List β)}
    (hx : List.Forall₂ (List.Forall₂ r) xs xs') (hy : List.Forall₂ (List.Forall₂ r) ys ys') :
    List.Forall₂ (List.Forall₂ r) (joinRows xs ys) (joinRows xs' ys') := by
  induction hx generalizing ys ys' with
  | nil => exact hy
  | cons hrow hrows ih =>
      cases hy with
      | nil => exact .cons hrow hrows
      | cons hrow' hrows' => exact .cons (List.rel_append hrow hrow') (ih hrows')

theorem Related.levels (h : Related r t u) : List.Forall₂ (List.Forall₂ r) t.levels u.levels := by
  induction t using induct generalizing u with
  | node a as ih =>
      obtain ⟨b, bs⟩ := u
      obtain ⟨hab, hrest⟩ := related_node.1 h
      have hall : List.Forall₂ (List.Forall₂ r) (levelsAll as) (levelsAll bs) := by
        clear h
        induction hrest with
        | nil => exact .nil
        | @cons c d cs ds hcd _ ihrest =>
            exact forall₂_joinRows (ih c (by simp) hcd) (ihrest fun e he => ih e (by simp [he]))
      exact .cons (.cons hab .nil) hall

theorem Related.breadthFirst (h : Related r t u) :
    List.Forall₂ r t.breadthFirst u.breadthFirst :=
  List.rel_flatten h.levels

end Rose

structure Node.Renamed (r : NodeId → NodeId → Prop) (m n : Node) : Prop where
  content : m.info.toContent = n.info.toContent
  parent : Option.Rel r m.parent n.parent
  children : List.Forall₂ r m.children n.children

namespace Forest

variable {r : NodeId → NodeId → Prop} {f g : Forest} {a b c d p q : NodeId}

/-- Related nodes correspond: they carry one content, and the parents and children of
corresponding nodes correspond. -/
structure Renamed (r : NodeId → NodeId → Prop) (f g : Forest) : Prop where
  left : f.Sound
  right : g.Sound
  unique : BiUnique r
  has_iff : ∀ {a b}, r a b → (f.has a ↔ g.has b)
  parent : ∀ {a b}, r a b → Option.Rel r (f.parent? a) (g.parent? b)
  children : ∀ {a b}, r a b → List.Forall₂ r (f.childrenOf a) (g.childrenOf b)
  content : ∀ {a b}, r a b → f.contentOf a = g.contentOf b

theorem climb_eq_takeWhile (f : Forest) (keep : NodeId → Bool) (n : Nat) (start : Option NodeId) :
    f.climb keep n start = (f.way n start).takeWhile keep := by
  induction n generalizing start with
  | zero => simp [climb]
  | succ n ih =>
      cases start with
      | none => simp [climb]
      | some id => rw [way_succ, List.takeWhile_cons, climb, ih]

theorem givesOr_node (f : Forest) (a : NodeId) :
    GivesOr (fun _ => True) (f.node a) fun _ => f.has a := by
  by_cases ha : f.has a
  · rw [node_eq_ok ha]
    exact .ok ha
  · rw [node, Option.not_isSome_iff_eq_none.1 ha]
    exact .inr ⟨_, rfl, trivial⟩

theorem related_subtree_iff (hf : f.Sound) (hg : g.Sound) :
    (f.subtree a).Related r (g.subtree b) ↔ r a b ∧
      List.Forall₂ (fun x y => (f.subtree x).Related r (g.subtree y))
        (f.childrenOf a) (g.childrenOf b) := by
  rw [hf.subtree_eq, hg.subtree_eq, Rose.related_node, List.forall₂_map_left_iff,
    List.forall₂_map_right_iff]

namespace Renamed

theorem node (h : Renamed r f g) (hab : r a b) :
    Lockstep (Node.Renamed r) (f.node a) (g.node b) := by
  by_cases ha : f.has a
  · rw [node_eq_ok ha, node_eq_ok ((h.has_iff hab).1 ha)]
    refine .ok ⟨?_, h.parent hab, h.children hab⟩
    rw [← contentOf_eq, ← contentOf_eq, h.content hab]
  · have hb : ¬ g.has b := mt (h.has_iff hab).2 ha
    rw [Forest.node, Option.not_isSome_iff_eq_none.1 ha, Forest.node,
      Option.not_isSome_iff_eq_none.1 hb]
    exact .error _

theorem subtree (h : Renamed r f g) (hab : r a b) : (f.subtree a).Related r (g.subtree b) := by
  induction a using h.left.induction_children generalizing b with
  | step a ih =>
      refine (related_subtree_iff h.left h.right).2 ⟨hab, ?_⟩
      exact (h.children hab).imp_of_mem fun c hc d hcd => ih c hc hcd

theorem contentTree_eq (h : Renamed r f g) (hab : r a b) :
    f.contentTree a = g.contentTree b :=
  (h.subtree hab).map_eq_map fun _ _ hxy => h.content hxy

theorem ancestors (h : Renamed r f g) (hab : r a b) :
    List.Forall₂ r (f.ancestors a) (g.ancestors b) := by
  induction hn : (f.ancestors a).length generalizing a b with
  | zero =>
      rcases (h.parent hab).cases with ⟨hp, hq⟩ | ⟨p, q, hp, hq, hpq⟩
      · rw [ancestors_eq_nil hp, ancestors_eq_nil hq]
        exact .nil
      · rw [h.left.length_ancestors hp] at hn
        cases hn
  | succ n ih =>
      rcases (h.parent hab).cases with ⟨hp, hq⟩ | ⟨p, q, hp, hq, hpq⟩
      · rw [ancestors_eq_nil hp] at hn
        cases hn
      · rw [h.left.length_ancestors hp, Nat.succ.injEq] at hn
        rw [h.left.ancestors_of_parent? hp, h.right.ancestors_of_parent? hq]
        exact .cons hpq (ih hpq hn)

theorem ancestorsWhile (h : Renamed r f g) (hab : r a b) {keep keep' : NodeId → Bool}
    (hkeep : ∀ x y, r x y → keep x = keep' y) :
    List.Forall₂ r (f.ancestorsWhile keep a) (g.ancestorsWhile keep' b) := by
  rw [Forest.ancestorsWhile, Forest.ancestorsWhile, climb_eq_takeWhile, climb_eq_takeWhile]
  exact (h.ancestors hab).takeWhile hkeep

theorem position_eq (h : Renamed r f g) (hab : r a b) : f.position a = g.position b := by
  unfold position
  rcases (h.parent hab).cases with ⟨hp, hq⟩ | ⟨p, q, hp, hq, hpq⟩
  · rw [hp, hq]
  · rw [hp, hq]
    exact (h.children hpq).idxOf_eq h.unique hab

theorem linkable_eq (h : Renamed r f g) (hpq : r p q) (hcd : r c d) :
    f.linkable p c = g.linkable q d := by
  have hhas : ∀ {x y}, r x y → f.has x = g.has y := fun hxy => Bool.eq_iff_iff.2 (h.has_iff hxy)
  rw [linkable, linkable, hhas hpq, hhas hcd,
    (List.Forall₂.cons hpq (h.ancestors hpq)).contains_eq h.unique hcd]

theorem eq_iff (h : Renamed r f g) (hab : r a b) (hcd : r c d) : a = c ↔ b = d :=
  Relator.rel_eq h.unique hab hcd

theorem place (h : Renamed r f g) (hpq : r p q) (hcd : r c d) (hlink : f.linkable p c) (i : Nat) :
    Renamed r (f.place p c i) (g.place q d i) := by
  obtain ⟨hp, hc, hcp⟩ := h.left.linkable_iff.1 hlink
  obtain ⟨hq, hd, hdq⟩ := h.right.linkable_iff.1 ((h.linkable_eq hpq hcd).symm.trans hlink)
  refine ⟨h.left.place hp hc hcp i, h.right.place hq hd hdq i, h.unique, ?_, ?_, ?_, ?_⟩
  · intro a b hab
    rw [has_congr (size_place f p c i), has_congr (size_place g q d i), h.has_iff hab]
  · intro a b hab
    rw [parent?_place f p hc, parent?_place g q hd]
    simp only [h.eq_iff hcd hab]
    split
    · exact .some hpq
    · exact h.parent hab
  · intro a b hab
    have hold : ∀ {x y}, r x y → List.Forall₂ r ((f.childrenOf x).erase c) ((g.childrenOf y).erase d) :=
      fun hxy => (h.children hxy).erase h.unique hcd
    rw [h.left.childrenOf_place hp, h.right.childrenOf_place hq]
    simp only [h.eq_iff hpq hab]
    split
    · exact List.rel_append (List.forall₂_take i (hold hpq))
        (.cons hcd (List.forall₂_drop i (hold hpq)))
    · exact hold hab
  · intro a b hab
    rw [contentOf_place, contentOf_place, h.content hab]

theorem insertAt (h : Renamed r f g) (hpq : r p q) (hcd : r c d) (i : Nat) :
    Lockstep (fun f' g' => Renamed r f' g' ∧ f'.size = f.size ∧ g'.size = g.size)
      (f.insertAt p c i) (g.insertAt q d i) := by
  rw [Forest.insertAt, Forest.insertAt, ← h.linkable_eq hpq hcd]
  split
  · next hlink => exact .ok ⟨h.place hpq hcd hlink i, size_place .., size_place ..⟩
  · exact .error _

theorem detach (h : Renamed r f g) (hcd : r c d) : Renamed r (f.detach c) (g.detach d) := by
  refine ⟨h.left.detach c, h.right.detach d, h.unique, ?_, ?_, ?_, ?_⟩
  · intro a b hab
    rw [has_congr (size_detach f c), has_congr (size_detach g d), h.has_iff hab]
  · intro a b hab
    rw [parent?_detach, parent?_detach]
    simp only [h.eq_iff hcd hab]
    split
    · exact .none
    · exact h.parent hab
  · intro a b hab
    rw [h.left.childrenOf_detach, h.right.childrenOf_detach]
    exact (h.children hab).erase h.unique hcd
  · intro a b hab
    rw [contentOf_detach, contentOf_detach, h.content hab]

theorem alloc (h : Renamed r f g) {info info' : NodeInfo} (hnew : r (f.size + 1) (g.size + 1))
    (hinfo : info.toContent = info'.toContent) : Renamed r (f.alloc info).2 (g.alloc info').2 := by
  refine ⟨h.left.alloc info, h.right.alloc info', h.unique, ?_, ?_, ?_, ?_⟩
  · intro a b hab
    rw [has_alloc_iff, has_alloc_iff, h.eq_iff hab hnew, h.has_iff hab]
  · intro a b hab
    rw [parent?_alloc, parent?_alloc]
    exact h.parent hab
  · intro a b hab
    rw [childrenOf_alloc, childrenOf_alloc]
    exact h.children hab
  · intro a b hab
    rw [contentOf_eq, contentOf_eq, infoOf_alloc, infoOf_alloc]
    simp only [h.eq_iff hab hnew]
    split
    · exact hinfo
    · rw [← contentOf_eq, ← contentOf_eq, h.content hab]

theorem modify_info (h : Renamed r f g) (hab : r a b) (ha : f.has a) {u : NodeInfo → NodeInfo}
    (hu : ∀ i i', (u i).toContent = (u i').toContent) :
    Renamed r (f.modify a fun n => { n with info := u n.info })
      (g.modify b fun n => { n with info := u n.info }) := by
  have hb : g.has b := (h.has_iff hab).1 ha
  refine ⟨h.left.modify_info a u, h.right.modify_info b u, h.unique, ?_, ?_, ?_, ?_⟩
  · intro x y hxy
    rw [has_congr (size_modify f a _), has_congr (size_modify g b _), h.has_iff hxy]
  · intro x y hxy
    rw [parent?_modify_info, parent?_modify_info]
    exact h.parent hxy
  · intro x y hxy
    rw [childrenOf_modify_info, childrenOf_modify_info]
    exact h.children hxy
  · intro x y hxy
    rw [contentOf_eq, contentOf_eq, infoOf_modify_info f ha, infoOf_modify_info g hb]
    simp only [h.eq_iff hab hxy]
    split
    · exact hu _ _
    · rw [← contentOf_eq, ← contentOf_eq, h.content hxy]

end Renamed

end Forest

def SameMembers (r : NodeId → NodeId → Prop) (x y : Std.HashSet NodeId) : Prop :=
  ∀ a b, r a b → x.contains a = y.contains b

namespace SameMembers

variable {r : NodeId → NodeId → Prop} {x y : Std.HashSet NodeId} {a b : NodeId}
  {l l' : List NodeId}

theorem empty : SameMembers r ∅ ∅ := fun _ _ _ => by simp

theorem ofList (hr : BiUnique r) (hl : List.Forall₂ r l l') :
    SameMembers r (.ofList l) (.ofList l') := by
  intro c d hcd
  rw [Std.HashSet.contains_ofList, Std.HashSet.contains_ofList, hl.contains_eq hr hcd]

theorem insert (h : SameMembers r x y) (hr : BiUnique r) (hab : r a b) :
    SameMembers r (x.insert a) (y.insert b) := by
  intro c d hcd
  rw [Std.HashSet.contains_insert, Std.HashSet.contains_insert, hr.beq_eq hab hcd, h c d hcd]

theorem erase (h : SameMembers r x y) (hr : BiUnique r) (hab : r a b) :
    SameMembers r (x.erase a) (y.erase b) := by
  intro c d hcd
  rw [Std.HashSet.contains_erase, Std.HashSet.contains_erase, hr.beq_eq hab hcd, h c d hcd]

theorem insertMany (h : SameMembers r x y) (hr : BiUnique r) (hl : List.Forall₂ r l l') :
    SameMembers r (x.insertMany l) (y.insertMany l') := by
  intro c d hcd
  rw [Std.HashSet.contains_insertMany_list, Std.HashSet.contains_insertMany_list, h c d hcd,
    hl.contains_eq hr hcd]

theorem foldl_insert (h : SameMembers r x y) (hr : BiUnique r) (hl : List.Forall₂ r l l') :
    SameMembers r (l.foldl Std.HashSet.insert x) (l'.foldl Std.HashSet.insert y) := by
  induction hl generalizing x y with
  | nil => exact h
  | cons hab _ ih => exact ih (h.insert hr hab)

theorem foldl_erase (h : SameMembers r x y) (hr : BiUnique r) (hl : List.Forall₂ r l l') :
    SameMembers r (l.foldl Std.HashSet.erase x) (l'.foldl Std.HashSet.erase y) := by
  induction hl generalizing x y with
  | nil => exact h
  | cons hab _ ih => exact ih (h.erase hr hab)

end SameMembers

end TreeDelta
