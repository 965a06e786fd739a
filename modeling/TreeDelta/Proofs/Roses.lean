import Mathlib.Data.List.Forall2
import TreeDelta.Rose

namespace TreeDelta

theorem forall₂_exists_of_mem {α β : Type} {R : α → β → Prop} {as : List α} {bs : List β}
    (h : List.Forall₂ R as bs) {a : α} (ha : a ∈ as) : ∃ b ∈ bs, R a b := by
  induction h with
  | nil => cases ha
  | cons hab _ ih =>
      rcases List.mem_cons.1 ha with rfl | ha
      · exact ⟨_, by simp, hab⟩
      · obtain ⟨b, hb, hab⟩ := ih ha
        exact ⟨b, List.mem_cons_of_mem _ hb, hab⟩

namespace Rose

variable {α β γ δ : Type}

theorem map_congr {f g : α → β} {t : Rose α} (h : ∀ a ∈ t.preorder, f a = g a) :
    t.map f = t.map g := by
  induction t using induct with
  | node a cs ih =>
      rw [preorder_node] at h
      rw [map_node, map_node, h a (by simp)]
      congr 1
      refine List.map_congr_left fun c hc => ih c hc fun b hb => h b ?_
      exact List.mem_cons_of_mem _ (List.mem_flatMap.2 ⟨c, hc, hb⟩)

theorem map_map (f : α → β) (g : β → γ) (t : Rose α) : (t.map f).map g = t.map (g ∘ f) := by
  induction t using induct with
  | node a cs ih =>
      rw [map_node, map_node, map_node, List.map_map]
      congr 1
      exact List.map_congr_left ih

theorem map_id (t : Rose α) : t.map id = t := by
  induction t using induct with
  | node a cs ih => rw [map_node, List.map_congr_left ih, List.map_id', id]

theorem value_map (f : α → β) (t : Rose α) : (t.map f).value = f t.value := by
  cases t with
  | node a cs => rw [map_node]; rfl

theorem preorder_eq_cons (t : Rose α) : t.preorder = t.value :: t.descendants := by
  cases t with
  | node a cs => rw [preorder_node, descendants_node]; rfl

theorem length_descendants (t : Rose α) : t.descendants.length + 1 = t.size := by
  rw [← length_preorder, preorder_eq_cons, List.length_cons]

theorem size_pos (t : Rose α) : 0 < t.size := by
  rw [← length_descendants]
  exact Nat.succ_pos _

theorem preorder_map (f : α → β) (t : Rose α) : (t.map f).preorder = t.preorder.map f := by
  induction t using induct with
  | node a cs ih =>
      rw [map_node, preorder_node, preorder_node, List.map_cons, List.flatMap_map, List.map_flatMap]
      congr 1
      exact List.flatMap_congr ih

theorem size_map (f : α → β) (t : Rose α) : (t.map f).size = t.size := by
  rw [← length_preorder, preorder_map, List.length_map, length_preorder]

variable {r r' : α → β → Bool} {t : Rose α} {u : Rose β}

theorem agreeAll_iff {as : List (Rose α)} {bs : List (Rose β)} :
    agreeAll r as bs ↔ List.Forall₂ (fun a b => agree r a b) as bs := by
  induction as generalizing bs with
  | nil => cases bs <;> simp [agreeAll]
  | cons a as ih => cases bs <;> simp [agreeAll, ih]

@[simp] theorem agree_node {a : α} {b : β} {as : List (Rose α)} {bs : List (Rose β)} :
    agree r (node a as) (node b bs) ↔ r a b ∧ List.Forall₂ (fun a b => agree r a b) as bs := by
  rw [agree, Bool.and_eq_true, agreeAll_iff]

theorem forall₂_preorder (h : agree r t u) : List.Forall₂ (fun a b => r a b) t.preorder u.preorder := by
  induction t using induct generalizing u with
  | node a as ih =>
      obtain ⟨b, bs⟩ := u
      obtain ⟨hab, hrest⟩ := agree_node.1 h
      rw [preorder_node, preorder_node]
      refine .cons hab ?_
      clear h
      induction hrest with
      | nil => exact .nil
      | @cons c d cs ds hcd _ ihrest =>
          rw [List.flatMap_cons, List.flatMap_cons]
          exact List.rel_append (ih c (by simp) hcd) (ihrest fun e he => ih e (by simp [he]))

theorem size_eq (h : agree r t u) : t.size = u.size := by
  rw [← length_preorder, ← length_preorder, (forall₂_preorder h).length_eq]

theorem height_eq (h : agree r t u) : t.height = u.height := by
  induction t using induct generalizing u with
  | node a as ih =>
      obtain ⟨b, bs⟩ := u
      obtain ⟨_, hrest⟩ := agree_node.1 h
      rw [height, height]
      clear h
      induction hrest with
      | nil => rfl
      | @cons c d cs ds hcd _ ihrest =>
          rw [heightAll, heightAll, ih c (by simp) hcd, ihrest fun e he => ih e (by simp [he])]

theorem agree_of_zip (h : agree r t u) (hr : ∀ x ∈ t.preorder.zip u.preorder, r' x.1 x.2) :
    agree r' t u := by
  induction t using induct generalizing u with
  | node a as ih =>
      obtain ⟨b, bs⟩ := u
      obtain ⟨_, hrest⟩ := agree_node.1 h
      rw [preorder_node, preorder_node, List.zip_cons_cons, List.forall_mem_cons] at hr
      obtain ⟨hab, hr⟩ := hr
      refine agree_node.2 ⟨hab, ?_⟩
      clear h
      induction hrest with
      | nil => exact .nil
      | @cons c d cs ds hcd _ ihrest =>
          rw [List.flatMap_cons, List.flatMap_cons,
            List.zip_append (forall₂_preorder hcd).length_eq, List.forall_mem_append] at hr
          exact .cons (ih c (by simp) hcd hr.1) (ihrest (fun e he => ih e (by simp [he])) hr.2)

theorem agree_mono (h : agree r t u)
    (hr : ∀ a ∈ t.preorder, ∀ b ∈ u.preorder, r a b → r' a b) : agree r' t u := by
  induction t using induct generalizing u with
  | node a as ih =>
      obtain ⟨b, bs⟩ := u
      obtain ⟨hab, hrest⟩ := agree_node.1 h
      rw [preorder_node, preorder_node] at hr
      refine agree_node.2 ⟨hr a (by simp) b (by simp) hab, ?_⟩
      rw [List.forall₂_iff_get] at hrest ⊢
      refine ⟨hrest.1, fun i hi hi' => ih _ (List.get_mem _ _) (hrest.2 i hi hi') ?_⟩
      intro c hc d hd
      exact hr c (List.mem_cons_of_mem _ (List.mem_flatMap.2 ⟨_, List.get_mem _ _, hc⟩)) d
        (List.mem_cons_of_mem _ (List.mem_flatMap.2 ⟨_, List.get_mem _ _, hd⟩))

theorem agree_map {r : γ → δ → Bool} (f : α → γ) (g : β → δ) (t : Rose α) (u : Rose β) :
    agree r (t.map f) (u.map g) ↔ agree (fun a b => r (f a) (g b)) t u := by
  induction t using induct generalizing u with
  | node a as ih =>
      obtain ⟨b, bs⟩ := u
      rw [map_node, map_node, agree_node, agree_node, List.forall₂_map_left_iff,
        List.forall₂_map_right_iff, List.forall₂_iff_get, List.forall₂_iff_get]
      refine and_congr_right fun _ => and_congr_right fun _ => ?_
      exact forall_congr' fun i => forall_congr' fun hi => forall_congr' fun _ =>
        ih _ (List.get_mem as ⟨i, hi⟩) _

theorem agree_eq_iff [DecidableEq α] {t u : Rose α} : agree (· == ·) t u ↔ t = u := by
  induction t using induct generalizing u with
  | node a as ih =>
      obtain ⟨b, bs⟩ := u
      rw [agree_node, beq_iff_eq, node.injEq]
      refine and_congr_right fun _ => ?_
      induction as generalizing bs with
      | nil => cases bs <;> simp
      | cons c as ihs =>
          cases bs with
          | nil => simp
          | cons d bs =>
              rw [List.forall₂_cons, List.cons.injEq, ih c (by simp),
                ihs (fun e he => ih e (by simp [he])) bs]

end Rose

end TreeDelta
