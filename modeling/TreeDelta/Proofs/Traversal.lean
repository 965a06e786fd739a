import Mathlib.Data.List.Flatten
import TreeDelta.Proofs.Linked

namespace TreeDelta

section Respects

variable {α : Type} {needs : α → List α}

def Respects (needs : α → List α) (l : List α) : Prop :=
  ∀ pre x post, l = pre ++ x :: post → ∀ y ∈ needs x, y ∈ pre

theorem Respects.nil : Respects needs [] := by
  intro pre x post h
  simp at h

theorem Respects.extend {l l' : List α} (h : Respects needs l)
    (h' : ∀ pre x post, l' = pre ++ x :: post → ∀ y ∈ needs x, y ∈ l ++ pre) :
    Respects needs (l ++ l') := by
  intro pre x post hsplit y hy
  rcases List.append_eq_append_iff.1 hsplit with ⟨mid, rfl, htail⟩ | ⟨mid, hpre, htail⟩
  · exact h' mid x post htail y hy
  · cases mid with
    | nil =>
        have := h' [] x post (by simpa using htail.symm) y hy
        simpa [hpre] using this
    | cons z mid =>
        obtain ⟨rfl, rfl⟩ := List.cons_eq_cons.1 htail
        exact h pre x mid hpre y hy

theorem Respects.append {l l' : List α} (h : Respects needs l) (h' : Respects needs l') :
    Respects needs (l ++ l') :=
  h.extend fun pre x post hsplit y hy => List.mem_append_right _ (h' pre x post hsplit y hy)

theorem Respects.extend_of_subset {l l' : List α} (h : Respects needs l)
    (h' : ∀ x ∈ l', needs x ⊆ l) : Respects needs (l ++ l') :=
  h.extend fun _ x _ hsplit _ hy => List.mem_append_left _ (h' x (by simp [hsplit]) hy)

theorem Respects.flatMap {β : Type} {g : β → List α} {xs : List β}
    (h : ∀ x ∈ xs, Respects needs (g x)) : Respects needs (xs.flatMap g) := by
  induction xs with
  | nil => exact .nil
  | cons x xs ih =>
      rw [List.flatMap_cons]
      exact (h x (by simp)).append (ih fun y hy => h y (by simp [hy]))

/-- Rows of which each one needs only what is in the row before; the first one needs what is in
`above`. -/
def Descends (needs : α → List α) : List (List α) → List α → Prop
  | [], _ => True
  | row :: rows, above => (∀ x ∈ row, needs x ⊆ above) ∧ Descends needs rows row

theorem Descends.mono {rows : List (List α)} {above above' : List α}
    (h : Descends needs rows above) (hsub : above ⊆ above') : Descends needs rows above' := by
  cases rows with
  | nil => trivial
  | cons row rows => exact ⟨fun x hx => List.Subset.trans (h.1 x hx) hsub, h.2⟩

theorem Descends.joinRows {xs ys : List (List α)} {above : List α}
    (hx : Descends needs xs above) (hy : Descends needs ys above) :
    Descends needs (Rose.joinRows xs ys) above := by
  fun_induction Rose.joinRows xs ys generalizing above with
  | case1 ys => exact hy
  | case2 xs _ => exact hx
  | case3 x xs y ys ih =>
      refine ⟨fun z hz => ?_, ih (hx.2.mono (List.subset_append_left x y))
        (hy.2.mono (List.subset_append_right x y))⟩
      rcases List.mem_append.1 hz with hz | hz
      · exact hx.1 z hz
      · exact hy.1 z hz

theorem Descends.respects {rows : List (List α)} {above l : List α}
    (h : Descends needs rows above) (hl : Respects needs l) (hsub : above ⊆ l) :
    Respects needs (l ++ rows.flatten) := by
  induction rows generalizing above l with
  | nil => simpa using hl
  | cons row rows ih =>
      have hrow : Respects needs (l ++ row) := by
        apply hl.extend_of_subset
        intro x hx
        exact List.Subset.trans (h.1 x hx) hsub
      simpa using ih h.2 hrow (List.subset_append_right l row)

end Respects

namespace Rose

variable {α : Type}

theorem joinRows_flatten_perm (xs ys : List (List α)) :
    (joinRows xs ys).flatten.Perm (xs.flatten ++ ys.flatten) := by
  fun_induction joinRows xs ys with
  | case1 ys => exact .refl _
  | case2 xs _ => simp
  | case3 x xs y ys ih =>
      simp only [List.flatten_cons, List.append_assoc]
      refine .append_left x ((ih.append_left y).trans ?_)
      rw [← List.append_assoc, ← List.append_assoc]
      exact List.perm_append_comm.append_right _

theorem breadthFirst_perm (t : Rose α) : t.breadthFirst.Perm t.preorder := by
  induction t using induct with
  | node a cs ih =>
      have hall : (levelsAll cs).flatten.Perm (cs.flatMap preorder) := by
        induction cs with
        | nil => exact .refl _
        | cons c cs ihcs =>
            rw [levelsAll, List.flatMap_cons]
            refine (joinRows_flatten_perm _ _).trans ((ih c (by simp)).append ?_)
            exact ihcs fun d hd => ih d (by simp [hd])
      rw [breadthFirst, levels, List.flatten_cons, preorder_node]
      exact hall.cons a

theorem postorder_perm (t : Rose α) : t.postorder.Perm t.preorder := by
  induction t using induct with
  | node a cs ih =>
      rw [postorder_node, preorder_node]
      exact (List.perm_append_singleton a _).trans ((List.Perm.flatMap_left cs ih).cons a)

end Rose

namespace Forest.Sound

variable {f : Forest} {a b : NodeId}

theorem mem_postorder_iff (h : f.Sound) : b ∈ (f.subtree a).postorder ↔ f.Under a b := by
  rw [(f.subtree a).postorder_perm.mem_iff, h.mem_preorder_iff]

theorem mem_breadthFirst_iff (h : f.Sound) : b ∈ (f.subtree a).breadthFirst ↔ f.Under a b := by
  rw [(f.subtree a).breadthFirst_perm.mem_iff, h.mem_preorder_iff]

theorem nodup_breadthFirst (h : f.Sound) (a : NodeId) : (f.subtree a).breadthFirst.Nodup :=
  (f.subtree a).breadthFirst_perm.nodup_iff.2 (h.nodup_preorder a)

theorem respects_postorder (h : f.Sound) (a : NodeId) :
    Respects f.childrenOf (f.subtree a).postorder := by
  induction a using h.induction_children with
  | step a ih =>
      rw [h.postorder_subtree]
      refine (Respects.flatMap ih).extend_of_subset fun x hx c hc => ?_
      rw [List.mem_singleton.1 hx] at hc
      exact List.mem_flatMap.2 ⟨c, hc, h.mem_postorder_iff.2 .refl⟩

theorem descends_levels (h : f.Sound) (a : NodeId) :
    Descends (fun x => (f.parent? x).toList) (f.subtree a).levels (f.parent? a).toList := by
  induction a using h.induction_children with
  | step a ih =>
      rw [h.subtree_eq, Rose.levels]
      refine ⟨fun x hx => by rw [List.mem_singleton.1 hx]; exact List.Subset.refl _, ?_⟩
      have hall : ∀ cs : List NodeId, (∀ c ∈ cs, c ∈ f.childrenOf a) →
          Descends (fun x => (f.parent? x).toList) (Rose.levelsAll (cs.map f.subtree)) [a] := by
        intro cs
        induction cs with
        | nil => intro _; trivial
        | cons c cs ihcs =>
            intro hcs
            have hc := hcs c (by simp)
            have hparent : (f.parent? c).toList = [a] := by rw [(h.mem_children a c).1 hc]; rfl
            rw [List.map_cons, Rose.levelsAll]
            exact (hparent ▸ ih c hc).joinRows (ihcs fun d hd => hcs d (by simp [hd]))
      exact hall _ fun c hc => hc

theorem respects_breadthFirst (h : f.Sound) (ha : f.parent? a = none) :
    Respects (fun x => (f.parent? x).toList) (f.subtree a).breadthFirst := by
  have hd := h.descends_levels a
  rw [ha] at hd
  simpa [Rose.breadthFirst] using hd.respects .nil (List.Subset.refl _)

end Forest.Sound

end TreeDelta
