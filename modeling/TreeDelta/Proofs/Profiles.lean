import TreeDelta.Proofs.SubtreeCopies

namespace TreeDelta

namespace Rose

variable {α β : Type} {r : α → β → Bool} {t : Rose α} {u : Rose β}

mutual
def profile : Rose α → List (α × Nat)
  | .node a cs => profileAll cs ++ [(a, sizeAll cs + 1)]
def profileAll : List (Rose α) → List (α × Nat)
  | [] => []
  | c :: cs => profile c ++ profileAll cs
end

theorem profileAll_eq (cs : List (Rose α)) : profileAll cs = cs.flatMap profile := by
  induction cs with
  | nil => rfl
  | cons c cs ih => rw [profileAll, ih, List.flatMap_cons]

theorem profile_node (a : α) (cs : List (Rose α)) :
    (node a cs).profile = cs.flatMap profile ++ [(a, (node a cs).size)] := by
  rw [profile, profileAll_eq, size_node]

theorem length_profile (t : Rose α) : t.profile.length = t.size := by
  induction t using induct with
  | node a cs ih =>
      rw [profile_node, List.length_append, length_flatMap ih, List.length_singleton, size_node]

/-- The last entry cuts off the last tree. This leaves two shorter rows with one profile each: the
children of that tree, and the trees before it. -/
theorem eq_of_flatMap_profile_eq {ts us : List (Rose α)}
    (h : ts.flatMap profile = us.flatMap profile) : ts = us := by
  generalize hn : (ts.flatMap profile).length = n
  induction n using Nat.strong_induction_on generalizing ts us with
  | _ n ih =>
      rcases ts.eq_nil_or_concat' with rfl | ⟨ts, ⟨a, as⟩, rfl⟩ <;>
        rcases us.eq_nil_or_concat' with rfl | ⟨us, ⟨b, bs⟩, rfl⟩
      · rfl
      · simp [profile_node] at h
      · simp [profile_node] at h
      · simp only [List.flatMap_append, List.flatMap_singleton, profile_node,
          ← List.append_assoc] at h hn
        obtain ⟨hbefore, hlast⟩ := List.append_inj' h rfl
        obtain ⟨rfl, hsize⟩ : a = b ∧ (node a as).size = (node b bs).size := by simpa using hlast
        have hlen : (as.flatMap profile).length = (bs.flatMap profile).length := by
          rw [length_flatMap fun c _ => c.length_profile, length_flatMap fun c _ => c.length_profile]
          simpa using hsize
        obtain ⟨houter, hinner⟩ := List.append_inj' hbefore hlen
        simp only [List.length_append, List.length_singleton] at hn
        rw [ih _ (by omega) houter rfl, ih _ (by omega) hinner rfl]

theorem profile_inj {t u : Rose α} : t.profile = u.profile ↔ t = u := by
  constructor
  · intro h
    have hrow : [t] = [u] := eq_of_flatMap_profile_eq (by simpa using h)
    exact List.head_eq_of_cons_eq hrow
  · rintro rfl
    rfl

theorem postorder_map (f : α → β) (t : Rose α) : (t.map f).postorder = t.postorder.map f := by
  induction t using induct with
  | node a cs ih =>
      rw [map_node, postorder_node, postorder_node, List.map_append, List.flatMap_map,
        List.map_flatMap, List.flatMap_congr ih]
      rfl

theorem exists_pairs (h : agree r t u) :
    ∃ w : Rose (α × β), w.map Prod.fst = t ∧ w.map Prod.snd = u := by
  induction t using induct generalizing u with
  | node a as ih =>
      obtain ⟨b, bs⟩ := u
      obtain ⟨_, hrest⟩ := agree_node.1 h
      have hchildren : ∃ ws : List (Rose (α × β)),
          ws.map (map Prod.fst) = as ∧ ws.map (map Prod.snd) = bs := by
        clear h
        induction hrest with
        | nil => exact ⟨[], rfl, rfl⟩
        | @cons c d cs ds hcd _ ihrest =>
            obtain ⟨w, rfl, rfl⟩ := ih c (by simp) hcd
            obtain ⟨ws, rfl, rfl⟩ := ihrest fun e he => ih e (by simp [he])
            exact ⟨w :: ws, rfl, rfl⟩
      obtain ⟨ws, rfl, rfl⟩ := hchildren
      exact ⟨.node (a, b) ws, map_node .., map_node ..⟩

theorem zip_postorder_perm (h : agree r t u) :
    (t.postorder.zip u.postorder).Perm (t.preorder.zip u.preorder) := by
  have hzip (l : List (α × β)) : (l.map Prod.fst).zip (l.map Prod.snd) = l :=
    (List.zip_of_prod rfl rfl).symm
  obtain ⟨w, rfl, rfl⟩ := exists_pairs h
  rw [postorder_map, postorder_map, preorder_map, preorder_map, hzip, hzip]
  exact w.postorder_perm

end Rose

theorem Forest.Sound.profile_contentTree {f : Forest} (h : f.Sound) (a : NodeId) :
    (f.contentTree a).profile =
      (f.subtree a).postorder.map fun x => (f.contentOf x, (f.subtree x).size) := by
  induction a using h.induction_children with
  | step a ih =>
      have hsize : (f.contentTree a).size = (f.subtree a).size := Rose.size_map ..
      rw [h.contentTree_node] at hsize ⊢
      rw [Rose.profile_node, hsize, h.postorder_subtree, List.map_append, List.flatMap_map,
        List.map_flatMap, List.flatMap_congr ih]
      rfl

end TreeDelta
