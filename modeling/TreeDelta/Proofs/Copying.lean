import TreeDelta.Proofs.Relinking
import TreeDelta.Proofs.Roses

namespace TreeDelta.Forest

/-- From `f` to `g` nodes were added, and only nodes in `s` may have got new children. -/
structure Grown (f g : Forest) (s : List NodeId) : Prop where
  links : g.Sound
  size_le : f.size ≤ g.size
  parent : ∀ j, f.has j → g.parent? j = f.parent? j
  info : ∀ j, f.has j → g.infoOf j = f.infoOf j
  children : ∀ j, f.has j → j ∉ s → g.childrenOf j = f.childrenOf j

variable {f g h : Forest} {s s' : List NodeId} {a b id parent : NodeId}

namespace Grown

theorem refl (hf : f.Sound) : Grown f f s :=
  ⟨hf, le_rfl, fun _ _ => rfl, fun _ _ => rfl, fun _ _ _ => rfl⟩

theorem has (hg : Grown f g s) (ha : f.has a) : g.has a := by
  rw [has_iff_le] at ha ⊢
  exact ⟨ha.1, ha.2.trans hg.size_le⟩

theorem trans (hg : Grown f g s) (hh : Grown g h s') (hs : ∀ j ∈ s', f.has j → j ∈ s) :
    Grown f h s where
  links := hh.links
  size_le := hg.size_le.trans hh.size_le
  parent j hj := (hh.parent j (hg.has hj)).trans (hg.parent j hj)
  info j hj := (hh.info j (hg.has hj)).trans (hg.info j hj)
  children j hj hjs :=
    (hh.children j (hg.has hj) fun hjs' => hjs (hs j hjs' hj)).trans (hg.children j hj hjs)

theorem new_of_under (hf : f.Sound) (hg : Grown f g s) (ha : f.childrenOf a = [])
    (hab : g.Under a b) : b = a ∨ ¬ f.has b := by
  induction hab with
  | refl => exact .inl rfl
  | @tail q c _ hc ih =>
      refine .inr fun hold => ?_
      rw [hg.parent c hold] at hc
      rcases ih with rfl | hnew
      · have := (hf.mem_children q c).2 hc
        simp [ha] at this
      · exact hnew (hf.has_parent hc)

theorem subtree_eq (hf : f.Sound) (hg : Grown f g s) (ha : f.has a)
    (hs : ∀ b ∈ s, ¬ f.Under a b) :
    (g.subtree a).map g.infoOf = (f.subtree a).map f.infoOf := by
  have hsub : g.subtree a = f.subtree a := subtree_congr hf hg.links a fun b hab =>
    hg.children b (hf.has_of_under hab ha) fun hbs => hs b hbs hab
  rw [hsub]
  refine Rose.map_congr fun b hb => hg.info b (hf.has_of_under (hf.mem_preorder_iff.1 hb) ha)

theorem alloc (hf : f.Sound) (info : NodeInfo) : Grown f (f.alloc info).2 s where
  links := hf.alloc info
  size_le := by rw [size_alloc]; exact Nat.le_succ _
  parent j _ := parent?_alloc f info j
  info j hj := by
    rw [infoOf_alloc, if_neg]
    rintro rfl
    exact f.not_has_succ_size hj
  children j _ _ := childrenOf_alloc f info j

end Grown

theorem grown_child (hf : f.Sound) (hp : f.has parent) (info : NodeInfo) :
    let g := (f.alloc info).2.place parent (f.size + 1) (f.childrenOf parent).length
    Grown f g [parent] ∧ g.childrenOf parent = f.childrenOf parent ++ [f.size + 1] ∧
      g.childrenOf (f.size + 1) = [] ∧ g.infoOf (f.size + 1) = info ∧ g.has (f.size + 1) := by
  intro g
  have hnew : (f.alloc info).2.has (f.size + 1) := (f.has_alloc_iff info _).2 (.inl rfl)
  have hold : (f.alloc info).2.has parent := (f.has_alloc_iff info _).2 (.inr hp)
  have hne : ∀ {j}, f.has j → f.size + 1 ≠ j := fun hj he => f.not_has_succ_size (he ▸ hj)
  have hnot : ∀ j, f.size + 1 ∉ f.childrenOf j := fun j hj =>
    f.not_has_succ_size (hf.has_child hj)
  have hunder : ¬ (f.alloc info).2.Under (f.size + 1) parent := by
    intro hu
    rcases hu.cases_head with he | ⟨c, hc, _⟩
    · exact hne hp he
    · rw [parent?_alloc] at hc
      exact f.not_has_succ_size (hf.has_parent hc)
  have hchildren : ∀ j, g.childrenOf j =
      if parent = j then f.childrenOf parent ++ [f.size + 1] else f.childrenOf j := by
    intro j
    change (Forest.place _ _ _ _).childrenOf j = _
    rw [(hf.alloc info).childrenOf_place hold]
    simp only [childrenOf_alloc, List.erase_of_not_mem (hnot _), List.take_length,
      List.drop_length]
  have hinfo : ∀ j, g.infoOf j = if j = f.size + 1 then info else f.infoOf j := by
    intro j
    rw [infoOf_place, infoOf_alloc]
  have hsize : g.size = f.size + 1 := by rw [size_place, size_alloc]
  refine ⟨⟨(hf.alloc info).place hold hnew hunder _, by omega, fun j hj => ?_, fun j hj => ?_,
    fun j _ hjs => ?_⟩, ?_, ?_, ?_, ?_⟩
  · rw [parent?_place _ _ hnew, if_neg (hne hj), parent?_alloc]
  · rw [hinfo, if_neg (Ne.symm (hne hj))]
  · rw [hchildren, if_neg fun he => hjs (by simp [he])]
  · rw [hchildren, if_pos rfl]
  · rw [hchildren, if_neg fun he => hne hp he.symm, childrenOf_eq_nil f.not_has_succ_size]
  · rw [hinfo, if_pos rfl]
  · rw [has_iff_le, hsize]
    omega

/-- New nodes for the roots of trees that are to be copied: they have the contents of the roots,
and no children yet. -/
structure Sprouts (f : Forest) (ids : List NodeId) (cs : List (Rose NodeInfo)) : Prop where
  nodup : ids.Nodup
  roots : List.Forall₂ (fun id c => f.has id ∧ f.childrenOf id = [] ∧ f.infoOf id = c.value) ids cs

theorem allocChildren_cons (f : Forest) (parent : NodeId) (c : Rose NodeInfo)
    (cs : List (Rose NodeInfo)) :
    f.allocChildren parent (c :: cs) =
      let g := (f.alloc c.value).2.place parent (f.size + 1) (f.childrenOf parent).length
      ((f.size + 1) :: (g.allocChildren parent cs).1, (g.allocChildren parent cs).2) := by
  rw [← childrenOf_alloc f c.value parent]
  rfl

theorem allocChildren_spec (cs : List (Rose NodeInfo)) (hf : f.Sound) (hp : f.has parent) :
    Grown f (f.allocChildren parent cs).2 [parent] ∧
      (f.allocChildren parent cs).2.childrenOf parent =
        f.childrenOf parent ++ (f.allocChildren parent cs).1 ∧
      Sprouts (f.allocChildren parent cs).2 (f.allocChildren parent cs).1 cs ∧
      ∀ id ∈ (f.allocChildren parent cs).1, ¬ f.has id := by
  induction cs generalizing f with
  | nil => exact ⟨.refl hf, by simp [allocChildren], ⟨.nil, .nil⟩, by simp [allocChildren]⟩
  | cons c cs ih =>
      obtain ⟨hg, hchildren, hnil, hinfo, hhas⟩ := grown_child hf hp c.value
      rw [allocChildren_cons]
      set g := (f.alloc c.value).2.place parent (f.size + 1) (f.childrenOf parent).length
      obtain ⟨hg', hchildren', ⟨hnodup, hroots⟩, hnew⟩ := ih hg.links (hg.has hp)
      have hne : f.size + 1 ≠ parent := fun he => f.not_has_succ_size (he ▸ hp)
      refine ⟨hg.trans hg' fun j hj _ => hj, ?_, ⟨?_, .cons ⟨hg'.has hhas, ?_, ?_⟩ hroots⟩, ?_⟩
      · rw [hchildren', hchildren, List.append_assoc, List.singleton_append]
      · exact List.nodup_cons.2 ⟨fun hmem => hnew _ hmem hhas, hnodup⟩
      · rw [hg'.children _ hhas (by simpa using hne), hnil]
      · rw [hg'.info _ hhas, hinfo]
      · intro id hid
        rcases List.mem_cons.1 hid with rfl | hid
        · exact f.not_has_succ_size
        · exact fun hold => hnew id hid (hg.has hold)

mutual
theorem copyBelow_spec : ∀ (t : Rose NodeInfo) {f : Forest} {parent : NodeId}, f.Sound →
    f.has parent → f.childrenOf parent = [] → f.infoOf parent = t.value →
    Grown f (copyBelow parent t f) [parent] ∧
      ((copyBelow parent t f).subtree parent).map (copyBelow parent t f).infoOf = t
  | .node info cs, f, parent, hf, hp, hnil, hinfo => by
      obtain ⟨hg, hchildren, hsprouts, hnew⟩ := allocChildren_spec cs hf hp
      rw [copyBelow]
      set ids := (f.allocChildren parent cs).1
      set g := (f.allocChildren parent cs).2
      obtain ⟨hh, hcopies⟩ := copyEach_spec cs hg.links hsprouts
      have hpar : parent ∉ ids := fun hmem => hnew parent hmem hp
      have hgrown : Grown f (copyEach ids cs g) [parent] :=
        hg.trans hh fun j hj hold => absurd hold (hnew j hj)
      refine ⟨hgrown, ?_⟩
      change ((copyEach ids cs g).subtree parent).map (copyEach ids cs g).infoOf = _
      rw [hh.links.subtree_eq, hh.children parent (hg.has hp) hpar, hchildren, hnil,
        List.nil_append, Rose.map_node, hgrown.info parent hp, hinfo, List.map_map]
      congr 1
theorem copyEach_spec : ∀ (cs : List (Rose NodeInfo)) {f : Forest} {ids : List NodeId}, f.Sound →
    Sprouts f ids cs →
    Grown f (copyEach ids cs f) ids ∧
      ids.map (fun id => ((copyEach ids cs f).subtree id).map (copyEach ids cs f).infoOf) = cs
  | [], f, ids, hf, hs => by
      obtain ⟨-, hroots⟩ := hs
      cases hroots
      exact ⟨.refl hf, rfl⟩
  | c :: cs, f, ids, hf, hs => by
      obtain ⟨hnodup, hroots⟩ := hs
      cases hroots with
      | @cons id _ ids _ hid hroots =>
          obtain ⟨hhas, hnil, hinfo⟩ := hid
          rw [List.nodup_cons] at hnodup
          obtain ⟨hg, hcopies⟩ := copyEach_spec cs hf ⟨hnodup.2, hroots⟩
          rw [copyEach]
          set g := copyEach ids cs f
          obtain ⟨hh, hcopy⟩ := copyBelow_spec c hg.links (hg.has hhas)
            (by rw [hg.children id hhas hnodup.1, hnil]) (by rw [hg.info id hhas, hinfo])
          refine ⟨?_, ?_⟩
          · refine Grown.trans ⟨hg.links, hg.size_le, hg.parent, hg.info, fun j hj hjs => ?_⟩ hh
              fun j hj _ => by simp_all
            exact hg.children j hj fun hmem => hjs (List.mem_cons_of_mem _ hmem)
          · rw [List.map_cons, hcopy]
            congr 1
            refine Eq.trans (List.map_congr_left fun id' hid' => ?_) hcopies
            -- the other copies do not contain the node below which the last copy was put
            obtain ⟨c', hc', hhas', hnil', _⟩ := forall₂_exists_of_mem hroots hid'
            refine hh.subtree_eq hg.links (hg.has hhas') fun b hb hu => ?_
            rw [List.mem_singleton.1 hb] at hu
            rcases hg.new_of_under hf hnil' hu with he | hne
            · exact hnodup.1 (he ▸ hid')
            · exact hne hhas
end

/-- A copy of a tree consists of new nodes, is not linked, and shows the tree. -/
theorem copyTree_spec (hf : f.Sound) (t : Rose NodeInfo) :
    (f.copyTree t).1 = f.size + 1 ∧ Grown f (f.copyTree t).2 [] ∧
      (f.copyTree t).2.has (f.size + 1) ∧ (f.copyTree t).2.parent? (f.size + 1) = none ∧
      ((f.copyTree t).2.subtree (f.size + 1)).map (f.copyTree t).2.infoOf = t ∧
      ∀ j, (f.copyTree t).2.Under (f.size + 1) j → ¬ f.has j := by
  have hnew : (f.alloc t.value).2.has (f.size + 1) := (f.has_alloc_iff _ _).2 (.inl rfl)
  have hnil : (f.alloc t.value).2.childrenOf (f.size + 1) = [] := by
    rw [childrenOf_alloc, childrenOf_eq_nil f.not_has_succ_size]
  obtain ⟨hg, hcopy⟩ := copyBelow_spec t (hf.alloc t.value) hnew hnil
    (by rw [infoOf_alloc, if_pos rfl])
  change _ ∧ Grown f (copyBelow (f.size + 1) t (f.alloc t.value).2) [] ∧ _
  refine ⟨rfl, (Grown.alloc hf t.value).trans hg fun j hj hold => ?_, hg.has hnew, ?_, hcopy, ?_⟩
  · exact absurd (List.mem_singleton.1 hj ▸ hold) f.not_has_succ_size
  · change (copyBelow (f.size + 1) t (f.alloc t.value).2).parent? (f.size + 1) = none
    rw [hg.parent _ hnew, parent?_alloc, parent?_eq_none f.not_has_succ_size]
  · intro j hj hold
    rcases hg.new_of_under (hf.alloc t.value) hnil hj with rfl | hne
    · exact f.not_has_succ_size hold
    · exact hne ((f.has_alloc_iff _ _).2 (.inr hold))

theorem copyTree_leaf (f : Forest) (info : NodeInfo) :
    f.copyTree (.node info []) = f.alloc info := rfl

/-- From `f` to `g` a copy of a tree was made child number `k` of `z`. -/
structure Grafted (f g : Forest) (z : NodeId) (k : Nat) (t : Rose NodeInfo) : Prop where
  links : g.Sound
  has_new : g.has (f.size + 1)
  has_old : ∀ j, f.has j → g.has j
  parent_new : g.parent? (f.size + 1) = some z
  parent : ∀ j, f.has j → g.parent? j = f.parent? j
  children : ∀ j, f.has j → g.childrenOf j =
    if z = j then (f.childrenOf j).take k ++ (f.size + 1) :: (f.childrenOf j).drop k
    else f.childrenOf j
  info : ∀ j, f.has j → g.infoOf j = f.infoOf j
  copy : (g.subtree (f.size + 1)).map g.infoOf = t
  new : ∀ j, g.Under (f.size + 1) j → ¬ f.has j

theorem copyTree_place (hf : f.Sound) {z : NodeId} (hz : f.has z) (k : Nat) (t : Rose NodeInfo) :
    Grafted f ((f.copyTree t).2.place z (f.copyTree t).1 k) z k t := by
  obtain ⟨hid, hgrown, hhas, hroot, hcopy, hnew⟩ := copyTree_spec hf t
  rw [hid]
  set g := (f.copyTree t).2
  have hz' := hgrown.has hz
  have hno : ∀ j, f.size + 1 ∉ g.childrenOf j := by
    intro j hj
    rw [hgrown.links.mem_children, hroot] at hj
    cases hj
  have hlinks : (g.place z (f.size + 1) k).Sound :=
    hgrown.links.place hz' hhas (fun hu => hnew z hu hz) k
  have hchildren : ∀ j, (g.place z (f.size + 1) k).childrenOf j =
      if z = j then (g.childrenOf z).take k ++ (f.size + 1) :: (g.childrenOf z).drop k
      else g.childrenOf j := by
    intro j
    rw [hgrown.links.childrenOf_place hz', List.erase_of_not_mem (hno _),
      List.erase_of_not_mem (hno _)]
  have hsub : (g.place z (f.size + 1) k).subtree (f.size + 1) = g.subtree (f.size + 1) := by
    refine subtree_congr hgrown.links hlinks _ fun b hb => ?_
    rw [hchildren, if_neg]
    rintro rfl
    exact hnew z hb hz
  have hsize := has_congr (size_place g z (f.size + 1) k)
  constructor
  case links => exact hlinks
  case has_new => exact (hsize _).2 hhas
  case has_old =>
    intro j hj
    exact (hsize j).2 (hgrown.has hj)
  case parent_new => rw [parent?_place g z hhas, if_pos rfl]
  case parent =>
    intro j hj
    rw [parent?_place g z hhas, if_neg, hgrown.parent j hj]
    rintro rfl
    exact f.not_has_succ_size hj
  case children =>
    intro j hj
    rw [hchildren, hgrown.children z hz (by simp), hgrown.children j hj (by simp)]
    split
    · next he => rw [he]
    · rfl
  case info =>
    intro j hj
    rw [infoOf_place, hgrown.info j hj]
  case copy =>
    rw [hsub]
    exact (Rose.map_congr fun b _ => infoOf_place g z _ k b).trans hcopy
  case new =>
    intro j hj
    refine hnew j (hgrown.links.mem_preorder_iff.1 ?_)
    rw [← hsub]
    exact hlinks.mem_preorder_iff.2 hj

namespace Grafted

variable {z : NodeId} {k : Nat} {t : Rose NodeInfo}

theorem info_new (h : Grafted f g z k t) : g.infoOf (f.size + 1) = t.value := by
  rw [← h.copy, Rose.value_map, h.links.value_subtree]

theorem children_new (h : Grafted f g z k t) (ht : t.children = []) :
    g.childrenOf (f.size + 1) = [] := by
  rw [← h.copy, h.links.subtree_eq, Rose.map_node] at ht
  simpa [Rose.children] using ht

end Grafted

end TreeDelta.Forest
