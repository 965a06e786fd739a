import TreeDelta.Proofs.UniqueSubtrees

namespace TreeDelta

variable {c : Config} {src dst t : Tree} {p q : Pairing} {d d' : Descent} {g : Group}
  {gs : List Group} {xs : List NodeId}

/-- More than two subtrees, with some in either tree. -/
structure Group.Crowded (g : Group) : Prop where
  left : g.src ≠ []
  right : g.dst ≠ []
  many : 2 ≤ g.src.length ∨ 2 ≤ g.dst.length
  nodupLeft : g.src.Nodup
  nodupRight : g.dst.Nodup

theorem Tree.symm_apart (t : Tree) :
    Std.Symm fun x y => ∀ z, t.forest.Under x z → ¬ t.forest.Under y z :=
  ⟨fun _ _ hxy z hyz hxz => hxy z hxz hyz⟩

theorem Tree.Clear.nodup {free : NodeId → Prop} (h : t.Clear free xs) : xs.Nodup := by
  refine h.apart.imp ?_
  rintro x _ hapart rfl
  exact hapart x .refl .refl

theorem Queue.Opened.clear {before after : Queue} {ids : List NodeId} {free : NodeId → Prop}
    (h : before.Opened c t ids after) (ht : t.forest.Sound) {pre : List NodeId} (mid : List NodeId)
    (hclear : t.Clear free (pre ++ (ids ++ (mid ++ before.nodes)))) :
    t.Clear free (pre ++ (mid ++ after.nodes)) := by
  have hopened := (hclear.perm (List.perm_append_comm_assoc ids pre _)).opened (c := c) ht
  refine hopened.perm ?_
  calc
    List.Perm (pre ++ (mid ++ after.nodes))
        (pre ++ (mid ++ (ids.flatMap (c.heirs t) ++ before.nodes))) :=
      (h.nodes.append_left _).append_left _
    List.Perm _ (pre ++ (ids.flatMap (c.heirs t) ++ (mid ++ before.nodes))) :=
      (List.perm_append_comm_assoc _ _ _).append_left _
    List.Perm _ (ids.flatMap (c.heirs t) ++ (pre ++ (mid ++ before.nodes))) :=
      List.perm_append_comm_assoc _ _ _

/-- All that is put off, in the groups at hand or waiting is free, and no two subtrees of it share
a node. -/
structure Descent.Reserves (src dst : Tree) (gs : List Group) (d : Descent) (p : Pairing) :
    Prop where
  left : src.Clear (fun x => p.image? x = none)
    (d.deferred.flatMap (·.src) ++ (gs.flatMap (·.src) ++ d.src.nodes))
  right : dst.Clear (fun y => p.origin? y = none)
    (d.deferred.flatMap (·.dst) ++ (gs.flatMap (·.dst) ++ d.dst.nodes))
  crowded : ∀ g ∈ d.deferred, g.Crowded

section Descending

variable (hs : src.forest.Sound) (hd : dst.forest.Sound)
include hs hd

theorem Settles.reserves (h : Settles c src dst g d p d' q) (hp : p.Sound)
    (hres : d.Reserves src dst (g :: gs) p) : d'.Reserves src dst gs q := by
  obtain ⟨hleft, hright, hcrowded⟩ := hres
  rw [List.flatMap_cons, List.append_assoc] at hleft hright
  -- the subtrees of the group come first
  have hfront := hleft.perm (List.perm_append_comm_assoc _ _ _)
  have hfront' := hright.perm (List.perm_append_comm_assoc _ _ _)
  cases h with
  | pair one one' commit =>
      rw [one] at hfront
      rw [one'] at hfront'
      obtain ⟨hclear, hclear'⟩ := commit.clear hs hd hp hfront hfront'
      exact ⟨hclear, hclear', hcrowded⟩
  | opened _ opened opened' =>
      exact ⟨opened.clear hs _ hleft, opened'.clear hd _ hright, hcrowded⟩
  | putOff some some' many =>
      refine ⟨?_, ?_, List.forall_mem_append.2 ⟨hcrowded, List.forall_mem_singleton.2 ?_⟩⟩
      · rwa [List.flatMap_append, List.flatMap_singleton, List.append_assoc]
      · rwa [List.flatMap_append, List.flatMap_singleton, List.append_assoc]
      · exact ⟨some, some', many, hfront.left_of_append.nodup, hfront'.left_of_append.nodup⟩

theorem SettlesAll.reserves (h : SettlesAll c src dst gs d p d' q) (hp : p.Sound)
    (hres : d.Reserves src dst gs p) : d'.Reserves src dst [] q := by
  induction h with
  | nil => exact hres
  | cons head _ ih => exact ih (head.sound hp) (head.reserves hs hd hp hres)

variable [TokenHash]

theorem Round.reserves {s s' : Descent × Pairing} (h : Round c src dst s s') (hp : s.2.Sound)
    (hres : s.1.Reserves src dst [] s.2) : s'.1.Reserves src dst [] s'.2 := by
  obtain ⟨hleft, hright, hcrowded⟩ := hres
  rw [List.flatMap_nil, List.nil_append] at hleft hright
  cases h with
  | @level n gs d d' p q _ _ sorts settles =>
      refine settles.reserves hs hd hp ⟨hleft.perm ?_, hright.perm ?_, hcrowded⟩
      · rw [d.src.nodes_eq]
        exact (sorts.left.append_right _).append_left _
      · rw [d.dst.nodes_eq]
        exact (sorts.right.append_right _).append_left _
  | @openSrc m n d p x _ _ _ opened =>
      rw [d.src.nodes_eq] at hleft
      exact ⟨opened.clear hs [] hleft, hright, hcrowded⟩
  | @openDst m n d p y _ _ _ opened =>
      rw [d.dst.nodes_eq] at hright
      exact ⟨hleft, opened.clear hd [] hright, hcrowded⟩

theorem rounds_reserves {s s' : Descent × Pairing}
    (h : Relation.ReflTransGen (Round c src dst) s s') (hp : s.2.Sound)
    (hres : s.1.Reserves src dst [] s.2) : s'.1.Reserves src dst [] s'.2 := by
  induction h using Relation.ReflTransGen.head_induction_on with
  | refl => exact hres
  | head hround _ ih => exact ih (hround.sound hp) (hround.reserves hs hd hp hres)

end Descending

theorem Queue.clear_start {free : NodeId → Prop} (h : ∀ x, free x) :
    t.Clear free (Queue.start c t).nodes := by
  refine ⟨?_, fun x _ z _ => h z⟩
  rw [Queue.start]
  split
  · exact List.pairwise_singleton _ _
  · exact .nil

theorem Descent.reserves_start (hp : p.Sound) (hempty : p.isEmpty) :
    (Descent.start c src dst).Reserves src dst [] p where
  left := Queue.clear_start (hp.image?_of_isEmpty hempty)
  right := Queue.clear_start (hp.origin?_of_isEmpty hempty)
  crowded := by simp [start]

end TreeDelta
