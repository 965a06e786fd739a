import TreeDelta.Proofs.Visits

namespace TreeDelta

variable {t : Tree} {marked full : Std.HashSet NodeId} {x y z : NodeId}

def markWhole (t : Tree) (marked full : Std.HashSet NodeId) (id : NodeId) : Std.HashSet NodeId :=
  if marked.contains id && (t.forest.childrenOf id).all full.contains then full.insert id else full

theorem contains_markWhole :
    (markWhole t marked full y).contains x ↔
      full.contains x ∨
        x = y ∧ marked.contains y ∧ ∀ c ∈ t.forest.childrenOf y, full.contains c := by
  rw [markWhole]
  split
  · next h =>
    rw [Bool.and_eq_true, List.all_eq_true] at h
    rw [Std.HashSet.contains_insert, Bool.or_eq_true, beq_iff_eq, eq_comm, or_comm]
    exact or_congr_right ⟨fun hx => ⟨hx, h⟩, And.left⟩
  · next h =>
    rw [Bool.and_eq_true, List.all_eq_true] at h
    exact ⟨.inl, fun hx => hx.resolve_right fun hy => h hy.2⟩

theorem contains_foldl_markWhole (h : t.forest.Sound) {seen rest : List NodeId}
    (hsplit : t.postorder = seen ++ rest) :
    (seen.foldl (markWhole t marked) ∅).contains x ↔
      x ∈ seen ∧ ∀ y, t.forest.Under x y → marked.contains y := by
  induction seen using List.reverseRecOn generalizing rest x with
  | nil => simp
  | append_singleton seen id ih =>
      rw [List.append_assoc, List.singleton_append] at hsplit
      have hseen : ∀ c ∈ t.forest.childrenOf id, c ∈ seen :=
        h.respects_postorder t.root seen id rest hsplit
      have hwhole : (marked.contains id ∧ ∀ c ∈ t.forest.childrenOf id,
          (seen.foldl (markWhole t marked) ∅).contains c) ↔
          ∀ y, t.forest.Under id y → marked.contains y := by
        constructor
        · rintro ⟨hid, hchildren⟩ y hy
          rcases hy.cases_head with rfl | ⟨c, hc, hcy⟩
          · exact hid
          · exact ((ih hsplit).1 (hchildren c ((h.mem_children id c).2 hc))).2 y hcy
        · intro hall
          refine ⟨hall id .refl, fun c hc => (ih hsplit).2 ⟨hseen c hc, fun y hy => ?_⟩⟩
          exact hall y (.head ((h.mem_children id c).1 hc) hy)
      rw [List.foldl_append, List.foldl_cons, List.foldl_nil, contains_markWhole, hwhole,
        ih hsplit, List.mem_append, List.mem_singleton]
      constructor
      · rintro (⟨hx, hall⟩ | ⟨rfl, hall⟩)
        · exact ⟨.inl hx, hall⟩
        · exact ⟨.inr rfl, hall⟩
      · rintro ⟨hx | rfl, hall⟩
        · exact .inl ⟨hx, hall⟩
        · exact .inr ⟨rfl, hall⟩

theorem contains_markedThroughout (h : t.forest.Sound) :
    (markedThroughout t marked).contains x ↔
      t.Reaches x ∧ ∀ y, t.forest.Under x y → marked.contains y := by
  have hfold : markedThroughout t marked = t.postorder.foldl (markWhole t marked) ∅ := rfl
  rw [hfold, contains_foldl_markWhole h (List.append_nil _).symm, Tree.postorder,
    h.mem_postorder_iff]

theorem contains_markedThroughout_of_under (h : t.forest.Sound)
    (hx : (markedThroughout t marked).contains x) (hxy : t.forest.Under x y) :
    (markedThroughout t marked).contains y := by
  rw [contains_markedThroughout h] at hx ⊢
  exact ⟨hx.1.trans hxy, fun z hz => hx.2 z (hxy.trans hz)⟩

/-- The node at which `x` is dealt with: the root of the whole subtree that `x` lies in, and `x`
itself if it is not whole. -/
def Carries (t : Tree) (full : Std.HashSet NodeId) (z x : NodeId) : Prop :=
  full.contains z ∧ ¬ Covered t full z ∧ t.forest.Under z x ∨ ¬ full.contains x ∧ z = x

theorem exists_carries (h : t.forest.Sound) (marked : Std.HashSet NodeId) (x : NodeId) :
    ∃ z, Carries t (markedThroughout t marked) z x := by
  by_cases hx : (markedThroughout t marked).contains x
  · have hreach := ((contains_markedThroughout h).1 hx).1
    -- from the root down: either the parent is whole too, or `x` is the root of its subtree
    induction hreach with
    | refl =>
        refine ⟨t.root, .inl ⟨hx, ?_, .refl⟩⟩
        rintro ⟨p, hp, hfull⟩
        exact h.not_under_parent hp ((contains_markedThroughout h).1 hfull).1
    | @tail p x _ hp ih =>
        by_cases hfull : (markedThroughout t marked).contains p
        · obtain ⟨z, hz | ⟨hno, _⟩⟩ := ih hfull
          · exact ⟨z, .inl ⟨hz.1, hz.2.1, hz.2.2.tail hp⟩⟩
          · exact absurd hfull hno
        · refine ⟨x, .inl ⟨hx, ?_, .refl⟩⟩
          rintro ⟨q, hq, hfull'⟩
          exact hfull (Option.some.inj (hp.symm.trans hq) ▸ hfull')
  · exact ⟨x, .inr ⟨hx, rfl⟩⟩

theorem eq_of_under_of_not_covered (h : t.forest.Sound)
    (hy : (markedThroughout t marked).contains y)
    (hz : ¬ Covered t (markedThroughout t marked) z) (hyz : t.forest.Under y z) : y = z := by
  rcases hyz.cases_tail with rfl | ⟨p, hyp, hp⟩
  · rfl
  · exact absurd ⟨p, hp, contains_markedThroughout_of_under h hy hyp⟩ hz

theorem Carries.unique (h : t.forest.Sound) (hy : Carries t (markedThroughout t marked) y x)
    (hz : Carries t (markedThroughout t marked) z x) : y = z := by
  rcases hy with ⟨hy, hytop, hyx⟩ | ⟨hno, rfl⟩
  · rcases hz with ⟨hz, hztop, hzx⟩ | ⟨hno, rfl⟩
    · rcases h.under_total hyx hzx with hyz | hzy
      · exact eq_of_under_of_not_covered h hy hztop hyz
      · exact (eq_of_under_of_not_covered h hz hytop hzy).symm
    · exact absurd (contains_markedThroughout_of_under h hy hyx) hno
  · rcases hz with ⟨hz, _, hzx⟩ | ⟨_, rfl⟩
    · exact absurd (contains_markedThroughout_of_under h hz hzx) hno
    · rfl

theorem Carries.contains_marked (h : t.forest.Sound)
    (hz : Carries t (markedThroughout t marked) z x) (hx : marked.contains x) :
    marked.contains z := by
  rcases hz with ⟨hz, _, _⟩ | ⟨_, rfl⟩
  · exact ((contains_markedThroughout h).1 hz).2 z .refl
  · exact hx

/-- How condensing treats the actions on the tree `t`. The node of an action for a single node is
given by `mark`, and all the nodes that an action inserts into `t`, or deletes from it, by
`parts`. -/
structure Condenses (t : Tree) (full : Std.HashSet NodeId) (mark : Action → Option NodeId)
    (parts : Action → List NodeId) (condense : Action → Option Action) : Prop where
  single : ∀ a x, mark a = some x → parts a = [x]
  /-- The action for a node that is not whole stays as it is. -/
  keep : ∀ a x, mark a = some x → ¬ full.contains x → condense a = some a
  /-- Below the root of a whole subtree, actions are dropped. -/
  drop : ∀ a x, mark a = some x → full.contains x → Covered t full x → condense a = none
  /-- The action for the root of a whole subtree becomes one for all its nodes. -/
  collect : ∀ a x, mark a = some x → full.contains x → ¬ Covered t full x →
    ∃ b, condense a = some b ∧ parts b = (t.forest.subtree x).preorder
  /-- Other actions keep their nodes. -/
  other : ∀ a, mark a = none → ((condense a).map parts).getD [] = parts a

namespace Condenses

variable {mark : Action → Option NodeId} {parts : Action → List NodeId}
  {condense : Action → Option Action} {l : List Action} {a : Action}

theorem mem_iff_carries (h : Condenses t full mark parts condense) (hf : t.forest.Sound)
    (ha : mark a = some z) : (∃ b, condense a = some b ∧ x ∈ parts b) ↔ Carries t full z x := by
  by_cases hz : full.contains z
  · by_cases hcov : Covered t full z
    · rw [h.drop a z ha hz hcov]
      constructor
      · rintro ⟨_, ⟨⟩, _⟩
      · rintro (⟨_, hno, _⟩ | ⟨hno, rfl⟩)
        · exact absurd hcov hno
        · exact absurd hz hno
    · obtain ⟨b, hb, hparts⟩ := h.collect a z ha hz hcov
      rw [hb]
      constructor
      · rintro ⟨_, ⟨⟩, hx⟩
        rw [hparts, hf.mem_preorder_iff] at hx
        exact .inl ⟨hz, hcov, hx⟩
      · rintro (⟨_, _, hzx⟩ | ⟨hno, rfl⟩)
        · exact ⟨b, rfl, by rwa [hparts, hf.mem_preorder_iff]⟩
        · exact absurd hz hno
  · rw [h.keep a z ha hz]
    constructor
    · rintro ⟨_, ⟨⟩, hx⟩
      rw [h.single a z ha, List.mem_singleton] at hx
      exact .inr ⟨hx ▸ hz, hx.symm⟩
    · rintro (⟨hz', _, _⟩ | ⟨_, rfl⟩)
      · exact absurd hz' hz
      · exact ⟨a, rfl, by rw [h.single a z ha, List.mem_singleton]⟩

theorem mem_iff_of_other (h : Condenses t full mark parts condense) (ha : mark a = none) :
    (∃ b, condense a = some b ∧ x ∈ parts b) ↔ x ∈ parts a := by
  have hother := h.other a ha
  cases hb : condense a with
  | none =>
      rw [hb] at hother
      rw [← hother]
      simp
  | some b =>
      rw [hb] at hother
      rw [← hother]
      simp

/-- A condensed script does the same nodes as the script. -/
theorem mem_flatMap_iff (h : Condenses t (markedThroughout t marked) mark parts condense)
    (hf : t.forest.Sound) (hmarked : ∀ y, marked.contains y ↔ ∃ a ∈ l, mark a = some y) :
    x ∈ (l.filterMap condense).flatMap parts ↔ x ∈ l.flatMap parts := by
  simp only [List.mem_flatMap, List.mem_filterMap]
  constructor
  · rintro ⟨b, ⟨a, ha, hab⟩, hx⟩
    have hbx : ∃ b, condense a = some b ∧ x ∈ parts b := ⟨b, hab, hx⟩
    cases hmark : mark a with
    | none => exact ⟨a, ha, (h.mem_iff_of_other hmark).1 hbx⟩
    | some z =>
        have hx : ∃ a ∈ l, mark a = some x := by
          rcases (h.mem_iff_carries hf hmark).1 hbx with ⟨hz, _, hzx⟩ | ⟨_, rfl⟩
          · exact (hmarked x).1 (((contains_markedThroughout hf).1 hz).2 x hzx)
          · exact ⟨a, ha, hmark⟩
        obtain ⟨a', ha', hmark'⟩ := hx
        exact ⟨a', ha', by rw [h.single a' x hmark', List.mem_singleton]⟩
  · rintro ⟨a, ha, hx⟩
    cases hmark : mark a with
    | none =>
        obtain ⟨b, hab, hxb⟩ := (h.mem_iff_of_other hmark).2 hx
        exact ⟨b, ⟨a, ha, hab⟩, hxb⟩
    | some y =>
        rw [h.single a y hmark, List.mem_singleton] at hx
        subst hx
        obtain ⟨z, hz⟩ := exists_carries hf marked x
        have hmarkx := (hmarked x).2 ⟨a, ha, hmark⟩
        obtain ⟨a', ha', hmark'⟩ := (hmarked z).1 (hz.contains_marked hf hmarkx)
        obtain ⟨b, hab, hxb⟩ := (h.mem_iff_carries hf hmark').2 hz
        exact ⟨b, ⟨a', ha', hab⟩, hxb⟩

/-- A condensed script does a node as often as the script does the node at which it is dealt
with. -/
theorem countP_eq_count (h : Condenses t (markedThroughout t marked) mark parts condense)
    (hf : t.forest.Sound) (hplain : ∀ a ∈ l, mark a = none → parts a = [])
    (hz : Carries t (markedThroughout t marked) z x) :
    (l.filterMap condense).countP (fun b => decide (x ∈ parts b)) = (l.filterMap mark).count z := by
  rw [List.countP_filterMap, List.count_filterMap]
  refine List.countP_congr fun a ha => ?_
  have hleft : ((condense a).map fun b => decide (x ∈ parts b)).getD false = true ↔
      ∃ b, condense a = some b ∧ x ∈ parts b := by
    cases condense a <;> simp
  rw [hleft, beq_iff_eq]
  cases hmark : mark a with
  | none => simp [h.mem_iff_of_other hmark, hplain a ha hmark]
  | some y =>
      rw [h.mem_iff_carries hf hmark, Option.some.injEq]
      exact ⟨fun hy => hy.unique hf hz, fun hyz => hyz ▸ hz⟩

end Condenses

namespace Action

def insertedNode? (a : Action) : Option NodeId := a.inserted?.map Prod.fst

def insertedNodes (dst : Tree) : Action → List NodeId
  | .insert _ x .. => [x]
  | .insertTree _ x .. => (dst.forest.subtree x).preorder
  | _ => []

def deletedNodes (src : Tree) : Action → List NodeId
  | .delete node => [node]
  | .deleteTree node => (src.forest.subtree node).preorder
  | _ => []

def isEdit (a : Action) : Bool := a.updated?.isSome || a.moved?.isSome

end Action

namespace Script

variable {src dst : Tree} {added removed : Std.HashSet NodeId} {single whole : Action}

theorem contains_inserted (s : Script) (x : NodeId) :
    s.inserted.contains x ↔ ∃ a ∈ s.actions, a.insertedNode? = some x := by
  have hmark : s.inserted = .ofList (s.actions.filterMap Action.insertedNode?) := by
    rw [inserted]
    congr 2
    funext a
    cases a <;> rfl
  rw [hmark, Std.HashSet.contains_ofList, List.contains_iff_mem, List.mem_filterMap]

theorem contains_deleted (s : Script) (x : NodeId) :
    s.deleted.contains x ↔ ∃ a ∈ s.actions, a.deleted? = some x := by
  have hmark : s.deleted = .ofList (s.actions.filterMap Action.deleted?) := rfl
  rw [hmark, Std.HashSet.contains_ofList, List.contains_iff_mem, List.mem_filterMap]

theorem condenseAt_of_covered (h : Covered t full x) :
    condenseAt t full x single whole = none := by
  rw [condenseAt, if_pos (covered_iff.2 h)]

theorem condenseAt_of_not_covered (h : ¬ Covered t full x) :
    condenseAt t full x single whole =
      some (if (t.forest.childrenOf x).isEmpty then single else whole) := by
  rw [condenseAt, if_neg (mt covered_iff.1 h)]
  exact (apply_ite some _ _ _).symm

theorem condenseAt_eq_some {b : Action} (h : condenseAt t full x single whole = some b) :
    ¬ Covered t full x ∧
      (t.forest.childrenOf x = [] ∧ b = single ∨ t.forest.childrenOf x ≠ [] ∧ b = whole) := by
  by_cases hcov : Covered t full x
  · rw [condenseAt_of_covered hcov] at h
    cases h
  · rw [condenseAt_of_not_covered hcov, Option.some.injEq] at h
    refine ⟨hcov, ?_⟩
    split at h
    · next hleaf => exact .inl ⟨List.isEmpty_iff.1 hleaf, h.symm⟩
    · next hinner => exact .inr ⟨fun hleaf => hinner (List.isEmpty_iff.2 hleaf), h.symm⟩

def Lone (t : Tree) (full : Std.HashSet NodeId) (x : NodeId) : Prop :=
  ¬ Covered t full x ∧ t.forest.childrenOf x = []

def Heads (t : Tree) (full : Std.HashSet NodeId) (x : NodeId) : Prop :=
  full.contains x ∧ ¬ Covered t full x ∧ t.forest.childrenOf x ≠ []

/-- What is left of an action: the action itself, which then is not for a node of a larger whole
subtree, or one for the whole subtree of its node. -/
theorem condenseAction_eq_some {a b : Action}
    (h : condenseAction src dst added removed a = some b) :
    b = a ∧ (∀ x, a.insertedNode? = some x → added.contains x → Lone dst added x) ∧
        (∀ x, a.deleted? = some x → removed.contains x → Lone src removed x) ∨
      (∃ node x parent k kind label, a = .insert node x parent k kind label ∧
        b = .insertTree node x parent k ∧ Heads dst added x) ∨
      ∃ node, a = .delete node ∧ b = .deleteTree node ∧ Heads src removed node := by
  cases a with
  | insert node x parent k kind label =>
      simp only [condenseAction] at h
      split at h
      · next hx =>
        obtain ⟨hcov, ⟨hleaf, rfl⟩ | ⟨hinner, rfl⟩⟩ := condenseAt_eq_some h
        · refine .inl ⟨rfl, fun y hy _ => ?_, by rintro _ ⟨⟩⟩
          cases hy
          exact ⟨hcov, hleaf⟩
        · exact .inr (.inl ⟨_, _, _, _, _, _, rfl, rfl, hx, hcov, hinner⟩)
      · next hx =>
        refine .inl ⟨(Option.some.inj h).symm, fun y hy hy' => ?_, by rintro _ ⟨⟩⟩
        cases hy
        exact absurd hy' hx
  | delete node =>
      simp only [condenseAction] at h
      split at h
      · next hx =>
        obtain ⟨hcov, ⟨hleaf, rfl⟩ | ⟨hinner, rfl⟩⟩ := condenseAt_eq_some h
        · refine .inl ⟨rfl, by rintro _ ⟨⟩, fun y hy _ => ?_⟩
          cases hy
          exact ⟨hcov, hleaf⟩
        · exact .inr (.inr ⟨_, rfl, rfl, hx, hcov, hinner⟩)
      · next hx =>
        refine .inl ⟨(Option.some.inj h).symm, by rintro _ ⟨⟩, fun y hy hy' => ?_⟩
        cases hy
        exact absurd hy' hx
  | insertTree | deleteTree | update | move =>
      refine .inl ⟨(Option.some.inj h).symm, ?_, ?_⟩
      · rintro _ ⟨⟩
      · rintro _ ⟨⟩

theorem preorder_leaf (h : t.forest.Sound) (hx : (t.forest.childrenOf x).isEmpty) :
    (t.forest.subtree x).preorder = [x] := by
  rw [h.preorder_subtree, List.isEmpty_iff.1 hx, List.flatMap_nil]

theorem condenses_inserts (src : Tree) (hd : dst.forest.Sound)
    (added removed : Std.HashSet NodeId) :
    Condenses dst added Action.insertedNode? (Action.insertedNodes dst)
      (condenseAction src dst added removed) where
  single a x ha := by
    cases a <;> cases ha
    rfl
  keep a x ha hx := by
    cases a <;> cases ha
    exact if_neg hx
  drop a x ha hx hcov := by
    cases a <;> cases ha
    exact (if_pos hx).trans (condenseAt_of_covered hcov)
  collect a x ha hx hcov := by
    cases a <;> cases ha
    refine ⟨_, (if_pos hx).trans (condenseAt_of_not_covered hcov), ?_⟩
    split
    · next hleaf => exact (preorder_leaf hd hleaf).symm
    · rfl
  other a ha := by
    cases a with
    | insert => cases ha
    | delete node =>
        cases hb : condenseAction src dst added removed (.delete node) with
        | none => rfl
        | some b =>
            obtain rfl | ⟨_, _, _, _, _, _, hinsert, _⟩ | ⟨_, _, rfl⟩ := condenseAction_cases hb
            · rfl
            · cases hinsert
            · rfl
    | insertTree | deleteTree | update | move => rfl

theorem condenses_deletes (hs : src.forest.Sound) (dst : Tree)
    (added removed : Std.HashSet NodeId) :
    Condenses src removed Action.deleted? (Action.deletedNodes src)
      (condenseAction src dst added removed) where
  single a x ha := by
    cases a <;> cases ha
    rfl
  keep a x ha hx := by
    cases a <;> cases ha
    exact if_neg hx
  drop a x ha hx hcov := by
    cases a <;> cases ha
    exact (if_pos hx).trans (condenseAt_of_covered hcov)
  collect a x ha hx hcov := by
    cases a <;> cases ha
    refine ⟨_, (if_pos hx).trans (condenseAt_of_not_covered hcov), ?_⟩
    split
    · next hleaf => exact (preorder_leaf hs hleaf).symm
    · rfl
  other a ha := by
    cases a with
    | delete => cases ha
    | insert node x parent k kind label =>
        cases hb : condenseAction src dst added removed (.insert node x parent k kind label) with
        | none => rfl
        | some b =>
            obtain rfl | ⟨_, _, _, _, _, _, _, rfl⟩ | ⟨_, hdelete, _⟩ := condenseAction_cases hb
            · rfl
            · rfl
            · cases hdelete
    | insertTree | deleteTree | update | move => rfl

theorem filter_isEdit_filterMap (l : List Action) :
    (l.filterMap (condenseAction src dst added removed)).filter Action.isEdit =
      l.filter Action.isEdit := by
  induction l with
  | nil => rfl
  | cons a l ih =>
      cases hb : condenseAction src dst added removed a with
      | none =>
          have hno : ¬ a.isEdit := by
            cases a with
            | update | move => cases hb
            | insert | insertTree | delete | deleteTree => exact Bool.false_ne_true
          rw [List.filterMap_cons_none hb, ih, List.filter_cons_of_neg hno]
      | some b =>
          rw [List.filterMap_cons_some hb]
          obtain rfl | ⟨_, _, _, _, _, _, rfl, rfl⟩ | ⟨_, rfl, rfl⟩ := condenseAction_cases hb
          · rw [List.filter_cons, List.filter_cons, ih]
          · exact ih
          · exact ih

end Script

end TreeDelta
