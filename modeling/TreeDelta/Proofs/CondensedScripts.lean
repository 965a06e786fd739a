import TreeDelta.Proofs.Accounting
import TreeDelta.Proofs.WholeSubtrees

namespace TreeDelta

variable {src dst t : Tree} {p : Pairing} {marked marked' : Std.HashSet NodeId} {x : NodeId}
  {free : NodeId → Prop}

theorem lone_of_leaves (h : t.forest.Sound) (marked : Std.HashSet NodeId)
    (hsub : ∀ y, marked'.contains y → marked.contains y)
    (hleaf : ∀ y, marked'.contains y → (markedThroughout t marked).contains y →
      t.forest.childrenOf y = [])
    (hx : (markedThroughout t marked').contains x) :
    Script.Lone t (markedThroughout t marked') x := by
  have hall : ∀ y, (markedThroughout t marked').contains y → t.forest.childrenOf y = [] := by
    intro y hy
    obtain ⟨hreach, hbelow⟩ := (contains_markedThroughout h).1 hy
    refine hleaf y (hbelow y .refl) ((contains_markedThroughout h).2 ⟨hreach, fun z hz => ?_⟩)
    exact hsub z (hbelow z hz)
  refine ⟨?_, hall x hx⟩
  rintro ⟨z, hz, hfull⟩
  have hmem := (h.mem_children z x).2 hz
  rw [hall z hfull] at hmem
  cases hmem

namespace Script

theorem condenseAt_of_lone {full : Std.HashSet NodeId} {single whole : Action}
    (h : Lone t full x) : condenseAt t full x single whole = some single := by
  rw [condenseAt_of_not_covered h.1, h.2]
  rfl

theorem condenseAt_of_heads {full : Std.HashSet NodeId} {single whole : Action}
    (h : Heads t full x) : condenseAt t full x single whole = some whole := by
  rw [condenseAt_of_not_covered h.2.1, if_neg (mt List.isEmpty_iff.1 h.2.2)]

theorem Heads.condenseAction_insert {added removed : Std.HashSet NodeId} {node parent : NodeId}
    {k : Nat} {kind : Kind} {label : Option String} (h : Heads dst added x) :
    condenseAction src dst added removed (.insert node x parent k kind label) =
      some (.insertTree node x parent k) :=
  (if_pos h.1).trans (condenseAt_of_heads h)

theorem Heads.condenseAction_delete {added removed : Std.HashSet NodeId}
    (h : Heads src removed x) :
    condenseAction src dst added removed (.delete x) = some (.deleteTree x) :=
  (if_pos h.1).trans (condenseAt_of_heads h)

theorem single_of_mem_condense {s : Script} {b : Action} (hb : b ∈ (s.condense src dst).actions) :
    (∀ x, b.insertedNode? = some x → s.inserted.contains x ∧
        ((markedThroughout dst s.inserted).contains x → dst.forest.childrenOf x = [])) ∧
      ∀ x, b.deleted? = some x → s.deleted.contains x ∧
        ((markedThroughout src s.deleted).contains x → src.forest.childrenOf x = []) := by
  obtain ⟨a, ha, hab⟩ := List.mem_filterMap.1 hb
  obtain ⟨rfl, hinsert, hdelete⟩ | ⟨_, _, _, _, _, _, _, rfl, _⟩ | ⟨_, _, rfl, _⟩ :=
    condenseAction_eq_some hab
  · refine ⟨fun x hx => ⟨?_, fun hfull => ?_⟩, fun x hx => ⟨?_, fun hfull => ?_⟩⟩
    · exact (s.contains_inserted x).2 ⟨b, ha, hx⟩
    · exact (hinsert x hx hfull).2
    · exact (s.contains_deleted x).2 ⟨b, ha, hx⟩
    · exact (hdelete x hx hfull).2
  · exact ⟨nofun, nofun⟩
  · exact ⟨nofun, nofun⟩

/-- Whatever the script, condensing it a second time changes nothing. -/
theorem condense_condense (hs : src.forest.Sound) (hd : dst.forest.Sound) (s : Script) :
    (s.condense src dst).condense src dst = s.condense src dst := by
  have hadded : ∀ x, (markedThroughout dst (s.condense src dst).inserted).contains x →
      Lone dst (markedThroughout dst (s.condense src dst).inserted) x := by
    refine fun x => lone_of_leaves hd s.inserted (fun y hy => ?_) fun y hy => ?_
    · obtain ⟨b, hb, hby⟩ := (contains_inserted _ y).1 hy
      exact ((single_of_mem_condense hb).1 y hby).1
    · obtain ⟨b, hb, hby⟩ := (contains_inserted _ y).1 hy
      exact ((single_of_mem_condense hb).1 y hby).2
  have hremoved : ∀ x, (markedThroughout src (s.condense src dst).deleted).contains x →
      Lone src (markedThroughout src (s.condense src dst).deleted) x := by
    refine fun x => lone_of_leaves hs s.deleted (fun y hy => ?_) fun y hy => ?_
    · obtain ⟨b, hb, hby⟩ := (contains_deleted _ y).1 hy
      exact ((single_of_mem_condense hb).2 y hby).1
    · obtain ⟨b, hb, hby⟩ := (contains_deleted _ y).1 hy
      exact ((single_of_mem_condense hb).2 y hby).2
  have hkeep : ∀ b, condenseAction src dst
      (markedThroughout dst (s.condense src dst).inserted)
      (markedThroughout src (s.condense src dst).deleted) b = some b := by
    intro b
    cases b with
    | insert node x parent k kind label =>
        simp only [condenseAction]
        split
        · next hx => exact condenseAt_of_lone (hadded x hx)
        · rfl
    | delete node =>
        simp only [condenseAction]
        split
        · next hnode => exact condenseAt_of_lone (hremoved node hnode)
        · rfl
    | insertTree | deleteTree | update | move => rfl
  rw [condense]
  simp only [funext hkeep, List.filterMap_some]

end Script

/-- The subtree at `x` has more than one node, all its nodes are free, and so are not all nodes of
any larger subtree. -/
structure Forest.Widest (f : Forest) (free : NodeId → Prop) (x : NodeId) : Prop where
  large : 2 ≤ (f.subtree x).size
  all_free : ∀ y, f.Under x y → free y
  widest : ∀ z, f.Under z x → (∀ y, f.Under z y → free y) → z = x

theorem Script.heads_iff_widest (ht : t.Sound)
    (hmarked : ∀ y, marked.contains y ↔ t.Reaches y ∧ free y) :
    Script.Heads t (markedThroughout t marked) x ↔ t.Reaches x ∧ t.forest.Widest free x := by
  have hwhole : ∀ y, (markedThroughout t marked).contains y ↔
      t.Reaches y ∧ ∀ z, t.forest.Under y z → free z := fun y => by
    rw [contains_markedThroughout ht.forest]
    refine and_congr_right fun hy => forall₂_congr fun z hz => ?_
    rw [hmarked, and_iff_right (hy.trans hz)]
  constructor
  · rintro ⟨hfull, htop, hinner⟩
    obtain ⟨hreach, hfree⟩ := (hwhole x).1 hfull
    refine ⟨hreach, ?_, hfree, fun z hzx hz => ?_⟩
    · obtain ⟨c, cs, hcs⟩ := List.exists_cons_of_ne_nil hinner
      have hpos := (t.forest.subtree c).size_pos
      rw [ht.forest.subtree_eq, hcs, Rose.size_node, List.map_cons, Rose.sizeAll]
      omega
    · rcases hzx.cases_tail with rfl | ⟨y, hzy, hy⟩
      · rfl
      · -- otherwise the parent of `x` would be whole
        refine absurd ⟨y, hy, (hwhole y).2 ⟨ht.reaches_parent hreach hy, fun w hw => ?_⟩⟩ htop
        exact hz w (hzy.trans hw)
  · rintro ⟨hreach, hlarge, hfree, hwidest⟩
    refine ⟨(hwhole x).2 ⟨hreach, hfree⟩, ?_, fun hleaf => ?_⟩
    · rintro ⟨y, hy, hfull⟩
      have hyx := hwidest y (.single hy) ((hwhole y).1 hfull).2
      exact ht.forest.not_under_parent hy (hyx ▸ .refl)
    · rw [ht.forest.subtree_eq, hleaf] at hlarge
      exact absurd hlarge (Nat.not_succ_le_self 1)

/-- What the condensed form `s` of the script `raw` for a pairing is. -/
structure Collapsed (src dst : Tree) (p : Pairing) (raw s : Script) : Prop where
  /-- Exactly one action brings in a destination node without partner. -/
  inserts : ∀ x, dst.Reaches x → p.origin? x = none →
    s.actions.countP (fun a => decide (x ∈ a.insertedNodes dst)) = 1
  /-- Exactly one action takes away a source node without partner. -/
  deletes : ∀ x, src.Reaches x → p.image? x = none →
    s.actions.countP (fun a => decide (x ∈ a.deletedNodes src)) = 1
  /-- The subtrees inserted as a whole are the largest without partners, and those are all
  inserted so. -/
  whole_inserts : ∀ x, (∃ node parent k, .insertTree node x parent k ∈ s.actions) ↔
    dst.Reaches x ∧ dst.forest.Widest (fun y => p.origin? y = none) x
  whole_deletes : ∀ node, .deleteTree node ∈ s.actions ↔
    src.Reaches node ∧ src.forest.Widest (fun y => p.image? y = none) node
  /-- Updates and moves are those of the script, in their order. -/
  edits : s.actions.filter Action.isEdit = raw.actions.filter Action.isEdit
  settled : s.condense src dst = s

namespace Accounts

variable {edits : List Action} {gone : List NodeId} {raw : Script}

theorem filterMap_insertedNode? (hraw : raw.actions = edits ++ gone.map .delete) :
    raw.actions.filterMap Action.insertedNode? =
      (edits.filterMap Action.inserted?).map Prod.fst := by
  have hgone : (gone.map Action.delete).filterMap Action.insertedNode? = [] := by
    rw [List.filterMap_map]
    exact List.filterMap_eq_nil_iff.2 fun _ _ => rfl
  rw [hraw, List.filterMap_append, hgone, List.append_nil, List.map_filterMap]
  rfl

theorem filterMap_deleted? (h : Accounts src dst p edits gone)
    (hraw : raw.actions = edits ++ gone.map .delete) :
    raw.actions.filterMap Action.deleted? = gone := by
  have hedits : edits.filterMap Action.deleted? = [] := by
    refine List.filterMap_eq_nil_iff.2 fun a ha => ?_
    have hplain := h.plain a ha
    cases a with
    | delete | deleteTree => simp [Action.inserted?, Action.updated?, Action.moved?] at hplain
    | insert | insertTree | update | move => rfl
  have hgone : (gone.map Action.delete).filterMap Action.deleted? = gone := by
    rw [List.filterMap_map]
    exact List.filterMap_some
  rw [hraw, List.filterMap_append, hedits, hgone, List.nil_append]

theorem single_of_mem (h : Accounts src dst p edits gone)
    (hraw : raw.actions = edits ++ gone.map .delete) {a : Action} (ha : a ∈ raw.actions) :
    (∀ node x parent k, a ≠ .insertTree node x parent k) ∧ ∀ node, a ≠ .deleteTree node := by
  rw [hraw] at ha
  rcases List.mem_append.1 ha with ha | ha
  · have hplain := h.plain a ha
    cases a with
    | insertTree | deleteTree => simp [Action.inserted?, Action.updated?, Action.moved?] at hplain
    | insert | delete | update | move => simp
  · obtain ⟨node, _, rfl⟩ := List.mem_map.1 ha
    simp

theorem contains_inserted_iff (h : Accounts src dst p edits gone)
    (hraw : raw.actions = edits ++ gone.map .delete) (x : NodeId) :
    raw.inserted.contains x ↔ dst.Reaches x ∧ p.origin? x = none := by
  rw [raw.contains_inserted, ← List.mem_filterMap, filterMap_insertedNode? hraw, List.mem_map]
  constructor
  · rintro ⟨⟨y, c⟩, hy, rfl⟩
    exact ⟨((h.inserts y c).1 hy).1, ((h.inserts y c).1 hy).2.1⟩
  · rintro ⟨hreach, hfree⟩
    exact ⟨(x, dst.forest.contentOf x), (h.inserts x _).2 ⟨hreach, hfree, rfl⟩, rfl⟩

theorem contains_deleted_iff (h : Accounts src dst p edits gone)
    (hraw : raw.actions = edits ++ gone.map .delete) (x : NodeId) :
    raw.deleted.contains x ↔ src.Reaches x ∧ p.image? x = none := by
  rw [raw.contains_deleted, ← List.mem_filterMap, h.filterMap_deleted? hraw, h.deletes]

theorem countP_insertedNodes (h : Accounts src dst p edits gone) (hd : dst.Sound)
    (hraw : raw.actions = edits ++ gone.map .delete) (hx : raw.inserted.contains x) :
    (raw.condense src dst).actions.countP (fun a => decide (x ∈ a.insertedNodes dst)) = 1 := by
  obtain ⟨z, hz⟩ := exists_carries hd.forest raw.inserted x
  have hmem := (raw.contains_inserted z).1 (hz.contains_marked hd.forest hx)
  rw [← List.mem_filterMap] at hmem
  refine ((Script.condenses_inserts src hd.forest _ _).countP_eq_count hd.forest ?_ hz).trans
    (List.count_eq_one_of_mem ?_ hmem)
  · intro a ha hmark
    have hsingle := (h.single_of_mem hraw ha).1
    cases a with
    | insert => cases hmark
    | insertTree => exact (hsingle _ _ _ _ rfl).elim
    | delete | deleteTree | update | move => rfl
  · rw [filterMap_insertedNode? hraw]
    exact h.inserts_once

theorem countP_deletedNodes (h : Accounts src dst p edits gone) (hs : src.Sound)
    (hraw : raw.actions = edits ++ gone.map .delete) (hx : raw.deleted.contains x) :
    (raw.condense src dst).actions.countP (fun a => decide (x ∈ a.deletedNodes src)) = 1 := by
  obtain ⟨z, hz⟩ := exists_carries hs.forest raw.deleted x
  have hmem := (raw.contains_deleted z).1 (hz.contains_marked hs.forest hx)
  rw [← List.mem_filterMap] at hmem
  refine ((Script.condenses_deletes hs.forest dst _ _).countP_eq_count hs.forest ?_ hz).trans
    (List.count_eq_one_of_mem ?_ hmem)
  · intro a ha hmark
    have hsingle := (h.single_of_mem hraw ha).2
    cases a with
    | delete => cases hmark
    | deleteTree => exact (hsingle _ rfl).elim
    | insert | insertTree | update | move => rfl
  · rw [h.filterMap_deleted? hraw]
    exact h.deletes_once

theorem insertTree_mem_condense_iff (h : Accounts src dst p edits gone) (hd : dst.Sound)
    (hraw : raw.actions = edits ++ gone.map .delete) :
    (∃ node parent k, .insertTree node x parent k ∈ (raw.condense src dst).actions) ↔
      Script.Heads dst (markedThroughout dst raw.inserted) x := by
  constructor
  · rintro ⟨node, parent, k, hmem⟩
    obtain ⟨a, ha, hab⟩ := List.mem_filterMap.1 hmem
    obtain ⟨rfl, _⟩ | ⟨_, _, _, _, _, _, _, hb, hx⟩ | ⟨_, _, hb, _⟩ :=
      Script.condenseAction_eq_some hab
    · exact absurd rfl ((h.single_of_mem hraw ha).1 node x parent k)
    · cases hb
      exact hx
    · cases hb
  · intro hx
    have hmark := ((contains_markedThroughout hd.forest).1 hx.1).2 x .refl
    obtain ⟨a, ha, hax⟩ := (raw.contains_inserted x).1 hmark
    cases a with
    | insert node y parent k =>
        cases hax
        exact ⟨node, parent, k, List.mem_filterMap.2 ⟨_, ha, hx.condenseAction_insert⟩⟩
    | insertTree | delete | deleteTree | update | move => cases hax

theorem deleteTree_mem_condense_iff (h : Accounts src dst p edits gone) (hs : src.Sound)
    (hraw : raw.actions = edits ++ gone.map .delete) :
    .deleteTree x ∈ (raw.condense src dst).actions ↔
      Script.Heads src (markedThroughout src raw.deleted) x := by
  constructor
  · intro hmem
    obtain ⟨a, ha, hab⟩ := List.mem_filterMap.1 hmem
    obtain ⟨rfl, _⟩ | ⟨_, _, _, _, _, _, _, hb, _⟩ | ⟨_, _, hb, hx⟩ :=
      Script.condenseAction_eq_some hab
    · exact absurd rfl ((h.single_of_mem hraw ha).2 x)
    · cases hb
    · cases hb
      exact hx
  · intro hx
    have hmark := ((contains_markedThroughout hs.forest).1 hx.1).2 x .refl
    obtain ⟨a, ha, hax⟩ := (raw.contains_deleted x).1 hmark
    cases a with
    | delete node =>
        cases hax
        exact List.mem_filterMap.2 ⟨_, ha, hx.condenseAction_delete⟩
    | insert | insertTree | deleteTree | update | move => cases hax

theorem collapsed (h : Accounts src dst p edits gone) (hs : src.Sound) (hd : dst.Sound)
    (hraw : raw.actions = edits ++ gone.map .delete) :
    Collapsed src dst p raw (raw.condense src dst) where
  inserts x hreach hfree :=
    h.countP_insertedNodes hd hraw ((h.contains_inserted_iff hraw x).2 ⟨hreach, hfree⟩)
  deletes x hreach hfree :=
    h.countP_deletedNodes hs hraw ((h.contains_deleted_iff hraw x).2 ⟨hreach, hfree⟩)
  whole_inserts _ := (h.insertTree_mem_condense_iff hd hraw).trans
    (Script.heads_iff_widest hd (h.contains_inserted_iff hraw))
  whole_deletes _ := (h.deleteTree_mem_condense_iff hs hraw).trans
    (Script.heads_iff_widest hs (h.contains_deleted_iff hraw))
  edits := Script.filter_isEdit_filterMap raw.actions
  settled := Script.condense_condense hs.forest hd.forest raw

end Accounts

/-- The condensed script for any pairing of reachable nodes does each change that is due exactly
once. The subtrees that it inserts or deletes as a whole are all those of two nodes or more that
have no partners in them and lie in no larger one, its updates and moves are those of the full
script, and it cannot be condensed further. -/
theorem condense_collapses (hs : src.Sound) (hd : dst.Sound) (hp : p.Sound)
    (hwithin : p.Within src dst) :
    ∃ s, Script.ofPairing src dst p = .ok s ∧ Collapsed src dst p s (s.condense src dst) := by
  obtain ⟨d, hofPairing, hfin, htold, hlog⟩ := Draft.ofPairing_logged hs hd hp hwithin
  exact ⟨_, hofPairing, (Draft.accounts hfin htold hlog).collapsed hs hd rfl⟩

def sprig : Tree := ((twig 0 2).addChild 2 { kind := .named 3 }).2

theorem sound_sprig : sprig.Sound := (sound_twig 0 2).addChild 2 _

theorem widest_sprig {free : NodeId → Prop} (hroot : ¬ free 1) (h2 : free 2) (h3 : free 3) :
    sprig.Reaches 2 ∧ sprig.forest.Widest free 2 := by
  refine ⟨.single rfl, by decide, fun y hy => ?_, fun z hz hall => ?_⟩
  · have hmem : y ∈ [2, 3] := sound_sprig.forest.mem_preorder_iff.2 hy
    rcases List.mem_pair.1 hmem with rfl | rfl
    · exact h2
    · exact h3
  · rcases hz.cases_tail with rfl | ⟨y, hzy, hy⟩
    · rfl
    · cases hy
      exact absurd (hall 1 hzy) hroot

/-- Only the roots are partners: of either tree the two nodes below the root come or go as one. -/
theorem condense_collapses_sprig :
    ∃ p, Pairing.empty.addAll [(1, 1)] = .ok p ∧
      ∃ s, Script.ofPairing sprig sprig p = .ok s ∧
        Collapsed sprig sprig p s (s.condense sprig sprig) ∧
        (∃ node parent k, .insertTree node 2 parent k ∈ (s.condense sprig sprig).actions) ∧
        .deleteTree 2 ∈ (s.condense sprig sprig).actions := by
  obtain ⟨p, hadd, hp, hpairs⟩ := Pairing.Sound.empty.addAll (l := [(1, 1)]) (by decide)
    (by decide) (by simp [Pairing.image?, Pairing.origin?, Pairing.empty])
  have hmem : ∀ x y, p.image? x = some y ↔ x = 1 ∧ y = 1 := fun x y => by
    rw [← hp.mem_pairs, hpairs]
    simp [Pairing.pairs, Pairing.empty]
  have hone : p.image? 1 = some 1 := (hmem 1 1).2 ⟨rfl, rfl⟩
  have himage : ∀ x ≠ 1, p.image? x = none := fun x hx =>
    Option.eq_none_iff_forall_ne_some.2 fun y hy => hx ((hmem x y).1 hy).1
  have horigin : ∀ y ≠ 1, p.origin? y = none := fun y hy =>
    Option.eq_none_iff_forall_ne_some.2 fun x hx => hy ((hmem x y).1 ((hp.image_iff_origin x y).2 hx)).2
  obtain ⟨s, hs, hcollapsed⟩ := condense_collapses sound_sprig sound_sprig hp fun x y hxy => by
    obtain ⟨rfl, rfl⟩ := (hmem x y).1 hxy
    exact ⟨.refl, .refl⟩
  refine ⟨p, hadd, s, hs, hcollapsed, (hcollapsed.whole_inserts 2).2 (widest_sprig ?_ ?_ ?_),
    (hcollapsed.whole_deletes 2).2 (widest_sprig ?_ ?_ ?_)⟩
  · rw [(hp.image_iff_origin 1 1).1 hone]
    exact Option.some_ne_none 1
  · exact horigin 2 (by decide)
  · exact horigin 3 (by decide)
  · rw [hone]
    exact Option.some_ne_none 1
  · exact himage 2 (by decide)
  · exact himage 3 (by decide)

end TreeDelta
