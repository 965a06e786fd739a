import TreeDelta.Proofs.Visits

namespace TreeDelta

variable {src dst : Tree} {p : Pairing}

namespace Draft

variable {d : Draft Action} {n : NodeId}

theorem Finished.image_eq_none_iff (h : Finished (scripting src dst) src p d)
    (hn : src.forest.has n) : d.pairing.image? n = none ↔ p.image? n = none := by
  rw [Option.eq_none_iff_forall_ne_some, Option.eq_none_iff_forall_ne_some]
  constructor
  · intro hfree b hb
    exact hfree b (h.base.old n b hb)
  · intro hfree b hb
    exact hfree b (h.base.old_of_has h.setting hn hb)

theorem Finished.reaches_of_leftover (h : Finished (scripting src dst) src p d)
    (hn : d.work.Under (src.forest.size + 1) n) (htop : n ≠ src.forest.size + 1)
    (hfree : d.pairing.image? n = none) : src.Reaches n := by
  induction hn with
  | refl => exact absurd rfl htop
  | @tail m n hm hmn ih =>
      obtain ⟨hsrc, _, hhome⟩ := h.leftover_home (Forest.has_of_parent? hmn) htop hfree
      rw [hmn, Tree.home] at hhome
      split at hhome
      · next he => rw [he]
      · -- the parent was a source node too, with a partner or without
        have hparent := hhome.symm
        have hhas := h.setting.src_sound.forest.has_parent hparent
        cases hb : d.pairing.image? m with
        | none =>
            refine (ih (fun he => ?_) hb).tail hparent
            exact src.forest.not_has_succ_size (he ▸ hhas)
        | some b => exact (h.setting.within m b (h.base.old_of_has h.setting hhas hb)).1.tail hparent

theorem Finished.under_top_of_reaches (h : Finished (scripting src dst) src p d)
    (hn : src.Reaches n) : d.work.Under (src.forest.size + 1) n := by
  induction hn with
  | refl =>
      cases hb : d.pairing.image? src.root with
      | some b => exact h.under_top (h.base.live _ b hb).2 ((h.base.pair _ b).1 hb)
      | none =>
          have hhome := h.base.home src.root h.setting.src_sound.has_root fun b _ hpb => by
            rw [h.base.old _ b hpb] at hb
            cases hb
          rw [Tree.home, if_pos rfl] at hhome
          exact .single hhome
  | @tail m n _ hmn ih =>
      have hhas := Forest.has_of_parent? hmn
      cases hb : d.pairing.image? n with
      | some b => exact h.under_top (h.base.live _ b hb).2 ((h.base.pair _ b).1 hb)
      | none =>
          have hhome := h.base.home n hhas fun b _ hpb => by
            rw [h.base.old _ b hpb] at hb
            cases hb
          have hne : n ≠ src.root := by
            rintro rfl
            rw [h.setting.src_sound.root_parent] at hmn
            cases hmn
          rw [Tree.home, if_neg hne, hmn] at hhome
          exact ih.tail hhome

theorem Finished.mem_leftovers_iff_unpaired (h : Finished (scripting src dst) src p d) :
    n ∈ d.leftovers (scripting src dst) ↔ src.Reaches n ∧ p.image? n = none := by
  rw [h.mem_leftovers_iff]
  constructor
  · rintro ⟨hunder, htop, hfree⟩
    have hreach := h.reaches_of_leftover hunder htop hfree
    have hhas := h.setting.src_sound.has_of_reaches hreach
    exact ⟨hreach, (h.image_eq_none_iff hhas).1 hfree⟩
  · rintro ⟨hreach, hfree⟩
    have hhas := h.setting.src_sound.has_of_reaches hreach
    refine ⟨h.under_top_of_reaches hreach, ?_, (h.image_eq_none_iff hhas).2 hfree⟩
    rintro rfl
    exact src.forest.not_has_succ_size hhas

theorem mem_dueInserts_iff (hdst : dst.Sound) {x : NodeId} {c : Content} :
    (x, c) ∈ dst.breadthFirst.filterMap (dueInsert dst p) ↔
      dst.Reaches x ∧ p.origin? x = none ∧ c = dst.forest.contentOf x := by
  rw [List.mem_filterMap]
  constructor
  · rintro ⟨y, hy, hdue⟩
    obtain ⟨hfree, hyx⟩ := Option.ite_none_right_eq_some.1 hdue
    cases hyx
    exact ⟨hdst.forest.mem_breadthFirst_iff.1 hy, hfree, rfl⟩
  · rintro ⟨hx, hfree, rfl⟩
    exact ⟨x, hdst.forest.mem_breadthFirst_iff.2 hx, if_pos hfree⟩

theorem nodup_dueInserts (hdst : dst.Sound) :
    ((dst.breadthFirst.filterMap (dueInsert dst p)).map Prod.fst).Nodup := by
  rw [List.map_filterMap]
  refine (hdst.forest.nodup_breadthFirst dst.root).filterMap fun x y z hx hy => ?_
  have hkey : ∀ {x}, z ∈ (dueInsert dst p x).map Prod.fst → x = z := by
    intro x hx
    obtain ⟨q, hq, rfl⟩ := Option.map_eq_some_iff.1 hx
    obtain ⟨_, he⟩ := Option.ite_none_right_eq_some.1 hq
    cases he
    rfl
  rw [hkey hx, hkey hy]

theorem mem_dueChanges_iff (hdst : dst.Sound) (hp : p.Sound) (hwithin : p.Within src dst)
    {u : Change} :
    u ∈ dst.breadthFirst.filterMap (dueChange src dst p) ↔
      ∃ a b, p.image? a = some b ∧ src.forest.contentOf a ≠ dst.forest.contentOf b ∧
        u = changeInto src dst a b := by
  rw [List.mem_filterMap]
  constructor
  · rintro ⟨b, _, hdue⟩
    obtain ⟨a, hab, hdue⟩ := Option.bind_eq_some_iff.1 hdue
    obtain ⟨hne, hu⟩ := Option.ite_none_left_eq_some.1 hdue
    exact ⟨a, b, (hp.image_iff_origin a b).2 hab, hne, (Option.some.inj hu).symm⟩
  · rintro ⟨a, b, hab, hne, rfl⟩
    refine ⟨b, hdst.forest.mem_breadthFirst_iff.2 (hwithin a b hab).2, ?_⟩
    rw [dueChange, (hp.image_iff_origin a b).1 hab, Option.bind_some, if_neg hne]

theorem nodup_dueChanges (hdst : dst.Sound) (hp : p.Sound) :
    ((dst.breadthFirst.filterMap (dueChange src dst p)).map Change.node).Nodup := by
  rw [List.map_filterMap]
  refine (hdst.forest.nodup_breadthFirst dst.root).filterMap fun x y a hx hy => ?_
  have hkey : ∀ {x}, a ∈ (dueChange src dst p x).map Change.node → p.image? a = some x := by
    intro x hx
    obtain ⟨u, hu, rfl⟩ := Option.map_eq_some_iff.1 hx
    obtain ⟨a, hab, hdue⟩ := Option.bind_eq_some_iff.1 hu
    obtain ⟨_, he⟩ := Option.ite_none_left_eq_some.1 hdue
    cases he
    exact (hp.image_iff_origin a x).2 hab
  exact Option.some.inj ((hkey hx).symm.trans (hkey hy))

theorem nodup_made (h : Finished (scripting src dst) src p d)
    (htold : Told (scripting src dst) p d)
    (hnodup : ((d.journal.toList.filterMap Action.inserted?).map Prod.fst).Nodup) :
    (d.journal.toList.filterMap Action.makes?).Nodup := by
  rw [List.map_filterMap, List.Nodup, List.pairwise_filterMap] at hnodup
  rw [List.Nodup, List.pairwise_filterMap]
  refine hnodup.imp_of_mem fun {a a'} ha ha' hne w hw w' hw' he => ?_
  subst he
  have hinsert : ∀ {a}, a ∈ d.journal.toList → a.makes? = some w →
      ∃ x, a.inserted?.map Prod.fst = some x ∧ d.pairing.origin? x = some w := by
    intro a ha hw
    have hsaid := htold a ha
    cases a with
    | insert _ x => exact ⟨x, rfl, Option.some.inj hw ▸ hsaid.1⟩
    | insertTree => exact hsaid.elim
    | delete | deleteTree | update | move => cases hw
  obtain ⟨x, hx, hxw⟩ := hinsert ha hw
  obtain ⟨x', hx', hxw'⟩ := hinsert ha' hw'
  exact hne x hx x' hx' (h.base.origin_inj hxw hxw')

theorem not_has_made (h : Finished (scripting src dst) src p d)
    (htold : Told (scripting src dst) p d) {a : Action} (ha : a ∈ d.journal.toList)
    (hn : a.makes? = some n) : ¬ src.forest.has n := by
  have hsaid := htold a ha
  cases a with
  | insert w x =>
      intro hhas
      cases hn
      have := h.base.old_of_has h.setting hhas ((h.base.pair n x).2 hsaid.1)
      rw [h.setting.pairs.image_iff_origin, hsaid.2.1] at this
      cases this
  | insertTree => exact hsaid.elim
  | delete | deleteTree | update | move => cases hn

end Draft

/-- What a script does that first applies `edits` and then deletes the nodes in `gone`. -/
structure Accounts (src dst : Tree) (p : Pairing) (edits : List Action) (gone : List NodeId) :
    Prop where
  /-- The edits are inserts, updates and moves of single nodes. -/
  plain : ∀ a ∈ edits, a.inserted?.isSome ∨ a.updated?.isSome ∨ a.moved?.isSome
  /-- Every destination node without partner is inserted with its own content. -/
  inserts : ∀ x c, (x, c) ∈ edits.filterMap Action.inserted? ↔
    dst.Reaches x ∧ p.origin? x = none ∧ c = dst.forest.contentOf x
  inserts_once : ((edits.filterMap Action.inserted?).map Prod.fst).Nodup
  /-- Inserted nodes get numbers of their own that no source node has. -/
  made : ∀ a ∈ edits, ∀ n, a.makes? = some n → ¬ src.forest.has n
  made_once : (edits.filterMap Action.makes?).Nodup
  /-- Every node whose partner differs in content is updated. -/
  updates : ∀ u, u ∈ edits.filterMap Action.updated? ↔
    ∃ a b, p.image? a = some b ∧ src.forest.contentOf a ≠ dst.forest.contentOf b ∧
      u = changeInto src dst a b
  updates_once : ((edits.filterMap Action.updated?).map Change.node).Nodup
  /-- Only partners are moved, and all those are whose parents are no partners. -/
  moves : ∀ a b, (a, b) ∈ edits.filterMap Action.moved? → p.image? a = some b
  moves_due : ∀ a b, p.image? a = some b → ¬ ParentsPaired src dst p a b →
    (a, b) ∈ edits.filterMap Action.moved?
  moves_once : ((edits.filterMap Action.moved?).map Prod.fst).Nodup
  /-- Every source node without partner is deleted. -/
  deletes : ∀ a, a ∈ gone ↔ src.Reaches a ∧ p.image? a = none
  deletes_once : gone.Nodup
  /-- What is updated, moved or deleted is a node of the source tree. -/
  original : ∀ a, a ∈ (edits.filterMap Action.updated?).map Change.node ++
    (edits.filterMap Action.moved?).map Prod.fst ++ gone → src.Reaches a

theorem Draft.accounts {d : Draft Action} (h : Finished (scripting src dst) src p d)
    (htold : Told (scripting src dst) p d)
    (hlog : Logged src dst p dst.breadthFirst d.journal.toList) :
    Accounts src dst p d.journal.toList (d.leftovers (scripting src dst)) := by
  have hdst : dst.Sound := h.setting.dst_sound
  have hp := h.setting.pairs
  have hwithin : p.Within src dst := h.setting.within
  have hinserts : ((d.journal.toList.filterMap Action.inserted?).map Prod.fst).Nodup := by
    rw [hlog.inserts]
    exact nodup_dueInserts hdst
  have hupdates : ∀ u, u ∈ d.journal.toList.filterMap Action.updated? ↔
      ∃ a b, p.image? a = some b ∧ src.forest.contentOf a ≠ dst.forest.contentOf b ∧
        u = changeInto src dst a b := by
    intro u
    rw [hlog.updates]
    exact mem_dueChanges_iff hdst hp hwithin
  constructor
  case plain =>
    intro a ha
    have hsaid := htold a ha
    cases a with
    | insert => exact .inl rfl
    | update => exact .inr (.inl rfl)
    | move => exact .inr (.inr rfl)
    | insertTree | delete | deleteTree => exact hsaid.elim
  case inserts =>
    intro x c
    rw [hlog.inserts]
    exact mem_dueInserts_iff hdst
  case inserts_once => exact hinserts
  case made => exact fun a ha n hn => not_has_made h htold ha hn
  case made_once => exact nodup_made h htold hinserts
  case updates => exact hupdates
  case updates_once =>
    rw [hlog.updates]
    exact nodup_dueChanges hdst hp
  case moves => exact fun a b hab => (hlog.moves a b hab).1
  case moves_due =>
    intro a b hab hno
    exact hlog.due b (h.visited (hwithin a b hab).2) a hab hno
  case moves_once =>
    refine hlog.moves_nodup.map_on fun q hq q' hq' he => ?_
    have hq := (hlog.moves q.1 q.2 hq).1
    have hq' := (hlog.moves q'.1 q'.2 hq').1
    rw [he, hq'] at hq
    exact Prod.ext he (Option.some.inj hq.symm)
  case deletes => exact fun a => h.mem_leftovers_iff_unpaired
  case deletes_once =>
    have hperm := (d.work.subtree (src.forest.size + 1)).postorder_perm
    exact (hperm.nodup_iff.2 (h.base.links.nodup_preorder _)).filter _
  case original =>
    intro a ha
    rcases List.mem_append.1 ha with ha | ha
    · rcases List.mem_append.1 ha with ha | ha
      · obtain ⟨u, hu, rfl⟩ := List.mem_map.1 ha
        obtain ⟨a, b, hab, _, rfl⟩ := (hupdates u).1 hu
        exact (hwithin a b hab).1
      · obtain ⟨⟨a, b⟩, hab, rfl⟩ := List.mem_map.1 ha
        exact (hwithin a b (hlog.moves a b hab).1).1
    · exact (h.mem_leftovers_iff_unpaired.1 ha).1

/-- The script for any pairing of reachable nodes does exactly what the pairing calls for: each
destination node without partner is inserted once, each partner with other content is updated
once, each partner whose parents are no partners is moved once and the others at most once, and
after all that each source node without partner is deleted once. -/
theorem ofPairing_accounts (hsrc : src.Sound) (hdst : dst.Sound) (hp : p.Sound)
    (hwithin : p.Within src dst) :
    ∃ s edits gone, Script.ofPairing src dst p = .ok s ∧
      s.actions = edits ++ gone.map .delete ∧ Accounts src dst p edits gone := by
  obtain ⟨d, hd, hfin, htold, hlog⟩ := Draft.ofPairing_logged hsrc hdst hp hwithin
  exact ⟨_, _, _, hd, rfl, Draft.accounts hfin htold hlog⟩

/-- Where parent and child change places, both are moved. -/
theorem ofPairing_accounts_swap :
    ∃ p, Pairing.empty.addAll [(1, 2), (2, 1)] = .ok p ∧
      ∃ s edits gone, Script.ofPairing (twig 0 1) (twig 2 3) p = .ok s ∧
        s.actions = edits ++ gone.map .delete ∧ Accounts (twig 0 1) (twig 2 3) p edits gone := by
  obtain ⟨p, hadd, hp, hwithin⟩ := exists_swap 0 1 2 3
  exact ⟨p, hadd, ofPairing_accounts (sound_twig 0 1) (sound_twig 2 3) hp hwithin⟩

end TreeDelta
