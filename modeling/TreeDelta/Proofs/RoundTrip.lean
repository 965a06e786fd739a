import TreeDelta.Proofs.Journal
import TreeDelta.Proofs.Reproduction

namespace TreeDelta

namespace Action

def makes? : Action → Option NodeId
  | .insert node .. | .insertTree node .. => some node
  | _ => none

def named : Action → List NodeId
  | .insert node _ parent .. | .insertTree node _ parent _ | .move node _ parent _ => [node, parent]
  | .delete node | .deleteTree node | .update node .. => [node]

end Action

variable {src dst : Tree} {p : Pairing} {added removed : Std.HashSet NodeId}

namespace Script

theorem condenseAction_cases {a b : Action} (h : condenseAction src dst added removed a = some b) :
    b = a ∨
      (∃ node x parent k kind label,
        a = .insert node x parent k kind label ∧ b = .insertTree node x parent k) ∨
      ∃ node, a = .delete node ∧ b = .deleteTree node := by
  have hat : ∀ {t full id single whole}, condenseAt t full id single whole = some b →
      b = single ∨ b = whole := by
    intro t full id single whole h
    unfold condenseAt at h
    split at h
    · cases h
    · split at h <;> cases h <;> simp
  cases a with
  | insert node x parent k kind label =>
      simp only [condenseAction] at h
      split at h
      · exact (hat h).imp_right fun hb => .inl ⟨_, _, _, _, _, _, rfl, hb⟩
      · exact .inl (Option.some.inj h).symm
  | delete node =>
      simp only [condenseAction] at h
      split at h
      · exact (hat h).imp_right fun hb => .inr ⟨_, rfl, hb⟩
      · exact .inl (Option.some.inj h).symm
  | insertTree | deleteTree | update | move => exact .inl (Option.some.inj h).symm

theorem condenseAction_spec {a b : Action} (h : condenseAction src dst added removed a = some b) :
    b.named = a.named ∧ b.makes? = a.makes? := by
  obtain rfl | ⟨_, _, _, _, _, _, rfl, rfl⟩ | ⟨_, rfl, rfl⟩ := condenseAction_cases h
  · exact ⟨rfl, rfl⟩
  · exact ⟨rfl, rfl⟩
  · exact ⟨rfl, rfl⟩

theorem condenseAction_insert_eq_none {node x parent : NodeId} {k : Nat} {kind : Kind}
    {label : Option String} :
    condenseAction src dst added removed (.insert node x parent k kind label) = none ↔
      added.contains x ∧ Covered dst added x := by
  rw [condenseAction, condenseAt, ← covered_iff]
  split
  · split
    · simp [*]
    · split <;> simp [*]
  · simp [*]

theorem condenseAction_empty (a : Action) : condenseAction src dst ∅ ∅ a = some a := by
  cases a <;> simp [condenseAction]

end Script

namespace Draft

abbrev scripting (src dst : Tree) : Task Action := ⟨dst, src.forest.size + 1, fun a _ => a⟩

def script (src dst : Tree) (d : Draft Action) : Script :=
  ⟨d.journal.toList ++ (d.leftovers (scripting src dst)).map .delete, src.forest.size + 1⟩

theorem ofPairing_spec (hsrc : src.Sound) (hdst : dst.Sound) (hp : p.Sound)
    (hwithin : p.Within src dst) :
    ∃ d, Script.ofPairing src dst p = .ok (script src dst d) ∧
      Finished (scripting src dst) src p d ∧ Told (scripting src dst) p d ∧
      ∀ added removed, Bundled src dst p added removed →
        Replayed src dst added removed (scripting src dst) d := by
  have hs : Setting (scripting src dst) src p := ⟨hsrc, hdst, rfl, hp, hwithin⟩
  have hm : Stable (scripting src dst) src p fun d => Told (scripting src dst) p d ∧
      ∀ added removed, Bundled src dst p added removed →
        Replayed src dst added removed (scripting src dst) d := by
    refine ⟨fun d o h => h, fun placed placed' d a d' hb hstep hb' h => ⟨?_, ?_⟩⟩
    · exact (stable_told hs).step placed placed' d a d' hb hstep hb' h.1
    · intro added removed hbun
      exact (stable_replayed hs hbun).step placed placed' d a d' hb hstep hb' (h.2 added removed hbun)
  obtain ⟨d, hrun, hb, ho, htold, hreplayed⟩ := run_spec hs hm
    ⟨by simp [Told, start], fun added removed hbun => replayed_start hs hbun⟩
  refine ⟨d, ?_, ⟨hs, hb, ho⟩, htold, hreplayed⟩
  rw [Script.ofPairing, hrun]
  rfl

/-- The replay of a script that was drafted, condensed or not, reproduces the destination tree. -/
theorem replay_spec [TokenHash] {d : Draft Action} (h : Finished (scripting src dst) src p d)
    (hbun : Bundled src dst p added removed)
    (hr : Replayed src dst added removed (scripting src dst) d) :
    ∃ t, Script.replay { script src dst d with
        actions := (script src dst d).actions.filterMap
          (Script.condenseAction src dst added removed) } src dst = .ok t ∧
      Reproduces src dst p t := by
  obtain ⟨r, hrun, hm⟩ := hr
  obtain ⟨r', hdelete, hm'⟩ := Mirror.deleteAll h hbun (show Mirror _ _
      (d.work.detachAll (taken src removed [])) _ _ from hm) (List.nil_append _).symm
    (0 + (d.journal.toList.filterMap (Script.condenseAction src dst added removed)).length)
  obtain ⟨t, hresult, ht⟩ := hm'.result h hbun
  refine ⟨t, ?_, ht⟩
  change ((Replay.start src).applyAll dst 0 _ >>= fun r => r.result (src.forest.size + 1)) = _
  rw [script, List.filterMap_append, Replay.applyAll_append, hrun]
  change (r.applyAll dst _ _ >>= _) = _
  change r.applyAll dst _ _ = _ at hdelete
  rw [hdelete]
  exact hresult

theorem replay_script [TokenHash] {d : Draft Action} (h : Finished (scripting src dst) src p d)
    (hr : ∀ added removed, Bundled src dst p added removed →
      Replayed src dst added removed (scripting src dst) d) :
    ∃ t, (script src dst d).replay src dst = .ok t ∧ Reproduces src dst p t := by
  have hbun := Bundled.empty src dst p
  obtain ⟨t, ht, hrep⟩ := replay_spec h hbun (hr _ _ hbun)
  rw [List.filterMap_congr (g := some) fun a _ => Script.condenseAction_empty a,
    List.filterMap_some] at ht
  exact ⟨t, ht, hrep⟩

theorem bundled_script {d : Draft Action} (h : Finished (scripting src dst) src p d)
    (htold : Told (scripting src dst) p d) :
    Bundled src dst p (markedThroughout dst (script src dst d).inserted)
      (markedThroughout src (script src dst d).deleted) := by
  have hadded := markedBelow_markedThroughout dst (script src dst d).inserted
  have hremoved := markedBelow_markedThroughout src (script src dst d).deleted
  refine ⟨fun y hy => ?_, fun y z hz hin => ?_, fun n hn => ?_, fun n m hm hin => ?_⟩
  · obtain ⟨w, z, k, kind, label, hmem⟩ := Script.exists_of_inserted (hadded y hy).1
    rcases List.mem_append.1 hmem with hmem | hmem
    · exact (htold _ hmem).2.1
    · simp at hmem
  · exact (hadded z hin).2 y ((h.setting.dst_sound.forest.mem_children z y).2 hz)
  · have hmem := Script.exists_of_deleted (hremoved n hn).1
    rcases List.mem_append.1 hmem with hmem | hmem
    · exact (htold _ hmem).elim
    · have hleft : n ∈ d.leftovers (scripting src dst) := by simpa using hmem
      have hfree := (h.mem_leftovers_iff.1 hleft).2.2
      cases himage : p.image? n with
      | none => rfl
      | some b =>
          rw [h.base.old n b himage] at hfree
          cases hfree
  · exact (hremoved m hin).2 n ((h.setting.src_sound.forest.mem_children m n).2 hm)

end Draft

/-- The script for any pairing of reachable nodes can be drafted, and its replay on the source
tree succeeds and gives the destination tree. Each node with a partner stands in the result where
its partner stands in the destination tree, and no source node without partner is in the result. -/
theorem replay_ofPairing [TokenHash] (hsrc : src.Sound) (hdst : dst.Sound) (hp : p.Sound)
    (hwithin : p.Within src dst) :
    ∃ s t, Script.ofPairing src dst p = .ok s ∧ s.replay src dst = .ok t ∧ t.sameAs dst ∧
      (∀ a b, p.image? a = some b →
        ∃ i : Nat, t.preorder[i]? = some a ∧ dst.preorder[i]? = some b) ∧
      ∀ a, src.forest.has a → p.image? a = none → a ∉ t.preorder := by
  obtain ⟨d, hd, hfin, _, hreplayed⟩ := Draft.ofPairing_spec hsrc hdst hp hwithin
  obtain ⟨t, ht, hrep⟩ := Draft.replay_script hfin hreplayed
  exact ⟨_, t, hd, ht, hrep.sameAs, fun a b => hrep.getElem?_preorder hp hwithin hdst,
    fun a => hrep.not_mem_preorder⟩

theorem exists_swap (a b c d : Nat) :
    ∃ p, Pairing.empty.addAll [(1, 2), (2, 1)] = .ok p ∧ p.Sound ∧
      p.Within (twig a b) (twig c d) := by
  obtain ⟨p, hadd, hp, hpairs⟩ := Pairing.Sound.empty.addAll (l := [(1, 2), (2, 1)]) (by decide)
    (by decide) (by simp [Pairing.image?, Pairing.origin?, Pairing.empty])
  refine ⟨p, hadd, hp, fun x y hxy => ?_⟩
  rw [← hp.mem_pairs, hpairs] at hxy
  have hcases : x = 1 ∧ y = 2 ∨ x = 2 ∧ y = 1 := by
    simpa [Pairing.pairs, Pairing.empty] using hxy
  rcases hcases with ⟨rfl, rfl⟩ | ⟨rfl, rfl⟩
  · exact ⟨(reaches_twig a b).1, (reaches_twig c d).2⟩
  · exact ⟨(reaches_twig a b).2, (reaches_twig c d).1⟩

attribute [local instance] TokenHash.constant

/-- Parents and children may change places. -/
theorem replay_ofPairing_swap :
    ∃ p, Pairing.empty.addAll [(1, 2), (2, 1)] = .ok p ∧
      ∃ s t, Script.ofPairing (twig 0 1) (twig 2 3) p = .ok s ∧
        s.replay (twig 0 1) (twig 2 3) = .ok t ∧ t.sameAs (twig 2 3) ∧
        (∀ a b, p.image? a = some b →
          ∃ i : Nat, t.preorder[i]? = some a ∧ (twig 2 3).preorder[i]? = some b) ∧
        ∀ a, (twig 0 1).forest.has a → p.image? a = none → a ∉ t.preorder := by
  obtain ⟨p, hadd, hp, hwithin⟩ := exists_swap 0 1 2 3
  exact ⟨p, hadd, replay_ofPairing (sound_twig 0 1) (sound_twig 2 3) hp hwithin⟩

namespace Draft

/-- No action of the condensed script names a node whose insert was dropped. -/
theorem not_mem_named {d : Draft Action} (h : Finished (scripting src dst) src p d)
    (htold : Told (scripting src dst) p d) (hbun : Bundled src dst p added removed)
    {a a' b : Action} {n : NodeId} (ha : a ∈ (script src dst d).actions) (hn : a.makes? = some n)
    (hdrop : Script.condenseAction src dst added removed a = none)
    (ha' : a' ∈ (script src dst d).actions)
    (hkeep : Script.condenseAction src dst added removed a' = some b) : n ∉ a'.named := by
  have hinsert : ∃ x z k kind label, a = .insert n x z k kind label ∧
      Written (scripting src dst) p d.pairing a := by
    rcases List.mem_append.1 ha with ha | ha
    · have hw := htold a ha
      cases a with
      | insert => cases hn; exact ⟨_, _, _, _, _, rfl, hw⟩
      | insertTree => exact hw.elim
      | delete | deleteTree | update | move => cases hn
    · obtain ⟨m, _, rfl⟩ := List.mem_map.1 ha
      cases hn
  obtain ⟨x, z, k, kind, label, rfl, hx, hpx, -, -⟩ := hinsert
  obtain ⟨hadded, hcov⟩ := Script.condenseAction_insert_eq_none.1 hdrop
  have himage := (h.base.pair n x).2 hx
  -- a node whose place is `n` is covered itself
  have hbelongs : ∀ {x' z'}, Belongs (scripting src dst) d.pairing x' z' → n = z' →
      added.contains x' ∧ Covered dst added x' := by
    rintro x' _ (⟨_, rfl⟩ | ⟨y, hy, hz⟩) rfl
    · rw [h.base.top_free] at himage
      cases himage
    · obtain rfl := h.base.origin_inj hx hz
      exact ⟨hbun.added_below x' x hy hadded, x, hy, hadded⟩
  have hold : ∀ {x'}, p.image? n ≠ some x' := by
    intro x' hpn
    have := h.base.old n x' hpn
    rw [himage] at this
    cases this
    rw [h.setting.pairs.image_iff_origin, hpx] at hpn
    cases hpn
  rcases List.mem_append.1 ha' with ha' | ha'
  · have hw := htold a' ha'
    cases a' with
    | insert w x' z' =>
        intro hmem
        rcases List.mem_cons.1 hmem with rfl | hmem
        · rw [h.base.origin_inj hw.1 hx, Script.condenseAction_insert_eq_none.2 ⟨hadded, hcov⟩]
            at hkeep
          cases hkeep
        · have hno := hbelongs hw.2.2.2 (List.mem_singleton.1 hmem)
          rw [Script.condenseAction_insert_eq_none.2 hno] at hkeep
          cases hkeep
    | update w x' =>
        intro hmem
        obtain rfl := List.mem_singleton.1 hmem
        exact hold hw
    | move w x' z' =>
        intro hmem
        rcases List.mem_cons.1 hmem with rfl | hmem
        · exact hold hw.1
        · have hno := hbelongs hw.2 (List.mem_singleton.1 hmem)
          have := (h.setting.pairs.image_iff_origin w x').1 hw.1
          rw [hbun.added_free x' hno.1] at this
          cases this
    | insertTree | delete | deleteTree => exact hw.elim
  · obtain ⟨m, hm, rfl⟩ := List.mem_map.1 ha'
    intro hmem
    obtain rfl := List.mem_singleton.1 hmem
    have := (h.mem_leftovers_iff.1 hm).2.2
    rw [himage] at this
    cases this

end Draft

/-- Condensing keeps the meaning of a script: the replay succeeds and gives a tree like the one of
the full script, and like the destination tree. Nodes with partners stand at the same positions
under their own numbers, and the condensed script names no node whose insert it leaves out. -/
theorem replay_condense [TokenHash] (hsrc : src.Sound) (hdst : dst.Sound) (hp : p.Sound)
    (hwithin : p.Within src dst) :
    ∃ s t u, Script.ofPairing src dst p = .ok s ∧ s.replay src dst = .ok t ∧
      (s.condense src dst).replay src dst = .ok u ∧ u.sameAs t ∧ u.sameAs dst ∧
      (∀ a b, p.image? a = some b →
        ∃ i : Nat, t.preorder[i]? = some a ∧ u.preorder[i]? = some a) ∧
      ∀ a ∈ s.actions, ∀ n, a.makes? = some n →
        (∀ b ∈ (s.condense src dst).actions, b.makes? ≠ some n) →
        ∀ b ∈ (s.condense src dst).actions, n ∉ b.named := by
  obtain ⟨d, hd, hfin, htold, hreplayed⟩ := Draft.ofPairing_spec hsrc hdst hp hwithin
  have hbun := Draft.bundled_script hfin htold
  obtain ⟨t, ht, hrep⟩ := Draft.replay_script hfin hreplayed
  obtain ⟨u, hu, hrep'⟩ := Draft.replay_spec hfin hbun (hreplayed _ _ hbun)
  refine ⟨_, t, u, hd, ht, hu, hrep.sameAs_of_reproduces hrep', hrep'.sameAs, ?_, ?_⟩
  · intro a b hab
    obtain ⟨i, hi, hib⟩ := hrep.getElem?_preorder hp hwithin hdst hab
    obtain ⟨j, hj, hjb⟩ := hrep'.getElem?_preorder hp hwithin hdst hab
    have hij : i = j := by
      have hlt := (List.getElem?_eq_some_iff.1 hib).1
      exact (List.getElem?_inj hlt (hdst.forest.nodup_preorder dst.root)).1 (hib.trans hjb.symm)
    exact ⟨i, hi, hij ▸ hj⟩
  · intro a ha n hn hnone b hb
    obtain ⟨a', ha', hkeep⟩ := List.mem_filterMap.1 hb
    have hdrop : Script.condenseAction src dst
        (markedThroughout dst (Draft.script src dst d).inserted)
        (markedThroughout src (Draft.script src dst d).deleted) a = none := by
      cases hcond : Script.condenseAction src dst _ _ a with
      | none => rfl
      | some c =>
          refine absurd ((Script.condenseAction_spec hcond).2.trans hn) (hnone c ?_)
          exact List.mem_filterMap.2 ⟨a, ha, hcond⟩
    rw [(Script.condenseAction_spec hkeep).1]
    exact Draft.not_mem_named hfin htold hbun ha hn hdrop ha' hkeep

/-- Nothing is paired: the source tree goes and the destination tree comes as a whole. -/
theorem replay_condense_unpaired :
    ∃ s t u, Script.ofPairing (twig 0 1) (twig 2 3) .empty = .ok s ∧
      s.replay (twig 0 1) (twig 2 3) = .ok t ∧
      (s.condense (twig 0 1) (twig 2 3)).replay (twig 0 1) (twig 2 3) = .ok u ∧ u.sameAs t ∧
      u.sameAs (twig 2 3) ∧
      (∀ a b, Pairing.empty.image? a = some b →
        ∃ i : Nat, t.preorder[i]? = some a ∧ u.preorder[i]? = some a) ∧
      ∀ a ∈ s.actions, ∀ n, a.makes? = some n →
        (∀ b ∈ (s.condense (twig 0 1) (twig 2 3)).actions, b.makes? ≠ some n) →
        ∀ b ∈ (s.condense (twig 0 1) (twig 2 3)).actions, n ∉ b.named :=
  replay_condense (sound_twig 0 1) (sound_twig 2 3) .empty fun a b h => by
    simp [Pairing.image?, Pairing.empty] at h

end TreeDelta
