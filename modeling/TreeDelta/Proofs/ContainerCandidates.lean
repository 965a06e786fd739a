import TreeDelta.Matching.Containers
import TreeDelta.Proofs.CurrentMeasures
import TreeDelta.Proofs.PairingRuns

namespace TreeDelta

variable {src dst t : Tree} {p : Pairing} {a x : NodeId}

namespace Forest

variable {f : Forest} {visited : Std.HashSet NodeId}

def UpClosed (f : Forest) (visited : Std.HashSet NodeId) : Prop :=
  ∀ c p, f.parent? c = some p → visited.contains c → visited.contains p

namespace UpClosed

theorem empty : f.UpClosed {} := fun _ _ _ h => by simp at h

theorem contains_of_under {y : NodeId} (h : f.UpClosed visited) (hxy : f.Under x y)
    (hy : visited.contains y) : visited.contains x := by
  induction hxy with
  | refl => exact hy
  | tail _ hparent ih => exact ih (h _ _ hparent hy)

theorem climb_eq (h : f.UpClosed visited) (n : Nat) (start : Option NodeId) :
    f.climb (fun x => !visited.contains x) n start =
      (f.way n start).filter fun x => !visited.contains x := by
  induction n generalizing start with
  | zero => rfl
  | succ n ih =>
      cases start with
      | none => rfl
      | some id =>
          rw [way_succ, climb]
          split
          · next hnew => rw [List.filter_cons, if_pos hnew, ih]
          · next hold =>
            rw [Bool.not_eq_true', Bool.not_eq_false] at hold
            refine (List.filter_eq_nil_iff.2 fun x hx => ?_).symm
            have hup : f.Under x id := by
              rw [← way_succ] at hx
              exact under_of_mem_way hx
            simp [h.contains_of_under hup hold]

theorem ancestorsWhile_eq (h : f.UpClosed visited) (a : NodeId) :
    f.ancestorsWhile (fun x => !visited.contains x) a =
      (f.ancestors a).filter fun x => !visited.contains x :=
  h.climb_eq f.size (f.parent? a)

end UpClosed

theorem contains_visit (f : Forest) (visited : Std.HashSet NodeId) (a x : NodeId) :
    (visited.insertMany ((f.ancestors a).filter fun x => !visited.contains x)).contains x ↔
      visited.contains x ∨ x ∈ f.ancestors a := by
  rw [Std.HashSet.contains_insertMany_list, Bool.or_eq_true, List.contains_iff_mem,
    List.mem_filter]
  by_cases hx : visited.contains x <;> simp [hx]

theorem UpClosed.visit (h : f.UpClosed visited) (hf : f.Sound) (a : NodeId) :
    f.UpClosed (visited.insertMany ((f.ancestors a).filter fun x => !visited.contains x)) := by
  intro c p hparent hc
  rw [contains_visit] at hc ⊢
  refine hc.imp (h c p hparent) fun hmem => ?_
  obtain ⟨q, hq, hcq⟩ := hf.mem_ancestors_iff.1 hmem
  exact hf.mem_ancestors_iff.2 ⟨q, hq, .head hparent hcq⟩

end Forest

namespace Tree.Surveyed

variable [TokenHash]

theorem measure_of_not_reaches (h : t.Surveyed) (hx : ¬ t.Reaches x) :
    t.measure x = .ok {} ∨ t.measure x = .error .unknownNode := by
  have hout : x ∉ (t.forest.subtree t.root).preorder := mt h.sound.mem_preorder_iff.1 hx
  rw [Tree.measure, h.measures]
  simp only [Forest.measures, Measure.walk_of_not_mem _ _ _ _ hout, Array.getElem?_replicate]
  split
  · next hm =>
    split at hm
    · cases hm
      exact .inl rfl
    · cases hm
  · exact .inr rfl

theorem isBelow_eq_ok (h : t.Surveyed) (ha : t.Reaches a) (hx : t.Reaches x) :
    t.isBelow a x = .ok (decide (x ∈ t.forest.ancestors a)) :=
  ((Tree.Current.mk h.sound fun _ _ hy => h.measure_eq_ok hy).exact h.isMeasured).isBelow a x ha hx

theorem gives_isRoot (h : t.Surveyed) (ha : t.Reaches a) :
    Gives (t.isRoot a) fun is => (is ↔ a = t.root) := by
  refine (Gives.of_eq (Tree.parent_eq_ok (h.has ha))).bind fun parent hparent => .pure ?_
  rw [hparent, Option.isNone_iff_eq_none]
  refine ⟨h.sound.eq_root ha, ?_⟩
  rintro rfl
  exact h.sound.root_parent

theorem isBelow_of_not_reaches (h : t.Surveyed) (ha : t.Reaches a)
    (hx : ¬ t.Reaches x) :
    t.isBelow a x = .ok false ∨ t.isBelow a x = .error .unknownNode := by
  rw [Tree.isBelow, h.measure_eq_ok ha]
  rcases h.measure_of_not_reaches hx with hm | hm
  · rw [hm]
    exact .inl rfl
  · rw [hm]
    exact .inr rfl

end Tree.Surveyed

def Pairing.HasPartnerBelow (dst : Tree) (p : Pairing) (x d : NodeId) : Prop :=
  ∃ y, p.image? d = some y ∧ x ∈ dst.forest.ancestors y

section Counting

variable [TokenHash] (hd : dst.Surveyed) (hp : p.Within src dst)
include hd hp

theorem Pairing.HasPartnerBelow.reaches {d : NodeId} (h : p.HasPartnerBelow dst x d) :
    dst.Reaches x := by
  obtain ⟨y, hy, habove⟩ := h
  exact hd.sound.reaches_of_mem_ancestors (hp d y hy).2 habove

theorem countBelow_eq_ok (hx : dst.Reaches x) (ds : List NodeId) :
    countBelow dst p x ds =
      .ok (ds.countP fun d => (p.image? d).any fun y => x ∈ dst.forest.ancestors y) := by
  induction ds with
  | nil => rfl
  | cons d ds ih =>
      rw [countBelow, List.countP_cons]
      cases himage : p.image? d with
      | none => exact ih
      | some y =>
          dsimp only
          rw [hd.isBelow_eq_ok (hp d y himage).2 hx, ih, Option.any_some]
          change Except.ok _ = _
          split <;> rfl

theorem countBelow_of_not_reaches (hx : ¬ dst.Reaches x) {ds : List NodeId} {n : Nat}
    (h : countBelow dst p x ds = .ok n) : n = 0 := by
  induction ds generalizing n with
  | nil =>
      cases h
      rfl
  | cons d ds ih =>
      rw [countBelow] at h
      cases himage : p.image? d with
      | none =>
          rw [himage] at h
          exact ih h
      | some y =>
          rw [himage] at h
          obtain ⟨here, hhere, h⟩ := exists_of_bind_eq_ok h
          obtain ⟨rest, hrest, h⟩ := exists_of_bind_eq_ok h
          rcases hd.isBelow_of_not_reaches (hp d y himage).2 hx with hno | hno
          · cases hhere.symm.trans hno
            cases h
            exact ih hrest
          · cases hhere.symm.trans hno

theorem countBelow_pos_iff (ds : List NodeId) :
    (∃ n, countBelow dst p x ds = .ok n ∧ 1 ≤ n) ↔ ∃ d ∈ ds, p.HasPartnerBelow dst x d := by
  by_cases hx : dst.Reaches x
  · simp [countBelow_eq_ok hd hp hx, Nat.succ_le_iff, List.countP_pos_iff,
      Pairing.HasPartnerBelow, Option.any_eq_true]
  · constructor
    · rintro ⟨n, hn, hpos⟩
      have hzero := countBelow_of_not_reaches hd hp hx hn
      omega
    · rintro ⟨d, _, hbelow⟩
      exact absurd (hbelow.reaches hd hp) hx

end Counting

namespace Containers

/-- A free node of this kind, other than the root. -/
structure Suits (dst : Tree) (p : Pairing) (kind : Kind) (x : NodeId) : Prop where
  kind : (dst.forest.contentOf x).kind = kind
  free : p.origin? x = none
  inner : x ≠ dst.root

/-- What makes a destination node a candidate for `a`. -/
structure Candidate (src dst : Tree) (p : Pairing) (a x : NodeId) : Prop where
  suits : Suits dst p (src.forest.contentOf a).kind x
  overlap : ∃ d ∈ (src.forest.subtree a).descendants, p.HasPartnerBelow dst x d

theorem Candidate.joinable [TokenHash] (h : Candidate src dst p a x) (hd : dst.Surveyed)
    (hp : p.Within src dst) (ha : src.Reaches a) : Joinable src dst a x := by
  obtain ⟨d, _, hbelow⟩ := h.overlap
  exact ⟨ha, hbelow.reaches hd hp, h.suits.kind.symm⟩

theorem gives_isCandidate [TokenHash] (hd : dst.Surveyed) (hx : dst.Reaches x) (kind : Kind) :
    Gives (isCandidate dst p kind x) fun is => (is ↔ Suits dst p kind x) := by
  refine (Gives.of_eq (Tree.kind_eq_ok (hd.has hx))).bind ?_
  rintro _ rfl
  refine (hd.gives_isRoot hx).bind fun root hroot => .pure ?_
  simp only [Bool.and_eq_true, beq_iff_eq, Pairing.dstPaired, Bool.not_eq_true',
    ← Bool.not_eq_true, Option.not_isSome_iff_eq_none, hroot]
  exact ⟨fun h => ⟨h.1.1, h.1.2, h.2⟩, fun h => ⟨⟨h.kind, h.free⟩, h.inner⟩⟩

theorem newAncestors_eq_ok [TokenHash] (hd : dst.Surveyed) (hx : dst.Reaches x)
    {visited : Std.HashSet NodeId} (hv : dst.forest.UpClosed visited) :
    newAncestors dst visited x =
      .ok ((dst.forest.ancestors x).filter fun y => !visited.contains y) := by
  rw [newAncestors, Forest.node_eq_ok (hd.has hx), ← hv.ancestorsWhile_eq x]
  rfl

/-- Of the nodes that have a partner of one of `ds` below them, the suitable ones that are not
visited yet turn up, each one once. -/
theorem gives_gatherCandidates [TokenHash] (hd : dst.Surveyed) (hp : p.Within src dst) (kind : Kind)
    {visited : Std.HashSet NodeId} (hv : dst.forest.UpClosed visited) (ds : List NodeId) :
    Gives (gatherCandidates dst p kind visited ds) fun xs => xs.Nodup ∧ ∀ x, x ∈ xs ↔
      ¬ visited.contains x ∧ Suits dst p kind x ∧ ∃ d ∈ ds, p.HasPartnerBelow dst x d := by
  induction ds generalizing visited with
  | nil => exact .ok ⟨.nil, by simp⟩
  | cons d ds ih =>
      rw [gatherCandidates]
      cases himage : p.image? d with
      | none =>
          refine (ih hv).mono fun xs hxs => ⟨hxs.1, fun x => ?_⟩
          simp [hxs.2, Pairing.HasPartnerBelow, himage]
      | some y =>
          have hy := (hp d y himage).2
          refine (Gives.of_eq (newAncestors_eq_ok hd hy hv)).bind ?_
          rintro _ rfl
          refine (Gives.filterM_iff fun x hx => gives_isCandidate hd
            (hd.sound.reaches_of_mem_ancestors hy (List.mem_filter.1 hx).1) kind).bind ?_
          rintro here ⟨hsub, hhere⟩
          refine (ih (hv.visit hd.sound.forest y)).bind fun rest hrest => .pure ⟨?_, fun x => ?_⟩
          · -- what comes later is not visited after this walk
            have hnodup : (dst.forest.ancestors y).Nodup :=
              hd.sound.forest.nodup_way (Nat.le_succ _) _
            refine List.nodup_append.2 ⟨(hnodup.filter _).sublist hsub, hrest.1, ?_⟩
            rintro x hx _ hx' rfl
            have habove := (List.mem_filter.1 ((hhere x).1 hx).1).1
            exact ((hrest.2 x).1 hx').1 ((Forest.contains_visit _ _ y x).2 (.inr habove))
          · have hhead : p.HasPartnerBelow dst x d ↔ x ∈ dst.forest.ancestors y := by
              simp [Pairing.HasPartnerBelow, himage]
            rw [List.mem_append, hhere, hrest.2, Forest.contains_visit, List.exists_mem_cons_iff,
              hhead, List.mem_filter, Bool.not_eq_true', Bool.not_eq_true]
            by_cases habove : x ∈ dst.forest.ancestors y
            · simp [habove]
            · simp [habove]

theorem gives_candidates [TokenHash] (hd : dst.Surveyed) (hp : p.Within src dst)
    (ha : src.forest.has a) :
    Gives (candidates src dst p a) fun xs => xs.Nodup ∧ ∀ x, x ∈ xs ↔ Candidate src dst p a x := by
  refine (Gives.of_eq (Tree.kind_eq_ok ha)).bind ?_
  rintro _ rfl
  refine (Gives.of_eq (Tree.descendants_eq_ok ha)).bind ?_
  rintro _ rfl
  refine (gives_gatherCandidates hd hp _ .empty _).mono fun xs hxs => ⟨hxs.1, fun x => ?_⟩
  rw [hxs.2, Std.HashSet.contains_empty]
  exact ⟨fun h => ⟨h.2.1, h.2.2⟩, fun h => ⟨nofun, h.suits, h.overlap⟩⟩

theorem commonDescendants_pos_iff [TokenHash] (hd : dst.Surveyed) (hp : p.Within src dst)
    (ha : src.forest.has a) :
    (∃ n, commonDescendants src dst p a x = .ok n ∧ 1 ≤ n) ↔
      ∃ d ∈ (src.forest.subtree a).descendants, p.HasPartnerBelow dst x d := by
  rw [commonDescendants, Tree.descendants_eq_ok ha]
  exact countBelow_pos_iff hd hp _

/-- The candidates for a node are, each one once, the free destination nodes of its kind, other
than the root, that have a descendant in common with it. -/
theorem candidates_overlap [TokenHash] (hd : dst.Surveyed) (hp : p.Between src dst)
    (ha : src.forest.has a) :
    ∃ xs, candidates src dst p a = .ok xs ∧ xs.Nodup ∧ ∀ x, x ∈ xs ↔
      x ≠ dst.root ∧ p.origin? x = none ∧ dst.kind x = src.kind a ∧
        ∃ n, commonDescendants src dst p a x = .ok n ∧ 1 ≤ n := by
  obtain ⟨xs, heq, hnodup, hmem⟩ := gives_candidates hd hp.within ha
  refine ⟨xs, heq, hnodup, fun x => ?_⟩
  rw [hmem, commonDescendants_pos_iff hd hp.within ha, Tree.kind_eq_ok ha]
  have hkind : ∀ d, p.HasPartnerBelow dst x d →
      dst.kind x = .ok (dst.forest.contentOf x).kind := fun d hbelow =>
    Tree.kind_eq_ok (hd.has (hbelow.reaches hd hp.within))
  constructor
  · rintro ⟨hsuits, d, hdesc, hbelow⟩
    refine ⟨hsuits.inner, hsuits.free, ?_, d, hdesc, hbelow⟩
    rw [hkind d hbelow, hsuits.kind]
  · rintro ⟨hinner, hfree, hsame, d, hdesc, hbelow⟩
    rw [hkind d hbelow, Except.ok.injEq] at hsame
    exact ⟨⟨hsame, hfree, hinner⟩, d, hdesc, hbelow⟩

def crown : Tree :=
  (((twig 0 1).addChild 2 { kind := .named 2 }).2.addChild 2 { kind := .named 3 }).2

def deepCrown : Tree :=
  ((((twig 0 1).addChild 2 { kind := .named 1 }).2.addChild 3 { kind := .named 2 }).2.addChild 2
    { kind := .named 3 }).2

theorem sound_crown : crown.Sound := ((sound_twig 0 1).addChild 2 _).addChild 2 _

theorem sound_deepCrown : deepCrown.Sound :=
  (((sound_twig 0 1).addChild 2 _).addChild 3 _).addChild 2 _

attribute [local instance] TokenHash.constant

/-- The walk up from the second leaf ends at once, at a node that the first walk has visited. -/
theorem candidates_overlap_crown :
    ∃ p, Pairing.empty.addAll [(3, 4), (4, 5)] = .ok p ∧
      commonDescendants crown.measured deepCrown.measured p 2 2 = .ok 2 ∧
      commonDescendants crown.measured deepCrown.measured p 2 3 = .ok 1 ∧
      ∃ xs, candidates crown.measured deepCrown.measured p 2 = .ok xs ∧ xs.Nodup ∧ ∀ x, x ∈ xs ↔
        x ≠ 1 ∧ p.origin? x = none ∧ deepCrown.measured.kind x = crown.measured.kind 2 ∧
          ∃ n, commonDescendants crown.measured deepCrown.measured p 2 x = .ok n ∧ 1 ≤ n := by
  refine ⟨_, rfl, by decide +kernel, by decide +kernel, ?_⟩
  exact candidates_overlap sound_deepCrown.surveyed
    (Pairing.between_of_addAll sound_crown.measured sound_deepCrown.measured
      (l := [(3, 4), (4, 5)]) rfl (by decide)) rfl

end Containers

end TreeDelta
