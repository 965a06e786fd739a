import Mathlib.Data.List.Nodup
import Mathlib.Data.List.Perm.Subperm
import Mathlib.Data.List.Range
import Mathlib.Logic.Relation
import TreeDelta.Forest.Link

namespace TreeDelta.Forest

structure Sound (f : Forest) : Prop where
  mem_children : ∀ p c, c ∈ f.childrenOf p ↔ f.parent? c = some p
  nodup_children : ∀ p, (f.childrenOf p).Nodup
  acyclic : ∀ id, id ∉ f.ancestors id

/-- `f.Under a b`: the node `b` lies in the tree at `a`, which `a` itself does. -/
abbrev Under (f : Forest) : NodeId → NodeId → Prop :=
  Relation.ReflTransGen fun p c => f.parent? c = some p

variable {f g : Forest} {a b c p : NodeId}

theorem has_of_parent? (h : f.parent? c = some p) : f.has c := by
  obtain ⟨n, hn, _⟩ := Option.bind_eq_some_iff.1 h
  exact Option.isSome_iff_exists.2 ⟨n, hn⟩

theorem has_of_mem_children (h : c ∈ f.childrenOf p) : f.has p := by
  unfold childrenOf at h
  split at h
  · next n hn => exact Option.isSome_iff_exists.2 ⟨n, hn⟩
  · simp at h

theorem childrenOf_eq_nil (h : ¬ f.has a) : f.childrenOf a = [] :=
  List.eq_nil_iff_forall_not_mem.2 fun _ hc => h (has_of_mem_children hc)

theorem parent?_eq_none (h : ¬ f.has a) : f.parent? a = none :=
  Option.eq_none_iff_forall_ne_some.2 fun _ hp => h (has_of_parent? hp)

theorem has_iff_le (f : Forest) (id : Nat) : f.has id ↔ 0 < id ∧ id ≤ f.size := f.has_iff id

theorem get?_isSome (h : f.has a) : ∃ n, f.get? a = some n := Option.isSome_iff_exists.1 h

namespace Sound

theorem has_parent (h : f.Sound) (hp : f.parent? c = some p) : f.has p :=
  has_of_mem_children ((h.mem_children p c).2 hp)

theorem has_child (h : f.Sound) (hc : c ∈ f.childrenOf p) : f.has c :=
  has_of_parent? ((h.mem_children p c).1 hc)

end Sound

abbrev way (f : Forest) (n : Nat) (start : Option NodeId) : List NodeId :=
  f.climb (fun _ => true) n start

theorem way_succ (n : Nat) (id : NodeId) : f.way (n + 1) (some id) = id :: f.way n (f.parent? id) := by
  simp [way, climb]

theorem way_none (n : Nat) : f.way n none = [] := by cases n <;> rfl

theorem way_eq_of_length_lt {n m : Nat} (start : Option NodeId) (hn : (f.way n start).length < n)
    (hm : n ≤ m) : f.way m start = f.way n start := by
  induction n generalizing start m with
  | zero => omega
  | succ n ih =>
      obtain ⟨m, rfl⟩ : ∃ k, m = k + 1 := ⟨m - 1, by omega⟩
      cases start with
      | none => simp only [way_none]
      | some id =>
          rw [way_succ, List.length_cons] at hn
          rw [way_succ, way_succ, ih _ (by omega) (by omega)]

theorem way_subset_of_le {n m : Nat} (start : Option NodeId) (h : n ≤ m) :
    f.way n start ⊆ f.way m start := by
  induction n generalizing start m with
  | zero => simp [way, climb]
  | succ n ih =>
      obtain ⟨m, rfl⟩ : ∃ k, m = k + 1 := ⟨m - 1, by omega⟩
      cases start with
      | none => simp only [way_none, List.Subset.refl]
      | some id =>
          rw [way_succ, way_succ]
          exact List.cons_subset_cons _ (ih _ (by omega))

theorem under_of_mem_way {n : Nat} {p : NodeId} (h : a ∈ f.way n (some p)) : f.Under a p := by
  induction n generalizing p with
  | zero => simp [way, climb] at h
  | succ n ih =>
      rw [way_succ] at h
      rcases List.mem_cons.1 h with rfl | h
      · exact .refl
      · cases hp : f.parent? p with
        | none => simp [hp, way_none] at h
        | some q => exact (ih (hp ▸ h)).tail hp

theorem acyclic_of_rank (rank : NodeId → Nat)
    (h : ∀ c p, f.parent? c = some p → rank p < rank c) (id : NodeId) : id ∉ f.ancestors id := by
  have hle : ∀ {a b}, f.Under a b → rank a ≤ rank b := by
    intro a b hab
    induction hab with
    | refl => exact le_rfl
    | tail _ hc ih => exact ih.trans (h _ _ hc).le
  intro hid
  cases hp : f.parent? id with
  | none => simp [ancestors, ancestorsWhile, hp, way_none] at hid
  | some p =>
      have hup : f.Under id p := under_of_mem_way (n := f.size) (by
        simpa [ancestors, ancestorsWhile, hp] using hid)
      exact absurd (hle hup) (Nat.not_le.2 (h _ _ hp))

namespace Sound

theorem has_of_mem_way (h : f.Sound) {n : Nat} {start : Option NodeId}
    (hs : ∀ p ∈ start, f.has p) (ha : a ∈ f.way n start) : f.has a := by
  induction n generalizing start with
  | zero => simp [way, climb] at ha
  | succ n ih =>
      cases start with
      | none => simp [way_none] at ha
      | some p =>
          rw [way_succ] at ha
          rcases List.mem_cons.1 ha with rfl | ha
          · exact hs a rfl
          · exact ih (fun q hq => h.has_parent hq) ha

theorem nodup_way (h : f.Sound) {n : Nat} (hn : n ≤ f.size + 1) (start : Option NodeId) :
    (f.way n start).Nodup := by
  induction n generalizing start with
  | zero => simp [way, climb]
  | succ n ih =>
      cases start with
      | none => simp [way_none]
      | some p =>
          rw [way_succ, List.nodup_cons]
          refine ⟨fun hp => h.acyclic p ?_, ih (by omega) _⟩
          exact way_subset_of_le _ (Nat.le_of_succ_le_succ hn) hp

end Sound

theorem length_le_size {l : List NodeId} (hl : l.Nodup) (hf : ∀ a ∈ l, f.has a) :
    l.length ≤ f.size := by
  have hsub : l ⊆ List.range' 1 f.size := by
    intro a ha
    have := (f.has_iff_le a).1 (hf a ha)
    exact List.mem_range'_1.2 (by omega)
  simpa using (List.Nodup.subperm hl hsub).length_le

namespace Sound

theorem length_way_lt (h : f.Sound) (ha : f.has a) : (f.way f.size (f.parent? a)).length < f.size := by
  have hmem : ∀ b ∈ f.way (f.size + 1) (some a), f.has b :=
    fun b hb => h.has_of_mem_way (fun p hp => by cases hp; exact ha) hb
  have hlen := length_le_size (h.nodup_way le_rfl _) hmem
  rw [way_succ, List.length_cons] at hlen
  omega

theorem ancestors_of_parent? (h : f.Sound) (hp : f.parent? c = some p) :
    f.ancestors c = p :: f.ancestors p := by
  have hpos : 0 < f.size := by
    have := (f.has_iff_le p).1 (h.has_parent hp)
    omega
  have hlt := h.length_way_lt (has_of_parent? hp)
  obtain ⟨n, hn⟩ : ∃ n, f.size = n + 1 := ⟨f.size - 1, by omega⟩
  have hup : f.way f.size (some p) = p :: f.way n (f.parent? p) := by rw [hn, way_succ]
  rw [hp, hup, List.length_cons] at hlt
  change f.way f.size (f.parent? c) = p :: f.way f.size (f.parent? p)
  have hn' : f.way f.size (f.parent? p) = f.way n (f.parent? p) :=
    way_eq_of_length_lt _ (by omega) (by omega)
  rw [hp, hup, hn']

end Sound

theorem ancestors_eq_nil (hp : f.parent? a = none) : f.ancestors a = [] := by
  change f.way f.size (f.parent? a) = []
  rw [hp, way_none]

namespace Sound

theorem mem_ancestors_iff (h : f.Sound) : a ∈ f.ancestors b ↔ ∃ p, f.parent? b = some p ∧ f.Under a p := by
  constructor
  · intro ha
    cases hp : f.parent? b with
    | none => simp [ancestors_eq_nil hp] at ha
    | some p =>
        refine ⟨p, rfl, under_of_mem_way (n := f.size) ?_⟩
        rw [← hp]
        exact ha
  · rintro ⟨p, hp, hap⟩
    rw [h.ancestors_of_parent? hp]
    clear hp
    induction hap with
    | refl => exact List.mem_cons_self
    | tail _ hc ih => rw [h.ancestors_of_parent? hc]; exact List.mem_cons_of_mem _ ih

theorem mem_self_ancestors_iff (h : f.Sound) : a ∈ b :: f.ancestors b ↔ f.Under a b := by
  rw [List.mem_cons, h.mem_ancestors_iff]
  constructor
  · rintro (rfl | ⟨p, hp, hap⟩)
    · exact .refl
    · exact hap.tail hp
  · intro hab
    rcases hab.cases_tail with rfl | ⟨p, hap, hp⟩
    · exact .inl rfl
    · exact .inr ⟨p, hp, hap⟩

theorem not_under_parent (h : f.Sound) (hp : f.parent? c = some p) : ¬ f.Under c p :=
  fun hcp => h.acyclic c (h.mem_ancestors_iff.2 ⟨p, hp, hcp⟩)

theorem length_ancestors (h : f.Sound) (hp : f.parent? c = some p) :
    (f.ancestors c).length = (f.ancestors p).length + 1 := by
  rw [h.ancestors_of_parent? hp, List.length_cons]

theorem length_ancestors_lt (h : f.Sound) (ha : f.has a) : (f.ancestors a).length < f.size :=
  h.length_way_lt ha

theorem length_ancestors_le (h : f.Sound) (hab : f.Under a b) :
    (f.ancestors a).length ≤ (f.ancestors b).length := by
  induction hab with
  | refl => exact le_rfl
  | tail _ hc ih => rw [h.length_ancestors hc]; omega

theorem eq_of_under_of_length_eq (h : f.Sound) (hab : f.Under a b)
    (hl : (f.ancestors a).length = (f.ancestors b).length) : a = b := by
  rcases hab.cases_tail with rfl | ⟨p, hap, hp⟩
  · rfl
  · have := h.length_ancestors_le hap
    have := h.length_ancestors hp
    omega

theorem has_of_under (_ : f.Sound) (hab : f.Under a b) (ha : f.has a) : f.has b := by
  induction hab with
  | refl => exact ha
  | tail _ hc _ => exact has_of_parent? hc

theorem under_total (_ : f.Sound) (ha : f.Under a c) (hb : f.Under b c) :
    f.Under a b ∨ f.Under b a := by
  have huniq : Relator.RightUnique fun c p => f.parent? c = some p :=
    fun _ _ _ hp hq => Option.some.inj (hp.symm.trans hq)
  have hab := Relation.ReflTransGen.total_of_right_unique huniq
    (Relation.reflTransGen_swap.2 ha) (Relation.reflTransGen_swap.2 hb)
  exact hab.symm.imp Relation.reflTransGen_swap.1 Relation.reflTransGen_swap.1

theorem eq_of_siblings (h : f.Sound) (ha : f.parent? a = some p) (hb : f.parent? b = some p)
    (hac : f.Under a c) (hbc : f.Under b c) : a = b := by
  have hlen : (f.ancestors a).length = (f.ancestors b).length := by
    rw [h.length_ancestors ha, h.length_ancestors hb]
  rcases h.under_total hac hbc with hab | hba
  · exact h.eq_of_under_of_length_eq hab hlen
  · exact (h.eq_of_under_of_length_eq hba hlen.symm).symm

theorem induction_children (h : f.Sound) {motive : NodeId → Prop}
    (step : ∀ id, (∀ c ∈ f.childrenOf id, motive c) → motive id) (id : NodeId) : motive id := by
  -- on how far a node is from the greatest depth that a forest of this size can have
  generalize hn : f.size - (f.ancestors id).length = n
  induction n using Nat.strong_induction_on generalizing id with
  | _ n ih =>
      refine step id fun c hc => ?_
      have hp := (h.mem_children id c).1 hc
      have := h.length_ancestors hp
      have := h.length_ancestors_lt (has_of_parent? hp)
      exact ih (f.size - (f.ancestors c).length) (by omega) c rfl

theorem subtreeUpTo_eq (h : f.Sound) {n m : Nat} (id : NodeId)
    (hn : f.size ≤ n + (f.ancestors id).length) (hm : f.size ≤ m + (f.ancestors id).length) :
    f.subtreeUpTo n id = f.subtreeUpTo m id := by
  by_cases hid : f.has id
  · have hlt := h.length_ancestors_lt hid
    induction n generalizing m id with
    | zero => omega
    | succ n ih =>
        obtain ⟨m, rfl⟩ : ∃ k, m = k + 1 := ⟨m - 1, by omega⟩
        simp only [subtreeUpTo]
        congr 1
        refine List.map_congr_left fun c hc => ?_
        have hp := (h.mem_children id c).1 hc
        have := h.length_ancestors hp
        exact ih c (by omega) (by omega) (h.has_child hc) (h.length_ancestors_lt (h.has_child hc))
  · cases n <;> cases m <;> simp [subtreeUpTo, childrenOf_eq_nil hid]

theorem subtree_eq (h : f.Sound) (id : NodeId) :
    f.subtree id = .node id ((f.childrenOf id).map f.subtree) := by
  have hup : f.subtree id = f.subtreeUpTo (f.size + 1) id :=
    h.subtreeUpTo_eq id (by omega) (by omega)
  rw [hup, subtreeUpTo]
  rfl

theorem value_subtree (h : f.Sound) (id : NodeId) : (f.subtree id).value = id := by
  rw [h.subtree_eq]; rfl

theorem preorder_subtree (h : f.Sound) (id : NodeId) :
    (f.subtree id).preorder = id :: (f.childrenOf id).flatMap fun c => (f.subtree c).preorder := by
  rw [h.subtree_eq, Rose.preorder_node, List.flatMap_map]

theorem postorder_subtree (h : f.Sound) (id : NodeId) :
    (f.subtree id).postorder =
      ((f.childrenOf id).flatMap fun c => (f.subtree c).postorder) ++ [id] := by
  rw [h.subtree_eq, Rose.postorder_node, List.flatMap_map]

theorem mem_preorder_iff (h : f.Sound) : b ∈ (f.subtree a).preorder ↔ f.Under a b := by
  induction a using h.induction_children with
  | step a ih =>
      rw [h.preorder_subtree, List.mem_cons, List.mem_flatMap]
      constructor
      · rintro (rfl | ⟨c, hc, hb⟩)
        · exact .refl
        · exact .head ((h.mem_children a c).1 hc) ((ih c hc).1 hb)
      · intro hab
        rcases hab.cases_head with rfl | ⟨c, hc, hcb⟩
        · exact .inl rfl
        · have hc := (h.mem_children a c).2 hc
          exact .inr ⟨c, hc, (ih c hc).2 hcb⟩

theorem nodup_preorder (h : f.Sound) (a : NodeId) : (f.subtree a).preorder.Nodup := by
  induction a using h.induction_children with
  | step a ih =>
      rw [h.preorder_subtree, List.nodup_cons, List.nodup_flatMap]
      refine ⟨?_, ih, ?_⟩
      · intro ha
        obtain ⟨c, hc, ha⟩ := List.mem_flatMap.1 ha
        exact h.not_under_parent ((h.mem_children a c).1 hc) (h.mem_preorder_iff.1 ha)
      · refine (h.nodup_children a).imp_of_mem fun hb hc hne x hxb hxc => hne ?_
        exact h.eq_of_siblings ((h.mem_children a _).1 hb) ((h.mem_children a _).1 hc)
          (h.mem_preorder_iff.1 hxb) (h.mem_preorder_iff.1 hxc)

end Sound

theorem subtree_congr (hf : f.Sound) (hg : g.Sound) (a : NodeId)
    (h : ∀ b, f.Under a b → g.childrenOf b = f.childrenOf b) : g.subtree a = f.subtree a := by
  induction a using hf.induction_children with
  | step a ih =>
      rw [hf.subtree_eq, hg.subtree_eq, h a .refl]
      congr 1
      refine List.map_congr_left fun c hc => ?_
      exact ih c hc fun b hb => h b (.head ((hf.mem_children a c).1 hc) hb)

end TreeDelta.Forest
