import TreeDelta.Proofs.Linked
import TreeDelta.Script.Replay

namespace TreeDelta.Forest

variable {f g : Forest} {a b c p : NodeId}

theorem has_congr (h : f.size = g.size) (id : NodeId) : f.has id ↔ g.has id := by
  rw [has_iff, has_iff, h]

theorem contentOf_eq (f : Forest) (id : NodeId) : f.contentOf id = (f.infoOf id).toContent := by
  unfold contentOf infoOf
  cases f.get? id <;> rfl

theorem parent?_congr (h : f.get? a = g.get? a) : f.parent? a = g.parent? a := by
  rw [parent?, parent?, h]

theorem childrenOf_congr (h : f.get? a = g.get? a) : f.childrenOf a = g.childrenOf a := by
  rw [childrenOf, childrenOf, h]

theorem infoOf_congr (h : f.get? a = g.get? a) : f.infoOf a = g.infoOf a := by
  rw [infoOf, infoOf, h]

theorem node_eq_ok (h : f.has a) : f.node a = .ok ⟨f.infoOf a, f.parent? a, f.childrenOf a⟩ := by
  obtain ⟨n, hn⟩ := get?_isSome h
  simp [node, infoOf, parent?, childrenOf, hn]

@[simp] theorem fst_alloc (f : Forest) (info : NodeInfo) : (f.alloc info).1 = f.size + 1 := rfl

theorem not_has_succ_size (f : Forest) : ¬ f.has (f.size + 1) := by
  rw [has_iff_le]
  omega

theorem has_alloc_iff (f : Forest) (info : NodeInfo) (j : NodeId) :
    (f.alloc info).2.has j ↔ j = f.size + 1 ∨ f.has j := by
  rw [has_iff_le, has_iff_le, size_alloc]
  constructor
  · rintro ⟨hpos, hle⟩
    rcases Nat.lt_or_ge f.size j with hlt | hge
    · exact .inl (Nat.le_antisymm hle hlt)
    · exact .inr ⟨hpos, hge⟩
  · rintro (rfl | ⟨hpos, hle⟩)
    · exact ⟨Nat.succ_pos _, Nat.le_refl _⟩
    · exact ⟨hpos, Nat.le_succ_of_le hle⟩

theorem parent?_alloc (f : Forest) (info : NodeInfo) (j : NodeId) :
    (f.alloc info).2.parent? j = f.parent? j := by
  by_cases hj : j = f.size + 1
  · subst hj
    rw [parent?, get?_alloc, if_pos rfl, parent?_eq_none f.not_has_succ_size]
    rfl
  · exact parent?_congr (by rw [get?_alloc, if_neg hj])

theorem childrenOf_alloc (f : Forest) (info : NodeInfo) (j : NodeId) :
    (f.alloc info).2.childrenOf j = f.childrenOf j := by
  by_cases hj : j = f.size + 1
  · subst hj
    rw [childrenOf, get?_alloc, if_pos rfl, childrenOf_eq_nil f.not_has_succ_size]
  · exact childrenOf_congr (by rw [get?_alloc, if_neg hj])

theorem infoOf_alloc (f : Forest) (info : NodeInfo) (j : NodeId) :
    (f.alloc info).2.infoOf j = if j = f.size + 1 then info else f.infoOf j := by
  by_cases hj : j = f.size + 1
  · rw [infoOf, get?_alloc, if_pos hj, if_pos hj]
  · rw [if_neg hj]
    exact infoOf_congr (by rw [get?_alloc, if_neg hj])

theorem parent?_modify_info (f : Forest) (w : NodeId) (u : NodeInfo → NodeInfo) (j : NodeId) :
    (f.modify w fun n => { n with info := u n.info }).parent? j = f.parent? j := by
  rw [parent?_modify, parent?]
  congr 1
  funext n
  split <;> rfl

theorem childrenOf_modify_info (f : Forest) (w : NodeId) (u : NodeInfo → NodeInfo) (j : NodeId) :
    (f.modify w fun n => { n with info := u n.info }).childrenOf j = f.childrenOf j := by
  rw [childrenOf_modify, childrenOf]
  cases f.get? j with
  | none => rfl
  | some n => by_cases hw : w = j <;> simp [hw]

theorem infoOf_modify_info (f : Forest) {w : NodeId} (hw : f.has w) (u : NodeInfo → NodeInfo)
    (j : NodeId) :
    (f.modify w fun n => { n with info := u n.info }).infoOf j =
      if w = j then u (f.infoOf j) else f.infoOf j := by
  rw [infoOf, get?_modify]
  by_cases hj : w = j
  · subst hj
    obtain ⟨n, hn⟩ := get?_isSome hw
    simp [infoOf, hn]
  · simp [infoOf, hj]

theorem infoOf_modify_of_eq (f : Forest) (w : NodeId) {u : Node → Node}
    (hu : ∀ n, (u n).info = n.info) (j : NodeId) : (f.modify w u).infoOf j = f.infoOf j := by
  rw [infoOf, get?_modify, infoOf]
  cases f.get? j with
  | none => by_cases hj : w = j <;> simp [hj]
  | some n => by_cases hj : w = j <;> simp [hj, hu]

theorem infoOf_detach (f : Forest) (c j : NodeId) : (f.detach c).infoOf j = f.infoOf j := by
  unfold detach
  split
  · refine (infoOf_modify_of_eq _ c ?_ j).trans (infoOf_modify_of_eq f _ ?_ j) <;>
      exact fun _ => rfl
  · rfl

theorem infoOf_place (f : Forest) (p c : NodeId) (i : Nat) (j : NodeId) :
    (f.place p c i).infoOf j = f.infoOf j := by
  rw [← infoOf_detach f c j]
  refine (infoOf_modify_of_eq _ c ?_ j).trans (infoOf_modify_of_eq (f.detach c) p ?_ j) <;>
    exact fun _ => rfl

theorem contentOf_detach (f : Forest) (c j : NodeId) :
    (f.detach c).contentOf j = f.contentOf j := by
  rw [contentOf_eq, infoOf_detach, contentOf_eq]

theorem contentOf_place (f : Forest) (p c : NodeId) (i : Nat) (j : NodeId) :
    (f.place p c i).contentOf j = f.contentOf j := by
  rw [contentOf_eq, infoOf_place, contentOf_eq]

theorem parent?_place (f : Forest) (p : NodeId) {c : NodeId} (hc : f.has c) (i : Nat) (j : NodeId) :
    (f.place p c i).parent? j = if c = j then some p else f.parent? j := by
  have hc' : (f.detach c).has c := (has_congr (size_detach f c) c).2 hc
  obtain ⟨n, hn⟩ := get?_isSome hc'
  have hd := parent?_detach f c j
  rw [place, parent?_modify, get?_modify]
  by_cases hj : c = j
  · subst hj
    by_cases hp : p = c <;> simp [hn, hp]
  · rw [if_neg hj, ← (hd.trans (if_neg hj)), parent?]
    cases (f.detach c).get? j with
    | none => by_cases hp : p = j <;> simp [hp]
    | some m => by_cases hp : p = j <;> simp [hj, hp]

theorem detach_detach (f : Forest) (c : NodeId) : (f.detach c).detach c = f.detach c := by
  have h : (f.detach c).parent? c = none := by rw [parent?_detach, if_pos rfl]
  rw [detach, h]

theorem place_detach (f : Forest) (p c : NodeId) (i : Nat) :
    (f.detach c).place p c i = f.place p c i := by
  rw [place, place, detach_detach]

namespace Sound

theorem alloc (h : f.Sound) (info : NodeInfo) : (f.alloc info).2.Sound where
  mem_children p c := by rw [childrenOf_alloc, parent?_alloc]; exact h.mem_children p c
  nodup_children p := by rw [childrenOf_alloc]; exact h.nodup_children p
  acyclic := acyclic_of_rank (fun j => (f.ancestors j).length) fun c p hp => by
    rw [parent?_alloc] at hp
    rw [h.length_ancestors hp]
    exact Nat.lt_succ_self _

theorem modify_info (h : f.Sound) (w : NodeId) (u : NodeInfo → NodeInfo) :
    (f.modify w fun n => { n with info := u n.info }).Sound where
  mem_children p c := by
    rw [childrenOf_modify_info, parent?_modify_info]; exact h.mem_children p c
  nodup_children p := by rw [childrenOf_modify_info]; exact h.nodup_children p
  acyclic := acyclic_of_rank (fun j => (f.ancestors j).length) fun c p hp => by
    rw [parent?_modify_info] at hp
    rw [h.length_ancestors hp]
    exact Nat.lt_succ_self _

theorem childrenOf_detach (h : f.Sound) (c j : NodeId) :
    (f.detach c).childrenOf j = (f.childrenOf j).erase c := by
  rw [Forest.childrenOf_detach]
  split
  · rfl
  · next hj => rw [List.erase_of_not_mem (mt (h.mem_children j c).1 hj)]

theorem mem_erase_children (h : f.Sound) (p c x : NodeId) :
    x ∈ (f.childrenOf p).erase c ↔ x ≠ c ∧ f.parent? x = some p := by
  rw [(h.nodup_children p).mem_erase_iff, h.mem_children]

theorem detach (h : f.Sound) (c : NodeId) : (f.detach c).Sound where
  mem_children p x := by
    rw [h.childrenOf_detach, h.mem_erase_children, parent?_detach]
    by_cases hx : c = x
    · simp [hx]
    · simp [hx, Ne.symm hx]
  nodup_children p := by rw [h.childrenOf_detach]; exact (h.nodup_children p).erase c
  acyclic := acyclic_of_rank (fun j => (f.ancestors j).length) fun x p hp => by
    rw [parent?_detach] at hp
    split at hp
    · cases hp
    · rw [h.length_ancestors hp]
      exact Nat.lt_succ_self _

theorem childrenOf_place (h : f.Sound) (hp : f.has p) (c : NodeId) (i : Nat) (j : NodeId) :
    (f.place p c i).childrenOf j =
      if p = j then ((f.childrenOf p).erase c).take i ++ c :: ((f.childrenOf p).erase c).drop i
      else (f.childrenOf j).erase c := by
  rw [Forest.childrenOf_place f c i j hp]
  split
  · next hj => rw [← hj, h.childrenOf_detach]
  · rw [h.childrenOf_detach]

theorem place (h : f.Sound) (hp : f.has p) (hc : f.has c) (hcp : ¬ f.Under c p) (i : Nat) :
    (f.place p c i).Sound where
  mem_children q x := by
    rw [h.childrenOf_place hp, parent?_place f p hc]
    by_cases hq : p = q
    · subst hq
      rw [if_pos rfl, List.perm_middle.mem_iff, List.take_append_drop, List.mem_cons,
        h.mem_erase_children]
      by_cases hx : c = x
      · simp [hx]
      · simp [hx, Ne.symm hx]
    · rw [if_neg hq, h.mem_erase_children]
      by_cases hx : c = x
      · simp [hx, hq]
      · simp [hx, Ne.symm hx]
  nodup_children q := by
    rw [h.childrenOf_place hp]
    split
    · have hnd := (h.nodup_children p).erase c
      rw [List.nodup_middle, List.take_append_drop, List.nodup_cons]
      exact ⟨fun hm => ((h.mem_erase_children p c c).1 hm).1 rfl, hnd⟩
    · exact (h.nodup_children q).erase c
  acyclic := by
    classical
    -- the tree at `c` goes below `p`, so its nodes are ranked after all that is above `p`
    refine acyclic_of_rank (fun j => (f.ancestors j).length +
      if f.Under c j then (f.ancestors p).length + 1 else 0) fun x q hq => ?_
    rw [parent?_place f p hc] at hq
    by_cases hx : c = x
    · subst hx
      rw [if_pos rfl, Option.some.injEq] at hq
      subst hq
      rw [if_neg hcp, if_pos .refl]
      omega
    · rw [if_neg hx] at hq
      have hlen := h.length_ancestors hq
      by_cases hcq : f.Under c q
      · rw [if_pos hcq, if_pos (hcq.tail hq)]
        omega
      · have hcx : ¬ f.Under c x := by
          intro hcx
          rcases hcx.cases_tail with rfl | ⟨r, hcr, hr⟩
          · exact hx rfl
          · exact hcq (Option.some.inj (hr.symm.trans hq) ▸ hcr)
        rw [if_neg hcq, if_neg hcx]
        omega

theorem linkable_iff (h : f.Sound) :
    f.linkable p c ↔ f.has p ∧ f.has c ∧ ¬ f.Under c p := by
  rw [← h.mem_self_ancestors_iff, linkable]
  simp only [Bool.and_eq_true, Bool.not_eq_true', List.contains_eq_mem, decide_eq_false_iff_not,
    and_assoc]

theorem linkable_alloc (h : f.Sound) (info : NodeInfo) (ha : f.has a) :
    (f.alloc info).2.linkable (f.size + 1) a := by
  refine (h.alloc info).linkable_iff.2 ⟨(f.has_alloc_iff info _).2 (.inl rfl),
    (f.has_alloc_iff info a).2 (.inr ha), fun hu => ?_⟩
  rcases hu.cases_tail with he | ⟨q, _, hq⟩
  · exact f.not_has_succ_size (he ▸ ha)
  · rw [parent?_alloc] at hq
    exact f.not_has_succ_size (has_of_parent? hq)

theorem insertAt_eq (h : f.Sound) (hp : f.has p) (hc : f.has c) (hcp : ¬ f.Under c p) (i : Nat) :
    f.insertAt p c i = .ok (f.place p c i) := by
  rw [insertAt, if_pos (h.linkable_iff.2 ⟨hp, hc, hcp⟩)]

end Sound

end TreeDelta.Forest
