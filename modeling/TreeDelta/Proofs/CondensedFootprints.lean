import Mathlib.Data.List.Permutation
import Mathlib.Data.List.Sort
import TreeDelta.Proofs.WholeSubtrees
import TreeDelta.Script.Footprint

namespace TreeDelta

theorem pairwise_dropRepeats {xs : List NodeId} (h : xs.Pairwise (· ≤ ·)) :
    (dropRepeats xs).Pairwise (· < ·) := by
  fun_induction dropRepeats xs with
  | case1 a b rest _ ih => exact ih h.of_cons
  | case2 a b rest hne ih =>
      rw [List.pairwise_cons] at h
      refine List.pairwise_cons.2 ⟨fun c hc => ?_, ih h.2⟩
      have hab : a < b := Nat.lt_of_le_of_ne (h.1 b (by simp)) (by simpa using hne)
      rcases List.mem_cons.1 ((mem_dropRepeats _).1 hc) with rfl | hc
      · exact hab
      · exact Nat.lt_of_lt_of_le hab ((List.pairwise_cons.1 h.2).1 c hc)
  | case3 xs hshort =>
      cases xs with
      | nil => exact .nil
      | cons a xs =>
          cases xs with
          | nil => exact List.pairwise_singleton _ a
          | cons b rest => exact (hshort a b rest rfl).elim

theorem ascending_congr {xs ys : List NodeId} (h : ∀ x, x ∈ xs ↔ x ∈ ys) :
    ascending xs = ascending ys := by
  have hsorted : ∀ xs, (ascending xs).Pairwise (· < ·) := by
    intro xs
    apply pairwise_dropRepeats
    simpa using @List.pairwise_mergeSort NodeId (fun a b => decide (a ≤ b))
      (by simpa using fun _ _ _ => Nat.le_trans) (by simpa using Nat.le_total) xs
  refine (hsorted xs).eq_of_mem_iff (hsorted ys) fun x => ?_
  rw [mem_ascending, mem_ascending, h]

namespace Action

variable {src dst : Tree}

def known (src dst : Tree) : Action → Bool
  | .insertTree _ x .. => dst.forest.has x
  | .deleteTree node => src.forest.has node
  | .move node x .. => src.forest.has node && dst.forest.has x
  | _ => true

/-- What an action touches, if the nodes whose subtrees it is about exist. -/
def touched (src dst : Tree) (a : Action) : Footprint where
  srcUpdated := (a.updated?.map Change.node).toList
  srcDeleted := a.deletedNodes src
  srcMoved := (a.moved?.map fun m => (src.forest.subtree m.1).preorder).getD []
  dstUpdated := (a.updated?.map Change.dst).toList
  dstInserted := a.insertedNodes dst
  dstMoved := (a.moved?.map fun m => (dst.forest.subtree m.2).preorder).getD []

theorem footprint_eq (a : Action) :
    a.footprint src dst =
      if a.known src dst then .ok (a.touched src dst) else .error .unknownNode := by
  have hsubtree : ∀ (t : Tree) x, t.subtree x =
      if t.forest.has x then .ok (t.forest.subtree x) else .error .unknownNode := by
    intro t x
    by_cases hx : t.forest.has x
    · rw [if_pos hx, Tree.subtree_eq_ok hx]
    · rw [if_neg hx, Tree.subtree, Forest.node, Option.not_isSome_iff_eq_none.1 hx]
      rfl
  cases a with
  | insert | delete | update => rfl
  | insertTree node x parent k =>
      rw [footprint, hsubtree, known]
      split <;> rfl
  | deleteTree node =>
      rw [footprint, hsubtree, known]
      split <;> rfl
  | move node x parent k =>
      rw [footprint, hsubtree, hsubtree, known]
      by_cases hnode : src.forest.has node
      · by_cases hx : dst.forest.has x
        · rw [if_pos hnode, if_pos hx, hnode, hx]
          rfl
        · rw [if_pos hnode, if_neg hx, hnode, Bool.not_eq_true _ |>.mp hx]
          rfl
      · rw [if_neg hnode, Bool.not_eq_true _ |>.mp hnode]
        rfl

end Action

theorem edit_eq_none {a : Action} (h : ¬ a.isEdit) : a.updated? = none ∧ a.moved? = none := by
  simpa [Action.isEdit] using h

theorem mapM_eq_ite {α β ε : Type} {g : α → Except ε β} {known : α → Bool} {f : α → β} {e : ε}
    (h : ∀ a, g a = if known a then .ok (f a) else .error e) (l : List α) :
    l.mapM g = if l.all known then .ok (l.map f) else .error e := by
  induction l with
  | nil => rfl
  | cons a l ih =>
      rw [List.mapM_cons, h, ih, List.all_cons]
      cases known a with
      | false => rfl
      | true =>
          cases l.all known with
          | false => rfl
          | true => rfl

theorem flatMap_filter_of_nil {α β : Type} {keep : α → Bool} {f : α → List β}
    (h : ∀ a, ¬ keep a → f a = []) (l : List α) : (l.filter keep).flatMap f = l.flatMap f := by
  induction l with
  | nil => rfl
  | cons a l ih =>
      by_cases ha : keep a
      · rw [List.filter_cons_of_pos ha, List.flatMap_cons, List.flatMap_cons, ih]
      · rw [List.filter_cons_of_neg ha, List.flatMap_cons, h a ha, List.nil_append, ih]

namespace Script

variable {src dst : Tree} {added removed : Std.HashSet NodeId}

theorem footprint_eq (s : Script) :
    s.footprint src dst =
      if s.actions.all (Action.known src dst) then
        .ok (.union (s.actions.map (Action.touched src dst)))
      else .error .unknownNode := by
  rw [footprint, mapM_eq_ite Action.footprint_eq]
  split <;> rfl

theorem all_known_condense (s : Script) :
    (s.condense src dst).actions.all (Action.known src dst) =
      s.actions.all (Action.known src dst) := by
  rw [Bool.eq_iff_iff, List.all_eq_true, List.all_eq_true]
  constructor
  · intro h a ha
    cases a with
    | insert | delete | update => rfl
    | insertTree | deleteTree | move => exact h _ (List.mem_filterMap.2 ⟨_, ha, rfl⟩)
  · intro h b hb
    obtain ⟨a, ha, hab⟩ := List.mem_filterMap.1 hb
    obtain ⟨rfl, _⟩ | ⟨_, x, _, _, _, _, rfl, rfl, hx⟩ | ⟨node, rfl, rfl, hnode⟩ :=
      condenseAction_eq_some hab
    · exact h b ha
    · obtain ⟨c, hc⟩ := List.exists_mem_of_ne_nil _ hx.2.2
      exact Forest.has_of_mem_children hc
    · obtain ⟨c, hc⟩ := List.exists_mem_of_ne_nil _ hnode.2.2
      exact Forest.has_of_mem_children hc

theorem flatMap_edits_condense {f : Action → List NodeId} (hf : ∀ a : Action, ¬ a.isEdit → f a = [])
    (l : List Action) :
    (l.filterMap (condenseAction src dst added removed)).flatMap f = l.flatMap f := by
  rw [← flatMap_filter_of_nil hf, filter_isEdit_filterMap, flatMap_filter_of_nil hf]

end Script

/-- The condensed form of any script has the footprint of the script, and fails to have one where
the script does. -/
theorem footprint_condense {src dst : Tree} (hs : src.forest.Sound) (hd : dst.forest.Sound)
    (s : Script) : (s.condense src dst).footprint src dst = s.footprint src dst := by
  have hedits : ∀ {f : Action → List NodeId}, (∀ a : Action, ¬ a.isEdit → f a = []) →
      (s.condense src dst).actions.flatMap f = s.actions.flatMap f :=
    fun hf => Script.flatMap_edits_condense hf _
  have hinserted : ∀ x, x ∈ (s.condense src dst).actions.flatMap (Action.insertedNodes dst) ↔
      x ∈ s.actions.flatMap (Action.insertedNodes dst) := by
    intro x
    exact (Script.condenses_inserts src hd _ _).mem_flatMap_iff hd s.contains_inserted
  have hdeleted : ∀ x, x ∈ (s.condense src dst).actions.flatMap (Action.deletedNodes src) ↔
      x ∈ s.actions.flatMap (Action.deletedNodes src) := by
    intro x
    exact (Script.condenses_deletes hs dst _ _).mem_flatMap_iff hs s.contains_deleted
  rw [Script.footprint_eq, Script.footprint_eq, Script.all_known_condense]
  congr 2
  simp only [Footprint.union, List.flatMap_map, Footprint.mk.injEq, Action.touched]
  refine ⟨?_, ascending_congr hdeleted, ?_, ?_, ascending_congr hinserted, ?_⟩
  · exact congrArg ascending (hedits fun a ha => by rw [(edit_eq_none ha).1]; rfl)
  · exact congrArg ascending (hedits fun a ha => by rw [(edit_eq_none ha).2]; rfl)
  · exact congrArg ascending (hedits fun a ha => by rw [(edit_eq_none ha).1]; rfl)
  · exact congrArg ascending (hedits fun a ha => by rw [(edit_eq_none ha).2]; rfl)

def jumble : Script where
  actions := [.insert 8 1 3 0 (.named 2) none, .delete 2, .insert 9 2 8 0 (.named 3) none,
    .insert 9 2 8 0 (.named 3) none, .insert 7 40 1 0 (.named 3) none, .delete 1, .delete 30,
    .deleteTree 2, .insertTree 8 2 1 0, .move 2 1 1 0]
  top := 3

theorem footprint_condense_jumble :
    (twig 0 1).forest.Sound ∧ (twig 2 3).forest.Sound ∧
      (jumble.condense (twig 0 1) (twig 2 3)).footprint (twig 0 1) (twig 2 3) =
        .ok { srcDeleted := [1, 2, 30], srcMoved := [2], dstInserted := [1, 2, 40],
              dstMoved := [1, 2] } := by
  refine ⟨(sound_twig 0 1).forest, (sound_twig 2 3).forest, ?_⟩
  rw [footprint_condense (sound_twig 0 1).forest (sound_twig 2 3).forest]
  cbv

end TreeDelta
